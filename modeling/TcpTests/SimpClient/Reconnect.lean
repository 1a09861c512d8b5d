import TcpTests.SimpClient.Client

/-! The wait for a reply and lost connections. The wait outlives the connection on which the
reply could have come. -/
namespace TcpTests.SimpClient
open Lib

/-- A message was written on the current connection, and no data has been received since. -/
def Awaiting : List Happening → Prop
  | .wrote _ :: _ => True
  | .reset :: log => Awaiting log
  | _ => False

/-- A connection was lost, and since then the key for a reset was not pressed, nothing was
written and no data was received. -/
def LostSince : List Happening → Prop
  | .lost :: _ => True
  | .connected :: log => LostSince log
  | _ => False

/-- If the client waits for a reply, there is a message that can be replied to. -/
def Client.WaitsForReply (c : Client) : Prop := c.wait4Reply = true → Awaiting c.log

/-- The places of the loop that are reached with a connection. -/
def Pc.online : Pc → Prop
  | .throttle | .keys | .send | .sent | .select | .recv => True
  | .top | .socket | .connect | .exited => False

/-- A wait is for a message of the current connection, or it has outlived a lost one. -/
structure Inv (receiveOnly wait4Reply notConnected : Bool) (log : List Happening) : Prop where
  sending : receiveOnly = false
  waits : wait4Reply = true → Awaiting log ∨ LostSince log
  lost : LostSince log → wait4Reply = true
  unconnected : notConnected = true → ¬ Awaiting log

abbrev Client.Inv (c : Client) : Prop :=
  SimpClient.Inv c.receiveOnly c.wait4Reply c.notConnected c.log

structure At (wait4Reply notConnected : Bool) (log : List Happening) (pc : Pc) : Prop where
  connecting : pc = .socket ∨ pc = .connect → notConnected = true
  online : pc.online → notConnected = false
  sent : pc = .sent → Awaiting log
  waiting : pc = .select ∨ pc = .recv → wait4Reply = true

abbrev Client.At (c : Client) (pc : Pc) : Prop :=
  SimpClient.At c.wait4Reply c.notConnected c.log pc

section Log
variable {log : List Happening}

theorem LostSince.not_awaiting (h : LostSince log) : ¬ Awaiting log := by
  cases log with
  | nil => exact h.elim
  | cons happening log =>
    cases happening with
    | lost | connected => exact id
    | wrote bytes | gotData bytes | reset => exact h.elim

end Log

section Keys
variable {c d : Client} {keys : List Key} {pc : Pc} {wait4Reply notConnected : Bool}
  {log : List Happening}

theorem Client.Inv.start (onceOnly : Bool) (secsToSleep : ℕ) :
    (Client.start false onceOnly secsToSleep).Inv :=
  ⟨rfl, nofun, nofun, fun _ => id⟩

theorem Client.Inv.reset (hc : c.Inv) :
    Client.Inv { c with wait4Reply := false, log := .reset :: c.log } :=
  ⟨hc.sending, nofun, nofun, hc.unconnected⟩

theorem checkKey_inv (hc : c.Inv) (keys : List Key) :
    (c.checkKey keys).1.Inv ∧ (c.checkKey keys).1.notConnected = c.notConnected ∧
      (Awaiting c.log → Awaiting (c.checkKey keys).1.log) := by
  induction keys generalizing c with
  | nil => exact ⟨hc, rfl, id⟩
  | cons key keys ih =>
    cases key with
    | esc => exact ⟨hc, rfl, id⟩
    | other => exact ih hc
    | pause =>
      have hpaused : Client.Inv { c with isPaused := !c.isPaused } := hc
      exact ih hpaused
    | reset =>
      have hreset := Client.Inv.reset hc
      exact ih hreset

theorem checkKeySleep_inv (hc : c.Inv) (secs : ℕ) (keys : List Key) :
    (c.checkKeySleep secs keys).1.Inv ∧
      (c.checkKeySleep secs keys).1.notConnected = c.notConnected := by
  unfold Client.checkKeySleep
  split_ifs
  · exact ⟨hc, rfl⟩
  · obtain ⟨hinv, hconn, -⟩ := checkKey_inv hc keys
    exact ⟨hinv, hconn⟩

theorem At.top : At wait4Reply notConnected log .top := ⟨nofun, nofun, nofun, nofun⟩

theorem At.exited : At wait4Reply notConnected log .exited := ⟨nofun, nofun, nofun, nofun⟩

theorem At.ofUnconnected (hconn : notConnected = true) (hpc : pc = .socket ∨ pc = .connect) :
    At wait4Reply notConnected log pc := by
  rcases hpc with rfl | rfl <;> exact ⟨fun _ => hconn, nofun, nofun, nofun⟩

theorem At.ofConnected (hconn : notConnected = false)
    (hpc : pc = .throttle ∨ pc = .keys ∨ pc = .send) : At wait4Reply notConnected log pc := by
  rcases hpc with rfl | rfl | rfl <;> exact ⟨nofun, fun _ => hconn, nofun, nofun⟩

theorem At.ofWaiting (hconn : notConnected = false) (hwait : wait4Reply = true)
    (hpc : pc = .select ∨ pc = .recv) : At wait4Reply notConnected log pc := by
  rcases hpc with rfl | rfl <;> exact ⟨nofun, fun _ => hconn, nofun, fun _ => hwait⟩

theorem unlessEsc_inv {r : Client × Bool} (hr : r.1.Inv) (hpc : r.1.At pc) :
    (Client.unlessEsc r pc).Inv ∧ (Client.unlessEsc r pc).At (Client.unlessEsc r pc).pc := by
  unfold Client.unlessEsc
  split_ifs
  · exact ⟨hr, At.exited⟩
  · exact ⟨hr, hpc⟩

end Keys

section Step
variable {c d : Client} {e : Event}

theorem connect_inv (hc : c.Inv) (hat : c.At .connect) (connected : Bool) (keys : List Key) :
    (c.connect connected keys).Inv ∧
      (c.connect connected keys).At (c.connect connected keys).pc := by
  have hconn := hat.connecting (Or.inr rfl)
  unfold Client.connect
  split_ifs
  · refine ⟨⟨hc.sending, ?_, hc.lost, nofun⟩, At.ofConnected rfl (Or.inl rfl)⟩
    intro hwait
    rcases hc.waits hwait with hawait | hlost
    · exact absurd hawait (hc.unconnected hconn)
    · exact Or.inr hlost
  · obtain ⟨hinv, hconn'⟩ := checkKeySleep_inv hc c.secsToSleep keys
    exact unlessEsc_inv hinv (At.ofUnconnected (hconn'.trans hconn) (Or.inr rfl))

theorem throttle_inv (hc : c.Inv) (hat : c.At .throttle) (throttled : Bool) (keys : List Key) :
    (c.throttle throttled keys).Inv ∧
      (c.throttle throttled keys).At (c.throttle throttled keys).pc := by
  obtain ⟨hinv, -, -⟩ := checkKey_inv hc keys
  unfold Client.throttle
  split_ifs
  · exact unlessEsc_inv hinv At.top
  · exact ⟨hc, At.ofConnected (hat.online trivial) (Or.inr (Or.inl rfl))⟩

theorem keys_inv (hc : c.Inv) (hat : c.At .keys) (keys : List Key) :
    (c.keys keys).Inv ∧ (c.keys keys).At (c.keys keys).pc := by
  obtain ⟨hinv, hconn, -⟩ := checkKey_inv hc keys
  unfold Client.keys
  dsimp only
  split_ifs
  · exact unlessEsc_inv hinv At.top
  · have hconn' := hconn.trans (hat.online trivial)
    exact unlessEsc_inv hinv (At.ofConnected hconn' (Or.inr (Or.inr rfl)))

theorem write_inv (hc : c.Inv) (hat : c.At .send) (hsends : c.sends = true) {date : List Byte}
    {keys : List Key} {outcome : WriteOutcome} (h : c.write date keys outcome = some d) :
    d.Inv ∧ d.At d.pc := by
  have hconn := hat.online trivial
  have hwait : c.wait4Reply = false := by
    unfold Client.sends at hsends
    rw [Bool.and_eq_true, Bool.not_eq_true', Bool.not_eq_true'] at hsends
    exact hsends.2
  cases outcome with
  | wrote n =>
    simp only [Client.write] at h
    split_ifs at h
    cases h
    refine ⟨⟨hc.sending, fun _ => Or.inl trivial, nofun, ?_⟩, nofun, fun _ => hconn,
      fun _ => trivial, nofun⟩
    exact fun h => absurd (hconn.symm.trans h) nofun
  | failed =>
    cases h
    have hcount : Client.Inv { c with outCount := c.outCount + 1 } := hc
    obtain ⟨hinv, -, -⟩ := checkKey_inv hcount keys
    exact unlessEsc_inv hinv At.top

theorem sent_inv (hc : c.Inv) (hat : c.At .sent) (keys₁ keys₂ : List Key) :
    (c.sent keys₁ keys₂).Inv ∧ (c.sent keys₁ keys₂).At (c.sent keys₁ keys₂).pc := by
  obtain ⟨hinv₁, hconn₁, hawait₁⟩ := checkKey_inv hc keys₁
  obtain ⟨hinv₂, hconn₂, hawait₂⟩ := checkKey_inv hinv₁ keys₂
  have hawait := hawait₂ (hawait₁ (hat.sent rfl))
  have hconn := hconn₂.trans (hconn₁.trans (hat.online trivial))
  unfold Client.sent
  dsimp only
  split_ifs
  · exact ⟨hinv₁, At.exited⟩
  · exact ⟨hinv₂, At.exited⟩
  · refine ⟨⟨hinv₂.sending, fun _ => Or.inl hawait, fun _ => rfl, ?_⟩,
      At.ofWaiting hconn rfl (Or.inl rfl)⟩
    exact fun h => absurd (hconn.symm.trans h) nofun

theorem select_inv (hc : c.Inv) (hat : c.At .select) (outcome : SelectOutcome) :
    (c.select outcome).Inv ∧ (c.select outcome).At (c.select outcome).pc := by
  cases outcome with
  | failed => exact ⟨hc, At.exited⟩
  | notReady => exact ⟨hc, At.top⟩
  | ready =>
    have hconn := hat.online trivial
    have hwait := hat.waiting (Or.inl rfl)
    exact ⟨hc, At.ofWaiting hconn hwait (Or.inr rfl)⟩

theorem recv_inv (hc : c.Inv) (hat : c.At .recv) (keys : List Key) (outcome : RecvOutcome) :
    (c.recv keys outcome).Inv ∧ (c.recv keys outcome).At (c.recv keys outcome).pc := by
  have hwait := hat.waiting (Or.inr rfl)
  have hcount : Client.Inv { c with recvErrors := c.recvErrors + 1 } := hc
  cases outcome with
  | wouldBlock => exact ⟨hc, At.top⟩
  | failed =>
    unfold Client.recv
    dsimp only
    split_ifs
    · exact ⟨⟨hc.sending, fun _ => Or.inr trivial, fun _ => hwait, fun _ => id⟩, At.top⟩
    · have hinv := (checkKeySleep_inv hcount (c.sleepSecs * 2) keys).1
      exact unlessEsc_inv hinv At.top
  | closed =>
    unfold Client.recv
    dsimp only
    split_ifs
    · exact ⟨hc, At.exited⟩
    · have hinv := (checkKeySleep_inv hcount (c.sleepSecs * 2) keys).1
      exact unlessEsc_inv hinv At.top
  | received bytes fits =>
    refine ⟨⟨hc.sending, nofun, nofun, fun _ => id⟩, ?_⟩
    unfold Client.recv
    dsimp only
    split_ifs
    · exact At.exited
    · exact At.top

theorem step_inv (hc : c.Inv) (hat : c.At c.pc) (h : step c e = some d) :
    d.Inv ∧ d.At d.pc := by
  unfold step at h
  split at h
  · cases h
    refine ⟨hc, ?_⟩
    unfold Client.top
    dsimp only
    split_ifs with hconn
    · exact At.ofUnconnected hconn (Or.inl rfl)
    · exact At.ofConnected (Bool.eq_false_of_not_eq_true hconn) (Or.inl rfl)
  · rename_i outcome hpc
    cases h
    rw [hpc] at hat
    have hconn := hat.connecting (Or.inl rfl)
    cases outcome with
    | none => exact ⟨hc, At.exited⟩
    | some sd => exact ⟨hc, At.ofUnconnected hconn (Or.inr rfl)⟩
  · rename_i hpc
    rw [hpc] at hat
    cases h
    exact connect_inv hc hat _ _
  · rename_i hpc
    rw [hpc] at hat
    cases h
    exact throttle_inv hc hat _ _
  · rename_i hpc
    rw [hpc] at hat
    cases h
    exact keys_inv hc hat _
  · rename_i hpc
    rw [hpc] at hat
    split_ifs at h with hsends
    exact write_inv hc hat hsends h
  · rename_i hpc
    rw [hpc] at hat
    split_ifs at h with hsends
    cases h
    have hwait : c.wait4Reply = true := by
      simpa [Client.sends, hc.sending] using hsends
    exact ⟨hc, At.ofWaiting (hat.online trivial) hwait (Or.inl rfl)⟩
  · rename_i hpc
    rw [hpc] at hat
    cases h
    exact sent_inv hc hat _ _
  · rename_i hpc
    rw [hpc] at hat
    cases h
    exact select_inv hc hat _
  · rename_i hpc
    rw [hpc] at hat
    cases h
    exact recv_inv hc hat _ _
  · cases h

end Step

/-- In every state of every run of a client that sends, and so at each decision whether to send:
the client waits only for a reply that can come just when no connection was lost since the last
press of the reset key, message written or data received. -/
theorem reconnect_iff (onceOnly : Bool) (secsToSleep : ℕ) (es : List Event) (c : Client)
    (hr : runs step (.start false onceOnly secsToSleep) es = some c) :
    c.WaitsForReply ↔ ¬ LostSince c.log := by
  have hstart : (Client.start false onceOnly secsToSleep).Inv ∧
      (Client.start false onceOnly secsToSleep).At .socket :=
    ⟨Client.Inv.start onceOnly secsToSleep, At.ofUnconnected rfl (Or.inl rfl)⟩
  have hc : c.Inv ∧ c.At c.pc :=
    runs_invariant (fun c => c.Inv ∧ c.At c.pc) (fun _ _ _ hc => step_inv hc.1 hc.2) hstart hr
  constructor
  · intro hwaits hlost
    exact hlost.not_awaiting (hwaits (hc.1.lost hlost))
  · intro hlost hwait
    rcases hc.1.waits hwait with hawait | h
    · exact hawait
    · exact absurd h hlost

/-- The client connects, sends, and its connection is lost at the third failed read. -/
def lostRun : List Event :=
  let failing : List Event :=
    [.select .ready, .recv .failed [], .tick, .throttle false [], .keys [], .tick]
  [.socket (some 3), .connect true [], .throttle false [], .keys [], .write [] (.wrote 1) [],
    .sent [] []] ++ failing ++ failing ++ [.select .ready, .recv .failed []]

/-- It is connected again, and keys may be pressed before it decides whether to send. -/
def againRun (keys : List Key) : List Event :=
  lostRun ++ [.tick, .socket (some 3), .connect true [], .throttle false [], .keys keys]

/-- The reset key is pressed in time. -/
theorem reconnect_iff_sample :
    ∃ c, runs step (.start false false 5) (againRun [.reset]) = some c ∧ c.pc = .send ∧
      c.WaitsForReply := by
  have hrun : (runs step (.start false false 5) (againRun [.reset])).map
      (fun c => (c.pc, c.log.head?)) = some (.send, some .reset) := by decide
  obtain ⟨c, hc, hview⟩ := Option.map_eq_some_iff.mp hrun
  rw [Prod.mk.injEq] at hview
  obtain ⟨log, hlog⟩ := List.head?_eq_some_iff.mp hview.2
  have hlost : ¬ LostSince c.log := by
    rw [hlog]
    exact id
  exact ⟨c, hc, hview.1, (reconnect_iff false 5 _ c hc).mpr hlost⟩

/-- Without it the client waits on the new connection for the reply to a message that was
written on the old one. -/
theorem reconnect_waits :
    ∃ c, runs step (.start false false 5) (againRun []) = some c ∧ c.pc = .send ∧
      c.wait4Reply = true ∧ ¬ c.WaitsForReply := by
  have hrun : (runs step (.start false false 5) (againRun [])).map
      (fun c => (c.pc, c.wait4Reply, c.log.head?)) = some (.send, true, some .connected) := by decide
  obtain ⟨c, hc, hview⟩ := Option.map_eq_some_iff.mp hrun
  rw [Prod.mk.injEq, Prod.mk.injEq] at hview
  obtain ⟨hpc, hwait, hhead⟩ := hview
  obtain ⟨log, hlog⟩ := List.head?_eq_some_iff.mp hhead
  refine ⟨c, hc, hpc, hwait, ?_⟩
  intro hwaits
  have hawait := hwaits hwait
  rw [hlog] at hawait
  exact hawait

end TcpTests.SimpClient
