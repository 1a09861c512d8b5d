import TcpTests.SimpClient.Exchange

/-! One reply for each message between `simp_client` and `simp_server`. Neither side looks for the
linefeed that ends a message or a reply: each block that is received is taken for a whole one. -/
namespace TcpTests.SimpClient
open Lib Text

/-- The server has replied to each complete message that it received, and all messages but one
are answered by a complete reply. -/
structure Exchange.OneReply (s : Exchange) : Prop where
  replies : s.sendsDone = s.conn.received.count lf
  outstanding : messages s.client.log ≤ (gotten s.client.log).count lf + 1

/-- The block that was received last, if nothing was written since, has a linefeed. -/
def Answered : List Happening → Prop
  | .gotData bytes :: _ => lf ∈ bytes
  | _ => True

instance : ∀ log, Decidable (Answered log)
  | [] => inferInstanceAs (Decidable True)
  | .gotData _ :: _ => inferInstanceAs (Decidable (_ ∈ _))
  | .connected :: _ | .wrote _ :: _ | .lost :: _ | .reset :: _ => inferInstanceAs (Decidable True)

/-- Each block that the server receives has one linefeed, and the last block that the client has
received before it writes again has one. -/
def Framed (s : Exchange) : Exchange.Event → Prop
  | .serve n _ _ => (s.up.take n).count lf = 1
  | .write _ _ => Answered s.client.log
  | .quiet _ | .recv _ => True

instance (s : Exchange) : ∀ e, Decidable (Framed s e)
  | .serve _ _ _ => inferInstanceAs (Decidable (_ = _))
  | .write _ _ => inferInstanceAs (Decidable (Answered _))
  | .quiet _ | .recv _ => inferInstanceAs (Decidable True)

/-- The turns of a client that sends: before each write its messages are as many as the complete
replies, and before the block that ends the wait one more. -/
def Turn : List Happening → Prop
  | [] => True
  | .connected :: log => log = []
  | .wrote _ :: log => messages log = (gotten log).count lf
  | .gotData _ :: log => messages log = (gotten log).count lf + 1
  | .lost :: _ | .reset :: _ => False

/-- The places that are neither before the connection nor between a write and the wait for its
reply. -/
def Pc.Plain : Pc → Prop
  | .socket | .connect | .sent => False
  | .top | .throttle | .keys | .send | .select | .recv | .exited => True

/-- What holds of the client between its steps when nothing fails. -/
structure Steady (c : Client) : Prop where
  connecting : c.pc = .socket ∨ c.pc = .connect → c.log = []
  connected : c.pc ≠ .socket → c.pc ≠ .connect → c.notConnected = false
  awaiting : Awaiting c.log ↔ c.wait4Reply = true ∨ c.pc = .sent
  waiting : c.receiveOnly = false → c.pc = .select ∨ c.pc = .recv → c.wait4Reply = true
  turn : c.receiveOnly = false → Turn c.log

structure Exchange.Inv (s : Exchange) : Prop where
  steady : Steady s.client
  oneReply : s.OneReply
  up : written s.client.log = s.conn.received ++ s.up
  down : s.conn.sent = gotten s.client.log ++ s.down
  writes : (written s.client.log).count lf ≤ messages s.client.log
  sends : s.conn.sent.count lf ≤ s.sendsDone

section Text
variable {tmr : Tm} {n : ℕ}

theorem count_datetimeStg : (datetimeStg tmr).count lf = 0 :=
  List.count_eq_zero.mpr (lf_notMem_datetimeStg tmr)

theorem count_message (outCount : ℕ) : (message (datetimeStg tmr) outCount).count lf = 1 := by
  have htext : (": " ++ toString outCount ++ " - Hello server!\n").toList =
      ": ".toList ++ Nat.toDigits 10 outCount ++ " - Hello server!\n".toList := by
    simp [toString, Nat.repr]
  have hdigits : ((Nat.toDigits 10 outCount).map charByte).count lf = 0 :=
    List.count_eq_zero.mpr (lf_notMem_digits outCount)
  change (datetimeStg tmr ++
    (": " ++ toString outCount ++ " - Hello server!\n").toList.map charByte).count lf = 1
  rw [htext, List.map_append, List.map_append, List.count_append, List.count_append,
    List.count_append, count_datetimeStg, hdigits]
  decide

theorem count_reply : (reply tmr).count lf = 1 := by
  unfold reply
  rw [List.count_append, count_datetimeStg]
  decide

theorem count_take_le (l : List Byte) : (l.take n).count lf ≤ l.count lf :=
  (List.take_sublist n l).count_le lf

end Text

section Steady
variable {c d : Client} {pc : Pc}

theorem Steady.start (receiveOnly onceOnly : Bool) (secsToSleep : ℕ) :
    Steady (.start receiveOnly onceOnly secsToSleep) where
  connecting := fun _ => rfl
  connected := fun h => absurd rfl h
  awaiting := by
    constructor
    · exact False.elim
    · rintro (h | h) <;> cases h
  waiting := by
    rintro - (h | h) <;> cases h
  turn := fun _ => trivial

theorem Steady.move (hc : Steady c) (hfrom : c.pc.Plain) (hto : pc.Plain)
    (hwait : c.receiveOnly = false → pc = .select ∨ pc = .recv → c.wait4Reply = true) :
    Steady { c with pc := pc } where
  connecting := by
    rintro (rfl | rfl)
    · exact hto.elim
    · exact hto.elim
  connected := by
    intro _ _
    apply hc.connected
    · intro hpc
      rw [hpc] at hfrom
      exact hfrom
    · intro hpc
      rw [hpc] at hfrom
      exact hfrom
  awaiting := by
    have hfrom' : c.pc ≠ .sent := by
      intro hpc
      rw [hpc] at hfrom
      exact hfrom
    have hto' : pc ≠ .sent := by
      rintro rfl
      exact hto
    rw [hc.awaiting]
    simp only [hfrom', hto']
  waiting := hwait
  turn := hc.turn

theorem socket_steady (hc : Steady c) (hpc : c.pc = .socket) (sd : ℤ) :
    Steady (c.socket (some sd)) where
  connecting := fun _ => hc.connecting (Or.inl hpc)
  connected := fun _ h => absurd rfl h
  awaiting := by
    have hawait := hc.awaiting
    rw [hpc] at hawait
    simpa [Client.socket] using hawait
  waiting := by
    rintro - (h | h) <;> cases h
  turn := hc.turn

theorem connect_steady (hc : Steady c) (hpc : c.pc = .connect) :
    c.log = [] ∧ Steady (c.connect true []) := by
  have hlog := hc.connecting (Or.inr hpc)
  have hawait := hc.awaiting
  rw [hlog, hpc] at hawait
  refine ⟨hlog, ⟨?_, fun _ _ => rfl, ?_, ?_, fun _ => hlog⟩⟩
  · rintro (h | h) <;> cases h
  · constructor
    · exact False.elim
    · rintro (h | h)
      · exact hawait.mpr (Or.inl h)
      · cases h
  · rintro - (h | h) <;> cases h

theorem sent_steady (hc : Steady c) (hpc : c.pc = .sent) : Steady (c.sent [] []) where
  connecting := by
    rintro (h | h) <;> cases h
  connected := fun _ _ => hc.connected (by simp [hpc]) (by simp [hpc])
  awaiting := ⟨fun _ => Or.inl rfl, fun _ => hc.awaiting.mpr (Or.inr hpc)⟩
  waiting := fun _ _ => rfl
  turn := hc.turn

theorem quiet_steady {e : SimpClient.Event} (hc : Steady c) (he : Quiet e)
    (h : SimpClient.step c e = some d) :
    Steady d ∧ (d.log = c.log ∨ (c.log = [] ∧ d.log = [.connected])) := by
  have hmove : ∀ pc, c.pc.Plain → pc.Plain →
      (c.receiveOnly = false → pc = .select ∨ pc = .recv → c.wait4Reply = true) →
      Steady { c with pc := pc } ∧ (c.log = c.log ∨ (c.log = [] ∧ c.log = [.connected])) :=
    fun pc hfrom hto hwait => ⟨hc.move hfrom hto hwait, Or.inl rfl⟩
  unfold SimpClient.step at h
  split at h
  · rename_i hpc
    cases h
    have hconn : c.notConnected = false := hc.connected (by simp [hpc]) (by simp [hpc])
    have htop : c.top = { c with pc := .throttle } := by
      unfold Client.top
      rw [if_neg (by simp [hconn])]
    rw [htop]
    exact hmove .throttle (hpc ▸ trivial) trivial nofun
  · rename_i outcome hpc
    cases h
    obtain ⟨sd, rfl⟩ := Option.isSome_iff_exists.mp he
    exact ⟨socket_steady hc hpc sd, Or.inl rfl⟩
  · rename_i hpc
    cases h
    obtain ⟨rfl, rfl⟩ := he
    obtain ⟨hlog, hd⟩ := connect_steady hc hpc
    exact ⟨hd, Or.inr ⟨hlog, congrArg _ hlog⟩⟩
  · rename_i throttled keys hpc
    cases h
    obtain rfl : keys = [] := he
    cases throttled with
    | true => exact hmove .top (hpc ▸ trivial) trivial nofun
    | false => exact hmove .keys (hpc ▸ trivial) trivial nofun
  · rename_i keys hpc
    cases h
    obtain rfl : keys = [] := he
    have hkeys : c.keys [] = { c with pc := if c.isPaused then .top else .send } := rfl
    rw [hkeys]
    split
    · exact hmove .top (hpc ▸ trivial) trivial nofun
    · exact hmove .send (hpc ▸ trivial) trivial nofun
  · exact he.elim
  · rename_i hpc
    split_ifs at h with hsends
    cases h
    refine hmove .select (hpc ▸ trivial) trivial ?_
    intro hreceive _
    simpa [Client.sends, hreceive] using hsends
  · rename_i hpc
    cases h
    obtain ⟨rfl, rfl⟩ := he
    exact ⟨sent_steady hc hpc, Or.inl rfl⟩
  · rename_i outcome hpc
    cases h
    cases outcome with
    | failed => exact he.elim
    | notReady => exact hmove .top (hpc ▸ trivial) trivial nofun
    | ready =>
      exact hmove .recv (hpc ▸ trivial) trivial fun hreceive _ =>
        hc.waiting hreceive (Or.inl hpc)
  · rename_i outcome keys hpc
    cases h
    cases outcome with
    | wouldBlock => exact hmove .top (hpc ▸ trivial) trivial nofun
    | received bytes fits => exact he.elim
    | closed => exact he.elim
    | failed => exact he.elim
  · cases h

end Steady

section Exchange
variable {s t : Exchange} {n m : ℕ} {tmr : Tm} {log : List Happening} {bytes : List Byte}

theorem Exchange.Inv.start (receiveOnly onceOnly : Bool) (secsToSleep : ℕ) (sd : ℤ)
    (serial : ℕ) : (Exchange.start receiveOnly onceOnly secsToSleep sd serial).Inv where
  steady := Steady.start receiveOnly onceOnly secsToSleep
  oneReply := ⟨rfl, Nat.zero_le _⟩
  up := rfl
  down := rfl
  writes := le_rfl
  sends := le_rfl

theorem Exchange.Inv.gotten_le (hs : s.Inv) :
    (gotten s.client.log).count lf ≤ messages s.client.log := by
  have hup := congrArg (List.count lf) hs.up
  have hdown := congrArg (List.count lf) hs.down
  rw [List.count_append] at hup hdown
  have hreplies := hs.oneReply.replies
  have hwrites := hs.writes
  have hsends := hs.sends
  omega

theorem Exchange.Inv.quiet {e : SimpClient.Event} (hs : s.Inv) (h : s.quiet e = some t) : t.Inv := by
  obtain ⟨he, c, hc, rfl⟩ := quiet_cases h
  obtain ⟨hsteady, hlog⟩ := quiet_steady hs.steady he hc
  have hsame : messages c.log = messages s.client.log ∧ written c.log = written s.client.log ∧
      gotten c.log = gotten s.client.log := by
    rcases hlog with hlog | ⟨hnil, hlog⟩
    · rw [hlog]
      exact ⟨rfl, rfl, rfl⟩
    · rw [hlog, hnil]
      exact ⟨rfl, rfl, rfl⟩
  obtain ⟨hmessages, hwritten, hgotten⟩ := hsame
  refine ⟨hsteady, ⟨hs.oneReply.replies, ?_⟩, ?_, ?_, ?_, hs.sends⟩
  · rw [hmessages, hgotten]
    exact hs.oneReply.outstanding
  · rw [hwritten]
    exact hs.up
  · rw [hgotten]
    exact hs.down
  · rw [hwritten, hmessages]
    exact hs.writes

/-- When the client may write, the messages are all answered if the last block has a linefeed, and
one is not if it has none. -/
theorem messages_eq (hturn : Turn log) (hawait : ¬ Awaiting log)
    (hle : (gotten log).count lf ≤ messages log) :
    messages log = (gotten log).count lf + if Answered log then 0 else 1 := by
  cases log with
  | nil => rfl
  | cons happening log =>
    cases happening with
    | connected =>
      obtain rfl : log = [] := hturn
      rfl
    | wrote bytes => exact absurd trivial hawait
    | lost | reset => exact hturn.elim
    | gotData bytes =>
      have hmessages : messages log = (gotten log).count lf + 1 := hturn
      simp only [messages, gotten, List.count_append] at hle ⊢
      by_cases hmem : lf ∈ bytes
      · have hpos := List.count_pos_iff.mpr hmem
        rw [if_pos (show Answered (.gotData bytes :: log) from hmem)]
        omega
      · have hzero := List.count_eq_zero.mpr hmem
        rw [if_neg (show ¬ Answered (.gotData bytes :: log) from hmem)]
        omega

theorem turn_gotData (hturn : Turn log) (hawait : Awaiting log) :
    Turn (.gotData bytes :: log) := by
  cases log with
  | nil => exact hawait.elim
  | cons happening log =>
    cases happening with
    | wrote bytes => exact congrArg (· + 1) hturn
    | connected | lost | gotData bytes => exact hawait.elim
    | reset => exact hturn.elim

theorem sends_iff {c : Client} : c.sends = true ↔ c.receiveOnly = false ∧ c.wait4Reply = false := by
  unfold Client.sends
  rw [Bool.and_eq_true, Bool.not_eq_true', Bool.not_eq_true']

theorem write_messages (hs : s.Inv) (hpc : s.client.pc = .send) (hsends : s.client.sends = true) :
    messages s.client.log =
      (gotten s.client.log).count lf + if Answered s.client.log then 0 else 1 := by
  obtain ⟨hreceive, hwait⟩ := sends_iff.mp hsends
  have hawait : ¬ Awaiting s.client.log := by
    rw [hs.steady.awaiting, hpc, hwait]
    simp
  exact messages_eq (hs.steady.turn hreceive) hawait hs.gotten_le

theorem Exchange.Inv.write (hs : s.Inv) (h : s.write tmr n = some t) (hg : Answered s.client.log) :
    t.Inv := by
  obtain ⟨hpc, hsends, rfl⟩ := write_cases h
  have hmessages := write_messages hs hpc hsends
  rw [if_pos hg, Nat.add_zero] at hmessages
  have hcount : ((message (datetimeStg tmr) (s.client.outCount + 1)).take n).count lf ≤ 1 :=
    (count_take_le _).trans (count_message _).le
  refine ⟨?_, ⟨hs.oneReply.replies, ?_⟩, ?_, hs.down, ?_, hs.sends⟩
  · refine ⟨?_, ?_, ?_, ?_, fun _ => hmessages⟩
    · rintro (h | h) <;> cases h
    · intro _ _
      exact hs.steady.connected (by simp [hpc]) (by simp [hpc])
    · exact ⟨fun _ => Or.inr rfl, fun _ => trivial⟩
    · rintro - (h | h) <;> cases h
  · exact Nat.succ_le_succ hmessages.le
  · simp only [written]
    rw [hs.up, List.append_assoc]
  · simp only [written, messages, List.count_append]
    have hwrites := hs.writes
    omega

theorem write_not_oneReply (hs : s.Inv) (h : s.write tmr n = some t)
    (hg : ¬ Answered s.client.log) : ¬ t.OneReply := by
  obtain ⟨hpc, hsends, rfl⟩ := write_cases h
  have hmessages := write_messages hs hpc hsends
  rw [if_neg hg] at hmessages
  intro ht
  have hout := ht.outstanding
  simp only [messages, gotten] at hout
  omega

theorem Exchange.Inv.serve (hs : s.Inv) (h : s.serve n tmr m = some t) (hg : (s.up.take n).count lf = 1) :
    t.Inv := by
  obtain ⟨hclient, hdone, hreceived, hsent, hup, hdown⟩ := serve_cases h
  have hcount : ((reply tmr).take m).count lf ≤ 1 := (count_take_le _).trans count_reply.le
  refine ⟨?_, ⟨?_, ?_⟩, ?_, ?_, ?_, ?_⟩
  · rw [hclient]
    exact hs.steady
  · rw [hdone, hreceived, List.count_append, hg, hs.oneReply.replies]
  · rw [hclient]
    exact hs.oneReply.outstanding
  · rw [hclient, hreceived, hup, List.append_assoc, List.take_append_drop]
    exact hs.up
  · rw [hclient, hsent, hdown, hs.down, List.append_assoc]
  · rw [hclient]
    exact hs.writes
  · rw [hsent, hdone, List.count_append]
    exact Nat.add_le_add hs.sends hcount

theorem serve_not_oneReply (hs : s.Inv) (h : s.serve n tmr m = some t)
    (hg : (s.up.take n).count lf ≠ 1) : ¬ t.OneReply := by
  obtain ⟨-, hdone, hreceived, -⟩ := serve_cases h
  intro ht
  have hreplies := ht.replies
  rw [hdone, hreceived, List.count_append, hs.oneReply.replies] at hreplies
  omega

theorem Exchange.Inv.recv (hs : s.Inv) (h : s.recv n = some t) : t.Inv := by
  obtain ⟨hpc, rfl⟩ := recv_cases h
  refine ⟨?_, ⟨hs.oneReply.replies, ?_⟩, hs.up, ?_, hs.writes, hs.sends⟩
  · refine ⟨?_, ?_, ?_, ?_, ?_⟩
    · dsimp only
      split <;> rintro (h | h) <;> cases h
    · intro _ _
      exact hs.steady.connected (by simp [hpc]) (by simp [hpc])
    · dsimp only
      split <;> simp [Awaiting]
    · dsimp only
      split <;> rintro - (h | h) <;> cases h
    · intro hreceive
      have hwait := hs.steady.waiting hreceive (Or.inr hpc)
      have hawait := hs.steady.awaiting.mpr (Or.inl hwait)
      exact turn_gotData (hs.steady.turn hreceive) hawait
  · simp only [messages, gotten, List.count_append]
    have hout := hs.oneReply.outstanding
    omega
  · simp only [gotten]
    rw [hs.down, List.append_assoc, List.take_append_drop]

theorem Exchange.Inv.step {e : Exchange.Event} (hs : s.Inv) (h : s.step e = some t) (hg : Framed s e) :
    t.Inv := by
  cases e with
  | quiet e => exact hs.quiet h
  | write tmr n => exact hs.write h hg
  | serve n tmr m => exact hs.serve h hg
  | recv n => exact hs.recv h

theorem step_not_oneReply {e : Exchange.Event} (hs : s.Inv) (h : s.step e = some t)
    (hg : ¬ Framed s e) : ¬ t.OneReply := by
  cases e with
  | quiet e => exact absurd trivial hg
  | write tmr n => exact write_not_oneReply hs h hg
  | serve n tmr m => exact serve_not_oneReply hs h hg
  | recv n => exact absurd trivial hg

end Exchange

/-- However the two programs take their steps and the connection splits and joins what is written:
the server replies once to each message and the client has at most one that is not answered, just
when each block that the server receives has one linefeed and each block that makes the client
write again has one. -/
theorem one_reply_iff (receiveOnly onceOnly : Bool) (secsToSleep : ℕ) (sd : ℤ) (serial : ℕ)
    (es : List Exchange.Event) (s : Exchange)
    (hr : runs Exchange.step (.start receiveOnly onceOnly secsToSleep sd serial) es = some s) :
    AllStates Exchange.step Exchange.OneReply
        (.start receiveOnly onceOnly secsToSleep sd serial) es ↔
      AllSteps Exchange.step Framed (.start receiveOnly onceOnly secsToSleep sd serial) es :=
  allStates_iff_allSteps (Q := fun _ _ => True) (fun _ hs => hs.oneReply)
    (fun _ _ _ hs _ h hg => hs.step h hg) (fun _ _ _ hs _ h hg => step_not_oneReply hs h hg)
    (Exchange.Inv.start receiveOnly onceOnly secsToSleep sd serial)
    (allSteps_of_inputs fun _ _ => trivial) hr

def epoch : Tm := ⟨1#32, 0#32, 70#32, 0#32, 0#32, 0#32⟩

/-- The client connects and writes a message of 40 bytes. -/
def firstMessage : List Exchange.Event :=
  [.quiet (.socket (some 3)), .quiet (.connect true []), .quiet (.throttle false []),
    .quiet (.keys []), .write epoch 40, .quiet (.sent [] [])]

/-- The client receives a block and writes its next message. -/
def nextMessage (n : ℕ) : List Exchange.Event :=
  [.quiet (.select .ready), .recv n, .quiet .tick, .quiet (.throttle false []),
    .quiet (.keys []), .write epoch 40]

/-- The replies and the complete messages at the server, and the messages and the complete replies
at the client. -/
def Exchange.counts (s : Exchange) : ℕ × ℕ × ℕ × ℕ :=
  (s.sendsDone, s.conn.received.count lf, messages s.client.log, (gotten s.client.log).count lf)

theorem Exchange.OneReply.of_counts {s : Exchange} {a b c d : ℕ} (hs : s.counts = (a, b, c, d)) :
    s.OneReply ↔ a = b ∧ c ≤ d + 1 := by
  simp only [Exchange.counts, Prod.mk.injEq] at hs
  obtain ⟨rfl, rfl, rfl, rfl⟩ := hs
  exact ⟨fun h => ⟨h.replies, h.outstanding⟩, fun h => ⟨h.1, h.2⟩⟩

theorem one_reply_iff_sample :
    ∃ s, runs Exchange.step (.start false false 0 5 0)
        (firstMessage ++ [.serve 40 epoch 49] ++ nextMessage 49) = some s ∧
      s.counts = (1, 1, 2, 1) ∧
      AllStates Exchange.step Exchange.OneReply (.start false false 0 5 0)
        (firstMessage ++ [.serve 40 epoch 49] ++ nextMessage 49) := by
  have hrun : (runs Exchange.step (.start false false 0 5 0)
      (firstMessage ++ [.serve 40 epoch 49] ++ nextMessage 49)).map Exchange.counts =
        some (1, 1, 2, 1) := by decide
  obtain ⟨s, hs, hcounts⟩ := Option.map_eq_some_iff.mp hrun
  exact ⟨s, hs, hcounts, (one_reply_iff false false 0 5 0 _ s hs).mpr (by decide)⟩

/-- A message arrives in two pieces and gets two replies. A reply arrives in two pieces, and the
client writes its second message after the first of them. -/
theorem reply_to_piece :
    (∃ s, runs Exchange.step (.start false false 0 5 0)
        (firstMessage ++ [.serve 20 epoch 49, .serve 20 epoch 49]) = some s ∧
        s.counts = (2, 1, 1, 0) ∧ ¬ s.OneReply) ∧
      ∃ s, runs Exchange.step (.start false false 0 5 0)
        (firstMessage ++ [.serve 40 epoch 49] ++ nextMessage 20) = some s ∧
        s.counts = (1, 1, 2, 0) ∧ ¬ s.OneReply := by
  have htwo : (runs Exchange.step (.start false false 0 5 0)
      (firstMessage ++ [.serve 20 epoch 49, .serve 20 epoch 49])).map Exchange.counts =
        some (2, 1, 1, 0) := by decide
  have hpiece : (runs Exchange.step (.start false false 0 5 0)
      (firstMessage ++ [.serve 40 epoch 49] ++ nextMessage 20)).map Exchange.counts =
        some (1, 1, 2, 0) := by decide
  obtain ⟨s, hs, hscounts⟩ := Option.map_eq_some_iff.mp htwo
  obtain ⟨t, ht, htcounts⟩ := Option.map_eq_some_iff.mp hpiece
  refine ⟨⟨s, hs, hscounts, ?_⟩, ⟨t, ht, htcounts, ?_⟩⟩
  · rw [Exchange.OneReply.of_counts hscounts]
    decide
  · rw [Exchange.OneReply.of_counts htcounts]
    decide

end TcpTests.SimpClient
