import TcpTests.UnixServer.Server

/-! The echo of `unix_server` and partial sends. What a short `send` leaves over is dropped, and
the next piece is sent in its place. -/
namespace TcpTests.UnixServer
open Lib

/-- What was sent back is the front of what was received. -/
def Conn.Echoes (c : Conn) : Prop := c.sent <+: c.received

instance (c : Conn) : Decidable c.Echoes := inferInstanceAs (Decidable (_ <+: _))

structure Server.Echoes (s : Server) : Prop where
  conns : ∀ sd, ∀ c ∈ s.conns sd, c.Echoes
  closed : ∀ c ∈ s.closed, c.Echoes

/-- The bytes that were received and not yet sent back. -/
def Conn.unsent (c : Conn) : List Byte := c.received.drop c.sent.length

/-- When `send` accepts bytes, no earlier `send` on the connection was short, or the bytes happen
to be those that come next. -/
def SendsNext (s : Server) (e : Event) : Prop :=
  match e, s.pc with
  | .send (.accepted n), .send len =>
    ∀ c ∈ s.conns s.i, c.unsent.length = len ∨ s.buffer.take n = c.unsent.take n
  | _, _ => True

instance (s : Server) (e : Event) : Decidable (SendsNext s e) := by
  unfold SendsNext
  split <;> infer_instance

/-- Before a `send` the piece in the buffer is the end of what was received. -/
structure Server.EchoInv (s : Server) : Prop where
  echoes : s.Echoes
  piece : ∀ len, s.pc = .send len →
    ∀ c ∈ s.conns s.i, s.buffer.take len <:+ c.received ∧ (s.buffer.take len).length = len

section
variable {s t : Server} {e : Event} {sd n len : ℕ} {c : Conn} {outcome : SendOutcome}

theorem Conn.Echoes.append_unsent (hc : c.Echoes) : c.sent ++ c.unsent = c.received := by
  obtain ⟨rest, hrest⟩ := hc
  rw [Conn.unsent, ← hrest, List.drop_left]

/-- Bytes that are sent keep the echo just when they are the next ones. -/
theorem Conn.Echoes.append_iff (hc : c.Echoes) {bytes : List Byte} :
    c.sent ++ bytes <+: c.received ↔ bytes = c.unsent.take bytes.length := by
  rw [← hc.append_unsent, List.prefix_append_right_inj, List.prefix_iff_eq_take]

theorem Server.Echoes.same (hs : s.Echoes) (hconns : t.conns = s.conns)
    (hclosed : t.closed = s.closed) : t.Echoes := by
  constructor
  · rw [hconns]
    exact hs.conns
  · rw [hclosed]
    exact hs.closed

theorem Server.Echoes.inv (ht : t.Echoes) (hpc : ∀ len, t.pc ≠ .send len) : t.EchoInv :=
  ⟨ht, fun len h => absurd h (hpc len)⟩

theorem Server.EchoInv.same (hs : s.EchoInv) (hconns : t.conns = s.conns)
    (hclosed : t.closed = s.closed) (hpc : ∀ len, t.pc ≠ .send len) : t.EchoInv :=
  (hs.echoes.same hconns hclosed).inv hpc

theorem Server.Echoes.update (hs : s.Echoes)
    (hconns : t.conns = Function.update s.conns sd (some c)) (hclosed : t.closed = s.closed)
    (hc : c.Echoes) : t.Echoes := by
  constructor
  · rw [hconns]
    exact forall_update_some hs.conns hc
  · rw [hclosed]
    exact hs.closed

theorem Server.Echoes.sclose (hs : s.Echoes) (sd : ℕ) : (s.sclose sd).Echoes := by
  constructor
  · exact forall_update_none hs.conns
  · intro c hc
    rcases List.mem_append.mp hc with hc | hc
    · exact hs.closed c hc
    · exact hs.conns sd c (Option.mem_toList.mp hc)

theorem Server.EchoInv.start (listenSd serverTimeout : ℕ) (buffer : List Byte) :
    (Server.start listenSd serverTimeout buffer).EchoInv :=
  ⟨⟨nofun, nofun⟩, nofun⟩

theorem select_echoInv (hs : s.EchoInv) {outcome : SelectOutcome}
    (h : s.select outcome = some t) : t.EchoInv := by
  cases outcome with
  | ready set left =>
    simp only [Server.select] at h
    split_ifs at h
    cases h
    exact hs.same rfl rfl nofun
  | failed | timedOut =>
    cases h
    exact hs.same rfl rfl nofun

theorem scan_echoInv (hs : s.EchoInv) (hpc : s.pc = .scan) : s.scan.EchoInv := by
  unfold Server.scan
  dsimp only
  split_ifs
  · exact hs.same rfl rfl nofun
  · exact hs.same rfl rfl nofun
  · refine hs.same rfl rfl ?_
    intro len
    change s.pc ≠ _
    rw [hpc]
    nofun
  · exact hs.same rfl rfl nofun

theorem accept_echoInv (hs : s.EchoInv) (hpc : s.pc = .accept) {outcome : AcceptOutcome}
    (h : s.accept outcome = some t) : t.EchoInv := by
  rcases accept_cases h with ⟨newSd, -, -, -, rfl⟩ | ⟨endServer, rfl⟩
  · refine Server.Echoes.inv (hs.echoes.update rfl rfl List.prefix_rfl) ?_
    exact fun len h => absurd (hpc.symm.trans h) nofun
  · exact hs.same rfl rfl nofun

theorem recv_echoInv (hs : s.EchoInv) {outcome : RecvOutcome} (h : s.recv outcome = some t) :
    t.EchoInv := by
  rcases recv_cases h with ⟨bytes, c, -, -, -, hc, rfl⟩ | ⟨closeConn, rfl⟩
  · have hpre := hs.echoes.conns s.i c hc
    refine ⟨hs.echoes.update rfl rfl (hpre.trans (List.prefix_append _ _)), ?_⟩
    intro len hpc c' hc'
    cases hpc
    change c' ∈ Function.update s.conns s.i _ s.i at hc'
    rw [Function.update_self] at hc'
    cases hc'
    dsimp only
    rw [List.take_left]
    exact ⟨List.suffix_append _ _, rfl⟩
  · exact hs.same rfl rfl nofun

/-- The bytes that `send` takes are the next ones just when the step is a good one. -/
theorem send_next (hs : s.EchoInv) (hpc : s.pc = .send len) (hc : s.conns s.i = some c)
    (hn : n ≤ len) :
    c.sent ++ (s.buffer.take len).take n <+: c.received ↔
      c.unsent.length = len ∨ s.buffer.take n = c.unsent.take n := by
  have hpre := hs.echoes.conns s.i c hc
  obtain ⟨⟨early, hearly⟩, hlen⟩ := hs.piece len hpc c hc
  have htake : (s.buffer.take len).take n = s.buffer.take n := by
    rw [List.take_take, min_eq_left hn]
  have htaken : (s.buffer.take n).length = n := by
    rw [← htake, List.length_take, hlen, min_eq_left hn]
  rw [hpre.append_iff, htake, htaken]
  constructor
  · exact Or.inr
  · rintro (hall | hnext)
    · -- all of the earlier pieces went out, so the piece in the buffer is what is left
      have hsplit : c.sent ++ c.unsent = early ++ s.buffer.take len :=
        hpre.append_unsent.trans hearly.symm
      have hunsent : c.unsent = s.buffer.take len :=
        (List.append_inj' hsplit (hall.trans hlen.symm)).2
      rw [hunsent, htake]
    · exact hnext

theorem send_echoInv (hs : s.EchoInv) (hpc : s.pc = .send len)
    (h : s.send len outcome = some t) (hg : SendsNext s (.send outcome)) : t.EchoInv := by
  rcases send_cases h with ⟨n, c, rfl, -, hn, hc, rfl⟩ | ⟨rfl, rfl⟩
  · unfold SendsNext at hg
    simp only [hpc] at hg
    have hpre := (send_next hs hpc hc hn).mpr (hg c hc)
    exact ⟨hs.echoes.update rfl rfl hpre, nofun⟩
  · exact hs.same rfl rfl nofun

theorem send_not_echoes (hs : s.EchoInv) (hpc : s.pc = .send len)
    (h : s.send len outcome = some t) (hg : ¬ SendsNext s (.send outcome)) : ¬ t.Echoes := by
  unfold SendsNext at hg
  rcases send_cases h with ⟨n, c, rfl, -, hn, hc, rfl⟩ | ⟨rfl, rfl⟩
  · simp only [hpc] at hg
    intro he
    have hpre := he.conns s.i _ (Function.update_self _ _ _)
    apply hg
    intro c' hc'
    cases hc.symm.trans hc'
    exact (send_next hs hpc hc hn).mp hpre
  · exact absurd trivial hg

theorem close_echoInv (hs : s.EchoInv) : s.close.EchoInv := by
  unfold Server.close
  dsimp only
  split_ifs
  · split
    · exact Server.Echoes.inv ((hs.echoes.sclose s.i).same rfl rfl) nofun
    · exact Server.Echoes.inv ((hs.echoes.sclose s.i).same rfl rfl) nofun
  · exact Server.Echoes.inv ((hs.echoes.sclose s.i).same rfl rfl) nofun
  · exact hs.same rfl rfl nofun

theorem cleanUp_echoInv (hs : s.EchoInv) (hpc : s.pc = .cleanUp) : s.cleanUp.EchoInv := by
  have hne : ∀ len, s.pc ≠ .send len := by
    rw [hpc]
    nofun
  unfold Server.cleanUp
  split_ifs
  · exact Server.Echoes.inv ((hs.echoes.sclose s.i).same rfl rfl) hne
  · exact hs.same rfl rfl hne
  · exact hs.same rfl rfl nofun

theorem step_echoInv (hs : s.EchoInv) (he : ∀ outcome, e ≠ .send outcome)
    (h : step s e = some t) : t.EchoInv := by
  unfold step at h
  split at h
  · exact select_echoInv hs h
  · rename_i hpc
    cases h
    exact scan_echoInv hs hpc
  · rename_i hpc
    exact accept_echoInv hs hpc h
  · exact recv_echoInv hs h
  · exact absurd rfl (he _)
  · cases h
    exact close_echoInv hs
  · cases h
    unfold Server.loopTest
    split_ifs <;> exact hs.same rfl rfl nofun
  · rename_i hpc
    cases h
    exact cleanUp_echoInv hs hpc
  · cases h

theorem step_send (h : step s (.send outcome) = some t) :
    ∃ len, s.pc = .send len ∧ s.send len outcome = some t := by
  cases hpc : s.pc with
  | send len =>
    simp only [step, hpc] at h
    exact ⟨len, rfl, h⟩
  | _ =>
    simp only [step, hpc] at h
    cases h

theorem sendsNext_of_ne (he : ∀ outcome, e ≠ .send outcome) : SendsNext s e := by
  cases e with
  | send outcome => exact absurd rfl (he outcome)
  | _ => trivial

end

/-- In every state of a run the bytes sent back on each connection are the front of those
received on it, just when no `send` takes bytes after a short one, unless they happen to be the
bytes that come next. -/
theorem echoes_iff (listenSd serverTimeout : ℕ) (buffer : List Byte) (es : List Event)
    (s : Server) (hr : runs step (.start listenSd serverTimeout buffer) es = some s) :
    AllStates step Server.Echoes (.start listenSd serverTimeout buffer) es ↔
      AllSteps step SendsNext (.start listenSd serverTimeout buffer) es := by
  refine allStates_iff_allSteps (Q := fun _ _ => True) (fun _ hs => hs.echoes) ?_ ?_
    (Server.EchoInv.start listenSd serverTimeout buffer)
    (allSteps_of_inputs (Q := fun _ => True) fun _ _ => trivial) hr
  · intro s e t hs _ h hg
    by_cases hsend : ∃ outcome, e = .send outcome
    · obtain ⟨outcome, rfl⟩ := hsend
      obtain ⟨len, hpc, h⟩ := step_send h
      exact send_echoInv hs hpc h hg
    · exact step_echoInv hs (fun outcome he => hsend ⟨outcome, he⟩) h
  · intro s e t hs _ h hg
    by_cases hsend : ∃ outcome, e = .send outcome
    · obtain ⟨outcome, rfl⟩ := hsend
      obtain ⟨len, hpc, h⟩ := step_send h
      exact send_not_echoes hs hpc h hg
    · exact absurd (sendsNext_of_ne fun outcome he => hsend ⟨outcome, he⟩) hg

def sampleStart : Server := .start 3 10 (List.replicate bufferSize 0)

/-- A client connects, "ab" is received from it and `n` bytes of that are sent back. -/
def sampleRun (n : ℕ) : List Event :=
  [.select (.ready {3} ⟨600, 0⟩), .tick, .tick, .tick, .tick, .accept (.accepted 4),
    .accept .wouldBlock, .tick, .tick, .select (.ready {4} ⟨599, 0⟩), .tick, .tick, .tick, .tick,
    .tick, .recv (.received [0x61#8, 0x62#8]), .send (.accepted n)]

/-- All of the bytes are sent back, and the client closes. -/
theorem echoes_iff_sample :
    AllStates step Server.Echoes sampleStart
      (sampleRun 2 ++ [.recv .closed, .tick, .tick, .tick]) := by
  obtain ⟨s, hs⟩ := Option.isSome_iff_exists.mp
    (show (runs step sampleStart (sampleRun 2 ++ [.recv .closed, .tick, .tick, .tick])).isSome
      = true by decide)
  exact (echoes_iff 3 10 _ _ s hs).mpr (by decide)

/-- One byte of "ab" is sent back, and then the "c" that comes next. -/
def shortRun : List Event := sampleRun 1 ++ [.recv (.received [0x63#8]), .send (.accepted 1)]

theorem echo_shortSend :
    ∃ s, runs step sampleStart shortRun = some s ∧
      s.conns 4 = some ⟨[0x61#8, 0x62#8, 0x63#8], [0x61#8, 0x63#8]⟩ ∧ ¬ s.Echoes := by
  have hrun : (runs step sampleStart shortRun).bind (fun s => s.conns 4) =
      some ⟨[0x61#8, 0x62#8, 0x63#8], [0x61#8, 0x63#8]⟩ := by decide
  obtain ⟨s, hs, hconn⟩ := Option.bind_eq_some_iff.mp hrun
  refine ⟨s, hs, hconn, ?_⟩
  intro he
  have hpre : Conn.Echoes ⟨[0x61#8, 0x62#8, 0x63#8], [0x61#8, 0x63#8]⟩ := he.conns 4 _ hconn
  exact absurd hpre (by decide)

end TcpTests.UnixServer
