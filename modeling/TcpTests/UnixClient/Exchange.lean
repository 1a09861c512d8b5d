import TcpTests.UnixClient.Client

/-! The rounds of `unix_client` and the pieces of their echoes. The client takes the first piece
that arrives for all of the echo. -/
namespace TcpTests.UnixClient
open Lib

/-- No round has failed, none was given up for a line with a visible character, and after a round the
client has received what it sent and nothing of the echo is left. -/
structure Exchange.Completes (s : Exchange) : Prop where
  ok : s.pc ≠ .failed
  goesOn : s.pc = .stopped → ¬ HasVisible s.line
  whole : s.pc = .fgets → s.received = s.sent ∧ s.up = [] ∧ s.held = [] ∧ s.down = []

/-- A line with a visible character has one where the client looks for it, and its message is taken
and its echo arrives in one piece. -/
def Whole (s : Exchange) : Event → Prop
  | .fgets => HasVisible (fgets bufSize s.stdin) →
      ∃ b ∈ (fgets bufSize s.stdin).takeWhile (· ≠ 0), isVisible b = true
  | .send n | .recv n => n = s.sendBuf.length + 1
  | .serverRecv _ | .serverSend => True

instance (s : Exchange) : ∀ e, Decidable (Whole s e)
  | .fgets => inferInstanceAs (Decidable (_ → ∃ b ∈ _, isVisible b = true))
  | .send _ | .recv _ => inferInstanceAs (Decidable (_ = _))
  | .serverRecv _ | .serverSend => inferInstanceAs (Decidable True)

/-- The message is what is left of it on its way, in the order in which it goes. -/
structure Exchange.Inv (s : Exchange) : Prop where
  completes : s.Completes
  fits : s.sendBuf.length + 1 ≤ bufSize
  sending : s.pc = .send → s.up = [] ∧ s.held = [] ∧ s.down = []
  waiting : s.pc = .recv →
    s.sent = s.sendBuf ++ [0] ∧ s.down ++ s.held ++ s.up = s.sent

section
variable {s t : Exchange} {e : Event} {n : ℕ}

theorem Exchange.Inv.start (stdin : List Byte) : (Exchange.start stdin).Inv where
  completes := ⟨nofun, nofun, fun _ => ⟨rfl, rfl, rfl, rfl⟩⟩
  fits := Nat.succ_le_succ (Nat.zero_le 79)
  sending := nofun
  waiting := nofun

theorem fgets_inv (hs : s.Inv) (hpc : s.pc = .fgets) (hg : Whole s .fgets) : s.fgets.Inv := by
  obtain ⟨-, hup, hheld, hdown⟩ := hs.completes.whole hpc
  have hlen := sendText_length_le s.stdin
  have hfits : (sendText (fgets bufSize s.stdin)).length + 1 ≤ bufSize := by
    simp only [bufSize] at hlen ⊢
    omega
  unfold Exchange.fgets
  dsimp only
  by_cases hnil : sendText (fgets bufSize s.stdin) = []
  · have hblank : ¬ HasVisible (fgets bufSize s.stdin) :=
      fun hvisible => sendText_ne_nil.mpr (hg hvisible) hnil
    rw [if_pos hnil]
    exact ⟨⟨nofun, fun _ => hblank, nofun⟩, hfits, nofun, nofun⟩
  · rw [if_neg hnil]
    exact ⟨⟨nofun, nofun, nofun⟩, hfits, fun _ => ⟨hup, hheld, hdown⟩, nofun⟩

theorem send_inv (hs : s.Inv) (hpc : s.pc = .send) (h : s.send n = some t)
    (hg : n = s.sendBuf.length + 1) : t.Inv := by
  obtain ⟨hup, hheld, hdown⟩ := hs.sending hpc
  have hlen : n = (s.sendBuf ++ [0]).length := by
    rw [List.length_append, List.length_singleton]
    exact hg
  rw [(send_cases h).2, if_pos hlen, hlen, List.take_length, hup, hheld, hdown]
  exact ⟨⟨nofun, nofun, nofun⟩, hs.fits, nofun, fun _ => ⟨rfl, rfl⟩⟩

theorem server_inv (hs : s.Inv) (hline : t.line = s.line) (hsend : t.sendBuf = s.sendBuf)
    (hsent : t.sent = s.sent) (hreceived : t.received = s.received) (hpc : t.pc = s.pc)
    (hflight : t.down ++ t.held ++ t.up = s.down ++ s.held ++ s.up) : t.Inv := by
  have hnone : s.up = [] ∧ s.held = [] ∧ s.down = [] →
      t.up = [] ∧ t.held = [] ∧ t.down = [] := by
    rintro ⟨hup, hheld, hdown⟩
    rw [hup, hheld, hdown] at hflight
    simpa [and_comm, and_assoc, and_left_comm] using hflight
  have hgoesOn : t.pc = .stopped → ¬ HasVisible t.line := by
    rw [hpc, hline]
    exact hs.completes.goesOn
  refine ⟨⟨hpc ▸ hs.completes.ok, hgoesOn, ?_⟩, hsend ▸ hs.fits, ?_, ?_⟩
  · intro h
    obtain ⟨heq, hrest⟩ := hs.completes.whole (hpc ▸ h)
    exact ⟨by rw [hreceived, hsent, heq], hnone hrest⟩
  · intro h
    exact hnone (hs.sending (hpc ▸ h))
  · intro h
    rw [hsent, hsend, hflight]
    exact hs.waiting (hpc ▸ h)

theorem serverRecv_inv (hs : s.Inv) (h : s.serverRecv n = some t) : t.Inv := by
  obtain ⟨-, hheld, rfl⟩ := serverRecv_cases h
  refine server_inv hs rfl rfl rfl rfl rfl ?_
  rw [hheld, List.append_nil, List.append_assoc, List.take_append_drop]

theorem serverSend_inv (hs : s.Inv) (h : s.serverSend = some t) : t.Inv := by
  rw [serverSend_cases h]
  refine server_inv hs rfl rfl rfl rfl rfl ?_
  rw [List.append_nil]

/-- The first piece is the message only if nothing of it is still on its way. -/
theorem recv_inv (hs : s.Inv) (hpc : s.pc = .recv) (h : s.recv n = some t)
    (hg : n = s.sendBuf.length + 1) : t.Inv := by
  obtain ⟨hsent, hflight⟩ := hs.waiting hpc
  obtain ⟨-, hn, rfl⟩ := recv_cases h
  have hlen := congrArg List.length hflight
  rw [hsent, List.length_append, List.length_append, List.length_append,
    List.length_singleton] at hlen
  have hup : s.up = [] := List.length_eq_zero_iff.mp (by omega)
  have hheld : s.held = [] := List.length_eq_zero_iff.mp (by omega)
  have hdown : s.down.length = n := by omega
  rw [hup, hheld, List.append_nil, List.append_nil] at hflight
  rw [if_pos hg]
  refine ⟨⟨nofun, nofun, fun _ => ⟨?_, hup, hheld, ?_⟩⟩, hs.fits, nofun, nofun⟩
  · rw [← hflight]
    exact List.take_of_length_le hdown.le
  · exact List.drop_eq_nil_of_le hdown.le

theorem step_inv (hs : s.Inv) (h : step s e = some t) (hg : Whole s e) : t.Inv := by
  unfold step at h
  split at h
  · rename_i hpc
    cases h
    exact fgets_inv hs hpc hg
  · rename_i hpc
    exact send_inv hs hpc h hg
  · rename_i hpc
    exact recv_inv hs hpc h hg
  · exact serverRecv_inv hs h
  · exact serverSend_inv hs h
  · cases h

/-- What the server makes of a piece is what `unix_server` does on the connection when it receives
the piece and its `send` takes all of it. -/
theorem server_refines {u : Exchange} {v : UnixServer.Server} (ht : s.serverRecv n = some t)
    (hu : t.serverSend = some u) (hv : v.conns v.i = some s.conn) :
    ∃ w x, v.recv (.received (s.up.take n)) = some w ∧ w.send n (.accepted n) = some x ∧
      x.conns x.i = some u.conn ∧ u.down = s.down ++ s.up.take n := by
  obtain ⟨⟨hpos, hbuf, hup⟩, hheld, rfl⟩ := serverRecv_cases ht
  have hlen : (s.up.take n).length = n := List.length_take_of_le hup
  have hpiece : ((s.up.take n ++ v.buffer.drop n).take n).take n = s.up.take n := by
    rw [List.take_take, min_self, List.take_left' hlen]
  let c : UnixServer.Conn := { s.conn with received := s.conn.received ++ s.up.take n }
  let w : UnixServer.Server := { v with
    conns := Function.update v.conns v.i (some c)
    buffer := s.up.take n ++ v.buffer.drop n
    pc := .send n }
  have hrecv : v.recv (.received (s.up.take n)) = some w := by
    simp only [UnixServer.Server.recv, hlen, hpos, hbuf, and_self, if_true, hv, Option.map_some]
    rfl
  have hconn : w.conns w.i = some c := Function.update_self ..
  have hsend : w.send n (.accepted n) = some { w with
      conns := Function.update w.conns w.i (some { c with
        sent := c.sent ++ ((s.up.take n ++ v.buffer.drop n).take n).take n })
      pc := .recv } := by
    simp only [UnixServer.Server.send, hpos, le_refl, and_self, if_true, hconn, Option.map_some]
    rfl
  rw [serverSend_cases hu]
  refine ⟨w, _, hrecv, hsend, ?_, rfl⟩
  dsimp only
  rw [Function.update_self, hpiece]

end

end TcpTests.UnixClient
