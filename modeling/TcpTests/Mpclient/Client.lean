import TcpTests.Lib.Align
import TcpTests.Lib.Machine
import TcpTests.Lib.Stream
import TcpTests.Net.Datagram
import TcpTests.Fgmp.Message

/-! `mpclient`: `myFillPosMsg` and the loop of `run_udpclient`. One input of the machine is
one pass of the loop. A read that would leave the message buffer is undefined behaviour,
and the machine has no state after it. -/
namespace TcpTests.Mpclient
open Lib Net Fgmp

def c172 : List Byte := [0x63#8, 0x31#8, 0x37#8, 0x32#8]

def testMsg : List Byte := [0x54#8, 0x45#8, 0x53#8, 0x54#8, 0x4D#8, 0x53#8, 0x47#8]

/-- `FGMP_MsgBuf::MsgBuf`. -/
def clearMsgBuf (m : Mem) : Mem := m.write 0 (List.replicate maxPacketSize 0)

/-- Read a header from the file, or from its start when the rest is too short. The file is
closed when it has no header there either. -/
def readHeader (m : Mem) (f : Stream) : Mem × Option Stream :=
  let r := f.fread sizeofMsgHdr
  let m := m.write 0 r.1
  if r.1.length = sizeofMsgHdr then (m, some r.2)
  else
    let r := r.2.rewind.fread sizeofMsgHdr
    let m := m.write 0 r.1
    if r.1.length = sizeofMsgHdr then (m, some r.2) else (m, none)

/-- The rest of a message whose header has been read, and the padding after it. The padding
is read over the header. -/
def readBody (h : Endian) (m : Mem) (buflen : ℕ) (f : Stream) :
    Option (Mem × ℕ × Option Stream) :=
  let rlen := (xdrDecodeUint32 h (loadWord h m offMsgLen)).toNat
  if rlen ≤ sizeofMsgHdr then some (m, buflen, none)
  else
    let r := f.fread (rlen - sizeofMsgHdr)
    if sizeofMsgHdr + r.1.length > maxPacketSize then none
    else
      let m := m.write sizeofMsgHdr r.1
      if r.1.length ≠ rlen - sizeofMsgHdr then some (m, buflen, none)
      else
        let p := r.2.fread (alignSteps 16 rlen + 16)
        some (m.write 0 p.1, rlen, some p.2)

/-- The message buffer, the new `*buflen` and the file. -/
def myFillPosMsg (h : Endian) (m : Mem) (buflen : ℕ) (fSampRaw : Option Stream) :
    Option (Mem × ℕ × Option Stream) :=
  let m := m.strcpy offModel c172
  match fSampRaw with
  | none => some (m, buflen, none)
  | some f =>
    match readHeader m f with
    | (m, none) => some (m, buflen, none)
    | (m, some f) => readBody h m buflen f

structure Packet where
  dest : SockaddrIn
  bytes : List Byte

/-- The state of `run_udpclient`, with a record of the packets handed to `sendto`. -/
structure Client where
  msgbuf : Mem
  fSampRaw : Option Stream
  serveraddr : SockaddrIn
  verbosity : ℕ
  isPaused : Bool
  waitReceive : Bool
  waitCycles : ℕ
  running : Bool
  iret : ℕ
  sent : List Packet

def Client.start (serveraddr : SockaddrIn) (verbosity : ℕ) (fSampRaw : Option Stream) :
    Client where
  msgbuf := fun _ => 0
  fSampRaw := fSampRaw
  serveraddr := serveraddr
  verbosity := verbosity
  isPaused := false
  waitReceive := false
  waitCycles := 0
  running := true
  iret := 0
  sent := []

def maxWaitCycles : ℕ := 3

/-- The new state, and whether the exit key was pressed. No key is character 0. -/
def Client.checkKey (c : Client) (chr : Char) : Client × Bool :=
  if chr = '\x1b' then (c, true)
  else if chr = 'p' then ({ c with isPaused := !c.isPaused }, false)
  else if chr = 'r' then ({ c with waitReceive := false }, false)
  else if chr ∈ ['0', '1', '2', '5', '9'] then
    ({ c with verbosity := chr.toNat - '0'.toNat }, false)
  else (c, false)

/-- The rounds of `check_key_sleep`, by the keys pressed in them. -/
def Client.checkKeySleep (c : Client) : List Char → Client
  | [] => c
  | chr :: chrs =>
    let r := c.checkKey chr
    if r.2 then { r.1 with running := false } else r.1.checkKeySleep chrs

structure Wait where
  key : Char
  recv : Recv

/-- One round, and whether the loop condition is tested again. The reply and the address it
comes from are stored where the packet and the address of the server were. -/
def Client.waitRound (round : Wait) (buflen : ℕ) (c : Client) : Client × Bool :=
  let k := c.checkKey round.key
  if k.2 then ({ k.1 with running := false }, false)
  else
    let cycles := c.waitCycles + 1
    if cycles > maxWaitCycles then ({ k.1 with waitCycles := cycles }, false)
    else
      match round.recv with
      | .again => ({ k.1 with waitCycles := cycles }, true)
      | .failed => ({ k.1 with waitCycles := cycles, iret := 1, running := false }, false)
      | .datagram addr bytes =>
        ({ k.1 with
            waitCycles := cycles
            msgbuf := c.msgbuf.write 0 (received buflen bytes)
            serveraddr := addr
            waitReceive := false }, true)

theorem Client.waitRound_cycles {round : Wait} {buflen : ℕ} {c : Client}
    (hr : (c.waitRound round buflen).2 = true) :
    (c.waitRound round buflen).1.waitCycles = c.waitCycles + 1 ∧
      c.waitCycles < maxWaitCycles := by
  unfold waitRound at hr ⊢
  dsimp only at hr ⊢
  split_ifs at hr ⊢ with hesc hmax
  cases hrecv : round.recv with
  | again => exact ⟨rfl, by omega⟩
  | failed =>
    rw [hrecv] at hr
    cases hr
  | datagram addr bytes => exact ⟨rfl, by omega⟩

/-- The loop `while (wait_receive)`, by the rounds that it may come to. -/
def Client.waitReply (w : ℕ → Wait) (buflen : ℕ) (c : Client) : Client :=
  if c.waitReceive then
    let r := c.waitRound (w c.waitCycles) buflen
    if _hr : r.2 then Client.waitReply w buflen r.1 else r.1
  else c
termination_by maxWaitCycles - c.waitCycles
decreasing_by
  obtain ⟨hc, hm⟩ := Client.waitRound_cycles _hr
  rw [hc]
  omega

/-- One pass of the loop: the key pressed at its head, whether `sendto` succeeds, the rounds
of the wait, and the keys pressed while it sleeps. -/
structure Pass where
  key : Char
  sendOk : Bool
  wait : ℕ → Wait
  sleepKeys : List Char

/-- The message and its length, ready for `sendto`, and the result of `myFillMsgHdr`. -/
def fillMsg (h : Endian) (m : Mem) (fSampRaw : Option Stream) :
    Option (Mem × ℕ × Option Stream × ℕ) :=
  (myFillPosMsg h (clearMsgBuf m) (sizeofMsgHdr + sizeofPositionMsg) fSampRaw).map
    fun (m, buflen, f) =>
      let r := myFillMsgHdr h m posDataId (BitVec.ofNat 32 buflen) testMsg
      (r.1, buflen, f, r.2)

def Client.send (c : Client) (buflen : ℕ) (p : Pass) : Client :=
  let c := { c with sent := c.sent ++ [Packet.mk c.serveraddr (c.msgbuf.read 0 buflen)] }
  if !p.sendOk then { c with iret := 1, running := false }
  else
    let c := { c with waitReceive := true, waitCycles := 0 }.waitReply p.wait buflen
    if c.running then c.checkKeySleep p.sleepKeys else c

def pass (h : Endian) (c : Client) (p : Pass) : Option Client :=
  if !c.running then none
  else if (c.checkKey p.key).2 then some { (c.checkKey p.key).1 with running := false }
  else
    (fillMsg h c.msgbuf c.fSampRaw).map fun (m, buflen, f, err) =>
      let c := { (c.checkKey p.key).1 with msgbuf := m, fSampRaw := f }
      if err ≠ 0 then { c with iret := 1, running := false } else c.send buflen p

/-- The states `run_udpclient` can be in at the head of its loop. -/
def Client.Reachable (h : Endian) (c : Client) : Prop :=
  ∃ serveraddr verbosity fSampRaw passes,
    runs (pass h) (.start serveraddr verbosity fSampRaw) passes = some c

section
variable {h : Endian} {m m' : Mem} {buflen n err : ℕ} {f f' : Option Stream} {c c' : Client}
  {p : Pass}

theorem readBody_length {g : Stream} (hr : readBody h m buflen g = some (m', n, f')) :
    n = buflen ∨ (sizeofMsgHdr < n ∧ n ≤ maxPacketSize) := by
  unfold readBody at hr
  dsimp only at hr
  split_ifs at hr with hshort hover hfread
  · cases hr
    exact Or.inl rfl
  · cases hr
    exact Or.inl rfl
  · cases hr
    right
    refine ⟨Nat.lt_of_not_le hshort, ?_⟩
    rw [not_not] at hfread
    rw [hfread] at hover
    simp only [sizeofMsgHdr, maxPacketSize] at hover hshort ⊢
    omega

theorem myFillPosMsg_length (hf : myFillPosMsg h m buflen f = some (m', n, f')) :
    n = buflen ∨ (sizeofMsgHdr < n ∧ n ≤ maxPacketSize) := by
  unfold myFillPosMsg at hf
  dsimp only at hf
  split at hf
  · cases hf
    exact Or.inl rfl
  · split at hf
    · cases hf
      exact Or.inl rfl
    · exact readBody_length hf

theorem fillMsg_of_myFillPosMsg
    (hf : myFillPosMsg h (clearMsgBuf m) (sizeofMsgHdr + sizeofPositionMsg) f = some (m', n, f')) :
    fillMsg h m f =
      some ((myFillMsgHdr h m' posDataId (BitVec.ofNat 32 n) testMsg).1, n, f', 0) := by
  have herr : (myFillMsgHdr h m' posDataId (BitVec.ofNat 32 n) testMsg).2 = 0 := by
    rw [myFillMsgHdr_eq _ _ _ _ _ (by decide)]
  rw [fillMsg, hf]
  simp only [Option.map_some, herr]

theorem fillMsg_spec (hf : fillMsg h m f = some (m', n, f', err)) :
    err = 0 ∧ sizeofMsgHdr ≤ n ∧ n ≤ maxPacketSize ∧
      ∃ m₀, myFillPosMsg h (clearMsgBuf m) (sizeofMsgHdr + sizeofPositionMsg) f =
          some (m₀, n, f') ∧
        m' = (myFillMsgHdr h m₀ posDataId (BitVec.ofNat 32 n) testMsg).1 := by
  obtain ⟨⟨m₀, k, g⟩, hfill, -⟩ := Option.map_eq_some_iff.mp hf
  rw [fillMsg_of_myFillPosMsg hfill] at hf
  cases hf
  refine ⟨rfl, ?_, ?_, m₀, hfill, rfl⟩
  all_goals
    have hlen := myFillPosMsg_length hfill
    simp only [sizeofMsgHdr, sizeofPositionMsg, maxPacketSize] at hlen ⊢
    omega

/-- What neither the keyboard nor the wait for a reply touches. -/
structure Client.SameOutput (c c' : Client) : Prop where
  sent : c'.sent = c.sent
  fSampRaw : c'.fSampRaw = c.fSampRaw

theorem Client.SameOutput.trans {c c' c'' : Client} (h₁ : c.SameOutput c')
    (h₂ : c'.SameOutput c'') : c.SameOutput c'' :=
  ⟨h₂.sent.trans h₁.sent, h₂.fSampRaw.trans h₁.fSampRaw⟩

theorem Client.checkKey_same (c : Client) (chr : Char) : c.SameOutput (c.checkKey chr).1 := by
  unfold checkKey
  split_ifs <;> exact ⟨rfl, rfl⟩

theorem Client.checkKeySleep_same (c : Client) (chrs : List Char) :
    c.SameOutput (c.checkKeySleep chrs) := by
  induction chrs generalizing c with
  | nil => exact ⟨rfl, rfl⟩
  | cons chr chrs ih =>
    have hk := c.checkKey_same chr
    unfold checkKeySleep
    dsimp only
    split_ifs
    · exact ⟨hk.sent, hk.fSampRaw⟩
    · exact hk.trans (ih _)

theorem Client.waitRound_same (round : Wait) (buflen : ℕ) (c : Client) :
    c.SameOutput (c.waitRound round buflen).1 := by
  have hk := c.checkKey_same round.key
  unfold waitRound
  dsimp only
  split_ifs
  · exact ⟨hk.sent, hk.fSampRaw⟩
  · exact ⟨hk.sent, hk.fSampRaw⟩
  · split
    all_goals exact ⟨hk.sent, hk.fSampRaw⟩

theorem Client.waitReply_same (w : ℕ → Wait) (buflen : ℕ) (c : Client) :
    c.SameOutput (c.waitReply w buflen) := by
  induction c using Client.waitReply.induct w buflen with
  | case1 c hw r hr ih =>
    rw [waitReply, if_pos hw]
    simp only [r] at hr ih
    simp only [hr, dif_pos]
    exact (c.waitRound_same _ _).trans ih
  | case2 c hw r hr =>
    rw [waitReply, if_pos hw]
    simp only [r] at hr
    simp only [hr]
    exact c.waitRound_same _ _
  | case3 c hw =>
    rw [waitReply, if_neg hw]
    exact ⟨rfl, rfl⟩

theorem Client.send_output (c : Client) (buflen : ℕ) (p : Pass) :
    (c.send buflen p).sent = c.sent ++ [⟨c.serveraddr, c.msgbuf.read 0 buflen⟩] ∧
      (c.send buflen p).fSampRaw = c.fSampRaw := by
  unfold send
  dsimp only
  split_ifs with hfail hrun
  · exact ⟨rfl, rfl⟩
  · have hw := Client.waitReply_same p.wait buflen
      { c with
        sent := c.sent ++ [⟨c.serveraddr, c.msgbuf.read 0 buflen⟩]
        waitReceive := true
        waitCycles := 0 }
    have hs := hw.trans (Client.checkKeySleep_same _ p.sleepKeys)
    exact ⟨hs.sent, hs.fSampRaw⟩
  · have hw := Client.waitReply_same p.wait buflen
      { c with
        sent := c.sent ++ [⟨c.serveraddr, c.msgbuf.read 0 buflen⟩]
        waitReceive := true
        waitCycles := 0 }
    exact ⟨hw.sent, hw.fSampRaw⟩

theorem pass_cases (hp : pass h c p = some c') :
    c.running = true ∧
      ((c.SameOutput c' ∧ c'.running = false) ∨
        ∃ m n f, fillMsg h c.msgbuf c.fSampRaw = some (m, n, f, 0) ∧
          c'.sent = c.sent ++ [⟨c.serveraddr, m.read 0 n⟩] ∧ c'.fSampRaw = f) := by
  unfold pass at hp
  split_ifs at hp with hrun hesc
  · cases hp
    have hk := c.checkKey_same p.key
    exact ⟨by simpa using hrun, Or.inl ⟨⟨hk.sent, hk.fSampRaw⟩, rfl⟩⟩
  · refine ⟨by simpa using hrun, Or.inr ?_⟩
    obtain ⟨⟨m, n, f, err⟩, hfill, hres⟩ := Option.map_eq_some_iff.mp hp
    obtain ⟨rfl, -⟩ := fillMsg_spec hfill
    refine ⟨m, n, f, hfill, ?_⟩
    subst hres
    have hk := c.checkKey_same p.key
    have haddr : (c.checkKey p.key).1.serveraddr = c.serveraddr := by
      unfold Client.checkKey
      split_ifs <;> rfl
    have hs := Client.send_output { (c.checkKey p.key).1 with msgbuf := m, fSampRaw := f } n p
    simp only [ne_eq, not_true_eq_false, if_false]
    refine ⟨?_, hs.2⟩
    rw [hs.1]
    simp only [haddr, hk.sent]

def quietPass : Pass := ⟨'\x00', true, fun _ => ⟨'\x00', .again⟩, []⟩

theorem Client.waitReply_quiet (buflen : ℕ) (c : Client) :
    (c.waitReply quietPass.wait buflen).running = c.running := by
  have hround : ∀ c : Client, (c.waitRound ⟨'\x00', .again⟩ buflen).1.running = c.running := by
    intro c
    unfold waitRound
    dsimp only
    split_ifs with hesc
    · exact absurd hesc Bool.false_ne_true
    · rfl
    · rfl
  induction c using Client.waitReply.induct quietPass.wait buflen with
  | case1 c hw r hr ih =>
    rw [waitReply, if_pos hw]
    simp only [r] at hr ih
    simp only [hr, dif_pos]
    exact ih.trans (hround c)
  | case2 c hw r hr =>
    rw [waitReply, if_pos hw]
    simp only [r] at hr
    simp only [hr]
    exact hround c
  | case3 c hw => rw [waitReply, if_neg hw]

theorem pass_quiet (hrun : c.running = true) (hf : fillMsg h c.msgbuf c.fSampRaw = some (m, n, f, err)) :
    ∃ c', pass h c quietPass = some c' ∧ c'.running = true ∧
      c'.sent = c.sent ++ [⟨c.serveraddr, m.read 0 n⟩] ∧ c'.fSampRaw = f := by
  obtain ⟨rfl, -⟩ := fillMsg_spec hf
  have hsend := Client.send_output { c with msgbuf := m, fSampRaw := f } n quietPass
  refine ⟨Client.send { c with msgbuf := m, fSampRaw := f } n quietPass, ?_, ?_, hsend⟩
  · unfold pass
    rw [if_neg (by simp [hrun]), if_neg (by exact Bool.false_ne_true), hf]
    rfl
  · unfold Client.send
    simp only [quietPass, Bool.not_true, Bool.false_eq_true, if_false, Client.checkKeySleep]
    rw [ite_self]
    exact (Client.waitReply_quiet n _).trans hrun

end

end TcpTests.Mpclient
