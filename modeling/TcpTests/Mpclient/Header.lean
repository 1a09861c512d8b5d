import TcpTests.Mpclient.Client
import TcpTests.Mpserver.Server

/-! Message headers between a client and a server of any byte orders. -/
namespace TcpTests.Mpclient
open Lib Net Fgmp Mpserver

/-- A buffer that starts with a header on the wire. -/
structure HoldsHeader (m : Mem) (msgId len : Word) (cs : List Byte) : Prop where
  words : m.read 0 24 = headerWire msgId len
  callsign : m.read offCallsign (cs.length + 1) = cs ++ [0]

section
variable {h : Endian} {m : Mem} {msgId len : Word} {cs : List Byte}

theorem read_write_prefix_of_le {m m' : Mem} {n k : ℕ} (hk : k ≤ n) :
    ((m'.write 0 (m.read 0 n)).read 0 k) = m.read 0 k := by
  have hall : (m'.write 0 (m.read 0 n)).read 0 n = m.read 0 n :=
    Mem.read_write_of_length (Mem.read_length m 0 n)
  rw [← Mem.read_take _ 0 n k hk, hall, Mem.read_take m 0 n k hk]

theorem myFillMsgHdr_holds (hcs : cs.length < maxCallsignLen) :
    HoldsHeader (myFillMsgHdr h m msgId len cs).1 msgId (msgLenFor msgId len) cs := by
  rw [myFillMsgHdr_eq h m msgId len cs hcs]
  have hsplit : ∀ bs cs : List Byte, bs.length = 24 →
      (m.write 0 (bs ++ cs)).read 0 24 = bs ∧
        (m.write 0 (bs ++ cs)).read 24 cs.length = cs := by
    intro bs cs hbs
    rw [← Mem.write_write m bs cs (show 24 = 0 + bs.length by omega)]
    refine ⟨?_, Mem.read_write_self _ _ _⟩
    rw [Mem.read_write_disjoint _ _ (Or.inl (by omega)), Mem.read_write_of_length hbs]
  obtain ⟨hwords, hcall⟩ := hsplit (headerWire msgId (msgLenFor msgId len)) (cs ++ [0]) rfl
  refine ⟨hwords, ?_⟩
  rw [List.length_append, List.length_singleton] at hcall
  exact hcall

theorem HoldsHeader.received {m' : Mem} {n : ℕ} (hm : HoldsHeader m msgId len cs)
    (hcs : cs.length < maxCallsignLen) (hn : sizeofMsgHdr ≤ n) :
    HoldsHeader (m'.write 0 (m.read 0 n)) msgId len cs := by
  simp only [maxCallsignLen] at hcs
  simp only [sizeofMsgHdr] at hn
  obtain ⟨hwords, hcall⟩ := hm
  refine ⟨?_, ?_⟩
  · rw [read_write_prefix_of_le (by omega), hwords]
  · have hboth : (m'.write 0 (m.read 0 n)).read 0 (24 + (cs.length + 1)) =
        m.read 0 (24 + (cs.length + 1)) := read_write_prefix_of_le (by omega)
    rw [Mem.read_add _ 0 24, Mem.read_add m 0 24] at hboth
    rw [← hcall]
    exact (List.append_inj hboth (by rw [Mem.read_length, Mem.read_length])).2

theorem HoldsHeader.decode (hm : HoldsHeader m msgId len cs) :
    decodeHeader h m = ⟨msgMagic, protoVer, msgId, len⟩ := by
  have hwords := hm.words
  unfold headerWire at hwords
  rw [show (24 : ℕ) = 4 + 4 + 4 + 4 + 4 + 4 from rfl] at hwords
  simp only [Mem.read_add, Nat.zero_add] at hwords
  obtain ⟨hwords, -⟩ := List.append_inj hwords (by simp)
  obtain ⟨hwords, -⟩ := List.append_inj hwords (by simp)
  obtain ⟨hwords, hlen⟩ := List.append_inj hwords (by simp)
  obtain ⟨hwords, hid⟩ := List.append_inj hwords (by simp)
  obtain ⟨hmagic, hversion⟩ := List.append_inj hwords (by simp)
  simp only [decodeHeader, xdrDecodeUint32, swap32_loadWord, beWord_of_read hmagic,
    offMagic, offVersion, offMsgId, offMsgLen]
  rw [beWord_of_read hversion, beWord_of_read hid, beWord_of_read hlen]

theorem HoldsHeader.decodeCallsign (hm : HoldsHeader m msgId len cs)
    (hcs : cs.length < maxCallsignLen) (hz : ∀ b ∈ cs, b ≠ 0) (msgLen : Word) :
    (rewriteHeader h m msgLen).cstr offCallsign maxCallsignLen = cs := by
  apply Mem.cstr_of_read hz hcs
  rw [← hm.callsign]
  apply Mem.read_congr
  intro a hlo hhi
  simp only [offCallsign] at hlo hhi
  by_cases ha : a = offCallsign + maxCallsignLen - 1
  · have hlen : cs.length = 7 := by
      simp only [offCallsign, maxCallsignLen] at ha hcs
      omega
    have hnul := hm.callsign
    rw [hlen, Mem.read_add] at hnul
    have hend := (List.append_inj hnul (by simp [hlen])).2
    rw [ha, rewriteHeader_callsignEnd]
    exact (List.cons.inj hend).1.symm
  · exact rewriteHeader_other h m msgLen (Or.inr (by simp only [offReplyAddress]; omega)) ha

end

/-- A position message as `run_udpclient` hands it to `sendto`. -/
def PositionPacket (bytes : List Byte) : Prop :=
  ∃ m, HoldsHeader m posDataId (BitVec.ofNat 32 bytes.length) testMsg ∧
    bytes = m.read 0 bytes.length ∧ sizeofMsgHdr ≤ bytes.length ∧ bytes.length ≤ maxPacketSize

theorem fillMsg_packet {h : Endian} {m m' : Mem} {n err : ℕ} {f f' : Option Stream}
    (hf : fillMsg h m f = some (m', n, f', err)) : PositionPacket (m'.read 0 n) := by
  obtain ⟨-, hlo, hhi, m₀, -, hm⟩ := fillMsg_spec hf
  have hheader : HoldsHeader m' posDataId (BitVec.ofNat 32 n) testMsg := by
    rw [hm]
    exact myFillMsgHdr_holds (by decide)
  refine ⟨m', ?_, ?_, ?_, ?_⟩
  · rwa [Mem.read_length]
  · rw [Mem.read_length]
  · rwa [Mem.read_length]
  · rwa [Mem.read_length]

theorem Client.Reachable.packets {h : Endian} {c : Client} (hc : c.Reachable h) :
    ∀ q ∈ c.sent, PositionPacket q.bytes := by
  obtain ⟨serveraddr, verbosity, fSampRaw, passes, hr⟩ := hc
  refine runs_invariant (fun c => ∀ q ∈ c.sent, PositionPacket q.bytes) ?_ ?_ hr
  · intro c p c' hc hp q hq
    obtain ⟨-, ⟨hsame, -⟩ | ⟨m, n, f, hfill, hsent, -⟩⟩ := pass_cases hp
    · rw [hsame.sent] at hq
      exact hc q hq
    · rw [hsent, List.mem_append, List.mem_singleton] at hq
      rcases hq with hq | rfl
      · exact hc q hq
      · exact fillMsg_packet hfill
  · intro q hq
    cases hq

theorem PositionPacket.passes {bytes : List Byte} (hb : PositionPacket bytes) (h : Endian)
    (s : Server) :
    (decodeHeader h (s.msgbuf.write 0 (Net.received maxPacketSize bytes))).msgLen =
        BitVec.ofNat 32 bytes.length ∧ (s.treatment h bytes).Passes := by
  obtain ⟨m, hm, hread, hlo, hhi⟩ := hb
  have hbuf : HoldsHeader (s.msgbuf.write 0 (Net.received maxPacketSize bytes)) posDataId
      (BitVec.ofNat 32 bytes.length) testMsg := by
    rw [received_of_le hhi]
    conv => enter [1]; rw [hread]
    exact hm.received (by decide) hlo
  have hdec : decodeHeader h _ = _ := hbuf.decode
  have hmagic := congrArg MsgFields.magic hdec
  have hversion := congrArg MsgFields.version hdec
  have hlen := congrArg MsgFields.msgLen hdec
  refine ⟨hlen, ?_⟩
  rw [decodeHeader_magic] at hmagic
  rw [decodeHeader_version] at hversion
  rw [decodeHeader_msgLen] at hlen
  unfold Server.treatment
  dsimp only
  rw [treatMsg_passes]
  refine ⟨Or.inl hmagic, hversion, ?_⟩
  rw [hlen, received_of_le hhi]

/-- The header a client writes is the one a server reads, for any byte orders of the two; the
length in a position message is the length of the packet, so that the server accepts it; and
writing fails for the callsigns that do not fit. -/
theorem header_roundtrip (snd rcv : Endian) :
    (∀ (m m' : Mem) (msgId len : Word) (cs : List Byte) (n : ℕ), cs.length < maxCallsignLen →
      (∀ b ∈ cs, b ≠ 0) → sizeofMsgHdr ≤ n →
      decodeHeader rcv (m'.write 0 ((myFillMsgHdr snd m msgId len cs).1.read 0 n)) =
          ⟨msgMagic, protoVer, msgId, msgLenFor msgId len⟩ ∧
        (rewriteHeader rcv (m'.write 0 ((myFillMsgHdr snd m msgId len cs).1.read 0 n))
          (msgLenFor msgId len)).cstr offCallsign maxCallsignLen = cs) ∧
    (∀ c : Client, c.Reachable snd → ∀ q ∈ c.sent, ∀ s : Server,
      (decodeHeader rcv (s.msgbuf.write 0 (Net.received maxPacketSize q.bytes))).msgLen =
          BitVec.ofNat 32 q.bytes.length ∧ (s.treatment rcv q.bytes).Passes) ∧
    (∀ (m : Mem) (msgId len : Word) (cs : List Byte),
      (myFillMsgHdr snd m msgId len cs).2 = 1 ↔ maxCallsignLen ≤ cs.length) := by
  refine ⟨?_, ?_, fun m => myFillMsgHdr_result snd m⟩
  · intro m m' msgId len cs n hcs hz hn
    have hheader : HoldsHeader (m'.write 0 ((myFillMsgHdr snd m msgId len cs).1.read 0 n)) msgId
        (msgLenFor msgId len) cs := (myFillMsgHdr_holds hcs).received hcs hn
    exact ⟨hheader.decode, hheader.decodeCallsign hcs hz _⟩
  · intro c hc q hq s
    exact (hc.packets q hq).passes rcv s

/-- A chat header from a big-endian client at a little-endian server, and the packet of a
client without a capture file. -/
theorem header_roundtrip_sample :
    decodeHeader .little (Mem.write (fun _ => 0) 0
        ((myFillMsgHdr .big (fun _ => 0) chatMsgId 9#32 [72, 105]).1.read 0 288)) =
      ⟨msgMagic, protoVer, chatMsgId, 288#32⟩ ∧
    ∃ c, runs (pass .big) (.start ⟨0#32, 0#16⟩ 0 none) [quietPass] = some c ∧
      ∃ q ∈ c.sent, ((Server.start ⟨0, false, 0⟩ false).treatment .little q.bytes).Passes := by
  obtain ⟨hheader, hpackets, -⟩ := header_roundtrip .big .little
  refine ⟨(hheader _ _ chatMsgId 9#32 [72, 105] 288 (by decide) (by decide) (by decide)).1, ?_⟩
  obtain ⟨c, hp, -, hsent, -⟩ :=
    @pass_quiet .big _ _ _ _ (Client.start ⟨0#32, 0#16⟩ 0 none) rfl rfl
  have hrun := runs_cons.mpr ⟨c, hp, runs_nil⟩
  have hc : c.Reachable .big := ⟨_, _, _, _, hrun⟩
  obtain ⟨q, hq⟩ : ∃ q, c.sent = [q] := ⟨_, hsent⟩
  have hmem : q ∈ c.sent := by
    rw [hq]
    exact List.mem_singleton_self q
  exact ⟨c, hrun, q, hmem, (hpackets c hc q hmem _).2⟩

end TcpTests.Mpclient
