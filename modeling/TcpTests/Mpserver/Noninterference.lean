import TcpTests.Mpserver.Server
import TcpTests.Mpserver.Carried

/-! Noninterference between datagrams. The receive buffer keeps the bytes of earlier
datagrams behind a short one, and none of the tests looks at the received length before
the header is decoded. -/
namespace TcpTests.Mpserver
open Lib Net Fgmp

/-- What the datagram carries of the word at an offset is the start of the word. -/
def Starts (d : List Byte) (off : ℕ) (w : Word) : Prop :=
  (d.drop off).take 4 <+: wordBytes .big w

instance (d : List Byte) (off : ℕ) (w : Word) : Decidable (Starts d off w) :=
  inferInstanceAs (Decidable (_ <+: _))

/-- No carried byte of the magic number, the version and the length is wrong. -/
def HeaderAgrees (d : List Byte) : Prop :=
  (Starts d offMagic msgMagic ∨ Starts d offMagic relayMagic) ∧
    Starts d offVersion protoVer ∧ Starts d offMsgLen (BitVec.ofNat 32 d.length)

/-- The datagram carries the callsign up to its end. -/
def CarriesCallsign (d : List Byte) : Prop :=
  offCallsign + maxCallsignLen - 1 ≤ d.length ∨ 0 ∈ d.drop offCallsign

instance (d : List Byte) : Decidable (CarriesCallsign d) :=
  inferInstanceAs (Decidable (_ ∨ _))

/-- The datagram settles its own treatment: it is ruled out by a byte of the header that it
carries, or it carries the header up to the length and, if it is a position message, the
callsign and all the bytes that decide its properties. -/
def SelfContained (d : List Byte) : Prop :=
  ¬ HeaderAgrees d ∨
    (offReplyAddress ≤ d.length ∧
      (beWord (carried d) offMsgId = posDataId → CarriesCallsign d ∧ posSettled d = true))

def HoldsAll (m : Mem) (d : List Byte) : Prop := ∀ a, a < d.length → m a = carried d a

section Header
variable {h : Endian} {m : Mem} {d : List Byte} {off : ℕ} {w : Word}

theorem holdsAll_write (m : Mem) (d : List Byte) : HoldsAll (m.write 0 d) d := by
  intro a ha
  rw [carried, Mem.write_mem m d (by omega) (by omega),
    Mem.write_mem _ d (by omega) (by omega)]

theorem HoldsAll.word (hm : HoldsAll m d) (ho : off + 4 ≤ d.length) :
    beWord m off = beWord (carried d) off := by
  apply beWord_congr
  intro i hi
  exact hm _ (by omega)

theorem HoldsAll.starts (hm : HoldsAll m d) (hw : beWord m off = w) : Starts d off w := by
  have hbytes : wordBytes .big w = m.read off 4 := by
    rw [← hw]
    exact wordBytes_append _ _ _ _
  unfold Starts
  by_cases ho : off ≤ d.length
  · have hread : m.read off (d.length - off) = d.drop off := by
      rw [← carried_read_drop d off ho]
      apply Mem.read_congr
      intro a hlo hhi
      exact hm a (by omega)
    rw [hbytes, ← hread]
    by_cases hn : 4 ≤ d.length - off
    · rw [Mem.read_take m off _ 4 hn]
    · rw [List.take_of_length_le (by rw [Mem.read_length]; omega),
        ← Mem.read_take m off 4 (d.length - off) (by omega)]
      exact List.take_prefix _ _
  · rw [List.drop_eq_nil_of_le (by omega), List.take_nil]
    exact List.nil_prefix

theorem lt_of_not_starts (hs : ¬ Starts d off w) : off < d.length := by
  by_contra hlt
  apply hs
  unfold Starts
  rw [List.drop_eq_nil_of_le (by omega), List.take_nil]
  exact List.nil_prefix

theorem Starts.word (hs : Starts d off w) (ho : off + 4 ≤ d.length) :
    beWord (carried d) off = w := by
  apply beWord_of_read
  have hread : (carried d).read off 4 = (d.drop off).take 4 := by
    rw [← carried_read_drop d off (by omega), Mem.read_take _ _ _ _ (by omega)]
  rw [hread]
  apply hs.eq_of_length
  rw [List.length_take, List.length_drop, wordBytes_length]
  omega

theorem HoldsAll.magic (hm : HoldsAll m d)
    (hs : Starts d offMagic msgMagic ∨ Starts d offMagic relayMagic) (hd : 4 ≤ d.length) :
    beWord m offMagic = msgMagic ∨ beWord m offMagic = relayMagic := by
  rw [hm.word (by simp only [offMagic]; omega)]
  exact hs.imp (fun h => h.word hd) (fun h => h.word hd)

/-- A wrong byte of the header decides which test the datagram fails. -/
theorem treatMsg_ruledOut {m' : Mem} (hm : HoldsAll m d) (hm' : HoldsAll m' d)
    (ha : ¬ HeaderAgrees d) :
    (treatMsg h m d.length).2 = (treatMsg h m' d.length).2 := by
  have hmagic : ∀ m : Mem, HoldsAll m d →
      ¬ (Starts d offMagic msgMagic ∨ Starts d offMagic relayMagic) →
      (treatMsg h m d.length).2 = .badMagic := by
    intro m hm hs
    have hne : beWord m offMagic ≠ msgMagic ∧ beWord m offMagic ≠ relayMagic :=
      ⟨fun hw => hs (Or.inl (hm.starts hw)), fun hw => hs (Or.inr (hm.starts hw))⟩
    simp only [treatMsg, decodeHeader_magic, hne, ne_eq, not_false_eq_true, and_self, if_true]
  have hversion : ∀ m : Mem, HoldsAll m d →
      (Starts d offMagic msgMagic ∨ Starts d offMagic relayMagic) →
      ¬ Starts d offVersion protoVer → (treatMsg h m d.length).2 = .badVersion := by
    intro m hm hs hv
    have hlt : 4 < d.length := lt_of_not_starts hv
    have hok := hm.magic hs (by omega)
    have hne : beWord m offVersion ≠ protoVer := fun hw => hv (hm.starts hw)
    simp only [treatMsg, decodeHeader_magic, decodeHeader_version]
    rw [if_neg (by tauto), if_pos hne]
  have hlength : ∀ m : Mem, HoldsAll m d →
      (Starts d offMagic msgMagic ∨ Starts d offMagic relayMagic) →
      Starts d offVersion protoVer → ¬ Starts d offMsgLen (BitVec.ofNat 32 d.length) →
      (treatMsg h m d.length).2 = .badLength := by
    intro m hm hs hv hl
    have hlt : 12 < d.length := lt_of_not_starts hl
    have hok := hm.magic hs (by omega)
    have hver : beWord m offVersion = protoVer := by
      rw [hm.word (by simp only [offVersion]; omega)]
      exact hv.word (by simp only [offVersion]; omega)
    have hne : beWord m offMsgLen ≠ BitVec.ofNat 32 d.length := fun hw => hl (hm.starts hw)
    simp only [treatMsg, decodeHeader_magic, decodeHeader_version, decodeHeader_msgLen]
    rw [if_neg (by tauto), if_neg (not_not_intro hver), if_pos hne]
  by_cases h1 : Starts d offMagic msgMagic ∨ Starts d offMagic relayMagic
  · by_cases h2 : Starts d offVersion protoVer
    · have h3 : ¬ Starts d offMsgLen (BitVec.ofNat 32 d.length) := fun h3 => ha ⟨h1, h2, h3⟩
      rw [hlength m hm h1 h2 h3, hlength m' hm' h1 h2 h3]
    · rw [hversion m hm h1 h2, hversion m' hm' h1 h2]
  · rw [hmagic m hm h1, hmagic m' hm' h1]

theorem callsign_carried {m' : Mem} (hm : HoldsAll m d) (hm' : HoldsAll m' d)
    (hc : CarriesCallsign d) (msgLen msgLen' : Word) :
    (rewriteHeader h m msgLen).cstr offCallsign maxCallsignLen =
      (rewriteHeader h m' msgLen').cstr offCallsign maxCallsignLen := by
  have hbyte : ∀ a, offCallsign ≤ a → a < offCallsign + maxCallsignLen - 1 → a < d.length →
      rewriteHeader h m msgLen a = rewriteHeader h m' msgLen' a := by
    intro a hlo hhi hlt
    simp only [offCallsign, maxCallsignLen] at hlo hhi
    rw [rewriteHeader_other h m _ (by simp only [offReplyAddress]; omega)
        (by simp only [offCallsign, maxCallsignLen]; omega),
      rewriteHeader_other h m' _ (by simp only [offReplyAddress]; omega)
        (by simp only [offCallsign, maxCallsignLen]; omega), hm a hlt, hm' a hlt]
  unfold Mem.cstr
  by_cases hn : offCallsign + maxCallsignLen - 1 ≤ d.length
  · congr 1
    apply Mem.read_congr
    intro a hlo hhi
    by_cases ha : a = offCallsign + maxCallsignLen - 1
    · rw [ha, rewriteHeader_callsignEnd, rewriteHeader_callsignEnd]
    · exact hbyte a hlo (by omega) (by omega)
  · have hz := hc.resolve_left hn
    simp only [offCallsign, maxCallsignLen] at hn hz hbyte
    have hlt : 24 < d.length := by
      by_contra hle
      rw [List.drop_eq_nil_of_le (by omega)] at hz
      cases hz
    have hread : ∀ m : Mem, ∀ l : Word, HoldsAll m d →
        (rewriteHeader h m l).read 24 (d.length - 24) = d.drop 24 := by
      intro m l hm
      rw [← carried_read_drop d 24 (by omega)]
      apply Mem.read_congr
      intro a hlo hhi
      rw [rewriteHeader_other h m l (by simp only [offReplyAddress]; omega)
        (by simp only [offCallsign, maxCallsignLen]; omega)]
      exact hm a (by omega)
    have htake : ∀ rest : List Byte,
        (d.drop 24 ++ rest).takeWhile (· ≠ 0) = (d.drop 24).takeWhile (· ≠ 0) := by
      intro rest
      rw [List.takeWhile_append, if_neg]
      intro hall
      have heq := List.IsPrefix.eq_of_length (List.takeWhile_prefix fun x : Byte => decide (x ≠ 0)) hall
      have hall := List.all_eq_true.mp (List.all_takeWhile (p := fun x : Byte => decide (x ≠ 0))) 0
        (heq.symm ▸ hz)
      simp at hall
    have hsplit : maxCallsignLen = (d.length - 24) + (8 - (d.length - 24)) := by
      simp only [maxCallsignLen]
      omega
    simp only [offCallsign]
    rw [hsplit, Mem.read_add, Mem.read_add, hread m _ hm, hread m' _ hm', htake, htake]

/-- A self-contained datagram is treated alike in any two buffers. -/
theorem treatMsg_selfContained {m' : Mem} (hm : HoldsAll m d) (hm' : HoldsAll m' d)
    (hd : SelfContained d) (hlen : d.length ≤ maxPacketSize) :
    (treatMsg h m d.length).2 = (treatMsg h m' d.length).2 := by
  rcases hd with ha | ⟨hn, hpos⟩
  · exact treatMsg_ruledOut hm hm' ha
  simp only [offReplyAddress] at hn
  simp only [maxPacketSize] at hlen
  have hword : ∀ off, off + 4 ≤ 16 → beWord m off = beWord (carried d) off ∧
      beWord m' off = beWord (carried d) off :=
    fun off ho => ⟨hm.word (by omega), hm'.word (by omega)⟩
  have hholds : ∀ m : Mem, HoldsAll m d →
      Holds h (rewriteHeader h m (BitVec.ofNat 32 d.length)) d := by
    intro m hm
    constructor
    · intro a hlo ha
      simp only [sizeofMsgHdr] at hlo
      rw [rewriteHeader_other h m _ (by simp only [offReplyAddress]; omega)
        (by simp only [offCallsign, maxCallsignLen]; omega)]
      exact hm a ha
    · rw [rewriteHeader_msgLen, BitVec.toNat_ofNat, Nat.mod_eq_of_lt (by omega)]
  simp only [treatMsg, decodeHeader_magic, decodeHeader_version, decodeHeader_msgId,
    decodeHeader_msgLen, hword offMagic (by decide), hword offVersion (by decide),
    hword offMsgId (by decide), hword offMsgLen (by decide)]
  by_cases hl : beWord (carried d) offMsgLen = BitVec.ofNat 32 d.length
  · by_cases hid : beWord (carried d) offMsgId = posDataId
    · obtain ⟨hcs, hprops⟩ := hpos hid
      rw [hl, (hholds m hm).processPosMsg_eq hprops, (hholds m' hm').processPosMsg_eq hprops,
        callsign_carried hm hm' hcs]
    · simp only [hid, if_false]
  · simp only [ne_eq, hl, not_false_eq_true, if_true]

end Header

/-- In two reachable states with the same clients a self-contained datagram is treated alike
and leaves the same clients, whatever was received before it. -/
theorem datagram_noninterference (h : Endian) (s₁ s₂ : Server) (h₁ : s₁.Reachable h)
    (h₂ : s₂.Reachable h) (hmap : s₁.mMPMap = s₂.mMPMap) (clientaddr : SockaddrIn)
    (bytes : List Byte) (disk₁ disk₂ : Disk) (key₁ key₂ : Char)
    (hd : SelfContained (received maxPacketSize bytes)) :
    s₁.treatment h bytes = s₂.treatment h bytes ∧
      (s₁.datagram h clientaddr bytes disk₁ key₁).mMPMap =
        (s₂.datagram h clientaddr bytes disk₂ key₂).mMPMap := by
  have htreat : s₁.treatment h bytes = s₂.treatment h bytes :=
    treatMsg_selfContained (holdsAll_write _ _) (holdsAll_write _ _) hd (received_length_le _ bytes)
  refine ⟨htreat, ?_⟩
  rw [(datagram_clients h₁.counted).2, (datagram_clients h₂.counted).2, hmap, htreat]

/-- A position message without properties from `Hi`. -/
def samplePosition : List Byte :=
  headerWire posDataId 32#32 ++ [72, 105, 0, 0, 0, 0, 0, 0]

/-- The same header with a length that does not fit. -/
def sampleWrongLength : List Byte :=
  headerWire posDataId 0#32 ++ [72, 105, 0, 0, 0, 0, 0, 0]

def samplePass (bytes : List Byte) : Pass := ⟨'\x00', .datagram ⟨0#32, 0#16⟩ bytes, ⟨0, 0⟩, '\x00'⟩

def sampleStart : Server := .start ⟨0, false, 0⟩ false

theorem sampleStart_reachable : sampleStart.Reachable .little :=
  ⟨⟨0, false, 0⟩, false, [], rfl⟩

def sampleStale : Server :=
  sampleStart.datagram .little ⟨0#32, 0#16⟩ sampleWrongLength ⟨0, 0⟩ '\x00'

theorem sampleStale_reachable : sampleStale.Reachable .little :=
  ⟨⟨0, false, 0⟩, false, [samplePass sampleWrongLength], rfl⟩

theorem datagram_noninterference_sample :
    sampleStart.treatment .little samplePosition = sampleStale.treatment .little samplePosition ∧
      (sampleStart.datagram .little ⟨0#32, 0#16⟩ samplePosition ⟨0, 0⟩ '\x00').mMPMap =
        (sampleStale.datagram .little ⟨0#32, 0#16⟩ samplePosition ⟨0, 0⟩ '\x00').mMPMap := by
  refine datagram_noninterference .little _ _ sampleStart_reachable sampleStale_reachable ?_
    _ _ _ _ _ _ ?_
  · decide
  · exact Or.inr ⟨by decide, fun _ => ⟨by decide, by decide⟩⟩

/-- An empty datagram is rejected by a fresh server. After a message that was rejected for its
length, it is accepted and enters the callsign of that message. -/
theorem datagram_interference :
    sampleStart.Reachable .little ∧ sampleStale.Reachable .little ∧
      sampleStart.mMPMap = sampleStale.mMPMap ∧
      sampleStart.treatment .little [] = .badMagic ∧
      sampleStale.treatment .little [] = .posData 0 [] [72, 105] := by
  refine ⟨sampleStart_reachable, sampleStale_reachable, by decide, by decide, ?_⟩
  have hshort : ∀ l : Word, l = 0#32 → ∀ m : Mem,
      processPosMsg .little (rewriteHeader .little m l) = (0, []) := by
    rintro l rfl m
    exact processPosMsg_short (by rw [rewriteHeader_msgLen]; decide)
  simp only [Server.treatment, treatMsg]
  rw [if_neg (by decide), if_neg (by decide), if_neg (by decide), if_neg (by decide),
    if_pos (by decide), hshort _ (by decide)]
  decide

end TcpTests.Mpserver
