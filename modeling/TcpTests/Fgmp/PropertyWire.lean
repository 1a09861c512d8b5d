import TcpTests.Fgmp.Properties

/-! Property lists on the wire, in both layouts of a position message, and the
proof that the server reads them back. -/
namespace TcpTests.Fgmp
open Lib

/-- The values a property of the given type may be sent with. -/
def HasType : FGMPType → PropertyValue → Prop
  | .int, .int _ | .bool, .int _ | .long, .int _ => True
  | .float, .float x | .double, .float x => isNan x = false
  | .string, .string s | .unspecified, .string s => s.length ≤ maxTextSize ∧ ∀ b ∈ s, b ≠ 0
  | _, _ => False

/-- The words after the identifier. A character takes the low byte of a word of its own, and
nothing is required of the words skipped after the text. -/
inductive EncodesValue : PropertyValue → List Word → Prop
  | int (v : Word) : EncodesValue (.int v) [v]
  | float (v : Word) : EncodesValue (.float v) [v]
  | string {s : List Byte} {chars skip : List Word} (hc : chars.map (·.setWidth 8) = s)
      (hs : skip.length = alignSteps 4 s.length) :
      EncodesValue (.string s) (BitVec.ofNat 32 s.length :: (chars ++ skip))

/-- A list of properties from the table, with values of the table's types, and its words. -/
inductive EncodesList : List FGPropertyData → List Word → Prop
  | nil : EncodesList [] []
  | cons {id : Word} {type : FGMPType} {value : PropertyValue} {ps : List FGPropertyData}
      {ws rest : List Word} (hid : findProperty id = some ⟨id, type⟩) (ht : HasType type value)
      (hv : EncodesValue value ws) (hps : EncodesList ps rest) :
      EncodesList (⟨id, type, value⟩ :: ps) (id :: (ws ++ rest))

def WordsAt (h : Endian) (data : ℕ → Word) : ℕ → List Word → Prop
  | _, [] => True
  | xdr, w :: ws => swap32 h (data xdr) = w ∧ WordsAt h data (xdr + 1) ws

theorem wordsAt_append {h : Endian} {data : ℕ → Word} {xdr : ℕ} {ws ws' : List Word} :
    WordsAt h data xdr (ws ++ ws') ↔ WordsAt h data xdr ws ∧ WordsAt h data (xdr + ws.length) ws' := by
  induction ws generalizing xdr with
  | nil => simp [WordsAt]
  | cons w ws ih =>
    simp only [List.cons_append, WordsAt, ih, and_assoc, List.length_cons]
    rw [show xdr + 1 + ws.length = xdr + (ws.length + 1) by omega]

theorem WordsAt.chars {h : Endian} {data : ℕ → Word} {xdr : ℕ} {ws : List Word}
    (hw : WordsAt h data xdr ws) :
    ((List.range ws.length).map fun i => xdrDecodeInt8 h (data (xdr + i))) =
      ws.map (·.setWidth 8) := by
  induction ws generalizing xdr with
  | nil => rfl
  | cons w ws ih =>
    obtain ⟨hx, hws⟩ := hw
    rw [List.length_cons, List.range_succ_eq_map, List.map_cons, List.map_map, List.map_cons]
    congr 1
    · rw [Nat.add_zero, xdrDecodeInt8, hx]
    · rw [← ih hws]
      apply List.map_congr_left
      intro i _
      simp only [Function.comp_apply]
      rw [show xdr + (i + 1) = xdr + 1 + i by omega]

def wire (ws : List Word) : List Byte := ws.flatMap (wordBytes .big)

@[simp] theorem wire_length (ws : List Word) : (wire ws).length = 4 * ws.length := by
  induction ws with
  | nil => rfl
  | cons w ws ih =>
    rw [wire, List.flatMap_cons, List.length_append, wordBytes_length, List.length_cons]
    change 4 + (wire ws).length = _
    rw [ih]
    omega

theorem wordsAt_of_read {h : Endian} {m : Mem} {xdr : ℕ} {ws : List Word}
    (hm : m.read (4 * xdr) (4 * ws.length) = wire ws) : WordsAt h (bufferWords h m) xdr ws := by
  induction ws generalizing xdr with
  | nil => trivial
  | cons w ws ih =>
    rw [List.length_cons, show 4 * (ws.length + 1) = 4 + 4 * ws.length by omega, Mem.read_add,
      wire, List.flatMap_cons] at hm
    obtain ⟨hw, hws⟩ := List.append_inj hm (by simp)
    refine ⟨?_, ih hws⟩
    rw [swap32_bufferWords]
    exact beWord_of_read hw

section Element
variable {h : Endian} {data : ℕ → Word} {xdr : ℕ} {type : FGMPType} {value : PropertyValue}
  {ws : List Word}

theorem textLength_ofNat {n : ℕ} (hn : n ≤ maxTextSize) : textLength (BitVec.ofNat 32 n) = n := by
  simp only [maxTextSize] at hn
  have ht : (BitVec.ofNat 32 n).toNat = n := by
    rw [BitVec.toNat_ofNat, Nat.mod_eq_of_lt (by omega)]
  simp only [textLength, ht, maxTextSize, if_neg (Nat.not_lt.mpr hn)]

theorem decodeElement_encoded (ht : HasType type value) (he : EncodesValue value ws)
    (hw : WordsAt h data xdr ws) : decodeElement h data type xdr = (value, xdr + ws.length) := by
  cases he with
  | int v =>
    obtain ⟨hx, -⟩ := hw
    cases type <;> simp only [HasType] at ht <;>
      simp only [decodeElement, xdrDecodeUint32, hx, List.length_singleton]
  | float v =>
    obtain ⟨hx, -⟩ := hw
    cases type <;> simp only [HasType] at ht <;>
      simp only [decodeElement, xdrDecodeFloat, hx, List.length_singleton]
  | @string s chars skip hc hs =>
    obtain ⟨hx, hrest⟩ := hw
    have hchars := (wordsAt_append.mp hrest).1.chars
    have hlen : chars.length = s.length := by rw [← hc, List.length_map]
    have hs' : s.length ≤ maxTextSize := by
      cases type <;> simp only [HasType] at ht <;> exact ht.1
    rw [hc, hlen] at hchars
    have hl : textLength (xdrDecodeUint32 h (data xdr)) = s.length := by
      rw [xdrDecodeUint32, hx, textLength_ofNat hs']
    have hend : xdr + 1 + s.length + alignSteps 4 s.length =
        xdr + (BitVec.ofNat 32 s.length :: (chars ++ skip)).length := by
      rw [List.length_cons, List.length_append, hlen, hs]
      omega
    cases type <;> simp only [HasType] at ht <;>
      simp only [decodeElement, hl, hchars, hend]

theorem verifyElement_encoded (ht : HasType type value) (he : EncodesValue value ws)
    (hw : WordsAt h data xdr ws) : verifyElement h data type xdr = some (xdr + ws.length) := by
  have hd := decodeElement_encoded ht he hw
  cases he with
  | int v =>
    cases type <;> simp only [HasType] at ht <;> rfl
  | float v =>
    obtain ⟨hx, -⟩ := hw
    cases type <;> simp only [HasType] at ht <;>
      simp only [verifyElement, xdrDecodeFloat, hx, ht, List.length_singleton] <;> rfl
  | string hc hs =>
    have hnext := congrArg Prod.snd hd
    cases type <;> simp only [HasType] at ht <;> exact congrArg some hnext

end Element

section List
variable {h : Endian} {data : ℕ → Word} {xdr : ℕ} {ps : List FGPropertyData} {ws : List Word}

theorem verifyProperties_encoded (he : EncodesList ps ws) (hw : WordsAt h data xdr ws) :
    verifyProperties h data (4 * (xdr + ws.length)) xdr = true := by
  induction he generalizing xdr with
  | nil => exact verifyProperties_end (by simp)
  | @cons id type value ps ws rest hid ht hv hps ih =>
    obtain ⟨hx, hrest⟩ := hw
    obtain ⟨hws, hr⟩ := wordsAt_append.mp hrest
    have hf : findProperty (xdrDecodeUint32 h (data xdr)) = some ⟨id, type⟩ := by
      rw [xdrDecodeUint32, hx, hid]
    rw [verifyProperties_next (by rw [List.length_cons]; omega) hf
      (verifyElement_encoded ht hv hws), ← ih hr]
    rw [List.length_cons, List.length_append,
      show xdr + (ws.length + rest.length + 1) = xdr + 1 + ws.length + rest.length by omega]

theorem decodeProperties_encoded (he : EncodesList ps ws) (hw : WordsAt h data xdr ws) :
    decodeProperties h data (4 * (xdr + ws.length)) xdr = (0, ps) := by
  induction he generalizing xdr with
  | nil => exact decodeProperties_end (by simp)
  | @cons id type value ps ws rest hid ht hv hps ih =>
    obtain ⟨hx, hrest⟩ := hw
    obtain ⟨hws, hr⟩ := wordsAt_append.mp hrest
    have hf : findProperty (xdrDecodeUint32 h (data xdr)) = some ⟨id, type⟩ := by
      rw [xdrDecodeUint32, hx, hid]
    have hend : 4 * (xdr + (id :: (ws ++ rest)).length) =
        4 * (xdr + 1 + ws.length + rest.length) := by
      rw [List.length_cons, List.length_append]
      omega
    rw [decodeProperties_next (by rw [List.length_cons]; omega) hf,
      decodeElement_encoded ht hv hws, hend, ih hr, xdrDecodeUint32, hx]

end List

/-- The two places a property list may start at. -/
inductive Layout
  | old
  | new

@[simp] def Layout.start : Layout → ℕ
  | .old => offPad
  | .new => offProperties

/-- A message buffer that holds a property list, with `MsgLen` in host order at its end. The
new layout has a zero pad word before the list. -/
structure Placed (h : Endian) (layout : Layout) (m : Mem) (ws : List Word) : Prop where
  words : m.read layout.start (4 * ws.length) = wire ws
  pad : layout = .new → m.read offPad 4 = [0, 0, 0, 0]
  fits : layout.start + 4 * ws.length ≤ maxPacketSize
  msgLen : (loadWord h m offMsgLen).toNat = layout.start + 4 * ws.length

section Message
variable {h : Endian} {m : Mem} {ps : List FGPropertyData} {ws : List Word}

/-- A zero pad word sends the loop to the properties without verification. -/
theorem processPosMsg_new (he : EncodesList ps ws) (hm : Placed h .new m ws) :
    processPosMsg h m = (0, ps) := by
  have hpad : bufferWords h m padWord = 0#32 := by
    rw [← swap32_eq_zero (h := h), swap32_bufferWords]
    exact beWord_of_read (hm.pad rfl)
  have hw : WordsAt h (bufferWords h m) propertiesWord ws := wordsAt_of_read hm.words
  have hend : (loadWord h m offMsgLen).toNat = 4 * (propertiesWord + ws.length) := by
    rw [hm.msgLen]
    simp only [Layout.start, offProperties, propertiesWord, sizeofMsgHdr, sizeofPositionMsg]
    omega
  unfold processPosMsg
  simp only [hpad, ne_eq, not_true_eq_false, if_false]
  rw [hend]
  exact decodeProperties_encoded he hw

/-- The first identifier of a list is what makes the pad word differ from zero. -/
theorem processPosMsg_old (he : EncodesList ps ws) (hm : Placed h .old m ws) :
    processPosMsg h m = (0, ps) := by
  have hw : WordsAt h (bufferWords h m) padWord ws := wordsAt_of_read hm.words
  have hend : (loadWord h m offMsgLen).toNat = 4 * (padWord + ws.length) := by
    rw [hm.msgLen]
    simp only [Layout.start, offPad, padWord, sizeofMsgHdr]
    omega
  have hverify := verifyProperties_encoded he hw
  have hdecode := decodeProperties_encoded he hw
  unfold processPosMsg
  simp only [hend, hverify, if_true, hdecode]
  by_cases hpad : bufferWords h m padWord = 0#32
  · rw [if_neg (not_not_intro hpad)]
    cases he with
    | nil =>
      exact decodeProperties_end (by simp)
    | cons hid ht hv hps =>
      have hx := hw.1
      rw [hpad, swap32_zero] at hx
      exact absurd hx.symm (findProperty_ne_zero hid)
  · rw [if_pos hpad]

end Message

/-- A list of properties from the table, placed in either layout, decodes to itself. -/
theorem processPosMsg_encoded (h : Endian) (layout : Layout) (m : Mem)
    (ps : List FGPropertyData) (ws : List Word) (he : EncodesList ps ws)
    (hm : Placed h layout m ws) : processPosMsg h m = (0, ps) := by
  cases layout with
  | old => exact processPosMsg_old he hm
  | new => exact processPosMsg_new he hm

/-- An integer and the text `Hi` in the old layout, at a little-endian receiver. -/
theorem processPosMsg_encoded_sample :
    processPosMsg .little
        ((Mem.write (fun _ => 0) offMsgLen (wordBytes .little 260#32)).write offPad
          (wire [1100#32, 5#32, 10002#32, 2#32, 72#32, 105#32, 0#32, 0#32])) =
      (0, [⟨1100#32, .int, .int 5#32⟩, ⟨10002#32, .string, .string [72, 105]⟩]) := by
  have htext : EncodesValue (.string [72, 105]) [2#32, 72#32, 105#32, 0#32, 0#32] :=
    @EncodesValue.string [72, 105] [72#32, 105#32] [0#32, 0#32] (by decide)
      (by rw [alignSteps_eq (by decide)]; rfl)
  refine processPosMsg_encoded .little .old _ _ _
    (.cons (by decide) trivial (.int 5#32) (.cons (by decide) ?_ htext .nil)) ?_
  · exact ⟨by decide, by decide⟩
  · exact ⟨by decide, nofun, by decide, by decide⟩

end TcpTests.Fgmp
