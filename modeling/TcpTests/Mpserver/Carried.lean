import TcpTests.Net.Datagram
import TcpTests.Fgmp.Properties

/-! Property lists and the bytes a datagram carries. The list is followed on the carried
bytes with zeros after them, and is settled if the server never needs a byte that only an
earlier datagram can have put into the buffer. -/
namespace TcpTests.Mpserver
open Lib Net Fgmp

def Carries (d : List Byte) (xdr : ℕ) : Prop := 4 * xdr + 4 ≤ d.length

instance (d : List Byte) (xdr : ℕ) : Decidable (Carries d xdr) :=
  inferInstanceAs (Decidable (_ ≤ _))

def carriedWords (d : List Byte) : ℕ → Word := bufferWords .big (carried d)

/-- The carried bytes settle the lookup of an identifier. One that is cut is settled when
no identifier of the table starts with what is there. -/
def IdSettled (d : List Byte) (xdr : ℕ) : Prop :=
  Carries d xdr ∨
    sIdPropertyList.all (fun p => !(d.drop (4 * xdr)).isPrefixOf (wordBytes .big p.id)) = true

instance (d : List Byte) (xdr : ℕ) : Decidable (IdSettled d xdr) :=
  inferInstanceAs (Decidable (_ ∨ _))

section
variable (d : List Byte) (data : ℕ → Word)

/-- The carried bytes settle whether verification goes on after an element. Only a float is
looked at, and one that is cut may already be known not to be a number. -/
def VerifyElementSettled (type : FGMPType) (xdr : ℕ) : Prop :=
  match type with
  | .float | .double => Carries d xdr ∨ isNan (data xdr) = true
  | _ => True

instance (type : FGMPType) (xdr : ℕ) : Decidable (VerifyElementSettled d data type xdr) := by
  unfold VerifyElementSettled
  cases type <;> exact inferInstance

/-- The carried bytes settle the value of an element. -/
def DecodeElementSettled (type : FGMPType) (xdr : ℕ) : Prop :=
  match type with
  | .string | .unspecified =>
    Carries d xdr ∧ 4 * (xdr + 1 + textLength (data xdr)) ≤ d.length
  | _ => Carries d xdr

instance (type : FGMPType) (xdr : ℕ) : Decidable (DecodeElementSettled d data type xdr) := by
  unfold DecodeElementSettled
  cases type <;> exact inferInstance

def verifySettled (xdr : ℕ) : Bool :=
  if 4 * xdr < d.length then
    decide (IdSettled d xdr) &&
      match findProperty (data xdr) with
      | some plist =>
        decide (VerifyElementSettled d data plist.type (xdr + 1)) &&
          match _hv : verifyElement .big data plist.type (xdr + 1) with
          | some next => verifySettled next
          | none => true
      | none => true
  else true
termination_by d.length - 4 * xdr
decreasing_by
  have := verifyElement_lt _hv
  omega

def decodeSettled (xdr : ℕ) : Bool :=
  if 4 * xdr < d.length then
    decide (IdSettled d xdr) &&
      match findProperty (data xdr) with
      | some plist =>
        decide (DecodeElementSettled d data plist.type (xdr + 1)) &&
          decodeSettled (decodeElement .big data plist.type (xdr + 1)).2
      | none => true
  else true
termination_by d.length - 4 * xdr
decreasing_by
  have := decodeElement_lt .big data plist.type (xdr + 1)
  omega

end

def posSettled (d : List Byte) : Bool :=
  let data := carriedWords d
  if d.length ≤ offPad then true
  else if ¬ Carries d padWord then decide (IdSettled d padWord)
  else if data padWord = 0#32 then decodeSettled d data propertiesWord
  else
    verifySettled d data padWord &&
      if verifyProperties .big data d.length padWord then decodeSettled d data padWord
      else
        verifySettled d data propertiesWord &&
          (!verifyProperties .big data d.length propertiesWord ||
            decodeSettled d data propertiesWord)

/-- A buffer that holds the bytes of a datagram behind the header, and its length. -/
structure Holds (h : Endian) (m : Mem) (d : List Byte) : Prop where
  bytes : ∀ a, sizeofMsgHdr ≤ a → a < d.length → m a = carried d a
  msgLen : (loadWord h m offMsgLen).toNat = d.length

theorem carriedWords_eq (d : List Byte) (xdr : ℕ) :
    carriedWords d xdr = beWord (carried d) (4 * xdr) := rfl

theorem isNan_of_and {x y : Word} (hxy : x &&& y = x) (hx : isNan x = true) : isNan y = true := by
  simp only [isNan, Bool.and_eq_true, beq_iff_eq, bne_iff_ne, ne_eq] at hx ⊢
  obtain ⟨hexp, hfrac⟩ := hx
  constructor
  · calc
      y &&& 0x7F800000#32 = y &&& (x &&& 0x7F800000#32) := by rw [hexp]
      _ = x &&& y &&& 0x7F800000#32 := by rw [← BitVec.and_assoc, BitVec.and_comm y x]
      _ = 0x7F800000#32 := by rw [hxy, hexp]
  · intro hy
    apply hfrac
    rw [← hxy, BitVec.and_assoc, hy, BitVec.and_zero]

theorem verifySettled_next {d : List Byte} {data : ℕ → Word} {xdr : ℕ} (hlt : 4 * xdr < d.length)
    (hs : verifySettled d data xdr = true) :
    IdSettled d xdr ∧ ∀ plist, findProperty (data xdr) = some plist →
      VerifyElementSettled d data plist.type (xdr + 1) ∧
        ∀ next, verifyElement .big data plist.type (xdr + 1) = some next →
          verifySettled d data next = true := by
  rw [verifySettled, if_pos hlt, Bool.and_eq_true, decide_eq_true_iff] at hs
  refine ⟨hs.1, ?_⟩
  intro plist hf
  have hrest := hs.2
  rw [hf] at hrest
  simp only [Bool.and_eq_true, decide_eq_true_iff] at hrest
  refine ⟨hrest.1, ?_⟩
  intro next hv
  have hnext := hrest.2
  split at hnext
  · rename_i n hn
    rw [hv] at hn
    cases hn
    exact hnext
  · rename_i hn
    rw [hv] at hn
    cases hn

theorem decodeSettled_next {d : List Byte} {data : ℕ → Word} {xdr : ℕ} (hlt : 4 * xdr < d.length)
    (hs : decodeSettled d data xdr = true) :
    IdSettled d xdr ∧ ∀ plist, findProperty (data xdr) = some plist →
      DecodeElementSettled d data plist.type (xdr + 1) ∧
        decodeSettled d data (decodeElement .big data plist.type (xdr + 1)).2 = true := by
  rw [decodeSettled, if_pos hlt, Bool.and_eq_true, decide_eq_true_iff] at hs
  refine ⟨hs.1, ?_⟩
  intro plist hf
  have hrest := hs.2
  rw [hf] at hrest
  simpa only [Bool.and_eq_true, decide_eq_true_iff] using hrest

section Held
variable {h : Endian} {m : Mem} {d : List Byte} {xdr : ℕ}

theorem Holds.word (hm : Holds h m d) (hx : 8 ≤ xdr) (hc : Carries d xdr) :
    swap32 h (bufferWords h m xdr) = carriedWords d xdr := by
  rw [swap32_bufferWords, carriedWords_eq]
  unfold Carries at hc
  apply beWord_congr
  intro i hi
  exact hm.bytes _ (by simp only [sizeofMsgHdr]; omega) (by omega)

theorem Holds.read_drop (hm : Holds h m d) {a : ℕ} (hlo : sizeofMsgHdr ≤ a) (ha : a ≤ d.length) :
    m.read a (d.length - a) = d.drop a := by
  rw [← carried_read_drop d a ha]
  apply Mem.read_congr
  intro b hb hb'
  exact hm.bytes b (by omega) (by omega)

/-- A cut word only has bits set that the word in the buffer has. -/
theorem Holds.and_word (hm : Holds h m d) (hx : 8 ≤ xdr) :
    carriedWords d xdr &&& swap32 h (bufferWords h m xdr) = carriedWords d xdr := by
  have hbyte : ∀ a, sizeofMsgHdr ≤ a → carried d a &&& m a = carried d a := by
    intro a ha
    by_cases hlt : a < d.length
    · rw [hm.bytes a ha hlt, BitVec.and_self]
    · rw [carried_ge (by omega)]
      exact BitVec.zero_and
  rw [swap32_bufferWords, carriedWords_eq]
  unfold beWord
  rw [BitVec.and_append, BitVec.and_append, BitVec.and_append]
  simp only [sizeofMsgHdr] at hbyte
  rw [hbyte _ (by omega), hbyte _ (by omega), hbyte _ (by omega), hbyte _ (by omega)]

theorem findProperty_cut (hlt : 4 * xdr < d.length) (hc : ¬ Carries d xdr) (hs : IdSettled d xdr)
    (hread : m.read (4 * xdr) (d.length - 4 * xdr) = d.drop (4 * xdr)) :
    findProperty (beWord m (4 * xdr)) = none := by
  by_contra hne
  obtain ⟨plist, hp⟩ := Option.ne_none_iff_exists'.mp hne
  have hall := List.all_eq_true.mp (hs.resolve_left hc) plist (findProperty_mem hp)
  have hbytes : wordBytes .big plist.id = m.read (4 * xdr) 4 := by
    rw [findProperty_id hp]
    exact wordBytes_append _ _ _ _
  have hpre : d.drop (4 * xdr) <+: wordBytes .big plist.id := by
    unfold Carries at hc
    rw [hbytes, ← hread, ← Mem.read_take m (4 * xdr) 4 (d.length - 4 * xdr) (by omega)]
    exact List.take_prefix _ _
  rw [List.isPrefixOf_iff_prefix.mpr hpre] at hall
  cases hall

theorem Holds.findProperty_cut (hm : Holds h m d) (hx : 8 ≤ xdr) (hlt : 4 * xdr < d.length)
    (hc : ¬ Carries d xdr) (hs : IdSettled d xdr) :
    findProperty (xdrDecodeUint32 h (bufferWords h m xdr)) = none := by
  rw [xdrDecodeUint32, swap32_bufferWords]
  exact Mpserver.findProperty_cut hlt hc hs
    (hm.read_drop (by simp only [sizeofMsgHdr]; omega) (by omega))

theorem Holds.findProperty (hm : Holds h m d) (hx : 8 ≤ xdr) (hlt : 4 * xdr < d.length)
    (hs : IdSettled d xdr) :
    findProperty (xdrDecodeUint32 h (bufferWords h m xdr)) =
      findProperty (xdrDecodeUint32 .big (carriedWords d xdr)) := by
  by_cases hc : Carries d xdr
  · rw [xdrDecodeUint32, hm.word hx hc]
    rfl
  · rw [hm.findProperty_cut hx hlt hc hs]
    exact (Mpserver.findProperty_cut hlt hc hs (carried_read_drop d _ (by omega))).symm

/-- What follows an element agrees, unless both pointers are past the end. -/
theorem Holds.verifyElement (hm : Holds h m d) (hx : 8 ≤ xdr) {type : FGMPType}
    (hs : VerifyElementSettled d (carriedWords d) type xdr) :
    verifyElement h (bufferWords h m) type xdr = verifyElement .big (carriedWords d) type xdr ∨
      ∃ n n', verifyElement h (bufferWords h m) type xdr = some n ∧
        verifyElement .big (carriedWords d) type xdr = some n' ∧
        d.length ≤ 4 * n ∧ d.length ≤ 4 * n' := by
  have hfloat : Carries d xdr ∨ isNan (carriedWords d xdr) = true →
      isNan (swap32 h (bufferWords h m xdr)) = isNan (carriedWords d xdr) := by
    rintro (hc | hn)
    · rw [hm.word hx hc]
    · rw [hn, isNan_of_and (hm.and_word hx) hn]
  have htext : ¬ Carries d xdr → ∀ l : ℕ, d.length ≤ 4 * (xdr + 1 + l + alignSteps 4 l) := by
    intro hc l
    unfold Carries at hc
    omega
  cases type with
  | float | double =>
    left
    simp only [Fgmp.verifyElement, xdrDecodeFloat, hfloat hs]
    rfl
  | string | unspecified =>
    by_cases hc : Carries d xdr
    · left
      simp only [Fgmp.verifyElement, xdrDecodeUint32, hm.word hx hc]
      rfl
    · exact Or.inr ⟨_, _, rfl, rfl, htext hc _, htext hc _⟩
  | _ => exact Or.inl rfl

theorem Holds.decodeElement (hm : Holds h m d) (hx : 8 ≤ xdr) {type : FGMPType}
    (hs : DecodeElementSettled d (carriedWords d) type xdr) :
    decodeElement h (bufferWords h m) type xdr =
      decodeElement .big (carriedWords d) type xdr := by
  have htext : Carries d xdr ∧ 4 * (xdr + 1 + textLength (carriedWords d xdr)) ≤ d.length →
      (List.range (textLength (carriedWords d xdr))).map
          (fun i => xdrDecodeInt8 h (bufferWords h m (xdr + 1 + i))) =
        (List.range (textLength (carriedWords d xdr))).map
          (fun i => xdrDecodeInt8 .big (carriedWords d (xdr + 1 + i))) := by
    rintro ⟨_, hl⟩
    apply List.map_congr_left
    intro i hi
    have hlt := List.mem_range.mp hi
    simp only [xdrDecodeInt8, hm.word (show 8 ≤ xdr + 1 + i by omega)
      (show Carries d (xdr + 1 + i) by unfold Carries; omega)]
    rfl
  cases type with
  | string | unspecified =>
    simp only [Fgmp.decodeElement, xdrDecodeUint32, hm.word hx hs.1, htext hs]
    rfl
  | _ =>
    simp only [Fgmp.decodeElement, xdrDecodeUint32, xdrDecodeFloat, hm.word hx hs]
    rfl

theorem Holds.verifyProperties (hm : Holds h m d) (hx : 8 ≤ xdr)
    (hs : verifySettled d (carriedWords d) xdr = true) :
    verifyProperties h (bufferWords h m) d.length xdr =
      verifyProperties .big (carriedWords d) d.length xdr := by
  induction hk : d.length - 4 * xdr using Nat.strong_induction_on generalizing xdr with
  | _ k ih =>
    by_cases hlt : 4 * xdr < d.length
    · obtain ⟨hid, hrest⟩ := verifySettled_next hlt hs
      have hfind := hm.findProperty hx hlt hid
      cases hf : Fgmp.findProperty (xdrDecodeUint32 .big (carriedWords d xdr)) with
      | none =>
        rw [hf] at hfind
        rw [verifyProperties_unknown hlt hfind, verifyProperties_unknown hlt hf]
      | some plist =>
        rw [hf] at hfind
        obtain ⟨he, hnext⟩ := hrest plist hf
        rcases hm.verifyElement (show 8 ≤ xdr + 1 by omega) he with heq | ⟨n, n', hn, hn', hl, hl'⟩
        · cases hv : Fgmp.verifyElement .big (carriedWords d) plist.type (xdr + 1) with
          | none =>
            rw [hv] at heq
            rw [verifyProperties_stop hlt hfind heq, verifyProperties_stop hlt hf hv]
          | some next =>
            rw [hv] at heq
            have hgt := verifyElement_lt hv
            rw [verifyProperties_next hlt hfind heq, verifyProperties_next hlt hf hv]
            exact ih _ (by omega) (by omega) (hnext next hv) rfl
        · rw [verifyProperties_next hlt hfind hn, verifyProperties_next hlt hf hn',
            verifyProperties_end hl, verifyProperties_end hl']
    · rw [verifyProperties_end (by omega), verifyProperties_end (by omega)]

theorem Holds.decodeProperties (hm : Holds h m d) (hx : 8 ≤ xdr)
    (hs : decodeSettled d (carriedWords d) xdr = true) :
    decodeProperties h (bufferWords h m) d.length xdr =
      decodeProperties .big (carriedWords d) d.length xdr := by
  induction hk : d.length - 4 * xdr using Nat.strong_induction_on generalizing xdr with
  | _ k ih =>
    by_cases hlt : 4 * xdr < d.length
    · obtain ⟨hid, hrest⟩ := decodeSettled_next hlt hs
      have hfind := hm.findProperty hx hlt hid
      cases hf : Fgmp.findProperty (xdrDecodeUint32 .big (carriedWords d xdr)) with
      | none =>
        rw [hf] at hfind
        rw [decodeProperties_unknown hlt hfind, decodeProperties_unknown hlt hf]
      | some plist =>
        rw [hf] at hfind
        obtain ⟨he, hnext⟩ := hrest plist hf
        have hgt := decodeElement_lt .big (carriedWords d) plist.type (xdr + 1)
        have hidEq : xdrDecodeUint32 h (bufferWords h m xdr) =
            xdrDecodeUint32 .big (carriedWords d xdr) := by
          rw [← findProperty_id hfind, ← findProperty_id hf]
        rw [decodeProperties_next hlt hfind, decodeProperties_next hlt hf,
          hm.decodeElement (show 8 ≤ xdr + 1 by omega) he,
          ih _ (by omega) (by omega) hnext rfl, hidEq]
    · rw [decodeProperties_end (by omega), decodeProperties_end (by omega)]

/-- What `processPosMsg` makes of a settled datagram. -/
theorem Holds.processPosMsg_eq (hm : Holds h m d) (hs : posSettled d = true) :
    processPosMsg h m =
      if ¬ Carries d padWord then (0, [])
      else if carriedWords d padWord = 0#32 then
        Fgmp.decodeProperties .big (carriedWords d) d.length propertiesWord
      else if Fgmp.verifyProperties .big (carriedWords d) d.length padWord then
        Fgmp.decodeProperties .big (carriedWords d) d.length padWord
      else if Fgmp.verifyProperties .big (carriedWords d) d.length propertiesWord then
        Fgmp.decodeProperties .big (carriedWords d) d.length propertiesWord
      else (0, []) := by
  have hpad : 8 ≤ padWord := by decide
  have hprops : 8 ≤ propertiesWord := by decide
  unfold posSettled at hs
  unfold Fgmp.processPosMsg
  dsimp only at hs ⊢
  rw [hm.msgLen]
  by_cases hc : Carries d padWord
  · have hlt : ¬ d.length ≤ offPad := by
      unfold Carries at hc
      simp only [padWord, offPad, sizeofMsgHdr] at hc ⊢
      omega
    have hzero : bufferWords h m padWord = 0#32 ↔ carriedWords d padWord = 0#32 := by
      rw [← hm.word hpad hc, swap32_eq_zero]
    simp only [hc, not_true_eq_false, if_false]
    rw [if_neg hlt, if_neg (not_not_intro hc)] at hs
    by_cases hz : carriedWords d padWord = 0#32
    · rw [if_pos hz] at hs
      rw [if_pos hz, if_neg (not_not_intro (hzero.mpr hz)), hm.decodeProperties hprops hs]
    · rw [if_neg hz, Bool.and_eq_true] at hs
      obtain ⟨hv, hrest⟩ := hs
      rw [if_neg hz, if_pos (fun hb => hz (hzero.mp hb)), hm.verifyProperties hpad hv]
      by_cases hp : Fgmp.verifyProperties .big (carriedWords d) d.length padWord = true
      · rw [if_pos hp] at hrest
        rw [if_pos hp, if_pos hp, hm.decodeProperties hpad hrest]
      · rw [if_neg hp, Bool.and_eq_true] at hrest
        rw [if_neg hp, if_neg hp, hm.verifyProperties hprops hrest.1]
        cases hq : Fgmp.verifyProperties .big (carriedWords d) d.length propertiesWord with
        | false => rfl
        | true =>
          have hd := hrest.2
          rw [hq, Bool.not_true, Bool.false_or] at hd
          exact hm.decodeProperties hprops hd
  · have hend : d.length ≤ 4 * propertiesWord := by
      unfold Carries at hc
      simp only [padWord, offPad, propertiesWord, offProperties, sizeofMsgHdr,
        sizeofPositionMsg] at hc ⊢
      omega
    rw [if_pos hc, decodeProperties_end hend, verifyProperties_end hend]
    by_cases hlt : d.length ≤ offPad
    · have hend' : d.length ≤ 4 * padWord := hlt
      rw [decodeProperties_end hend']
      simp only [Bool.not_true, Bool.false_eq_true, ite_self]
    · rw [if_neg hlt, if_pos hc] at hs
      have hlt' : 4 * padWord < d.length := Nat.lt_of_not_le hlt
      have hunknown := hm.findProperty_cut hpad hlt' hc (of_decide_eq_true hs)
      rw [verifyProperties_unknown hlt' hunknown]
      simp only [Bool.not_true, Bool.false_eq_true, if_false, ite_self]

end Held

end TcpTests.Mpserver
