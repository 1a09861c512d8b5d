import TcpTests.Fgmp.Lockstep
import TcpTests.Mpserver.Server

/-! The words of the message buffer that `_verifyProperties` and the property loop of
`ProcessPosMsg` read. Only the start of an element is compared with the end of the
message, so the value of the last element can lie outside the buffer. -/
namespace TcpTests.Mpserver
open Lib Fgmp

def verifyElementReads (type : FGMPType) (xdr : ℕ) : List ℕ :=
  match type with
  | .float | .double | .string | .unspecified => [xdr]
  | _ => []

/-- The words of a value that decoding reads: every character of a text has a word of its own. -/
def decodeElementReads (h : Endian) (data : ℕ → Word) (type : FGMPType) (xdr : ℕ) : List ℕ :=
  match type with
  | .string | .unspecified =>
    xdr :: (List.range (textLength (xdrDecodeUint32 h (data xdr)))).map (xdr + 1 + ·)
  | _ => [xdr]

/-- The words read in one round of a loop over the elements, with `reads` for the value. -/
def roundReads (h : Endian) (data : ℕ → Word) (stop : ℕ) (reads : FGMPType → ℕ → List ℕ)
    (xdr : ℕ) : List ℕ :=
  if 4 * xdr < stop then
    xdr ::
      match findProperty (xdrDecodeUint32 h (data xdr)) with
      | some plist => reads plist.type (xdr + 1)
      | none => []
  else []

/-- `_verifyProperties` reads the word `w` when run from `xdr`. -/
def VerifyReads (h : Endian) (data : ℕ → Word) (stop xdr w : ℕ) : Prop :=
  ∃ a, Visits (verifyBody h data stop) xdr a ∧ w ∈ roundReads h data stop verifyElementReads a

/-- The property loop reads the word `w` when run from `xdr`. -/
def DecodeReads (h : Endian) (data : ℕ → Word) (stop xdr w : ℕ) : Prop :=
  ∃ s, Visits (decodeBody h data stop) (xdr, []) s ∧
    w ∈ roundReads h data stop (decodeElementReads h data) s.1

/-- The words `ProcessPosMsg` reads from the list, by the same tests as `processPosMsg`. -/
def ProcessReads (h : Endian) (m : Mem) (w : ℕ) : Prop :=
  let data := bufferWords h m
  let xdrend := (loadWord h m offMsgLen).toNat
  if data padWord ≠ 0#32 then
    VerifyReads h data xdrend padWord w ∨
      if verifyProperties h data xdrend padWord then DecodeReads h data xdrend padWord w
      else
        VerifyReads h data xdrend propertiesWord w ∨
          verifyProperties h data xdrend propertiesWord ∧
            DecodeReads h data xdrend propertiesWord w
  else DecodeReads h data xdrend propertiesWord w

/-! The elements of a list as they lie in the message. -/

def elementEnd (h : Endian) (data : ℕ → Word) (type : FGMPType) (xdr : ℕ) : ℕ :=
  match type with
  | .string | .unspecified =>
    let length := textLength (xdrDecodeUint32 h (data (xdr + 1)))
    xdr + 2 + length + alignSteps 4 length
  | _ => xdr + 2

def NotNan (h : Endian) (data : ℕ → Word) (type : FGMPType) (xdr : ℕ) : Prop :=
  type = .float → isNan (xdrDecodeFloat h (data (xdr + 1))) = false

/-- An element, or the end of the list, lies at a place that is reached from `start` over
elements with identifiers in the table and values that `ok` allows. -/
inductive ElementAt (h : Endian) (data : ℕ → Word) (stop : ℕ) (ok : FGMPType → ℕ → Prop)
    (start : ℕ) : ℕ → Prop
  | start : ElementAt h data stop ok start start
  | next {xdr : ℕ} {plist : IdPropertyList} (hat : ElementAt h data stop ok start xdr)
      (hs : 4 * xdr < stop) (hid : findProperty (xdrDecodeUint32 h (data xdr)) = some plist)
      (hok : ok plist.type xdr) :
      ElementAt h data stop ok start (elementEnd h data plist.type xdr)

@[simp] def lastWord : ℕ := maxPacketSize / 4 - 1

/-- No value that verification reads begins after the last word. -/
def VerifyFits (h : Endian) (data : ℕ → Word) (stop start : ℕ) : Prop :=
  ∀ plist, ElementAt h data stop (NotNan h data) start lastWord → 4 * lastWord < stop →
    findProperty (xdrDecodeUint32 h (data lastWord)) = some plist →
    plist.type ≠ .float ∧ plist.type ≠ .string

/-- Each value begins in the buffer, and each text ends in it. -/
def DecodeFits (h : Endian) (data : ℕ → Word) (stop start : ℕ) : Prop :=
  ∀ xdr plist, ElementAt h data stop (fun _ _ => True) start xdr → 4 * xdr < stop →
    findProperty (xdrDecodeUint32 h (data xdr)) = some plist →
    xdr < lastWord ∧
      (plist.type = .string →
        xdr + 1 + textLength (xdrDecodeUint32 h (data (xdr + 1))) ≤ lastWord)

/-- Every element has an identifier of the table and no NaN. -/
def Acceptable (h : Endian) (data : ℕ → Word) (stop start : ℕ) : Prop :=
  ∀ xdr, ElementAt h data stop (NotNan h data) start xdr → 4 * xdr < stop →
    ∃ plist, findProperty (xdrDecodeUint32 h (data xdr)) = some plist ∧
      NotNan h data plist.type xdr

/-- The lists that are walked have values inside the buffer. -/
def ReadsFit (h : Endian) (m : Mem) : Prop :=
  let data := bufferWords h m
  let stop := (loadWord h m offMsgLen).toNat
  (data padWord = 0#32 → DecodeFits h data stop propertiesWord) ∧
    (data padWord ≠ 0#32 → VerifyFits h data stop padWord ∧
      (Acceptable h data stop padWord → DecodeFits h data stop padWord) ∧
      (¬ Acceptable h data stop padWord → VerifyFits h data stop propertiesWord ∧
        (Acceptable h data stop propertiesWord → DecodeFits h data stop propertiesWord)))

section
variable {h : Endian} {data : ℕ → Word} {stop xdr start : ℕ} {plist : IdPropertyList}

theorem decodeElement_end (type : FGMPType) :
    (decodeElement h data type (xdr + 1)).2 = elementEnd h data type xdr := by
  cases type <;> rfl

theorem decodeElement_notNan (hid : findProperty (xdrDecodeUint32 h (data xdr)) = some plist) :
    NotNan h data plist.type xdr ↔
      ¬ (decodeElement h data plist.type (xdr + 1)).1.isNan = true := by
  rw [Bool.not_eq_true]
  rcases findProperty_type hid with ht | ht | ht | ht
  all_goals rw [ht]
  all_goals simp [NotNan, decodeElement, PropertyValue.isNan]

theorem verifyBody_inl {next : ℕ} : verifyBody h data stop xdr = .inl next ↔
    4 * xdr < stop ∧ ∃ plist, findProperty (xdrDecodeUint32 h (data xdr)) = some plist ∧
      NotNan h data plist.type xdr ∧ elementEnd h data plist.type xdr = next := by
  by_cases hs : 4 * xdr < stop
  · cases hid : findProperty (xdrDecodeUint32 h (data xdr)) with
    | none =>
      rw [verifyBody_unknown hs hid]
      simp
    | some plist =>
      by_cases hn : (decodeElement h data plist.type (xdr + 1)).1.isNan = true
      · rw [verifyBody_nan hs hid hn]
        simp [decodeElement_notNan hid, hn]
      · rw [verifyBody_next hs hid hn, decodeElement_end]
        simp [decodeElement_notNan hid, hn, hs]
  · rw [verifyBody_end (Nat.not_lt.mp hs)]
    simp [hs]

theorem verifyBody_inr_true : verifyBody h data stop xdr = .inr true ↔ stop ≤ 4 * xdr := by
  by_cases hs : 4 * xdr < stop
  · have hne : verifyBody h data stop xdr ≠ .inr true := by
      cases hid : findProperty (xdrDecodeUint32 h (data xdr)) with
      | none =>
        rw [verifyBody_unknown hs hid]
        simp
      | some plist =>
        by_cases hn : (decodeElement h data plist.type (xdr + 1)).1.isNan = true
        · rw [verifyBody_nan hs hid hn]
          simp
        · rw [verifyBody_next hs hid hn]
          simp
    simp [hne, hs]
  · rw [verifyBody_end (Nat.not_lt.mp hs)]
    simp [Nat.not_lt.mp hs]

theorem visits_verifyBody :
    Visits (verifyBody h data stop) start xdr ↔
      ElementAt h data stop (NotNan h data) start xdr := by
  constructor
  · intro hv
    apply hv.invariant (ElementAt h data stop (NotNan h data) start)
    · intro a b ha hb
      obtain ⟨hs, plist, hid, hok, rfl⟩ := verifyBody_inl.mp hb
      exact ha.next hs hid hok
    · exact .start
  · intro hat
    induction hat with
    | start => exact .refl _ _
    | next _ hs hid hok ih => exact ih.tail (verifyBody_inl.mpr ⟨hs, _, hid, hok, rfl⟩)

theorem visits_decodeBody :
    (∃ ps, Visits (decodeBody h data stop) (start, []) (xdr, ps)) ↔
      ElementAt h data stop (fun _ _ => True) start xdr := by
  constructor
  · rintro ⟨ps, hv⟩
    apply hv.invariant fun s => ElementAt h data stop (fun _ _ => True) start s.1
    · rintro ⟨a, qs⟩ b ha hb
      by_cases hs : 4 * a < stop
      · cases hid : findProperty (xdrDecodeUint32 h (data a)) with
        | none =>
          rw [decodeBody_unknown hs hid] at hb
          cases hb
        | some plist =>
          rw [decodeBody_next hs hid, decodeElement_end] at hb
          cases hb
          exact ha.next hs hid trivial
      · rw [decodeBody_end (Nat.not_lt.mp hs)] at hb
        cases hb
    · exact .start
  · intro hat
    induction hat with
    | start => exact ⟨[], .refl _ _⟩
    | @next xdr plist _ hs hid _ ih =>
      obtain ⟨ps, hv⟩ := ih
      rw [← decodeElement_end]
      exact ⟨_, hv.tail (decodeBody_next hs hid)⟩

theorem verifyProperties_acceptable :
    verifyProperties h data stop start = true ↔ Acceptable h data stop start := by
  constructor
  · intro hv xdr hat hs
    have hvis := visits_verifyBody.mpr hat
    cases hb : verifyBody h data stop xdr with
    | inl next =>
      obtain ⟨-, plist, hid, hok, -⟩ := verifyBody_inl.mp hb
      exact ⟨plist, hid, hok⟩
    | inr b =>
      have hr : Returns (verifyBody h data stop) start b := hvis.returns hb
      have htrue : b = true := (hr.unique verifyProperties_returns).trans hv
      rw [htrue, verifyBody_inr_true] at hb
      exact absurd hs (Nat.not_lt.mpr hb)
  · intro hacc
    obtain ⟨n, xdr, hn, hb⟩ : Returns (verifyBody h data stop) start _ :=
      verifyProperties_returns
    have hat := visits_verifyBody.mp ⟨n, hn⟩
    by_cases hs : 4 * xdr < stop
    · obtain ⟨plist, hid, hok⟩ := hacc xdr hat hs
      rw [verifyBody_inl.mpr ⟨hs, plist, hid, hok, rfl⟩] at hb
      cases hb
    · rw [verifyBody_end (Nat.not_lt.mp hs)] at hb
      exact (Sum.inr.inj hb).symm

theorem mem_roundReads {reads : FGMPType → ℕ → List ℕ} {w : ℕ} :
    w ∈ roundReads h data stop reads xdr ↔ 4 * xdr < stop ∧
      (w = xdr ∨ ∃ plist, findProperty (xdrDecodeUint32 h (data xdr)) = some plist ∧
        w ∈ reads plist.type (xdr + 1)) := by
  unfold roundReads
  by_cases hs : 4 * xdr < stop
  · rw [if_pos hs]
    cases hid : findProperty (xdrDecodeUint32 h (data xdr)) with
    | none => simp [hs]
    | some plist => simp [hs]
  · rw [if_neg hs]
    simp [hs]

theorem mem_verifyElementReads {id : Word} {w : ℕ} (hid : findProperty id = some plist) :
    w ∈ verifyElementReads plist.type xdr ↔
      w = xdr ∧ (plist.type = .float ∨ plist.type = .string) := by
  rcases findProperty_type hid with ht | ht | ht | ht
  all_goals rw [ht]
  all_goals simp [verifyElementReads]

theorem mem_decodeElementReads {id : Word} {w : ℕ} (hid : findProperty id = some plist) :
    w ∈ decodeElementReads h data plist.type xdr ↔
      w = xdr ∨ plist.type = .string ∧ xdr < w ∧
        w ≤ xdr + textLength (xdrDecodeUint32 h (data xdr)) := by
  rcases findProperty_type hid with ht | ht | ht | ht
  · rw [ht]
    simp [decodeElementReads]
  · rw [ht]
    simp [decodeElementReads]
  · rw [ht]
    simp [decodeElementReads]
  · rw [ht]
    simp only [decodeElementReads, List.mem_cons, List.mem_map, List.mem_range, true_and]
    apply or_congr_right
    constructor
    · rintro ⟨i, hi, rfl⟩
      omega
    · rintro ⟨hlo, hhi⟩
      exact ⟨w - xdr - 1, by omega, by omega⟩

/-- Verification of a message that fits reads inside the buffer exactly if its values begin
there. -/
theorem verifyReads_inside (hstop : stop ≤ maxPacketSize) :
    (∀ w, VerifyReads h data stop start w → 4 * w + 4 ≤ maxPacketSize) ↔
      VerifyFits h data stop start := by
  simp only [maxPacketSize] at hstop ⊢
  constructor
  · intro hin plist hat hs hid
    rw [← not_or]
    intro ht
    have hw : lastWord + 1 ∈ roundReads h data stop verifyElementReads lastWord :=
      mem_roundReads.mpr ⟨hs, Or.inr ⟨plist, hid, (mem_verifyElementReads hid).mpr ⟨rfl, ht⟩⟩⟩
    have hlt := hin (lastWord + 1) ⟨lastWord, visits_verifyBody.mpr hat, hw⟩
    simp only [lastWord, maxPacketSize] at hlt
    omega
  · rintro hfit w ⟨xdr, hv, hw⟩
    have hat := visits_verifyBody.mp hv
    obtain ⟨hs, rfl | ⟨plist, hid, hr⟩⟩ := mem_roundReads.mp hw
    · omega
    · obtain ⟨rfl, ht⟩ := (mem_verifyElementReads hid).mp hr
      by_cases hlast : xdr = lastWord
      · subst hlast
        obtain ⟨hf, hstr⟩ := hfit plist hat hs hid
        rcases ht with ht | ht
        · exact absurd ht hf
        · exact absurd ht hstr
      · simp only [lastWord, maxPacketSize] at hlast
        omega

theorem decodeReads_inside (hstop : stop ≤ maxPacketSize) :
    (∀ w, DecodeReads h data stop start w → 4 * w + 4 ≤ maxPacketSize) ↔
      DecodeFits h data stop start := by
  simp only [maxPacketSize] at hstop ⊢
  constructor
  · intro hin xdr plist hat hs hid
    obtain ⟨ps, hv⟩ := visits_decodeBody.mpr hat
    have hread : ∀ w ∈ decodeElementReads h data plist.type (xdr + 1), 4 * w + 4 ≤ 1200 := by
      intro w hw
      exact hin w ⟨(xdr, ps), hv, mem_roundReads.mpr ⟨hs, Or.inr ⟨plist, hid, hw⟩⟩⟩
    have hfirst := hread (xdr + 1) ((mem_decodeElementReads hid).mpr (Or.inl rfl))
    simp only [lastWord, maxPacketSize]
    refine ⟨by omega, ?_⟩
    intro ht
    by_cases hz : textLength (xdrDecodeUint32 h (data (xdr + 1))) = 0
    · omega
    · have hlast := hread (xdr + 1 + textLength (xdrDecodeUint32 h (data (xdr + 1))))
        ((mem_decodeElementReads hid).mpr (Or.inr ⟨ht, by omega, le_rfl⟩))
      omega
  · rintro hfit w ⟨⟨xdr, ps⟩, hv, hw⟩
    have hat := visits_decodeBody.mp ⟨ps, hv⟩
    obtain ⟨hs, rfl | ⟨plist, hid, hr⟩⟩ := mem_roundReads.mp hw
    · dsimp only at hs ⊢
      omega
    · obtain ⟨hlt, htext⟩ := hfit xdr plist hat hs hid
      simp only [lastWord, maxPacketSize] at hlt htext
      rcases (mem_decodeElementReads hid).mp hr with rfl | ⟨ht, -, hhi⟩
      · omega
      · have htext' := htext ht
        dsimp only at hhi
        omega

end

section
variable {h : Endian} {data data' : ℕ → Word} {stop xdr start : ℕ}

theorem verifyBody_congr
    (hr : ∀ w ∈ roundReads h data stop verifyElementReads xdr, data' w = data w) :
    verifyBody h data' stop xdr = verifyBody h data stop xdr := by
  by_cases hs : 4 * xdr < stop
  · have hid := hr xdr (mem_roundReads.mpr ⟨hs, Or.inl rfl⟩)
    unfold verifyBody
    rw [if_pos hs, if_pos hs, hid]
    cases hp : findProperty (xdrDecodeUint32 h (data xdr)) with
    | none => rfl
    | some plist =>
      have hv : verifyElement h data' plist.type (xdr + 1) =
          verifyElement h data plist.type (xdr + 1) := by
        have hval : plist.type = .float ∨ plist.type = .string → data' (xdr + 1) = data (xdr + 1) :=
          fun ht => hr _ (mem_roundReads.mpr
            ⟨hs, Or.inr ⟨plist, hp, (mem_verifyElementReads hp).mpr ⟨rfl, ht⟩⟩⟩)
        rcases findProperty_type hp with ht | ht | ht | ht
        · rw [ht]
          rfl
        · rw [ht]
          rfl
        · rw [ht, verifyElement, verifyElement, hval (Or.inl ht)]
        · rw [ht, verifyElement, verifyElement, hval (Or.inr ht)]
      dsimp only
      rw [hv]
  · rw [verifyBody_end (Nat.not_lt.mp hs), verifyBody_end (Nat.not_lt.mp hs)]

theorem decodeBody_congr {ps : List FGPropertyData}
    (hr : ∀ w ∈ roundReads h data stop (decodeElementReads h data) xdr, data' w = data w) :
    decodeBody h data' stop (xdr, ps) = decodeBody h data stop (xdr, ps) := by
  by_cases hs : 4 * xdr < stop
  · have hid := hr xdr (mem_roundReads.mpr ⟨hs, Or.inl rfl⟩)
    cases hp : findProperty (xdrDecodeUint32 h (data xdr)) with
    | none => rw [decodeBody_unknown hs (by rw [hid, hp]), decodeBody_unknown hs hp]
    | some plist =>
      have hread : ∀ w ∈ decodeElementReads h data plist.type (xdr + 1), data' w = data w :=
        fun w hw => hr w (mem_roundReads.mpr ⟨hs, Or.inr ⟨plist, hp, hw⟩⟩)
      have hval := hread (xdr + 1) ((mem_decodeElementReads hp).mpr (Or.inl rfl))
      have he : decodeElement h data' plist.type (xdr + 1) =
          decodeElement h data plist.type (xdr + 1) := by
        rcases findProperty_type hp with ht | ht | ht | ht
        · rw [ht, decodeElement, decodeElement, hval]
        · rw [ht, decodeElement, decodeElement, hval]
        · rw [ht, decodeElement, decodeElement, hval]
        · rw [ht]
          simp only [decodeElement, hval]
          congr 2
          apply List.map_congr_left
          intro i hi
          have hlt := List.mem_range.mp hi
          rw [hread (xdr + 1 + 1 + i) ((mem_decodeElementReads hp).mpr
            (Or.inr ⟨ht, by omega, by omega⟩))]
      rw [decodeBody_next hs (by rw [hid, hp]), decodeBody_next hs hp, hid, he]
  · rw [decodeBody_end (Nat.not_lt.mp hs), decodeBody_end (Nat.not_lt.mp hs)]

theorem verifyProperties_congr (hr : ∀ w, VerifyReads h data stop start w → data' w = data w) :
    verifyProperties h data' stop start = verifyProperties h data stop start := by
  have hret : Returns (verifyBody h data' stop) start (verifyProperties h data stop start) :=
    verifyProperties_returns.congr fun a ha => verifyBody_congr fun w hw => hr w ⟨a, ha, hw⟩
  exact verifyProperties_returns.unique hret

theorem decodeProperties_congr (hr : ∀ w, DecodeReads h data stop start w → data' w = data w) :
    decodeProperties h data' stop start = decodeProperties h data stop start := by
  have hret : Returns (decodeBody h data' stop) (start, []) (decodeProperties h data stop start) :=
    (decodeProperties_returns []).congr fun s hs =>
      decodeBody_congr fun w hw => hr w ⟨s, hs, hw⟩
  exact (decodeProperties_returns []).unique hret

end

/-- Every word read from the property list of a message lies in the buffer exactly if the values
of the lists walked do. -/
theorem processReads_inside (h : Endian) (m : Mem)
    (hlen : (loadWord h m offMsgLen).toNat ≤ maxPacketSize) :
    (∀ w, ProcessReads h m w → 4 * w + 4 ≤ maxPacketSize) ↔ ReadsFit h m := by
  unfold ProcessReads ReadsFit
  dsimp only
  rw [← verifyProperties_acceptable, ← verifyProperties_acceptable, ← verifyReads_inside hlen,
    ← verifyReads_inside hlen, ← decodeReads_inside hlen, ← decodeReads_inside hlen]
  by_cases hpad : bufferWords h m padWord = 0#32
  · simp only [hpad, ne_eq, not_true_eq_false, if_false, true_imp_iff, false_imp_iff, and_true]
  · cases hv : verifyProperties h (bufferWords h m) (loadWord h m offMsgLen).toNat padWord with
    | true =>
      simp only [hpad, ne_eq, not_false_iff, if_true, or_imp, forall_and, true_imp_iff,
        false_imp_iff, not_true_eq_false, and_true, true_and]
    | false =>
      cases hw : verifyProperties h (bufferWords h m) (loadWord h m offMsgLen).toNat
          propertiesWord with
      | true =>
        simp only [hpad, ne_eq, not_false_iff, if_true, Bool.false_eq_true, if_false, or_imp,
          forall_and, true_imp_iff, false_imp_iff, true_and]
      | false =>
        simp only [hpad, ne_eq, not_false_iff, if_true, Bool.false_eq_true, if_false, or_imp,
          forall_and, true_imp_iff, false_imp_iff, true_and, false_and, and_true, or_false]

/-- A message as received in which the second of two texts runs past the buffer. -/
def longTexts : Mem :=
  let text := wordBytes .big 108#32 ++ wordBytes .big 128#32
  ((Mem.write (fun _ => 0) 0 (headerWire posDataId 1200#32)).write offProperties text).write
    (offProperties + 4 * 130) text

theorem processReads_inside_sample :
    (∀ w, ProcessReads .little (treatMsg .little longTexts 1200).1 w → 4 * w + 4 ≤ maxPacketSize) ↔
      ReadsFit .little (treatMsg .little longTexts 1200).1 :=
  processReads_inside .little (treatMsg .little longTexts 1200).1 (by decide)

theorem processReads_outside :
    (treatMsg .little longTexts 1200).2.Passes ∧
      (loadWord .little (treatMsg .little longTexts 1200).1 offMsgLen).toNat ≤ maxPacketSize ∧
      ¬ ∀ w, ProcessReads .little (treatMsg .little longTexts 1200).1 w →
        4 * w + 4 ≤ maxPacketSize := by
  have hpasses : (treatMsg .little longTexts 1200).2.Passes :=
    treatMsg_passes.mpr ⟨Or.inl (by decide), by decide, by decide⟩
  have hlen : (loadWord .little (treatMsg .little longTexts 1200).1 offMsgLen).toNat = 1200 := by
    decide
  refine ⟨hpasses, hlen.le, ?_⟩
  intro hin
  have hpad : bufferWords .little (treatMsg .little longTexts 1200).1 padWord = 0#32 := by decide
  have hid : findProperty (xdrDecodeUint32 .little
      (bufferWords .little (treatMsg .little longTexts 1200).1 propertiesWord)) =
        some ⟨108, .string⟩ := by decide
  have hid' : findProperty (xdrDecodeUint32 .little
      (bufferWords .little (treatMsg .little longTexts 1200).1 188)) =
        some ⟨108, .string⟩ := by decide
  have htext : textLength (xdrDecodeUint32 .little
      (bufferWords .little (treatMsg .little longTexts 1200).1 (propertiesWord + 1))) = 128 := by
    decide
  have htext' : textLength (xdrDecodeUint32 .little
      (bufferWords .little (treatMsg .little longTexts 1200).1 (188 + 1))) = 128 := by
    decide
  unfold ProcessReads at hin
  dsimp only at hin
  rw [hlen] at hin
  generalize bufferWords .little (treatMsg .little longTexts 1200).1 = data at *
  have hend : elementEnd .little data .string propertiesWord = 188 := by
    simp only [elementEnd, htext]
    rw [alignSteps_of_dvd (by rfl)]
    rfl
  have hat : ElementAt .little data 1200 (fun _ _ => True) propertiesWord 188 := by
    rw [← hend]
    exact ElementAt.start.next (by decide) hid trivial
  obtain ⟨ps, hv⟩ := visits_decodeBody.mpr hat
  have hval : 300 ∈ decodeElementReads .little data .string (188 + 1) :=
    (mem_decodeElementReads hid').mpr (Or.inr ⟨rfl, by decide, by rw [htext']; decide⟩)
  have hread : DecodeReads .little data 1200 propertiesWord 300 :=
    ⟨(188, ps), hv, mem_roundReads.mpr ⟨by omega, Or.inr ⟨_, hid', hval⟩⟩⟩
  have hlt := hin 300
  rw [if_neg (not_not.mpr hpad)] at hlt
  exact absurd (hlt hread) (by decide)

section
variable (h : Endian) (m : Mem)

/-- The result depends on nothing but the message length, the pad word and the words read. -/
theorem processPosMsg_congr {m' : Mem}
    (hlen : loadWord h m' offMsgLen = loadWord h m offMsgLen)
    (hpad : bufferWords h m' padWord = bufferWords h m padWord)
    (hr : ∀ w, ProcessReads h m w → bufferWords h m' w = bufferWords h m w) :
    processPosMsg h m' = processPosMsg h m := by
  unfold ProcessReads at hr
  unfold processPosMsg
  dsimp only at hr ⊢
  rw [hlen, hpad]
  by_cases hz : bufferWords h m padWord = 0#32
  · simp only [hz, ne_eq, not_true_eq_false, if_false] at hr ⊢
    exact decodeProperties_congr hr
  · simp only [hz, ne_eq, not_false_iff, if_true] at hr ⊢
    rw [verifyProperties_congr fun w hw => hr w (Or.inl hw)]
    cases hv : verifyProperties h (bufferWords h m) (loadWord h m offMsgLen).toNat padWord with
    | true =>
      simp only [hv, if_true] at hr ⊢
      exact decodeProperties_congr fun w hw => hr w (Or.inr hw)
    | false =>
      simp only [hv, Bool.false_eq_true, if_false] at hr ⊢
      rw [verifyProperties_congr fun w hw => hr w (Or.inr (Or.inl hw))]
      cases hw : verifyProperties h (bufferWords h m) (loadWord h m offMsgLen).toNat
          propertiesWord with
      | true =>
        simp only [hw, Bool.not_true, Bool.false_eq_true, if_false] at hr ⊢
        exact decodeProperties_congr fun w hw' => hr w (Or.inr (Or.inr ⟨trivial, hw'⟩))
      | false => simp only [Bool.not_false, if_true]

theorem processPosMsg_buffer {m' : Mem} (hm : ∀ a < maxPacketSize, m' a = m a)
    (hin : ∀ w, ProcessReads h m w → 4 * w + 4 ≤ maxPacketSize) :
    processPosMsg h m' = processPosMsg h m := by
  have hload : ∀ a, a + 4 ≤ maxPacketSize → loadWord h m' a = loadWord h m a := by
    intro a ha
    apply loadWord_congr
    intro i hi
    exact hm (a + i) (by omega)
  apply processPosMsg_congr
  · exact hload offMsgLen (by decide)
  · exact hload (4 * padWord) (by decide)
  · intro w hw
    exact hload (4 * w) (hin w hw)

end

end TcpTests.Mpserver
