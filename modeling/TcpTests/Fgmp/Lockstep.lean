import TcpTests.Fgmp.Properties
import TcpTests.Lib.Loop

/-! Verification and decoding walk through a property list in step: the rounds of
the two loops, and what the verdict says about the decoding. -/
namespace TcpTests.Fgmp
open Lib

def PropertyValue.isNan : PropertyValue → Bool
  | .float value => Fgmp.isNan value
  | _ => false

def verifyBody (h : Endian) (data : ℕ → Word) (stop xdr : ℕ) : ℕ ⊕ Bool :=
  if 4 * xdr < stop then
    match findProperty (xdrDecodeUint32 h (data xdr)) with
    | some plist =>
      match verifyElement h data plist.type (xdr + 1) with
      | some next => .inl next
      | none => .inr false
    | none => .inr false
  else .inr true

def decodeBody (h : Endian) (data : ℕ → Word) (stop : ℕ) :
    ℕ × List FGPropertyData → (ℕ × List FGPropertyData) ⊕ (ℕ × List FGPropertyData)
  | (xdr, properties) =>
    if 4 * xdr < stop then
      let id := xdrDecodeUint32 h (data xdr)
      match findProperty id with
      | some plist =>
        let e := decodeElement h data plist.type (xdr + 1)
        .inl (e.2, properties ++ [⟨id, plist.type, e.1⟩])
      | none => .inr (1, properties)
    else .inr (0, properties)

theorem findProperty_type {id : Word} {plist : IdPropertyList} (hid : findProperty id = some plist) :
    plist.type = .bool ∨ plist.type = .int ∨ plist.type = .float ∨ plist.type = .string := by
  have hall : ∀ p ∈ sIdPropertyList,
      p.type = .bool ∨ p.type = .int ∨ p.type = .float ∨ p.type = .string := by
    decide +kernel
  exact hall plist (findProperty_mem hid)

section
variable {h : Endian} {data : ℕ → Word} {stop xdr : ℕ} {ps : List FGPropertyData}

/-- Verification passes an element unless it decodes to a NaN, and to the place where
decoding stops. -/
theorem verifyElement_eq {id : Word} {plist : IdPropertyList}
    (hid : findProperty id = some plist) :
    verifyElement h data plist.type xdr =
      if (decodeElement h data plist.type xdr).1.isNan then none
      else some (decodeElement h data plist.type xdr).2 := by
  rcases findProperty_type hid with ht | ht | ht | ht
  all_goals rw [ht]
  all_goals rfl

theorem verifyBody_end (hs : stop ≤ 4 * xdr) : verifyBody h data stop xdr = .inr true := by
  rw [verifyBody, if_neg (Nat.not_lt.mpr hs)]

theorem decodeBody_end (hs : stop ≤ 4 * xdr) :
    decodeBody h data stop (xdr, ps) = .inr (0, ps) := by
  rw [decodeBody, if_neg (Nat.not_lt.mpr hs)]

theorem verifyBody_unknown (hs : 4 * xdr < stop)
    (hid : findProperty (xdrDecodeUint32 h (data xdr)) = none) :
    verifyBody h data stop xdr = .inr false := by
  simp only [verifyBody, if_pos hs, hid]

theorem decodeBody_unknown (hs : 4 * xdr < stop)
    (hid : findProperty (xdrDecodeUint32 h (data xdr)) = none) :
    decodeBody h data stop (xdr, ps) = .inr (1, ps) := by
  simp only [decodeBody, if_pos hs, hid]

theorem decodeBody_next {plist : IdPropertyList} (hs : 4 * xdr < stop)
    (hid : findProperty (xdrDecodeUint32 h (data xdr)) = some plist) :
    decodeBody h data stop (xdr, ps) =
      .inl ((decodeElement h data plist.type (xdr + 1)).2,
        ps ++ [⟨xdrDecodeUint32 h (data xdr), plist.type,
          (decodeElement h data plist.type (xdr + 1)).1⟩]) := by
  simp only [decodeBody, if_pos hs, hid]

theorem verifyBody_nan {plist : IdPropertyList} (hs : 4 * xdr < stop)
    (hid : findProperty (xdrDecodeUint32 h (data xdr)) = some plist)
    (hn : (decodeElement h data plist.type (xdr + 1)).1.isNan = true) :
    verifyBody h data stop xdr = .inr false := by
  simp only [verifyBody, if_pos hs, hid, verifyElement_eq hid, if_pos hn]

theorem verifyBody_next {plist : IdPropertyList} (hs : 4 * xdr < stop)
    (hid : findProperty (xdrDecodeUint32 h (data xdr)) = some plist)
    (hn : ¬ (decodeElement h data plist.type (xdr + 1)).1.isNan = true) :
    verifyBody h data stop xdr = .inl (decodeElement h data plist.type (xdr + 1)).2 := by
  simp only [verifyBody, if_pos hs, hid, verifyElement_eq hid, if_neg hn]

theorem verifyProperties_returns :
    Returns (verifyBody h data stop) xdr (verifyProperties h data stop xdr) := by
  induction xdr using decodeProperties.induct h data stop with
  | case1 xdr hs id plist hid e ih =>
    by_cases hn : (decodeElement h data plist.type (xdr + 1)).1.isNan = true
    · have hv : verifyElement h data plist.type (xdr + 1) = none := by
        rw [verifyElement_eq hid, if_pos hn]
      rw [verifyProperties_stop hs hid hv]
      exact returns_of_left (verifyBody_nan hs hid hn)
    · have hv : verifyElement h data plist.type (xdr + 1) = some e.2 := by
        rw [verifyElement_eq hid, if_neg hn]
      rw [verifyProperties_next hs hid hv]
      exact ih.next (verifyBody_next hs hid hn)
  | case2 xdr hs id hid =>
    rw [verifyProperties_unknown hs hid]
    exact returns_of_left (verifyBody_unknown hs hid)
  | case3 xdr hs =>
    have hs' := Nat.not_lt.mp hs
    rw [verifyProperties_end hs']
    exact returns_of_left (verifyBody_end hs')

theorem decodeProperties_returns : ∀ ps, Returns (decodeBody h data stop) (xdr, ps)
    ((decodeProperties h data stop xdr).1, ps ++ (decodeProperties h data stop xdr).2) := by
  induction xdr using decodeProperties.induct h data stop with
  | case1 xdr hs id plist hid e ih =>
    intro ps
    rw [decodeProperties_next hs hid, List.append_cons]
    exact (ih _).next (decodeBody_next hs hid)
  | case2 xdr hs id hid =>
    intro ps
    rw [decodeProperties_unknown hs hid, List.append_nil]
    exact returns_of_left (decodeBody_unknown hs hid)
  | case3 xdr hs =>
    intro ps
    have hs' := Nat.not_lt.mp hs
    rw [decodeProperties_end hs', List.append_nil]
    exact returns_of_left (decodeBody_end hs')

/-- A list verifies when it decodes to the end without a NaN. -/
theorem verifyProperties_iff :
    verifyProperties h data stop xdr = true ↔
      (decodeProperties h data stop xdr).1 = 0 ∧
        ∀ p ∈ (decodeProperties h data stop xdr).2, p.value.isNan = false := by
  induction xdr using decodeProperties.induct h data stop with
  | case1 xdr hs id plist hid e ih =>
    rw [decodeProperties_next hs hid]
    by_cases hn : (decodeElement h data plist.type (xdr + 1)).1.isNan = true
    · have hv : verifyElement h data plist.type (xdr + 1) = none := by
        rw [verifyElement_eq hid, if_pos hn]
      rw [verifyProperties_stop hs hid hv]
      simp [hn]
    · have hv : verifyElement h data plist.type (xdr + 1) = some e.2 := by
        rw [verifyElement_eq hid, if_neg hn]
      rw [verifyProperties_next hs hid hv, ih]
      simp only [List.forall_mem_cons, Bool.eq_false_iff.mpr hn, true_and]
      rfl
  | case2 xdr hs id hid =>
    rw [verifyProperties_unknown hs hid, decodeProperties_unknown hs hid]
    simp
  | case3 xdr hs =>
    have hs' := Nat.not_lt.mp hs
    rw [verifyProperties_end hs', decodeProperties_end hs']
    simp

/-- The property loop leaves with zero where a round starts at or past the end. -/
theorem decodeBody_inr_zero {a : ℕ × List FGPropertyData} {qs : List FGPropertyData} :
    decodeBody h data stop a = .inr (0, qs) ↔ stop ≤ 4 * a.1 ∧ a.2 = qs := by
  obtain ⟨xdr, ps⟩ := a
  by_cases hs : 4 * xdr < stop
  · have hstop : ¬ stop ≤ 4 * xdr := Nat.not_le.mpr hs
    cases hid : findProperty (xdrDecodeUint32 h (data xdr)) with
    | none =>
      rw [decodeBody_unknown hs hid]
      simp [hstop]
    | some plist =>
      rw [decodeBody_next hs hid]
      simp [hstop]
  · rw [decodeBody_end (Nat.not_lt.mp hs)]
    simp [Nat.not_lt.mp hs]

theorem decodeBody_of_verifyBody {next : ℕ} (ps : List FGPropertyData)
    (hv : verifyBody h data stop xdr = .inl next) :
    ∃ ps', decodeBody h data stop (xdr, ps) = .inl (next, ps') := by
  by_cases hs : 4 * xdr < stop
  · cases hid : findProperty (xdrDecodeUint32 h (data xdr)) with
    | none =>
      rw [verifyBody_unknown hs hid] at hv
      cases hv
    | some plist =>
      by_cases hn : (decodeElement h data plist.type (xdr + 1)).1.isNan = true
      · rw [verifyBody_nan hs hid hn] at hv
        cases hv
      · rw [verifyBody_next hs hid hn] at hv
        cases hv
        exact ⟨_, decodeBody_next hs hid⟩
  · rw [verifyBody_end (Nat.not_lt.mp hs)] at hv
    cases hv

end

section
variable (h : Endian) (data : ℕ → Word) (stop xdr : ℕ)

/-- Round by round, verification starts where decoding does. -/
theorem roundStart_decodeBody {n a : ℕ}
    (hn : roundStart (verifyBody h data stop) n xdr = some a) :
    ∃ ps, roundStart (decodeBody h data stop) n (xdr, []) = some (a, ps) := by
  have hstep : ∀ (a b : ℕ) (s : ℕ × List FGPropertyData), s.1 = a →
      verifyBody h data stop a = .inl b → ∃ t, decodeBody h data stop s = .inl t ∧ t.1 = b := by
    intro a b s hs hb
    obtain ⟨c, ps⟩ := s
    cases hs
    obtain ⟨ps', hps⟩ := decodeBody_of_verifyBody ps hb
    exact ⟨(b, ps'), hps, rfl⟩
  have hsim : ∃ s, roundStart (decodeBody h data stop) n (xdr, []) = some s ∧ s.1 = a :=
    roundStart_simulates (fun a (s : ℕ × List FGPropertyData) => s.1 = a) hstep rfl hn
  obtain ⟨⟨b, ps⟩, hb, rfl⟩ := hsim
  exact ⟨ps, hb⟩

/-- `_verifyProperties` accepts exactly the lists the property loop reads to the end without
meeting a NaN, the two visit the same elements, and both come to an end. -/
theorem verify_decode_lockstep :
    (verifyProperties h data stop xdr = true ↔
      ∃ n s, roundStart (decodeBody h data stop) n (xdr, []) = some s ∧ stop ≤ 4 * s.1 ∧
        ∀ p ∈ s.2, p.value.isNan = false) ∧
    (∀ n a s, roundStart (verifyBody h data stop) n xdr = some a →
      roundStart (decodeBody h data stop) n (xdr, []) = some s → s.1 = a) ∧
    Returns (verifyBody h data stop) xdr (verifyProperties h data stop xdr) ∧
    Returns (decodeBody h data stop) (xdr, []) (decodeProperties h data stop xdr) := by
  have hdec : Returns (decodeBody h data stop) (xdr, []) (decodeProperties h data stop xdr) :=
    decodeProperties_returns []
  refine ⟨?_, ?_, verifyProperties_returns, hdec⟩
  · rw [verifyProperties_iff]
    constructor
    · rintro ⟨hz, hnan⟩
      obtain ⟨n, s, hn, hs⟩ := hdec
      rw [← Prod.mk.eta (p := decodeProperties h data stop xdr), hz] at hs
      obtain ⟨hstop, hps⟩ := decodeBody_inr_zero.mp hs
      refine ⟨n, s, hn, hstop, ?_⟩
      rwa [hps]
    · rintro ⟨n, s, hn, hstop, hnan⟩
      have hr : Returns (decodeBody h data stop) (xdr, []) (0, s.2) :=
        ⟨n, s, hn, decodeBody_inr_zero.mpr ⟨hstop, rfl⟩⟩
      rw [hdec.unique hr]
      exact ⟨rfl, hnan⟩
  · intro n a s ha hs
    obtain ⟨ps, hps⟩ := roundStart_decodeBody h data stop xdr ha
    cases hps.symm.trans hs
    rfl

end

end TcpTests.Fgmp
