import Mathlib.Data.Nat.Digits.Defs
import TcpTests.FgIo.Convert

/-! `convert_net_fdm` on what comes over the wire: any packet, and a record whose counts are in
range. -/
namespace TcpTests.FgIo
open Lib Net

section
variable {h : Endian} {net pbuf1 : ℕ} {m : Mem} {packet : List Byte}

theorem buffer_carried {a : ℕ} (ha : a < blen) :
    (Mem.write (m.write pbuf1 (List.replicate blen 0)) pbuf1 (received blen packet)) (pbuf1 + a) =
      carried packet a := by
  have hoff : pbuf1 + a - pbuf1 = a := by omega
  have hlen : (received blen packet).length = min blen packet.length := List.length_take
  by_cases hin : a < packet.length
  · rw [Mem.write_mem _ _ (by omega) (by omega), carried, Mem.write_mem _ _ (by omega) hin]
    simp only [received, hoff, List.getElem_take, Nat.sub_zero]
  · rw [Mem.write_ge _ _ (by omega), Mem.write_mem _ _ (by omega)
      (by rw [List.length_replicate]; omega), List.getElem_replicate, carried_ge (by omega)]

theorem buffer_wireCount (m : Mem) (pbuf1 : ℕ) (packet : List Byte) {count : Member}
    (hc : count.offset + 4 ≤ blen) :
    wireCount (Mem.write (m.write pbuf1 (List.replicate blen 0)) pbuf1 (received blen packet))
      pbuf1 count = wireCount (carried packet) 0 count := by
  have hword : beWord
      (Mem.write (m.write pbuf1 (List.replicate blen 0)) pbuf1 (received blen packet))
      (pbuf1 + count.offset) = beWord (carried packet) (0 + count.offset) := by
    simp only [beWord, Nat.add_assoc, Nat.zero_add]
    rw [buffer_carried (by omega), buffer_carried (by omega), buffer_carried (by omega),
      buffer_carried (by omega)]
  rw [wireCount, hword, wireCount]

theorem buffer_countsFit (m : Mem) (pbuf1 : ℕ) (packet : List Byte) :
    CountsFit (Mem.write (m.write pbuf1 (List.replicate blen 0)) pbuf1 (received blen packet))
      pbuf1 ↔ CountsFit (carried packet) 0 := by
  have he := @buffer_wireCount m pbuf1 packet .numEngines (by decide)
  have ht := @buffer_wireCount m pbuf1 packet .numTanks (by decide)
  have hw := @buffer_wireCount m pbuf1 packet .numWheels (by decide)
  constructor
  · rintro ⟨hengines, htanks, hwheels⟩
    exact ⟨he ▸ hengines, ht ▸ htanks, hw ▸ hwheels⟩
  · rintro ⟨hengines, htanks, hwheels⟩
    exact ⟨he.symm ▸ hengines, ht.symm ▸ htanks, hw.symm ▸ hwheels⟩

theorem countsFit_nil : CountsFit (carried []) 0 := ⟨by decide, by decide, by decide⟩

theorem testServer_valid_iff (h : Endian) (pbuf1 : ℕ) (m : Mem) (packet : List Byte) :
    (∀ c v, testServer h true pbuf1 m packet = some (c, v) → ∀ e ∈ c.touched, e.Valid) ↔
      CountsFit (carried packet) 0 := by
  by_cases hlen : 0 < (received blen packet).length
  · have hrun : testServer h true pbuf1 m packet = some
        (convertNetFdm h pbuf1
          (Mem.write (m.write pbuf1 (List.replicate blen 0)) pbuf1 (received blen packet)), _) :=
      if_pos hlen
    rw [hrun, ← buffer_countsFit m pbuf1 packet, ← convertNetFdm_valid_iff (h := h)]
    constructor
    · intro hvalid
      exact hvalid _ _ rfl
    · intro hvalid c v hc
      cases hc
      exact hvalid
  · have hrun : testServer h true pbuf1 m packet = none := if_neg hlen
    have hnil : packet = [] := by
      have hzero : (received blen packet).length = min blen packet.length := List.length_take
      rw [hzero] at hlen
      exact List.length_eq_zero_iff.mp (by unfold blen at hlen; omega)
    constructor
    · intro _
      rw [hnil]
      exact countsFit_nil
    · intro _ c v hc
      rw [hrun] at hc
      cases hc

end

/-- The loops of `convert_net_fdm` stay inside their arrays exactly for the packets whose three
counts, zero where the packet is too short to hold them, are within the array sizes. -/
theorem testServer_touches_inside_iff (h : Endian) (pbuf1 : ℕ) (m : Mem) (packet : List Byte) :
    (∀ c v, testServer h true pbuf1 m packet = some (c, v) →
      ∀ e ∈ c.touched, e.index < e.member.entries) ↔
      wireCount (carried packet) 0 .numEngines ≤ fgMaxEngines ∧
        wireCount (carried packet) 0 .numTanks ≤ fgMaxTanks ∧
        wireCount (carried packet) 0 .numWheels ≤ fgMaxWheels := by
  have hiff := testServer_valid_iff h pbuf1 m packet
  constructor
  · intro hvalid
    have hfit := hiff.mp hvalid
    exact ⟨hfit.engines, hfit.tanks, hfit.wheels⟩
  · rintro ⟨he, ht, hw⟩
    exact hiff.mpr ⟨he, ht, hw⟩

/-- A packet of 124 bytes, zeros but for a `num_engines` of 5. -/
def fiveEngines : List Byte := List.replicate 123 0 ++ [5]

theorem fiveEngines_touches_outside :
    ¬ ∀ c v, testServer .little true 0 (fun _ => 0) fiveEngines = some (c, v) →
      ∀ e ∈ c.touched, e.index < e.member.entries := by
  intro hinside
  have hfit := (testServer_valid_iff _ _ _ _).mp hinside
  exact absurd hfit.engines (by decide)

/-- The count that says how many elements of an array are in use. -/
def Member.counted : Member → Option Member
  | engState | rpm | fuelFlow | fuelPx | egt | cht | mpOsi | tit | oilTemp | oilPx =>
    some numEngines
  | fuelQuantity => some numTanks
  | wow | gearPos | gearSteer | gearCompression => some numWheels
  | _ => none

/-- A scalar other than the padding, or an array entry below its count. -/
def Element.InUse (m : Mem) (net : ℕ) (e : Element) : Prop :=
  match e.member.counted with
  | some count => e.index < wireCount m net count
  | none => e.member ≠ .padding ∧ e.index = 0

section
variable {h : Endian} {net : ℕ} {m : Mem} {e : Element}

theorem mem_elementsAt {body : List (Swap × Member)} {i : ℕ} :
    e ∈ elementsAt body i ↔ e.member ∈ body.map Prod.snd ∧ e.index = i := by
  obtain ⟨x, j⟩ := e
  simp only [elementsAt, List.mem_map, Element.mk.injEq]
  constructor
  · rintro ⟨p, hp, rfl, rfl⟩
    exact ⟨⟨p, hp, rfl⟩, rfl⟩
  · rintro ⟨⟨p, hp, rfl⟩, rfl⟩
    exact ⟨p, hp, rfl, rfl⟩

theorem mem_rounds {body : List (Swap × Member)} {n : ℕ} :
    e ∈ (List.range n).flatMap (elementsAt body) ↔
      e.member ∈ body.map Prod.snd ∧ e.index < n := by
  simp only [List.mem_flatMap, List.mem_range, mem_elementsAt]
  constructor
  · rintro ⟨i, hi, hx, rfl⟩
    exact ⟨hx, hi⟩
  · rintro ⟨hx, hi⟩
    exact ⟨e.index, hi, hx, rfl⟩

theorem member_cases (x : Member) :
    (x ∈ headStatements.map Prod.snd ∨ x = .numTanks ∨ x = .numWheels ∨
      x ∈ tailStatements.map Prod.snd ↔ x.counted = none ∧ x ≠ .padding) ∧
    (x ∈ engineStatements.map Prod.snd ↔ x.counted = some .numEngines) ∧
    (x ∈ tankStatements.map Prod.snd ↔ x.counted = some .numTanks) ∧
    (x ∈ wheelStatements.map Prod.snd ↔ x.counted = some .numWheels) := by
  cases x <;> decide

theorem mem_elements {engines tanks wheels : ℕ} :
    e ∈ elements engines tanks wheels ↔
      (e.member.counted = none ∧ e.member ≠ .padding) ∧ e.index = 0 ∨
        e.member.counted = some .numEngines ∧ e.index < engines ∨
        e.member.counted = some .numTanks ∧ e.index < tanks ∨
        e.member.counted = some .numWheels ∧ e.index < wheels := by
  obtain ⟨hscalar, hengine, htank, hwheel⟩ := member_cases e.member
  have hsingle : ∀ x : Member, e ∈ [(⟨x, 0⟩ : Element)] ↔ e.member = x ∧ e.index = 0 := by
    intro x
    obtain ⟨y, j⟩ := e
    simp
  rw [← hscalar, ← hengine, ← htank, ← hwheel]
  simp only [elements, elementsToWheels, elementsToTanks, List.mem_append, mem_rounds,
    mem_elementsAt, hsingle]
  constructor
  · rintro ((((((⟨hx, hi⟩ | hx) | ⟨hx, hi⟩) | hx) | ⟨hx, hi⟩) | hx) | ⟨hx, hi⟩)
    · exact Or.inl ⟨Or.inl hx, hi⟩
    · exact Or.inr (Or.inl hx)
    · exact Or.inl ⟨Or.inr (Or.inl hx), hi⟩
    · exact Or.inr (Or.inr (Or.inl hx))
    · exact Or.inl ⟨Or.inr (Or.inr (Or.inl hx)), hi⟩
    · exact Or.inr (Or.inr (Or.inr hx))
    · exact Or.inl ⟨Or.inr (Or.inr (Or.inr hx)), hi⟩
  · rintro (⟨hx | hx | hx | hx, hi⟩ | hx | hx | hx)
    · exact Or.inl (Or.inl (Or.inl (Or.inl (Or.inl (Or.inl ⟨hx, hi⟩)))))
    · exact Or.inl (Or.inl (Or.inl (Or.inl (Or.inr ⟨hx, hi⟩))))
    · exact Or.inl (Or.inl (Or.inr ⟨hx, hi⟩))
    · exact Or.inr ⟨hx, hi⟩
    · exact Or.inl (Or.inl (Or.inl (Or.inl (Or.inl (Or.inr hx)))))
    · exact Or.inl (Or.inl (Or.inl (Or.inr hx)))
    · exact Or.inl (Or.inr hx)

theorem counted_cases (x : Member) : x.counted = none ∨ x.counted = some .numEngines ∨
    x.counted = some .numTanks ∨ x.counted = some .numWheels := by
  cases x <;> decide

theorem mem_elements_iff :
    e ∈ elements (wireCount m net .numEngines) (wireCount m net .numTanks)
      (wireCount m net .numWheels) ↔ e.InUse m net := by
  rw [mem_elements, Element.InUse]
  rcases counted_cases e.member with hc | hc | hc | hc
  · simp only [hc, reduceCtorEq, false_and, or_false, true_and]
  · simp only [hc, reduceCtorEq, Option.some.injEq, false_and, or_false, false_or, true_and]
  · simp only [hc, reduceCtorEq, Option.some.injEq, false_and, or_false, false_or, true_and]
  · simp only [hc, reduceCtorEq, Option.some.injEq, false_and, false_or, true_and]

theorem Element.InUse.valid (hm : CountsFit m net) (he : e.InUse m net) : e.Valid := by
  have hmem := mem_elements_iff.mpr he
  exact elements_max_valid e ((elements_sublist hm.engines hm.tanks hm.wheels).subset hmem)

end

end TcpTests.FgIo
