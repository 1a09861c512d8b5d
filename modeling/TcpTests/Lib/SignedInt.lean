import Mathlib.Algebra.Ring.Int.Defs

/-! The `int` of 32 bits. Arithmetic whose exact result is no `int` is undefined, and `none` stands
for that. -/
namespace Lib

/-- The `int` that an exact result is. -/
def ofInt? (x : ℤ) : Option Int32 :=
  if -2 ^ 31 ≤ x ∧ x < 2 ^ 31 then some (Int32.ofInt x) else none

/-- `n++` -/
def increment (n : Int32) : Option Int32 := ofInt? (n.toInt + 1)

section
variable {x : ℤ} {n m : Int32}

theorem ofInt?_eq_some_iff : ofInt? x = some n ↔ n.toInt = x := by
  unfold ofInt?
  constructor
  · intro h
    split_ifs at h with hrange
    cases h
    exact Int32.toInt_ofInt_of_le hrange.1 hrange.2
  · rintro rfl
    rw [if_pos ⟨n.le_toInt, n.toInt_lt⟩, Int32.ofInt_toInt]

theorem ofInt?_eq_none_iff : ofInt? x = none ↔ x < -2 ^ 31 ∨ 2 ^ 31 ≤ x := by
  unfold ofInt?
  split_ifs with hrange
  · refine iff_of_false nofun ?_
    omega
  · refine iff_of_true rfl ?_
    omega

theorem increment_eq_some_iff : increment n = some m ↔ m.toInt = n.toInt + 1 := ofInt?_eq_some_iff

theorem increment_eq_none_iff : increment n = none ↔ 2 ^ 31 ≤ n.toInt + 1 := by
  have hn := n.le_toInt
  rw [increment, ofInt?_eq_none_iff]
  omega

end

end Lib
