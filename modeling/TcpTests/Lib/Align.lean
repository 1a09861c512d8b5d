import Mathlib.Data.Nat.ModEq

/-! The rounding loop `while (n % k) n++`, as padding code writes it. -/
namespace Lib

theorem align_step {k n : ℕ} (hk : 0 < k) (hn : n % k ≠ 0) :
    (k - n % k) % k = (k - (n + 1) % k) % k + 1 := by
  have hlt : n % k < k := Nat.mod_lt n hk
  have hl : (k - n % k) % k = k - n % k := Nat.mod_eq_of_lt (by omega)
  have key : (n + 1) % k = (n % k + 1) % k := (Nat.mod_add_mod n k 1).symm
  rw [hl, key]
  by_cases he : n % k + 1 = k
  · rw [he, Nat.mod_self, Nat.sub_zero, Nat.mod_self]
    omega
  · rw [Nat.mod_eq_of_lt (show n % k + 1 < k by omega),
      Nat.mod_eq_of_lt (show k - (n % k + 1) < k by omega)]
    omega

/-- The number of rounds of `while (n % k) n++`. -/
def alignSteps (k n : ℕ) : ℕ :=
  if 0 < k ∧ n % k ≠ 0 then alignSteps k (n + 1) + 1 else 0
termination_by (k - n % k) % k
decreasing_by
  rename_i h
  rw [align_step h.1 h.2]
  omega

theorem alignSteps_of_dvd {k n : ℕ} (hn : n % k = 0) : alignSteps k n = 0 := by
  rw [alignSteps]
  simp [hn]

theorem alignSteps_succ {k n : ℕ} (hk : 0 < k) (hn : n % k ≠ 0) :
    alignSteps k n = alignSteps k (n + 1) + 1 := by
  conv_lhs => rw [alignSteps]
  simp [hk, hn]

theorem alignSteps_eq {k : ℕ} (hk : 0 < k) (n : ℕ) : alignSteps k n = (k - n % k) % k := by
  induction n using alignSteps.induct k with
  | case1 n h ih => rw [alignSteps_succ h.1 h.2, ih, align_step h.1 h.2]
  | case2 n h =>
    have hn : n % k = 0 := by
      by_contra hne
      exact h ⟨hk, hne⟩
    rw [alignSteps_of_dvd hn, hn, Nat.sub_zero, Nat.mod_self]

theorem alignSteps_lt {k : ℕ} (hk : 0 < k) (n : ℕ) : alignSteps k n < k := by
  rw [alignSteps_eq hk]
  exact Nat.mod_lt _ hk

end Lib
