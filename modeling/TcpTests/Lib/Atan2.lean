import Mathlib.Analysis.SpecialFunctions.Complex.Arg
import Mathlib.Analysis.SpecialFunctions.Trigonometric.Bounds

/-! `atan2` over the reals, and the tangent of a scaled angle. -/
noncomputable section
namespace Lib

/-- The angle of the point `(x, y)`, above `-π` and up to `π`. -/
def atan2 (y x : ℝ) : ℝ := Complex.arg ⟨x, y⟩

variable {x y r θ k : ℝ}

theorem atan2_polar (hr : 0 < r) (hlo : -Real.pi < θ) (hhi : θ ≤ Real.pi) :
    atan2 (r * Real.sin θ) (r * Real.cos θ) = θ := by
  have hpoint : (⟨r * Real.cos θ, r * Real.sin θ⟩ : ℂ) =
      r * (Complex.cos θ + Complex.sin θ * Complex.I) := by
    apply Complex.ext <;> simp [Complex.cos_ofReal_re, Complex.sin_ofReal_re]
  rw [atan2, hpoint]
  exact Complex.arg_mul_cos_add_sin_mul_I hr ⟨hlo, hhi⟩

@[simp] theorem atan2_zero (hx : 0 ≤ x) : atan2 0 x = 0 :=
  Complex.arg_eq_zero_iff.mpr ⟨hx, rfl⟩

theorem tan_atan2 (y x : ℝ) : Real.tan (atan2 y x) = y / x := Complex.tan_arg _

theorem abs_atan2_lt (hx : 0 < x) : |atan2 y x| < Real.pi / 2 :=
  Complex.abs_arg_lt_pi_div_two_iff.mpr (Or.inl hx)

/-- A smaller angle has a smaller tangent, even more so when the tangent is scaled down too. -/
theorem mul_tan_lt (hk : 0 < k) (hk1 : k < 1) (hθ : 0 < θ) (hθ' : θ < Real.pi / 2) :
    k * Real.tan (k * θ) < Real.tan θ := by
  have hsmall : k * θ < θ := mul_lt_of_lt_one_left hθ hk1
  have hpos : 0 < Real.tan (k * θ) :=
    Real.tan_pos_of_pos_of_lt_pi_div_two (mul_pos hk hθ) (hsmall.trans hθ')
  calc k * Real.tan (k * θ)
    _ < Real.tan (k * θ) := mul_lt_of_lt_one_left hpos hk1
    _ < Real.tan θ := Real.tan_lt_tan_of_nonneg_of_lt_pi_div_two (mul_pos hk hθ).le hθ' hsmall

theorem mul_tan_eq_iff (hk : 0 < k) (hk1 : k < 1) (hθ : |θ| < Real.pi / 2) :
    k * Real.tan (k * θ) = Real.tan θ ↔ θ = 0 := by
  obtain ⟨hlo, hhi⟩ := abs_lt.mp hθ
  constructor
  · intro heq
    rcases lt_trichotomy θ 0 with hneg | hzero | hpos
    · have hlt := mul_tan_lt hk hk1 (neg_pos.mpr hneg) (neg_lt.mp hlo)
      rw [mul_neg, Real.tan_neg, Real.tan_neg, mul_neg, neg_lt_neg_iff] at hlt
      exact absurd heq hlt.ne'
    · exact hzero
    · exact absurd heq (mul_tan_lt hk hk1 hpos hhi).ne
  · intro hzero
    rw [hzero, mul_zero, Real.tan_zero, mul_zero]

end Lib

end
