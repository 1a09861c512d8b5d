import Mathlib.Analysis.SpecialFunctions.Trigonometric.Arctan
import TcpTests.Lib.Ellipsoid

/-! The reduced latitude of a point over an ellipsoid, and the one step from the angle of a point
to a latitude that is taken in its place. -/
noncomputable section
namespace Lib

/-- The step is right at its own angle only, on one side of the equator. -/
theorem sin_cube_add_cos_cube_iff {u β : ℝ} (hu : |u| < Real.pi / 2) (hβ : |β| < Real.pi / 2)
    (hsame : 0 ≤ Real.sin u * Real.sin β) :
    Real.sin u ^ 3 * Real.cos β + Real.cos u ^ 3 * Real.sin β = Real.sin β * Real.cos β ↔
      u = β := by
  obtain ⟨hulo, huhi⟩ := abs_lt.mp hu
  obtain ⟨hβlo, hβhi⟩ := abs_lt.mp hβ
  have hcu : 0 < Real.cos u := Real.cos_pos_of_mem_Ioo ⟨hulo, huhi⟩
  have hcβ : 0 < Real.cos β := Real.cos_pos_of_mem_Ioo ⟨hβlo, hβhi⟩
  have hpyth := Real.sin_sq_add_cos_sq u
  constructor
  · intro heq
    -- Both sides of the equation between the two angles have a sign.
    have hbalance : Real.sin β * Real.cos β * (Real.cos (u - β) - 1) =
        Real.sin u * Real.cos u * Real.sin (u - β) ^ 2 := by
      rw [Real.cos_sub, Real.sin_sub]
      linear_combination -(Real.sin u * Real.sin β + Real.cos u * Real.cos β) * heq +
        Real.sin β * Real.cos β * (Real.sin u ^ 2 + Real.cos u ^ 2 + 1) * hpyth
    have hle : Real.cos (u - β) - 1 ≤ 0 := sub_nonpos.mpr (Real.cos_le_one _)
    have hlow : Real.sin β ^ 2 * Real.cos β * (Real.cos (u - β) - 1) ≤ 0 :=
      mul_nonpos_of_nonneg_of_nonpos (by positivity) hle
    have hhigh : 0 ≤ Real.sin u * Real.sin β * Real.cos u * Real.sin (u - β) ^ 2 := by
      positivity
    have hzero : Real.sin β ^ 2 * Real.cos β * (Real.cos (u - β) - 1) = 0 := by
      apply le_antisymm hlow
      linear_combination hhigh - Real.sin β * hbalance
    rcases mul_eq_zero.mp hzero with hsin | hone
    · have hsβ : Real.sin β = 0 := by
        simpa [hcβ.ne'] using hsin
      have hsu : Real.sin u = 0 := by
        rw [hsβ] at heq
        simpa [hcβ.ne'] using heq
      rw [Real.sin_eq_zero_iff_of_lt_of_lt (by linarith only [hulo, Real.pi_pos])
        (by linarith only [huhi, Real.pi_pos])] at hsu
      rw [Real.sin_eq_zero_iff_of_lt_of_lt (by linarith only [hβlo, Real.pi_pos])
        (by linarith only [hβhi, Real.pi_pos])] at hsβ
      rw [hsu, hsβ]
    · have hcos : Real.cos (u - β) = 1 := sub_eq_zero.mp hone
      rw [Real.cos_eq_one_iff_of_lt_of_lt (by linarith only [hulo, hβhi, Real.pi_pos])
        (by linarith only [huhi, hβlo, Real.pi_pos])] at hcos
      exact sub_eq_zero.mp hcos
  · intro heq
    rw [heq]
    linear_combination Real.sin β * Real.cos β * Real.sin_sq_add_cos_sq β

namespace Ellipsoid
variable (E : Ellipsoid) {φ h : ℝ}

/-- The ratio of the polar axis to the equatorial one. -/
def ratio : ℝ := √(1 - E.e)

def polar : ℝ := E.a * E.ratio

/-- The latitude on the sphere that the ellipsoid is squeezed from. -/
def reduced (φ : ℝ) : ℝ := Real.arctan (E.ratio * Real.tan φ)

/-- The angle of a point in the space that is stretched to a sphere. -/
def parametric (φ h : ℝ) : ℝ := atan2 (E.elevation φ h * E.a) (E.radius φ h * E.polar)

theorem ratio_pos : 0 < E.ratio := Real.sqrt_pos.mpr (by linarith only [E.e_lt])

theorem ratio_sq : E.ratio ^ 2 = 1 - E.e := Real.sq_sqrt (by linarith only [E.e_lt])

theorem polar_pos : 0 < E.polar := mul_pos E.a_pos E.ratio_pos

theorem polar_le : E.polar ≤ E.a :=
  mul_le_of_le_one_right E.a_pos.le (Real.sqrt_le_one.mpr (by linarith only [E.e_pos]))

theorem abs_reduced_lt (φ : ℝ) : |E.reduced φ| < Real.pi / 2 :=
  abs_lt.mpr ⟨Real.neg_pi_div_two_lt_arctan _, Real.arctan_lt_pi_div_two _⟩

theorem cos_reduced_pos (φ : ℝ) : 0 < Real.cos (E.reduced φ) := Real.cos_arctan_pos _

variable (hφ : |φ| < Real.pi / 2)
include hφ

theorem cos_pos : 0 < Real.cos φ := by
  obtain ⟨hlo, hhi⟩ := abs_lt.mp hφ
  exact Real.cos_pos_of_mem_Ioo ⟨hlo, hhi⟩

theorem a_mul_cos_reduced : E.a * Real.cos (E.reduced φ) = E.normal φ * Real.cos φ := by
  have hcos := cos_pos hφ
  have hred := E.cos_reduced_pos φ
  have hsqueeze := E.squeeze_pos φ
  have hnormal := E.normal_pos φ
  have ha := E.a_pos
  have hsq : Real.cos (E.reduced φ) ^ 2 = Real.cos φ ^ 2 / E.squeeze φ := by
    have htan : 1 + (E.ratio * Real.tan φ) ^ 2 = E.squeeze φ / Real.cos φ ^ 2 := by
      rw [mul_pow, E.ratio_sq, Real.tan_eq_sin_div_cos, squeeze]
      field_simp
      linear_combination Real.sin_sq_add_cos_sq φ
    rw [reduced, Real.cos_sq_arctan, htan, one_div_div]
  have hboth : (E.a * Real.cos (E.reduced φ)) ^ 2 = (E.normal φ * Real.cos φ) ^ 2 := by
    rw [mul_pow, hsq, mul_pow, ← E.normal_sq_mul φ]
    field_simp
  exact (pow_left_inj₀ (by positivity) (by positivity) two_ne_zero).mp hboth

theorem polar_mul_sin_reduced :
    E.polar * Real.sin (E.reduced φ) = E.normal φ * (1 - E.e) * Real.sin φ := by
  have hcos := (cos_pos hφ).ne'
  have htan : Real.sin (E.reduced φ) = E.ratio * Real.tan φ * Real.cos (E.reduced φ) := by
    rw [← Real.tan_arctan (E.ratio * Real.tan φ)]
    exact (Real.tan_mul_cos (E.cos_reduced_pos φ).ne').symm
  have hfoot := E.a_mul_cos_reduced hφ
  rw [htan, polar, Real.tan_eq_sin_div_cos]
  field_simp
  linear_combination Real.sin φ * E.ratio ^ 2 * hfoot +
    E.normal φ * Real.cos φ * Real.sin φ * E.ratio_sq

end Ellipsoid

namespace Ellipsoid
variable {E : Ellipsoid} {φ h : ℝ} (hout : E.Outside h) (hφ : |φ| < Real.pi / 2)
include hout hφ

theorem radius_pos : 0 < E.radius φ h := mul_pos (hout.radius_pos φ) (cos_pos hφ)

theorem abs_parametric_lt : |E.parametric φ h| < Real.pi / 2 :=
  abs_atan2_lt (mul_pos (radius_pos hout hφ) E.polar_pos)

theorem cos_parametric_pos : 0 < Real.cos (E.parametric φ h) := cos_pos (abs_parametric_lt hout hφ)

theorem sin_parametric :
    Real.sin (E.parametric φ h) * (E.radius φ h * E.polar) =
      Real.cos (E.parametric φ h) * (E.elevation φ h * E.a) := by
  have hcos := (cos_parametric_pos hout hφ).ne'
  have hpolar := E.polar_pos.ne'
  have hradius := (radius_pos hout hφ).ne'
  have htan : Real.tan (E.parametric φ h) = E.elevation φ h * E.a / (E.radius φ h * E.polar) :=
    tan_atan2 _ _
  rw [Real.tan_eq_sin_div_cos, div_eq_div_iff hcos (by positivity)] at htan
  linear_combination htan

theorem sin_parametric_mul_sin_reduced :
    0 ≤ Real.sin (E.parametric φ h) * Real.sin (E.reduced φ) := by
  have hpolar := E.polar_pos
  have hradius := radius_pos hout hφ
  have hcos := cos_parametric_pos hout hφ
  have ha := E.a_pos
  have hnormal := E.normal_pos φ
  have helev := hout.elevation_pos φ
  have hrest : 0 < 1 - E.e := by linarith only [E.e_lt]
  have hscale : 0 ≤ E.radius φ h * E.polar * E.polar *
      (Real.sin (E.parametric φ h) * Real.sin (E.reduced φ)) := by
    have hsin := sin_parametric hout hφ
    have hred := E.polar_mul_sin_reduced hφ
    have hprod : E.radius φ h * E.polar * E.polar *
        (Real.sin (E.parametric φ h) * Real.sin (E.reduced φ)) =
          Real.cos (E.parametric φ h) * (E.normal φ * (1 - E.e) + h) * E.a * E.normal φ *
            (1 - E.e) * Real.sin φ ^ 2 := by
      rw [elevation] at hsin
      linear_combination E.polar * Real.sin (E.reduced φ) * hsin +
        Real.cos (E.parametric φ h) * (E.normal φ * (1 - E.e) + h) * Real.sin φ * E.a * hred
    rw [hprod]
    positivity
  exact nonneg_of_mul_nonneg_right hscale (by positivity)

theorem parametric_eq_reduced_iff : E.parametric φ h = E.reduced φ ↔ h = 0 ∨ φ = 0 := by
  have hpolar := E.polar_pos.ne'
  have hradius := (radius_pos hout hφ).ne'
  have hcos := (cos_pos hφ).ne'
  have hratio := E.ratio_pos.ne'
  have he := E.e_pos.ne'
  have ha := E.a_pos.ne'
  obtain ⟨hlo, hhi⟩ := abs_lt.mp hφ
  have htan : E.parametric φ h = E.reduced φ ↔
      Real.tan (E.parametric φ h) = Real.tan (E.reduced φ) := by
    obtain ⟨hplo, hphi⟩ := abs_lt.mp (abs_parametric_lt hout hφ)
    obtain ⟨hrlo, hrhi⟩ := abs_lt.mp (E.abs_reduced_lt φ)
    exact ⟨congrArg Real.tan, Real.injOn_tan ⟨hplo, hphi⟩ ⟨hrlo, hrhi⟩⟩
  have hsin : Real.sin φ = 0 ↔ φ = 0 :=
    Real.sin_eq_zero_iff_of_lt_of_lt (by linarith only [hlo, Real.pi_pos])
      (by linarith only [hhi, Real.pi_pos])
  have hzero : h = 0 ∨ φ = 0 ↔ h * E.e * Real.sin φ * Real.cos φ = 0 := by
    simp [hsin, hcos, he]
  rw [htan, hzero, parametric, tan_atan2, reduced, Real.tan_arctan, Real.tan_eq_sin_div_cos,
    ← mul_div_assoc, div_eq_div_iff (by positivity) hcos, polar]
  have hcross : E.elevation φ h * E.a * Real.cos φ -
      E.ratio * Real.sin φ * (E.radius φ h * (E.a * E.ratio)) =
        E.a * (h * E.e * Real.sin φ * Real.cos φ) := by
    rw [elevation, radius]
    linear_combination -E.a * (E.normal φ + h) * Real.sin φ * Real.cos φ * E.ratio_sq
  constructor
  · intro heq
    rw [heq, sub_self] at hcross
    exact (mul_eq_zero.mp hcross.symm).resolve_left ha
  · intro heq
    rw [heq, mul_zero] at hcross
    exact sub_eq_zero.mp hcross

theorem cos_parametric_lt :
    E.e * E.a * Real.cos (E.parametric φ h) ^ 3 < E.radius φ h := by
  have hcos := cos_parametric_pos hout hφ
  have hle := Real.cos_le_one (E.parametric φ h)
  have he := E.e_pos
  have ha := E.a_pos
  have hpolar := E.polar_pos
  have hradius := radius_pos hout hφ
  have hlow : E.a * E.e < E.normal φ * (1 - E.e) + h :=
    (mul_le_mul_of_nonneg_right (E.le_normal φ) he.le).trans_lt (hout.normal φ)
  -- The point is not as near to the centre as the bends.
  have hfar : (E.a * E.e) ^ 2 < E.radius φ h ^ 2 + E.elevation φ h ^ 2 := by
    have hwide : E.normal φ * (1 - E.e) + h ≤ E.normal φ + h := by
      nlinarith only [E.normal_pos φ, he]
    have hsq : (E.a * E.e) ^ 2 < (E.normal φ * (1 - E.e) + h) ^ 2 :=
      pow_lt_pow_left₀ hlow (by positivity) two_ne_zero
    have hsq' : (E.normal φ * (1 - E.e) + h) ^ 2 ≤ (E.normal φ + h) ^ 2 :=
      pow_le_pow_left₀ (hout.elevation_pos φ).le hwide 2
    rw [radius, elevation]
    nlinarith only [hsq, hsq', Real.sin_sq_add_cos_sq φ, sq_nonneg (Real.cos φ)]
  have hsum : (E.radius φ h * E.polar) ^ 2 = Real.cos (E.parametric φ h) ^ 2 *
      ((E.elevation φ h * E.a) ^ 2 + (E.radius φ h * E.polar) ^ 2) := by
    have hsin := sin_parametric hout hφ
    linear_combination (Real.sin (E.parametric φ h) * (E.radius φ h * E.polar) +
      Real.cos (E.parametric φ h) * (E.elevation φ h * E.a)) * hsin -
        (E.radius φ h * E.polar) ^ 2 * Real.sin_sq_add_cos_sq (E.parametric φ h)
  have hsquare : (E.e * E.a * Real.cos (E.parametric φ h) * E.polar) ^ 2 <
      (E.radius φ h * E.polar) ^ 2 := by
    have hstretch : (E.elevation φ h * E.polar) ^ 2 ≤ (E.elevation φ h * E.a) ^ 2 := by
      rw [mul_pow, mul_pow]
      have := E.polar_le
      gcongr
    calc (E.e * E.a * Real.cos (E.parametric φ h) * E.polar) ^ 2
      _ = Real.cos (E.parametric φ h) ^ 2 * (E.polar ^ 2 * (E.a * E.e) ^ 2) := by ring
      _ < Real.cos (E.parametric φ h) ^ 2 *
          (E.polar ^ 2 * (E.radius φ h ^ 2 + E.elevation φ h ^ 2)) := by gcongr
      _ ≤ Real.cos (E.parametric φ h) ^ 2 *
          ((E.elevation φ h * E.a) ^ 2 + (E.radius φ h * E.polar) ^ 2) := by
        gcongr
        linarith only [hstretch]
      _ = (E.radius φ h * E.polar) ^ 2 := hsum.symm
  have hlinear : E.e * E.a * Real.cos (E.parametric φ h) < E.radius φ h := by
    have := lt_of_pow_lt_pow_left₀ 2 (by positivity) hsquare
    exact lt_of_mul_lt_mul_right this hpolar.le
  have hcube : Real.cos (E.parametric φ h) ^ 3 ≤ Real.cos (E.parametric φ h) :=
    pow_le_of_le_one hcos.le hle three_ne_zero
  exact (mul_le_mul_of_nonneg_left hcube (by positivity)).trans_lt hlinear

/-- The latitude by one step from the angle is right on the ellipsoid and on the equator. -/
theorem arctan_step_eq_iff :
    Real.arctan ((E.elevation φ h + E.e * E.a ^ 2 / E.polar *
        Real.sin (E.parametric φ h) ^ 3) /
      (E.radius φ h - E.e * E.a * Real.cos (E.parametric φ h) ^ 3)) = φ ↔ h = 0 ∨ φ = 0 := by
  have hcos := (cos_pos hφ).ne'
  have hnormal := (E.normal_pos φ).ne'
  have hpolar := E.polar_pos.ne'
  have he := E.e_pos.ne'
  have ha := E.a_pos.ne'
  have hden := sub_pos.mpr (cos_parametric_lt hout hφ)
  obtain ⟨hlo, hhi⟩ := abs_lt.mp hφ
  have htan : ∀ x, Real.arctan x = φ ↔ x = Real.tan φ := by
    intro x
    constructor
    · intro h
      rw [← h, Real.tan_arctan]
    · intro h
      rw [h, Real.arctan_tan hlo hhi]
  rw [htan, Real.tan_eq_sin_div_cos, div_eq_div_iff hden.ne' hcos,
    ← parametric_eq_reduced_iff hout hφ, ← sin_cube_add_cos_cube_iff (abs_parametric_lt hout hφ)
      (E.abs_reduced_lt φ) (sin_parametric_mul_sin_reduced hout hφ)]
  -- Both sides, by the reduced latitude.
  have hfoot := E.a_mul_cos_reduced hφ
  have hheight : E.a ^ 2 * Real.sin (E.reduced φ) = E.normal φ * E.polar * Real.sin φ := by
    have hred := E.polar_mul_sin_reduced hφ
    have hsq : E.polar ^ 2 = E.a ^ 2 * (1 - E.e) := by
      rw [polar, mul_pow, E.ratio_sq]
    apply mul_left_cancel₀ hpolar
    linear_combination E.a ^ 2 * hred - E.normal φ * Real.sin φ * hsq
  have hcross : E.normal φ * E.polar * ((E.elevation φ h + E.e * E.a ^ 2 / E.polar *
      Real.sin (E.parametric φ h) ^ 3) * Real.cos φ -
        Real.sin φ * (E.radius φ h - E.e * E.a * Real.cos (E.parametric φ h) ^ 3)) =
      E.e * E.a ^ 3 * (Real.sin (E.parametric φ h) ^ 3 * Real.cos (E.reduced φ) +
        Real.cos (E.parametric φ h) ^ 3 * Real.sin (E.reduced φ) -
          Real.sin (E.reduced φ) * Real.cos (E.reduced φ)) := by
    have hcancel : E.polar * (E.e * E.a ^ 2 / E.polar) = E.e * E.a ^ 2 := by
      field_simp
    rw [elevation, radius]
    linear_combination E.normal φ * Real.sin (E.parametric φ h) ^ 3 * Real.cos φ * hcancel -
      (E.e * E.a ^ 2 * Real.sin (E.parametric φ h) ^ 3 -
        E.e * E.a ^ 2 * Real.sin (E.reduced φ)) * hfoot -
      (E.e * E.a * Real.cos (E.parametric φ h) ^ 3 - E.e * E.normal φ * Real.cos φ) * hheight
  constructor
  · intro heq
    rw [sub_eq_zero.mpr heq, mul_zero] at hcross
    exact sub_eq_zero.mp ((mul_eq_zero.mp hcross.symm).resolve_left (by positivity))
  · intro heq
    rw [sub_eq_zero.mpr heq, mul_zero] at hcross
    exact sub_eq_zero.mp ((mul_eq_zero.mp hcross).resolve_left (by positivity))

end Ellipsoid

end Lib

end
