import TcpTests.Lib.Atan2

/-! `ll2xyz` and `xyz2ll` of `fg_dist.cxx` in exact arithmetic, with `M_PI` the number. -/
noncomputable section
namespace TcpTests.FgDist
open Lib

def d2r : ℝ := Real.pi / 180

def r2d : ℝ := 180 / Real.pi

/-- A point on the sphere of radius 1. -/
structure Xyz where
  i : ℝ
  j : ℝ
  k : ℝ

def ll2xyz (inLon inLat : ℝ) : Xyz :=
  let lon := inLon * d2r
  let lat := inLat * d2r
  let cosphi := Real.cos lat
  ⟨cosphi * Real.cos lon, cosphi * Real.sin lon, Real.sin lat⟩

def xyz2ll (di dj dk : ℝ) : ℝ × ℝ :=
  let aux := di * di + dj * dj
  (atan2 dk (√aux * r2d), atan2 dj di * r2d)

/-- The latitude and the longitude that come back for the point of a position. -/
def roundTrip (lat lon : ℝ) : ℝ × ℝ :=
  let p := ll2xyz lon lat
  xyz2ll p.i p.j p.k

variable {lat lon : ℝ}

theorem d2r_pos : 0 < d2r := by
  have hpi := Real.pi_pos
  unfold d2r
  positivity

theorem d2r_lt_one : d2r < 1 := by
  have hpi := Real.pi_le_four
  unfold d2r
  linarith

theorem r2d_eq : r2d = d2r⁻¹ := by
  rw [r2d, d2r, inv_div]

theorem cosphi_pos (hlo : -90 < lat) (hhi : lat < 90) : 0 < Real.cos (lat * d2r) := by
  have hpi := Real.pi_pos
  have hquarter : 90 * d2r = Real.pi / 2 := by
    unfold d2r
    ring
  apply Real.cos_pos_of_mem_Ioo
  constructor
  · rw [← hquarter, ← neg_mul]
    exact mul_lt_mul_of_pos_right hlo d2r_pos
  · rw [← hquarter]
    exact mul_lt_mul_of_pos_right hhi d2r_pos

theorem aux_eq (lat lon : ℝ) :
    (ll2xyz lon lat).i * (ll2xyz lon lat).i + (ll2xyz lon lat).j * (ll2xyz lon lat).j =
      Real.cos (lat * d2r) * Real.cos (lat * d2r) := by
  have hone := Real.cos_sq_add_sin_sq (lon * d2r)
  dsimp only [ll2xyz]
  linear_combination (Real.cos (lat * d2r)) ^ 2 * hone

theorem roundTrip_lon (hlo : -90 < lat) (hhi : lat < 90) (hlonLo : -180 < lon)
    (hlonHi : lon ≤ 180) : (roundTrip lat lon).2 = lon := by
  have hhalf : 180 * d2r = Real.pi := by
    unfold d2r
    ring
  have hangle : atan2 (Real.cos (lat * d2r) * Real.sin (lon * d2r))
      (Real.cos (lat * d2r) * Real.cos (lon * d2r)) = lon * d2r := by
    apply atan2_polar (cosphi_pos hlo hhi)
    · rw [← hhalf, ← neg_mul]
      exact mul_lt_mul_of_pos_right hlonLo d2r_pos
    · rw [← hhalf]
      exact mul_le_mul_of_nonneg_right hlonHi d2r_pos.le
  calc (roundTrip lat lon).2
    _ = lon * d2r * r2d := by rw [← hangle]; rfl
    _ = lon := by rw [r2d_eq, mul_inv_cancel_right₀ d2r_pos.ne']

theorem roundTrip_lat (hlo : -90 < lat) (hhi : lat < 90) :
    (roundTrip lat lon).1 = atan2 (Real.sin (lat * d2r)) (Real.cos (lat * d2r) * r2d) := by
  unfold roundTrip xyz2ll
  dsimp only
  rw [aux_eq, Real.sqrt_mul_self (cosphi_pos hlo hhi).le]
  rfl

/-- The factor under `atan2` scales the tangent, and the angle stays in radians. -/
theorem roundTrip_lat_eq_iff (hlo : -90 < lat) (hhi : lat < 90) :
    (roundTrip lat lon).1 = lat ↔ lat = 0 := by
  have hcos := cosphi_pos hlo hhi
  have hx : 0 < Real.cos (lat * d2r) * r2d := by
    rw [r2d_eq]
    exact mul_pos hcos (inv_pos.mpr d2r_pos)
  rw [roundTrip_lat hlo hhi]
  constructor
  · intro heq
    have hsmall := abs_atan2_lt (y := Real.sin (lat * d2r)) hx
    have htan := tan_atan2 (Real.sin (lat * d2r)) (Real.cos (lat * d2r) * r2d)
    rw [heq] at hsmall htan
    rw [r2d_eq, ← div_div, ← Real.tan_eq_sin_div_cos, div_inv_eq_mul, mul_comm,
      mul_comm lat] at htan
    exact (mul_tan_eq_iff d2r_pos d2r_lt_one hsmall).mp htan.symm
  · intro hzero
    rw [hzero, zero_mul, Real.sin_zero, Real.cos_zero]
    apply atan2_zero
    rw [hzero, zero_mul, Real.cos_zero] at hx
    exact hx.le

/-- Latitude and longitude come back on the equator, and nowhere else. -/
theorem xyz2ll_ll2xyz_iff (lat lon : ℝ) (hlo : -90 < lat) (hhi : lat < 90) (hlonLo : -180 < lon)
    (hlonHi : lon ≤ 180) :
    xyz2ll (ll2xyz lon lat).i (ll2xyz lon lat).j (ll2xyz lon lat).k = (lat, lon) ↔ lat = 0 := by
  have hlon := roundTrip_lon hlo hhi hlonLo hlonHi
  rw [← @roundTrip_lat_eq_iff lat lon hlo hhi]
  constructor
  · intro heq
    exact congrArg Prod.fst heq
  · intro hlat
    exact Prod.ext hlat hlon

/-- The date line, at the equator. -/
theorem xyz2ll_ll2xyz_sample :
    xyz2ll (ll2xyz 180 0).i (ll2xyz 180 0).j (ll2xyz 180 0).k = (0, 180) := by
  have hiff := xyz2ll_ll2xyz_iff 0 180 (by norm_num) (by norm_num) (by norm_num) (by norm_num)
  exact hiff.mpr rfl

theorem xyz2ll_ll2xyz_north :
    xyz2ll (ll2xyz 0 45).i (ll2xyz 0 45).j (ll2xyz 0 45).k ≠ (45, 0) := by
  intro heq
  have hlat : (roundTrip 45 0).1 = 45 := congrArg Prod.fst heq
  have hzero : (45 : ℝ) = 0 := (roundTrip_lat_eq_iff (by norm_num) (by norm_num)).mp hlat
  norm_num at hzero

end TcpTests.FgDist

end
