import Mathlib.Analysis.SpecialFunctions.Pow.Real
import Mathlib.Analysis.Real.Pi.Bounds
import TcpTests.FgmpMsg.Orientation
import TcpTests.Lib.Ellipsoid

/-! `sgCartToGeod` of `fg_geometry`, and `geodtocart` of `fgmp_msg` that it is tried on, in exact
arithmetic. -/
noncomputable section
namespace TcpTests.FgGeometry
open Lib FgmpMsg

def squash : ℝ := 0.9966471893352525192801545

def equrad : ℝ := 6378137.0

def ra2 : ℝ := 1 / (equrad * equrad)

def e2 : ℝ := |1 - squash * squash|

def e4 : ℝ := e2 * e2

/-- `SG_RADIANS_TO_DEGREES` -/
def sgRadiansToDegrees : ℝ := 180.0 / 3.1415926535

/-- Latitude and longitude in degrees, and the altitude in feet. -/
@[ext] structure Geod where
  lat : ℝ
  lon : ℝ
  alt : ℝ

/-! The locals of `sgCartToGeod` that depend on `p` and `q` only. -/
namespace Direct
variable (p q : ℝ)

def r : ℝ := 1 / 6.0 * (p + q - e4)

def s : ℝ := e4 * p * q / (4 * r p q * r p q * r p q)

def t : ℝ := (1 + s p q + √(s p q * (2.0 + s p q))) ^ (1 / 3.0 : ℝ)

def u : ℝ := r p q * (1 + t p q + 1 / t p q)

def v : ℝ := √(u p q * u p q + e4 * q)

def w : ℝ := e2 * (u p q + v p q - q) / (2.0 * v p q)

def k : ℝ := √(u p q + v p q + w p q * w p q) - w p q

end Direct

/-- `meterToFeet` is the `SG_METER_TO_FEET` of simgear. -/
def sgCartToGeod (meterToFeet : ℝ) (cart : Vec3) : Geod :=
  let x := cart.x
  let y := cart.y
  let z := cart.z
  let xxPyy := x * x + y * y
  let sqrtXxPyy := √xxPyy
  let p := xxPyy * ra2
  let q := z * z * (1 - e2) * ra2
  let k := Direct.k p q
  let d := k * sqrtXxPyy / (k + e2)
  let sqrtDdPzz := √(d * d + z * z)
  { lon := 2.0 * atan2 y (x + sqrtXxPyy) * sgRadiansToDegrees
    lat := 2.0 * atan2 z (d + sqrtDdPzz) * sgRadiansToDegrees
    alt := (k + e2 - 1) * sqrtDdPzz / k * meterToFeet }

/-- Degrees and feet. -/
def geodtocart (latDegs lonDegs hgtFeet : ℝ) : Vec3 :=
  let a := 6378137.0
  let e2 := |1 - 0.9966471893352525192801545 * 0.9966471893352525192801545|
  let lmbda := degrees2Radians * lonDegs
  let phi := degrees2Radians * latDegs
  let h := hgtFeet / 3.2808399
  let sphi := Real.sin phi
  let cphi := Real.cos phi
  let n := a / √(1 - e2 * sphi * sphi)
  let slambda := Real.sin lmbda
  let clambda := Real.cos lmbda
  ⟨(h + n) * cphi * clambda, (h + n) * cphi * slambda, (h + n - e2 * n) * sphi⟩

theorem two_eq : (2.0 : ℝ) = 2 := by norm_num

theorem e2_pos : 0 < e2 := by norm_num [e2, squash]

theorem e2_lt : e2 < 1 / 2 := by norm_num [e2, squash, abs_of_pos]

def wgs84 : Ellipsoid where
  a := equrad
  e := e2
  a_pos := by norm_num [equrad]
  e_pos := e2_pos
  e_lt := e2_lt

theorem e4_pos : 0 < e4 := mul_pos wgs84.e_pos wgs84.e_pos

namespace Direct
variable {p q κ : ℝ}

theorem six_mul_r (p q : ℝ) : 6 * r p q = p + q - e2 ^ 2 := by
  have hsix : (6.0 : ℝ) = 6 := by norm_num
  rw [r, e4, hsix]
  ring

theorem r_pos (h : e2 ^ 2 < p + q) : 0 < r p q := by
  have hsix := six_mul_r p q
  linarith only [h, hsix]

theorem s_nonneg (hp : 0 ≤ p) (hq : 0 ≤ q) (h : e2 ^ 2 < p + q) : 0 ≤ s p q := by
  have hr := r_pos h
  have he := e4_pos
  unfold s
  positivity

theorem t_cube (hp : 0 ≤ p) (hq : 0 ≤ q) (h : e2 ^ 2 < p + q) :
    t p q ^ 3 = 1 + s p q + √(s p q * (2 + s p q)) := by
  have hs := s_nonneg hp hq h
  have hbase : 0 ≤ 1 + s p q + √(s p q * (2 + s p q)) := by positivity
  have hexp : (1 / 3.0 : ℝ) = ((3 : ℕ) : ℝ)⁻¹ := by norm_num
  rw [t, two_eq, hexp, Real.rpow_inv_natCast_pow hbase (by norm_num)]

theorem t_pos (hp : 0 ≤ p) (hq : 0 ≤ q) (h : e2 ^ 2 < p + q) : 0 < t p q := by
  have hs := s_nonneg hp hq h
  exact Real.rpow_pos_of_pos (by positivity) _

theorem u_pos (hp : 0 ≤ p) (hq : 0 ≤ q) (h : e2 ^ 2 < p + q) : 0 < u p q := by
  have hr := r_pos h
  have ht := t_pos hp hq h
  unfold u
  positivity

/-- `u` solves the resolvent cubic. -/
theorem u_cubic (hp : 0 ≤ p) (hq : 0 ≤ q) (h : e2 ^ 2 < p + q) :
    2 * (u p q ^ 2 * (u p q - 3 * r p q)) = e2 ^ 2 * p * q := by
  have hr := (r_pos h).ne'
  have hcubic := cubic_of_root (s_nonneg hp hq h) (t_cube hp hq h)
  have hs : 4 * r p q ^ 3 * s p q = e2 ^ 2 * p * q := by
    unfold s e4
    field_simp
  unfold u
  linear_combination 2 * r p q ^ 3 * hcubic + hs

theorem v_sq (hp : 0 ≤ p) (hq : 0 ≤ q) (h : e2 ^ 2 < p + q) :
    v p q ^ 2 = u p q ^ 2 + e2 ^ 2 * q := by
  have hu := u_pos hp hq h
  have he := e4_pos
  rw [v, Real.sq_sqrt (by positivity), e4]
  ring

theorem v_pos (hp : 0 ≤ p) (hq : 0 ≤ q) (h : e2 ^ 2 < p + q) : 0 < v p q := by
  have hu := u_pos hp hq h
  have he := e4_pos
  unfold v
  positivity

theorem k_quadratic (hp : 0 ≤ p) (hq : 0 ≤ q) (h : e2 ^ 2 < p + q) :
    k p q ^ 2 + 2 * w p q * k p q - (u p q + v p q) = 0 := by
  have hu := u_pos hp hq h
  have hv := v_pos hp hq h
  have hsq : √(u p q + v p q + w p q * w p q) ^ 2 = u p q + v p q + w p q * w p q :=
    Real.sq_sqrt (by nlinarith only [hu, hv, mul_self_nonneg (w p q)])
  unfold k
  linear_combination hsq

theorem k_pos (hp : 0 ≤ p) (hq : 0 ≤ q) (h : e2 ^ 2 < p + q) : 0 < k p q := by
  have hu := u_pos hp hq h
  have hv := v_pos hp hq h
  have habs : |w p q| < √(u p q + v p q + w p q * w p q) := by
    rw [← Real.sqrt_mul_self_eq_abs]
    exact Real.sqrt_lt_sqrt (mul_self_nonneg _) (by linarith only [hu, hv])
  have hle := le_abs_self (w p q)
  unfold k
  linarith only [habs, hle]

/-- `k` is the positive solution of the quartic. -/
theorem k_eq (hp : 0 ≤ p) (hq : 0 ≤ q) (h : e2 ^ 2 < p + q) (hκ : 0 < κ)
    (hquartic : quartic e2 p q κ = 0) : k p q = κ := by
  have he : 0 < e2 := wgs84.e_pos
  have hfactor : quartic e2 p q (k p q) =
      (k p q ^ 2 + 2 * w p q * k p q - (u p q + v p q)) *
        (k p q ^ 2 + 2 * (e2 - w p q) * k p q - (u p q - v p q)) :=
    quartic_eq_mul (six_mul_r p q) (u_cubic hp hq h) (v_sq hp hq h) (v_pos hp hq h).ne'
      (by rw [w, two_eq])
  rw [k_quadratic hp hq h, zero_mul] at hfactor
  exact quartic_unique (k_pos hp hq h) hκ he hp hq ((pow_pos he 2).trans h) hfactor hquartic

end Direct

section
variable {lat lon hgt φ lam h : ℝ}

/-- A point by its latitude, longitude and height, in radians and metres. -/
def place (φ lam h : ℝ) : Vec3 :=
  ⟨wgs84.radius φ h * Real.cos lam, wgs84.radius φ h * Real.sin lam, wgs84.elevation φ h⟩

theorem geodtocart_eq (lat lon hgt : ℝ) :
    geodtocart lat lon hgt =
      place (degrees2Radians * lat) (degrees2Radians * lon) (hgt / 3.2808399) := by
  have hsqueeze : 1 - e2 * Real.sin (degrees2Radians * lat) *
      Real.sin (degrees2Radians * lat) = wgs84.squeeze (degrees2Radians * lat) := by
    rw [Ellipsoid.squeeze, pow_two, ← mul_assoc]
    rfl
  have hnormal : equrad / √(1 - e2 * Real.sin (degrees2Radians * lat) *
      Real.sin (degrees2Radians * lat)) = wgs84.normal (degrees2Radians * lat) := by
    rw [hsqueeze]
    rfl
  unfold geodtocart
  change (⟨(_ + equrad / √(1 - e2 * _ * _)) * _ * _, (_ + equrad / √(1 - e2 * _ * _)) * _ * _,
    (_ + equrad / √(1 - e2 * _ * _) - e2 * (equrad / √(1 - e2 * _ * _))) * _⟩ : Vec3) = _
  rw [hnormal]
  unfold place Ellipsoid.radius Ellipsoid.elevation
  ext
  · ring
  · ring
  · change _ = (_ * (1 - e2) + _) * _
    ring

theorem place_xx_add_yy (φ lam h : ℝ) :
    (place φ lam h).x * (place φ lam h).x + (place φ lam h).y * (place φ lam h).y =
      wgs84.radius φ h ^ 2 := by
  unfold place
  linear_combination wgs84.radius φ h ^ 2 * Real.sin_sq_add_cos_sq lam

theorem k_place (hout : wgs84.Outside h) (φ : ℝ) :
    Direct.k (wgs84.radius φ h ^ 2 * ra2)
      (wgs84.elevation φ h * wgs84.elevation φ h * (1 - e2) * ra2) = wgs84.depth φ h := by
  have hp : wgs84.radius φ h ^ 2 * ra2 = wgs84.radius φ h ^ 2 / equrad ^ 2 := by
    rw [ra2, pow_two equrad]
    ring
  have hq : wgs84.elevation φ h * wgs84.elevation φ h * (1 - e2) * ra2 =
      (1 - e2) * wgs84.elevation φ h ^ 2 / equrad ^ 2 := by
    rw [ra2, pow_two equrad]
    ring
  have hlt : e2 < 1 / 2 := wgs84.e_lt
  have hrest : 0 ≤ 1 - e2 := by linarith only [hlt]
  rw [hp, hq]
  exact Direct.k_eq (by positivity) (by positivity) (hout.sq_lt_add φ)
    (wgs84.e_pos.trans (hout.lt_depth φ)) (hout.quartic_depth φ)

/-- `D`, the distance from the axis of the point that the normal meets. -/
theorem d_place (hout : wgs84.Outside h) (φ : ℝ) :
    wgs84.depth φ h * wgs84.radius φ h / (wgs84.depth φ h + e2) =
      wgs84.normal φ * wgs84.depth φ h * Real.cos φ := by
  have hshift : wgs84.depth φ h + e2 ≠ 0 :=
    (add_pos (wgs84.e_pos.trans (hout.lt_depth φ)) wgs84.e_pos).ne'
  have hradius : wgs84.radius φ h = wgs84.normal φ * (wgs84.depth φ h + e2) * Real.cos φ :=
    wgs84.radius_eq φ h
  rw [hradius]
  field_simp

theorem sqrtDdPzz_place (hout : wgs84.Outside h) (φ : ℝ) :
    √(wgs84.normal φ * wgs84.depth φ h * Real.cos φ *
      (wgs84.normal φ * wgs84.depth φ h * Real.cos φ) +
        wgs84.elevation φ h * wgs84.elevation φ h) = wgs84.normal φ * wgs84.depth φ h := by
  rw [Real.sqrt_eq_iff_mul_self_eq_of_pos
    (mul_pos (wgs84.normal_pos φ) (wgs84.e_pos.trans (hout.lt_depth φ))), wgs84.elevation_eq]
  linear_combination -(wgs84.normal φ * wgs84.depth φ h) ^ 2 * Real.sin_sq_add_cos_sq φ

theorem sgCartToGeod_place (meterToFeet : ℝ) (hφ : |φ| < Real.pi / 2) (hlam : |lam| < Real.pi)
    (hout : wgs84.Outside h) :
    sgCartToGeod meterToFeet (place φ lam h) =
      ⟨φ * sgRadiansToDegrees, lam * sgRadiansToDegrees, h * meterToFeet⟩ := by
  obtain ⟨hlo, hhi⟩ := abs_lt.mp hφ
  obtain ⟨hwest, heast⟩ := abs_lt.mp hlam
  have hradius : 0 < wgs84.radius φ h :=
    mul_pos (hout.radius_pos φ) (Real.cos_pos_of_mem_Ioo ⟨hlo, hhi⟩)
  have hdepth : 0 < wgs84.depth φ h := wgs84.e_pos.trans (hout.lt_depth φ)
  have hscaled : 0 < wgs84.normal φ * wgs84.depth φ h := mul_pos (wgs84.normal_pos φ) hdepth
  have hlat : 2 * atan2 (wgs84.elevation φ h)
      (wgs84.normal φ * wgs84.depth φ h * Real.cos φ + wgs84.normal φ * wgs84.depth φ h) = φ := by
    rw [wgs84.elevation_eq]
    exact two_mul_atan2 hscaled (by linarith only [hlo, Real.pi_pos])
      (by linarith only [hhi, Real.pi_pos])
  have hlon : 2 * atan2 (wgs84.radius φ h * Real.sin lam)
      (wgs84.radius φ h * Real.cos lam + wgs84.radius φ h) = lam :=
    two_mul_atan2 hradius hwest heast
  have halt : (wgs84.depth φ h + e2 - 1) * (wgs84.normal φ * wgs84.depth φ h) /
      wgs84.depth φ h = h := by
    have hsum : wgs84.normal φ * wgs84.depth φ h = wgs84.normal φ * (1 - e2) + h :=
      wgs84.normal_mul_depth φ h
    field_simp
    linear_combination hsum
  unfold sgCartToGeod
  dsimp only
  rw [place_xx_add_yy]
  unfold place
  dsimp only
  rw [Real.sqrt_sq hradius.le, k_place hout, d_place hout, sqrtDdPzz_place hout, two_eq, hlat, hlon,
    halt]

/-- Six thousand kilometres under the ellipsoid is still far from its centre. -/
theorem outside_of_le (h : ℝ) (hh : -6000000 ≤ h) : wgs84.Outside h := by
  have hbound : equrad * e2 < equrad * (1 - e2) + -6000000 := by
    norm_num [equrad, e2, squash, abs_of_pos]
  exact hbound.trans_le (add_le_add_right hh _)

end

/-- A position comes back from the direct method, up to the constants that degrees and feet are
converted with there and back. -/
theorem sgCartToGeod_geodtocart (meterToFeet lat lon hgt : ℝ)
    (hlat : |degrees2Radians * lat| < Real.pi / 2) (hlon : |degrees2Radians * lon| < Real.pi)
    (hhgt : -6000000 ≤ hgt / 3.2808399) :
    sgCartToGeod meterToFeet (geodtocart lat lon hgt) =
      { lat := degrees2Radians * sgRadiansToDegrees * lat
        lon := degrees2Radians * sgRadiansToDegrees * lon
        alt := meterToFeet / 3.2808399 * hgt } := by
  rw [geodtocart_eq, sgCartToGeod_place meterToFeet hlat hlon (outside_of_le _ hhgt)]
  ext
  · ring
  · ring
  · ring

theorem sgCartToGeod_geodtocart_halfway :
    sgCartToGeod 3.28083989501312335958 (geodtocart 45 (-90) 1000) =
      { lat := degrees2Radians * sgRadiansToDegrees * 45
        lon := degrees2Radians * sgRadiansToDegrees * -90
        alt := 3.28083989501312335958 / 3.2808399 * 1000 } := by
  have hpi := Real.pi_gt_three
  refine sgCartToGeod_geodtocart _ _ _ _ ?_ ?_ ?_
  · have hle : |degrees2Radians * 45| < 3 / 2 := by
      norm_num [degrees2Radians, myPi, abs_lt]
    linarith only [hle, hpi]
  · have hle : |degrees2Radians * -90| < 3 := by
      norm_num [degrees2Radians, myPi, abs_lt]
    linarith only [hle, hpi]
  · norm_num

end TcpTests.FgGeometry

end
