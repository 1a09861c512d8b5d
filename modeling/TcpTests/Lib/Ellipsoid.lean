import TcpTests.Lib.Atan2

/-! Points over an ellipsoid of revolution by geodetic latitude and height, and what two ways
back to the latitude rest on: the quartic of the meridian, and the reduced latitude. -/
noncomputable section
namespace Lib

/-- An equatorial radius, and the square of an eccentricity that is far from that of a disc. -/
structure Ellipsoid where
  a : ℝ
  e : ℝ
  a_pos : 0 < a
  e_pos : 0 < e
  e_lt : e < 1 / 2

namespace Ellipsoid
variable (E : Ellipsoid) {φ h : ℝ}

/-- The square of the norm of the normal, for the sphere that the ellipsoid is squeezed from. -/
def squeeze (φ : ℝ) : ℝ := 1 - E.e * Real.sin φ ^ 2

/-- The radius of curvature in the prime vertical. -/
def normal (φ : ℝ) : ℝ := E.a / √(E.squeeze φ)

def radius (φ h : ℝ) : ℝ := (E.normal φ + h) * Real.cos φ

def elevation (φ h : ℝ) : ℝ := (E.normal φ * (1 - E.e) + h) * Real.sin φ

theorem squeeze_pos (φ : ℝ) : 0 < E.squeeze φ := by
  have hsin := Real.sin_sq_le_one φ
  unfold squeeze
  nlinarith only [hsin, E.e_pos, E.e_lt, sq_nonneg (Real.sin φ)]

theorem squeeze_le_one (φ : ℝ) : E.squeeze φ ≤ 1 := by
  have hmul : 0 ≤ E.e * Real.sin φ ^ 2 := mul_nonneg E.e_pos.le (sq_nonneg _)
  unfold squeeze
  linarith only [hmul]

theorem normal_pos (φ : ℝ) : 0 < E.normal φ :=
  div_pos E.a_pos (Real.sqrt_pos.mpr (E.squeeze_pos φ))

theorem le_normal (φ : ℝ) : E.a ≤ E.normal φ := by
  have hroot : √(E.squeeze φ) ≤ 1 := Real.sqrt_le_one.mpr (E.squeeze_le_one φ)
  exact le_div_self E.a_pos.le (Real.sqrt_pos.mpr (E.squeeze_pos φ)) hroot

theorem normal_sq_mul (φ : ℝ) : E.normal φ ^ 2 * E.squeeze φ = E.a ^ 2 := by
  have hpos := E.squeeze_pos φ
  rw [normal, div_pow, Real.sq_sqrt hpos.le]
  field_simp

/-- The height lies over the bends of the meridian. -/
def Outside (h : ℝ) : Prop := E.a * E.e < E.a * (1 - E.e) + h

variable {E}

theorem Outside.normal (hout : E.Outside h) (φ : ℝ) :
    E.normal φ * E.e < E.normal φ * (1 - E.e) + h := by
  have hle := E.le_normal φ
  have hscale : E.a * (1 - 2 * E.e) ≤ E.normal φ * (1 - 2 * E.e) :=
    mul_le_mul_of_nonneg_right hle (by linarith only [E.e_lt])
  unfold Outside at hout
  linarith only [hout, hscale]

theorem Outside.elevation_pos (hout : E.Outside h) (φ : ℝ) :
    0 < E.normal φ * (1 - E.e) + h :=
  (mul_pos (E.normal_pos φ) E.e_pos).trans (hout.normal φ)

theorem Outside.radius_pos (hout : E.Outside h) (φ : ℝ) : 0 < E.normal φ + h := by
  have hpos := hout.elevation_pos φ
  have hmul := mul_pos (E.normal_pos φ) E.e_pos
  linarith only [hpos, hmul]

end Ellipsoid

section quartic
variable {e p q r s t u v w k k' : ℝ}

/-- A number and its inverse, where the number is the cube root of the larger solution of
`c * c - 2 * (1 + s) * c + 1 = 0`. -/
theorem cubic_of_root (hs : 0 ≤ s) (ht : t ^ 3 = 1 + s + √(s * (2 + s))) :
    (t + 1 / t) ^ 3 - 3 * (t + 1 / t) = 2 + 2 * s := by
  have hroot : √(s * (2 + s)) ^ 2 = s * (2 + s) := Real.sq_sqrt (by positivity)
  have hcube : t ^ 3 ≠ 0 := by
    rw [ht]
    positivity
  have hne : t ≠ 0 := by
    intro h
    exact hcube (by rw [h]; norm_num)
  have hsquare : t ^ 3 * t ^ 3 - 2 * (1 + s) * t ^ 3 + 1 = 0 := by
    rw [ht]
    linear_combination hroot
  have hsplit : (t + 1 / t) ^ 3 - 3 * (t + 1 / t) = t ^ 3 + 1 / t ^ 3 := by
    field_simp
    ring
  have hinv : t ^ 3 + 1 / t ^ 3 = 2 + 2 * s := by
    field_simp
    linear_combination hsquare
  rw [hsplit, hinv]

/-- The quartic whose positive solution places a point on its meridian. -/
def quartic (e p q k : ℝ) : ℝ := k ^ 2 * (k + e) ^ 2 - p * k ^ 2 - q * (k + e) ^ 2

/-- It is a product of quadratics, by a solution of the resolvent cubic. -/
theorem quartic_eq_mul (hr : 6 * r = p + q - e ^ 2)
    (hu : 2 * (u ^ 2 * (u - 3 * r)) = e ^ 2 * p * q) (hv : v ^ 2 = u ^ 2 + e ^ 2 * q)
    (hv0 : v ≠ 0) (hw : w = e * (u + v - q) / (2 * v)) :
    quartic e p q k =
      (k ^ 2 + 2 * w * k - (u + v)) * (k ^ 2 + 2 * (e - w) * k - (u - v)) := by
  have hvw : 2 * v * w = e * (u + v - q) := by
    rw [hw]
    field_simp
  -- The coefficient of the square is the only one that needs the cubic.
  have hcoef : 4 * w * (e - w) = 2 * u - 6 * r := by
    have hsq : v ^ 2 * (4 * w * (e - w)) = v ^ 2 * (2 * u - 6 * r) := by
      have hprod : v ^ 2 * (4 * w * (e - w)) = e ^ 2 * (v ^ 2 - (q - u) ^ 2) := by
        linear_combination (2 * e * v - 2 * v * w - e * (u + v - q)) * hvw
      rw [hprod]
      linear_combination (e ^ 2 - (2 * u - 6 * r)) * hv - hu + e ^ 2 * q * hr
    exact mul_left_cancel₀ (pow_ne_zero 2 hv0) hsq
  unfold quartic
  linear_combination (-k ^ 2) * hcoef + (k ^ 2) * hr - 2 * k * hvw + hv

/-- The meridian ellipse through a point, as an equation for the quartic's variable. -/
theorem quartic_eq_zero_iff (hk : 0 < k) (he : 0 < e) :
    quartic e p q k = 0 ↔ p / (k + e) ^ 2 + q / k ^ 2 = 1 := by
  have hke : k + e ≠ 0 := by positivity
  rw [div_add_div _ _ (pow_ne_zero 2 hke) (pow_ne_zero 2 hk.ne'),
    div_eq_one_iff_eq (by positivity)]
  unfold quartic
  constructor
  · intro h
    linear_combination -h
  · intro h
    linear_combination -h

theorem meridian_lt (hk : 0 < k) (hlt : k < k') (he : 0 < e) (hp : 0 ≤ p) (hq : 0 ≤ q)
    (hpq : 0 < p + q) :
    p / (k' + e) ^ 2 + q / k' ^ 2 < p / (k + e) ^ 2 + q / k ^ 2 := by
  have hk' := hk.trans hlt
  have hple : p / (k' + e) ^ 2 ≤ p / (k + e) ^ 2 := by gcongr
  have hqle : q / k' ^ 2 ≤ q / k ^ 2 := by gcongr
  rcases hp.eq_or_lt with hzero | hpos
  · have hqpos : 0 < q := by linarith only [hpq, hzero]
    have hqlt : q / k' ^ 2 < q / k ^ 2 := by gcongr
    linarith only [hple, hqlt]
  · have hplt : p / (k' + e) ^ 2 < p / (k + e) ^ 2 := by gcongr
    linarith only [hplt, hqle]

theorem quartic_unique (hk : 0 < k) (hk' : 0 < k') (he : 0 < e) (hp : 0 ≤ p) (hq : 0 ≤ q)
    (hpq : 0 < p + q) (h : quartic e p q k = 0) (h' : quartic e p q k' = 0) : k = k' := by
  rw [quartic_eq_zero_iff hk he] at h
  rw [quartic_eq_zero_iff hk' he] at h'
  rcases lt_trichotomy k k' with hlt | heq | hgt
  · exact absurd (h'.trans h.symm) (meridian_lt hk hlt he hp hq hpq).ne
  · exact heq
  · exact absurd (h.trans h'.symm) (meridian_lt hk' hgt he hp hq hpq).ne

end quartic

namespace Ellipsoid
variable (E : Ellipsoid) {φ h : ℝ}

/-- The solution of the quartic for a point at a latitude and a height. -/
def depth (φ h : ℝ) : ℝ := 1 - E.e + h / E.normal φ

theorem normal_mul_depth (φ h : ℝ) :
    E.normal φ * E.depth φ h = E.normal φ * (1 - E.e) + h := by
  have hne := (E.normal_pos φ).ne'
  unfold depth
  field_simp

theorem radius_eq (φ h : ℝ) :
    E.radius φ h = E.normal φ * (E.depth φ h + E.e) * Real.cos φ := by
  rw [mul_add, normal_mul_depth, radius]
  ring

theorem elevation_eq (φ h : ℝ) :
    E.elevation φ h = E.normal φ * E.depth φ h * Real.sin φ := by
  rw [normal_mul_depth, elevation]

variable {E}

theorem Outside.lt_depth (hout : E.Outside h) (φ : ℝ) : E.e < E.depth φ h := by
  have hlt := hout.normal φ
  rw [← E.normal_mul_depth] at hlt
  exact lt_of_mul_lt_mul_left hlt (E.normal_pos φ).le

theorem Outside.meridian (hout : E.Outside h) (φ : ℝ) :
    E.radius φ h ^ 2 / E.a ^ 2 / (E.depth φ h + E.e) ^ 2 +
      (1 - E.e) * E.elevation φ h ^ 2 / E.a ^ 2 / E.depth φ h ^ 2 = 1 := by
  have hdepth : 0 < E.depth φ h := E.e_pos.trans (hout.lt_depth φ)
  have hshift : E.depth φ h + E.e ≠ 0 := (add_pos hdepth E.e_pos).ne'
  have hunit : E.normal φ ^ 2 * (Real.cos φ ^ 2 + (1 - E.e) * Real.sin φ ^ 2) = E.a ^ 2 := by
    rw [← E.normal_sq_mul φ, squeeze, Real.cos_sq']
    ring
  have ha : E.a ≠ 0 := E.a_pos.ne'
  rw [radius_eq, elevation_eq]
  field_simp
  linear_combination hunit

theorem Outside.quartic_depth (hout : E.Outside h) (φ : ℝ) :
    quartic E.e (E.radius φ h ^ 2 / E.a ^ 2) ((1 - E.e) * E.elevation φ h ^ 2 / E.a ^ 2)
      (E.depth φ h) = 0 :=
  (quartic_eq_zero_iff (E.e_pos.trans (hout.lt_depth φ)) E.e_pos).mpr (hout.meridian φ)

theorem Outside.sq_lt_add (hout : E.Outside h) (φ : ℝ) :
    E.e ^ 2 < E.radius φ h ^ 2 / E.a ^ 2 + (1 - E.e) * E.elevation φ h ^ 2 / E.a ^ 2 := by
  have hlt := hout.lt_depth φ
  have hdepth : 0 < E.depth φ h := E.e_pos.trans hlt
  have hrest : 0 < 1 - E.e := by linarith only [E.e_lt]
  have hp : 0 ≤ E.radius φ h ^ 2 / E.a ^ 2 := by positivity
  have hq : 0 ≤ (1 - E.e) * E.elevation φ h ^ 2 / E.a ^ 2 := by positivity
  have hshift : E.radius φ h ^ 2 / E.a ^ 2 / (E.depth φ h + E.e) ^ 2 ≤
      E.radius φ h ^ 2 / E.a ^ 2 / E.depth φ h ^ 2 := by
    have := E.e_pos
    gcongr
    linarith only [this]
  have hone := hout.meridian φ
  have hsum : 1 ≤ (E.radius φ h ^ 2 / E.a ^ 2 +
      (1 - E.e) * E.elevation φ h ^ 2 / E.a ^ 2) / E.depth φ h ^ 2 := by
    rw [add_div]
    linarith only [hone, hshift]
  have hle := (one_le_div (pow_pos hdepth 2)).mp hsum
  have hsq : E.e ^ 2 < E.depth φ h ^ 2 := pow_lt_pow_left₀ hlt E.e_pos.le two_ne_zero
  linarith only [hle, hsq]

end Ellipsoid

section
variable {c θ : ℝ}

/-- An angle from its half, the half turn left out. -/
theorem two_mul_atan2 (hc : 0 < c) (hlo : -Real.pi < θ) (hhi : θ < Real.pi) :
    2 * atan2 (c * Real.sin θ) (c * Real.cos θ + c) = θ := by
  have hcos : 0 < Real.cos (θ / 2) :=
    Real.cos_pos_of_mem_Ioo ⟨by linarith only [hlo], by linarith only [hhi]⟩
  have htwo : θ = 2 * (θ / 2) := by ring
  have hsin : c * Real.sin θ = 2 * c * Real.cos (θ / 2) * Real.sin (θ / 2) := by
    rw [htwo, Real.sin_two_mul, ← htwo]
    ring
  have hadd : c * Real.cos θ + c = 2 * c * Real.cos (θ / 2) * Real.cos (θ / 2) := by
    rw [htwo, Real.cos_two_mul, ← htwo]
    ring
  rw [hsin, hadd, atan2_polar (by positivity) (by linarith only [hlo, Real.pi_pos])
    (by linarith only [hhi, Real.pi_pos])]
  ring

end

end Lib

end
