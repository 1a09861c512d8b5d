import TcpTests.FgmpMsg.EfgToLlh

/-! The three ways to earth centred coordinates, `sgGeodToCart` of `fg_geometry` and `geodtocart`
and `_geoLlh2Efg` of `fgmp_msg`, each with its own constants, in exact arithmetic. -/
noncomputable section
namespace TcpTests.FgGeometry
open Lib FgmpMsg

def stretch : ℝ := 1.0033640898209764189003079

def polrad : ℝ := 6356752.3142451794975639668

/-- The distances from the axis and from the equator of the surface point with this normal. -/
def surfRZ (upr upz : ℝ) : ℝ × ℝ :=
  let r := upr * stretch
  let z := upz * squash
  let sr := r * squash
  let c := polrad / √(sr * sr + z * z)
  (r * c, z * c)

/-- Radians and metres. -/
def sgGeodToCart (lat lon alt : ℝ) : Vec3 :=
  let upr := Real.cos lat
  let upz := Real.sin lat
  let s := surfRZ upr upz
  let r := s.1 + upr * alt
  let z := s.2 + upz * alt
  ⟨r * Real.cos lon, r * Real.sin lon, z⟩

section
variable {a b m x y φ : ℝ}

theorem abs_inv_sqrt_sub_le (hm : 0 < m) (ha : m ^ 2 ≤ a) (hb : m ^ 2 ≤ b) :
    |1 / √a - 1 / √b| ≤ |a - b| / (2 * m ^ 3) := by
  have hma : m ≤ √a := Real.le_sqrt_of_sq_le ha
  have hmb : m ≤ √b := Real.le_sqrt_of_sq_le hb
  have hpa : 0 < √a := hm.trans_le hma
  have hpb : 0 < √b := hm.trans_le hmb
  have hsa : √a ^ 2 = a := Real.sq_sqrt ((sq_nonneg m).trans ha)
  have hsb : √b ^ 2 = b := Real.sq_sqrt ((sq_nonneg m).trans hb)
  have hsplit : 1 / √a - 1 / √b = (√b ^ 2 - √a ^ 2) / (√a * √b * (√a + √b)) := by
    field_simp
    ring
  have hden : 2 * m ^ 3 ≤ √a * √b * (√a + √b) := by
    calc 2 * m ^ 3 = m * m * (m + m) := by ring
      _ ≤ √a * √b * (√a + √b) := by gcongr
  rw [hsplit, hsa, hsb, abs_div, abs_of_pos (by positivity : 0 < √a * √b * (√a + √b)), abs_sub_comm]
  exact div_le_div_of_nonneg_left (abs_nonneg _) (by positivity) hden

theorem abs_mul_le (hx : |x| ≤ a) (hy : |y| ≤ 1) : |x * y| ≤ a := by
  rw [abs_mul]
  exact (mul_le_of_le_one_right (abs_nonneg _) hy).trans hx

def stretched (φ : ℝ) : ℝ :=
  Real.cos φ * stretch * squash * (Real.cos φ * stretch * squash) +
    Real.sin φ * squash * (Real.sin φ * squash)

theorem e2_eq : e2 = 1 - squash * squash := abs_of_pos (by norm_num [squash])

theorem squeeze_eq (φ : ℝ) :
    wgs84.squeeze φ = Real.cos φ ^ 2 + squash ^ 2 * Real.sin φ ^ 2 := by
  have hsqueeze : wgs84.squeeze φ = 1 - e2 * Real.sin φ ^ 2 := rfl
  rw [hsqueeze, e2_eq]
  linear_combination -Real.sin_sq_add_cos_sq φ

theorem sq_le_squeeze (φ : ℝ) : squash ^ 2 ≤ wgs84.squeeze φ := by
  have hone : squash ^ 2 ≤ 1 := by norm_num [squash]
  rw [squeeze_eq]
  nlinarith only [hone, Real.sin_sq_add_cos_sq φ, sq_nonneg (Real.cos φ)]

/-- A number that is as good as the square that the radius of curvature is made with. -/
def NearSqueeze (φ x : ℝ) : Prop := |x - wgs84.squeeze φ| ≤ 2e-25

/-- The product of the two constants is next to one. -/
theorem nearSqueeze_stretched (φ : ℝ) : NearSqueeze φ (stretched φ) := by
  have hsub : stretched φ - wgs84.squeeze φ =
      ((stretch * squash) ^ 2 - 1) * Real.cos φ ^ 2 := by
    rw [squeeze_eq, stretched]
    ring
  have hconst : |(stretch * squash) ^ 2 - 1| ≤ 2e-25 := by
    rw [abs_le]
    norm_num [stretch, squash]
  rw [NearSqueeze, hsub, abs_mul, abs_of_nonneg (sq_nonneg (Real.cos φ))]
  exact (mul_le_of_le_one_right (abs_nonneg _) (Real.cos_sq_le_one φ)).trans hconst

/-- The flattening gives the same ellipsoid as the squash factor, nearly. -/
theorem nearSqueeze_flattened (φ : ℝ) : NearSqueeze φ (flattened.squeeze φ) := by
  have hsub : flattened.squeeze φ - wgs84.squeeze φ =
      (e2 - geoE2 majAxis invFlat) * Real.sin φ ^ 2 := by
    change 1 - geoE2 majAxis invFlat * _ - (1 - e2 * _) = _
    ring
  have hconst : |e2 - geoE2 majAxis invFlat| ≤ 2e-25 := by
    rw [e2_eq, abs_le]
    norm_num [squash, geoE2, geoB, majAxis, invFlat]
  rw [NearSqueeze, hsub, abs_mul, abs_of_nonneg (sq_nonneg (Real.sin φ))]
  exact (mul_le_of_le_one_right (abs_nonneg _) (Real.sin_sq_le_one φ)).trans hconst

theorem NearSqueeze.abs_inv_sub_le (hx : NearSqueeze φ x) :
    |1 / √x - 1 / √(wgs84.squeeze φ)| ≤ 1 / 10 ^ 24 := by
  have hsqueeze : (1 / 2 : ℝ) ^ 2 + 2e-25 ≤ wgs84.squeeze φ := by
    have hle : (1 / 2 : ℝ) ^ 2 + 2e-25 ≤ squash ^ 2 := by norm_num [squash]
    exact hle.trans (sq_le_squeeze φ)
  have hquarter : (1 / 2 : ℝ) ^ 2 ≤ x := by
    linarith only [(abs_le.mp hx).1, hsqueeze]
  have hinv := abs_inv_sqrt_sub_le (by norm_num : (0 : ℝ) < 1 / 2) hquarter
    (le_trans (by norm_num) hsqueeze)
  refine hinv.trans ?_
  rw [div_le_iff₀ (by norm_num)]
  exact le_trans hx (by norm_num)

theorem NearSqueeze.inv_le (hx : NearSqueeze φ x) : 1 / √x ≤ 2 := by
  have hsqueeze : 1 / √(wgs84.squeeze φ) ≤ 1 / squash :=
    one_div_le_one_div_of_le (by norm_num [squash])
      (Real.le_sqrt_of_sq_le (sq_le_squeeze φ))
  have hsquash : 1 / squash ≤ 3 / 2 := by norm_num [squash]
  have hnear := (abs_le.mp hx.abs_inv_sub_le).2
  have hsmall : (1 : ℝ) / 10 ^ 24 ≤ 1 / 2 := by norm_num
  linarith only [hsqueeze, hsquash, hnear, hsmall]

theorem NearSqueeze.abs_sub_le (hx : NearSqueeze φ x) (hab : |a - b| ≤ 1 / 10 ^ 18)
    (hb : |b| ≤ 7 * 10 ^ 6) (hy : |y| ≤ 1) :
    |(a * (1 / √x) - b * (1 / √(wgs84.squeeze φ))) * y| ≤ 1 / 10 ^ 17 := by
  have hpos : 0 ≤ 1 / √x := by positivity
  have hsplit : a * (1 / √x) - b * (1 / √(wgs84.squeeze φ)) =
      (a - b) * (1 / √x) + b * (1 / √x - 1 / √(wgs84.squeeze φ)) := by ring
  have hfirst : |(a - b) * (1 / √x)| ≤ 1 / 10 ^ 18 * 2 := by
    rw [abs_mul, abs_of_nonneg hpos]
    exact mul_le_mul hab hx.inv_le hpos (by norm_num)
  have hsecond : |b * (1 / √x - 1 / √(wgs84.squeeze φ))| ≤ 7 * 10 ^ 6 * (1 / 10 ^ 24) := by
    rw [abs_mul]
    exact mul_le_mul hb hx.abs_inv_sub_le (abs_nonneg _) (by norm_num)
  rw [hsplit]
  refine abs_mul_le ((abs_add_le _ _).trans ((add_le_add hfirst hsecond).trans ?_)) hy
  norm_num

end

/-- In each coordinate. -/
structure Near (δ : ℝ) (u v : Vec3) : Prop where
  x : |u.x - v.x| ≤ δ
  y : |u.y - v.y| ≤ δ
  z : |u.z - v.z| ≤ δ

theorem Near.both {δ ε : ℝ} {u v w : Vec3} (hu : Near δ u w) (hv : Near ε v w) :
    Near (δ + ε) u v := by
  have hsplit : ∀ {a b c : ℝ}, |a - c| ≤ δ → |b - c| ≤ ε → |a - b| ≤ δ + ε := by
    intro a b c ha hb
    rw [abs_sub_comm] at hb
    exact (abs_sub_le a c b).trans (add_le_add ha hb)
  exact ⟨hsplit hu.x hv.x, hsplit hu.y hv.y, hsplit hu.z hv.z⟩

section
variable {φ lam h r z δ : ℝ}

theorem near_place (hr : |r - wgs84.radius φ h| ≤ δ) (hz : |z - wgs84.elevation φ h| ≤ δ) :
    Near δ ⟨r * Real.cos lam, r * Real.sin lam, z⟩ (place φ lam h) where
  x := by
    rw [place, ← sub_mul]
    exact abs_mul_le hr (Real.abs_cos_le_one _)
  y := by
    rw [place, ← sub_mul]
    exact abs_mul_le hr (Real.abs_sin_le_one _)
  z := hz

theorem sgGeodToCart_near (φ lam h : ℝ) :
    Near (1 / 10 ^ 17) (sgGeodToCart φ lam h) (place φ lam h) := by
  have hx := nearSqueeze_stretched φ
  refine near_place ?_ ?_
  · have hsplit : (surfRZ (Real.cos φ) (Real.sin φ)).1 + Real.cos φ * h - wgs84.radius φ h =
        (polrad * stretch * (1 / √(stretched φ)) - equrad * (1 / √(wgs84.squeeze φ))) *
          Real.cos φ := by
      change Real.cos φ * stretch * (polrad / √(stretched φ)) + Real.cos φ * h -
        (equrad / √(wgs84.squeeze φ) + h) * Real.cos φ = _
      ring
    have hconst : |polrad * stretch - equrad| ≤ 1 / 10 ^ 18 := by
      rw [abs_le]
      norm_num [polrad, stretch, equrad]
    rw [hsplit]
    exact hx.abs_sub_le hconst (by norm_num [equrad]) (Real.abs_cos_le_one φ)
  · have hsplit : (surfRZ (Real.cos φ) (Real.sin φ)).2 + Real.sin φ * h - wgs84.elevation φ h =
        (polrad * squash * (1 / √(stretched φ)) -
          equrad * (squash * squash) * (1 / √(wgs84.squeeze φ))) * Real.sin φ := by
      change Real.sin φ * squash * (polrad / √(stretched φ)) + Real.sin φ * h -
        (equrad / √(wgs84.squeeze φ) * (1 - e2) + h) * Real.sin φ = _
      rw [e2_eq]
      ring
    have hconst : |polrad * squash - equrad * (squash * squash)| ≤ 1 / 10 ^ 18 := by
      rw [abs_le]
      norm_num [polrad, squash, equrad]
    rw [hsplit]
    exact hx.abs_sub_le hconst (by norm_num [equrad, squash, abs_le]) (Real.abs_sin_le_one φ)

theorem geoLlh2Efg_near (φ lam h : ℝ) :
    Near (1 / 10 ^ 17) (geoLlh2Efg φ lam h) (place φ lam h) := by
  have hx := nearSqueeze_flattened φ
  rw [geoLlh2Efg_eq]
  refine near_place ?_ ?_
  · have hsplit : flattened.radius φ h - wgs84.radius φ h =
        (majAxis * (1 / √(flattened.squeeze φ)) - equrad * (1 / √(wgs84.squeeze φ))) *
          Real.cos φ := by
      change (majAxis / √(flattened.squeeze φ) + h) * Real.cos φ -
        (equrad / √(wgs84.squeeze φ) + h) * Real.cos φ = _
      ring
    have hconst : |majAxis - equrad| ≤ 1 / 10 ^ 18 := by
      norm_num [majAxis, equrad]
    rw [hsplit]
    exact hx.abs_sub_le hconst (by norm_num [equrad]) (Real.abs_cos_le_one φ)
  · have hsplit : flattened.elevation φ h - wgs84.elevation φ h =
        (majAxis * (1 - geoE2 majAxis invFlat) * (1 / √(flattened.squeeze φ)) -
          equrad * (squash * squash) * (1 / √(wgs84.squeeze φ))) * Real.sin φ := by
      change (majAxis / √(flattened.squeeze φ) * (1 - geoE2 majAxis invFlat) + h) * Real.sin φ -
        (equrad / √(wgs84.squeeze φ) * (1 - e2) + h) * Real.sin φ = _
      rw [e2_eq]
      ring
    have hconst : |majAxis * (1 - geoE2 majAxis invFlat) - equrad * (squash * squash)| ≤
        1 / 10 ^ 18 := by
      rw [abs_le]
      norm_num [majAxis, geoE2, geoB, invFlat, squash, equrad]
    rw [hsplit]
    exact hx.abs_sub_le hconst (by norm_num [equrad, squash, abs_le]) (Real.abs_sin_le_one φ)

end

/-- The decimals of the three functions are good for a position anywhere: what they come to is the
same to some hundredths of a femtometre. -/
theorem geodtocart_near (lat lon hgt : ℝ) :
    Near (1 / 10 ^ 17)
        (sgGeodToCart (degrees2Radians * lat) (degrees2Radians * lon) (hgt / 3.2808399))
        (geodtocart lat lon hgt) ∧
      Near (1 / 10 ^ 17)
        (geoLlh2Efg (degrees2Radians * lat) (degrees2Radians * lon) (hgt / 3.2808399))
        (geodtocart lat lon hgt) ∧
      Near (2 / 10 ^ 17)
        (sgGeodToCart (degrees2Radians * lat) (degrees2Radians * lon) (hgt / 3.2808399))
        (geoLlh2Efg (degrees2Radians * lat) (degrees2Radians * lon) (hgt / 3.2808399)) := by
  have hcart := sgGeodToCart_near (degrees2Radians * lat) (degrees2Radians * lon) (hgt / 3.2808399)
  have hefg := geoLlh2Efg_near (degrees2Radians * lat) (degrees2Radians * lon) (hgt / 3.2808399)
  have hsum : (2 : ℝ) / 10 ^ 17 = 1 / 10 ^ 17 + 1 / 10 ^ 17 := by norm_num
  rw [geodtocart_eq, hsum]
  exact ⟨hcart, hefg, hcart.both hefg⟩

end TcpTests.FgGeometry

end
