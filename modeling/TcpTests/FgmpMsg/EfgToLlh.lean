import TcpTests.FgGeometry.CartToGeod
import TcpTests.Lib.ReducedLatitude

/-! The conversions of `fgmp_msg` between earth fixed coordinates and latitude, longitude and
height, in radians and metres. -/
noncomputable section
namespace TcpTests.FgmpMsg
open Lib

def majAxis : ℝ := 6378137.0

def invFlat : ℝ := 298.257223563

def geoB (a f : ℝ) : ℝ := a * (1.0 - 1.0 / f)

def geoFl (f : ℝ) : ℝ := 1.0 / f

def geoE2 (a f : ℝ) : ℝ := (a * a - geoB a f * geoB a f) / (a * a)

def geoE2p (a f : ℝ) : ℝ := (a * a - geoB a f * geoB a f) / (geoB a f * geoB a f)

/-- The coordinates E, F and G are those of the vector. -/
def geoLlh2Efg (lat lon height : ℝ) : Vec3 :=
  let a := majAxis
  let e2 := geoE2 majAxis invFlat
  let n := a / √(1.0 - e2 * Real.sin lat ^ 2)
  ⟨(n + height) * Real.cos lat * Real.cos lon, (n + height) * Real.cos lat * Real.sin lon,
    (n * (1.0 - e2) + height) * Real.sin lat⟩

@[ext] structure Llh where
  lat : ℝ
  lon : ℝ
  hgt : ℝ

def geoEfg2Llh (efg : Vec3) : Llh :=
  let a := majAxis
  let flat := geoFl invFlat
  let b := geoB majAxis invFlat
  let e2 := geoE2 majAxis invFlat
  let ee2 := geoE2p majAxis invFlat
  let p := √(efg.x ^ 2 + efg.y ^ 2)
  let u := atan2 (efg.z * a) (p * b)
  let lat := Real.arctan ((efg.z + ee2 * b * Real.sin u ^ 3) / (p - e2 * a * Real.cos u ^ 3))
  let uPrime := Real.arctan ((1.0 - flat) * Real.tan lat)
  let sign : ℝ := if p - a * Real.cos uPrime < 0.0 then -1.0 else 1.0
  { lat := lat
    hgt := sign * √((p - a * Real.cos uPrime) ^ 2 + (efg.z - b * Real.sin uPrime) ^ 2)
    lon := atan2 efg.y efg.x }

theorem geoE2_pos : 0 < geoE2 majAxis invFlat := by norm_num [geoE2, geoB, majAxis, invFlat]

theorem geoE2_lt : geoE2 majAxis invFlat < 1 / 2 := by norm_num [geoE2, geoB, majAxis, invFlat]

def flattened : Ellipsoid where
  a := majAxis
  e := geoE2 majAxis invFlat
  a_pos := by norm_num [majAxis]
  e_pos := geoE2_pos
  e_lt := geoE2_lt

theorem ratio_flattened : flattened.ratio = 1.0 - geoFl invFlat := by
  have hsq : 1 - flattened.e = (1.0 - geoFl invFlat) ^ 2 := by
    norm_num [flattened, geoE2, geoB, geoFl, majAxis, invFlat]
  have hnonneg : 0 ≤ 1.0 - geoFl invFlat := by
    norm_num [geoFl, invFlat]
  rw [Ellipsoid.ratio, hsq, Real.sqrt_sq hnonneg]

theorem polar_flattened : flattened.polar = geoB majAxis invFlat := by
  rw [Ellipsoid.polar, ratio_flattened]
  rfl

/-- The other square of the eccentricity is relative to the polar axis. -/
theorem geoE2p_mul_geoB : geoE2p majAxis invFlat * geoB majAxis invFlat =
    flattened.e * flattened.a ^ 2 / flattened.polar := by
  rw [polar_flattened]
  change _ = geoE2 majAxis invFlat * majAxis ^ 2 / _
  norm_num [geoE2p, geoE2, geoB, majAxis, invFlat]

theorem geoLlh2Efg_eq (lat lon height : ℝ) :
    geoLlh2Efg lat lon height =
      ⟨flattened.radius lat height * Real.cos lon, flattened.radius lat height * Real.sin lon,
        flattened.elevation lat height⟩ := by
  have hone : (1.0 : ℝ) = 1 := by norm_num
  unfold geoLlh2Efg
  rw [hone]
  rfl

section
variable {lat lon h : ℝ}

theorem flattened_outside (hh : -6000000 ≤ h) : flattened.Outside h := by
  have hbound : majAxis * geoE2 majAxis invFlat <
      majAxis * (1 - geoE2 majAxis invFlat) + -6000000 := by
    norm_num [geoE2, geoB, majAxis, invFlat]
  exact hbound.trans_le (add_le_add_right hh _)

theorem geoEfg2Llh_place (hlat : |lat| < Real.pi / 2) (hout : flattened.Outside h) :
    geoEfg2Llh (geoLlh2Efg lat lon h) =
      let lat' := Real.arctan ((flattened.elevation lat h +
        flattened.e * flattened.a ^ 2 / flattened.polar *
          Real.sin (flattened.parametric lat h) ^ 3) /
        (flattened.radius lat h -
          flattened.e * flattened.a * Real.cos (flattened.parametric lat h) ^ 3))
      let across := flattened.radius lat h - flattened.a * Real.cos (flattened.reduced lat')
      let up := flattened.elevation lat h - flattened.polar * Real.sin (flattened.reduced lat')
      { lat := lat'
        hgt := (if across < 0 then -1 else 1) * √(across ^ 2 + up ^ 2)
        lon := atan2 (flattened.radius lat h * Real.sin lon)
          (flattened.radius lat h * Real.cos lon) } := by
  have hsq : (flattened.radius lat h * Real.cos lon) ^ 2 +
      (flattened.radius lat h * Real.sin lon) ^ 2 = flattened.radius lat h ^ 2 := by
    linear_combination flattened.radius lat h ^ 2 * Real.sin_sq_add_cos_sq lon
  have hone : (1.0 : ℝ) = 1 := by norm_num
  have hminus : (-1.0 : ℝ) = -1 := by norm_num
  have hzero : (0.0 : ℝ) = 0 := by norm_num
  rw [geoLlh2Efg_eq, geoEfg2Llh]
  dsimp only
  rw [hsq, Real.sqrt_sq (Ellipsoid.radius_pos hout hlat).le, geoE2p_mul_geoB, ← ratio_flattened,
    ← polar_flattened, hzero, hminus, hone]
  rfl

theorem hgt_place (hlat : |lat| < Real.pi / 2) :
    (if flattened.radius lat h - flattened.a * Real.cos (flattened.reduced lat) < 0
      then (-1 : ℝ) else 1) *
        √((flattened.radius lat h - flattened.a * Real.cos (flattened.reduced lat)) ^ 2 +
          (flattened.elevation lat h -
            flattened.polar * Real.sin (flattened.reduced lat)) ^ 2) = h := by
  have hcos := Ellipsoid.cos_pos hlat
  have hacross : flattened.radius lat h - flattened.a * Real.cos (flattened.reduced lat) =
      h * Real.cos lat := by
    rw [flattened.a_mul_cos_reduced hlat, Ellipsoid.radius]
    ring
  have hup : flattened.elevation lat h - flattened.polar * Real.sin (flattened.reduced lat) =
      h * Real.sin lat := by
    rw [flattened.polar_mul_sin_reduced hlat, Ellipsoid.elevation]
    ring
  have hsq : (h * Real.cos lat) ^ 2 + (h * Real.sin lat) ^ 2 = h ^ 2 := by
    linear_combination h ^ 2 * Real.sin_sq_add_cos_sq lat
  rw [hacross, hup, hsq, Real.sqrt_sq_eq_abs]
  by_cases hneg : h < 0
  · rw [if_pos (mul_neg_of_neg_of_pos hneg hcos), abs_of_neg hneg]
    ring
  · have hnonneg : 0 ≤ h := not_lt.mp hneg
    rw [if_neg (not_lt.mpr (mul_nonneg hnonneg hcos.le)), abs_of_nonneg hnonneg, one_mul]

end

/-- The longitude comes back from the coordinates, and the latitude and the height too on the
ellipsoid and over the equator, but nowhere else. -/
theorem geoEfg2Llh_geoLlh2Efg (lat lon height : ℝ) (hlat : |lat| < Real.pi / 2)
    (hwest : -Real.pi < lon) (heast : lon ≤ Real.pi) (hheight : -6000000 ≤ height) :
    (geoEfg2Llh (geoLlh2Efg lat lon height)).lon = lon ∧
      (geoEfg2Llh (geoLlh2Efg lat lon height) = ⟨lat, lon, height⟩ ↔ height = 0 ∨ lat = 0) := by
  have hout := flattened_outside hheight
  have hlon : atan2 (flattened.radius lat height * Real.sin lon)
      (flattened.radius lat height * Real.cos lon) = lon :=
    atan2_polar (Ellipsoid.radius_pos hout hlat) hwest heast
  have hstep := Ellipsoid.arctan_step_eq_iff hout hlat
  rw [geoEfg2Llh_place hlat hout]
  refine ⟨hlon, ?_⟩
  rw [← hstep]
  constructor
  · intro heq
    exact congrArg Llh.lat heq
  · intro heq
    dsimp only
    rw [heq, hlon, hgt_place hlat]

theorem geoEfg2Llh_geoLlh2Efg_northeast :
    (geoEfg2Llh (geoLlh2Efg 1 2 1000)).lon = 2 ∧
      geoEfg2Llh (geoLlh2Efg 1 2 1000) ≠ ⟨1, 2, 1000⟩ := by
  have hpi := Real.pi_gt_three
  have hnot : ¬ ((1000 : ℝ) = 0 ∨ (1 : ℝ) = 0) := by norm_num
  refine (geoEfg2Llh_geoLlh2Efg 1 2 1000 ?_ ?_ ?_ ?_).imp_right fun hiff heq => hnot (hiff.mp heq)
  · rw [abs_one]
    linarith only [hpi]
  · linarith only [hpi]
  · linarith only [hpi]
  · norm_num

end TcpTests.FgmpMsg

end
