import Mathlib.Analysis.SpecialFunctions.Trigonometric.Inverse
import TcpTests.FgmpMsg.Quaternion

/-! `setOrientation` of `fgmp_msg` in exact arithmetic. The constants are those of the code, and
the functions of the mathematical library are exact. -/
namespace TcpTests.FgmpMsg
open Quat

/-- `3.1415926535f`, the nearest single. -/
noncomputable def myPi : ℝ := 13176795 / 4194304

/-- `M_PI`, the nearest double. -/
noncomputable def mPi : ℝ := 884279719003555 / 281474976710656

noncomputable def degrees2Radians : ℝ := myPi / 180.0

/-- The cosine and the sine that are taken of half an angle. -/
noncomputable def HalfAngle.of (d2 : ℝ) : HalfAngle ℝ := ⟨Real.cos d2, Real.sin d2,
  Real.cos_sq_add_sin_sq d2⟩

noncomputable def HalfAngle.degrees (degs : ℝ) : HalfAngle ℝ := .of (0.5 * degs * degrees2Radians)

noncomputable def quatFromEuler (x y z : ℝ) : Quat ℝ :=
  fromEuler (.degrees x) (.degrees y) (.degrees z)

noncomputable def quatFromLonLat (lonDegs latDegs : ℝ) : Quat ℝ :=
  fromLonLat (.degrees lonDegs) (.of (-0.25 * mPi - 0.5 * latDegs * degrees2Radians))

/-- An array of three, at the indices `c_x`, `c_y` and `c_z`. -/
@[ext] structure Vec3 where
  x : ℝ
  y : ℝ
  z : ℝ

noncomputable def nrm (q : Quat ℝ) : ℝ := √q.normSq

/-- The scalar part over the norm, of which the arc cosine is taken. -/
noncomputable def scalarPart (q : Quat ℝ) : ℝ := 1 / nrm q * q.w

noncomputable def clamp (a : ℝ) : ℝ := if a > 1.0 then 1.0 else if a < -1.0 then -1.0 else a

/-- The return value and the vector, which a quaternion of norm zero leaves as it was. -/
noncomputable def quatGetAngleAxis (q : Quat ℝ) (v : Vec3) : ℕ × Vec3 :=
  if nrm q ≤ 0.0 then (0, v)
  else
    let rNrm := 1 / nrm q
    let angle := Real.arccos (clamp (scalarPart q))
    let sAng := Real.sin angle
    (1,
      if |sAng| < 1e-16 then ⟨1.0, 0.0, 0.0⟩
      else
        let angle := angle * 2.0
        let d := rNrm / sAng * angle
        ⟨d * q.x, d * q.y, d * q.z⟩)

structure Gstruc where
  lonDegs : ℝ
  latDegs : ℝ
  pch : ℝ
  hdg : ℝ
  bnk : ℝ

noncomputable def Gstruc.q1 (g : Gstruc) : Quat ℝ := quatFromLonLat g.lonDegs g.latDegs

noncomputable def Gstruc.q2 (g : Gstruc) : Quat ℝ := quatFromEuler g.hdg g.pch g.bnk

noncomputable def Gstruc.qm (g : Gstruc) : Quat ℝ := quatMultiply g.q1 g.q2

noncomputable def setOrientation (g : Gstruc) (ornt : Vec3) : Vec3 :=
  (quatGetAngleAxis g.qm ornt).2

section
variable {q : Quat ℝ} {g : Gstruc}

theorem nrm_of_normSq (hq : q.normSq = 1) : nrm q = 1 := by
  rw [nrm, hq, Real.sqrt_one]

theorem scalarPart_mem (hq : q.normSq = 1) : scalarPart q ∈ Set.Icc (-1) 1 := by
  rw [scalarPart, nrm_of_normSq hq, div_one, one_mul, Set.mem_Icc, ← abs_le,
    ← sq_le_one_iff_abs_le_one]
  rw [normSq] at hq
  nlinarith only [hq, sq_nonneg q.x, sq_nonneg q.y, sq_nonneg q.z]

theorem clamp_of_mem {a : ℝ} (ha : a ∈ Set.Icc (-1) 1) : clamp a = a := by
  obtain ⟨hlo, hhi⟩ := ha
  unfold clamp
  rw [if_neg (by norm_num; exact hhi), if_neg (by norm_num; exact hlo)]

/-- A unit quaternion does not take the exit for a norm of zero. -/
theorem quatGetAngleAxis_unit (hq : q.normSq = 1) (v v' : Vec3) :
    (quatGetAngleAxis q v).1 = 1 ∧ quatGetAngleAxis q v = quatGetAngleAxis q v' := by
  have hpos : ¬ nrm q ≤ 0.0 := by
    rw [nrm_of_normSq hq]
    norm_num
  unfold quatGetAngleAxis
  rw [if_neg hpos, if_neg hpos]
  exact ⟨rfl, rfl⟩

theorem Gstruc.normSq_qm (g : Gstruc) : g.qm.normSq = 1 := by
  rw [qm, normSq_quatMultiply, q1, q2, quatFromLonLat, quatFromEuler, normSq_fromLonLat,
    normSq_fromEuler, one_mul]

end

/-- The product is associative and multiplies the norms, the conversions yield unit quaternions,
and the orientation is that of a unit quaternion and always set. -/
theorem orientation_unit :
    (∀ p q r : Quat ℝ,
      quatMultiply (quatMultiply p q) r = quatMultiply p (quatMultiply q r)) ∧
    (∀ p q : Quat ℝ, (quatMultiply p q).normSq = p.normSq * q.normSq) ∧
    (∀ z y : HalfAngle ℝ, (fromLonLat z y).normSq = 1) ∧
    (∀ x y z : HalfAngle ℝ, (fromEuler x y z).normSq = 1) ∧
    ∀ g : Gstruc, nrm g.qm = 1 ∧ scalarPart g.qm ∈ Set.Icc (-1) 1 ∧
      clamp (scalarPart g.qm) = scalarPart g.qm ∧
      (∀ ornt, setOrientation g ornt = (quatGetAngleAxis g.qm ornt).2 ∧
        (quatGetAngleAxis g.qm ornt).1 = 1) ∧
      ∀ ornt ornt', setOrientation g ornt = setOrientation g ornt' := by
  refine ⟨quatMultiply_assoc, normSq_quatMultiply, normSq_fromLonLat, normSq_fromEuler, ?_⟩
  intro g
  have hq := g.normSq_qm
  refine ⟨nrm_of_normSq hq, scalarPart_mem hq, clamp_of_mem (scalarPart_mem hq), ?_, ?_⟩
  · intro ornt
    exact ⟨rfl, (quatGetAngleAxis_unit hq ornt ornt).1⟩
  · intro ornt ornt'
    exact congrArg Prod.snd (quatGetAngleAxis_unit hq ornt ornt').2

/-- The rotations in the order of `mp.py`, from the first argument to the last. -/
noncomputable def Gstruc.rotations (g : Gstruc) : Quat ℝ :=
  quatMultiply (quatMultiply (qz (.degrees g.hdg)) (qy (.degrees g.pch))) (qx (.degrees g.bnk))

/-- Heading and bank are the same angle, or the pitch is a quarter turn down. -/
def Gstruc.Commutes (g : Gstruc) : Prop :=
  (∃ n : ℤ, (g.hdg - g.bnk) * degrees2Radians = n * (2 * Real.pi)) ∨
    ∃ n : ℤ, g.pch * degrees2Radians = -(Real.pi / 2) + n * (2 * Real.pi)

section
variable {d e : ℝ}

theorem degrees_sub_eq_zero_iff :
    (HalfAngle.degrees d).s * (HalfAngle.degrees e).c -
        (HalfAngle.degrees d).c * (HalfAngle.degrees e).s = 0 ↔
      ∃ n : ℤ, (d - e) * degrees2Radians = n * (2 * Real.pi) := by
  have hsin : (HalfAngle.degrees d).s * (HalfAngle.degrees e).c -
      (HalfAngle.degrees d).c * (HalfAngle.degrees e).s =
        Real.sin (0.5 * d * degrees2Radians - 0.5 * e * degrees2Radians) :=
    (Real.sin_sub _ _).symm
  rw [hsin, Real.sin_eq_zero_iff]
  refine exists_congr fun n => ?_
  constructor
  · intro h
    linear_combination -2 * h
  · intro h
    linear_combination -0.5 * h

/-- The cosine and the sine of half an angle cancel at three quarters of a half turn. -/
theorem degrees_add_eq_zero_iff :
    (HalfAngle.degrees d).c + (HalfAngle.degrees d).s = 0 ↔
      ∃ n : ℤ, d * degrees2Radians = -(Real.pi / 2) + n * (2 * Real.pi) := by
  have hroot : Real.sqrt 2 / 2 ≠ 0 := by positivity
  have hsin : ((HalfAngle.degrees d).c + (HalfAngle.degrees d).s) * (Real.sqrt 2 / 2) =
      Real.sin (0.5 * d * degrees2Radians + Real.pi / 4) := by
    rw [Real.sin_add, Real.cos_pi_div_four, Real.sin_pi_div_four, HalfAngle.degrees, HalfAngle.of]
    ring
  rw [← mul_eq_zero_iff_right hroot, hsin, Real.sin_eq_zero_iff]
  refine exists_congr fun n => ?_
  constructor
  · intro h
    linear_combination -2 * h
  · intro h
    linear_combination -0.5 * h

end

/-- The attitude is composed in the order of `mp.py` just when heading and bank are the same
angle or the nose points straight down. -/
theorem setOrientation_order_iff (g : Gstruc) : g.q2 = g.rotations ↔ g.Commutes := by
  rw [Gstruc.q2, Gstruc.rotations, ← fromEuler_eq, quatFromEuler, fromEuler_swap_iff,
    degrees_sub_eq_zero_iff, degrees_add_eq_zero_iff, Gstruc.Commutes]

/-- A level aircraft with heading south is turned over instead. -/
theorem setOrientation_order_south :
    (⟨0, 0, 0, 180, 0⟩ : Gstruc).q2 ≠ (⟨0, 0, 0, 180, 0⟩ : Gstruc).rotations := by
  intro h
  -- the first components are the sine of some 90 degrees and zero
  have hsame := congrArg Quat.x h
  rw [Gstruc.q2, Gstruc.rotations, ← fromEuler_eq] at hsame
  have hsin : Real.sin (0.5 * 180 * degrees2Radians) = 0 := by
    simpa [quatFromEuler, fromEuler, HalfAngle.degrees, HalfAngle.of] using hsame
  have hpos : 0 < Real.sin (0.5 * 180 * degrees2Radians) := by
    apply Real.sin_pos_of_pos_of_lt_pi
    · norm_num [degrees2Radians, myPi]
    · apply lt_of_lt_of_le _ Real.two_le_pi
      norm_num [degrees2Radians, myPi]
  exact hpos.ne' hsin

end TcpTests.FgmpMsg
