import Mathlib.Algebra.Quaternion
import Mathlib.Tactic.LinearCombination

/-! The quaternions of `fgmp_msg`, over any commutative ring. The product is that of Mathlib's
quaternions, and the conversions from angles are products of rotations about the axes. -/
namespace TcpTests.FgmpMsg

/-- An array of four, at the indices `q_x`, `q_y`, `q_z` and `q_w`. -/
@[ext] structure Quat (R : Type*) where
  x : R
  y : R
  z : R
  w : R
  deriving DecidableEq, Repr

/-- The cosine and the sine of half an angle. -/
structure HalfAngle (R : Type*) [CommRing R] where
  c : R
  s : R
  unit : c ^ 2 + s ^ 2 = 1

section
variable {R : Type*} [CommRing R]

def quatMultiply (v1 v2 : Quat R) : Quat R where
  x := v1.w * v2.x + v1.x * v2.w + v1.y * v2.z - v1.z * v2.y
  y := v1.w * v2.y - v1.x * v2.z + v1.y * v2.w + v1.z * v2.x
  z := v1.w * v2.z + v1.x * v2.y - v1.y * v2.x + v1.z * v2.w
  w := v1.w * v2.w - v1.x * v2.x - v1.y * v2.y - v1.z * v2.z

namespace Quat

/-- The sum under the root in `quat_getAngleAxis`. -/
def normSq (q : Quat R) : R := q.x * q.x + q.y * q.y + q.z * q.z + q.w * q.w

/-- What `quat_fromEuler` stores, from the half angles of its arguments. -/
def fromEuler (x y z : HalfAngle R) : Quat R where
  w := x.c * z.c * y.c + x.s * z.s * y.s
  x := x.s * z.c * y.c - x.c * z.s * y.s
  y := x.c * z.c * y.s + x.s * z.s * y.c
  z := x.c * z.s * y.c - x.s * z.c * y.s

def fromLonLat (z y : HalfAngle R) : Quat R where
  w := z.c * y.c
  x := -z.s * y.s
  y := z.c * y.s
  z := z.s * y.c

def qx (a : HalfAngle R) : Quat R := ⟨a.s, 0, 0, a.c⟩

def qy (a : HalfAngle R) : Quat R := ⟨0, a.s, 0, a.c⟩

def qz (a : HalfAngle R) : Quat R := ⟨0, 0, a.s, a.c⟩

def toQuaternion (q : Quat R) : Quaternion R := ⟨q.w, q.x, q.y, q.z⟩

theorem toQuaternion_injective : Function.Injective (toQuaternion (R := R)) := by
  rintro ⟨x, y, z, w⟩ ⟨x', y', z', w'⟩ h
  obtain ⟨rfl, rfl, rfl, rfl⟩ := (QuaternionAlgebra.mk.injEq ..).mp h
  rfl

theorem toQuaternion_quatMultiply (p q : Quat R) :
    (quatMultiply p q).toQuaternion = p.toQuaternion * q.toQuaternion := by
  ext
  · exact (Quaternion.re_mul p.toQuaternion q.toQuaternion).symm
  · exact (Quaternion.imI_mul p.toQuaternion q.toQuaternion).symm
  · exact (Quaternion.imJ_mul p.toQuaternion q.toQuaternion).symm
  · exact (Quaternion.imK_mul p.toQuaternion q.toQuaternion).symm

example : quatMultiply ⟨1, 0, 0, 0⟩ ⟨0, 1, 0, 0⟩ = (⟨0, 0, 1, 0⟩ : Quat ℤ) := by decide

theorem normSq_toQuaternion (q : Quat R) : Quaternion.normSq q.toQuaternion = q.normSq := by
  rw [Quaternion.normSq_def', normSq, toQuaternion]
  ring

theorem quatMultiply_assoc (p q r : Quat R) :
    quatMultiply (quatMultiply p q) r = quatMultiply p (quatMultiply q r) := by
  apply toQuaternion_injective
  simp only [toQuaternion_quatMultiply, mul_assoc]

theorem normSq_quatMultiply (p q : Quat R) :
    (quatMultiply p q).normSq = p.normSq * q.normSq := by
  simp only [← normSq_toQuaternion, toQuaternion_quatMultiply, map_mul]

theorem normSq_qx (a : HalfAngle R) : (qx a).normSq = 1 := by
  rw [← a.unit, normSq, qx]
  ring

theorem normSq_qy (a : HalfAngle R) : (qy a).normSq = 1 := by
  rw [← a.unit, normSq, qy]
  ring

theorem normSq_qz (a : HalfAngle R) : (qz a).normSq = 1 := by
  rw [← a.unit, normSq, qz]
  ring

/-- Longitude about the third axis, then latitude about the second. -/
theorem fromLonLat_eq (z y : HalfAngle R) : fromLonLat z y = quatMultiply (qz z) (qy y) := by
  ext <;> simp only [fromLonLat, quatMultiply, qy, qz] <;> ring

/-- The rotations of `quat_fromEuler`, in the order of its last argument first. -/
theorem fromEuler_eq (x y z : HalfAngle R) :
    fromEuler x y z = quatMultiply (quatMultiply (qz z) (qy y)) (qx x) := by
  ext <;> simp only [fromEuler, quatMultiply, qx, qy, qz] <;> ring

theorem normSq_fromLonLat (z y : HalfAngle R) : (fromLonLat z y).normSq = 1 := by
  rw [fromLonLat_eq, normSq_quatMultiply, normSq_qz, normSq_qy, one_mul]

theorem normSq_fromEuler (x y z : HalfAngle R) : (fromEuler x y z).normSq = 1 := by
  rw [fromEuler_eq, normSq_quatMultiply, normSq_quatMultiply, normSq_qz, normSq_qy, normSq_qx,
    one_mul, one_mul]

/-- The order of the outer rotations matters unless they are about equal angles or the middle one
exchanges their axes. -/
theorem fromEuler_swap_iff [IsDomain R] (x y z : HalfAngle R) :
    fromEuler x y z = fromEuler z y x ↔ x.s * z.c - x.c * z.s = 0 ∨ y.c + y.s = 0 := by
  constructor
  · intro h
    have hx : (fromEuler x y z).x = (fromEuler z y x).x := congrArg Quat.x h
    simp only [fromEuler] at hx
    exact mul_eq_zero.mp (by linear_combination hx)
  · intro h
    have hzero : (x.s * z.c - x.c * z.s) * (y.c + y.s) = 0 := mul_eq_zero.mpr h
    ext
    · simp only [fromEuler]
      linear_combination hzero
    · simp only [fromEuler]
      ring
    · simp only [fromEuler]
      linear_combination -hzero
    · simp only [fromEuler]
      ring

end Quat

end

end TcpTests.FgmpMsg
