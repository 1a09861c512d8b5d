import TcpTests.Lib.Memory

/-! `clean_data`, which four of the programs share: the rendering of received bytes for
display. Plain `char` is signed, and `c` is an `int`. -/
namespace TcpTests.Text
open Lib

/-- The characters of one byte. The high bit is cleared in the `int`, whose sign bits stay. -/
def cleanByte (b : Byte) : List Byte :=
  let c : Word := b.signExtend 32
  let high := c &&& 0x80#32 ≠ 0#32
  let c := if high then c &&& ~~~0x80#32 else c
  let ctrl := c.slt 0x20#32
  let c := if ctrl then c + 0x40#32 else c
  (if high then [0x40#8] else []) ++ (if ctrl then [0x5E#8] else []) ++ [c.setWidth 8]

/-- The text written to `dest`, without its terminating NUL. -/
def cleanData (src : List Byte) : List Byte := src.flatMap cleanByte

/-- The text and its NUL fit in an array. -/
def CleanFits (size : ℕ) (src : List Byte) : Prop := (cleanData src).length < size

instance (size : ℕ) (src : List Byte) : Decidable (CleanFits size src) :=
  inferInstanceAs (Decidable (_ < _))

/-- `toupper` in the C locale. -/
def toupper (b : Byte) : Byte := if 0x61#8 ≤ b ∧ b ≤ 0x7A#8 then b - 0x20#8 else b

@[simp] theorem cleanData_nil : cleanData [] = [] := rfl

@[simp] theorem cleanData_append (bs cs : List Byte) :
    cleanData (bs ++ cs) = cleanData bs ++ cleanData cs :=
  List.flatMap_append

theorem cleanByte_toupper_length (b : Byte) :
    (cleanByte (toupper b)).length = (cleanByte b).length := by
  revert b
  decide

theorem cleanData_toupper_length (bs : List Byte) :
    (cleanData (bs.map toupper)).length = (cleanData bs).length := by
  induction bs with
  | nil => rfl
  | cons b bs ih =>
    simp only [cleanData, List.map_cons, List.flatMap_cons, List.length_append,
      cleanByte_toupper_length] at ih ⊢
    rw [ih]

end TcpTests.Text
