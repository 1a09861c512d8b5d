import TcpTests.Lib.Memory

/-! Byte swaps and XDR words of `fgmpmsg.hxx`. `IsLittleEndian` is the byte
order of the machine the code runs on. -/
namespace TcpTests.Fgmp
open Lib

def bswap32 (x : Word) : Word :=
  let x := ((x >>> 8) &&& 0x00FF00FF#32) ||| ((x <<< 8) &&& 0xFF00FF00#32)
  (x >>> 16) ||| (x <<< 16)

def swap32 (h : Endian) (arg : Word) : Word :=
  match h with
  | .little => bswap32 arg
  | .big => arg

def xdrEncodeUint32 (h : Endian) (nVal : Word) : Word := swap32 h nVal

def xdrDecodeUint32 (h : Endian) (nVal : Word) : Word := swap32 h nVal

def xdrDecodeInt8 (h : Endian) (nVal : Word) : Byte := (swap32 h nVal).setWidth 8

def xdrDecodeFloat (h : Endian) (fVal : Word) : Word := swap32 h fVal

/-- A float whose exponent bits are all set and whose fraction is not zero. -/
def isNan (x : Word) : Bool := x &&& 0x7F800000#32 == 0x7F800000#32 && x &&& 0x007FFFFF#32 != 0#32

private theorem maskEven (i : ℕ) (hi : i < 32) :
    (0x00FF00FF#32).getLsbD i = decide (i < 8 ∨ 16 ≤ i ∧ i < 24) := by
  revert i
  decide

private theorem maskOdd (i : ℕ) (hi : i < 32) :
    (0xFF00FF00#32).getLsbD i = decide (8 ≤ i ∧ i < 16 ∨ 24 ≤ i) := by
  revert i
  decide

/-- The masked shifts reverse the order of the four bytes. -/
theorem bswap32_append (a b c d : Byte) : bswap32 (a ++ b ++ c ++ d) = d ++ c ++ b ++ a := by
  apply BitVec.eq_of_getLsbD_eq
  intro i hi
  have hi' : i < 32 := hi
  simp only [bswap32, BitVec.getLsbD_or, BitVec.getLsbD_ushiftRight, BitVec.getLsbD_shiftLeft,
    BitVec.getLsbD_and, BitVec.getLsbD_append]
  rcases (by omega : i < 8 ∨ (8 ≤ i ∧ i < 16) ∨ (16 ≤ i ∧ i < 24) ∨ 24 ≤ i) with h | h | h | h
  · rw [maskEven (16 + i) (by omega), maskOdd (16 + i) (by omega)]
    simp (disch := omega) only [if_pos, if_neg, decide_eq_true, decide_eq_false, Bool.false_and,
      Bool.and_true, Bool.and_false, Bool.or_false, Bool.not_true]
    congr 1
    omega
  · rw [maskEven (16 + i) (by omega), maskOdd (16 + i) (by omega)]
    simp (disch := omega) only [if_pos, if_neg, decide_eq_true, decide_eq_false, Bool.false_and,
      Bool.and_true, Bool.and_false, Bool.or_false, Bool.false_or, Bool.not_true, Bool.not_false,
      Bool.true_and]
    congr 1
    omega
  · rw [maskEven (i - 16) (by omega), maskOdd (i - 16) (by omega),
      BitVec.getLsbD_of_ge (0x00FF00FF#32) (16 + i) (by omega),
      BitVec.getLsbD_of_ge (0xFF00FF00#32) (16 + i) (by omega)]
    simp (disch := omega) only [if_pos, if_neg, decide_eq_true, decide_eq_false, Bool.false_and,
      Bool.and_true, Bool.and_false, Bool.or_false, Bool.false_or, Bool.not_false, Bool.true_and]
    congr 1
    omega
  · rw [maskEven (i - 16) (by omega), maskOdd (i - 16) (by omega),
      BitVec.getLsbD_of_ge (0x00FF00FF#32) (16 + i) (by omega),
      BitVec.getLsbD_of_ge (0xFF00FF00#32) (16 + i) (by omega)]
    simp (disch := omega) only [if_pos, if_neg, decide_eq_true, decide_eq_false,
      Bool.and_true, Bool.and_false, Bool.or_false, Bool.false_or, Bool.not_false, Bool.true_and]
    congr 1

theorem bswap32_bswap32 (x : Word) : bswap32 (bswap32 x) = x := by
  rw [← append_extract x, bswap32_append, bswap32_append]

@[simp] theorem swap32_swap32 (h : Endian) (x : Word) : swap32 h (swap32 h x) = x := by
  cases h with
  | little => exact bswap32_bswap32 x
  | big => rfl

@[simp] theorem swap32_loadWord (h : Endian) (m : Mem) (a : ℕ) :
    swap32 h (loadWord h m a) = beWord m a := by
  cases h with
  | little => exact bswap32_append _ _ _ _
  | big => rfl

@[simp] theorem swap32_zero (h : Endian) : swap32 h 0#32 = 0#32 := by
  cases h <;> rfl

theorem swap32_eq_zero {h : Endian} {x : Word} : swap32 h x = 0#32 ↔ x = 0#32 := by
  constructor
  · intro hx
    rw [← swap32_swap32 h x, hx, swap32_zero]
  · rintro rfl
    exact swap32_zero h

theorem wordBytes_swap32 (h : Endian) (x : Word) : wordBytes h (swap32 h x) = wordBytes .big x := by
  cases h with
  | big => rfl
  | little =>
    rw [← append_extract x, wordBytes_append]
    change (wordBytes .big (bswap32 _)).reverse = _
    rw [bswap32_append, wordBytes_append]
    rfl

theorem storeWord_swap32 (h : Endian) (m : Mem) (a : ℕ) (x : Word) :
    storeWord h m a (swap32 h x) = m.write a (wordBytes .big x) := by
  rw [storeWord, wordBytes_swap32]

end TcpTests.Fgmp
