import Mathlib.Data.Nat.Digits.Defs
import TcpTests.Lib.Memory

/-! The bytes of a word of any width: their order, masked shifts that exchange them, and the words
that memory holds. -/
namespace Lib

/-- The bytes of a word of `n` bytes, the lowest first. -/
def bytesOf {w : ℕ} (n : ℕ) (x : BitVec w) : List Byte :=
  (List.range n).map fun i => x.extractLsb' (8 * i) 8

/-- Where bit `i` of a word of `n` bytes comes from when the bytes are reversed. -/
def reversedBit (n i : ℕ) : ℕ := 8 * (n - 1 - i / 8) + i % 8

/-- A function that reverses the order of the bytes. -/
def ReversesBytes {w : ℕ} (n : ℕ) (f : BitVec w → BitVec w) : Prop :=
  ∀ x i, i < w → (f x).getLsbD i = x.getLsbD (reversedBit n i)

/-- Where bit `i` comes from when neighbours of `s` bits are exchanged. -/
def exchangedBit (s i : ℕ) : ℕ := if i / s % 2 = 0 then i + s else i - s

def bigEndian (bytes : List Byte) : ℕ := Nat.ofDigits 256 (bytes.reverse.map BitVec.toNat)

/-- The number that `n` bits are in two's complement. -/
def twosComplement (n v : ℕ) : ℤ := if v < 2 ^ (n - 1) then v else v - 2 ^ n

/-- The 64-bit word a machine of the given byte order finds at an address. -/
def loadLong (h : Endian) (m : Mem) (a : ℕ) : BitVec 64 :=
  match h with
  | .little => loadWord h m (a + 4) ++ loadWord h m a
  | .big => loadWord h m a ++ loadWord h m (a + 4)

section
variable {w n s i : ℕ} {x y : BitVec w} {f : BitVec w → BitVec w}

theorem reversedBit_lt (hi : i < 8 * n) : reversedBit n i < 8 * n := by
  unfold reversedBit
  omega

theorem reversedBit_reversedBit (hi : i < 8 * n) : reversedBit n (reversedBit n i) = i := by
  unfold reversedBit
  omega

theorem ReversesBytes.involutive (hf : ReversesBytes n f) (hw : w = 8 * n) (x : BitVec w) :
    f (f x) = x := by
  apply BitVec.eq_of_getLsbD_eq
  intro i hi
  have hi' : i < 8 * n := hw ▸ hi
  rw [hf _ i hi, hf x _ (by rw [hw]; exact reversedBit_lt hi'), reversedBit_reversedBit hi']

theorem ReversesBytes.bytesOf (hf : ReversesBytes n f) (hw : w = 8 * n) (x : BitVec w) :
    bytesOf n (f x) = (bytesOf n x).reverse := by
  unfold Lib.bytesOf
  apply List.ext_getElem
  · simp
  · intro j hj _
    rw [List.length_map, List.length_range] at hj
    rw [List.getElem_reverse]
    simp only [List.getElem_map, List.getElem_range, List.length_map, List.length_range]
    apply BitVec.eq_of_getLsbD_eq
    intro k hk
    rw [BitVec.getLsbD_extractLsb', BitVec.getLsbD_extractLsb', hf x _ (by omega)]
    congr 2
    unfold reversedBit
    omega

/-- Shifts to both sides, each masked to every other group of `s` bits. -/
theorem getLsbD_exchange {even odd : BitVec w} (hi : i < w)
    (heven : even.getLsbD i = decide (i / s % 2 = 0))
    (hodd : odd.getLsbD i = decide (i / s % 2 = 1)) :
    (((x >>> s) &&& even) ||| ((x <<< s) &&& odd)).getLsbD i = x.getLsbD (exchangedBit s i) := by
  unfold exchangedBit
  simp only [BitVec.getLsbD_or, BitVec.getLsbD_and, BitVec.getLsbD_ushiftRight,
    BitVec.getLsbD_shiftLeft, heven, hodd]
  by_cases hside : i / s % 2 = 0
  · have hother : ¬ i / s % 2 = 1 := by omega
    rw [if_pos hside, decide_eq_true hside, decide_eq_false hother, Bool.and_true, Bool.and_false,
      Bool.or_false, Nat.add_comm]
  · have hother : i / s % 2 = 1 := by omega
    have hge : ¬ i < s := by
      intro hlt
      rw [Nat.div_eq_of_lt hlt] at hother
      cases hother
    rw [if_neg hside, decide_eq_false hside, decide_eq_true hother, decide_eq_true hi,
      decide_eq_false hge, Bool.and_false, Bool.false_or, Bool.and_true, Bool.not_false,
      Bool.and_true, Bool.true_and]

theorem getLsbD_exchange_halves (hw : w = 2 * s) (hi : i < w) :
    ((x >>> s) ||| (x <<< s)).getLsbD i = x.getLsbD (exchangedBit s i) := by
  unfold exchangedBit
  simp only [BitVec.getLsbD_or, BitVec.getLsbD_ushiftRight, BitVec.getLsbD_shiftLeft]
  by_cases hlow : i < s
  · rw [if_pos (by rw [Nat.div_eq_of_lt hlow]), decide_eq_true hlow, Bool.not_true, Bool.and_false,
      Bool.false_and, Bool.or_false, Nat.add_comm]
  · have hhigh : i / s = 1 := Nat.div_eq_of_lt_le (by omega) (by omega)
    rw [if_neg (by rw [hhigh]; decide), BitVec.getLsbD_of_ge x (s + i) (by omega), Bool.false_or,
      decide_eq_true hi, decide_eq_false hlow, Bool.not_false, Bool.and_true, Bool.true_and]

theorem toNat_append_byte (x : BitVec w) (b : Byte) :
    (x ++ b).toNat = 256 * x.toNat + b.toNat := by
  have hb := b.isLt
  rw [BitVec.toNat_append, ← Nat.shiftLeft_add_eq_or_of_lt hb, Nat.shiftLeft_eq, Nat.mul_comm]

theorem bigEndian_concat (bytes : List Byte) (b : Byte) :
    bigEndian (bytes ++ [b]) = 256 * bigEndian bytes + b.toNat := by
  rw [bigEndian, List.reverse_append, List.reverse_singleton, List.singleton_append, List.map_cons,
    Nat.ofDigits_cons, bigEndian, Nat.add_comm]

theorem twosComplement_eq_toInt (x : BitVec w) : twosComplement w x.toNat = x.toInt := by
  have hx := x.isLt
  rcases Nat.eq_zero_or_pos w with rfl | hw
  · rw [BitVec.eq_nil x]
    rfl
  · have hpow : 2 ^ w = 2 * 2 ^ (w - 1) := by
      rw [← Nat.pow_succ']
      congr 1
      omega
    rw [twosComplement, BitVec.toInt_eq_toNat_cond]
    push_cast
    by_cases hlow : x.toNat < 2 ^ (w - 1)
    · rw [if_pos hlow, if_pos (by omega)]
    · rw [if_neg hlow, if_neg (by omega)]

variable {m : Mem} {a : ℕ}

theorem beWord_toNat (m : Mem) (a : ℕ) : (beWord m a).toNat = bigEndian (m.read a 4) := by
  have hread : m.read a 4 = [] ++ [m a] ++ [m (a + 1)] ++ [m (a + 2)] ++ [m (a + 3)] := rfl
  have hnil : bigEndian [] = 0 := rfl
  have hfirst : bigEndian ([] ++ [m a]) = (m a).toNat := by
    rw [bigEndian_concat, hnil, Nat.mul_zero, Nat.zero_add]
  rw [hread, bigEndian_concat, bigEndian_concat, bigEndian_concat, hfirst, beWord,
    toNat_append_byte, toNat_append_byte, toNat_append_byte]

theorem toNat_append_beWord (x : BitVec w) (m : Mem) (a : ℕ) :
    (x ++ beWord m a).toNat =
      256 * (256 * (256 * (256 * x.toNat + (m a).toNat) + (m (a + 1)).toNat) + (m (a + 2)).toNat) +
        (m (a + 3)).toNat := by
  have hassoc : (x ++ beWord m a).toNat =
      (x ++ m a ++ m (a + 1) ++ m (a + 2) ++ m (a + 3)).toNat := by
    simp only [beWord, BitVec.toNat_append, Nat.shiftLeft_or_distrib, ← Nat.shiftLeft_add,
      Nat.or_assoc]
  rw [hassoc, toNat_append_byte, toNat_append_byte, toNat_append_byte, toNat_append_byte]

theorem loadLong_big_toNat (m : Mem) (a : ℕ) :
    (loadLong .big m a).toNat = bigEndian (m.read a 8) := by
  have hread : m.read a 8 = m.read a 4 ++ [m (a + 4)] ++ [m (a + 4 + 1)] ++ [m (a + 4 + 2)] ++
      [m (a + 4 + 3)] := rfl
  have hload : loadLong .big m a = beWord m a ++ beWord m (a + 4) := rfl
  rw [hload, toNat_append_beWord, beWord_toNat, hread, bigEndian_concat, bigEndian_concat,
    bigEndian_concat, bigEndian_concat]

end

end Lib
