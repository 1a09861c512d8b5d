import TcpTests.Lib.Bits
import TcpTests.Fgmp.Xdr

/-! The byte swaps of `fgmpmsg.hxx`, which `winsockerr.cxx` repeats, and the XDR integers that are
decoded with them. -/
namespace TcpTests.Fgmp
open Lib

/-- The shifts are made in an `int`, and the result is cut to 16 bits. -/
def bswap16 (x : BitVec 16) : BitVec 16 :=
  let x : Word := x.setWidth 32
  ((x >>> 8) ||| (x <<< 8)).setWidth 16

def bswap64 (x : BitVec 64) : BitVec 64 :=
  let x := ((x >>> 8) &&& 0x00FF00FF00FF00FF#64) ||| ((x <<< 8) &&& 0xFF00FF00FF00FF00#64)
  let x := ((x >>> 16) &&& 0x0000FFFF0000FFFF#64) ||| ((x <<< 16) &&& 0xFFFF0000FFFF0000#64)
  (x >>> 32) ||| (x <<< 32)

def swap64 (h : Endian) (arg : BitVec 64) : BitVec 64 :=
  match h with
  | .little => bswap64 arg
  | .big => arg

def xdrDecodeInt32 (h : Endian) (nVal : Word) : ℤ := (swap32 h nVal).toInt

def xdrDecodeInt64 (h : Endian) (nVal : BitVec 64) : ℤ := (swap64 h nVal).toInt

theorem bswap16_reverses : ReversesBytes 2 bswap16 := by
  intro x i hi
  have hpair : (((x.setWidth 32) >>> 8) ||| ((x.setWidth 32) <<< 8) : Word).setWidth 16 =
      (x >>> 8) ||| (x <<< 8) := by
    apply BitVec.eq_of_getLsbD_eq
    intro j hj
    have hwide : j < 32 := by omega
    have hlow : j - 8 < 32 := by omega
    simp only [BitVec.getLsbD_setWidth, BitVec.getLsbD_or, BitVec.getLsbD_ushiftRight,
      BitVec.getLsbD_shiftLeft, decide_eq_true hj, decide_eq_true hwide, decide_eq_true hlow,
      Bool.true_and]
    by_cases hshift : 8 + j < 32
    · rw [decide_eq_true hshift, Bool.true_and]
    · rw [BitVec.getLsbD_of_ge x (8 + j) (by omega), Bool.and_false]
  unfold bswap16
  dsimp only
  rw [hpair, getLsbD_exchange_halves (s := 8) (by decide) hi]
  congr 1
  revert i
  decide

theorem bswap32_reverses : ReversesBytes 4 bswap32 := by
  intro x i hi
  have hout : exchangedBit 16 i < 32 := by
    revert i
    decide
  unfold bswap32
  dsimp only
  rw [getLsbD_exchange_halves (s := 16) (by decide) hi, getLsbD_exchange hout]
  · congr 1
    clear hout
    revert i
    decide
  · revert hout
    generalize exchangedBit 16 i = j
    revert j
    decide
  · revert hout
    generalize exchangedBit 16 i = j
    revert j
    decide

theorem bswap64_reverses : ReversesBytes 8 bswap64 := by
  intro x i hi
  have hout : exchangedBit 32 i < 64 := by
    revert i
    decide
  have hmid : ∀ j, j < 64 → exchangedBit 16 j < 64 := by decide
  have heven16 : ∀ j, j < 64 → (0x0000FFFF0000FFFF#64).getLsbD j = decide (j / 16 % 2 = 0) := by
    decide
  have hodd16 : ∀ j, j < 64 → (0xFFFF0000FFFF0000#64).getLsbD j = decide (j / 16 % 2 = 1) := by
    decide
  have heven8 : ∀ j, j < 64 → (0x00FF00FF00FF00FF#64).getLsbD j = decide (j / 8 % 2 = 0) := by
    decide
  have hodd8 : ∀ j, j < 64 → (0xFF00FF00FF00FF00#64).getLsbD j = decide (j / 8 % 2 = 1) := by
    decide
  unfold bswap64
  dsimp only
  rw [getLsbD_exchange_halves (s := 32) (by decide) hi,
    getLsbD_exchange hout (heven16 _ hout) (hodd16 _ hout),
    getLsbD_exchange (hmid _ hout) (heven8 _ (hmid _ hout)) (hodd8 _ (hmid _ hout))]
  congr 1
  clear hout hmid heven16 hodd16 heven8 hodd8
  revert i
  decide

theorem bswap64_append (x y : Word) : bswap64 (x ++ y) = bswap32 y ++ bswap32 x := by
  apply BitVec.eq_of_getLsbD_eq
  intro i hi
  rw [bswap64_reverses _ i hi, BitVec.getLsbD_append, BitVec.getLsbD_append]
  by_cases hlow : i < 32
  · rw [if_pos hlow, if_neg (by unfold reversedBit; omega), bswap32_reverses _ i hlow]
    congr 1
    unfold reversedBit
    omega
  · rw [if_neg hlow, if_pos (by unfold reversedBit; omega), bswap32_reverses _ (i - 32) (by omega)]
    congr 1
    unfold reversedBit
    omega

theorem swap64_loadLong (h : Endian) (m : Mem) (a : ℕ) :
    swap64 h (loadLong h m a) = loadLong .big m a := by
  cases h with
  | big => rfl
  | little =>
    have hlow := swap32_loadWord .little m a
    have hhigh := swap32_loadWord .little m (a + 4)
    calc swap64 .little (loadLong .little m a)
      _ = swap32 .little (loadWord .little m a) ++ swap32 .little (loadWord .little m (a + 4)) :=
        bswap64_append _ _
      _ = loadLong .big m a := by
        rw [hlow, hhigh]
        rfl

/-- The swaps reverse the bytes and undo themselves, and the bytes of the wire decode to their
value on either kind of machine. -/
theorem swaps_and_decoding :
    (∀ x, bytesOf 2 (bswap16 x) = (bytesOf 2 x).reverse ∧ bswap16 (bswap16 x) = x) ∧
    (∀ x, bytesOf 4 (bswap32 x) = (bytesOf 4 x).reverse ∧ bswap32 (bswap32 x) = x) ∧
    (∀ x, bytesOf 8 (bswap64 x) = (bytesOf 8 x).reverse ∧ bswap64 (bswap64 x) = x) ∧
    (∀ h m a,
      (xdrDecodeUint32 h (loadWord h m a)).toNat = bigEndian (m.read a 4) ∧
      xdrDecodeInt32 h (loadWord h m a) = twosComplement 32 (bigEndian (m.read a 4)) ∧
      xdrDecodeInt64 h (loadLong h m a) = twosComplement 64 (bigEndian (m.read a 8))) ∧
    ∀ h x, xdrDecodeUint32 h (xdrEncodeUint32 h x) = x := by
  refine ⟨?_, ?_, ?_, ?_, swap32_swap32⟩
  · intro x
    exact ⟨bswap16_reverses.bytesOf rfl x, bswap16_reverses.involutive rfl x⟩
  · intro x
    exact ⟨bswap32_reverses.bytesOf rfl x, bswap32_reverses.involutive rfl x⟩
  · intro x
    exact ⟨bswap64_reverses.bytesOf rfl x, bswap64_reverses.involutive rfl x⟩
  · intro h m a
    refine ⟨?_, ?_, ?_⟩
    · rw [xdrDecodeUint32, swap32_loadWord, beWord_toNat]
    · rw [xdrDecodeInt32, swap32_loadWord, ← beWord_toNat, twosComplement_eq_toInt]
    · rw [xdrDecodeInt64, swap64_loadLong, ← loadLong_big_toNat, twosComplement_eq_toInt]

end TcpTests.Fgmp
