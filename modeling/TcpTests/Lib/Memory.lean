import Mathlib.Data.List.GetD
import Mathlib.Data.BitVec
import Mathlib.Tactic.IntervalCases

/-! Byte-addressed memory with block reads and writes, and 32-bit words stored
in either byte order. Memory is total: an address outside an object reads
whatever lies there. -/
namespace Lib

abbrev Byte := BitVec 8

abbrev Word := BitVec 32

abbrev Mem := ℕ → Byte

inductive Endian
  | little
  | big
  deriving DecidableEq, Repr

/-- The system that a program is built for: with `_MSC_VER` defined or without. -/
inductive Platform
  | windows
  | unix
  deriving DecidableEq, Repr

namespace Mem

def read (m : Mem) (off n : ℕ) : List Byte := (List.range n).map fun i => m (off + i)

def write (m : Mem) (off : ℕ) (bs : List Byte) : Mem :=
  fun a => if off ≤ a then bs.getD (a - off) (m a) else m a

@[simp] theorem read_length (m : Mem) (off n : ℕ) : (m.read off n).length = n := by
  simp [read]

@[simp] theorem read_zero (m : Mem) (off : ℕ) : m.read off 0 = [] := rfl

theorem read_getElem (m : Mem) (off n i : ℕ) (hi : i < (m.read off n).length) :
    (m.read off n)[i] = m (off + i) := by
  simp [read]

theorem read_add (m : Mem) (off n k : ℕ) :
    m.read off (n + k) = m.read off n ++ m.read (off + n) k := by
  simp [read, List.range_add, Function.comp_def, Nat.add_assoc]

theorem read_congr {m m' : Mem} {off n : ℕ} (h : ∀ a, off ≤ a → a < off + n → m a = m' a) :
    m.read off n = m'.read off n := by
  unfold read
  apply List.map_congr_left
  intro i hi
  have hin : i < n := List.mem_range.mp hi
  exact h _ (by omega) (by omega)

theorem write_lt (m : Mem) {off a : ℕ} (bs : List Byte) (h : a < off) :
    m.write off bs a = m a := by
  simp [write, Nat.not_le.mpr h]

theorem write_ge (m : Mem) {off a : ℕ} (bs : List Byte) (h : off + bs.length ≤ a) :
    m.write off bs a = m a := by
  have hge : bs.length ≤ a - off := by omega
  unfold write
  rw [List.getD_eq_default _ _ hge, ite_self]

theorem write_mem (m : Mem) {off a : ℕ} (bs : List Byte) (hlo : off ≤ a)
    (hhi : a - off < bs.length) : m.write off bs a = bs[a - off] := by
  unfold write
  rw [if_pos hlo, List.getD_eq_getElem _ _ hhi]

@[simp] theorem write_nil (m : Mem) (off : ℕ) : m.write off [] = m := by
  funext a
  simp [write]

@[simp] theorem read_write_self (m : Mem) (off : ℕ) (bs : List Byte) :
    (m.write off bs).read off bs.length = bs := by
  apply List.ext_getElem
  · simp
  · intro i hi hi'
    rw [read_getElem, write_mem m bs (by omega) (by omega)]
    simp

theorem read_write_of_length {m : Mem} {off n : ℕ} {bs : List Byte} (h : bs.length = n) :
    (m.write off bs).read off n = bs := by
  rw [← h, read_write_self]

theorem read_write_disjoint (m : Mem) {off off' n : ℕ} (bs : List Byte)
    (h : off' + n ≤ off ∨ off + bs.length ≤ off') :
    (m.write off bs).read off' n = m.read off' n := by
  apply read_congr
  intro a hlo hhi
  rcases h with h | h
  · exact write_lt m bs (by omega)
  · exact write_ge m bs (by omega)

theorem write_read_self (m : Mem) (off n : ℕ) : m.write off (m.read off n) = m := by
  funext a
  by_cases hlo : a < off
  · exact write_lt m _ hlo
  by_cases hhi : a - off < n
  · rw [write_mem m _ (by omega) (by rwa [read_length]), read_getElem]
    congr 1
    omega
  · exact write_ge m _ (by rw [read_length]; omega)

theorem write_write (m : Mem) {off off' : ℕ} (bs cs : List Byte) (h : off' = off + bs.length) :
    (m.write off bs).write off' cs = m.write off (bs ++ cs) := by
  subst h
  funext a
  by_cases hlo : a < off
  · rw [write_lt _ _ (by omega), write_lt _ _ hlo, write_lt _ _ hlo]
  by_cases hmid : a - off < bs.length
  · rw [write_lt _ _ (by omega), write_mem _ _ (by omega) hmid,
      write_mem _ _ (by omega) (by rw [List.length_append]; omega), List.getElem_append_left hmid]
  by_cases hhi : a - off < bs.length + cs.length
  · rw [write_mem _ _ (by omega) (by omega),
      write_mem _ _ (by omega) (by rw [List.length_append]; omega),
      List.getElem_append_right (by omega)]
    congr 1
    omega
  · rw [write_ge _ _ (by omega), write_ge _ _ (by omega),
      write_ge _ _ (by rw [List.length_append]; omega)]

theorem read_take (m : Mem) (off n k : ℕ) (h : k ≤ n) :
    (m.read off n).take k = m.read off k := by
  have hn : n = k + (n - k) := by omega
  rw [hn, read_add, List.take_left' (by simp)]

theorem read_drop (m : Mem) (off n k : ℕ) (h : k ≤ n) :
    (m.read off n).drop k = m.read (off + k) (n - k) := by
  have hn : n = k + (n - k) := by omega
  conv_lhs => rw [hn]
  rw [read_add, List.drop_left' (by simp)]

theorem read_take_min (m : Mem) (off n k : ℕ) :
    (m.read off n).take k = m.read off (min k n) := by
  rcases Nat.le_total k n with hk | hk
  · rw [Nat.min_eq_left hk, read_take _ _ _ _ hk]
  · rw [Nat.min_eq_right hk, List.take_of_length_le (by rwa [read_length])]

theorem read_drop_min (m : Mem) (off n k : ℕ) :
    (m.read off n).drop k = m.read (off + min k n) (n - min k n) := by
  rcases Nat.le_total k n with hk | hk
  · rw [Nat.min_eq_left hk, read_drop _ _ _ _ hk]
  · rw [Nat.min_eq_right hk, Nat.sub_self, List.drop_eq_nil_of_le (by rwa [read_length])]
    rfl

/-- The characters of a C string of at most `n` characters. -/
def cstr (m : Mem) (a n : ℕ) : List Byte := (m.read a n).takeWhile (· ≠ 0)

def strcpy (m : Mem) (a : ℕ) (s : List Byte) : Mem := m.write a (s ++ [0])

theorem cstr_of_read {m : Mem} {a n : ℕ} {s : List Byte} (hs : ∀ b ∈ s, b ≠ 0) (hn : s.length < n)
    (h : m.read a (s.length + 1) = s ++ [0]) : m.cstr a n = s := by
  have hsplit : n = s.length + 1 + (n - s.length - 1) := by omega
  unfold cstr
  rw [hsplit, read_add, h, List.append_assoc, List.takeWhile_append_of_pos (by simpa using hs)]
  simp

end Mem

/-- The big-endian value of the four bytes at an address. -/
def beWord (m : Mem) (a : ℕ) : Word := m a ++ m (a + 1) ++ m (a + 2) ++ m (a + 3)

/-- The word a machine of the given byte order finds at an address. -/
def loadWord (h : Endian) (m : Mem) (a : ℕ) : Word :=
  match h with
  | .little => m (a + 3) ++ m (a + 2) ++ m (a + 1) ++ m a
  | .big => beWord m a

def wordBytes (h : Endian) (w : Word) : List Byte :=
  let bytes := [w.extractLsb' 24 8, w.extractLsb' 16 8, w.extractLsb' 8 8, w.extractLsb' 0 8]
  match h with
  | .little => bytes.reverse
  | .big => bytes

def storeWord (h : Endian) (m : Mem) (a : ℕ) (w : Word) : Mem := m.write a (wordBytes h w)

@[simp] theorem wordBytes_length (h : Endian) (w : Word) : (wordBytes h w).length = 4 := by
  cases h <;> rfl

theorem beWord_congr {m m' : Mem} {a : ℕ} (h : ∀ i, i < 4 → m (a + i) = m' (a + i)) :
    beWord m a = beWord m' a := by
  have h0 := h 0 (by omega)
  simp only [beWord, h 1 (by omega), h 2 (by omega), h 3 (by omega)]
  rw [show m a = m' a from h0]

theorem loadWord_congr {h : Endian} {m m' : Mem} {a : ℕ}
    (hm : ∀ i, i < 4 → m (a + i) = m' (a + i)) : loadWord h m a = loadWord h m' a := by
  cases h with
  | little =>
    have h0 := hm 0 (by omega)
    simp only [loadWord, hm 1 (by omega), hm 2 (by omega), hm 3 (by omega)]
    rw [show m a = m' a from h0]
  | big => exact beWord_congr hm

theorem append_extract (w : Word) :
    w.extractLsb' 24 8 ++ w.extractLsb' 16 8 ++ w.extractLsb' 8 8 ++ w.extractLsb' 0 8 = w := by
  apply BitVec.eq_of_getLsbD_eq
  intro i hi
  have hi' : i < 32 := hi
  simp only [BitVec.getLsbD_append, BitVec.getLsbD_extractLsb']
  split_ifs with h0 h1 h2
  · simp [h0]
  · simp only [show i - 8 < 8 by omega, decide_true, Bool.true_and]
    congr 1
    omega
  · simp only [show i - 8 - 8 < 8 by omega, decide_true, Bool.true_and]
    congr 1
    omega
  · simp only [show i - 8 - 8 - 8 < 8 by omega, decide_true, Bool.true_and]
    congr 1
    omega

theorem beWord_of_read {m : Mem} {a : ℕ} {w : Word} (h : m.read a 4 = wordBytes .big w) :
    beWord m a = w := by
  have hr : m.read a 4 = [m a, m (a + 1), m (a + 2), m (a + 3)] := rfl
  rw [hr] at h
  simp only [wordBytes, List.cons.injEq, and_true] at h
  obtain ⟨h0, h1, h2, h3⟩ := h
  rw [beWord, h0, h1, h2, h3, append_extract]

theorem wordBytes_append (a b c d : Byte) : wordBytes .big (a ++ b ++ c ++ d) = [a, b, c, d] := by
  simp only [wordBytes, List.cons.injEq, and_true]
  refine ⟨?_, ?_, ?_, ?_⟩ <;> apply BitVec.eq_of_getLsbD_eq <;> intro i hi <;>
    simp (disch := omega) only [BitVec.getLsbD_extractLsb', BitVec.getLsbD_append, hi,
      decide_true, Bool.true_and, if_pos, if_neg] <;>
    congr 1 <;> omega

theorem wordBytes_inj {v w : Word} : wordBytes .big v = wordBytes .big w ↔ v = w := by
  constructor
  · intro h
    have hread : (Mem.write (fun _ => 0) 0 (wordBytes .big v)).read 0 4 = wordBytes .big v :=
      Mem.read_write_of_length (wordBytes_length _ _)
    exact (beWord_of_read hread).symm.trans (beWord_of_read (hread.trans h))
  · rintro rfl
    rfl

@[simp] theorem loadWord_storeWord (h : Endian) (m : Mem) (a : ℕ) (w : Word) :
    loadWord h (storeWord h m a w) a = w := by
  cases h <;>
    simpa [loadWord, beWord, storeWord, Mem.write, wordBytes] using append_extract w

theorem loadWord_storeWord_disjoint (h h' : Endian) (m : Mem) {a b : ℕ} (w : Word)
    (hd : b + 4 ≤ a ∨ a + 4 ≤ b) : loadWord h (storeWord h' m a w) b = loadWord h m b := by
  apply loadWord_congr
  intro i hi
  unfold storeWord
  rcases hd with hd | hd
  · exact Mem.write_lt m _ (by omega)
  · exact Mem.write_ge m _ (by rw [wordBytes_length]; omega)

end Lib
