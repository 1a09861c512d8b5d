import Mathlib.Data.List.Basic
import Mathlib.Data.List.TakeDrop
import TcpTests.Lib.Memory

/-! Blocks of the heap with their real size. A store that would leave its block is `none`. -/
namespace Lib

/-- What an allocator finds in a block of a given size. -/
abbrev Heap := ℕ → ℕ → Byte

namespace Block

def malloc (heap : Heap) (n : ℕ) : List Byte := (List.range n).map (heap n)

/-- The bytes of the old block stay, as far as the new one goes. -/
def realloc (heap : Heap) (block : List Byte) (n : ℕ) : List Byte :=
  block.take n ++ (malloc heap n).drop block.length

def write (block : List Byte) (off : ℕ) (bs : List Byte) : Option (List Byte) :=
  if off + bs.length ≤ block.length then
    some (block.take off ++ bs ++ block.drop (off + bs.length))
  else none

variable {heap : Heap} {block block' bs cs : List Byte} {off n : ℕ}

@[simp] theorem malloc_length (heap : Heap) (n : ℕ) : (malloc heap n).length = n := by
  simp [malloc]

@[simp] theorem realloc_length (heap : Heap) (block : List Byte) (n : ℕ) :
    (realloc heap block n).length = n := by
  simp [realloc]
  omega

theorem realloc_take (hoff : off ≤ n) (hlen : off ≤ block.length) :
    (realloc heap block n).take off = block.take off := by
  unfold realloc
  rw [List.take_append_of_le_length (by rw [List.length_take]; omega), List.take_take,
    Nat.min_eq_left hoff]

theorem write_length (h : write block off bs = some block') : block'.length = block.length := by
  unfold write at h
  split_ifs at h with hin
  cases h
  simp
  omega

theorem off_le_of_write (h : write block off bs = some block') : off ≤ block.length := by
  unfold write at h
  split_ifs at h with hin
  omega

theorem write_take_end (h : write block off bs = some block') :
    block'.take (off + bs.length) = block.take off ++ bs := by
  have hoff := off_le_of_write h
  unfold write at h
  split_ifs at h with hin
  cases h
  apply List.take_left'
  rw [List.length_append, List.length_take, Nat.min_eq_left hoff]

theorem write_append_take (h : write block off (bs ++ cs) = some block') :
    block'.take (off + bs.length) = block.take off ++ bs := by
  have hend := congrArg (List.take (off + bs.length)) (write_take_end h)
  have hoff := off_le_of_write h
  rw [List.take_take, List.length_append, Nat.min_eq_left (by omega), ← List.append_assoc] at hend
  rw [hend, List.take_left' (by rw [List.length_append, List.length_take, Nat.min_eq_left hoff])]

theorem write_append_getElem? {b : Byte} (h : write block off (bs ++ [b]) = some block') :
    block'[off + bs.length]? = some b := by
  have hend := write_take_end h
  have hoff := off_le_of_write h
  have hlen : (block.take off ++ bs).length = off + bs.length := by
    rw [List.length_append, List.length_take, Nat.min_eq_left hoff]
  calc block'[off + bs.length]?
    _ = (block'.take (off + (bs ++ [b]).length))[off + bs.length]? := by
      rw [List.getElem?_take_of_lt (by simp)]
    _ = ((block.take off ++ bs) ++ [b])[off + bs.length]? := by rw [hend, List.append_assoc]
    _ = some b := by rw [← hlen, List.getElem?_concat_length]

/-- `block'` is `block` with a text and its NUL stored at `off`. -/
structure Printed (block : List Byte) (off : ℕ) (text block' : List Byte) : Prop where
  length : block'.length = block.length
  stored : block'.take (off + text.length) = block.take off ++ text
  nul : block'[off + text.length]? = some 0

theorem exists_printed (block : List Byte) (off : ℕ) (text : List Byte)
    (h : off + text.length < block.length) :
    ∃ block', write block off (text ++ [0]) = some block' ∧ Printed block off text block' := by
  have hin : off + (text ++ [0]).length ≤ block.length := by
    rw [List.length_append, List.length_singleton]
    omega
  refine ⟨_, if_pos hin, ?_⟩
  have hw : write block off (text ++ [0]) = some _ := if_pos hin
  exact ⟨write_length hw, write_append_take hw, write_append_getElem? hw⟩

theorem Printed.lt {text : List Byte} (h : Printed block off text block') :
    off + text.length < block.length := by
  obtain ⟨hlt, -⟩ := List.getElem?_eq_some_iff.mp h.nul
  rwa [h.length] at hlt

theorem Printed.take {text : List Byte} (h : Printed block off text block') :
    block'.take off = block.take off := by
  have hlt := h.lt
  have htake := congrArg (List.take off) h.stored
  rwa [List.take_take, Nat.min_eq_left (by omega), List.take_left'] at htake
  rw [List.length_take]
  omega

end Block

/-- `vsnprintf`: at most `n` bytes with the NUL are stored. The return value is the length of the
text. -/
def vsnprintf (block : List Byte) (off n : ℕ) (text : List Byte) : Option (List Byte × ℕ) :=
  if n = 0 then some (block, text.length)
  else (Block.write block off (text.take (n - 1) ++ [0])).map fun block => (block, text.length)

/-- `vsnprintf_s`: at most `count` bytes and a NUL are stored. The return value is the length of
the text, or -1 if it was cut. Without room for the NUL the call is an invalid one. -/
def vsnprintfS (block : List Byte) (off sizeOfBuffer count : ℕ) (text : List Byte) :
    Option (List Byte × ℤ) :=
  if text.length ≤ count ∧ text.length < sizeOfBuffer then
    (Block.write block off (text ++ [0])).map fun block => (block, text.length)
  else if count < sizeOfBuffer then
    (Block.write block off (text.take count ++ [0])).map fun block => (block, -1)
  else none

section
variable {block block' text : List Byte} {off n count : ℕ} {r : ℤ}

theorem vsnprintfS_cut (h : vsnprintfS block off n count text = some (block', r)) (hr : r < 0) :
    count < n ∧ count < text.length := by
  unfold vsnprintfS at h
  split_ifs at h with hfit hroom
  · obtain ⟨_, -, hret⟩ := Option.map_eq_some_iff.mp h
    cases hret
    omega
  · omega

theorem exists_vsnprintf (text : List Byte) (hn : 0 < n) (hin : off + n ≤ block.length) :
    ∃ block', vsnprintf block off n text = some (block', text.length) ∧
      Block.Printed block off (text.take (n - 1)) block' := by
  obtain ⟨block', hw, hp⟩ := Block.exists_printed block off (text.take (n - 1))
    (by rw [List.length_take]; omega)
  refine ⟨block', ?_, hp⟩
  rw [vsnprintf, if_neg (by omega), hw, Option.map_some]

theorem exists_vsnprintfS (text : List Byte) (hn : 0 < n) (hin : off + n ≤ block.length) :
    ∃ block', vsnprintfS block off n (n - 1) text =
        some (block', if text.length < n then (text.length : ℤ) else -1) ∧
      Block.Printed block off (text.take (n - 1)) block' := by
  obtain ⟨block', hw, hp⟩ := Block.exists_printed block off (text.take (n - 1))
    (by rw [List.length_take]; omega)
  refine ⟨block', ?_, hp⟩
  unfold vsnprintfS
  by_cases hfit : text.length < n
  · rw [List.take_of_length_le (by omega)] at hw
    rw [if_pos (by omega), if_pos hfit, hw, Option.map_some]
  · rw [if_neg (by omega), if_pos (by omega), if_neg hfit, hw, Option.map_some]

end

end Lib
