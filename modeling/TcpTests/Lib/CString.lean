import TcpTests.Lib.Block

/-! C strings in a block, and in a block of their own. A function that looks for the NUL of a block
without one is `none`. -/
namespace Lib.Block

/-- What a function reads that is given the address of the block as a string. -/
def cstr (block : List Byte) : Option (List Byte) :=
  if block.contains 0 then some (block.takeWhile (· ≠ 0)) else none

/-- `sprintf(block + strlen(block), ..)`, or `strcat`. -/
def strcat (block text : List Byte) : Option (List Byte) := do
  let there ← cstr block
  write block there.length (text ++ [0])

structure HasText (block text : List Byte) : Prop where
  split : ∃ rest, block = text ++ 0 :: rest
  noNul : 0 ∉ text

variable {block text more : List Byte} {off : ℕ}

theorem HasText.cstr (h : HasText block text) : cstr block = some text := by
  obtain ⟨rest, rfl⟩ := h.split
  unfold Block.cstr
  rw [if_pos (by simp), List.takeWhile_append_of_pos]
  · simp
  · intro b hb
    have hne : b ≠ 0 := fun h0 => h.noNul (h0 ▸ hb)
    simpa using hne

theorem hasText_of_take (htake : block.take off = text) (hnul : block[off]? = some 0)
    (hno : 0 ∉ text) : HasText block text := by
  obtain ⟨hlt, hget⟩ := List.getElem?_eq_some_iff.mp hnul
  refine ⟨⟨block.drop (off + 1), ?_⟩, hno⟩
  have hdrop := List.drop_eq_getElem_cons hlt
  rw [hget] at hdrop
  rw [← htake, ← hdrop, List.take_append_drop]

theorem HasText.take (h : HasText block text) : block.take text.length = text := by
  obtain ⟨rest, rfl⟩ := h.split
  exact List.take_left

theorem exists_strcat (h : HasText block text) (hno : 0 ∉ more)
    (hfit : text.length + more.length < block.length) :
    ∃ block', strcat block more = some block' ∧ HasText block' (text ++ more) ∧
      block'.length = block.length := by
  obtain ⟨block', hw, hp⟩ := exists_printed block text.length more hfit
  have hstored := hp.stored
  rw [h.take] at hstored
  refine ⟨block', ?_, hasText_of_take hstored hp.nul ?_, hp.length⟩
  · rw [strcat, h.cstr]
    exact hw
  · intro hmem
    rcases List.mem_append.mp hmem with hm | hm
    · exact h.noNul hm
    · exact hno hm

theorem exists_write (block : List Byte) (off : ℕ) (bs : List Byte)
    (hfit : off + bs.length ≤ block.length) :
    ∃ block', write block off bs = some block' ∧
      block'.take (off + bs.length) = block.take off ++ bs ∧ block'.length = block.length := by
  have hw : write block off bs = some _ := if_pos hfit
  exact ⟨_, hw, write_take_end hw, write_length hw⟩

end Lib.Block

namespace Lib

/-- A string of C: its characters, which a NUL follows in memory. -/
structure CString where
  chars : List Byte
  noNul : 0 ∉ chars

namespace CString

def mem (s : CString) : List Byte := s.chars ++ [0]

variable {s : CString} {i : ℕ}

theorem mem_hasText (s : CString) : Block.HasText s.mem s.chars := ⟨⟨[], rfl⟩, s.noNul⟩

theorem mem_getElem? (hi : i < s.chars.length) : s.mem[i]? = some s.chars[i] := by
  rw [mem, List.getElem?_append_left hi, List.getElem?_eq_getElem hi]

theorem mem_end : s.mem[s.chars.length]? = some 0 := by
  rw [mem, List.getElem?_concat_length]

theorem ne_zero (hi : i < s.chars.length) : s.chars[i] ≠ 0 :=
  fun h => s.noNul (h ▸ List.getElem_mem hi)

end CString

end Lib
