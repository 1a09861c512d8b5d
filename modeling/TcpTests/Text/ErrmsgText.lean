import Mathlib.Data.List.DropRight
import TcpTests.Lib.CString

/-! `get_errmsg_text` of `winsockerr.cxx` and of `unix_server.cxx`, which have the same lines. An
access outside of the text and its NUL is `none`. -/
namespace TcpTests.Text
open Lib

/-- `> ' '`, of a plain `char`. -/
def isVisible (c : Byte) : Bool := (0x20#8).slt c

/-- The largest `size_t`, which `len` is after `len--` of zero. -/
def sizeMax : ℕ := 2 ^ 64 - 1

/-- `while(len--)`: the buffer and `len` after the loop. -/
def trimLoop (ptr : List Byte) : ℕ → Option (List Byte × ℕ)
  | 0 => some (ptr, sizeMax)
  | len + 1 => do
    let c ← ptr[len]?
    if isVisible c then some (ptr, len)
    else
      let ptr ← Block.write ptr len [0]
      trimLoop ptr len

/-- What is returned: the text in the buffer, or `NULL` with the buffer freed. -/
inductive ErrmsgText
  | text (chars : List Byte)
  | freed
  deriving DecidableEq, Repr

def getErrmsgText (m : CString) : Option ErrmsgText := do
  let text ← Block.cstr m.mem
  let (ptr, len) ← trimLoop m.mem text.length
  if len ≠ 0 then (Block.cstr ptr).map .text else some .freed

def trimmed (m : CString) : List Byte := m.chars.rdropWhile fun c => !isVisible c

/-- What is to be returned: the trimmed text, if there is something to see in it. -/
def expectedText (m : CString) : ErrmsgText :=
  if m.chars.any isVisible then .text (trimmed m) else .freed

section
variable {m : CString} {chars : List Byte} {p : Byte → Bool}

/-- The loop trims the text, and stops at its last character, if any is left. -/
theorem trimLoop_trims (chars rest : List Byte) :
    ∃ rest', trimLoop (chars ++ 0 :: rest) chars.length =
      some (chars.rdropWhile (fun c => !isVisible c) ++ 0 :: rest',
        if chars.rdropWhile (fun c => !isVisible c) = [] then sizeMax
        else (chars.rdropWhile fun c => !isVisible c).length - 1) := by
  induction chars using List.reverseRecOn generalizing rest with
  | nil => exact ⟨rest, rfl⟩
  | append_singleton chars c ih =>
    have hget : (chars ++ [c] ++ 0 :: rest)[chars.length]? = some c := by
      rw [List.append_assoc, List.singleton_append, List.getElem?_append_right le_rfl, Nat.sub_self,
        List.getElem?_cons_zero]
    have hlen : (chars ++ [c]).length = chars.length + 1 := List.length_append
    rw [hlen, trimLoop, hget, Option.bind_eq_bind, Option.bind_some]
    cases hc : isVisible c with
    | true =>
      rw [List.rdropWhile_concat_neg _ _ _ (by simp [hc]), if_pos rfl,
        if_neg (List.append_ne_nil_of_right_ne_nil _ (List.cons_ne_nil _ _)), hlen,
        Nat.add_sub_cancel]
      exact ⟨rest, rfl⟩
    | false =>
      have hwrite : Block.write (chars ++ [c] ++ 0 :: rest) chars.length [0] =
          some (chars ++ 0 :: 0 :: rest) := by
        rw [Block.write, if_pos (by simp)]
        simp
      obtain ⟨rest', hloop⟩ := ih (0 :: rest)
      rw [List.rdropWhile_concat_pos _ _ _ (by simp [hc]), if_neg Bool.false_ne_true, hwrite,
        Option.bind_eq_bind, Option.bind_some]
      exact ⟨rest', hloop⟩

theorem trimmed_noNul (m : CString) : 0 ∉ trimmed m := by
  intro hmem
  exact m.noNul ((List.rdropWhile_prefix _ _).subset hmem)

/-- A text of one character passes for an empty one, and an empty one for a longer one. -/
theorem getErrmsgText_eq (m : CString) :
    getErrmsgText m = some (if (trimmed m).length = 1 then .freed else .text (trimmed m)) := by
  obtain ⟨rest', hloop⟩ : ∃ rest', trimLoop m.mem m.chars.length =
      some (trimmed m ++ 0 :: rest', if trimmed m = [] then sizeMax else (trimmed m).length - 1) :=
    trimLoop_trims m.chars []
  have hptr : Block.HasText (trimmed m ++ 0 :: rest') (trimmed m) :=
    ⟨⟨rest', rfl⟩, trimmed_noNul m⟩
  have hlen : ((if trimmed m = [] then sizeMax else (trimmed m).length - 1) ≠ 0) ↔
      (trimmed m).length ≠ 1 := by
    by_cases hnil : trimmed m = []
    · rw [if_pos hnil, hnil]
      exact ⟨fun _ => by decide, fun _ => by decide⟩
    · have hpos := List.length_pos_iff.mpr hnil
      rw [if_neg hnil]
      omega
  rw [getErrmsgText, m.mem_hasText.cstr, Option.bind_eq_bind, Option.bind_some, hloop,
    Option.bind_eq_bind, Option.bind_some]
  dsimp only
  by_cases hone : (trimmed m).length = 1
  · rw [if_neg (fun h => hlen.mp h hone), if_pos hone]
  · rw [if_pos (hlen.mpr hone), if_neg hone, hptr.cstr]
    rfl

theorem trimmed_eq_nil_iff : trimmed m = [] ↔ ¬ m.chars.any isVisible = true := by
  rw [trimmed, List.rdropWhile_eq_nil_iff, List.any_eq_true]
  push Not
  simp only [Bool.not_eq_true', Bool.not_eq_true]

theorem lt_rdropWhile_length_iff {n : ℕ} :
    n < (chars.rdropWhile p).length ↔ ∃ i c, n ≤ i ∧ chars[i]? = some c ∧ p c = false := by
  have hsplit := List.rdropWhile_append_rtakeWhile (p := p) (l := chars)
  constructor
  · intro hn
    have hne : chars.rdropWhile p ≠ [] := List.length_pos_iff.mp (by omega)
    have hlast := List.rdropWhile_last_not p chars hne
    have hget : (chars.rdropWhile p ++ chars.rtakeWhile p)[(chars.rdropWhile p).length - 1]? =
        some ((chars.rdropWhile p).getLast hne) := by
      rw [List.getElem?_append_left (by omega), List.getLast_eq_getElem, List.getElem?_eq_getElem]
    rw [hsplit] at hget
    exact ⟨_, _, by omega, hget, by simpa using hlast⟩
  · rintro ⟨i, c, hni, hget, hp⟩
    by_contra hshort
    rw [← hsplit, List.getElem?_append_right (by omega)] at hget
    have hmem : c ∈ chars.rtakeWhile p := List.mem_of_getElem? hget
    rw [List.mem_rtakeWhile_imp hmem] at hp
    cases hp

/-- Nothing outside of the text is touched. It comes back trimmed, or freed when there is nothing to
see, only if there is something to see behind its first character. -/
theorem get_errmsg_text_iff (m : CString) :
    ∃ r, getErrmsgText m = some r ∧
      (r = expectedText m ↔ ∃ i c, 1 ≤ i ∧ m.chars[i]? = some c ∧ isVisible c = true) := by
  have hlong : 1 < (trimmed m).length ↔
      ∃ i c, 1 ≤ i ∧ m.chars[i]? = some c ∧ isVisible c = true := by
    rw [trimmed, lt_rdropWhile_length_iff]
    simp only [Bool.not_eq_false']
  refine ⟨_, getErrmsgText_eq m, ?_⟩
  rw [← hlong, expectedText]
  by_cases hnil : trimmed m = []
  · rw [if_neg (trimmed_eq_nil_iff.mp hnil), hnil]
    simp
  · have hsome := not_not.mp (fun h => hnil (trimmed_eq_nil_iff.mpr h))
    have hpos := List.length_pos_iff.mpr hnil
    rw [if_pos hsome]
    by_cases hone : (trimmed m).length = 1
    · rw [if_pos hone]
      constructor
      · intro h
        cases h
      · intro h
        omega
    · rw [if_neg hone]
      exact ⟨fun _ => by omega, fun _ => rfl⟩

end

/-- `"A"` is taken for a text without anything to see, and the empty text is returned. -/
theorem get_errmsg_text_short :
    getErrmsgText ⟨[0x41#8], by decide⟩ = some .freed ∧
      expectedText ⟨[0x41#8], by decide⟩ = .text [0x41#8] ∧
      getErrmsgText ⟨[], by decide⟩ = some (.text []) ∧
      expectedText ⟨[], by decide⟩ = .freed := by
  decide

end TcpTests.Text
