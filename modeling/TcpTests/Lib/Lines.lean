import Mathlib.Data.List.Basic
import Mathlib.Data.List.Flatten

/-! Streams of lines: pieces that end in a separator, and an unfinished last one. -/
namespace Lib

variable {α : Type*}

/-- The finished lines of a stream without their separators, and what follows the last. -/
def splitLines [DecidableEq α] (lf : α) : List α → List (List α) × List α
  | [] => ([], [])
  | b :: bs =>
    let r := splitLines lf bs
    if b = lf then ([] :: r.1, r.2)
    else
      match r.1 with
      | [] => ([], b :: r.2)
      | l :: ls => ((b :: l) :: ls, r.2)

/-- Lines with their separators, as they stand in a stream. -/
def joinLines (lf : α) (ls : List (List α)) : List α := ls.flatMap fun l => l ++ [lf]

variable {lf : α} {l rest : List α} {ls : List (List α)}

@[simp] theorem joinLines_nil : joinLines lf ([] : List (List α)) = [] := rfl

theorem joinLines_cons : joinLines lf (l :: ls) = l ++ lf :: joinLines lf ls := by
  rw [joinLines, List.flatMap_cons, List.append_assoc, List.singleton_append]
  rfl

theorem joinLines_concat : joinLines lf (ls ++ [l]) = joinLines lf ls ++ l ++ [lf] := by
  simp [joinLines]

theorem infix_line {xs : List α} (hxs : lf ∉ xs) (h : xs <:+: l ++ lf :: rest) :
    xs <:+: l ∨ xs <:+: rest := by
  have hnil : ∀ ys, lf ∉ ys → ys <+: lf :: rest → ys = [] := by
    intro ys hys hpre
    cases ys with
    | nil => rfl
    | cons y ys =>
      rw [(List.cons_prefix_cons.mp hpre).1] at hys
      exact absurd List.mem_cons_self hys
  rcases List.infix_append_iff.mp h with hl | hrest | ⟨ys, zs, rfl, hys, hzs⟩
  · exact Or.inl hl
  · rcases List.infix_cons_iff.mp hrest with hpre | hrest
    · rw [hnil xs hxs hpre]
      exact Or.inl List.nil_infix
    · exact Or.inr hrest
  · rw [hnil zs (fun hz => hxs (List.mem_append_right _ hz)) hzs, List.append_nil]
    exact Or.inl hys.isInfix

theorem infix_joinLines_length {xs : List α} {n : ℕ} (hls : ∀ l ∈ ls, l.length ≤ n)
    (hxs : lf ∉ xs) (h : xs <:+: joinLines lf ls) : xs.length ≤ n := by
  induction ls with
  | nil =>
    rw [joinLines_nil, List.infix_nil] at h
    rw [h]
    exact Nat.zero_le n
  | cons l ls ih =>
    rw [joinLines_cons] at h
    rcases infix_line hxs h with hl | hrest
    · exact Nat.le_trans hl.length_le (hls l List.mem_cons_self)
    · exact ih (fun m hm => hls m (List.mem_cons_of_mem _ hm)) hrest

variable [DecidableEq α]

theorem splitLines_of_notMem (hl : lf ∉ l) : splitLines lf l = ([], l) := by
  induction l with
  | nil => rfl
  | cons b bs ih =>
    have hb : b ≠ lf := fun h => hl (by simp [h])
    have hbs : lf ∉ bs := fun h => hl (by simp [h])
    simp only [splitLines, ih hbs, if_neg hb]

theorem takeWhile_line (hl : lf ∉ l) : (l ++ lf :: rest).takeWhile (· ≠ lf) = l := by
  rw [List.takeWhile_append_of_pos]
  · simp
  · intro b hb
    have hne : b ≠ lf := fun h => hl (h ▸ hb)
    simpa using hne

theorem splitLines_line (hl : lf ∉ l) :
    splitLines lf (l ++ lf :: rest) = (l :: (splitLines lf rest).1, (splitLines lf rest).2) := by
  induction l with
  | nil => simp only [List.nil_append, splitLines, if_true]
  | cons b bs ih =>
    have hb : b ≠ lf := fun h => hl (by simp [h])
    have hbs : lf ∉ bs := fun h => hl (by simp [h])
    simp only [List.cons_append, splitLines, ih hbs, if_neg hb]

theorem splitLines_joinLines (hls : ∀ l ∈ ls, lf ∉ l) :
    (splitLines lf (joinLines lf ls ++ rest)).1 = ls ++ (splitLines lf rest).1 := by
  induction ls with
  | nil => rfl
  | cons l ls ih =>
    rw [joinLines_cons, List.append_assoc, List.cons_append, splitLines_line (hls l (by simp)),
      ih fun m hm => hls m (by simp [hm]), List.cons_append]

end Lib
