import Mathlib.Data.List.Basic
import Mathlib.Data.List.Forall2
import Mathlib.Order.Lattice

/-! Facts about lists: where a part of a list stands when one more element is appended, related
lists, the elements that a filter keeps, and the greatest element. -/
namespace Lib

section
variable {α β : Type*} {R : α → β → Prop} {l₁ l₂ pre post xs : List α} {l : List β} {a b : α}
  {p : α → Bool} {n : ℕ}

theorem concat_eq_append_cons :
    xs ++ [a] = pre ++ b :: post ↔
      (post = [] ∧ a = b ∧ xs = pre) ∨ ∃ post', post = post' ++ [a] ∧ xs = pre ++ b :: post' := by
  constructor
  · intro h
    rcases List.eq_nil_or_concat' post with rfl | ⟨post, c, rfl⟩
    · obtain ⟨hxs, ha⟩ := List.append_inj' h rfl
      exact Or.inl ⟨rfl, List.singleton_inj.mp ha, hxs⟩
    · rw [← List.cons_append, ← List.append_assoc] at h
      obtain ⟨hxs, ha⟩ := List.append_inj' h rfl
      rw [List.singleton_inj] at ha
      exact Or.inr ⟨post, by rw [ha], hxs⟩
  · rintro (⟨rfl, rfl, rfl⟩ | ⟨post, rfl, rfl⟩)
    · rfl
    · rw [List.append_assoc, List.cons_append]

theorem forall₂_append_left (h : List.Forall₂ R (l₁ ++ l₂) l) :
    ∃ r₁ r₂, l = r₁ ++ r₂ ∧ List.Forall₂ R l₁ r₁ ∧ List.Forall₂ R l₂ r₂ := by
  induction l₁ generalizing l with
  | nil => exact ⟨[], l, rfl, .nil, h⟩
  | cons a l₁ ih =>
    cases h with
    | cons hab h =>
      obtain ⟨r₁, r₂, rfl, h₁, h₂⟩ := ih h
      exact ⟨_ :: r₁, r₂, rfl, .cons hab h₁, h₂⟩

theorem exists_getElem_filter (hn : n < (xs.filter p).length) :
    ∃ k, ∃ hk : k < xs.length, p xs[k] = true ∧ (xs.take k).countP p = n ∧
      (xs.filter p)[n] = xs[k] := by
  have hcount : n < xs.countP p := by rwa [List.countP_eq_length_filter]
  have hk : xs.findIdxNth p n < xs.length := List.findIdxNth_lt_length_of_lt_countP hcount
  refine ⟨xs.findIdxNth p n, hk, List.pos_findIdxNth_getElem, ?_, ?_⟩
  · rw [← List.countPBefore_eq_countP_take]
    exact List.countPBefore_findIdxNth_of_lt_countP hcount
  · rw [List.getElem_filter_eq_getElem_getElem_findIdxs hn]
    simp only [List.getElem_findIdxs_eq_findIdxNth]

theorem le_foldl_max (l : List ℕ) (n : ℕ) : n ≤ l.foldl max n ∧ ∀ m ∈ l, m ≤ l.foldl max n := by
  induction l generalizing n with
  | nil => exact ⟨le_rfl, nofun⟩
  | cons a l ih =>
    obtain ⟨hn, hl⟩ := ih (max n a)
    refine ⟨(le_max_left n a).trans hn, ?_⟩
    intro m hm
    rcases List.mem_cons.mp hm with rfl | hm
    · exact (le_max_right n m).trans hn
    · exact hl m hm

end

end Lib
