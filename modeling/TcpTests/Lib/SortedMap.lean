import Mathlib.Order.Lattice
import Mathlib.Data.List.Basic

/-! Maps kept in the order of their keys, one value for each key. -/
namespace Lib

/-- The entries of a map, the least key first. -/
structure SortedMap (κ α : Type*) [LinearOrder κ] where
  entries : List (κ × α)
  sorted : entries.Pairwise (·.1 < ·.1)

/-- Entries with one written, in the place of an entry with the same key. -/
def insertEntry {κ α : Type*} [LinearOrder κ] (k : κ) (a : α) : List (κ × α) → List (κ × α)
  | [] => [(k, a)]
  | e :: es =>
    if k < e.1 then (k, a) :: e :: es
    else if k = e.1 then (k, a) :: es
    else e :: insertEntry k a es

section
variable {κ α : Type*} [LinearOrder κ] {k : κ} {a : α} {e : κ × α} {es : List (κ × α)}

theorem mem_insertEntry (hes : es.Pairwise (·.1 < ·.1)) :
    e ∈ insertEntry k a es ↔ e = (k, a) ∨ e ∈ es ∧ e.1 ≠ k := by
  induction es with
  | nil => simp [insertEntry]
  | cons b es ih =>
    obtain ⟨hb, hes⟩ := List.pairwise_cons.mp hes
    unfold insertEntry
    rcases lt_trichotomy k b.1 with hlt | heq | hgt
    · rw [if_pos hlt, List.mem_cons]
      have hne : e ∈ b :: es → e.1 ≠ k := by
        intro he
        rcases List.mem_cons.mp he with rfl | he
        · exact hlt.ne'
        · exact (hlt.trans (hb e he)).ne'
      rw [and_iff_left_of_imp hne]
    · rw [if_neg (heq ▸ lt_irrefl _), if_pos heq, List.mem_cons, List.mem_cons]
      constructor
      · rintro (he | he)
        · exact Or.inl he
        · exact Or.inr ⟨Or.inr he, heq ▸ (hb e he).ne'⟩
      · rintro (he | ⟨rfl | he, hne⟩)
        · exact Or.inl he
        · exact absurd heq.symm hne
        · exact Or.inr he
    · rw [if_neg hgt.not_gt, if_neg hgt.ne', List.mem_cons, List.mem_cons, ih hes]
      constructor
      · rintro (rfl | he | ⟨he, hne⟩)
        · exact Or.inr ⟨Or.inl rfl, hgt.ne⟩
        · exact Or.inl he
        · exact Or.inr ⟨Or.inr he, hne⟩
      · rintro (he | ⟨rfl | he, hne⟩)
        · exact Or.inr (Or.inl he)
        · exact Or.inl rfl
        · exact Or.inr (Or.inr ⟨he, hne⟩)

theorem insertEntry_sorted (hes : es.Pairwise (·.1 < ·.1)) :
    (insertEntry k a es).Pairwise (·.1 < ·.1) := by
  induction es with
  | nil => exact List.pairwise_singleton _ _
  | cons b es ih =>
    obtain ⟨hb, hrest⟩ := List.pairwise_cons.mp hes
    unfold insertEntry
    rcases lt_trichotomy k b.1 with hlt | heq | hgt
    · rw [if_pos hlt]
      refine List.pairwise_cons.mpr ⟨?_, hes⟩
      intro c hc
      rcases List.mem_cons.mp hc with rfl | hc
      · exact hlt
      · exact hlt.trans (hb c hc)
    · rw [if_neg (heq ▸ lt_irrefl _), if_pos heq]
      exact List.pairwise_cons.mpr ⟨fun c hc => heq ▸ hb c hc, hrest⟩
    · rw [if_neg hgt.not_gt, if_neg hgt.ne']
      refine List.pairwise_cons.mpr ⟨?_, ih hrest⟩
      intro c hc
      rcases (mem_insertEntry hrest).mp hc with rfl | ⟨hc, -⟩
      · exact hgt
      · exact hb c hc

end

namespace SortedMap
variable {κ α : Type*} [LinearOrder κ] {m : SortedMap κ α} {k : κ} {a : α} {e : κ × α}

def empty : SortedMap κ α := ⟨[], List.Pairwise.nil⟩

def insert (m : SortedMap κ α) (k : κ) (a : α) : SortedMap κ α :=
  ⟨insertEntry k a m.entries, insertEntry_sorted m.sorted⟩

def last? (m : SortedMap κ α) : Option κ := m.entries.getLast?.map Prod.fst

@[simp] theorem entries_empty : (empty : SortedMap κ α).entries = [] := rfl

@[simp] theorem last?_empty : (empty : SortedMap κ α).last? = none := rfl

theorem mem_insert : e ∈ (m.insert k a).entries ↔ e = (k, a) ∨ e ∈ m.entries ∧ e.1 ≠ k :=
  mem_insertEntry m.sorted

theorem last?_mem (h : m.last? = some k) : ∃ a, (k, a) ∈ m.entries := by
  obtain ⟨e, he, rfl⟩ := Option.map_eq_some_iff.mp h
  exact ⟨e.2, List.mem_of_getLast? he⟩

theorem le_last? (h : m.last? = some k) (he : e ∈ m.entries) : e.1 ≤ k := by
  obtain ⟨c, hc, rfl⟩ := Option.map_eq_some_iff.mp h
  obtain ⟨es, hes⟩ := List.getLast?_eq_some_iff.mp hc
  rw [hes] at he
  rcases List.mem_append.mp he with he | he
  · have hsorted := m.sorted
    rw [hes, List.pairwise_append] at hsorted
    exact (hsorted.2.2 e he c (List.mem_singleton_self c)).le
  · rw [List.mem_singleton.mp he]

theorem last?_eq_none : m.last? = none ↔ m.entries = [] := by
  rw [last?, Option.map_eq_none_iff, List.getLast?_eq_none_iff]

theorem last?_eq (he : (k, a) ∈ m.entries) (hle : ∀ e ∈ m.entries, e.1 ≤ k) :
    m.last? = some k := by
  cases h : m.last? with
  | none =>
    rw [last?_eq_none.mp h] at he
    cases he
  | some n =>
    obtain ⟨b, hb⟩ := last?_mem h
    exact congrArg some (le_antisymm (hle _ hb) (le_last? h he))

end SortedMap

end Lib
