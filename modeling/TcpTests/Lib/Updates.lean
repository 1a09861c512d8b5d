import Mathlib.Data.Set.Defs
import Mathlib.Data.List.Basic

/-! Updates of a map, each in a region of its own: done one after the other, each
acts as if it were alone. -/
namespace Lib

section
variable {κ α β : Type*}

/-- `update k` changes the map in the region of `k` only, and what it puts there depends on
nothing else. -/
structure LocalUpdate (region : κ → Set α) (update : κ → (α → β) → α → β) : Prop where
  frame : ∀ k m a, a ∉ region k → update k m a = m a
  congr : ∀ k m m', (∀ a ∈ region k, m a = m' a) → ∀ a ∈ region k, update k m a = update k m' a

def updates (update : κ → (α → β) → α → β) : List κ → (α → β) → α → β
  | [], m => m
  | k :: ks, m => updates update ks (update k m)

variable {region : κ → Set α} {update : κ → (α → β) → α → β} {ks : List κ} {k : κ} {m : α → β}
  {a : α}

theorem updates_append (ks js : List κ) (m : α → β) :
    updates update (ks ++ js) m = updates update js (updates update ks m) := by
  induction ks generalizing m with
  | nil => rfl
  | cons k ks ih => exact ih (update k m)

theorem LocalUpdate.updates_outside (hu : LocalUpdate region update)
    (ha : ∀ k ∈ ks, a ∉ region k) : updates update ks m a = m a := by
  induction ks generalizing m with
  | nil => rfl
  | cons k ks ih =>
    have hks : updates update ks (update k m) a = update k m a :=
      ih fun j hj => ha j (List.mem_cons_of_mem k hj)
    exact hks.trans (hu.frame k m a (ha k List.mem_cons_self))

theorem LocalUpdate.updates_at (hu : LocalUpdate region update)
    (hd : ks.Pairwise fun j k => ∀ a ∈ region j, a ∉ region k) (hk : k ∈ ks)
    (ha : a ∈ region k) : updates update ks m a = update k m a := by
  induction ks generalizing m with
  | nil => cases hk
  | cons j ks ih =>
    obtain ⟨hj, hks⟩ := List.pairwise_cons.mp hd
    rcases List.mem_cons.mp hk with rfl | hk
    · exact hu.updates_outside fun i hi => hj i hi a ha
    · have hframe : ∀ b ∈ region k, update j m b = m b :=
        fun b hb => hu.frame j m b fun hmem => hj k hk b hmem hb
      have hrest : updates update ks (update j m) a = update k (update j m) a := ih hks hk
      exact hrest.trans (hu.congr k _ _ hframe a ha)

end

end Lib
