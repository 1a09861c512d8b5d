import Mathlib.Data.Option.Basic
import Mathlib.Logic.Function.Basic

/-! Tables with at most one entry for each key, as the descriptors of a process, and what holds of
all their entries. -/
namespace Lib

section
variable {κ α : Type*} [DecidableEq κ] {table : κ → Option α} {P : α → Prop} {k : κ} {a : α}

theorem forall_update_some (h : ∀ k, ∀ a ∈ table k, P a) (ha : P a) :
    ∀ k', ∀ b ∈ Function.update table k (some a) k', P b := by
  intro k' b hb
  by_cases hk : k' = k
  · rw [hk, Function.update_self] at hb
    cases hb
    exact ha
  · rw [Function.update_of_ne hk] at hb
    exact h k' b hb

theorem forall_update_none (h : ∀ k, ∀ a ∈ table k, P a) :
    ∀ k', ∀ b ∈ Function.update table k none k', P b := by
  intro k' b hb
  by_cases hk : k' = k
  · rw [hk, Function.update_self] at hb
    cases hb
  · rw [Function.update_of_ne hk] at hb
    exact h k' b hb

theorem isSome_update_some (ha : (table k).isSome = true) (b : α) (k' : κ) :
    (Function.update table k (some b) k').isSome = (table k').isSome := by
  by_cases hk : k' = k
  · rw [hk, Function.update_self, ha]
    rfl
  · rw [Function.update_of_ne hk]

end

end Lib
