import Mathlib.Data.List.Basic
import Mathlib.Data.List.Flatten

/-! Streams whose pieces are mixed in one list, each with the key of its stream. -/
namespace Lib

variable {κ α : Type*} [DecidableEq κ] {k : κ} {ps qs : List (κ × List α)} {p : κ × List α}

def streamOf (k : κ) (ps : List (κ × List α)) : List α := (ps.filter (·.1 = k)).flatMap (·.2)

def merged (ps : List (κ × List α)) : List α := ps.flatMap (·.2)

@[simp] theorem streamOf_nil : streamOf k ([] : List (κ × List α)) = [] := rfl

theorem streamOf_append : streamOf k (ps ++ qs) = streamOf k ps ++ streamOf k qs := by
  rw [streamOf, List.filter_append, List.flatMap_append]
  rfl

theorem streamOf_singleton (bytes : List α) : streamOf k [(k, bytes)] = bytes := by
  simp [streamOf]

theorem streamOf_eq_nil (h : ∀ p ∈ ps, p.1 ≠ k) : streamOf k ps = [] := by
  have hnone : ps.filter (·.1 = k) = [] :=
    List.filter_eq_nil_iff.mpr fun p hp => by simpa using h p hp
  rw [streamOf, hnone, List.flatMap_nil]

omit [DecidableEq κ] in
theorem merged_append : merged (ps ++ qs) = merged ps ++ merged qs := by
  simp [merged]

end Lib
