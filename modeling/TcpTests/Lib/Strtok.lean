import Mathlib.Data.List.Infix
import Mathlib.Data.List.TakeWhile

/-! Texts that are cut at separators, one piece at a time. -/
namespace Lib

variable {α : Type*} {sep : α → Bool} {piece rest : List α} {c : α}

/-- The next piece, and what follows the separator that ends it. -/
def strtok (sep : α → Bool) (s : List α) : Option (List α × List α) :=
  match s.dropWhile sep with
  | [] => none
  | c :: cs => some ((c :: cs).takeWhile (!sep ·), ((c :: cs).dropWhile (!sep ·)).tail)

/-- A piece: it is not empty, and has no separator in it. -/
structure IsPiece (sep : α → Bool) (piece : List α) : Prop where
  ne_nil : piece ≠ []
  noSep : ∀ b ∈ piece, sep b = false

private theorem strtok_append (hp : IsPiece sep piece) (s : List α) : strtok sep (piece ++ s) =
    some ((piece ++ s).takeWhile (!sep ·), ((piece ++ s).dropWhile (!sep ·)).tail) := by
  obtain ⟨hne, hno⟩ := hp
  cases piece with
  | nil => exact absurd rfl hne
  | cons c cs =>
    have hc : ¬ sep c = true := by simp [hno c (by simp)]
    have hdrop : (c :: cs ++ s).dropWhile sep = c :: cs ++ s := List.dropWhile_cons_of_neg hc
    rw [strtok, hdrop]
    rfl

theorem strtok_piece (hp : IsPiece sep piece) (hc : sep c = true) :
    strtok sep (piece ++ c :: rest) = some (piece, rest) := by
  have hall : ∀ b ∈ piece, (!sep b) = true := fun b hb => by simp [hp.noSep b hb]
  have hstop : ¬ (!sep c) = true := by simp [hc]
  rw [strtok_append hp, List.takeWhile_append_of_pos hall, List.dropWhile_append_of_pos hall,
    List.takeWhile_cons_of_neg (p := (!sep ·)) hstop,
    List.dropWhile_cons_of_neg (p := (!sep ·)) hstop, List.append_nil, List.tail_cons]

theorem strtok_last (hp : IsPiece sep piece) : strtok sep piece = some (piece, []) := by
  have hall : ∀ b ∈ piece, (!sep b) = true := fun b hb => by simp [hp.noSep b hb]
  have happ := strtok_append hp []
  rw [List.append_nil, List.takeWhile_eq_self_iff.mpr hall, List.dropWhile_eq_nil_iff.mpr hall,
    List.tail_nil] at happ
  exact happ

end Lib
