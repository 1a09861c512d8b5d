import Mathlib.Data.List.Infix

/-! A file that a program only adds to, opened at the first text and given up for good when it
cannot be opened or when a text is cut short. -/
namespace Lib

/-- A stream pointer: null, an open file, or the value that stands for a file given up. -/
inductive Handle
  | null
  | opened
  | failed
  deriving DecidableEq, Repr

structure LogFile (α : Type*) where
  content : List α
  handle : Handle

namespace LogFile
variable {α : Type*}

/-- The file is opened unless it was before. What is in it goes when it is made anew. -/
def ready (f : LogFile α) (anew fopened : Bool) : LogFile α :=
  match f.handle with
  | .null =>
    if fopened then ⟨if anew then [] else f.content, .opened⟩ else ⟨f.content, .failed⟩
  | _ => f

/-- A text is added to an open file, of which the disk takes so much. -/
def append (f : LogFile α) (text : List α) (taken : ℕ) : LogFile α :=
  match f.handle with
  | .opened =>
    if (text.take taken).length ≠ text.length then ⟨f.content ++ text.take taken, .failed⟩
    else ⟨f.content ++ text.take taken, .opened⟩
  | _ => f

/-- The texts that were to be logged, behind what the open file started with: they are all there
while it is open, and what is there of them has no gap in any case. -/
structure Logs (old base texts : List α) (f : LogFile α) : Prop where
  null : f.handle = .null → f.content = old ∧ texts = []
  opened : f.handle = .opened → f.content = base ++ texts
  failed : f.handle = .failed → f.content = old ∨ ∃ p, p <+: texts ∧ f.content = base ++ p

variable {old texts text : List α} {f : LogFile α} {taken : ℕ}

theorem append_handle_iff : (f.append text taken).handle = .opened ↔
    f.handle = .opened ∧ text.length ≤ taken := by
  unfold append
  cases hf : f.handle with
  | null => simp [hf]
  | opened =>
    dsimp only
    split_ifs with hcut
    · refine iff_of_false nofun fun h => hcut ?_
      rw [List.take_of_length_le h.2]
    · refine iff_of_true rfl ⟨rfl, ?_⟩
      rw [List.length_take] at hcut
      omega
  | failed => simp [hf]

theorem append_not_null (hf : f.handle ≠ .null) : (f.append text taken).handle ≠ .null := by
  unfold append
  split
  · split_ifs <;> exact nofun
  · exact hf

theorem Logs.ready {anew : Bool} (hf : f.Logs old (if anew then [] else old) texts)
    (fopened : Bool) :
    (f.ready anew fopened).Logs old (if anew then [] else old) texts ∧
      (f.ready anew fopened).handle ≠ .null := by
  unfold LogFile.ready
  cases hh : f.handle with
  | null =>
    obtain ⟨hold, rfl⟩ := hf.null hh
    cases fopened with
    | false => exact ⟨⟨nofun, nofun, fun _ => Or.inl hold⟩, nofun⟩
    | true =>
      refine ⟨⟨nofun, fun _ => ?_, nofun⟩, nofun⟩
      rw [List.append_nil, hold]
      rfl
  | opened => exact ⟨hf, by rw [hh]; exact nofun⟩
  | failed => exact ⟨hf, by rw [hh]; exact nofun⟩

theorem Logs.append {base : List α} (hf : f.Logs old base texts) (hnull : f.handle ≠ .null)
    (text : List α) (taken : ℕ) : (f.append text taken).Logs old base (texts ++ text) := by
  unfold LogFile.append
  cases hh : f.handle with
  | null => exact absurd hh hnull
  | opened =>
    have hcontent := hf.opened hh
    dsimp only
    split_ifs with hcut
    · refine ⟨nofun, nofun, fun _ => Or.inr ⟨texts ++ text.take taken, ?_, ?_⟩⟩
      · rw [List.prefix_append_right_inj]
        exact List.take_prefix _ _
      · rw [hcontent, List.append_assoc]
    · refine ⟨nofun, fun _ => ?_, nofun⟩
      have hall : text.take taken = text := by
        apply List.take_of_length_le
        rw [List.length_take] at hcut
        omega
      rw [hcontent, hall, List.append_assoc]
  | failed =>
    refine ⟨fun h => absurd h hnull, fun h => absurd (hh.symm.trans h) Handle.noConfusion, ?_⟩
    intro _
    rcases hf.failed hh with hold | ⟨p, hp, hcontent⟩
    · exact Or.inl hold
    · exact Or.inr ⟨p, hp.trans (List.prefix_append _ _), hcontent⟩

theorem Logs.of_failed {base : List α} (hf : f.Logs old base texts) (hfail : f.handle = .failed)
    (text : List α) : f.Logs old base (texts ++ text) := by
  have hnull : f.handle ≠ .null := by rw [hfail]; exact nofun
  have hsame : f.append text 0 = f := by
    unfold LogFile.append
    rw [hfail]
  rw [← hsame]
  exact hf.append hnull text 0

end LogFile

end Lib
