import Mathlib.Data.List.Basic
import Mathlib.Data.Option.Basic

/-! Machines that take one input at a time, and their finite runs. A step that
cannot happen in a state is `none`. -/
namespace Lib

section
variable {σ ι : Type*}

def runs (step : σ → ι → Option σ) : σ → List ι → Option σ
  | s, [] => some s
  | s, i :: is => (step s i).bind fun t => runs step t is

variable {step : σ → ι → Option σ} {s t : σ} {i : ι} {is js : List ι}

@[simp] theorem runs_nil : runs step s [] = some s := rfl

theorem runs_cons : runs step s (i :: is) = some t ↔
    ∃ u, step s i = some u ∧ runs step u is = some t := by
  simp only [runs, Option.bind_eq_some_iff]

theorem runs_append : runs step s (is ++ js) = some t ↔
    ∃ u, runs step s is = some u ∧ runs step u js = some t := by
  induction is generalizing s with
  | nil => simp
  | cons i is ih =>
    simp only [List.cons_append, runs_cons, ih]
    constructor
    · rintro ⟨u, hu, v, hv, ht⟩
      exact ⟨v, ⟨u, hu, hv⟩, ht⟩
    · rintro ⟨v, ⟨u, hu, hv⟩, ht⟩
      exact ⟨u, hu, v, hv, ht⟩

theorem runs_concat : runs step s (is ++ [i]) = some t ↔
    ∃ u, runs step s is = some u ∧ step u i = some t := by
  simp [runs_append, runs_cons]

/-- A property that each step keeps holds at the end of a run whose inputs are all allowed. -/
theorem runs_invariant_of (P : ι → Prop) (Inv : σ → Prop)
    (hstep : ∀ s i t, Inv s → P i → step s i = some t → Inv t)
    (hs : Inv s) (hP : ∀ i ∈ is, P i) (hr : runs step s is = some t) : Inv t := by
  induction is generalizing s with
  | nil =>
    cases hr
    exact hs
  | cons i is ih =>
    obtain ⟨u, hu, hr⟩ := runs_cons.mp hr
    exact ih (hstep s i u hs (hP i (by simp)) hu) (fun j hj => hP j (by simp [hj])) hr

theorem runs_invariant (Inv : σ → Prop) (hstep : ∀ s i t, Inv s → step s i = some t → Inv t)
    (hs : Inv s) (hr : runs step s is = some t) : Inv t :=
  runs_invariant_of (fun _ => True) Inv (fun s i t hs _ => hstep s i t hs) hs
    (fun _ _ => trivial) hr

theorem filterMap_cons_toList {β : Type*} (heard : ι → Option β) (i : ι) (is : List ι) :
    (i :: is).filterMap heard = (heard i).toList ++ is.filterMap heard := by
  rw [List.filterMap_eq_flatMap_toList, List.filterMap_eq_flatMap_toList, List.flatMap_cons]

theorem runs_collect {β : Type*} {heard : ι → Option β} (R : List β → σ → Prop)
    (hstep : ∀ xs s i t, R xs s → step s i = some t → R (xs ++ (heard i).toList) t)
    {xs : List β} (hs : R xs s) (hr : runs step s is = some t) :
    R (xs ++ is.filterMap heard) t := by
  induction is generalizing s xs with
  | nil =>
    cases hr
    rwa [List.filterMap_nil, List.append_nil]
  | cons i is ih =>
    obtain ⟨u, hu, hr⟩ := runs_cons.mp hr
    rw [filterMap_cons_toList, ← List.append_assoc]
    exact ih (hstep xs s i u hs hu) hr

/-- A machine whose steps are those of another on translated inputs has the runs of the other. -/
theorem runs_map {τ κ : Type*} {step' : τ → κ → Option τ} (Inv : σ → Prop) (abs : σ → τ)
    (f : ι → κ) (hstep : ∀ s i t, Inv s → step s i = some t → Inv t)
    (habs : ∀ s i, Inv s → (step s i).map abs = step' (abs s) (f i)) (hs : Inv s) :
    (runs step s is).map abs = runs step' (abs s) (is.map f) := by
  induction is generalizing s with
  | nil => rfl
  | cons i is ih =>
    rw [List.map_cons, runs, runs, ← habs s i hs]
    cases hi : step s i with
    | none => rfl
    | some t => exact ih (hstep s i t hs hi)

/-- A machine that can take a step while it runs takes a prefix of any inputs, and all of them if
it still runs after that. -/
theorem exists_runs_prefix (Running : σ → Prop) (hstuck : ∀ s i, step s i = none → ¬ Running s)
    (s : σ) (is : List ι) :
    ∃ used t, used <+: is ∧ runs step s used = some t ∧ (Running t → used = is) := by
  induction is generalizing s with
  | nil => exact ⟨[], s, List.prefix_rfl, rfl, fun _ => rfl⟩
  | cons i is ih =>
    cases hi : step s i with
    | none => exact ⟨[], s, List.nil_prefix, rfl, fun hrun => absurd hrun (hstuck s i hi)⟩
    | some u =>
      obtain ⟨used, t, hused, hr, hall⟩ := ih u
      refine ⟨i :: used, t, List.cons_prefix_cons.mpr ⟨rfl, hused⟩, runs_cons.mpr ⟨u, hi, hr⟩, ?_⟩
      intro hrun
      rw [hall hrun]

/-- What the steps of a run put out, in order. -/
def outputs {α : Type*} (step : σ → ι → Option σ) (out : σ → ι → List α) : σ → List ι → List α
  | _, [] => []
  | s, i :: is =>
    out s i ++
      match step s i with
      | some t => outputs step out t is
      | none => []

theorem outputs_cons {α : Type*} {out : σ → ι → List α} (h : step s i = some t) :
    outputs step out s (i :: is) = out s i ++ outputs step out t is := by
  simp only [outputs, h]

theorem outputs_append {α : Type*} {out : σ → ι → List α} (hr : runs step s is = some t) :
    outputs step out s (is ++ js) = outputs step out s is ++ outputs step out t js := by
  induction is generalizing s with
  | nil =>
    cases hr
    rfl
  | cons i is ih =>
    obtain ⟨u, hu, hr⟩ := runs_cons.mp hr
    rw [List.cons_append, outputs_cons hu, outputs_cons hu, ih hr, List.append_assoc]

theorem outputs_concat {α : Type*} {out : σ → ι → List α} (hr : runs step s is = some t) :
    outputs step out s (is ++ [i]) = outputs step out s is ++ out t i := by
  rw [outputs_append hr]
  congr 1
  simp only [outputs]
  split <;> exact List.append_nil _

def AllStates (step : σ → ι → Option σ) (P : σ → Prop) : σ → List ι → Prop
  | s, [] => P s
  | s, i :: is => P s ∧ ∀ t, step s i = some t → AllStates step P t is

/-- `G` holds of every state of a run together with the input taken in it. -/
def AllSteps (step : σ → ι → Option σ) (G : σ → ι → Prop) : σ → List ι → Prop
  | _, [] => True
  | s, i :: is => G s i ∧ ∀ t, step s i = some t → AllSteps step G t is

instance AllSteps.decidable {G : σ → ι → Prop} [∀ s i, Decidable (G s i)] :
    ∀ s is, Decidable (AllSteps step G s is)
  | _, [] => isTrue trivial
  | s, i :: is =>
    match h : step s i with
    | none => decidable_of_iff (G s i)
        ⟨fun hg => ⟨hg, fun _ ht => absurd (h.symm.trans ht) nofun⟩, fun hg => hg.1⟩
    | some t =>
      have : Decidable (AllSteps step G t is) := AllSteps.decidable t is
      decidable_of_iff (G s i ∧ AllSteps step G t is)
        ⟨fun hg => ⟨hg.1, fun _ ht => Option.some.inj (h.symm.trans ht) ▸ hg.2⟩,
          fun hg => ⟨hg.1, hg.2 t h⟩⟩

theorem AllStates.head {P : σ → Prop} (h : AllStates step P s is) : P s := by
  cases is with
  | nil => exact h
  | cons i is => exact h.1

theorem allSteps_of_inputs {Q : ι → Prop} (hQ : ∀ i ∈ is, Q i) :
    AllSteps step (fun _ i => Q i) s is := by
  induction is generalizing s with
  | nil => trivial
  | cons i is ih => exact ⟨hQ i (by simp), fun t _ => ih fun j hj => hQ j (by simp [hj])⟩

theorem allSteps_append {G : σ → ι → Prop} : AllSteps step G s (is ++ js) ↔
    AllSteps step G s is ∧ ∀ t, runs step s is = some t → AllSteps step G t js := by
  induction is generalizing s with
  | nil => simp [AllSteps]
  | cons i is ih =>
    simp only [List.cons_append, AllSteps, ih, runs_cons]
    constructor
    · rintro ⟨hg, hrest⟩
      exact ⟨⟨hg, fun u hu => (hrest u hu).1⟩, fun t ⟨u, hu, ht⟩ => (hrest u hu).2 t ht⟩
    · rintro ⟨⟨hg, his⟩, hjs⟩
      exact ⟨hg, fun u hu => ⟨his u hu, fun t ht => hjs t ⟨u, hu, ht⟩⟩⟩

theorem allSteps_of_invariant {G : σ → ι → Prop} (Inv : σ → Prop)
    (hstep : ∀ s i t, Inv s → step s i = some t → Inv t) (hG : ∀ s i, Inv s → G s i)
    (hs : Inv s) : AllSteps step G s is := by
  induction is generalizing s with
  | nil => trivial
  | cons i is ih => exact ⟨hG s i hs, fun t ht => ih (hstep s i t hs ht)⟩

/-- A property that each good step keeps holds at the end of a run of good steps. -/
theorem AllSteps.invariant {G : σ → ι → Prop} {Inv : σ → Prop} (hG : AllSteps step G s is)
    (hstep : ∀ s i t, Inv s → G s i → step s i = some t → Inv t) (hs : Inv s)
    (hr : runs step s is = some t) : Inv t := by
  induction is generalizing s with
  | nil =>
    cases hr
    exact hs
  | cons i is ih =>
    obtain ⟨u, hu, hr⟩ := runs_cons.mp hr
    exact ih (hG.2 u hu) (hstep s i u hs hG.1 hu) hr

/-- Good steps are what keeps a property: a good step preserves an invariant that implies the
property, and the state after a bad one does not have it. -/
theorem allStates_iff_allSteps {P Inv : σ → Prop} {G Q : σ → ι → Prop}
    (hP : ∀ s, Inv s → P s)
    (hgood : ∀ s i t, Inv s → Q s i → step s i = some t → G s i → Inv t)
    (hbad : ∀ s i t, Inv s → Q s i → step s i = some t → ¬ G s i → ¬ P t)
    (hs : Inv s) (hQ : AllSteps step Q s is) (hr : runs step s is = some t) :
    AllStates step P s is ↔ AllSteps step G s is := by
  induction is generalizing s with
  | nil => exact ⟨fun _ => trivial, fun _ => hP s hs⟩
  | cons i is ih =>
    obtain ⟨hq, hQ⟩ := hQ
    obtain ⟨u, hu, hr⟩ := runs_cons.mp hr
    by_cases hg : G s i
    · have hih := ih (hgood s i u hs hq hu hg) (hQ u hu) hr
      constructor
      · rintro ⟨-, hrest⟩
        refine ⟨hg, ?_⟩
        intro v hv
        cases hu.symm.trans hv
        exact hih.mp (hrest u hu)
      · rintro ⟨-, hrest⟩
        refine ⟨hP s hs, ?_⟩
        intro v hv
        cases hu.symm.trans hv
        exact hih.mpr (hrest u hu)
    · constructor
      · rintro ⟨-, hrest⟩
        exact absurd (hrest u hu).head (hbad s i u hs hq hu hg)
      · rintro ⟨hg', -⟩
        exact absurd hg' hg

end

end Lib
