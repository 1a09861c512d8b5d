import Mathlib.Tactic.Common
import Mathlib.Data.Nat.Notation

/-! Loops whose body either goes on with a new state or leaves with a result. -/
namespace Lib

section
variable {σ τ ρ : Type*}

/-- The state in which round `n` starts, if the loop is still running. -/
def roundStart (body : σ → σ ⊕ ρ) : ℕ → σ → Option σ
  | 0, s => some s
  | n + 1, s =>
    match body s with
    | .inl t => roundStart body n t
    | .inr _ => none

def Returns (body : σ → σ ⊕ ρ) (s : σ) (r : ρ) : Prop :=
  ∃ n t, roundStart body n s = some t ∧ body t = .inr r

def Visits (body : σ → σ ⊕ ρ) (s t : σ) : Prop := ∃ n, roundStart body n s = some t

variable {body : σ → σ ⊕ ρ} {s t : σ} {r : ρ} {n : ℕ}

theorem roundStart_next (hb : body s = .inl t) :
    roundStart body (n + 1) s = roundStart body n t := by
  simp only [roundStart, hb]

theorem roundStart_left (hb : body s = .inr r) : roundStart body (n + 1) s = none := by
  simp only [roundStart, hb]

theorem returns_of_left (hb : body s = .inr r) : Returns body s r := ⟨0, s, rfl, hb⟩

theorem Returns.next (hb : body s = .inl t) (hr : Returns body t r) : Returns body s r := by
  obtain ⟨n, u, hn, hu⟩ := hr
  exact ⟨n + 1, u, (roundStart_next hb).trans hn, hu⟩

theorem Returns.unique {r' : ρ} (hr : Returns body s r) (hr' : Returns body s r') : r = r' := by
  obtain ⟨n, t, hn, ht⟩ := hr
  obtain ⟨m, u, hm, hu⟩ := hr'
  induction n generalizing s m with
  | zero =>
    cases hn
    cases m with
    | zero =>
      cases hm
      exact Sum.inr.inj (ht.symm.trans hu)
    | succ m =>
      rw [roundStart_left ht] at hm
      cases hm
  | succ n ih =>
    cases hb : body s with
    | inr q =>
      rw [roundStart_left hb] at hn
      cases hn
    | inl v =>
      rw [roundStart_next hb] at hn
      cases m with
      | zero =>
        cases hm
        rw [hu] at hb
        cases hb
      | succ m =>
        rw [roundStart_next hb] at hm
        exact ih hn m hm

theorem roundStart_invariant (Inv : σ → Prop) (hstep : ∀ s t, Inv s → body s = .inl t → Inv t)
    (hs : Inv s) (hn : roundStart body n s = some t) : Inv t := by
  induction n generalizing s with
  | zero =>
    cases hn
    exact hs
  | succ n ih =>
    cases hb : body s with
    | inr q =>
      rw [roundStart_left hb] at hn
      cases hn
    | inl u =>
      rw [roundStart_next hb] at hn
      exact ih (hstep s u hs hb) hn

theorem Visits.refl (body : σ → σ ⊕ ρ) (s : σ) : Visits body s s := ⟨0, rfl⟩

theorem Visits.head {u : σ} (hb : body s = .inl t) (hv : Visits body t u) : Visits body s u := by
  obtain ⟨n, hn⟩ := hv
  exact ⟨n + 1, (roundStart_next hb).trans hn⟩

theorem Visits.tail {u : σ} (hv : Visits body s t) (hb : body t = .inl u) : Visits body s u := by
  obtain ⟨n, hn⟩ := hv
  induction n generalizing s with
  | zero =>
    cases hn
    exact ⟨1, roundStart_next hb⟩
  | succ n ih =>
    cases hs : body s with
    | inr q =>
      rw [roundStart_left hs] at hn
      cases hn
    | inl v =>
      rw [roundStart_next hs] at hn
      exact (ih hn).head hs

theorem Visits.invariant (Inv : σ → Prop) (hstep : ∀ s t, Inv s → body s = .inl t → Inv t)
    (hs : Inv s) (hv : Visits body s t) : Inv t := by
  obtain ⟨n, hn⟩ := hv
  exact roundStart_invariant Inv hstep hs hn

theorem Visits.returns (hv : Visits body s t) (hb : body t = .inr r) : Returns body s r := by
  obtain ⟨n, hn⟩ := hv
  exact ⟨n, t, hn, hb⟩

theorem Returns.of_next (hb : body s = .inl t) (hr : Returns body s r) : Returns body t r := by
  obtain ⟨n, u, hn, hu⟩ := hr
  cases n with
  | zero =>
    cases hn
    rw [hu] at hb
    cases hb
  | succ n => exact ⟨n, u, (roundStart_next hb).symm.trans hn, hu⟩

theorem Visits.returns_iff (hv : Visits body s t) : Returns body s r ↔ Returns body t r := by
  obtain ⟨n, hn⟩ := hv
  induction n generalizing s with
  | zero =>
    cases hn
    rfl
  | succ n ih =>
    cases hs : body s with
    | inr q =>
      rw [roundStart_left hs] at hn
      cases hn
    | inl u =>
      rw [roundStart_next hs] at hn
      exact Iff.trans ⟨Returns.of_next hs, Returns.next hs⟩ (ih hn)

theorem Returns.invariant (Inv : σ → Prop) (hstep : ∀ s t, Inv s → body s = .inl t → Inv t)
    (hs : Inv s) (hr : Returns body s r) : ∃ t, Inv t ∧ body t = .inr r := by
  obtain ⟨n, t, hn, ht⟩ := hr
  exact ⟨t, roundStart_invariant Inv hstep hs hn, ht⟩

/-- A loop does not see how another body acts in states it does not visit. -/
theorem Returns.congr {body' : σ → σ ⊕ ρ} (hr : Returns body s r)
    (hb : ∀ t, Visits body s t → body' t = body t) : Returns body' s r := by
  obtain ⟨n, t, hn, ht⟩ := hr
  induction n generalizing s with
  | zero =>
    cases hn
    exact returns_of_left ((hb t (.refl body t)).trans ht)
  | succ n ih =>
    cases hs : body s with
    | inr q =>
      rw [roundStart_left hs] at hn
      cases hn
    | inl v =>
      rw [roundStart_next hs] at hn
      have hv : Returns body' v r := ih (fun t ht => hb t (ht.head hs)) hn
      exact hv.next ((hb s (.refl body s)).trans hs)

/-- Two loops that go round together: while the first runs, the second runs too, in a related
state. -/
theorem roundStart_simulates {ρ' : Type*} {body' : τ → τ ⊕ ρ'} (R : σ → τ → Prop)
    (hstep : ∀ s s' u, R s u → body s = .inl s' → ∃ u', body' u = .inl u' ∧ R s' u') {u : τ}
    (hR : R s u) (hn : roundStart body n s = some t) :
    ∃ v, roundStart body' n u = some v ∧ R t v := by
  induction n generalizing s u with
  | zero =>
    cases hn
    exact ⟨u, rfl, hR⟩
  | succ n ih =>
    cases hb : body s with
    | inr q =>
      rw [roundStart_left hb] at hn
      cases hn
    | inl s' =>
      rw [roundStart_next hb] at hn
      obtain ⟨u', hu', hR'⟩ := hstep s s' u hR hb
      rw [roundStart_next hu']
      exact ih hR' hn

end

end Lib
