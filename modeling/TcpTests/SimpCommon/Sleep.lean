import Mathlib.Algebra.BigOperators.Intervals
import Mathlib.Algebra.Order.BigOperators.Group.Finset
import Mathlib.Data.BitVec
import TcpTests.Lib.Loop

/-! `check_key_sleep` and `check_key_sleep_ms` of `simp_common.hxx`, for any `check_key` of a
program that includes them. The pause between two polls is a global, which the keys of some
programs change. -/
namespace TcpTests.SimpCommon
open Lib

/-- `DEF_PAUSE`, in milliseconds. -/
def defPause : ℕ := 160

section
variable {σ : Type*}

/-- A test of `while (msecs)` and the round after it, with the number of rounds before. The result
is whether the exit key was pressed. -/
def sleepBody (checkKey : σ → Char → σ × Bool) (mDelayTime : σ → ℕ) (keys : ℕ → Char) :
    σ × ℤ × ℕ → (σ × ℤ × ℕ) ⊕ (σ × Bool)
  | (s, msecs, i) =>
    if msecs = 0 then .inr (s, false)
    else
      let k := checkKey s (keys i)
      if k.2 then .inr (k.1, true)
      else if msecs > mDelayTime k.1 then .inl (k.1, msecs - mDelayTime k.1, i + 1)
      else .inl (k.1, 0, i + 1)

def CheckKeySleepMs (checkKey : σ → Char → σ × Bool) (mDelayTime : σ → ℕ) (keys : ℕ → Char) (s : σ)
    (msecs : ℤ) (r : σ × Bool) : Prop :=
  Returns (sleepBody checkKey mDelayTime keys) (s, msecs, 0) r

def msecsOf (secs : ℤ) : ℤ := (BitVec.ofInt 32 (secs * 1000)).toInt

def CheckKeySleep (checkKey : σ → Char → σ × Bool) (mDelayTime : σ → ℕ) (keys : ℕ → Char) (s : σ)
    (secs : ℤ) (r : σ × Bool) : Prop :=
  Returns (sleepBody checkKey mDelayTime keys) (s, msecsOf secs, 0) r

def afterKeys (checkKey : σ → Char → σ × Bool) (keys : ℕ → Char) (s : σ) : ℕ → σ
  | 0 => s
  | i + 1 => (checkKey (afterKeys checkKey keys s i) (keys i)).1

/-- The pauses of `n` rounds, each taken after the key of its round. -/
def slept (checkKey : σ → Char → σ × Bool) (mDelayTime : σ → ℕ) (keys : ℕ → Char) (s : σ)
    (n : ℕ) : ℕ :=
  ∑ i ∈ Finset.range n, mDelayTime (afterKeys checkKey keys s (i + 1))

variable {checkKey : σ → Char → σ × Bool} {mDelayTime : σ → ℕ} {keys : ℕ → Char} {s : σ}
  {msecs : ℤ} {n : ℕ}

theorem slept_succ : slept checkKey mDelayTime keys s (n + 1) =
    slept checkKey mDelayTime keys s n + mDelayTime (afterKeys checkKey keys s (n + 1)) :=
  Finset.sum_range_succ _ _

theorem slept_mono : Monotone (slept checkKey mDelayTime keys s) := by
  apply monotone_nat_of_le_succ
  intro n
  rw [slept_succ]
  exact Nat.le_add_right _ _

theorem sleepBody_round (hexit : ∀ s i, (checkKey s (keys i)).2 = false)
    (hn : (slept checkKey mDelayTime keys s n : ℤ) < msecs) :
    sleepBody checkKey mDelayTime keys
      (afterKeys checkKey keys s n, msecs - slept checkKey mDelayTime keys s n, n) =
      .inl (afterKeys checkKey keys s (n + 1),
        if (slept checkKey mDelayTime keys s (n + 1) : ℤ) < msecs then
          msecs - slept checkKey mDelayTime keys s (n + 1)
        else 0, n + 1) := by
  have hleft : msecs - slept checkKey mDelayTime keys s n ≠ 0 := by omega
  have hgoes : ¬ (checkKey (afterKeys checkKey keys s n) (keys n)).2 = true := by
    rw [hexit]
    exact Bool.false_ne_true
  have hsum : (slept checkKey mDelayTime keys s (n + 1) : ℤ) = slept checkKey mDelayTime keys s n +
      mDelayTime (checkKey (afterKeys checkKey keys s n) (keys n)).1 := by
    rw [slept_succ]
    push_cast
    rfl
  unfold sleepBody
  dsimp only
  rw [if_neg hleft, if_neg hgoes, hsum]
  by_cases hlong : (slept checkKey mDelayTime keys s n : ℤ) +
      mDelayTime (checkKey (afterKeys checkKey keys s n) (keys n)).1 < msecs
  · rw [if_pos hlong, if_pos (by omega), sub_sub]
    rfl
  · rw [if_neg hlong, if_neg (by omega)]
    rfl

theorem visits_sleep (hexit : ∀ s i, (checkKey s (keys i)).2 = false)
    (hn : (slept checkKey mDelayTime keys s n : ℤ) < msecs) :
    Visits (sleepBody checkKey mDelayTime keys) (s, msecs, 0)
      (afterKeys checkKey keys s n, msecs - slept checkKey mDelayTime keys s n, n) := by
  induction n with
  | zero =>
    have hzero : (slept checkKey mDelayTime keys s 0 : ℤ) = 0 := rfl
    rw [hzero, sub_zero]
    exact .refl _ _
  | succ n ih =>
    have hle : slept checkKey mDelayTime keys s n ≤ slept checkKey mDelayTime keys s (n + 1) :=
      slept_mono (Nat.le_succ n)
    have hbefore : (slept checkKey mDelayTime keys s n : ℤ) < msecs := by omega
    have hround := sleepBody_round hexit hbefore
    rw [if_pos hn] at hround
    exact (ih hbefore).tail hround

theorem sleep_over (t : σ) (i : ℕ) :
    Returns (sleepBody checkKey mDelayTime keys) (t, 0, i) (t, false) := by
  apply returns_of_left
  unfold sleepBody
  exact if_pos rfl

/-- A time below zero takes one round. -/
theorem sleep_negative (hexit : ∀ s i, (checkKey s (keys i)).2 = false) (hneg : msecs < 0) :
    Returns (sleepBody checkKey mDelayTime keys) (s, msecs, 0)
      ((checkKey s (keys 0)).1, false) := by
  have hgoes : ¬ (checkKey s (keys 0)).2 = true := by
    rw [hexit]
    exact Bool.false_ne_true
  have hround : sleepBody checkKey mDelayTime keys (s, msecs, 0) =
      .inl ((checkKey s (keys 0)).1, 0, 1) := by
    unfold sleepBody
    dsimp only
    rw [if_neg hneg.ne, if_neg hgoes, if_neg (by omega)]
  exact (sleep_over _ _).next hround

/-- Without the exit key, the sleep returns if and only if its pauses come to the time. -/
theorem sleep_returns_iff (hexit : ∀ s i, (checkKey s (keys i)).2 = false) :
    (∃ r, Returns (sleepBody checkKey mDelayTime keys) (s, msecs, 0) r) ↔
      ∃ n, msecs ≤ slept checkKey mDelayTime keys s n := by
  constructor
  · rintro ⟨r, hr⟩
    by_contra hnever
    rw [not_exists] at hnever
    have hless : ∀ n, (slept checkKey mDelayTime keys s n : ℤ) < msecs := fun n =>
      lt_of_not_ge (hnever n)
    obtain ⟨t, ⟨n, rfl⟩, ht⟩ := hr.invariant
      (fun t => ∃ n, t =
        (afterKeys checkKey keys s n, msecs - slept checkKey mDelayTime keys s n, n))
      (by
        rintro _ t ⟨n, rfl⟩ ht
        rw [sleepBody_round hexit (hless n), if_pos (hless (n + 1))] at ht
        exact ⟨n + 1, (Sum.inl.inj ht).symm⟩)
      ⟨0, by rw [show (slept checkKey mDelayTime keys s 0 : ℤ) = 0 from rfl, sub_zero]; rfl⟩
    rw [sleepBody_round hexit (hless n)] at ht
    cases ht
  · intro hex
    have hend := Nat.find_spec hex
    have hmin := fun k => Nat.find_min hex (m := k)
    generalize Nat.find hex = n at hend hmin
    cases n with
    | zero =>
      have hle : msecs ≤ 0 := hend
      rcases hle.eq_or_lt with rfl | hneg
      · exact ⟨_, sleep_over s 0⟩
      · exact ⟨_, sleep_negative hexit hneg⟩
    | succ n =>
      have hless : (slept checkKey mDelayTime keys s n : ℤ) < msecs :=
        lt_of_not_ge (hmin n (Nat.lt_succ_self n))
      have hround := sleepBody_round hexit hless
      rw [if_neg (not_lt.mpr hend)] at hround
      exact ⟨_, (visits_sleep hexit hless).returns_iff.mpr ((sleep_over _ _).next hround)⟩

end

end TcpTests.SimpCommon
