import TcpTests.Mpserver.Server
import TcpTests.Nbclient.Client

/-! When `check_key_sleep` and `check_key_sleep_ms` return in the two programs whose keys change
the pause: `nbclient` and `mpserver`. The keys can bring the pause to 0, and then the time left
never gets less. -/
namespace TcpTests.Nbclient
open Lib SimpCommon

theorem checkKey_exit (s : Settings) (chr : Char) :
    (checkKey s chr).2 = true ↔ chr = '\x1b' := by
  unfold checkKey
  split_ifs with hd hi hp hesc
  · simp [hd]
  · simp [hi]
  · simp [hp]
  · simp [hesc]
  · simp [hesc]

/-- Without the exit key, the two functions return in `nbclient` and in `mpserver` if and only if
the pauses of some number of rounds come to the time. -/
theorem checkKeySleep_returns_iff (keys : ℕ → Char) (secs msecs : ℤ) (s : Settings)
    (t : Mpserver.Settings) (hkeys : ∀ i, keys i ≠ '\x1b') :
    ((∃ r, CheckKeySleep checkKey Settings.mDelayTime keys s secs r) ↔
      ∃ n, msecsOf secs ≤ slept checkKey Settings.mDelayTime keys s n) ∧
    ((∃ r, CheckKeySleepMs checkKey Settings.mDelayTime keys s msecs r) ↔
      ∃ n, msecs ≤ slept checkKey Settings.mDelayTime keys s n) ∧
    ((∃ r, CheckKeySleep Mpserver.checkKey Mpserver.Settings.mDelayTime keys t secs r) ↔
      ∃ n, msecsOf secs ≤ slept Mpserver.checkKey Mpserver.Settings.mDelayTime keys t n) ∧
    ((∃ r, CheckKeySleepMs Mpserver.checkKey Mpserver.Settings.mDelayTime keys t msecs r) ↔
      ∃ n, msecs ≤ slept Mpserver.checkKey Mpserver.Settings.mDelayTime keys t n) := by
  have hnb : ∀ s i, (checkKey s (keys i)).2 = false := by
    intro s i
    rw [← Bool.not_eq_true, checkKey_exit]
    exact hkeys i
  have hmp : ∀ s i, (Mpserver.checkKey s (keys i)).2 = false := by
    intro s i
    rw [← Bool.not_eq_true, Mpserver.checkKey_exit]
    exact hkeys i
  exact ⟨sleep_returns_iff hnb, sleep_returns_iff hnb, sleep_returns_iff hmp, sleep_returns_iff hmp⟩

def noKeys (_ : ℕ) : Char := '\x00'

/-- The settings of `nbclient` after the key `d` was pressed sixteen times. -/
def noDelay : Settings := afterKeys checkKey (fun _ => 'd') ⟨defPause, false⟩ 16

theorem checkKeySleep_forever :
    ¬ ∃ r, CheckKeySleep checkKey Settings.mDelayTime noKeys noDelay 1 r := by
  have hexit : ∀ s i, (checkKey s (noKeys i)).2 = false := by
    intro s i
    rfl
  have hkept : ∀ n, slept checkKey Settings.mDelayTime noKeys noDelay n = 0 := by
    intro n
    have hsame : ∀ i, afterKeys checkKey noKeys noDelay i = noDelay := by
      intro i
      induction i with
      | zero => rfl
      | succ i ih => rw [afterKeys, ih]; rfl
    apply Finset.sum_eq_zero
    intro i _
    rw [hsame]
    decide
  intro hr
  obtain ⟨n, hn⟩ := (sleep_returns_iff hexit).mp hr
  rw [hkept] at hn
  exact absurd hn (by decide)

theorem checkKeySleep_returns_sample :
    (∃ r, CheckKeySleep checkKey Settings.mDelayTime noKeys ⟨defPause, false⟩ 1 r) ∧
      ∃ r, CheckKeySleepMs Mpserver.checkKey Mpserver.Settings.mDelayTime noKeys
        ⟨0, false, defPause⟩ 160 r := by
  have hno : ∀ i, noKeys i ≠ '\x1b' := by
    intro i
    change '\x00' ≠ '\x1b'
    decide
  have hiff := checkKeySleep_returns_iff noKeys 1 160 ⟨defPause, false⟩ ⟨0, false, defPause⟩ hno
  exact ⟨hiff.1.mpr ⟨7, by decide⟩, hiff.2.2.2.mpr ⟨1, by decide⟩⟩

end TcpTests.Nbclient
