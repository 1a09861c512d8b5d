import Mathlib.Logic.Function.Basic
import Mathlib.Order.Nat
import TcpTests.Lib.Machine

/-! The loop of `http_main`, where a process is created for each connection: the table of clients
of the process that accepts them. Nothing in this process gives a slot back. -/
namespace TcpTests.HttpServer
open Lib

/-- `CONNMAX` -/
def connMax : ℕ := 1000

/-- A connection is named by how many were accepted before. `searching` stands for the loop that
looks for a free slot. -/
structure Main where
  clients : ℕ → Option ℕ
  slot : ℕ
  searching : Bool
  accepted : ℕ
  served : List ℕ

/-- The server was started, and no client is connected. -/
def Main.start : Main where
  clients := fun _ => none
  slot := 0
  searching := false
  accepted := 0
  served := []

/-- `accept` fails, or gives a connection for which `fork` creates a process or not; or the loop
looks at one more slot. -/
inductive Event
  | failed
  | connection (forked : Bool)
  | look
  deriving DecidableEq, Repr

def step (s : Main) : Event → Option Main
  | .failed =>
    if s.searching then none
    else some { s with clients := Function.update s.clients s.slot none, searching := true }
  | .connection forked =>
    if s.searching then none
    else
      some { s with
        clients := Function.update s.clients s.slot (some s.accepted)
        searching := true
        accepted := s.accepted + 1
        served := if forked then s.served ++ [s.accepted] else s.served }
  | .look =>
    if !s.searching then none
    else if s.clients s.slot ≠ none then some { s with slot := (s.slot + 1) % connMax }
    else some { s with searching := false }

/-- Each connection stays in the slot that it got, and the slots fill from the first on. -/
structure Main.Inv (s : Main) : Prop where
  clients : ∀ i, s.clients i = if i < s.accepted then some i else none
  slot : s.slot < connMax
  accepted : s.accepted ≤ connMax
  idle : s.searching = false → s.slot = s.accepted
  near : s.accepted < connMax → s.slot = s.accepted ∨ s.slot + 1 = s.accepted

section
variable {s t : Main} {e : Event} {es : List Event}

theorem Main.Inv.start : Main.start.Inv where
  clients := fun _ => rfl
  slot := by decide
  accepted := Nat.zero_le _
  idle := fun _ => rfl
  near := fun _ => Or.inl rfl

theorem Main.Inv.taken_iff (hs : s.Inv) (i : ℕ) : s.clients i ≠ none ↔ i < s.accepted := by
  rw [hs.clients]
  split_ifs with hi <;> simp [hi]

theorem failed_inv (hs : s.Inv) (h : step s .failed = some t) : t.Inv := by
  simp only [step] at h
  split_ifs at h with hidle
  cases h
  rw [Bool.not_eq_true] at hidle
  have hfree : s.clients s.slot = none := by
    rw [hs.clients, hs.idle hidle, if_neg (Nat.lt_irrefl _)]
  have hsame : Function.update s.clients s.slot none = s.clients := by
    rw [← hfree, Function.update_eq_self]
  refine ⟨?_, hs.slot, hs.accepted, nofun, hs.near⟩
  rw [hsame]
  exact hs.clients

theorem connection_inv {forked : Bool} (hs : s.Inv) (h : step s (.connection forked) = some t) :
    t.Inv := by
  cases hidle : s.searching with
  | true =>
    simp only [step, hidle, if_true] at h
    cases h
  | false =>
    simp only [step, hidle, Bool.false_eq_true, if_false] at h
    cases h
    have hslot : s.slot = s.accepted := hs.idle hidle
    have hroom : s.accepted < connMax := hslot ▸ hs.slot
    have htable : ∀ i, Function.update s.clients s.slot (some s.accepted) i =
        if i < s.accepted + 1 then some i else none := by
      intro i
      by_cases hi : i = s.accepted
      · rw [hi, hslot, Function.update_self, if_pos (Nat.lt_succ_self _)]
      · have hiff : i < s.accepted ↔ i < s.accepted + 1 := by omega
        rw [hslot, Function.update_of_ne hi, hs.clients]
        simp only [hiff]
    exact ⟨htable, hs.slot, hroom, nofun, fun _ => Or.inr (congrArg (· + 1) hslot)⟩

/-- Behind a taken slot is the first free one, as long as there is one. -/
theorem look_inv (hs : s.Inv) (h : step s .look = some t) : t.Inv := by
  simp only [step] at h
  split_ifs at h with hidle htaken
  · cases h
    rw [hs.taken_iff] at htaken
    have hpos : 0 < connMax := by decide
    refine ⟨hs.clients, Nat.mod_lt _ hpos, hs.accepted, ?_, ?_⟩
    · intro hstop
      dsimp only at hstop
      rw [hstop] at hidle
      exact absurd rfl hidle
    · intro hroom
      rcases hs.near hroom with hslot | hslot
      · omega
      · rw [hslot, Nat.mod_eq_of_lt hroom]
        exact Or.inl rfl
  · cases h
    have hfree : ¬ s.slot < s.accepted := fun hlt => htaken ((hs.taken_iff _).mpr hlt)
    have hroom : s.accepted < connMax := lt_of_le_of_lt (not_lt.mp hfree) hs.slot
    refine ⟨hs.clients, hs.slot, hs.accepted, fun _ => ?_, hs.near⟩
    rcases hs.near hroom with hslot | hslot
    · exact hslot
    · omega

theorem step_inv (hs : s.Inv) (h : step s e = some t) : t.Inv := by
  cases e with
  | failed => exact failed_inv hs h
  | connection forked => exact connection_inv hs h
  | look => exact look_inv hs h

theorem accepted_le (h : step s e = some t) : s.accepted ≤ t.accepted := by
  cases e with
  | failed =>
    simp only [step] at h
    split_ifs at h
    cases h
    exact le_rfl
  | connection forked =>
    simp only [step] at h
    split at h
    · cases h
    · cases h
      exact Nat.le_succ _
  | look =>
    simp only [step] at h
    split_ifs at h
    · cases h
      exact le_rfl
    · cases h
      exact le_rfl

theorem Main.Inv.searching (hs : s.Inv) (hfull : s.accepted = connMax) : s.searching = true := by
  by_contra hidle
  rw [Bool.not_eq_true] at hidle
  have hslot := hs.slot
  rw [hs.idle hidle, hfull] at hslot
  exact Nat.lt_irrefl _ hslot

theorem look_free (hslot : s.clients s.slot = none) (hsearch : s.searching = true) :
    step s .look = some { s with searching := false } := by
  simp [step, hslot, hsearch]

theorem Main.Inv.search_ends (hs : s.Inv) (hroom : s.accepted < connMax) :
    ∃ n ≤ 2, ∃ t, runs step s (List.replicate n .look) = some t ∧ t.searching = false ∧
      t.accepted = s.accepted := by
  by_cases hidle : s.searching = true
  · have hfree : s.clients s.accepted = none := by
      rw [hs.clients, if_neg (Nat.lt_irrefl _)]
    rcases hs.near hroom with hslot | hslot
    · refine ⟨1, by omega, { s with searching := false }, ?_, rfl, rfl⟩
      exact runs_cons.mpr ⟨_, look_free (hslot ▸ hfree) hidle, rfl⟩
    · have htaken : s.clients s.slot ≠ none := (hs.taken_iff _).mpr (by omega)
      have hnext : step s .look = some { s with slot := s.accepted } := by
        simp [step, hidle, htaken, hslot, Nat.mod_eq_of_lt hroom]
      refine ⟨2, le_rfl, { s with slot := s.accepted, searching := false }, ?_, rfl, rfl⟩
      exact runs_cons.mpr ⟨_, hnext, runs_cons.mpr ⟨_, look_free hfree hidle, rfl⟩⟩
  · rw [Bool.not_eq_true] at hidle
    exact ⟨0, Nat.zero_le _, s, rfl, hidle, rfl⟩

/-- The server keeps every connection that it accepted in a slot of its own, is back at `accept`
after two looks at most, and after `CONNMAX` connections looks for a free slot for good. -/
theorem http_main_slots (es : List Event) (h : runs step Main.start es = some s) :
    s.slot < connMax ∧ s.accepted ≤ connMax ∧
    (∀ i, s.clients i = if i < s.accepted then some i else none) ∧
    (s.accepted < connMax → ∃ n ≤ 2, ∃ t, runs step s (List.replicate n .look) = some t ∧
      t.searching = false ∧ t.accepted = s.accepted) ∧
    (s.accepted = connMax → ∀ more t, runs step s more = some t →
      t.searching = true ∧ t.accepted = connMax) := by
  have hrun : ∀ {s t : Main} {es : List Event}, s.Inv → runs step s es = some t → t.Inv :=
    fun hs h => runs_invariant Main.Inv (fun _ _ _ hs h => step_inv hs h) hs h
  have hs : s.Inv := hrun Main.Inv.start h
  refine ⟨hs.slot, hs.accepted, hs.clients, hs.search_ends, ?_⟩
  intro hfull more t hmore
  have hcount : ∀ u e v, u.Inv ∧ connMax ≤ u.accepted → step u e = some v →
      v.Inv ∧ connMax ≤ v.accepted :=
    fun u e v hu huv => ⟨step_inv hu.1 huv, hu.2.trans (accepted_le huv)⟩
  obtain ⟨ht, hge⟩ := runs_invariant (fun u => u.Inv ∧ connMax ≤ u.accepted) hcount
    ⟨hs, hfull.ge⟩ hmore
  have hall : t.accepted = connMax := le_antisymm ht.accepted hge
  exact ⟨ht.searching hall, hall⟩

/-- No process could be created for the second connection, and it has its slot. -/
theorem http_main_slots_two : ∃ s, runs step Main.start
    [.connection true, .look, .look, .failed, .look, .connection false, .look] = some s ∧
      s.searching = true ∧ (∀ i, s.clients i = if i < 2 then some i else none) ∧
      ∃ n ≤ 2, ∃ t, runs step s (List.replicate n .look) = some t ∧ t.searching = false ∧
        t.accepted = 2 := by
  obtain ⟨s, hrun, hsearch, haccepted⟩ : ∃ s, runs step Main.start
      [.connection true, .look, .look, .failed, .look, .connection false, .look] = some s ∧
        s.searching = true ∧ s.accepted = 2 := ⟨_, rfl, rfl, rfl⟩
  obtain ⟨-, -, hclients, hends, -⟩ := http_main_slots _ hrun
  rw [haccepted] at hclients hends
  exact ⟨s, hrun, hsearch, hclients, hends (by decide)⟩

end

end TcpTests.HttpServer
