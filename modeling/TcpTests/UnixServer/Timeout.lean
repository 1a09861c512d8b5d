import TcpTests.UnixServer.Server

/-! The time-out of `unix_server`. It is set once, before the loop, from a product that is cut to 32
bits, and `select` stores the time that is left in it. -/
namespace TcpTests.UnixServer
open Lib

/-- The whole period: all the seconds of the minutes in `server_timeout`. -/
def fullTimeout (serverTimeout : ℕ) : Timeval := ⟨serverTimeout * 60, 0⟩

def Event.IsSelect : Event → Prop
  | .select _ => True
  | .accept _ | .recv _ | .send _ | .tick => False

def FullAt (full : Timeval) (s : Server) (e : Event) : Prop := e.IsSelect → s.timeout = full

/-- Every `select` that reports descriptors and is not the last one has stored back the full
time-out. -/
def StoresBack (full : Timeval) (events : List Event) : Prop :=
  ∀ pre set left post, events = pre ++ .select (.ready set left) :: post →
    (∃ e ∈ post, e.IsSelect) → left = full

/-- The loop is left, and `select` is not called again. -/
def Server.Ended (s : Server) : Prop := s.pc = .cleanUp ∨ s.pc = .returned ∨ s.pc = .undefined

section
variable {s t : Server} {e : Event} {es : List Event} {full : Timeval}

theorem select_cases {outcome : SelectOutcome} (h : s.select outcome = some t) :
    (∃ set left, outcome = .ready set left ∧ t.timeout = left) ∨
      ((∀ set left, outcome ≠ .ready set left) ∧ t.Ended) := by
  cases outcome with
  | failed =>
    cases h
    exact Or.inr ⟨nofun, Or.inl rfl⟩
  | timedOut =>
    cases h
    exact Or.inr ⟨nofun, Or.inl rfl⟩
  | ready set left =>
    unfold Server.select at h
    dsimp only at h
    split at h
    · cases h
      exact Or.inl ⟨set, left, rfl, rfl⟩
    · cases h

theorem step_eq_select {outcome : SelectOutcome} (h : step s (.select outcome) = some t) :
    s.select outcome = some t := by
  unfold step at h
  cases hpc : s.pc with
  | select =>
    rw [hpc] at h
    exact h
  | scan | accept | recv | close | loopTest | cleanUp | returned | undefined =>
    rw [hpc] at h
    cases h
  | send len =>
    rw [hpc] at h
    cases h

theorem Server.scan_timeout (s : Server) : s.scan.timeout = s.timeout := by
  unfold scan
  dsimp only
  split_ifs <;> rfl

theorem Server.close_timeout (s : Server) : s.close.timeout = s.timeout := by
  unfold close
  dsimp only
  split_ifs
  · split <;> rfl
  · rfl
  · rfl

theorem Server.loopTest_timeout (s : Server) : s.loopTest.timeout = s.timeout := by
  unfold loopTest
  split_ifs <;> rfl

theorem Server.cleanUp_timeout (s : Server) : s.cleanUp.timeout = s.timeout := by
  unfold cleanUp
  split_ifs <;> rfl

theorem step_timeout (h : step s e = some t) (he : ¬ e.IsSelect) : t.timeout = s.timeout := by
  unfold step at h
  split at h
  · exact absurd trivial he
  · cases h
    exact s.scan_timeout
  · rcases accept_cases h with ⟨newSd, -, -, -, rfl⟩ | ⟨endServer, rfl⟩
    · rfl
    · rfl
  · rcases recv_cases h with ⟨bytes, c, -, -, -, -, rfl⟩ | ⟨closeConn, rfl⟩
    · rfl
    · rfl
  · rcases send_cases h with ⟨n, c, -, -, -, -, rfl⟩ | ⟨-, rfl⟩
    · rfl
    · rfl
  · cases h
    exact s.close_timeout
  · cases h
    exact s.loopTest_timeout
  · cases h
    exact s.cleanUp_timeout
  · cases h

theorem Server.Ended.step (hs : s.Ended) (h : step s e = some t) : t.Ended ∧ ¬ e.IsSelect := by
  have hcleanUp : s.cleanUp.pc = s.pc ∨ s.cleanUp.pc = .returned := by
    unfold Server.cleanUp
    split_ifs
    · exact Or.inl rfl
    · exact Or.inl rfl
    · exact Or.inr rfl
  unfold UnixServer.step at h
  split at h
  case h_8 hpc =>
    cases h
    refine ⟨?_, id⟩
    rcases hcleanUp with h | h
    · exact Or.inl (h.trans hpc)
    · exact Or.inr (Or.inl h)
  case h_9 => cases h
  all_goals
    rename_i hpc
    rcases hs with hs | hs | hs <;> rw [hs] at hpc <;> cases hpc

theorem Server.Ended.run (hs : s.Ended) (hr : runs UnixServer.step s es = some t) :
    ¬ ∃ e ∈ es, e.IsSelect := by
  induction es generalizing s with
  | nil =>
    rintro ⟨e, he, -⟩
    cases he
  | cons e es ih =>
    obtain ⟨u, hu, hr⟩ := runs_cons.mp hr
    obtain ⟨hended, hne⟩ := hs.step hu
    rintro ⟨d, hd, hselect⟩
    rcases List.mem_cons.mp hd with rfl | hd
    · exact hne hselect
    · exact ih hended hr ⟨d, hd, hselect⟩

theorem storesBack_cons : StoresBack full (e :: es) ↔
    (∀ set left, e = .select (.ready set left) → (∃ e ∈ es, e.IsSelect) → left = full) ∧
      StoresBack full es := by
  constructor
  · intro h
    refine ⟨?_, ?_⟩
    · intro set left he
      exact h [] set left es (by rw [he]; rfl)
    · intro pre set left post hes
      exact h (e :: pre) set left post (by rw [hes]; rfl)
  · rintro ⟨hhead, htail⟩ pre set left post hes
    cases pre with
    | nil =>
      cases hes
      exact hhead set left rfl
    | cons d pre =>
      cases hes
      exact htail pre set left post rfl

theorem exists_select_cons (he : ¬ e.IsSelect) :
    (∃ d ∈ e :: es, d.IsSelect) ↔ ∃ d ∈ es, d.IsSelect := by
  constructor
  · rintro ⟨d, hd, hselect⟩
    rcases List.mem_cons.mp hd with rfl | hd
    · exact absurd hselect he
    · exact ⟨d, hd, hselect⟩
  · rintro ⟨d, hd, hselect⟩
    exact ⟨d, List.mem_cons_of_mem e hd, hselect⟩

/-- From any state: the calls of `select` get the full time-out if and only if the first one does
and each of the others finds it stored back. -/
theorem allSteps_fullAt_iff (hr : runs step s es = some t) :
    AllSteps step (FullAt full) s es ↔
      ((∃ e ∈ es, e.IsSelect) → s.timeout = full) ∧ StoresBack full es := by
  induction es generalizing s with
  | nil =>
    refine iff_of_true trivial ⟨?_, ?_⟩
    · rintro ⟨e, he, -⟩
      cases he
    · intro pre set left post h
      cases pre <;> cases h
  | cons e es ih =>
    obtain ⟨u, hu, hru⟩ := runs_cons.mp hr
    have hrest : (∀ v, step s e = some v → AllSteps step (FullAt full) v es) ↔
        ((∃ e ∈ es, e.IsSelect) → u.timeout = full) ∧ StoresBack full es := by
      rw [← ih hru]
      constructor
      · intro h
        exact h u hu
      · intro h v hv
        cases hu.symm.trans hv
        exact h
    rw [AllSteps, hrest, storesBack_cons]
    by_cases he : e.IsSelect
    · have hfirst : (∃ d ∈ e :: es, d.IsSelect) := ⟨e, List.mem_cons_self, he⟩
      cases e with
      | select outcome =>
        rcases select_cases (step_eq_select hu) with ⟨set, left, rfl, htimeout⟩ | ⟨hnot, hended⟩
        · rw [htimeout]
          constructor
          · rintro ⟨hfull, hnext, hes⟩
            refine ⟨fun _ => hfull trivial, ?_, hes⟩
            intro set' left' h
            cases h
            exact hnext
          · rintro ⟨hfull, hnext, hes⟩
            exact ⟨fun _ => hfull hfirst, hnext set left rfl, hes⟩
        · have hlast := hended.run hru
          constructor
          · rintro ⟨hfull, -, hes⟩
            refine ⟨fun _ => hfull trivial, ?_, hes⟩
            intro set left h
            cases h
            exact absurd rfl (hnot set left)
          · rintro ⟨hfull, -, hes⟩
            exact ⟨fun _ => hfull hfirst, fun h => absurd h hlast, hes⟩
      | accept outcome | recv outcome | send outcome | tick => exact absurd he id
    · have hsame := step_timeout hu he
      rw [hsame, exists_select_cons he]
      constructor
      · rintro ⟨-, hfirst, hes⟩
        refine ⟨hfirst, ?_, hes⟩
        rintro set left rfl
        exact absurd trivial he
      · rintro ⟨hfirst, -, hes⟩
        exact ⟨fun h => absurd h he, hfirst, hes⟩

end

/-- The product keeps the period if and only if it does not wrap. -/
theorem start_timeout_iff (listenSd serverTimeout : ℕ) (buffer : List Byte) :
    (Server.start listenSd serverTimeout buffer).timeout = fullTimeout serverTimeout ↔
      serverTimeout * 60 < 2 ^ 32 := by
  unfold Server.start fullTimeout
  dsimp only
  rw [Timeval.mk.injEq]
  constructor
  · rintro ⟨hsec, -⟩
    have hlt : serverTimeout * 60 % 2 ^ 32 < 2 ^ 32 := Nat.mod_lt _ (by decide)
    rwa [hsec] at hlt
  · intro hlt
    exact ⟨Nat.mod_eq_of_lt hlt, rfl⟩

example : (Server.start 3 71582789 []).timeout = ⟨44, 0⟩ := rfl

/-- In a run, `select` is always called with the whole period if and only if the product does not
wrap and every `select` that reports descriptors, the last one excepted, has stored back the whole
period. -/
theorem select_fullTimeout_iff (listenSd serverTimeout : ℕ) (buffer : List Byte)
    (events : List Event) (t : Server)
    (hr : runs step (.start listenSd serverTimeout buffer) events = some t) :
    AllSteps step (FullAt (fullTimeout serverTimeout)) (.start listenSd serverTimeout buffer)
      events ↔
        ((∃ e ∈ events, e.IsSelect) → serverTimeout * 60 < 2 ^ 32) ∧
          StoresBack (fullTimeout serverTimeout) events := by
  rw [allSteps_fullAt_iff hr, start_timeout_iff]

/-- A connection attempt that is gone when it is accepted, and then a time-out; `left` is what the
first `select` stores. -/
def vanished (left : Timeval) : List Event :=
  [.select (.ready {3} left), .tick, .tick, .tick, .tick, .accept .wouldBlock, .tick, .tick,
    .select .timedOut]

theorem select_reducedTimeout : ¬ ∀ t, runs step (.start 3 6 []) (vanished ⟨1, 0⟩) = some t →
    AllSteps step (FullAt (fullTimeout 6)) (.start 3 6 []) (vanished ⟨1, 0⟩) := by
  intro hall
  have hfull := (allSteps_fullAt_iff rfl).mp (hall _ rfl)
  have hleft := hfull.2 [] {3} ⟨1, 0⟩ _ rfl ⟨.select .timedOut, by simp, trivial⟩
  exact absurd hleft (by decide)

theorem select_fullTimeout_sample : ∃ t,
    runs step (.start 3 6 []) (vanished ⟨360, 0⟩) = some t ∧
      AllSteps step (FullAt (fullTimeout 6)) (.start 3 6 []) (vanished ⟨360, 0⟩) := by
  refine ⟨_, rfl, ?_⟩
  apply (select_fullTimeout_iff 3 6 [] (vanished ⟨360, 0⟩) _ rfl).mpr
  refine ⟨fun _ => by decide, ?_⟩
  apply storesBack_cons.mpr
  constructor
  · intro set left heq _
    cases heq
    rfl
  · intro pre set left post hes
    have hmem : Event.select (.ready set left) ∈ (vanished ⟨360, 0⟩).tail := by
      rw [vanished, List.tail_cons, hes]
      exact List.mem_append_right pre List.mem_cons_self
    simp [vanished] at hmem

end TcpTests.UnixServer
