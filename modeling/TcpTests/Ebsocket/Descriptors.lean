import TcpTests.Ebsocket.Socket

/-! The account of the descriptors that `ebsocket` creates: the exits that lose one, and the
sequences of calls in which none is lost. -/
namespace TcpTests.Ebsocket
open Lib Net

/-- The descriptors that the module created and that are still open are those that it returned
and that were not closed, and the listening socket. -/
def Sockets.Balanced (s : Sockets) : Prop :=
  s.opened = s.returned ∪ if 0 ≤ s.listenS then {s.listenS} else ∅

instance (s : Sockets) : Decidable s.Balanced := inferInstanceAs (Decidable (_ = _))

/-- The calls that lose no descriptor. A socket is made only if all that follows succeeds, and a
listening socket is not given up. -/
def Released (s : Sockets) : Call → Prop
  | .tcpConnect o connect => o.socket = none ∨ (o.fcntl = true ∧ connect = true)
  | .tcpListen once a _ =>
    (s.listenS < 0 ∧ a.makeSocket.socket = none) ∨
      ((s.listenS < 0 → (a.makeSocket.fcntl && a.bind && a.listen) = true) ∧
        a.accept.isSome = true ∧ once = false)
  | .tcpUnlisten => s.listenS < 0
  | .tcpClose _ => True

instance (s : Sockets) : ∀ c, Decidable (Released s c)
  | .tcpConnect _ _ => inferInstanceAs (Decidable (_ ∨ _))
  | .tcpListen _ _ _ => inferInstanceAs (Decidable (_ ∨ _))
  | .tcpUnlisten => inferInstanceAs (Decidable (_ < _))
  | .tcpClose _ => inferInstanceAs (Decidable True)

/-- A descriptor that is open and that nobody has any more. -/
structure Leaked (s : Sockets) (d : ℤ) : Prop where
  nonneg : 0 ≤ d
  isOpen : d ∈ s.opened
  notReturned : d ∉ s.returned
  notListening : d ≠ s.listenS

structure Sockets.Inv (s : Sockets) : Prop where
  isOpen : ∀ d, d ∈ s.opened ↔ d ∈ s.returned ∨ (0 ≤ s.listenS ∧ d = s.listenS)
  nonneg : ∀ d ∈ s.opened, 0 ≤ d
  notReturned : 0 ≤ s.listenS → s.listenS ∉ s.returned

section
variable {s t u : Sockets} {o : MakeSocket} {a a₁ a₂ : Attempt} {d n r : ℤ} {once ok : Bool}
  {tried : Tried}

theorem balanced_iff :
    s.Balanced ↔ ∀ d, d ∈ s.opened ↔ d ∈ s.returned ∨ (0 ≤ s.listenS ∧ d = s.listenS) := by
  unfold Sockets.Balanced
  rw [Finset.ext_iff]
  by_cases hl : 0 ≤ s.listenS
  · simp [hl, or_comm]
  · simp [hl]

theorem Leaked.not_balanced (h : Leaked s d) : ¬ s.Balanced := by
  intro hb
  rcases (balanced_iff.mp hb d).mp h.isOpen with hd | ⟨-, hd⟩
  · exact h.notReturned hd
  · exact h.notListening hd

theorem Sockets.Inv.start : Sockets.start.Inv := by
  constructor <;> simp [Sockets.start]

theorem Sockets.Inv.isNew_notReturned (hs : s.Inv) (hn : s.isNew n) : n ∉ s.returned :=
  fun h => hn.2 ((hs.isOpen n).mpr (Or.inl h))

theorem give_opened (s : Sockets) (r : ℤ) : (Sockets.give (s, r)).opened = s.opened := by
  unfold Sockets.give
  split <;> rfl

theorem give_listenS (s : Sockets) (r : ℤ) : (Sockets.give (s, r)).listenS = s.listenS := by
  unfold Sockets.give
  split <;> rfl

theorem mem_give_returned :
    d ∈ (Sockets.give (s, r)).returned ↔ (0 ≤ r ∧ d = r) ∨ d ∈ s.returned := by
  unfold Sockets.give
  by_cases hr : 0 ≤ r
  · simp [hr]
  · simp [hr]

theorem give_failed (s : Sockets) : Sockets.give (s, -1) = s := rfl

theorem Sockets.Inv.give (hs : s.Inv) (hn : s.isNew n) (hopened : t.opened = insert n s.opened)
    (hreturned : t.returned = s.returned) (hlistenS : t.listenS = s.listenS) :
    (Sockets.give (t, n)).Inv := by
  constructor
  · intro d
    rw [give_opened, give_listenS, mem_give_returned, hopened, hreturned, hlistenS,
      Finset.mem_insert, hs.isOpen d]
    simp only [hn.1, true_and, or_assoc]
  · intro d hd
    rw [give_opened, hopened, Finset.mem_insert] at hd
    rcases hd with rfl | hd
    · exact hn.1
    · exact hs.nonneg d hd
  · intro hl hmem
    rw [give_listenS, hlistenS] at hl
    rw [give_listenS, mem_give_returned, hreturned, hlistenS] at hmem
    rcases hmem with ⟨-, heq⟩ | hmem
    · exact hn.2 (heq ▸ (hs.isOpen s.listenS).mpr (Or.inr ⟨hl, rfl⟩))
    · exact hs.notReturned hl hmem

theorem Leaked.give (h : Leaked s d) (hne : r ≠ d) : Leaked (Sockets.give (s, r)) d := by
  constructor
  · exact h.nonneg
  · rw [give_opened]
    exact h.isOpen
  · intro hmem
    rcases mem_give_returned.mp hmem with ⟨-, heq⟩ | hmem
    · exact hne heq.symm
    · exact h.notReturned hmem
  · rw [give_listenS]
    exact h.notListening

theorem Sockets.Inv.tcpClose (hs : s.Inv) (hd : d ∈ s.returned) :
    Sockets.Inv { s.tcpClose d with returned := s.returned.erase d } := by
  have hne : 0 ≤ s.listenS → s.listenS ≠ d := fun hl heq => hs.notReturned hl (heq ▸ hd)
  constructor
  · intro e
    simp only [Sockets.tcpClose, Finset.mem_erase, hs.isOpen e]
    constructor
    · rintro ⟨hed, he | he⟩
      · exact Or.inl ⟨hed, he⟩
      · exact Or.inr he
    · rintro (⟨hed, he⟩ | ⟨hl, rfl⟩)
      · exact ⟨hed, Or.inl he⟩
      · exact ⟨hne hl, Or.inr ⟨hl, rfl⟩⟩
  · intro e he
    exact hs.nonneg e (Finset.mem_of_mem_erase he)
  · intro hl hmem
    exact hs.notReturned hl (Finset.mem_of_mem_erase hmem)

section Connect

theorem tcpConnect_inv {connect : Bool} (hs : s.Inv)
    (hg : Released s (.tcpConnect o connect)) (h : s.tcpConnect o connect = some (t, r)) :
    (Sockets.give (t, r)).Inv := by
  rcases tcpConnect_cases h with ⟨-, rfl, rfl⟩ | ⟨n, hsocket, hn, rfl, hr⟩
  · exact hs
  · rcases hg with hnone | ⟨hfcntl, hconnect⟩
    · cases hsocket.symm.trans hnone
    · rw [hfcntl, hconnect] at hr
      obtain rfl : r = n := hr
      exact hs.give hn rfl rfl rfl

theorem tcpConnect_leaks {connect : Bool} (hs : s.Inv)
    (hg : ¬ Released s (.tcpConnect o connect)) (h : s.tcpConnect o connect = some (t, r)) :
    ∃ d, Leaked (Sockets.give (t, r)) d := by
  rcases tcpConnect_cases h with ⟨hsocket, -, -⟩ | ⟨n, hsocket, hn, rfl, hr⟩
  · exact absurd (Or.inl hsocket) hg
  · have hfail : (o.fcntl && connect) = false := by
      rw [Bool.eq_false_iff]
      intro hok
      exact hg (Or.inr (Bool.and_eq_true_iff.mp hok))
    rw [hfail] at hr
    obtain rfl : r = -1 := hr
    rw [give_failed]
    refine ⟨n, hn.1, Finset.mem_insert_self _ _, hs.isNew_notReturned hn, ?_⟩
    intro heq
    have hl : 0 ≤ s.listenS := heq ▸ hn.1
    exact hn.2 ((hs.isOpen n).mpr (Or.inr ⟨hl, heq⟩))

end Connect

section Listen

theorem tcpUnlisten_of_nonneg (h : 0 ≤ s.listenS) :
    s.tcpUnlisten = { s with listenS := -1 } := if_pos h

theorem Sockets.Inv.unlistening (hs : s.Inv) (hl : s.listenS < 0) :
    Sockets.Inv { s with listenS := -1 } := by
  have hneg : ¬ 0 ≤ s.listenS := not_le.mpr hl
  constructor
  · intro d
    have hd := hs.isOpen d
    simp only [hneg, false_and, or_false] at hd
    simpa using hd
  · exact hs.nonneg
  · intro hl'
    cases hl'

theorem listening_inv (hs : s.Inv) (h : s.listening a = some (u, true)) :
    u.Inv ∧ 0 ≤ u.listenS := by
  rcases listening_cases h with ⟨hl, rfl, -⟩ | ⟨-, -, -, hok⟩ | ⟨hl, n, -, hn, -, rfl⟩
  · exact ⟨hs, hl⟩
  · cases hok
  · have hneg : ¬ 0 ≤ s.listenS := not_le.mpr hl
    refine ⟨?_, hn.1⟩
    constructor
    · intro d
      simp only [Finset.mem_insert, hs.isOpen d, if_true, hneg, false_and, or_false, hn.1,
        true_and]
      exact or_comm
    · intro d hd
      rcases Finset.mem_insert.mp hd with rfl | hd
      · exact hn.1
      · exact hs.nonneg d hd
    · intro _
      exact hs.isNew_notReturned hn

theorem Sockets.Inv.listenS_opened (hs : s.Inv) (hl : 0 ≤ s.listenS) : s.listenS ∈ s.opened :=
  (hs.isOpen s.listenS).mpr (Or.inr ⟨hl, rfl⟩)

theorem unlisten_leaks (hl : 0 ≤ s.listenS) (hopened : s.listenS ∈ s.opened)
    (hreturned : s.listenS ∉ s.returned) : Leaked s.tcpUnlisten s.listenS := by
  rw [tcpUnlisten_of_nonneg hl]
  have hne : s.listenS ≠ -1 := by omega
  exact ⟨hl, hopened, hreturned, hne⟩

theorem Leaked.tcpUnlisten (h : Leaked s d) : Leaked s.tcpUnlisten d := by
  unfold Sockets.tcpUnlisten
  by_cases hl : s.listenS ≥ 0
  · rw [if_pos hl]
    have hd := h.nonneg
    have hne : d ≠ -1 := by omega
    exact ⟨h.nonneg, h.isOpen, h.notReturned, hne⟩
  · rw [if_neg hl]
    exact h

theorem Leaked.listening (h : Leaked s d) (hl : s.listening a = some (u, ok)) : Leaked u d := by
  have hd := h.nonneg
  have hne : d ≠ -1 := by omega
  rcases listening_cases hl with ⟨-, rfl, -⟩ | ⟨-, -, rfl, -⟩ | ⟨-, n, -, hn, -, rfl⟩
  · exact h
  · exact ⟨h.nonneg, h.isOpen, h.notReturned, hne⟩
  · have hdn : d ≠ n := fun heq => hn.2 (heq ▸ h.isOpen)
    refine ⟨h.nonneg, Finset.mem_insert_of_mem h.isOpen, h.notReturned, ?_⟩
    dsimp only
    split
    · exact hdn
    · exact hne

theorem Leaked.accepted (h : Leaked s d) (sa : SockaddrIn) :
    Leaked { s with opened := insert n s.opened, inetFarMachine := sa } d :=
  ⟨h.nonneg, Finset.mem_insert_of_mem h.isOpen, h.notReturned, h.notListening⟩

theorem Leaked.tryListen (h : Leaked s d) (htry : s.tryListen once a = some (t, tried)) :
    Leaked t d ∧ tried.newS ≠ d := by
  have hd := h.nonneg
  have hne : (-1 : ℤ) ≠ d := by omega
  obtain ⟨u, ok, hlistening, hcases⟩ := tryListen_cases htry
  have hu := h.listening hlistening
  rcases hcases with ⟨-, rfl, rfl⟩ | ⟨-, -, rfl, rfl⟩ | ⟨-, newS, sa, -, hnew, rfl, rfl⟩
  · exact ⟨hu, hne⟩
  · exact ⟨hu.tcpUnlisten, hne⟩
  · have hnewd : newS ≠ d := fun heq => hnew.2 (heq ▸ hu.isOpen)
    refine ⟨?_, hnewd⟩
    split
    · exact (hu.accepted sa).tcpUnlisten
    · exact hu.accepted sa

/-- A bad first attempt loses the listening socket. -/
theorem tryListen_leaks (hs : s.Inv) (hg : ¬ Released s (.tcpListen once a a₂))
    (htry : s.tryListen once a = some (t, tried)) : ∃ d, Leaked t d ∧ tried.newS ≠ d := by
  obtain ⟨u, ok, hlistening, hcases⟩ := tryListen_cases htry
  rcases hcases with ⟨rfl, rfl, rfl⟩ | ⟨rfl, -, rfl, rfl⟩ | ⟨rfl, newS, sa, haccept, hnew, rfl, rfl⟩
  · rcases listening_cases hlistening with ⟨-, -, hok⟩ | ⟨hl, hsocket, -, -⟩ |
      ⟨hl, n, -, hn, -, rfl⟩
    · cases hok
    · exact absurd (Or.inl ⟨hl, hsocket⟩) hg
    · have hn0 := hn.1
      have hne : n ≠ -1 := by omega
      exact ⟨n, ⟨hn.1, Finset.mem_insert_self _ _, hs.isNew_notReturned hn, hne⟩, hne.symm⟩
  · obtain ⟨hu, hl⟩ := listening_inv hs hlistening
    have hne : (-1 : ℤ) ≠ u.listenS := by omega
    exact ⟨u.listenS, unlisten_leaks hl (hu.listenS_opened hl) (hu.notReturned hl), hne⟩
  · obtain ⟨hu, hl⟩ := listening_inv hs hlistening
    have hopened := hu.listenS_opened hl
    have hnewl : newS ≠ u.listenS := fun heq => hnew.2 (heq ▸ hopened)
    have honce : once = true := by
      by_contra hfalse
      have hready : s.listenS < 0 →
          (a.makeSocket.fcntl && a.bind && a.listen) = true := by
        intro hl
        rcases listening_cases hlistening with ⟨hl', -, -⟩ | ⟨-, -, -, hok⟩ |
          ⟨-, n, -, -, hok, -⟩
        · exact absurd hl (not_lt.mpr hl')
        · cases hok
        · exact hok.symm
      refine hg (Or.inr ⟨hready, ?_, Bool.eq_false_iff.mpr hfalse⟩)
      rw [haccept]
      rfl
    rw [if_pos honce]
    exact ⟨u.listenS, unlisten_leaks hl (Finset.mem_insert_of_mem hopened) (hu.notReturned hl),
      hnewl⟩

theorem tcpListen_leaks (hs : s.Inv) (hg : ¬ Released s (.tcpListen once a₁ a₂))
    (h : s.tcpListen once a₁ a₂ = some (t, r)) : ∃ d, Leaked (Sockets.give (t, r)) d := by
  obtain ⟨u, tried, htry, hcases⟩ := tcpListen_cases h
  obtain ⟨d, hleaked, hne⟩ := tryListen_leaks hs hg htry
  rcases hcases with ⟨-, rfl, rfl⟩ | ⟨-, -, again, hagain, rfl⟩
  · exact ⟨d, hleaked.give hne⟩
  · obtain ⟨hleaked, hne⟩ := hleaked.tryListen hagain
    exact ⟨d, hleaked.give hne⟩

theorem tcpListen_inv (hs : s.Inv) (hg : Released s (.tcpListen once a₁ a₂))
    (h : s.tcpListen once a₁ a₂ = some (t, r)) : (Sockets.give (t, r)).Inv := by
  obtain ⟨u, tried, htry, hcases⟩ := tcpListen_cases h
  obtain ⟨v, ok, hlistening, htried⟩ := tryListen_cases htry
  by_cases hnone : s.listenS < 0 ∧ a₁.makeSocket.socket = none
  · obtain ⟨hl, hsocket⟩ := hnone
    have hneg : ¬ 0 ≤ s.listenS := not_le.mpr hl
    rcases listening_cases hlistening with ⟨hl', -, -⟩ | ⟨-, -, rfl, rfl⟩ | ⟨-, n, hn, -, -, -⟩
    · exact absurd hl' hneg
    · rcases htried with ⟨-, rfl, rfl⟩ | ⟨hok, -, -, -⟩ | ⟨hok, -⟩
      · rcases hcases with ⟨-, rfl, rfl⟩ | ⟨hretry, -, -⟩
        · exact hs.unlistening hl
        · cases hretry
      · cases hok
      · cases hok
    · cases hsocket.symm.trans hn
  · obtain ⟨hready, haccept, honce⟩ := hg.resolve_left hnone
    obtain rfl : ok = true := by
      rcases listening_cases hlistening with ⟨-, -, hok⟩ | ⟨hl, hsocket, -, -⟩ |
        ⟨hl, n, -, -, hok, -⟩
      · exact hok
      · exact absurd ⟨hl, hsocket⟩ hnone
      · rw [hok, hready hl]
    obtain ⟨hv, -⟩ := listening_inv hs hlistening
    rcases htried with ⟨hok, -⟩ | ⟨-, hfail, -⟩ | ⟨-, newS, sa, -, hnew, rfl, hu⟩
    · cases hok
    · rw [hfail] at haccept
      cases haccept
    · rcases hcases with ⟨-, rfl, rfl⟩ | ⟨hretry, -, -⟩
      · rw [honce] at hu
        subst hu
        exact hv.give hnew rfl rfl rfl
      · cases hretry

end Listen

theorem step_inv {c : Call} (hs : s.Inv) (hg : Released s c) (h : step s c = some t) : t.Inv := by
  cases c with
  | tcpConnect o connect =>
    obtain ⟨⟨u, r⟩, hu, rfl⟩ := Option.map_eq_some_iff.mp h
    exact tcpConnect_inv hs hg hu
  | tcpListen once a₁ a₂ =>
    obtain ⟨⟨u, r⟩, hu, rfl⟩ := Option.map_eq_some_iff.mp h
    exact tcpListen_inv hs hg hu
  | tcpUnlisten =>
    have hneg : ¬ s.listenS ≥ 0 := not_le.mpr hg
    cases h
    unfold Sockets.tcpUnlisten
    rw [if_neg hneg]
    exact hs
  | tcpClose fh =>
    simp only [step] at h
    by_cases hmem : fh ∈ s.returned
    · rw [if_pos hmem] at h
      cases h
      exact hs.tcpClose hmem
    · rw [if_neg hmem] at h
      cases h

theorem step_leaks {c : Call} (hs : s.Inv) (hg : ¬ Released s c) (h : step s c = some t) :
    ∃ d, Leaked t d := by
  cases c with
  | tcpConnect o connect =>
    obtain ⟨⟨u, r⟩, hu, rfl⟩ := Option.map_eq_some_iff.mp h
    exact tcpConnect_leaks hs hg hu
  | tcpListen once a₁ a₂ =>
    obtain ⟨⟨u, r⟩, hu, rfl⟩ := Option.map_eq_some_iff.mp h
    exact tcpListen_leaks hs hg hu
  | tcpUnlisten =>
    have hl : 0 ≤ s.listenS := not_lt.mp hg
    cases h
    exact ⟨s.listenS, unlisten_leaks hl (hs.listenS_opened hl) (hs.notReturned hl)⟩
  | tcpClose fh => exact absurd trivial hg

end

/-- No descriptor is lost if and only if each call that makes a socket succeeds, `tcp_listen` is
not asked for one connection, its first `accept` succeeds, and `tcp_unlisten` has nothing to do. -/
theorem descriptors_iff (calls : List Call) (s : Sockets)
    (hr : runs step .start calls = some s) :
    AllStates step Sockets.Balanced .start calls ↔ AllSteps step Released .start calls :=
  allStates_iff_allSteps (Q := fun _ _ => True) (fun _ hs => balanced_iff.mpr hs.isOpen)
    (fun _ _ _ hs _ hstep hg => step_inv hs hg hstep)
    (fun _ _ _ hs _ hstep hg =>
      let ⟨_, hleaked⟩ := step_leaks hs hg hstep
      hleaked.not_balanced)
    Sockets.Inv.start (allSteps_of_inputs fun _ _ => trivial) hr

/-- One listening socket that is kept, two connections, of which one is closed. -/
theorem descriptors_iff_sample :
    ∃ s, runs step .start
        [.tcpListen false ⟨⟨some 3, true⟩, true, true, some (4, ⟨16777343, 50000⟩)⟩
            ⟨⟨none, true⟩, true, true, none⟩,
          .tcpConnect ⟨some 5, true⟩ true, .tcpClose 4] = some s ∧
      s.opened = {3, 5} ∧
      AllStates step Sockets.Balanced .start
        [.tcpListen false ⟨⟨some 3, true⟩, true, true, some (4, ⟨16777343, 50000⟩)⟩
            ⟨⟨none, true⟩, true, true, none⟩,
          .tcpConnect ⟨some 5, true⟩ true, .tcpClose 4] :=
  ⟨_, rfl, by decide, (descriptors_iff _ _ rfl).mpr (by decide)⟩

/-- One connection is asked for, accepted and closed: the listening socket 3 stays open, and the
module has forgotten it. -/
theorem listener_lost :
    ∃ s, runs step .start
        [.tcpListen true ⟨⟨some 3, true⟩, true, true, some (4, ⟨16777343, 50000⟩)⟩
            ⟨⟨none, true⟩, true, true, none⟩,
          .tcpClose 4] = some s ∧
      s.opened = {3} ∧ s.returned = ∅ ∧ s.listenS = -1 ∧ ¬ s.Balanced :=
  ⟨_, rfl, by decide, by decide, rfl, by decide⟩

end TcpTests.Ebsocket
