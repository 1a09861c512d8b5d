import Mathlib.Data.Finset.Card
import Mathlib.Data.Finset.Range
import TcpTests.Lib.Lists
import TcpTests.Nbserver.Server

/-! The table of connections of `nbserver`: its slots hold the open connections, and a pass of
`read_socks` serves the slots that were ready when `select` looked. -/
namespace TcpTests.Nbserver
open Lib Sockhelp

def NbServer.slots (s : NbServer) : Finset ℕ :=
  (Finset.range myMxConns).filter fun listnum => s.connectlist listnum ≠ 0

/-- The test of `read_socks` for a slot. -/
def NbServer.reads (s : NbServer) (listnum : ℕ) : Bool :=
  decide (s.connectlist listnum ≠ 0) && decide (s.connectlist listnum ∈ s.socks)

/-- The slot that a step serves, if it serves one. -/
def NbServer.serves (s : NbServer) (e : Event) : List ℕ :=
  match e, s.pc with
  | .read _, .read listnum => if s.reads listnum then [listnum] else []
  | _, _ => []

def Event.isAccept : Event → Bool
  | .accept _ => true
  | _ => false

/-- The table against the connections that are open. -/
structure Slots (sock : ℕ) (connectlist : ℕ → ℕ) (conns : ℕ → Option Conn) : Prop where
  distinct : ∀ i < myMxConns, ∀ j < myMxConns, connectlist i ≠ 0 →
    connectlist j = connectlist i → j = i
  isOpen : ∀ fd, (conns fd).isSome = true ↔ fd ≠ 0 ∧ ∃ i < myMxConns, connectlist i = fd
  listening : conns sock = none

structure NbServer.Inv (s : NbServer) : Prop where
  slots : Slots s.sock s.connectlist s.conns
  highsock : s.sock ≤ s.highsock
  accepting : s.pc = .accept → ∀ fd ∈ s.socks, fd = s.sock ∨ (s.conns fd).isSome = true
  reading : ∀ listnum, s.pc = .read listnum → listnum < myMxConns

section Slots
variable {sock : ℕ} {connectlist : ℕ → ℕ} {conns conns' : ℕ → Option Conn} {k fd : ℕ} {c : Conn}

theorem Slots.same (h : Slots sock connectlist conns)
    (hsome : ∀ fd, (conns' fd).isSome = (conns fd).isSome) : Slots sock connectlist conns' where
  distinct := h.distinct
  isOpen := by
    intro fd
    rw [hsome]
    exact h.isOpen fd
  listening := by
    rw [← Option.not_isSome_iff_eq_none, hsome, h.listening]
    nofun

theorem exists_slot_update_iff {fd' : ℕ} (hold : fd' ≠ connectlist k) (hnew : fd' ≠ fd) :
    (∃ i < myMxConns, Function.update connectlist k fd i = fd') ↔
      ∃ i < myMxConns, connectlist i = fd' := by
  constructor
  · rintro ⟨i, hi, rfl⟩
    have hik : i ≠ k := by
      rintro rfl
      exact hnew (Function.update_self ..)
    exact ⟨i, hi, (Function.update_of_ne hik ..).symm⟩
  · rintro ⟨i, hi, rfl⟩
    refine ⟨i, hi, Function.update_of_ne ?_ ..⟩
    rintro rfl
    exact hold rfl

theorem Slots.fill (h : Slots sock connectlist conns) (hk : k < myMxConns)
    (hfree : connectlist k = 0) (hfd : fd ≠ 0) (hsock : fd ≠ sock) (hnew : conns fd = none) :
    Slots sock (Function.update connectlist k fd) (Function.update conns fd (some c)) := by
  have hunused : ∀ i < myMxConns, connectlist i ≠ fd := by
    intro i hi heq
    have hopen := (h.isOpen fd).mpr ⟨hfd, i, hi, heq⟩
    rw [hnew] at hopen
    cases hopen
  refine ⟨?_, ?_, ?_⟩
  · intro i hi j hj hne heq
    by_cases hik : i = k
    · subst hik
      rw [Function.update_self] at heq
      by_contra hji
      rw [Function.update_of_ne hji] at heq
      exact hunused j hj heq
    · rw [Function.update_of_ne hik] at hne heq
      by_cases hjk : j = k
      · subst hjk
        rw [Function.update_self] at heq
        exact absurd heq.symm (hunused i hi)
      · rw [Function.update_of_ne hjk] at heq
        exact h.distinct i hi j hj hne heq
  · intro fd'
    by_cases hfd' : fd' = fd
    · subst hfd'
      rw [Function.update_self]
      exact iff_of_true rfl ⟨hfd, k, hk, Function.update_self ..⟩
    · rw [Function.update_of_ne hfd', h.isOpen]
      have hold : fd' ≠ 0 → fd' ≠ connectlist k := fun hpos heq => hpos (heq.trans hfree)
      exact and_congr_right fun hpos => (exists_slot_update_iff (hold hpos) hfd').symm
  · rw [Function.update_of_ne hsock.symm]
    exact h.listening

theorem Slots.free (h : Slots sock connectlist conns) (hk : k < myMxConns)
    (hfd : connectlist k ≠ 0) :
    Slots sock (Function.update connectlist k 0)
      (Function.update conns (connectlist k) none) := by
  refine ⟨?_, ?_, ?_⟩
  · intro i hi j hj hne heq
    have hik : i ≠ k := by
      rintro rfl
      exact hne (Function.update_self ..)
    rw [Function.update_of_ne hik] at hne heq
    by_cases hjk : j = k
    · subst hjk
      rw [Function.update_self] at heq
      exact absurd heq.symm hne
    · rw [Function.update_of_ne hjk] at heq
      exact h.distinct i hi j hj hne heq
  · intro fd
    by_cases hfd' : fd = connectlist k
    · subst hfd'
      rw [Function.update_self]
      refine iff_of_false nofun ?_
      rintro ⟨-, i, hi, heq⟩
      by_cases hik : i = k
      · subst hik
        rw [Function.update_self] at heq
        exact hfd heq.symm
      · rw [Function.update_of_ne hik] at heq
        exact hik (h.distinct k hk i hi hfd heq)
    · rw [Function.update_of_ne hfd', h.isOpen]
      exact and_congr_right fun hpos => (exists_slot_update_iff hfd' hpos).symm
  · by_cases hsock : sock = connectlist k
    · rw [hsock, Function.update_self]
    · rw [Function.update_of_ne hsock]
      exact h.listening

end Slots

section Step
variable {s t : NbServer} {e : Event} {listnum connection : ℕ} {outs : List WriteOutcome}

theorem readSlot_table (h : s.readSlot listnum outs = some t) :
    t.sock = s.sock ∧ t.highsock = s.highsock ∧ t.socks = s.socks ∧ t.refused = s.refused ∧
    ((t.pc = (s.nextSlot listnum).pc ∧ t.connectlist = s.connectlist ∧ t.lost = s.lost ∧
        ∀ fd, (t.conns fd).isSome = (s.conns fd).isSome) ∨
      (t.pc = .undefined ∧ t.connectlist = s.connectlist ∧ t.lost = s.lost ∧
        t.conns = s.conns) ∨
      ∃ c, t.pc = (s.nextSlot listnum).pc ∧ s.connectlist listnum ≠ 0 ∧
        t.connectlist = Function.update s.connectlist listnum 0 ∧ t.lost = s.lost ++ [c] ∧
        t.conns = Function.update s.conns (s.connectlist listnum) none) := by
  rcases readSlot_cases h with ⟨-, rfl⟩ | ⟨c, d, hfd, -, hc, -, rfl⟩
  · exact ⟨rfl, rfl, rfl, rfl, Or.inl ⟨rfl, rfl, rfl, fun _ => rfl⟩⟩
  · cases d with
    | goesOn c' =>
      have hopen : (s.conns (s.connectlist listnum)).isSome = true := by
        rw [hc]
        rfl
      exact ⟨rfl, rfl, rfl, rfl, Or.inl ⟨rfl, rfl, rfl, isSome_update_some hopen c'⟩⟩
    | undefined => exact ⟨rfl, rfl, rfl, rfl, Or.inr (Or.inl ⟨rfl, rfl, rfl, rfl⟩)⟩
    | closes c' => exact ⟨rfl, rfl, rfl, rfl, Or.inr (Or.inr ⟨c', rfl, hfd, rfl, rfl, rfl⟩)⟩

theorem nextSlot_reading {n : ℕ} (h : (s.nextSlot listnum).pc = .read n) : n < myMxConns := by
  unfold NbServer.nextSlot at h
  dsimp only at h
  split_ifs at h with hlt
  cases h
  exact hlt

theorem nextSlot_accept : (s.nextSlot listnum).pc ≠ .accept := by
  unfold NbServer.nextSlot
  dsimp only
  split_ifs <;> nofun

theorem read_inv (hs : s.Inv) (h : step s (.read outs) = some t) : t.Inv := by
  obtain ⟨listnum, hpc, h⟩ := step_read h
  have hn := hs.reading listnum hpc
  obtain ⟨hsock, hhigh, hsocks, -, hcases⟩ := readSlot_table h
  have hhighsock : t.sock ≤ t.highsock := by
    rw [hsock, hhigh]
    exact hs.highsock
  rcases hcases with ⟨hpc', hlist, -, hconns⟩ | ⟨hpc', hlist, -, hconns⟩ |
    ⟨c, hpc', hfd, hlist, -, hconns⟩
  · refine ⟨?_, hhighsock, ?_, ?_⟩
    · rw [hsock, hlist]
      exact hs.slots.same hconns
    · rw [hpc']
      exact fun h => absurd h nextSlot_accept
    · rw [hpc']
      exact fun _ => nextSlot_reading
  · refine ⟨?_, hhighsock, ?_, ?_⟩
    · rw [hsock, hlist, hconns]
      exact hs.slots
    · rw [hpc']
      nofun
    · rw [hpc']
      nofun
  · refine ⟨?_, hhighsock, ?_, ?_⟩
    · rw [hsock, hlist, hconns]
      exact hs.slots.free hn hfd
    · rw [hpc']
      exact fun h => absurd h nextSlot_accept
    · rw [hpc']
      exact fun _ => nextSlot_reading

theorem handleNewConnection_cases (s : NbServer) (connection : ℕ) :
    (∃ k < myMxConns, s.connectlist k = 0 ∧
      s.handleNewConnection connection = { s with
        waiting := s.waiting - 1
        pc := .read 0
        connectlist := Function.update s.connectlist k connection
        conns := Function.update s.conns connection (some .fresh) }) ∨
    ((∀ k < myMxConns, s.connectlist k ≠ 0) ∧
      s.handleNewConnection connection = { s with
        waiting := s.waiting - 1
        pc := .read 0
        refused := s.refused ++ [connection] }) := by
  unfold NbServer.handleNewConnection
  dsimp only
  split
  · rename_i k hk
    have hfound := List.find?_some hk
    have hmem := List.mem_of_find?_eq_some hk
    exact Or.inl ⟨k, List.mem_range.mp hmem, by simpa using hfound, rfl⟩
  · rename_i hnone
    refine Or.inr ⟨?_, rfl⟩
    intro k hk
    simpa using List.find?_eq_none.mp hnone k (List.mem_range.mpr hk)

theorem accept_inv (hs : s.Inv) (h : step s (.accept connection) = some t) : t.Inv := by
  obtain ⟨-, hpos, hsock, hnew, rfl⟩ := step_accept h
  rcases handleNewConnection_cases s connection with
    ⟨k, hk, hfree, heq⟩ | ⟨-, heq⟩
  · rw [heq]
    refine ⟨hs.slots.fill hk hfree hpos hsock hnew, hs.highsock, nofun, ?_⟩
    intro n hn
    cases hn
    decide
  · rw [heq]
    refine ⟨hs.slots, hs.highsock, nofun, ?_⟩
    intro n hn
    cases hn
    decide

theorem mem_occupied {fd : ℕ} :
    fd ∈ s.occupied ↔ fd ≠ 0 ∧ ∃ i < myMxConns, s.connectlist i = fd := by
  simp only [NbServer.occupied, List.mem_filter, List.mem_map, List.mem_range, decide_eq_true_eq]
  exact and_comm

/-- What is handed to `select`: the listening socket and the occupied slots, none of them above
`highsock`. -/
theorem buildSelectList_socks (hs : s.Inv) :
    (∀ fd, fd ∈ s.buildSelectList.socks ↔
      fd = s.sock ∨ fd ≠ 0 ∧ ∃ i < myMxConns, s.connectlist i = fd) ∧
    ∀ fd ∈ s.buildSelectList.socks, fd ≤ s.buildSelectList.highsock := by
  obtain ⟨hle, hall⟩ := le_foldl_max s.occupied s.highsock
  refine ⟨?_, ?_⟩
  · intro fd
    rw [NbServer.buildSelectList, List.mem_cons, mem_occupied]
  · intro fd hfd
    rcases List.mem_cons.mp hfd with rfl | hfd
    · exact hs.highsock.trans hle
    · exact hall fd hfd

theorem select_inv (hs : s.Inv) : s.select.Inv := by
  refine ⟨hs.slots, ?_, ?_, ?_⟩
  · exact hs.highsock.trans (le_foldl_max s.occupied s.highsock).1
  · intro _ fd hfd
    have hmem : fd ∈ s.buildSelectList.socks := (List.mem_filter.mp hfd).1
    rcases ((buildSelectList_socks hs).1 fd).mp hmem with hfd | hfd
    · exact Or.inl hfd
    · exact Or.inr ((hs.slots.isOpen fd).mpr hfd)
  · intro n hn
    unfold NbServer.select at hn
    dsimp only at hn
    split_ifs at hn
    cases hn
    decide

theorem arrive_inv (hs : s.Inv) {fd : ℕ} {c c' : Conn} (hc : s.conns fd = some c) :
    NbServer.Inv { s with conns := Function.update s.conns fd (some c') } := by
  have hopen : (s.conns fd).isSome = true := by
    rw [hc]
    rfl
  have hsome := isSome_update_some hopen c'
  refine ⟨hs.slots.same hsome, hs.highsock, ?_, hs.reading⟩
  intro hpc fd' hfd'
  rw [hsome]
  exact hs.accepting hpc fd' hfd'

theorem step_inv (hs : s.Inv) (h : step s e = some t) : t.Inv := by
  cases e with
  | connect =>
    cases h
    exact ⟨hs.slots, hs.highsock, hs.accepting, hs.reading⟩
  | arrive fd bytes =>
    obtain ⟨c, hc, rfl⟩ := Option.map_eq_some_iff.mp h
    exact arrive_inv hs hc
  | ends fd idle =>
    obtain ⟨c, hc, rfl⟩ := Option.map_eq_some_iff.mp h
    exact arrive_inv hs hc
  | select =>
    obtain ⟨-, rfl⟩ := step_select h
    exact select_inv hs
  | accept connection => exact accept_inv hs h
  | read outs => exact read_inv hs h
  | checkKeys esc =>
    obtain ⟨-, rfl⟩ := step_checkKeys h
    refine ⟨hs.slots, hs.highsock, ?_, ?_⟩
    · cases esc <;> nofun
    · cases esc <;> nofun
  | fails =>
    obtain ⟨-, rfl⟩ := step_fails h
    exact ⟨hs.slots, hs.highsock, nofun, nofun⟩

/-- The connections that are in a slot, or were closed, or were refused. -/
def NbServer.entered (s : NbServer) : ℕ := s.slots.card + s.lost.length + s.refused.length

theorem slots_fill {k fd : ℕ} (hk : k < myMxConns) (hfree : s.connectlist k = 0) (hfd : fd ≠ 0)
    (hlist : t.connectlist = Function.update s.connectlist k fd) :
    t.slots.card = s.slots.card + 1 := by
  have hnot : k ∉ s.slots := fun h => (Finset.mem_filter.mp h).2 hfree
  have hinsert : t.slots = insert k s.slots := by
    ext i
    simp only [NbServer.slots, hlist, Finset.mem_filter, Finset.mem_insert, Finset.mem_range]
    by_cases hik : i = k
    · subst hik
      rw [Function.update_self]
      exact iff_of_true ⟨hk, hfd⟩ (Or.inl rfl)
    · rw [Function.update_of_ne hik]
      exact (or_iff_right hik).symm
  rw [hinsert, Finset.card_insert_of_notMem hnot]

theorem slots_free {k : ℕ} (hk : k < myMxConns) (hfd : s.connectlist k ≠ 0)
    (hlist : t.connectlist = Function.update s.connectlist k 0) :
    s.slots.card = t.slots.card + 1 := by
  have hself : t.connectlist k = 0 := by rw [hlist, Function.update_self]
  apply slots_fill hk hself hfd
  rw [hlist, Function.update_idem, Function.update_eq_self]

theorem step_entered (hs : s.Inv) (h : step s e = some t) :
    t.entered = s.entered + if e.isAccept then 1 else 0 := by
  cases e with
  | connect =>
    cases h
    rfl
  | arrive fd bytes | ends fd idle =>
    obtain ⟨c, -, rfl⟩ := Option.map_eq_some_iff.mp h
    rfl
  | select =>
    obtain ⟨-, rfl⟩ := step_select h
    rfl
  | checkKeys esc =>
    obtain ⟨-, rfl⟩ := step_checkKeys h
    rfl
  | fails =>
    obtain ⟨-, rfl⟩ := step_fails h
    rfl
  | accept connection =>
    obtain ⟨-, hpos, -, -, rfl⟩ := step_accept h
    rcases handleNewConnection_cases s connection with
      ⟨k, hk, hfree, heq⟩ | ⟨-, heq⟩
    · rw [heq]
      have hcard := slots_fill (t := s.handleNewConnection connection) hk hfree hpos (by rw [heq])
      rw [heq] at hcard
      simp only [NbServer.entered, hcard, Event.isAccept, if_true]
      omega
    · rw [heq]
      simp only [NbServer.entered, NbServer.slots, List.length_append, List.length_singleton,
        Event.isAccept, if_true]
      rfl
  | read outs =>
    obtain ⟨listnum, hpc, h⟩ := step_read h
    obtain ⟨-, -, -, hrefused, hcases⟩ := readSlot_table h
    simp only [NbServer.entered, hrefused, Event.isAccept]
    rcases hcases with ⟨-, hlist, hlost, -⟩ | ⟨-, hlist, hlost, -⟩ | ⟨c, -, hfd, hlist, hlost, -⟩
    · simp only [NbServer.slots, hlist, hlost]
      rfl
    · simp only [NbServer.slots, hlist, hlost]
      rfl
    · have hcard := slots_free (hs.reading listnum hpc) hfd hlist
      simp only [hlost, List.length_append, List.length_singleton]
      simp only [Bool.false_eq_true, if_false]
      omega

theorem start_inv (sock : ℕ) : (NbServer.start sock).Inv := by
  refine ⟨⟨?_, ?_, rfl⟩, le_rfl, nofun, nofun⟩
  · intro i _ j _ hne
    exact absurd rfl hne
  · intro fd
    refine iff_of_false nofun ?_
    rintro ⟨hfd, i, -, rfl⟩
    exact hfd rfl

theorem run_entered {sock : ℕ} {es : List Event} (hr : runs step (.start sock) es = some s) :
    s.Inv ∧ s.entered = es.countP Event.isAccept := by
  induction es using List.reverseRecOn generalizing s with
  | nil =>
    cases hr
    exact ⟨start_inv sock, rfl⟩
  | append_singleton es e ih =>
    obtain ⟨u, hu, h⟩ := runs_concat.mp hr
    obtain ⟨hinv, hcount⟩ := ih hu
    refine ⟨step_inv hinv h, ?_⟩
    rw [step_entered hinv h, hcount, List.countP_append, List.countP_singleton]

/-- The slots that are still to be looked at in a pass. -/
def NbServer.remaining (s : NbServer) : List ℕ :=
  match s.pc with
  | .accept => List.range' 0 myMxConns
  | .read listnum => List.range' listnum (myMxConns - listnum)
  | _ => []

theorem remaining_nextSlot (hpc : t.pc = (s.nextSlot listnum).pc) :
    t.remaining = List.range' (listnum + 1) (myMxConns - (listnum + 1)) := by
  unfold NbServer.remaining
  rw [hpc]
  unfold NbServer.nextSlot
  dsimp only
  by_cases hlt : listnum + 1 < myMxConns
  · rw [if_pos hlt]
  · rw [if_neg hlt, Nat.sub_eq_zero_of_le (Nat.le_of_not_lt hlt)]
    rfl

theorem reads_congr {i : ℕ} (hlist : t.connectlist i = s.connectlist i) (hsocks : t.socks = s.socks) :
    t.reads i = s.reads i := by
  simp only [NbServer.reads, hlist, hsocks]

/-- A slot that is filled in a pass is not read in it, as its descriptor was not open when
`select` looked. -/
theorem accept_reads (hs : s.Inv) (h : step s (.accept connection) = some t) :
    t.pc = .read 0 ∧ ∀ i, t.reads i = s.reads i := by
  obtain ⟨hpc, -, hsock, hnew, rfl⟩ := step_accept h
  have hnot : connection ∉ s.socks := by
    intro hmem
    rcases hs.accepting hpc connection hmem with heq | hopen
    · exact hsock heq
    · rw [hnew] at hopen
      cases hopen
  rcases handleNewConnection_cases s connection with
    ⟨k, -, hfree, heq⟩ | ⟨-, heq⟩
  · rw [heq]
    refine ⟨rfl, ?_⟩
    intro i
    by_cases hik : i = k
    · subst hik
      simp only [NbServer.reads, Function.update_self, hfree, hnot, decide_false, Bool.and_false,
        ne_eq, not_true_eq_false, Bool.false_and]
    · exact reads_congr (Function.update_of_ne hik ..) rfl
  · rw [heq]
    exact ⟨rfl, fun _ => rfl⟩

/-- A step of a pass serves the next slot if it was ready, and leaves the rest as they were. -/
theorem step_serves (hs : s.Inv) (he : e ≠ .select) (h : step s e = some t)
    (hexit : t.pc ≠ .exit) (hdefined : t.pc ≠ .undefined) :
    s.remaining.filter s.reads = s.serves e ++ t.remaining.filter t.reads := by
  cases e with
  | connect =>
    cases h
    rfl
  | arrive fd bytes | ends fd idle =>
    obtain ⟨c, -, rfl⟩ := Option.map_eq_some_iff.mp h
    rfl
  | select => exact absurd rfl he
  | checkKeys esc =>
    obtain ⟨hpc, rfl⟩ := step_checkKeys h
    simp only [NbServer.remaining, NbServer.serves, hpc]
    cases esc <;> rfl
  | fails =>
    obtain ⟨-, rfl⟩ := step_fails h
    exact absurd rfl hexit
  | accept connection =>
    obtain ⟨hpc, hreads⟩ := accept_reads hs h
    have hall : s.reads = t.reads := funext fun i => (hreads i).symm
    have hpc' := (step_accept h).1
    simp only [NbServer.remaining, NbServer.serves, hpc, hpc', hall, List.nil_append]
    rfl
  | read outs =>
    obtain ⟨listnum, hpc, h⟩ := step_read h
    have hn := hs.reading listnum hpc
    have hother : t.remaining = List.range' (listnum + 1) (myMxConns - (listnum + 1)) ∧
        ∀ i, listnum < i → t.reads i = s.reads i := by
      obtain ⟨-, -, hsocks, -, hcases⟩ := readSlot_table h
      rcases hcases with ⟨hpc', hlist, -⟩ | ⟨hpc', -⟩ | ⟨c, hpc', -, hlist, -⟩
      · refine ⟨remaining_nextSlot hpc', ?_⟩
        intro i _
        exact reads_congr (by rw [hlist]) hsocks
      · exact absurd hpc' hdefined
      · refine ⟨remaining_nextSlot hpc', ?_⟩
        intro i hi
        exact reads_congr (by rw [hlist, Function.update_of_ne hi.ne']) hsocks
    obtain ⟨hremaining, hreads⟩ := hother
    have hfirst : s.remaining = listnum :: t.remaining := by
      have hsize : myMxConns - listnum = myMxConns - (listnum + 1) + 1 := by omega
      rw [hremaining]
      simp only [NbServer.remaining, hpc, hsize, List.range'_succ]
    have hrest : t.remaining.filter s.reads = t.remaining.filter t.reads := by
      apply List.filter_congr
      intro i hi
      rw [hremaining] at hi
      exact (hreads i (List.mem_range'_1.mp hi).1).symm
    simp only [hfirst, List.filter_cons, hrest, NbServer.serves, hpc]
    split_ifs <;> rfl

theorem gone_run {pc : Pc} (hpc : pc = .exit ∨ pc = .undefined) {es : List Event} (hs : s.pc = pc)
    (hr : runs step s es = some t) : t.pc = pc := by
  refine runs_invariant (fun s : NbServer => s.pc = pc) ?_ hs hr
  intro u e v hu h
  have hgone : ∀ pc', u.pc = pc' → pc' = .exit ∨ pc' = .undefined := by
    rintro _ rfl
    rw [hu]
    exact hpc
  cases e with
  | connect =>
    cases h
    exact hu
  | arrive fd bytes | ends fd idle =>
    obtain ⟨c, -, rfl⟩ := Option.map_eq_some_iff.mp h
    exact hu
  | select => exact (hgone _ (step_select h).1).elim nofun nofun
  | accept connection => exact (hgone _ (step_accept h).1).elim nofun nofun
  | read outs =>
    obtain ⟨listnum, hread, -⟩ := step_read h
    exact (hgone _ hread).elim nofun nofun
  | checkKeys esc => exact (hgone _ (step_checkKeys h).1).elim nofun nofun
  | fails =>
    rcases (step_fails h).1 with hpc' | hpc'
    · exact (hgone _ hpc').elim nofun nofun
    · exact (hgone _ hpc').elim nofun nofun

theorem pass_serves {es : List Event} (hs : s.Inv) (hr : runs step s es = some t)
    (hes : ∀ e ∈ es, e ≠ .select) (hpc : t.pc = .checkKeys) :
    outputs step NbServer.serves s es = s.remaining.filter s.reads := by
  induction es generalizing s with
  | nil =>
    cases hr
    simp only [outputs, NbServer.remaining, hpc, List.filter_nil]
  | cons e es ih =>
    obtain ⟨u, hu, hr⟩ := runs_cons.mp hr
    have hexit : u.pc ≠ .exit := fun h => by cases hpc.symm.trans (gone_run (Or.inl rfl) h hr)
    have hdefined : u.pc ≠ .undefined :=
      fun h => by cases hpc.symm.trans (gone_run (Or.inr rfl) h hr)
    rw [outputs_cons hu, step_serves hs (hes e (by simp)) hu hexit hdefined,
      ih (step_inv hs hu) hr fun e he => hes e (by simp [he])]

theorem select_pc (s : NbServer) : s.select.pc =
    if s.select.socks = [] then .checkKeys
    else if s.sock ∈ s.select.socks then .accept else .read 0 := rfl

theorem select_remaining (s : NbServer) :
    s.select.remaining.filter s.select.reads = (List.range myMxConns).filter s.select.reads := by
  by_cases hnil : s.select.socks = []
  · have hreads : ∀ i, s.select.reads i = false := by
      intro i
      simp only [NbServer.reads, hnil, List.not_mem_nil, decide_false, Bool.and_false]
    rw [List.filter_eq_nil_iff.mpr fun i _ => by simp [hreads],
      List.filter_eq_nil_iff.mpr fun i _ => by simp [hreads]]
  · have hpc : s.select.pc = .accept ∨ s.select.pc = .read 0 := by
      rw [select_pc, if_neg hnil]
      split_ifs with hsock
      · exact Or.inl rfl
      · exact Or.inr rfl
    have hall : s.select.remaining = List.range' 0 myMxConns := by
      unfold NbServer.remaining
      rcases hpc with hpc | hpc
      · rw [hpc]
      · rw [hpc]
        rfl
    rw [hall, List.range_eq_range']

theorem select_serves {es : List Event} (hs : s.Inv) (hr : runs step s (.select :: es) = some t)
    (hes : ∀ e ∈ es, e ≠ .select) (hpc : t.pc = .checkKeys) :
    outputs step NbServer.serves s (.select :: es) =
      (List.range myMxConns).filter s.select.reads := by
  obtain ⟨u, hu, hr⟩ := runs_cons.mp hr
  obtain ⟨hpc', rfl⟩ := step_select hu
  have hnone : s.serves .select = [] := by
    simp only [NbServer.serves]
  rw [outputs_cons hu, hnone, List.nil_append, pass_serves (select_inv hs) hr hes hpc,
    select_remaining]

end Step

/-- In every run: the occupied slots hold distinct connections that are open, and every open one is
in one slot; the connections accepted are those in a slot, closed or refused, and one is refused,
and closed at once, only when all slots are occupied; `select` is handed the listening socket and
the occupied slots, none of them above `highsock`; and a pass serves once each the slots that were
occupied and ready when `select` looked, and no others. -/
theorem slot_table (sock : ℕ) (es : List Event) (s : NbServer)
    (hr : runs step (.start sock) es = some s) :
    (∀ i < myMxConns, s.connectlist i ≠ 0 → (s.conns (s.connectlist i)).isSome = true ∧
      ∀ j < myMxConns, s.connectlist j = s.connectlist i → j = i) ∧
    (∀ fd, (s.conns fd).isSome = true → ∃! i, i < myMxConns ∧ s.connectlist i = fd) ∧
    es.countP Event.isAccept = s.slots.card + s.lost.length + s.refused.length ∧
    (∀ connection t, step s (.accept connection) = some t → t.refused ≠ s.refused →
      t.refused = s.refused ++ [connection] ∧ ∀ i < myMxConns, s.connectlist i ≠ 0) ∧
    (∀ fd, fd ∈ s.buildSelectList.socks ↔
      fd = s.sock ∨ fd ≠ 0 ∧ ∃ i < myMxConns, s.connectlist i = fd) ∧
    (∀ fd ∈ s.buildSelectList.socks, fd ≤ s.buildSelectList.highsock) ∧
    ∀ es' t, runs step s (.select :: es') = some t → (∀ e ∈ es', e ≠ .select) →
      t.pc = .checkKeys → outputs step NbServer.serves s (.select :: es') =
        (List.range myMxConns).filter fun i =>
          decide (s.connectlist i ≠ 0) && decide (s.connectlist i ∈ s.select.socks) := by
  obtain ⟨hs, hcount⟩ := run_entered hr
  obtain ⟨hsocks, hhigh⟩ := buildSelectList_socks hs
  refine ⟨?_, ?_, hcount.symm, ?_, hsocks, hhigh, ?_⟩
  · intro i hi hne
    exact ⟨(hs.slots.isOpen _).mpr ⟨hne, i, hi, rfl⟩, fun j hj => hs.slots.distinct i hi j hj hne⟩
  · intro fd hopen
    obtain ⟨hfd, i, hi, rfl⟩ := (hs.slots.isOpen fd).mp hopen
    exact ⟨i, ⟨hi, rfl⟩, fun j hj => hs.slots.distinct i hi j hj.1 hfd hj.2⟩
  · intro connection t h hrefused
    obtain ⟨-, -, -, -, rfl⟩ := step_accept h
    rcases handleNewConnection_cases s connection with
      ⟨k, -, -, heq⟩ | ⟨hfull, heq⟩
    · rw [heq] at hrefused
      exact absurd rfl hrefused
    · rw [heq]
      exact ⟨rfl, hfull⟩
  · intro es' t hpass hes hpc
    exact select_serves hs hpass hes hpc

/-- A connection goes into the second slot while the first is closed, and the third client finds
its descriptor free again. -/
def refillRun : List Event :=
  [.connect, .select, .accept 4, .read [], .read [], .read [], .read [], .read [],
    .checkKeys false, .connect, .ends 4 .closed, .select, .accept 5, .read [], .read [], .read [],
    .read [], .read [], .checkKeys false, .connect, .select, .accept 4]

theorem slot_table_sample :
    ∃ s, runs step (.start 3) refillRun = some s ∧
      (s.connectlist 0, s.connectlist 1) = (4, 5) ∧
      refillRun.countP Event.isAccept = s.slots.card + s.lost.length + s.refused.length ∧
      s.lost.length = 1 := by
  have hrun : (runs step (.start 3) refillRun).map
      (fun s => ((s.connectlist 0, s.connectlist 1), s.lost.length)) = some ((4, 5), 1) := by decide
  obtain ⟨s, hs, hview⟩ := Option.map_eq_some_iff.mp hrun
  rw [Prod.mk.injEq] at hview
  exact ⟨s, hs, hview.1, (slot_table 3 refillRun s hs).2.2.1, hview.2⟩

end TcpTests.Nbserver
