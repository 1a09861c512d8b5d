import TcpTests.UnixServer.Server

/-! The descriptor sets of `unix_server`: what `master_set`, `working_set`, `max_sd` and
`desc_ready` are at each place of the select loop, with accepts and closes in any order. -/
namespace TcpTests.UnixServer
open Lib

/-- The listening socket and the open connections are the members of `master_set`, and `max_sd`
is the largest of them. -/
structure Sets (listenSd : ℕ) (listening : Bool) (conns : ℕ → Option Conn)
    (masterSet : Finset ℕ) (maxSd : ℕ) : Prop where
  isListening : listening = true
  listenConn : conns listenSd = none
  listenMem : listenSd ∈ masterSet
  members : ∀ sd, sd ≠ listenSd → (sd ∈ masterSet ↔ (conns sd).isSome)
  greatest : IsGreatest (masterSet : Set ℕ) maxSd

abbrev Server.Sets (s : Server) : Prop :=
  UnixServer.Sets s.listenSd s.listening s.conns s.masterSet s.maxSd

/-- The ready descriptors below `k` have been served, and `desc_ready` counts the others. -/
structure Pass (masterSet workingSet : Finset ℕ) (served : List ℕ) (descReady k : ℕ) : Prop where
  nodup : served.Nodup
  below : ∀ sd, sd ∈ served ↔ sd ∈ workingSet ∧ sd < k
  count : descReady = (workingSet.filter (k ≤ ·)).card
  working : ∀ sd ∈ workingSet, k ≤ sd → sd ∈ masterSet

abbrev Server.Pass (s : Server) (k : ℕ) : Prop :=
  UnixServer.Pass s.masterSet s.workingSet s.served s.descReady k

structure Server.Complete (s : Server) : Prop where
  nodup : s.served.Nodup
  served : ∀ sd, sd ∈ s.served ↔ sd ∈ s.workingSet

/-- What is still open are the members of `master_set` from `k` on. -/
structure Server.Closing (s : Server) (k : ℕ) : Prop where
  le_maxSd : ∀ sd ∈ s.masterSet, sd ≤ s.maxSd
  isOpen : ∀ sd, s.isOpen sd = true ↔ sd ∈ s.masterSet ∧ k ≤ sd

def Server.Inv (s : Server) : Prop :=
  match s.pc with
  | .select => s.Sets
  | .scan => s.Sets ∧ s.Pass s.i
  | .accept => s.Sets ∧ s.Pass (s.i + 1)
  | .recv | .send _ | .close =>
    s.Sets ∧ s.Pass (s.i + 1) ∧ s.i ∈ s.masterSet ∧ s.i ≠ s.listenSd
  | .loopTest => s.Sets ∧ s.Complete
  | .cleanUp => s.Closing s.i
  | .returned => ∀ sd, s.isOpen sd = false
  | .undefined => False

section Lower
variable {masterSet : Finset ℕ} {n m sd : ℕ}

theorem lowerMaxSd_greatest (h : lowerMaxSd masterSet n = some m) :
    m ∈ masterSet ∧ ∀ sd ∈ masterSet, sd ≤ n → sd ≤ m := by
  induction n with
  | zero =>
    unfold lowerMaxSd at h
    split_ifs at h with hmem
    cases h
    exact ⟨hmem, fun _ _ hle => hle⟩
  | succ n ih =>
    unfold lowerMaxSd at h
    split_ifs at h with hmem
    · cases h
      exact ⟨hmem, fun _ _ hle => hle⟩
    · obtain ⟨hm, hle⟩ := ih h
      refine ⟨hm, ?_⟩
      intro sd hsd hsdn
      have hne : sd ≠ n + 1 := fun he => hmem (he ▸ hsd)
      exact hle sd hsd (by omega)

theorem lowerMaxSd_stops (hsd : sd ∈ masterSet) (hle : sd ≤ n) :
    ∃ m, lowerMaxSd masterSet n = some m := by
  induction n with
  | zero =>
    have h0 : 0 ∈ masterSet := Nat.le_zero.mp hle ▸ hsd
    exact ⟨0, by rw [lowerMaxSd, if_pos h0]⟩
  | succ n ih =>
    by_cases hmem : n + 1 ∈ masterSet
    · exact ⟨n + 1, by rw [lowerMaxSd, if_pos hmem]⟩
    · have hne : sd ≠ n + 1 := fun he => hmem (he ▸ hsd)
      obtain ⟨m, hm⟩ := ih (by omega)
      exact ⟨m, by rw [lowerMaxSd, if_neg hmem, hm]⟩

theorem card_filter_of_mem (h : n ∈ masterSet) :
    (masterSet.filter (n ≤ ·)).card = (masterSet.filter (n + 1 ≤ ·)).card + 1 := by
  have hsplit : masterSet.filter (n ≤ ·) = insert n (masterSet.filter (n + 1 ≤ ·)) := by
    ext sd
    simp only [Finset.mem_filter, Finset.mem_insert]
    constructor
    · rintro ⟨hsd, hle⟩
      by_cases he : sd = n
      · exact Or.inl he
      · exact Or.inr ⟨hsd, by omega⟩
    · rintro (rfl | ⟨hsd, hle⟩)
      · exact ⟨h, le_rfl⟩
      · exact ⟨hsd, by omega⟩
  have hnot : n ∉ masterSet.filter (n + 1 ≤ ·) := by
    intro hn
    have hle := (Finset.mem_filter.mp hn).2
    omega
  rw [hsplit, Finset.card_insert_of_notMem hnot]

theorem filter_of_notMem (h : n ∉ masterSet) :
    masterSet.filter (n ≤ ·) = masterSet.filter (n + 1 ≤ ·) := by
  apply Finset.filter_congr
  intro sd hsd
  have hne : sd ≠ n := fun he => h (he ▸ hsd)
  omega

end Lower

section Step
variable {s t : Server} {e : Event} {masterSet workingSet : Finset ℕ} {served : List ℕ}
  {descReady k : ℕ}

theorem Server.Sets.isOpen_iff (hs : s.Sets) (sd : ℕ) : s.isOpen sd = true ↔ sd ∈ s.masterSet := by
  unfold Server.isOpen
  rw [hs.isListening]
  by_cases hsd : sd = s.listenSd
  · rw [hsd]
    simp [hs.listenMem]
  · rw [hs.members sd hsd]
    simp [hsd]

theorem Server.Sets.closing (hs : s.Sets) : s.Closing 0 := by
  constructor
  · exact fun sd hsd => hs.greatest.2 hsd
  · intro sd
    rw [Server.Sets.isOpen_iff hs]
    simp

theorem Server.Sets.start (listenSd serverTimeout : ℕ) (buffer : List Byte) :
    (Server.start listenSd serverTimeout buffer).Sets := by
  constructor
  · rfl
  · rfl
  · exact Finset.mem_singleton_self listenSd
  · intro sd hsd
    have hne : sd ≠ listenSd := hsd
    simp [Server.start, hne]
  · constructor
    · exact Finset.mem_coe.mpr (Finset.mem_singleton_self listenSd)
    · exact fun sd hsd => (Finset.mem_singleton.mp hsd).le

theorem select_inv (hs : s.Sets) {outcome : SelectOutcome} (h : s.select outcome = some t) :
    t.Inv := by
  cases outcome with
  | ready set left =>
    simp only [Server.select] at h
    split_ifs at h with hset
    cases h
    have hpass : UnixServer.Pass s.masterSet set [] set.card 0 := by
      constructor
      · exact List.nodup_nil
      · simp
      · simp
      · exact fun sd hsd _ => hset.2.1 hsd
    exact ⟨hs, hpass⟩
  | failed | timedOut =>
    cases h
    have hclosing := Server.Sets.closing hs
    exact ⟨hclosing.le_maxSd, hclosing.isOpen⟩

/-- Nothing is taken out of `master_set` that is still to be served. -/
theorem Pass.mono (hp : Pass s.masterSet workingSet served descReady k)
    (hmaster : ∀ sd ∈ s.masterSet, k ≤ sd → sd ∈ masterSet) :
    Pass masterSet workingSet served descReady k := by
  refine ⟨hp.nodup, hp.below, hp.count, ?_⟩
  intro sd hsd hle
  exact hmaster sd (hp.working sd hsd hle) hle

theorem Pass.skip (hp : Pass masterSet workingSet served descReady k) (hk : k ∉ workingSet) :
    Pass masterSet workingSet served descReady (k + 1) := by
  constructor
  · exact hp.nodup
  · intro sd
    rw [hp.below]
    constructor
    · rintro ⟨hsd, hlt⟩
      exact ⟨hsd, by omega⟩
    · rintro ⟨hsd, hlt⟩
      have hne : sd ≠ k := fun he => hk (he ▸ hsd)
      exact ⟨hsd, by omega⟩
  · rw [hp.count, filter_of_notMem hk]
  · exact fun sd hsd hle => hp.working sd hsd (by omega)

theorem Pass.serve (hp : Pass masterSet workingSet served descReady k) (hk : k ∈ workingSet) :
    Pass masterSet workingSet (served ++ [k]) (descReady - 1) (k + 1) := by
  constructor
  · have hnot : k ∉ served := by
      intro hmem
      have hlt := ((hp.below k).mp hmem).2
      omega
    exact List.nodup_append_comm.mp (List.nodup_cons.mpr ⟨hnot, hp.nodup⟩)
  · intro sd
    rw [List.mem_append, hp.below, List.mem_singleton]
    constructor
    · rintro (⟨hsd, hlt⟩ | rfl)
      · exact ⟨hsd, by omega⟩
      · exact ⟨hk, by omega⟩
    · rintro ⟨hsd, hlt⟩
      by_cases he : sd = k
      · exact Or.inr he
      · exact Or.inl ⟨hsd, by omega⟩
  · have hcount := card_filter_of_mem hk
    have hready := hp.count
    omega
  · exact fun sd hsd hle => hp.working sd hsd (by omega)

/-- The scan ends when the descriptors or the ready ones run out. -/
theorem Server.Pass.complete (hs : s.Sets) (hp : s.Pass k)
    (hend : ¬ (k ≤ s.maxSd ∧ s.descReady > 0)) : s.Complete := by
  have hbelow : ∀ sd ∈ s.workingSet, sd < k := by
    intro sd hsd
    by_contra hle
    have hmaster := hp.working sd hsd (by omega)
    have hmax : sd ≤ s.maxSd := hs.greatest.2 hmaster
    have hcount : 0 < (s.workingSet.filter (k ≤ ·)).card :=
      Finset.card_pos.mpr ⟨sd, Finset.mem_filter.mpr ⟨hsd, by omega⟩⟩
    rw [← hp.count] at hcount
    exact hend ⟨by omega, hcount⟩
  refine ⟨hp.nodup, ?_⟩
  intro sd
  rw [hp.below]
  exact ⟨fun h => h.1, fun h => ⟨h, hbelow sd h⟩⟩

theorem inv_scan (hpc : s.pc = .scan) (hs : s.Sets) (hp : s.Pass s.i) : s.Inv := by
  unfold Server.Inv
  rw [hpc]
  exact ⟨hs, hp⟩

theorem inv_accept (hpc : s.pc = .accept) (hs : s.Sets) (hp : s.Pass (s.i + 1)) : s.Inv := by
  unfold Server.Inv
  rw [hpc]
  exact ⟨hs, hp⟩

theorem inv_cleanUp (hpc : s.pc = .cleanUp) (hs : s.Closing s.i) : s.Inv := by
  unfold Server.Inv
  rw [hpc]
  exact hs

theorem scan_inv (hpc : s.pc = .scan) (hs : s.Sets) (hp : s.Pass s.i) : s.scan.Inv := by
  unfold Server.scan
  dsimp only
  split_ifs with hmore hready hlisten
  · have hserved := hp.serve hready
    exact ⟨hs, hserved⟩
  · have hserved := hp.serve hready
    have hmaster := hp.working s.i hready le_rfl
    exact ⟨hs, hserved, hmaster, hlisten⟩
  · have hskipped := hp.skip hready
    exact inv_scan hpc hs hskipped
  · have hcomplete := Server.Pass.complete hs hp hmore
    exact ⟨hs, hcomplete.nodup, hcomplete.served⟩

theorem next_inv (hs : s.Sets) (hp : s.Pass (s.i + 1)) : s.next.Inv := ⟨hs, hp⟩

theorem Server.Sets.accepted (hs : s.Sets) {newSd : ℕ} (hnew : s.isOpen newSd = false) :
    UnixServer.Sets s.listenSd s.listening (Function.update s.conns newSd (some .fresh))
      (insert newSd s.masterSet) (if newSd > s.maxSd then newSd else s.maxSd) := by
  have hnot : newSd ∉ s.masterSet := by
    rw [← Server.Sets.isOpen_iff hs, hnew]
    nofun
  have hne : s.listenSd ≠ newSd := fun he => hnot (he ▸ hs.listenMem)
  constructor
  · exact hs.isListening
  · rw [Function.update_of_ne hne]
    exact hs.listenConn
  · exact Finset.mem_insert_of_mem hs.listenMem
  · intro sd hsd
    rw [Finset.mem_insert]
    by_cases he : sd = newSd
    · rw [he, Function.update_self]
      simp
    · rw [Function.update_of_ne he, ← hs.members sd hsd]
      simp [he]
  · constructor
    · split_ifs with hgt
      · exact Finset.mem_coe.mpr (Finset.mem_insert_self _ _)
      · exact Finset.mem_coe.mpr (Finset.mem_insert_of_mem hs.greatest.1)
    · intro sd hsd
      rcases Finset.mem_insert.mp hsd with rfl | hsd
      · split_ifs <;> omega
      · have hle : sd ≤ s.maxSd := hs.greatest.2 hsd
        split_ifs <;> omega

theorem accept_inv (hpc : s.pc = .accept) (hs : s.Sets) (hp : s.Pass (s.i + 1))
    {outcome : AcceptOutcome} (h : s.accept outcome = some t) : t.Inv := by
  rcases accept_cases h with ⟨newSd, -, hnew, -, rfl⟩ | ⟨endServer, rfl⟩
  · have haccepted := Server.Sets.accepted hs hnew
    have hpass := hp.mono fun sd hsd _ => Finset.mem_insert_of_mem (b := newSd) hsd
    exact inv_accept hpc haccepted hpass
  · exact ⟨hs, hp⟩

theorem Server.Sets.update (hs : s.Sets) {sd : ℕ} {c : Conn} (hc : s.conns sd = some c)
    (c' : Conn) :
    UnixServer.Sets s.listenSd s.listening (Function.update s.conns sd (some c')) s.masterSet
      s.maxSd := by
  have hne : s.listenSd ≠ sd := by
    rintro rfl
    exact absurd (hs.listenConn.symm.trans hc) nofun
  constructor
  · exact hs.isListening
  · rw [Function.update_of_ne hne]
    exact hs.listenConn
  · exact hs.listenMem
  · intro sd' hsd'
    have hopen : (s.conns sd).isSome = true := by
      rw [hc]
      rfl
    rw [hs.members sd' hsd', isSome_update_some hopen]
  · exact hs.greatest

theorem recv_inv (hs : s.Sets) (hp : s.Pass (s.i + 1)) (hi : s.i ∈ s.masterSet)
    (hlisten : s.i ≠ s.listenSd) {outcome : RecvOutcome} (h : s.recv outcome = some t) :
    t.Inv := by
  rcases recv_cases h with ⟨bytes, c, -, -, -, hc, rfl⟩ | ⟨closeConn, rfl⟩
  · have hreceived := Server.Sets.update hs hc { c with received := c.received ++ bytes }
    exact ⟨hreceived, hp, hi, hlisten⟩
  · exact ⟨hs, hp, hi, hlisten⟩

theorem send_inv (hs : s.Sets) (hp : s.Pass (s.i + 1)) (hi : s.i ∈ s.masterSet)
    (hlisten : s.i ≠ s.listenSd) {len : ℕ} {outcome : SendOutcome}
    (h : s.send len outcome = some t) : t.Inv := by
  rcases send_cases h with ⟨n, c, -, -, -, hc, rfl⟩ | ⟨-, rfl⟩
  · have hsent := Server.Sets.update hs hc
      { c with sent := c.sent ++ (s.buffer.take len).take n }
    exact ⟨hsent, hp, hi, hlisten⟩
  · exact ⟨hs, hp, hi, hlisten⟩

theorem sclose_isOpen (s : Server) (sd sd' : ℕ) :
    (s.sclose sd).isOpen sd' = true ↔ s.isOpen sd' = true ∧ sd' ≠ sd := by
  unfold Server.isOpen Server.sclose
  dsimp only
  by_cases hsd : sd' = sd
  · rw [hsd, Function.update_self]
    cases s.listening <;> by_cases hl : sd = s.listenSd <;> simp [hl]
  · rw [Function.update_of_ne hsd]
    cases s.listening <;> by_cases hl : sd = s.listenSd <;> simp_all

/-- The set without a descriptor that was closed, once `max_sd` is right again. -/
theorem Server.Sets.closed (hs : s.Sets) {sd m : ℕ} (hsd : sd ≠ s.listenSd)
    (hm : IsGreatest (s.masterSet.erase sd : Set ℕ) m) :
    UnixServer.Sets s.listenSd (s.listening && sd != s.listenSd)
      (Function.update s.conns sd none) (s.masterSet.erase sd) m := by
  constructor
  · rw [hs.isListening, Bool.true_and, bne_iff_ne]
    exact hsd
  · rw [Function.update_of_ne hsd.symm]
    exact hs.listenConn
  · exact Finset.mem_erase.mpr ⟨hsd.symm, hs.listenMem⟩
  · intro sd' hsd'
    rw [Finset.mem_erase]
    by_cases he : sd' = sd
    · rw [he, Function.update_self]
      simp
    · rw [Function.update_of_ne he, ← hs.members sd' hsd']
      simp [he]
  · exact hm

theorem Server.Sets.lowers (hs : s.Sets) {sd : ℕ} (hsd : sd ≠ s.listenSd) :
    ∃ m, lowerMaxSd (s.masterSet.erase sd) s.maxSd = some m ∧
      IsGreatest (s.masterSet.erase sd : Set ℕ) m := by
  have hlisten : s.listenSd ∈ s.masterSet.erase sd := Finset.mem_erase.mpr ⟨hsd.symm, hs.listenMem⟩
  obtain ⟨m, hm⟩ := lowerMaxSd_stops hlisten (hs.greatest.2 hs.listenMem)
  obtain ⟨hmem, hle⟩ := lowerMaxSd_greatest hm
  refine ⟨m, hm, hmem, ?_⟩
  intro sd' hsd'
  exact hle sd' hsd' (hs.greatest.2 (Finset.mem_of_mem_erase hsd'))

theorem close_inv (hs : s.Sets) (hp : s.Pass (s.i + 1)) (hlisten : s.i ≠ s.listenSd) :
    s.close.Inv := by
  have hpass : UnixServer.Pass (s.masterSet.erase s.i) s.workingSet s.served s.descReady
      (s.i + 1) := by
    apply hp.mono
    intro sd hsd hle
    exact Finset.mem_erase.mpr ⟨by omega, hsd⟩
  unfold Server.close
  dsimp only
  split_ifs with hclose hmax
  · obtain ⟨m, hm, hgreatest⟩ := Server.Sets.lowers hs hlisten
    have hm' : lowerMaxSd (s.masterSet.erase s.i) (s.sclose s.i).maxSd = some m := hm
    have hclosed := Server.Sets.closed hs hlisten hgreatest
    rw [hm']
    exact next_inv hclosed hpass
  · have hgreatest : IsGreatest (s.masterSet.erase s.i : Set ℕ) s.maxSd := by
      constructor
      · exact Finset.mem_erase.mpr ⟨fun he => hmax he.symm, hs.greatest.1⟩
      · exact fun sd hsd => hs.greatest.2 (Finset.mem_of_mem_erase hsd)
    have hclosed := Server.Sets.closed hs hlisten hgreatest
    exact next_inv hclosed hpass
  · exact next_inv hs hp

theorem loopTest_inv (hs : s.Sets) : s.loopTest.Inv := by
  unfold Server.loopTest
  split_ifs
  · exact hs
  · have hclosing := Server.Sets.closing hs
    exact ⟨hclosing.le_maxSd, hclosing.isOpen⟩

theorem Server.Closing.turn (hs : s.Closing s.i) (hle : s.i ≤ s.maxSd) :
    s.cleanUp.pc = s.pc ∧ s.cleanUp.i = s.i + 1 ∧ s.cleanUp.maxSd = s.maxSd ∧
      s.cleanUp.Closing (s.i + 1) ∧
      s.cleanUp.sclosed = s.sclosed ++ if s.isOpen s.i then [s.i] else [] := by
  unfold Server.cleanUp
  rw [if_pos hle]
  split_ifs with hmem hopen hopen
  · refine ⟨rfl, rfl, rfl, ⟨hs.le_maxSd, ?_⟩, rfl⟩
    intro sd
    refine (sclose_isOpen s s.i sd).trans ?_
    rw [hs.isOpen]
    change (sd ∈ s.masterSet ∧ s.i ≤ sd) ∧ sd ≠ s.i ↔ sd ∈ s.masterSet ∧ s.i + 1 ≤ sd
    constructor
    · rintro ⟨⟨hsd, hlt⟩, hne⟩
      exact ⟨hsd, by omega⟩
    · rintro ⟨hsd, hlt⟩
      exact ⟨⟨hsd, by omega⟩, by omega⟩
  · exact absurd ((hs.isOpen _).mpr ⟨hmem, le_rfl⟩) hopen
  · exact absurd ((hs.isOpen _).mp hopen).1 hmem
  · refine ⟨rfl, rfl, rfl, ⟨hs.le_maxSd, ?_⟩, (List.append_nil _).symm⟩
    intro sd
    refine (hs.isOpen sd).trans ?_
    change sd ∈ s.masterSet ∧ s.i ≤ sd ↔ sd ∈ s.masterSet ∧ s.i + 1 ≤ sd
    constructor
    · rintro ⟨hsd, hlt⟩
      have hne : sd ≠ s.i := fun he => hmem (he ▸ hsd)
      exact ⟨hsd, by omega⟩
    · rintro ⟨hsd, hlt⟩
      exact ⟨hsd, by omega⟩

theorem Server.Closing.turn_isOpen (hs : s.Closing s.i) (hle : s.i ≤ s.maxSd) :
    s.cleanUp.isOpen s.i = false ∧ ∀ sd, s.isOpen sd = true ↔
      (sd = s.i ∧ s.isOpen s.i = true) ∨ s.cleanUp.isOpen sd = true := by
  obtain ⟨-, -, -, hclosing, -⟩ := hs.turn hle
  have hmaster : s.cleanUp.masterSet = s.masterSet := by
    unfold Server.cleanUp
    split_ifs <;> rfl
  constructor
  · rw [Bool.eq_false_iff]
    intro hopen
    have hlt := ((hclosing.isOpen _).mp hopen).2
    omega
  · intro sd
    rw [hs.isOpen, hs.isOpen, hclosing.isOpen, hmaster]
    constructor
    · rintro ⟨hsd, hisd⟩
      by_cases he : sd = s.i
      · exact Or.inl ⟨he, he ▸ hsd, le_rfl⟩
      · exact Or.inr ⟨hsd, by omega⟩
    · rintro (⟨rfl, hi⟩ | ⟨hsd, hisd⟩)
      · exact hi
      · exact ⟨hsd, by omega⟩

theorem Server.Closing.none_open (hs : s.Closing k) (hk : ¬ k ≤ s.maxSd) (sd : ℕ) :
    s.isOpen sd = false := by
  rw [Bool.eq_false_iff]
  intro hopen
  obtain ⟨hsd, hle⟩ := (hs.isOpen sd).mp hopen
  have hmax := hs.le_maxSd sd hsd
  omega

theorem cleanUp_inv (hpc : s.pc = .cleanUp) (hs : s.Closing s.i) : s.cleanUp.Inv := by
  by_cases hle : s.i ≤ s.maxSd
  · obtain ⟨hpc', hi, -, hclosing, -⟩ := hs.turn hle
    refine inv_cleanUp (hpc'.trans hpc) ?_
    rw [hi]
    exact hclosing
  · unfold Server.cleanUp
    rw [if_neg hle]
    exact hs.none_open hle

theorem step_inv (hs : s.Inv) (h : step s e = some t) : t.Inv := by
  unfold Server.Inv at hs
  unfold step at h
  split at h
  · rename_i hpc
    rw [hpc] at hs
    exact select_inv hs h
  · rename_i hpc
    rw [hpc] at hs
    cases h
    exact scan_inv hpc hs.1 hs.2
  · rename_i hpc
    rw [hpc] at hs
    exact accept_inv hpc hs.1 hs.2 h
  · rename_i hpc
    rw [hpc] at hs
    exact recv_inv hs.1 hs.2.1 hs.2.2.1 hs.2.2.2 h
  · rename_i hpc
    rw [hpc] at hs
    exact send_inv hs.1 hs.2.1 hs.2.2.1 hs.2.2.2 h
  · rename_i hpc
    rw [hpc] at hs
    cases h
    exact close_inv hs.1 hs.2.1 hs.2.2.2
  · rename_i hpc
    rw [hpc] at hs
    cases h
    exact loopTest_inv hs.1
  · rename_i hpc
    rw [hpc] at hs
    cases h
    exact cleanUp_inv hpc hs
  · cases h

theorem step_workingSet (he : ∀ outcome, e ≠ .select outcome) (h : step s e = some t) :
    t.workingSet = s.workingSet := by
  unfold step at h
  split at h
  · exact absurd rfl (he _)
  · cases h
    unfold Server.scan
    dsimp only
    split_ifs <;> rfl
  · rcases accept_cases h with ⟨_, -, -, -, rfl⟩ | ⟨_, rfl⟩ <;> rfl
  · rcases recv_cases h with ⟨_, _, -, -, -, -, rfl⟩ | ⟨_, rfl⟩ <;> rfl
  · rcases send_cases h with ⟨_, _, -, -, -, -, rfl⟩ | ⟨-, rfl⟩ <;> rfl
  · cases h
    unfold Server.close
    dsimp only
    split_ifs
    · split <;> rfl
    · rfl
    · rfl
  · cases h
    unfold Server.loopTest
    split_ifs <;> rfl
  · cases h
    unfold Server.cleanUp
    split_ifs <;> rfl
  · cases h

theorem step_select {set : Finset ℕ} {left : Timeval}
    (h : step s (.select (.ready set left)) = some t) : t.workingSet = set := by
  cases hpc : s.pc with
  | select =>
    simp only [step, hpc, Server.select] at h
    split_ifs at h
    cases h
    rfl
  | _ =>
    simp only [step, hpc] at h
    cases h

end Step

section Run
variable {s t : Server} {es : List Event}

theorem start_inv (listenSd serverTimeout : ℕ) (buffer : List Byte) :
    (Server.start listenSd serverTimeout buffer).Inv :=
  Server.Sets.start listenSd serverTimeout buffer

theorem runs_inv (hs : s.Inv) (hr : runs step s es = some t) : t.Inv :=
  runs_invariant Server.Inv (fun _ _ _ => step_inv) hs hr

/-- At the end of a pass each descriptor that `select` reported has been served once. -/
theorem pass_served (hs : s.Inv) {set : Finset ℕ} {left : Timeval}
    (hr : runs step s (.select (.ready set left) :: es) = some t)
    (hes : ∀ e ∈ es, ∀ outcome, e ≠ .select outcome) (hpc : t.pc = .loopTest) :
    t.served.Nodup ∧ ∀ sd, sd ∈ t.served ↔ sd ∈ set := by
  obtain ⟨u, hu, hrest⟩ := runs_cons.mp hr
  have hinv := runs_inv hs hr
  have hworking : t.workingSet = set :=
    runs_invariant_of (fun e => ∀ outcome, e ≠ .select outcome) (fun s => s.workingSet = set)
      (fun _ _ _ hw he h => (step_workingSet he h).trans hw) (step_select hu) hes hrest
  unfold Server.Inv at hinv
  rw [hpc] at hinv
  rw [← hworking]
  exact ⟨hinv.2.nodup, hinv.2.served⟩

theorem step_cleanUp (hpc : s.pc = .cleanUp) : step s .tick = some s.cleanUp := by
  simp only [step, hpc]

theorem cleanUp_runs (hpc : s.pc = .cleanUp) (hs : s.Closing s.i) :
    ∃ n t l, runs step s (List.replicate n .tick) = some t ∧ t.pc = .returned ∧
      t.sclosed = s.sclosed ++ l ∧ l.Nodup ∧ ∀ sd, sd ∈ l ↔ s.isOpen sd = true := by
  induction hd : s.maxSd + 1 - s.i generalizing s with
  | zero =>
    have hgt : ¬ s.i ≤ s.maxSd := by omega
    refine ⟨1, { s with pc := .returned }, [], ?_, rfl, (List.append_nil _).symm, List.nodup_nil,
      ?_⟩
    · have hturn : s.cleanUp = { s with pc := .returned } := by rw [Server.cleanUp, if_neg hgt]
      exact runs_cons.mpr ⟨_, step_cleanUp hpc, by rw [hturn]; rfl⟩
    · intro sd
      rw [hs.none_open hgt sd]
      simp
  | succ d ih =>
    have hle : s.i ≤ s.maxSd := by omega
    obtain ⟨hpc', hi, hmax, hclosing, hsclosed⟩ := hs.turn hle
    obtain ⟨hclosed, hopen⟩ := hs.turn_isOpen hle
    rw [← hi] at hclosing
    obtain ⟨n, t, l, hr, hret, hl, hnodup, hmem⟩ :=
      ih (hpc'.trans hpc) hclosing (by rw [hmax, hi]; omega)
    have hnot : s.i ∉ l := by
      rw [hmem, hclosed]
      nofun
    refine ⟨n + 1, t, (if s.isOpen s.i then [s.i] else []) ++ l,
      runs_cons.mpr ⟨_, step_cleanUp hpc, hr⟩, hret, ?_, ?_, ?_⟩
    · rw [hl, hsclosed, List.append_assoc]
    · split_ifs
      · exact List.nodup_cons.mpr ⟨hnot, hnodup⟩
      · exact hnodup
    · intro sd
      rw [hopen sd, ← hmem, List.mem_append]
      split_ifs with hi' <;> simp [hi']

end Run

/-- In every run: between two iterations of the select loop the listening socket is in
`master_set`, its other members are the connections that are open, and `max_sd` is its largest
member; the loop that lowers `max_sd` stops; a pass serves each descriptor that `select` reported
once; and the clean-up ends and closes each descriptor that is open once. -/
theorem descriptors (listenSd serverTimeout : ℕ) (buffer : List Byte) (es : List Event)
    (s : Server) (hr : runs step (.start listenSd serverTimeout buffer) es = some s) :
    (s.pc = .select →
      s.listenSd ∈ s.masterSet ∧
      (∀ sd, sd ≠ s.listenSd → (sd ∈ s.masterSet ↔ (s.conns sd).isSome)) ∧
      IsGreatest (s.masterSet : Set ℕ) s.maxSd) ∧
    (s.pc = .close → s.closeConn = true →
      ∃ maxSd, lowerMaxSd (s.masterSet.erase s.i) s.maxSd = some maxSd) ∧
    (∀ set left es' t, runs step s (.select (.ready set left) :: es') = some t →
      (∀ e ∈ es', ∀ outcome, e ≠ .select outcome) → t.pc = .loopTest →
      t.served.Nodup ∧ ∀ sd, sd ∈ t.served ↔ sd ∈ set) ∧
    (s.pc = .cleanUp → s.i = 0 →
      ∃ n t l, runs step s (List.replicate n .tick) = some t ∧ t.pc = .returned ∧
        t.sclosed = s.sclosed ++ l ∧ l.Nodup ∧ ∀ sd, sd ∈ l ↔ s.isOpen sd = true) := by
  have hs : s.Inv := runs_inv (start_inv listenSd serverTimeout buffer) hr
  refine ⟨?_, ?_, ?_, ?_⟩
  · intro hpc
    unfold Server.Inv at hs
    rw [hpc] at hs
    exact ⟨hs.listenMem, hs.members, hs.greatest⟩
  · intro hpc _
    unfold Server.Inv at hs
    rw [hpc] at hs
    obtain ⟨m, hm, -⟩ := Server.Sets.lowers hs.1 hs.2.2.2
    exact ⟨m, hm⟩
  · intro set left es' t hpass hes hpc
    exact pass_served hs hpass hes hpc
  · intro hpc _
    unfold Server.Inv at hs
    rw [hpc] at hs
    exact cleanUp_runs hpc hs

/-- Two clients connect, and the one with the largest descriptor closes. -/
def closeRun : List Event :=
  [.select (.ready {3} ⟨600, 0⟩), .tick, .tick, .tick, .tick, .accept (.accepted 4),
    .accept (.accepted 5), .accept .wouldBlock, .tick, .tick,
    .select (.ready {4, 5} ⟨599, 0⟩), .tick, .tick, .tick, .tick, .tick, .recv .wouldBlock, .tick,
    .tick, .recv .closed, .tick, .tick, .tick]

theorem descriptors_sample :
    ∃ s, runs step (.start 3 10 (List.replicate bufferSize 0)) closeRun = some s ∧
      s.masterSet = {3, 4} ∧ IsGreatest (s.masterSet : Set ℕ) s.maxSd := by
  have hrun : (runs step (.start 3 10 (List.replicate bufferSize 0)) closeRun).map
      (fun s => (s.pc, s.masterSet)) = some (.select, {3, 4}) := by decide
  obtain ⟨s, hs, hview⟩ := Option.map_eq_some_iff.mp hrun
  rw [Prod.mk.injEq] at hview
  exact ⟨s, hs, hview.2, ((descriptors 3 10 _ _ s hs).1 hview.1).2.2⟩

end TcpTests.UnixServer
