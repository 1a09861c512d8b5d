import TcpTests.SimpServer.Receive

/-! The registry of `simp_server` over whole runs. It is kept as long as the descriptors fit an
`fd_set`, which nothing in the program sees to. -/
namespace TcpTests.SimpServer
open Lib

/-- The listening socket and the open connections are in the range of an `fd_set`. -/
structure Server.Low (s : Server) : Prop where
  range : 0 ≤ s.sockfd ∧ s.sockfd < fdSetsize
  low : ∀ c ∈ s.sockets.conns, c.sd < fdSetsize

section
variable {s t : Server} {e : Event} {es : List Event}

theorem Server.Low.inRange (hlow : s.Low) (hs : s.Inv) : s.InRange := by
  intro sd hsd
  rcases List.mem_cons.mp hsd with rfl | hsd
  · exact hlow.range
  · obtain ⟨pic, hpic, rfl⟩ := List.mem_map.mp hsd
    obtain ⟨c, hc, he⟩ := List.mem_map.mp (hs.registry.used (List.mem_of_mem_filter hpic)).2
    rw [← he]
    exact ⟨(hs.registry.bounds c hc).1.le, hlow.low c hc⟩

theorem Server.Low.step (hlow : s.Low) (h : step s e = some t)
    (hnew : ∀ newsockfd, e.newsockfd s.sockfd = some newsockfd → newsockfd < fdSetsize) :
    t.Low := by
  constructor
  · rw [(step_same h).1]
    exact hlow.range
  · apply step_conns ?_ hlow.low hnew h
    intro key outcome _ c io hc
    rw [(@Conn.handleReceive_fields _ io c).1]
    exact hc

theorem select_accepted (hs : s.Inv) {outcome : SelectOutcome} {key : Key}
    (h : s.select outcome = some t) : t.sockets.accepted ≤ s.sockets.accepted +
      ((Event.iterate key outcome).newsockfd s.sockfd).toList.length := by
  unfold Server.select at h
  split at h
  · cases outcome with
    | failed | timedOut =>
      cases h
      exact le_rfl
    | ready set accept ios =>
      simp only [Server.selectFrom] at h
      split_ifs at h with hset hlisten
      · cases accept with
        | failed =>
          cases h
          exact le_rfl
        | accepted newsockfd =>
          simp only [Server.accept] at h
          split_ifs at h
          cases h
          rw [(addClient_same _ newsockfd).2.2, Event.newsockfd, if_pos hlisten]
          exact le_rfl
      · cases h
        obtain ⟨pics, k, hr, -, haccepted, -⟩ :=
          processClients_registry hs.registry hs.errors s.doEcho set ios
        rw [hr]
        exact haccepted.le.trans (Nat.le_add_right _ _)
  · cases h
    exact Nat.le_add_right _ _

theorem step_accepted (hs : s.Inv) (h : step s e = some t) :
    t.sockets.accepted ≤ s.sockets.accepted + (e.newsockfd s.sockfd).toList.length := by
  unfold step at h
  split at h
  · rename_i key outcome hpc
    obtain ⟨hkey, -⟩ := checkKey_inv hs hpc key
    obtain ⟨hsockfd, hsockets⟩ := checkKey_same s key
    unfold Server.iterate at h
    rw [← hsockfd, ← hsockets]
    generalize s.checkKey key = checked at h hkey ⊢
    obtain ⟨u, exits⟩ := checked
    cases exits with
    | true =>
      cases h
      exact Nat.le_add_right _ _
    | false =>
      dsimp only at h
      split_ifs at h
      · cases h
        exact Nat.le_add_right _ _
      · exact select_accepted hkey h
  · cases h
    exact (clearClientList_registry hs.registry hs.errors).2.le
  · cases h

/-- Descriptors that are in range, of connections that can be counted, keep every step in range. -/
theorem Server.Low.fits (hlow : s.Low) (hs : s.Inv)
    (hcount : s.sockets.accepted + (e.newsockfd s.sockfd).toList.length < 2 ^ 31) : Fits s e := by
  cases e with
  | clear => trivial
  | iterate key outcome =>
    have htotal := hs.total
    have hrange := hlow.inRange hs
    have hstill : (s.checkKey key).1.InRange ∧ (s.checkKey key).1.sockfd = s.sockfd ∧
        (s.checkKey key).1.totalClients = s.totalClients := by
      cases key <;> exact ⟨hrange, rfl, rfl⟩
    refine Or.inr (Or.inr ⟨hstill.1, ?_⟩)
    rw [hstill.2.1, hstill.2.2]
    intro hsome
    obtain ⟨newsockfd, hnew⟩ := Option.isSome_iff_exists.mp hsome
    rw [hnew, Option.toList_some, List.length_singleton] at hcount
    omega

theorem allSteps_fits (hs : s.Inv) (hlow : s.Low)
    (hnew : ∀ newsockfd ∈ es.filterMap (Event.newsockfd s.sockfd), newsockfd < fdSetsize)
    (hcount : s.sockets.accepted + (es.filterMap (Event.newsockfd s.sockfd)).length < 2 ^ 31) :
    AllSteps step Fits s es := by
  induction es generalizing s with
  | nil => trivial
  | cons e es ih =>
    rw [filterMap_cons_toList, List.length_append] at hcount
    rw [filterMap_cons_toList] at hnew
    have hfits : Fits s e := hlow.fits hs (by omega)
    refine ⟨hfits, ?_⟩
    intro t ht
    have haccepted := step_accepted hs ht
    have hsockfd := (step_same ht).1
    apply ih (step_good hs ht hfits)
    · apply hlow.step ht
      intro newsockfd heq
      apply hnew newsockfd (List.mem_append_left _ _)
      rw [heq]
      exact List.mem_singleton_self _
    · rw [hsockfd]
      exact fun newsockfd hmem => hnew newsockfd (List.mem_append_right _ hmem)
    · rw [hsockfd]
      omega

/-- An iteration in which the listening socket is ready and a connection is accepted. -/
theorem step_accepts (hs : s.Inv) (hpc : s.pc = .loop) (hpaused : s.isPaused = false)
    (hrange : s.InRange) (hhighest : s.sockfd ≤ s.highest) {newsockfd : ℤ}
    (hnew : 0 < newsockfd ∧ newsockfd ≠ s.sockfd ∧ newsockfd ∉ s.sockets.conns.map Conn.sd)
    {totalClients : Int32} (hinc : increment s.totalClients = some totalClients) (ios : ℕ → Io) :
    step s (.iterate .none (.ready {s.sockfd} (.accepted newsockfd) ios)) = some { s with
      highest := if newsockfd > s.highest then newsockfd else s.highest
      vInClients := s.vInClients ++ [⟨newsockfd, 0⟩]
      totalClients := totalClients
      sockets := { s.sockets with
        conns := s.sockets.conns ++ [.fresh newsockfd s.sockets.accepted]
        accepted := s.sockets.accepted + 1 } } := by
  have hset : setupFdSet s.sockfd s.vInClients = some (s.sockfd ::
      (s.vInClients.filter fun pic => ¬ pic.unused).map InClient.sock).toFinset := if_pos hrange
  have hready : ({s.sockfd} : Finset ℤ) ≠ ∅ ∧ {s.sockfd} ⊆ (s.sockfd ::
      (s.vInClients.filter fun pic => ¬ pic.unused).map InClient.sock).toFinset ∧
        ∀ sd ∈ ({s.sockfd} : Finset ℤ), sd < s.highest + 1 := by
    refine ⟨Finset.singleton_ne_empty _, ?_, ?_⟩
    · rw [Finset.singleton_subset_iff, List.mem_toFinset]
      exact List.mem_cons_self
    · intro sd hsd
      rw [Finset.mem_singleton.mp hsd]
      exact Int.lt_add_one_of_le hhighest
  unfold step
  rw [hpc]
  simp only [Server.iterate, Server.checkKey, hpaused, Server.select, hset, Server.selectFrom]
  rw [if_neg Bool.false_ne_true, if_pos hready, if_pos (Finset.mem_singleton_self _),
    Server.accept, if_pos hnew]
  unfold Server.addClient
  dsimp only
  rw [linked_socks hs.registry.linked, if_neg hnew.2.2, hinc]
  dsimp only
  rw [hpc, hpaused]

end

/-- The registry is kept in every state of a run, and nothing undefined happens, if and only if in
each iteration the descriptors fit the `fd_set` and the connections can be counted. They do if the
listening socket and all that `accept` gives are below `FD_SETSIZE`, and that is less than `2 ^ 31`
times. -/
theorem client_registry_iff (sockfd : ℤ) (doEcho : Bool) (es : List Event) (s : Server)
    (hr : runs step (.start sockfd doEcho) es = some s) :
    (AllStates step Server.Registered (.start sockfd doEcho) es ↔
      AllSteps step Fits (.start sockfd doEcho) es) ∧
    (0 ≤ sockfd ∧ sockfd < fdSetsize →
      (∀ newsockfd ∈ es.filterMap (Event.newsockfd sockfd), newsockfd < fdSetsize) →
      (es.filterMap (Event.newsockfd sockfd)).length < 2 ^ 31 →
      AllStates step Server.Registered (.start sockfd doEcho) es) := by
  have hs := Server.Inv.start sockfd doEcho
  have hiff : AllStates step Server.Registered (.start sockfd doEcho) es ↔
      AllSteps step Fits (.start sockfd doEcho) es :=
    allStates_iff_allSteps (Q := fun _ _ => True) (fun _ hs => hs.registered)
      (fun _ _ _ hs _ h hg => step_good hs h hg) (fun _ _ _ hs _ h hg => step_bad hs h hg) hs
      (allSteps_of_inputs fun _ _ => trivial) hr
  refine ⟨hiff, ?_⟩
  intro hrange hnew hcount
  apply hiff.mpr
  apply allSteps_fits hs ⟨hrange, nofun⟩ hnew
  rw [show (Server.start sockfd doEcho).sockets.accepted = 0 from rfl, zero_add]
  exact hcount

/-- A connection whose reads fail four times, and another on the same descriptor that is open
until the end. -/
def reuseRun : List Event :=
  let failing : Event :=
    .iterate .none (.ready {4} .failed fun _ => ⟨.failed, [], .failed⟩)
  [.iterate .none (.ready {3} (.accepted 4) fun _ => ⟨.failed, [], .failed⟩), failing, failing,
    failing, failing,
    .iterate .none (.ready {3} (.accepted 4) fun _ => ⟨.failed, [], .failed⟩), failing,
    .iterate .esc .timedOut, .clear]

theorem client_registry_sample :
    ∃ s, runs step (.start 3 true) reuseRun = some s ∧ s.sockets.sclosed = [4, 4] ∧
      s.sockets.closed.map (·.2) = [.processClients, .clearClientList] ∧
      AllStates step Server.Registered (.start 3 true) reuseRun := by
  have hrun : (runs step (.start 3 true) reuseRun).map
      (fun s => (s.sockets.sclosed, s.sockets.closed.map (·.2))) =
      some ([4, 4], [.processClients, .clearClientList]) := by decide
  obtain ⟨s, hs, hview⟩ := Option.map_eq_some_iff.mp hrun
  rw [Prod.mk.injEq] at hview
  have hregistry := (client_registry_iff 3 true reuseRun s hs).2
  exact ⟨s, hs, hview.1, hview.2, hregistry (by decide) (by decide) (by decide)⟩

def another (n : ℕ) : Event :=
  .iterate .none (.ready {3} (.accepted (4 + n)) fun _ => ⟨.failed, [], .failed⟩)

/-- Clients that come one after the other and stay. -/
def crowd (n : ℕ) : List Event := (List.range n).map another

structure Crowded (n : ℕ) (s : Server) : Prop where
  inv : s.Inv
  pc : s.pc = .loop
  paused : s.isPaused = false
  sockfd : s.sockfd = 3
  highest : 3 ≤ s.highest
  sds : s.sockets.conns.map Conn.sd = (List.range n).map fun i : ℕ => 4 + (i : ℤ)
  accepted : s.sockets.accepted = n

section
variable {n : ℕ} {s : Server}

theorem Crowded.sd_lt (hs : Crowded n s) {sd : ℤ} (h : sd ∈ s.sockets.conns.map Conn.sd) :
    sd < 4 + n := by
  rw [hs.sds] at h
  obtain ⟨i, hi, rfl⟩ := List.mem_map.mp h
  have hlt := List.mem_range.mp hi
  omega

theorem Crowded.low (hs : Crowded n s) (hn : n ≤ 1020) : s.Low := by
  constructor
  · rw [hs.sockfd]
    decide
  · intro c hc
    have hlt := hs.sd_lt (List.mem_map_of_mem hc)
    rw [fdSetsize]
    omega

theorem Crowded.another (hs : Crowded n s) (hn : n ≤ 1020) :
    ∃ t, step s (another n) = some t ∧ Crowded (n + 1) t := by
  have hlow := hs.low hn
  have hsockfd := hs.sockfd
  have hhighest := hs.highest
  have htotal := hs.inv.total
  have haccepted := hs.accepted
  obtain ⟨totalClients, hinc⟩ : ∃ totalClients, increment s.totalClients = some totalClients := by
    apply Option.ne_none_iff_exists'.mp
    intro hnone
    have hlimit := increment_eq_none_iff.mp hnone
    omega
  have hnew : (0 : ℤ) < 4 + n ∧ (4 + n : ℤ) ≠ s.sockfd ∧
      (4 + n : ℤ) ∉ s.sockets.conns.map Conn.sd := by
    refine ⟨by omega, by omega, ?_⟩
    exact fun h => absurd (hs.sd_lt h) (lt_irrefl _)
  have hstep := step_accepts hs.inv hs.pc hs.paused (hlow.inRange hs.inv) (by omega) hnew hinc
    fun _ => ⟨.failed, [], .failed⟩
  rw [hsockfd] at hstep
  refine ⟨_, hstep, ?_⟩
  constructor
  · apply step_good hs.inv hstep
    apply hlow.fits hs.inv
    have hone : ((SimpServer.another n).newsockfd s.sockfd).toList.length ≤ 1 :=
      Option.length_toList_le
    rw [SimpServer.another] at hone
    omega
  · exact hs.pc
  · exact hs.paused
  · rfl
  · dsimp only
    split_ifs <;> omega
  · dsimp only
    rw [List.map_append, hs.sds, List.range_succ, List.map_append]
    rfl
  · exact congrArg (· + 1) haccepted

theorem crowd_runs (hn : n ≤ 1021) :
    ∃ s, runs step (.start 3 true) (crowd n) = some s ∧ Crowded n s := by
  induction n with
  | zero => exact ⟨_, rfl, Server.Inv.start 3 true, rfl, rfl, rfl, le_rfl, rfl, rfl⟩
  | succ n ih =>
    obtain ⟨s, hr, hs⟩ := ih (by omega)
    obtain ⟨t, ht, hcrowded⟩ := hs.another (by omega)
    refine ⟨t, ?_, hcrowded⟩
    rw [crowd, List.range_succ, List.map_append]
    exact runs_concat.mpr ⟨s, hr, ht⟩

end

/-- The client on the descriptor 1024 is registered, and the next `setup_fd_set` sets the bit behind
the last one of the `fd_set`. -/
theorem client_registry_crowd : ∃ s,
    runs step (.start 3 true) (crowd 1021 ++ [.iterate .none .timedOut]) = some s ∧
      ¬ s.Registered := by
  obtain ⟨s, hr, hs⟩ := crowd_runs (le_refl 1021)
  have hmem : (1024 : ℤ) ∈ s.vInClients.map InClient.sock := by
    rw [linked_socks hs.inv.registry.linked, hs.sds]
    exact List.mem_map.mpr ⟨1020, List.mem_range.mpr (by omega), rfl⟩
  obtain ⟨pic, hpic, hsock⟩ := List.mem_map.mp hmem
  have hused : ¬ pic.unused := (hs.inv.registry.used hpic).1
  have hout : ¬ s.InRange := by
    intro hrange
    have hlt := (hrange 1024 (List.mem_cons_of_mem _ (List.mem_map.mpr
      ⟨pic, List.mem_filter.mpr ⟨hpic, decide_eq_true hused⟩, hsock⟩))).2
    revert hlt
    decide
  have hset : setupFdSet s.sockfd s.vInClients = none := if_neg hout
  have hstep : step s (.iterate .none .timedOut) = some { s with pc := .undefined } := by
    unfold step
    rw [hs.pc]
    simp only [Server.iterate, Server.checkKey, hs.paused, Server.select, hset]
    rfl
  refine ⟨_, runs_concat.mpr ⟨s, hr, hstep⟩, ?_⟩
  exact fun hregistered => hregistered.defined rfl

end TcpTests.SimpServer
