import TcpTests.Lib.Lists
import TcpTests.SimpServer.Server

/-! The registry of `simp_server`: the entries of `vInClients` and the connections that are open
stay in step, and every connection is closed once. -/
namespace TcpTests.SimpServer
open Lib

/-- When a connection may be closed, by the number of failures on it. -/
def Closer.Due : Closer → ℤ → Prop
  | .processClients, failed => failed = maxRwErrors + 1
  | .clearClientList, failed => failed ≤ maxRwErrors

structure InClient.For (pic : InClient) (c : Conn) : Prop where
  sock : pic.sock = c.sd
  hadRwError : pic.hadRwError = c.failed

/-- The entries are those of the open connections, in order. The numbers of the connections that
were closed and of those that are open are together all that were given out. -/
structure Registry (highest : ℤ) (pics : List InClient) (k : Sockets) : Prop where
  linked : List.Forall₂ InClient.For pics k.conns
  bounds : ∀ c ∈ k.conns, 0 < c.sd ∧ c.sd ≤ highest
  nodup : (k.conns.map Conn.sd).Nodup
  serials : (k.closed.map (·.1.serial) ++ k.conns.map Conn.serial).Perm (List.range k.accepted)
  sclosed : k.sclosed = k.closed.map (·.1.sd)
  due : ∀ r ∈ k.closed, r.2.Due r.1.failed

structure Server.Inv (s : Server) : Prop where
  defined : s.pc ≠ .undefined
  registry : Registry s.highest s.vInClients s.sockets
  errors : ∀ pic ∈ s.vInClients, ¬ pic.exceeds
  total : s.totalClients.toInt = s.sockets.accepted
  cleared : s.pc = .cleared → s.vInClients = []

/-- What holds between two iterations, and after the list was cleared: the entries of `vInClients`
have distinct sockets, which are those of the connections that are open, in order, and none of them
is above `highest`; no entry has more errors than `max_rw_errors`; `total_clients` counts the
accepted connections; each of these is open or was closed once, by the only `SCLOSE` on it, after one
failure more than `max_rw_errors` or else in `clear_client_list`, which leaves none open. -/
structure Server.Registered (s : Server) : Prop where
  defined : s.pc ≠ .undefined
  nodup : (s.vInClients.map InClient.sock).Nodup
  opened : s.vInClients.map InClient.sock = s.sockets.conns.map Conn.sd
  highest : ∀ pic ∈ s.vInClients, pic.sock ≤ s.highest
  errors : ∀ pic ∈ s.vInClients, pic.hadRwError ≤ maxRwErrors
  total : s.totalClients.toInt = s.sockets.accepted
  once : (s.sockets.closed.map (·.1.serial) ++ s.sockets.conns.map Conn.serial).Perm
    (List.range s.sockets.accepted)
  sclosed : s.sockets.sclosed = s.sockets.closed.map (·.1.sd)
  due : ∀ r ∈ s.sockets.closed, r.2.Due r.1.failed
  cleared : s.pc = .cleared → s.sockets.conns = []

/-- The accepted descriptor, if the listening socket is ready. -/
def Event.newsockfd (sockfd : ℤ) : Event → Option ℤ
  | .iterate _ (.ready set (.accepted newsockfd) _) =>
    if sockfd ∈ set then some newsockfd else none
  | _ => none

/-- `FD_SET` finds the descriptors in the range of an `fd_set`. -/
def Server.InRange (s : Server) : Prop :=
  ∀ sd ∈ s.sockfd :: (s.vInClients.filter fun pic => ¬ pic.unused).map InClient.sock,
    0 ≤ sd ∧ sd < fdSetsize

instance (s : Server) : Decidable s.InRange := inferInstanceAs (Decidable (∀ sd ∈ _, _))

/-- An iteration that comes to `setup_fd_set` has its descriptors in range, and can count the client
that it accepts. -/
def Fits (s : Server) : Event → Prop
  | .clear => True
  | .iterate key outcome =>
    let u := s.checkKey key
    u.2 = true ∨ u.1.isPaused = true ∨
      u.1.InRange ∧
        (((Event.iterate key outcome).newsockfd u.1.sockfd).isSome →
          u.1.totalClients.toInt + 1 < 2 ^ 31)

instance (s : Server) : ∀ e, Decidable (Fits s e)
  | .clear => inferInstanceAs (Decidable True)
  | .iterate _ _ => inferInstanceAs (Decidable (_ ∨ _ ∨ _ ∧ (_ → _)))

section Sockets
variable {highest : ℤ} {pics pics₁ pics₂ : List InClient} {pic : InClient} {k : Sockets}
  {c : Conn} {conns cs₁ cs₂ : List Conn} {doEcho : Bool} {io : Io} {closer : Closer}

theorem Conn.handleReceive_fields (c : Conn) :
    (c.handleReceive doEcho io).sd = c.sd ∧ (c.handleReceive doEcho io).serial = c.serial ∧
      (c.handleReceive doEcho io).failed = c.failed + SimpServer.handleReceive doEcho io := by
  unfold Conn.handleReceive
  dsimp only
  split
  · split_ifs
    · split <;> exact ⟨rfl, rfl, rfl⟩
    · exact ⟨rfl, rfl, rfl⟩
  · exact ⟨rfl, rfl, rfl⟩

theorem handleReceive_le_one (doEcho : Bool) (io : Io) : handleReceive doEcho io ≤ 1 := by
  unfold handleReceive
  split
  · exact le_rfl
  · exact le_rfl
  · exact Nat.zero_le 1
  · split_ifs
    · split
      · exact le_rfl
      · exact Nat.zero_le 1
    · exact Nat.zero_le 1

theorem sd_ne_of_nodup (h : ((cs₁ ++ c :: cs₂).map Conn.sd).Nodup) :
    (∀ x ∈ cs₁, x.sd ≠ c.sd) ∧ ∀ x ∈ cs₂, x.sd ≠ c.sd := by
  rw [List.map_append, List.map_cons, List.nodup_append, List.nodup_cons] at h
  obtain ⟨-, ⟨hc, -⟩, hdisj⟩ := h
  constructor
  · intro x hx
    exact hdisj _ (List.mem_map_of_mem hx) _ List.mem_cons_self
  · intro x hx he
    exact hc (he ▸ List.mem_map_of_mem hx)

theorem Sockets.handleReceive_conns (hk : k.conns = cs₁ ++ c :: cs₂)
    (hnodup : (k.conns.map Conn.sd).Nodup) :
    k.handleReceive doEcho io c.sd =
      { k with conns := cs₁ ++ c.handleReceive doEcho io :: cs₂ } := by
  rw [hk] at hnodup
  obtain ⟨h₁, h₂⟩ := sd_ne_of_nodup hnodup
  have hsame : ∀ cs : List Conn, (∀ x ∈ cs, x.sd ≠ c.sd) →
      (cs.map fun x => if x.sd = c.sd then x.handleReceive doEcho io else x) = cs := by
    intro cs hcs
    apply List.map_congr_left (g := id) _ |>.trans (List.map_id _)
    exact fun x hx => if_neg (hcs x hx)
  unfold Sockets.handleReceive
  rw [hk, List.map_append, List.map_cons, hsame _ h₁, hsame _ h₂, if_pos rfl]

theorem Sockets.sclose_conns (hk : k.conns = cs₁ ++ c :: cs₂)
    (hnodup : (k.conns.map Conn.sd).Nodup) :
    k.sclose closer c.sd =
      { k with
        conns := cs₁ ++ cs₂
        closed := k.closed ++ [(c, closer)]
        sclosed := k.sclosed ++ [c.sd] } := by
  rw [hk] at hnodup
  obtain ⟨h₁, h₂⟩ := sd_ne_of_nodup hnodup
  have hkept : ∀ cs : List Conn, (∀ x ∈ cs, x.sd ≠ c.sd) → cs.filter (·.sd ≠ c.sd) = cs := by
    intro cs hcs
    exact List.filter_eq_self.mpr fun x hx => decide_eq_true (hcs x hx)
  have hnone : ∀ cs : List Conn, (∀ x ∈ cs, x.sd ≠ c.sd) → cs.filter (·.sd = c.sd) = [] := by
    intro cs hcs
    exact List.filter_eq_nil_iff.mpr fun x hx => by simpa using hcs x hx
  unfold Sockets.sclose
  rw [hk, List.filter_append, List.filter_append, List.filter_cons_of_neg (by simp),
    List.filter_cons_of_pos (by simp), hkept _ h₁, hkept _ h₂, hnone _ h₁, hnone _ h₂]
  rfl

theorem Registry.sclose (h : Registry highest (pics₁ ++ pic :: pics₂) k)
    (hdue : closer.Due pic.hadRwError) :
    Registry highest (pics₁ ++ pics₂) (k.sclose closer pic.sock) := by
  obtain ⟨cs₁, cs, hk, h₁, hcs⟩ := forall₂_append_left h.linked
  cases hcs with
  | @cons _ c _ cs₂ hpic h₂ =>
    have hsclose := @Sockets.sclose_conns k c cs₁ cs₂ closer hk h.nodup
    have hsub : (cs₁ ++ cs₂).Sublist k.conns := by
      rw [hk]
      exact List.Sublist.append_left (List.sublist_cons_self c cs₂) cs₁
    rw [hpic.sock, hsclose]
    constructor
    · exact List.rel_append h₁ h₂
    · exact fun x hx => h.bounds x (hsub.subset hx)
    · exact h.nodup.sublist (hsub.map _)
    · refine List.Perm.trans ?_ h.serials
      rw [hk]
      simp only [List.map_append, List.map_cons, List.map_nil, List.append_assoc,
        List.singleton_append]
      exact List.Perm.append_left _ List.perm_middle.symm
    · dsimp only
      rw [h.sclosed, List.map_append]
      rfl
    · intro r hr
      rcases List.mem_append.mp hr with hr | hr
      · exact h.due r hr
      · rw [List.mem_singleton.mp hr]
        dsimp only
        rw [← hpic.hadRwError]
        exact hdue

theorem InClient.For.served (hpic : pic.For c) (hle : pic.hadRwError ≤ maxRwErrors)
    (doEcho : Bool) (io : Io) :
    (pic.served (handleReceive doEcho io)).For (c.handleReceive doEcho io) ∧
      (pic.served (handleReceive doEcho io)).hadRwError ≤ maxRwErrors + 1 ∧
      (handleReceive doEcho io ≠ 0 ∧ (pic.served (handleReceive doEcho io)).exceeds ↔
        (pic.served (handleReceive doEcho io)).exceeds) := by
  obtain ⟨hsd, -, hfailed⟩ := @Conn.handleReceive_fields doEcho io c
  unfold InClient.served
  split_ifs with hret
  · have hone : handleReceive doEcho io = 1 := by
      have := handleReceive_le_one doEcho io
      omega
    refine ⟨⟨hpic.sock.trans hsd.symm, ?_⟩, by simpa using hle, and_iff_right hret⟩
    dsimp only
    rw [hfailed, hone, hpic.hadRwError]
    rfl
  · have hzero : handleReceive doEcho io = 0 := not_not.mp hret
    refine ⟨⟨hpic.sock.trans hsd.symm, ?_⟩, by omega, ?_⟩
    · rw [hfailed, hzero, hpic.hadRwError]
      rfl
    · constructor
      · exact fun h => h.2
      · exact fun h => absurd h (not_lt.mpr hle)

theorem receiveClients_linked (hk : k.conns = cs₁ ++ cs₂) (hnodup : (k.conns.map Conn.sd).Nodup)
    (hlinked : List.Forall₂ InClient.For pics cs₂) (herrors : ∀ pic ∈ pics, ¬ pic.exceeds)
    (doEcho : Bool) (listenSocket : Finset ℤ) (ios : ℕ → Io) :
    ∃ pics' cs', receiveClients doEcho listenSocket pics ios k =
        (pics', pics'.countP (fun pic => pic.exceeds), { k with conns := cs₁ ++ cs' }) ∧
      List.Forall₂ InClient.For pics' cs' ∧ cs'.map Conn.sd = cs₂.map Conn.sd ∧
      cs'.map Conn.serial = cs₂.map Conn.serial ∧
      ∀ pic ∈ pics', pic.hadRwError ≤ maxRwErrors + 1 := by
  induction hlinked generalizing k cs₁ ios with
  | nil =>
    refine ⟨[], [], ?_, .nil, rfl, rfl, nofun⟩
    rw [← hk]
    rfl
  | @cons pic c pics cs₂ hpic hlinked ih =>
    have hle : pic.hadRwError ≤ maxRwErrors := not_lt.mp (herrors pic List.mem_cons_self)
    have hrest : ∀ pic ∈ pics, ¬ pic.exceeds := fun p hp => herrors p (List.mem_cons_of_mem _ hp)
    unfold receiveClients
    by_cases hready : ¬ pic.unused ∧ pic.sock ∈ listenSocket
    · rw [if_pos hready]
      have hconns := @Sockets.handleReceive_conns k c cs₁ cs₂ doEcho (ios 0) hk hnodup
      rw [← hpic.sock] at hconns
      obtain ⟨hsd, hserial, -⟩ := @Conn.handleReceive_fields doEcho (ios 0) c
      obtain ⟨hfor, hbound₁, hcount⟩ := hpic.served hle doEcho (ios 0)
      have hk' : (k.handleReceive doEcho (ios 0) pic.sock).conns =
          (cs₁ ++ [c.handleReceive doEcho (ios 0)]) ++ cs₂ := by
        rw [hconns, List.append_assoc]
        rfl
      have hnodup' : ((k.handleReceive doEcho (ios 0) pic.sock).conns.map Conn.sd).Nodup := by
        rw [hk] at hnodup
        rw [hconns, List.map_append, List.map_cons, hsd]
        rwa [List.map_append, List.map_cons] at hnodup
      obtain ⟨pics', cs', hr, hlinked', hsds, hserials, hbound⟩ :=
        ih hk' hnodup' hrest (fun n => ios (n + 1))
      refine ⟨_, _, ?_, .cons hfor hlinked', ?_, ?_, ?_⟩
      · dsimp only
        rw [hr, hconns, List.countP_cons]
        simp only [hcount, decide_eq_true_eq, List.append_assoc, List.singleton_append]
      · rw [List.map_cons, List.map_cons, hsds, hsd]
      · rw [List.map_cons, List.map_cons, hserials, hserial]
      · intro p hp
        rcases List.mem_cons.mp hp with rfl | hp
        · exact hbound₁
        · exact hbound p hp
    · rw [if_neg hready]
      have hk' : k.conns = (cs₁ ++ [c]) ++ cs₂ := by rw [hk, List.append_assoc]; rfl
      obtain ⟨pics', cs', hr, hlinked', hsds, hserials, hbound⟩ :=
        ih hk' hnodup hrest (fun n => ios (n + 1))
      refine ⟨pic :: pics', c :: cs', ?_, .cons hpic hlinked', ?_, ?_, ?_⟩
      · rw [hr]
        dsimp only
        rw [List.countP_cons_of_neg (by simpa using herrors pic List.mem_cons_self),
          List.append_assoc]
        rfl
      · rw [List.map_cons, List.map_cons, hsds]
      · rw [List.map_cons, List.map_cons, hserials]
      · intro p hp
        rcases List.mem_cons.mp hp with rfl | hp
        · omega
        · exact hbound p hp

theorem Registry.used (h : Registry highest pics k) (hpic : pic ∈ pics) :
    ¬ pic.unused ∧ pic.sock ∈ k.conns.map Conn.sd := by
  obtain ⟨pics₁, pics₂, rfl⟩ := List.append_of_mem hpic
  obtain ⟨cs₁, cs, hk, -, hcs⟩ := forall₂_append_left h.linked
  cases hcs with
  | @cons _ c _ cs₂ hfor _ =>
    have hc : c ∈ k.conns := by
      rw [hk]
      exact List.mem_append_right _ List.mem_cons_self
    have hpos := (h.bounds c hc).1
    rw [← hfor.sock] at hpos
    refine ⟨?_, List.mem_map.mpr ⟨c, hc, hfor.sock.symm⟩⟩
    unfold InClient.unused
    omega

theorem linked_socks (h : List.Forall₂ InClient.For pics conns) :
    pics.map InClient.sock = conns.map Conn.sd := by
  induction h with
  | nil => rfl
  | cons hfor _ ih => rw [List.map_cons, List.map_cons, hfor.sock, ih]

theorem receiveClients_registry (h : Registry highest pics k)
    (herrors : ∀ pic ∈ pics, ¬ pic.exceeds) (doEcho : Bool) (listenSocket : Finset ℤ) (ios : ℕ → Io) :
    ∃ pics' k', receiveClients doEcho listenSocket pics ios k =
        (pics', pics'.countP (fun pic => pic.exceeds), k') ∧
      Registry highest pics' k' ∧ k'.accepted = k.accepted ∧
      ∀ pic ∈ pics', pic.hadRwError ≤ maxRwErrors + 1 := by
  obtain ⟨pics', cs', hr, hlinked, hsds, hserials, hbound⟩ :=
    receiveClients_linked (List.nil_append k.conns).symm h.nodup h.linked herrors doEcho
      listenSocket ios
  refine ⟨pics', _, hr, ⟨hlinked, ?_, ?_, ?_, h.sclosed, h.due⟩, rfl, hbound⟩
  · intro c hc
    have hmem : c.sd ∈ k.conns.map Conn.sd := hsds ▸ List.mem_map_of_mem hc
    obtain ⟨c', hc', he⟩ := List.mem_map.mp hmem
    rw [← he]
    exact h.bounds c' hc'
  · change (cs'.map Conn.sd).Nodup
    rw [hsds]
    exact h.nodup
  · change (_ ++ cs'.map Conn.serial).Perm _
    rw [hserials]
    exact h.serials

theorem findExceeding_append (h₁ : ∀ p ∈ pics₁, ¬ p.unused ∧ ¬ p.exceeds) (hused : ¬ pic.unused)
    (hpic : pic.exceeds) :
    findExceeding (pics₁ ++ pic :: pics₂) = some (pic, pics₁.length, pics₁.length) := by
  induction pics₁ with
  | nil => rw [List.nil_append, findExceeding, if_neg hused, if_pos hpic, List.length_nil]
  | cons p pics₁ ih =>
    obtain ⟨hp, hp'⟩ := h₁ p List.mem_cons_self
    rw [List.cons_append, findExceeding, if_neg hp, if_neg hp',
      ih fun q hq => h₁ q (List.mem_cons_of_mem _ hq), Option.map_some, List.length_cons]

/-- A turn of the erasing loop takes out the first client with too many errors. -/
theorem eraseClient_registry {n : ℕ} (h : Registry highest pics k)
    (hbound : ∀ pic ∈ pics, pic.hadRwError ≤ maxRwErrors + 1)
    (hcount : pics.countP (fun pic => pic.exceeds) = n + 1) :
    ∃ pics' k', eraseClient (pics, k) = (pics', k') ∧ Registry highest pics' k' ∧
      k'.accepted = k.accepted ∧ (∀ pic ∈ pics', pic.hadRwError ≤ maxRwErrors + 1) ∧
      pics'.countP (fun pic => pic.exceeds) = n := by
  have hpos : 0 < pics.countP (fun pic => pic.exceeds) := by
    rw [hcount]
    exact Nat.succ_pos n
  obtain ⟨pic, hpic, hexceeds⟩ := List.countP_pos_iff.mp hpos
  obtain ⟨pic, pics₁, pics₂, hfirst, hexceeds, hpics, -⟩ :=
    List.exists_of_eraseP (p := fun pic : InClient => decide pic.exceeds) hpic hexceeds
  have hexceeds : pic.exceeds := of_decide_eq_true hexceeds
  have hfirst : ∀ p ∈ pics₁, ¬ p.exceeds := fun p hp he => hfirst p hp (decide_eq_true he)
  have hused : ∀ p ∈ pics, ¬ p.unused := fun p hp => (h.used hp).1
  subst hpics
  have hfind : findExceeding (pics₁ ++ pic :: pics₂) = some (pic, pics₁.length, pics₁.length) :=
    findExceeding_append (fun p hp => ⟨hused p (List.mem_append_left _ hp), hfirst p hp⟩)
      (hused pic (List.mem_append_right _ List.mem_cons_self)) hexceeds
  have hle := hbound pic (List.mem_append_right _ List.mem_cons_self)
  have hdue : Closer.processClients.Due pic.hadRwError := by
    unfold InClient.exceeds at hexceeds
    unfold Closer.Due
    dsimp only
    omega
  refine ⟨pics₁ ++ pics₂, k.sclose .processClients pic.sock, ?_, h.sclose hdue, rfl, ?_, ?_⟩
  · unfold eraseClient
    dsimp only
    rw [hfind]
    dsimp only
    rw [List.eraseIdx_set_eq, List.eraseIdx_append_of_length_le le_rfl, Nat.sub_self,
      List.eraseIdx_cons_zero]
  · intro p hp
    apply hbound p
    rcases List.mem_append.mp hp with hp | hp
    · exact List.mem_append_left _ hp
    · exact List.mem_append_right _ (List.mem_cons_of_mem _ hp)
  · rw [List.countP_append, List.countP_cons_of_pos (p := fun pic : InClient => decide pic.exceeds)
      (decide_eq_true hexceeds)] at hcount
    rw [List.countP_append]
    omega

theorem eraseClients_registry {n : ℕ} (h : Registry highest pics k)
    (hbound : ∀ pic ∈ pics, pic.hadRwError ≤ maxRwErrors + 1)
    (hcount : pics.countP (fun pic => pic.exceeds) = n) :
    ∃ pics' k', eraseClient^[n] (pics, k) = (pics', k') ∧ Registry highest pics' k' ∧
      k'.accepted = k.accepted ∧ ∀ pic ∈ pics', ¬ pic.exceeds := by
  induction n generalizing pics k with
  | zero =>
    refine ⟨pics, k, rfl, h, rfl, ?_⟩
    intro p hp
    simpa using List.countP_eq_zero.mp hcount p hp
  | succ n ih =>
    obtain ⟨pics₁, k₁, hr, h₁, haccepted₁, hbound₁, hcount₁⟩ :=
      eraseClient_registry h hbound hcount
    obtain ⟨pics', k', hr', h', haccepted, herrors⟩ := ih h₁ hbound₁ hcount₁
    refine ⟨pics', k', ?_, h', haccepted.trans haccepted₁, herrors⟩
    rw [Function.iterate_succ_apply, hr, hr']

theorem processClients_registry (h : Registry highest pics k)
    (herrors : ∀ pic ∈ pics, ¬ pic.exceeds) (doEcho : Bool) (listenSocket : Finset ℤ) (ios : ℕ → Io) :
    ∃ pics' k', processClients doEcho listenSocket pics ios k = (pics', k') ∧
      Registry highest pics' k' ∧ k'.accepted = k.accepted ∧ ∀ pic ∈ pics', ¬ pic.exceeds := by
  obtain ⟨pics₁, k₁, hr, h₁, haccepted₁, hbound⟩ :=
    receiveClients_registry h herrors doEcho listenSocket ios
  obtain ⟨pics', k', hr', h', haccepted, herrors'⟩ := eraseClients_registry h₁ hbound rfl
  refine ⟨pics', k', ?_, h', haccepted.trans haccepted₁, herrors'⟩
  unfold processClients
  rw [hr]
  exact hr'

theorem clearClientList_registry (h : Registry highest pics k)
    (herrors : ∀ pic ∈ pics, ¬ pic.exceeds) :
    Registry highest [] (clearClientList pics k) ∧
      (clearClientList pics k).accepted = k.accepted := by
  unfold clearClientList
  induction pics generalizing k with
  | nil => exact ⟨h, rfl⟩
  | cons pic pics ih =>
    have hused := (h.used List.mem_cons_self).1
    have hdue : Closer.clearClientList.Due pic.hadRwError :=
      not_lt.mp (herrors pic List.mem_cons_self)
    have hnext : Registry highest ([] ++ pics) (k.sclose .clearClientList pic.sock) :=
      Registry.sclose h hdue
    rw [List.filter_cons_of_pos (by simpa using hused), List.foldl_cons]
    obtain ⟨hr, haccepted⟩ := ih hnext fun p hp => herrors p (List.mem_cons_of_mem _ hp)
    exact ⟨hr, haccepted⟩

end Sockets

section Step
variable {s t : Server} {e : Event}

theorem Server.Inv.start (sockfd : ℤ) (doEcho : Bool) : (Server.start sockfd doEcho).Inv where
  defined := nofun
  registry := ⟨.nil, nofun, List.nodup_nil, .refl _, rfl, nofun⟩
  errors := nofun
  total := rfl
  cleared := nofun

theorem Server.Inv.registered (hs : s.Inv) : s.Registered := by
  have hsocks := linked_socks hs.registry.linked
  refine ⟨hs.defined, ?_, hsocks, ?_, fun pic hpic => not_lt.mp (hs.errors pic hpic), hs.total,
    hs.registry.serials, hs.registry.sclosed, hs.registry.due, ?_⟩
  · rw [hsocks]
    exact hs.registry.nodup
  · intro pic hpic
    obtain ⟨c, hc, he⟩ := List.mem_map.mp (hs.registry.used hpic).2
    rw [← he]
    exact (hs.registry.bounds c hc).2
  · intro hpc
    rw [hs.cleared hpc] at hsocks
    exact List.map_eq_nil_iff.mp hsocks.symm

theorem Server.Inv.same (hs : s.Inv) (hclients : t.vInClients = s.vInClients)
    (hhighest : t.highest = s.highest) (htotal : t.totalClients = s.totalClients)
    (hsockets : t.sockets = s.sockets) (hpc : t.pc = .loop ∨ t.pc = .stopped) : t.Inv := by
  constructor
  · rcases hpc with hpc | hpc <;> rw [hpc] <;> nofun
  · rw [hclients, hhighest, hsockets]
    exact hs.registry
  · rw [hclients]
    exact hs.errors
  · rw [htotal, hsockets]
    exact hs.total
  · intro h
    rcases hpc with hpc | hpc <;> rw [hpc] at h <;> cases h

theorem setupFdSet_isSome (s : Server) :
    (setupFdSet s.sockfd s.vInClients).isSome = true ↔ s.InRange := by
  unfold setupFdSet Server.InRange
  dsimp only
  split_ifs with hrange
  · exact iff_of_true rfl hrange
  · exact iff_of_false Bool.false_ne_true hrange

theorem accept_inv (hs : s.Inv) (hpc : s.pc = .loop) {outcome : AcceptOutcome}
    (hcount : ∀ newsockfd, outcome = .accepted newsockfd → s.totalClients.toInt + 1 < 2 ^ 31)
    (h : s.accept outcome = some t) : t.Inv := by
  cases outcome with
  | failed =>
    cases h
    exact hs
  | accepted newsockfd =>
    simp only [Server.accept] at h
    split_ifs at h with hnew
    obtain ⟨hpos, -, hnot⟩ := hnew
    cases h
    have hsocks := linked_socks hs.registry.linked
    cases hinc : increment s.totalClients with
    | none =>
      have hlimit := increment_eq_none_iff.mp hinc
      have hlt := hcount newsockfd rfl
      omega
    | some totalClients =>
      have htotal := increment_eq_some_iff.mp hinc
      unfold Server.addClient
      dsimp only
      rw [if_neg (by rwa [hsocks]), hinc]
      dsimp only
      have hloop : ∀ pc', s.pc = pc' → pc' = .loop := fun _ h => h.symm.trans hpc
      refine ⟨fun h => absurd (hloop _ h) nofun,
        ⟨?_, ?_, ?_, ?_, hs.registry.sclosed, hs.registry.due⟩, ?_, ?_,
        fun h => absurd (hloop _ h) nofun⟩
      · exact List.rel_append hs.registry.linked (.cons ⟨rfl, rfl⟩ .nil)
      · intro c hc
        dsimp only
        rcases List.mem_append.mp hc with hc | hc
        · have hb := hs.registry.bounds c hc
          split_ifs <;> omega
        · rw [List.mem_singleton.mp hc]
          change 0 < newsockfd ∧ newsockfd ≤ _
          split_ifs <;> omega
      · dsimp only
        rw [List.map_append, List.nodup_append]
        refine ⟨hs.registry.nodup, List.nodup_singleton _, ?_⟩
        rintro sd hsd sd' hsd' rfl
        have he : sd = newsockfd := List.mem_singleton.mp hsd'
        exact hnot (he ▸ hsd)
      · dsimp only
        rw [List.map_append, ← List.append_assoc, List.range_succ]
        exact hs.registry.serials.append_right _
      · intro pic hpic
        rcases List.mem_append.mp hpic with hpic | hpic
        · exact hs.errors pic hpic
        · rw [List.mem_singleton.mp hpic]
          change ¬ ((0 : ℤ) > maxRwErrors)
          decide
      · dsimp only
        rw [htotal, hs.total]
        push_cast
        rfl

theorem accept_undefined (hs : s.Inv) {newsockfd : ℤ}
    (hcount : ¬ s.totalClients.toInt + 1 < 2 ^ 31)
    (h : s.accept (.accepted newsockfd) = some t) : t.pc = .undefined := by
  simp only [Server.accept] at h
  split_ifs at h with hnew
  cases h
  have hsocks := linked_socks hs.registry.linked
  have hinc : increment s.totalClients = none := increment_eq_none_iff.mpr (not_lt.mp hcount)
  unfold Server.addClient
  dsimp only
  rw [if_neg (by rw [hsocks]; exact hnew.2.2), hinc]

theorem selectFrom_inv (hs : s.Inv) (hpc : s.pc = .loop) {listenSocket : Finset ℤ}
    {outcome : SelectOutcome} {key : Key}
    (hcount : ((Event.iterate key outcome).newsockfd s.sockfd).isSome →
      s.totalClients.toInt + 1 < 2 ^ 31)
    (h : s.selectFrom listenSocket outcome = some t) : t.Inv := by
  cases outcome with
  | failed =>
    cases h
    exact hs.same rfl rfl rfl rfl (Or.inr rfl)
  | timedOut =>
    cases h
    exact hs
  | ready set accept ios =>
    simp only [Server.selectFrom] at h
    split_ifs at h with hset hlisten
    · apply accept_inv hs hpc ?_ h
      rintro newsockfd rfl
      apply hcount
      rw [Event.newsockfd, if_pos hlisten]
      rfl
    · cases h
      obtain ⟨pics', k', hr, hregistry, haccepted, herrors⟩ :=
        processClients_registry hs.registry hs.errors s.doEcho set ios
      rw [hr]
      refine ⟨hs.defined, hregistry, herrors, ?_, ?_⟩
      · dsimp only
        rw [haccepted]
        exact hs.total
      · exact fun h => absurd (hpc.symm.trans h) nofun

theorem selectFrom_undefined (hs : s.Inv) {listenSocket : Finset ℤ} {outcome : SelectOutcome}
    {key : Key}
    (hcount : ¬ (((Event.iterate key outcome).newsockfd s.sockfd).isSome →
      s.totalClients.toInt + 1 < 2 ^ 31))
    (h : s.selectFrom listenSocket outcome = some t) : t.pc = .undefined := by
  obtain ⟨hsome, hlimit⟩ := Classical.not_imp.mp hcount
  unfold Event.newsockfd at hsome
  split at hsome
  · rename_i heq
    cases heq
    simp only [Server.selectFrom] at h
    split_ifs at h hsome with hset hlisten
    · exact accept_undefined hs hlimit h
    · cases hsome
  · cases hsome

theorem checkKey_inv (hs : s.Inv) (hpc : s.pc = .loop) (key : Key) :
    (s.checkKey key).1.Inv ∧ (s.checkKey key).1.pc = .loop := by
  cases key with
  | echo | pause => exact ⟨hs.same rfl rfl rfl rfl (Or.inl hpc), hpc⟩
  | none | other | esc => exact ⟨hs, hpc⟩

/-- A step keeps the registry, or else it leaves the range of an `fd_set` or of an `int`. -/
theorem step_inv (hs : s.Inv) (h : step s e = some t) :
    Fits s e ∧ t.Inv ∨ ¬ Fits s e ∧ t.pc = .undefined := by
  unfold step at h
  split at h
  · rename_i key outcome hpc
    obtain ⟨hkey, hpckey⟩ := checkKey_inv hs hpc key
    unfold Server.iterate at h
    rw [Fits]
    generalize s.checkKey key = checked at h hkey hpckey ⊢
    obtain ⟨u, exits⟩ := checked
    dsimp only at h hkey hpckey ⊢
    cases exits with
    | true =>
      cases h
      exact Or.inl ⟨Or.inl rfl, hkey.same rfl rfl rfl rfl (Or.inr rfl)⟩
    | false =>
      dsimp only at h
      by_cases hpaused : u.isPaused
      · rw [if_pos hpaused] at h
        cases h
        exact Or.inl ⟨Or.inr (Or.inl hpaused), hkey⟩
      · rw [if_neg hpaused, Server.select] at h
        rw [or_iff_right Bool.false_ne_true, or_iff_right hpaused, ← setupFdSet_isSome]
        cases hset : setupFdSet u.sockfd u.vInClients with
        | none =>
          rw [hset] at h
          cases h
          exact Or.inr ⟨fun hfits => Bool.false_ne_true hfits.1, rfl⟩
        | some listenSocket =>
          rw [hset] at h
          by_cases hcount : ((Event.iterate key outcome).newsockfd u.sockfd).isSome →
              u.totalClients.toInt + 1 < 2 ^ 31
          · exact Or.inl ⟨⟨rfl, hcount⟩, selectFrom_inv hkey hpckey hcount h⟩
          · exact Or.inr ⟨fun hfits => hcount hfits.2, selectFrom_undefined hkey hcount h⟩
  · cases h
    obtain ⟨hr, haccepted⟩ := clearClientList_registry hs.registry hs.errors
    refine Or.inl ⟨trivial, nofun, hr, nofun, ?_, fun _ => rfl⟩
    dsimp only
    rw [haccepted]
    exact hs.total
  · cases h

theorem step_good (hs : s.Inv) (h : step s e = some t) (hfits : Fits s e) : t.Inv := by
  rcases step_inv hs h with ⟨-, ht⟩ | ⟨hnot, -⟩
  · exact ht
  · exact absurd hfits hnot

theorem step_bad (hs : s.Inv) (h : step s e = some t) (hfits : ¬ Fits s e) :
    ¬ t.Registered := by
  rcases step_inv hs h with ⟨hyes, -⟩ | ⟨-, ht⟩
  · exact absurd hyes hfits
  · exact fun hregistered => hregistered.defined ht

end Step

end TcpTests.SimpServer
