import TcpTests.Nbclient.Messages
import TcpTests.Nbserver.Content
import TcpTests.Nbserver.Slots
import TcpTests.SimpClient.Replies

/-! Any number of `nbclient` and one `nbserver`. Each connection carries bytes in order and once;
how many of them are there when a side looks is open, and so is when a connection fails. -/
namespace TcpTests.Nbclient
open Lib Sockhelp Text
open Nbserver (Conn NbServer text)

/-- What a client is told for which there is no slot. -/
def busyText : List Byte :=
  "Sorry, this server is too busy. Try again later!\r\n".toList.map charByte

/-- The connection of a client: not made yet, waiting for `accept`, open at the server, closed by
the server with what it had sent, or turned away. -/
inductive Link
  | idle
  | queued
  | served (fd : ℕ)
  | closed (down : List Byte)
  | refused (down : List Byte)
  deriving DecidableEq

def Link.down (conns : ℕ → Option Conn) : Link → List Byte
  | .idle | .queued => []
  | .served fd =>
    match conns fd with
    | some conn => conn.sent
    | none => []
  | .closed down | .refused down => down

def Link.after (conns conns' : ℕ → Option Conn) : Link → Link
  | .served fd =>
    match conns fd, conns' fd with
    | some conn, none => .closed conn.sent
    | _, _ => .served fd
  | l => l

/-- The clients that wait for `accept` stand in `queue`. -/
structure System (ι : Type*) where
  server : NbServer
  clients : ι → NbClient
  links : ι → Link
  queue : List ι

variable {ι : Type*}

def System.start (sock : ℕ) : System ι where
  server := .start sock
  clients := fun _ => .start
  links := fun _ => .idle
  queue := []

/-- The bytes that are on their way to a client, or have come to it and were not read. -/
def System.pending (s : System ι) (i : ι) : List Byte :=
  ((s.links i).down s.server.conns).drop (s.clients i).received.length

/-- A client connects or takes a step, `n` bytes of it arrive at the server or its connection is
seen to end there, or the server takes a step. The writes of `accept` tell the client that there is
no slot. -/
inductive Event (ι : Type*)
  | connect (i : ι)
  | client (i : ι) (p : Pass)
  | arrive (i : ι) (n : ℕ)
  | ends (i : ι) (idle : Idle)
  | accept (connection : ℕ) (outs : List WriteOutcome)
  | server (e : Nbserver.Event)

def isOwnStep : Nbserver.Event → Bool
  | .select | .read _ | .checkKeys _ | .fails => true
  | .connect | .arrive _ _ | .ends _ _ | .accept _ => false

/-- The server takes the first connection of the queue. -/
def System.accept [DecidableEq ι] (s : System ι) (connection : ℕ) (outs : List WriteOutcome) :
    Option (System ι) :=
  match s.queue with
  | [] => none
  | i :: queue =>
    (Nbserver.step s.server (.accept connection)).bind fun t =>
      if (t.conns connection).isSome then
        some { s with
          server := t, queue := queue, links := Function.update s.links i (.served connection) }
      else
        (sockWrite busyText outs).map fun w =>
          { s with
            server := t, queue := queue, links := Function.update s.links i (.refused w.1) }

def System.step [DecidableEq ι] (os : Platform) (s : System ι) : Event ι → Option (System ι)
  | .connect i =>
    if s.links i = .idle then
      (Nbserver.step s.server .connect).map fun t =>
        { s with
          server := t, queue := s.queue ++ [i], links := Function.update s.links i .queued }
    else none
  | .client i p =>
    if s.links i = .idle then none
    else
      ((s.clients i).step os (s.pending i) p).map fun c =>
        { s with clients := Function.update s.clients i c }
  | .arrive i n =>
    match s.links i with
    | .served fd =>
      (s.server.conns fd).bind fun conn =>
        (Nbserver.step s.server
          (.arrive fd (((s.clients i).sent.drop conn.arrived.length).take n))).map fun t =>
            { s with server := t }
    | _ => none
  | .ends i idle =>
    match s.links i with
    | .served fd => (Nbserver.step s.server (.ends fd idle)).map fun t => { s with server := t }
    | _ => none
  | .accept connection outs => s.accept connection outs
  | .server e =>
    if isOwnStep e then
      (Nbserver.step s.server e).map fun t =>
        { s with server := t, links := fun i => (s.links i).after s.server.conns t.conns }
    else none

/-- What has come to a client of what the server has sent to it, and what the server has sent of
what has come from the client. -/
def Fed (R : List Byte → List Byte → Prop) (conns : ℕ → Option Conn) (c : NbClient) :
    Link → Prop
  | .idle | .queued => c.received = []
  | .served fd => ∃ conn, conns fd = some conn ∧ conn.arrived <+: c.sent ∧ conn.Copied R ∧
      c.received <+: conn.sent
  | .closed down =>
    (∃ got, got <+: c.sent ∧ R (text down) ((text got).map toupper)) ∧ c.received <+: down
  | .refused down => down <+: busyText ∧ c.received <+: down

structure System.Inv (R : List Byte → List Byte → Prop) (s : System ι) : Prop where
  clients : ∀ i, (s.clients i).Inv
  nodup : s.queue.Nodup
  queued : ∀ i ∈ s.queue, s.links i = .queued
  distinct : ∀ i j fd, s.links i = .served fd → s.links j = .served fd → i = j
  fed : ∀ i, Fed R s.server.conns (s.clients i) (s.links i)

/-- What a read of the server writes is right for the line that it reads. -/
def Copies (R : List Byte → List Byte → Prop) (s : System ι) (e : Event ι) : Prop :=
  ∀ i listnum outs, e = .server (.read outs) → s.server.pc = .read listnum →
    s.links i = .served (s.server.connectlist listnum) →
    ∀ conn ∈ s.server.conns (s.server.connectlist listnum), ∀ w,
      sockWrite (Nbserver.respond (conn.line.take Nbserver.myMxRcv)) outs = some w →
        R (text w.1) (conn.line.map toupper)

section
variable {R : List Byte → List Byte → Prop} {s t : System ι} {i j : ι} {c c' : NbClient}
  {conns conns' : ℕ → Option Conn} {l : Link} {fd : ℕ} {conn conn' : Conn}

theorem Fed.client (h : Fed R conns c l) (hsent : c.sent <+: c'.sent)
    (hreceived : ∃ bytes, bytes <+: (l.down conns).drop c.received.length ∧
      c'.received = c.received ++ bytes) : Fed R conns c' l := by
  obtain ⟨bytes, hbytes, hreceived⟩ := hreceived
  have hmore : ∀ down, c.received <+: down → bytes <+: down.drop c.received.length →
      c'.received <+: down := by
    rintro down ⟨rest, rfl⟩ hb
    rw [List.drop_left] at hb
    rw [hreceived]
    exact (List.prefix_append_right_inj _).mpr hb
  cases l with
  | idle | queued =>
    have hnone : c.received = [] := h
    have hbytes : bytes = [] := by simpa [Link.down] using hbytes
    change c'.received = []
    rw [hreceived, hnone, hbytes, List.append_nil]
  | served fd =>
    obtain ⟨conn, hconn, harrived, hcopied, hread⟩ := h
    simp only [Link.down, hconn] at hbytes
    exact ⟨conn, hconn, harrived.trans hsent, hcopied, hmore _ hread hbytes⟩
  | closed down =>
    obtain ⟨⟨got, hgot, hcopied⟩, hread⟩ := h
    exact ⟨⟨got, hgot.trans hsent, hcopied⟩, hmore _ hread hbytes⟩
  | refused down => exact ⟨h.1, hmore _ h.2 hbytes⟩

/-- Connections that are as they were, but for one that the client does not have. -/
theorem Fed.frame (h : Fed R conns c l) (hconns : ∀ fd, l = .served fd → conns' fd = conns fd) :
    Fed R conns' c l := by
  cases l with
  | served fd =>
    obtain ⟨conn, hconn, hrest⟩ := h
    exact ⟨conn, (hconns fd rfl).trans hconn, hrest⟩
  | idle | queued | closed down | refused down => exact h

theorem Link.after_served (h : l.after conns conns' = .served fd) : l = .served fd := by
  cases l with
  | served fd' =>
    simp only [Link.after] at h
    split at h
    · cases h
    · exact h
  | idle | queued | closed down | refused down => exact h

theorem Fed.isOpen (h : Fed R conns c (.served fd)) : conns fd ≠ none := by
  obtain ⟨conn, hconn, -⟩ := h
  rw [hconn]
  nofun

theorem Fed.after (h : Fed R conns' c l) : Fed R conns' c (l.after conns conns') := by
  cases l with
  | served fd =>
    simp only [Link.after]
    split
    · rename_i hnone
      exact absurd hnone h.isOpen
    · exact h
  | idle | queued | closed down | refused down => exact h

theorem goesOn_sent {outs : List WriteOutcome}
    (h : Nbserver.dealWithData conn outs = some (.goesOn conn')) :
    conn'.arrived = conn.arrived ∧ conn.sent <+: conn'.sent := by
  unfold Nbserver.dealWithData at h
  dsimp only at h
  split_ifs at h
  · cases h
  · obtain ⟨w, -, hgoes⟩ := Option.map_eq_some_iff.mp h
    cases hgoes
    exact ⟨rfl, List.prefix_append _ _⟩
  · obtain ⟨w, -, hgoes⟩ := Option.map_eq_some_iff.mp h
    cases hgoes
  · cases h

theorem Fed.read (hR : Nbserver.Piecewise R) (h : Fed R conns c (.served fd))
    (hconn : conns fd = some conn) {outs : List WriteOutcome}
    (hone : ∀ w, sockWrite (Nbserver.respond (conn.line.take Nbserver.myMxRcv)) outs = some w →
      R (text w.1) (conn.line.map toupper))
    (hdealt : Nbserver.dealWithData conn outs = some (.goesOn conn'))
    (hconns : conns' fd = some conn') : Fed R conns' c (.served fd) := by
  obtain ⟨d, hd, harrived, hcopied, hread⟩ := h
  cases hconn.symm.trans hd
  obtain ⟨harrived', hsent⟩ := goesOn_sent hdealt
  refine ⟨conn', hconns, ?_, Nbserver.dealWithData_copied hR hcopied hone hdealt, ?_⟩
  · rw [harrived']
    exact harrived
  · exact hread.trans hsent

theorem Fed.close (h : Fed R conns c (.served fd)) (hnone : conns' fd = none) :
    Fed R conns' c ((Link.served fd).after conns conns') := by
  obtain ⟨conn, hconn, harrived, ⟨got, hgot, hcopied⟩, hread⟩ := h
  simp only [Link.after, hconn, hnone]
  refine ⟨⟨got, ?_, hcopied⟩, hread⟩
  rw [hgot] at harrived
  exact (List.prefix_append _ _).trans harrived

theorem System.Inv.read_fed (hR : Nbserver.Piecewise R) (hs : s.Inv R) {listnum : ℕ}
    {outs : List WriteOutcome} (hone : Copies R s (.server (.read outs)))
    (hpc : s.server.pc = .read listnum) {u : NbServer}
    (h : s.server.readSlot listnum outs = some u) (i : ι) :
    Fed R u.conns (s.clients i) ((s.links i).after s.server.conns u.conns) := by
  have hfed := hs.fed i
  have hother : ∀ v, s.links i ≠ .served (s.server.connectlist listnum) →
      Fed R (Function.update s.server.conns (s.server.connectlist listnum) v) (s.clients i)
        (s.links i) := by
    intro v hi
    refine hfed.frame fun fd hfd => Function.update_of_ne ?_ ..
    rintro rfl
    exact hi hfd
  rcases Nbserver.readSlot_cases h with ⟨-, rfl⟩ | ⟨conn, d, -, -, hconn, hd, rfl⟩
  · exact Fed.after hfed
  · cases d with
    | goesOn conn' =>
      by_cases hi : s.links i = .served (s.server.connectlist listnum)
      · rw [hi] at hfed ⊢
        have hnow : Function.update s.server.conns (s.server.connectlist listnum) (some conn')
            (s.server.connectlist listnum) = some conn' := Function.update_self ..
        exact Fed.after (hfed.read hR hconn (hone i listnum outs rfl hpc hi conn hconn) hd hnow)
      · exact Fed.after (hother _ hi)
    | closes =>
      by_cases hi : s.links i = .served (s.server.connectlist listnum)
      · rw [hi] at hfed ⊢
        exact hfed.close (Function.update_self ..)
      · exact Fed.after (hother _ hi)
    | undefined => exact Fed.after hfed

theorem System.Inv.server (hs : s.Inv R) {u : NbServer}
    (hfed : ∀ i, Fed R u.conns (s.clients i) ((s.links i).after s.server.conns u.conns)) :
    System.Inv R
      { s with server := u, links := fun i => (s.links i).after s.server.conns u.conns } := by
  refine ⟨hs.clients, hs.nodup, ?_, ?_, hfed⟩
  · intro i hi
    dsimp only
    rw [hs.queued i hi]
    rfl
  · intro i j fd hi hj
    exact hs.distinct i j fd (Link.after_served hi) (Link.after_served hj)

theorem System.server_inv (hR : Nbserver.Piecewise R) (hs : s.Inv R) {e : Nbserver.Event}
    (hone : Copies R s (.server e)) (hown : isOwnStep e = true) {u : NbServer}
    (h : Nbserver.step s.server e = some u) : System.Inv R
      { s with server := u, links := fun i => (s.links i).after s.server.conns u.conns } := by
  refine hs.server fun i => ?_
  cases e with
  | select =>
    obtain ⟨-, rfl⟩ := Nbserver.step_select h
    exact (hs.fed i).after
  | read outs =>
    obtain ⟨listnum, hpc, h⟩ := Nbserver.step_read h
    exact hs.read_fed hR hone hpc h i
  | checkKeys esc =>
    obtain ⟨-, rfl⟩ := Nbserver.step_checkKeys h
    exact (hs.fed i).after
  | fails =>
    obtain ⟨-, rfl⟩ := Nbserver.step_fails h
    exact (hs.fed i).after
  | connect | arrive fd bytes | ends fd idle | accept connection => cases hown

theorem System.Inv.network (hs : s.Inv R) {u : NbServer} (hi : s.links i = .served fd)
    (hfed : Fed R u.conns (s.clients i) (.served fd))
    (hconns : ∀ fd', fd' ≠ fd → u.conns fd' = s.server.conns fd') :
    System.Inv R { s with server := u } := by
  refine ⟨hs.clients, hs.nodup, hs.queued, hs.distinct, ?_⟩
  intro j
  by_cases hj : s.links j = .served fd
  · cases hs.distinct i j fd hi hj
    dsimp only
    rw [hi]
    exact hfed
  · exact (hs.fed j).frame fun fd' hfd' => hconns fd' fun heq => hj (heq ▸ hfd')

theorem System.arrive_inv (hs : s.Inv R) {n : ℕ} (hi : s.links i = .served fd)
    (hconn : s.server.conns fd = some conn) {u : NbServer}
    (h : Nbserver.step s.server
      (.arrive fd (((s.clients i).sent.drop conn.arrived.length).take n)) = some u) :
    System.Inv R { s with server := u } := by
  obtain ⟨conn', hconn', rfl⟩ := Option.map_eq_some_iff.mp h
  cases hconn.symm.trans hconn'
  have hfed := hs.fed i
  rw [hi] at hfed
  obtain ⟨conn', hconn', harrived, hcopied, hread⟩ := hfed
  cases hconn.symm.trans hconn'
  refine hs.network hi ⟨_, Function.update_self .., ?_, hcopied.arrive _, hread⟩
    fun fd' hne => Function.update_of_ne hne ..
  obtain ⟨rest, hrest⟩ := harrived
  rw [← hrest, List.drop_left]
  exact (List.prefix_append_right_inj _).mpr (List.take_prefix _ _)

theorem System.ends_inv (hs : s.Inv R) {idle : Idle} (hi : s.links i = .served fd)
    {u : NbServer} (h : Nbserver.step s.server (.ends fd idle) = some u) :
    System.Inv R { s with server := u } := by
  obtain ⟨conn, hconn, rfl⟩ := Option.map_eq_some_iff.mp h
  have hfed := hs.fed i
  rw [hi] at hfed
  obtain ⟨conn', hconn', hrest⟩ := hfed
  cases hconn.symm.trans hconn'
  exact hs.network hi ⟨_, Function.update_self .., hrest⟩
    fun fd' hne => Function.update_of_ne hne ..

variable [DecidableEq ι]

theorem System.client_inv (hs : s.Inv R) {os : Platform} {p : Pass}
    (h : (s.clients i).step os (s.pending i) p = some c) :
    System.Inv R { s with clients := Function.update s.clients i c } := by
  refine ⟨?_, hs.nodup, hs.queued, hs.distinct, ?_⟩
  · exact (Function.forall_update_iff _ fun _ (c : NbClient) => c.Inv).mpr
      ⟨NbClient.step_inv (hs.clients i) h, fun j _ => hs.clients j⟩
  · exact (Function.forall_update_iff _ fun j c => Fed R s.server.conns c (s.links j)).mpr
      ⟨(hs.fed i).client (NbClient.step_sent h) (NbClient.step_received h), fun j _ => hs.fed j⟩

/-- Distinct clients have distinct connections, also after one of them has got a new one. -/
theorem served_update (hs : s.Inv R)
    (hnew : ∀ fd, l = .served fd → s.server.conns fd = none) :
    ∀ j k fd, Function.update s.links i l j = .served fd →
      Function.update s.links i l k = .served fd → j = k := by
  have hold : ∀ j fd, s.links j = .served fd → s.server.conns fd ≠ none := by
    intro j fd hj
    have hfed := hs.fed j
    rw [hj] at hfed
    exact hfed.isOpen
  intro j k fd hj hk
  by_cases hji : j = i
  · by_cases hki : k = i
    · exact hji.trans hki.symm
    · subst hji
      rw [Function.update_self] at hj
      rw [Function.update_of_ne hki] at hk
      exact absurd (hnew fd hj) (hold k fd hk)
  · rw [Function.update_of_ne hji] at hj
    by_cases hki : k = i
    · subst hki
      rw [Function.update_self] at hk
      exact absurd (hnew fd hk) (hold j fd hj)
    · rw [Function.update_of_ne hki] at hk
      exact hs.distinct j k fd hj hk

theorem System.connect_inv (hs : s.Inv R) (hi : s.links i = .idle) {u : NbServer}
    (h : Nbserver.step s.server .connect = some u) : System.Inv R { s with
      server := u, queue := s.queue ++ [i], links := Function.update s.links i .queued } := by
  cases h
  have hnot : ∀ j ∈ s.queue, j ≠ i := by
    rintro j hj rfl
    cases hi.symm.trans (hs.queued j hj)
  have hfed := hs.fed i
  rw [hi] at hfed
  refine ⟨hs.clients, ?_, ?_, ?_, ?_⟩
  · refine List.nodup_append.mpr ⟨hs.nodup, List.nodup_singleton i, ?_⟩
    intro j hj k hk
    rw [List.mem_singleton.mp hk]
    exact hnot j hj
  · intro j hj
    rcases List.mem_append.mp hj with hj | hj
    · exact (Function.update_of_ne (hnot j hj) ..).trans (hs.queued j hj)
    · rw [List.mem_singleton.mp hj]
      exact Function.update_self ..
  · exact served_update hs nofun
  · exact (Function.forall_update_iff _ fun j l => Fed R s.server.conns (s.clients j) l).mpr
      ⟨hfed, fun j _ => hs.fed j⟩

/-- The first client of the queue, whose connection was made or turned away. -/
theorem System.Inv.answered (hs : s.Inv R) {queue : List ι} (hqueue : s.queue = i :: queue)
    {u : NbServer} (hserved : ∀ fd, l = .served fd → s.server.conns fd = none)
    (hfed : Fed R u.conns (s.clients i) l)
    (hconns : ∀ fd, s.server.conns fd ≠ none → u.conns fd = s.server.conns fd) :
    System.Inv R
      { s with server := u, queue := queue, links := Function.update s.links i l } := by
  have hnodup := hs.nodup
  rw [hqueue] at hnodup
  obtain ⟨hnot, hnodup⟩ := List.nodup_cons.mp hnodup
  refine ⟨hs.clients, hnodup, ?_, served_update hs hserved, ?_⟩
  · intro j hj
    have hne : j ≠ i := by
      rintro rfl
      exact hnot hj
    refine (Function.update_of_ne hne ..).trans (hs.queued j ?_)
    rw [hqueue]
    exact List.mem_cons_of_mem _ hj
  · refine (Function.forall_update_iff _ fun j l => Fed R u.conns (s.clients j) l).mpr
      ⟨hfed, fun j _ => (hs.fed j).frame fun fd hfd => hconns fd ?_⟩
    have hopen := hs.fed j
    rw [hfd] at hopen
    exact hopen.isOpen

theorem System.accept_inv (hR : Nbserver.Piecewise R) (hs : s.Inv R) {queue : List ι}
    (hqueue : s.queue = i :: queue) {connection : ℕ} {u : NbServer}
    (h : Nbserver.step s.server (.accept connection) = some u)
    (hl : l = .served connection ∧ u.conns connection ≠ none ∨
      ∃ down, l = .refused down ∧ u.conns connection = none ∧ down <+: busyText) :
    System.Inv R
      { s with server := u, queue := queue, links := Function.update s.links i l } := by
  have hqueued := hs.fed i
  rw [hs.queued i (by rw [hqueue]; exact List.mem_cons_self)] at hqueued
  have hread : ∀ down, (s.clients i).received <+: down := by
    intro down
    rw [show (s.clients i).received = [] from hqueued]
    exact List.nil_prefix
  obtain ⟨-, -, -, hnew, rfl⟩ := Nbserver.step_accept h
  rcases Nbserver.handleNewConnection_cases s.server connection with
    ⟨k, -, -, heq⟩ | ⟨-, heq⟩
  · rw [heq] at hl ⊢
    have hnow : Function.update s.server.conns connection (some .fresh) connection = some .fresh :=
      Function.update_self ..
    rcases hl with ⟨rfl, -⟩ | ⟨down, -, hnone, -⟩
    · apply hs.answered hqueue
      · intro fd hfd
        cases hfd
        exact hnew
      · exact ⟨.fresh, hnow, List.nil_prefix, ⟨[], rfl, hR.nil⟩, hread _⟩
      · intro fd hfd
        apply Function.update_of_ne
        rintro rfl
        exact hfd hnew
    · cases hnow.symm.trans hnone
  · rw [heq] at hl ⊢
    rcases hl with ⟨-, hopen⟩ | ⟨down, rfl, -, hdown⟩
    · exact absurd hnew hopen
    · exact hs.answered hqueue nofun ⟨hdown, hread _⟩ fun fd _ => rfl

theorem System.step_cases {os : Platform} {e : Event ι} (h : s.step os e = some t) :
    (∃ i u, s.links i = .idle ∧ Nbserver.step s.server .connect = some u ∧
      t = { s with
        server := u, queue := s.queue ++ [i], links := Function.update s.links i .queued }) ∨
    (∃ i p c, e = .client i p ∧ (s.clients i).step os (s.pending i) p = some c ∧
      t = { s with clients := Function.update s.clients i c }) ∨
    (∃ i n fd conn u, s.links i = .served fd ∧ s.server.conns fd = some conn ∧
      Nbserver.step s.server
        (.arrive fd (((s.clients i).sent.drop conn.arrived.length).take n)) = some u ∧
      t = { s with server := u }) ∨
    (∃ i idle fd u, s.links i = .served fd ∧
      Nbserver.step s.server (.ends fd idle) = some u ∧ t = { s with server := u }) ∨
    (∃ i queue connection u l, s.queue = i :: queue ∧
      Nbserver.step s.server (.accept connection) = some u ∧
      (l = .served connection ∧ u.conns connection ≠ none ∨
        ∃ down, l = .refused down ∧ u.conns connection = none ∧ down <+: busyText) ∧
      t = { s with server := u, queue := queue, links := Function.update s.links i l }) ∨
    ∃ e' u, e = .server e' ∧ isOwnStep e' = true ∧ Nbserver.step s.server e' = some u ∧
      t = { s with server := u, links := fun i => (s.links i).after s.server.conns u.conns } := by
  cases e with
  | connect i =>
    left
    simp only [System.step] at h
    split_ifs at h with hi
    obtain ⟨u, hu, rfl⟩ := Option.map_eq_some_iff.mp h
    exact ⟨i, u, hi, hu, rfl⟩
  | client i p =>
    right; left
    simp only [System.step] at h
    split_ifs at h
    obtain ⟨c, hc, rfl⟩ := Option.map_eq_some_iff.mp h
    exact ⟨i, p, c, rfl, hc, rfl⟩
  | arrive i n =>
    right; right; left
    simp only [System.step] at h
    split at h
    · rename_i fd hi
      obtain ⟨conn, hconn, h⟩ := Option.bind_eq_some_iff.mp h
      obtain ⟨u, hu, rfl⟩ := Option.map_eq_some_iff.mp h
      exact ⟨i, n, fd, conn, u, hi, hconn, hu, rfl⟩
    · cases h
  | ends i idle =>
    right; right; right; left
    simp only [System.step] at h
    split at h
    · rename_i fd hi
      obtain ⟨u, hu, rfl⟩ := Option.map_eq_some_iff.mp h
      exact ⟨i, idle, fd, u, hi, hu, rfl⟩
    · cases h
  | accept connection outs =>
    right; right; right; right; left
    simp only [System.step, System.accept] at h
    split at h
    · cases h
    · rename_i i queue hqueue
      obtain ⟨u, hu, h⟩ := Option.bind_eq_some_iff.mp h
      split_ifs at h with hopen
      · cases h
        exact ⟨i, queue, connection, u, _, hqueue, hu,
          Or.inl ⟨rfl, Option.isSome_iff_ne_none.mp hopen⟩, rfl⟩
      · obtain ⟨w, hw, rfl⟩ := Option.map_eq_some_iff.mp h
        exact ⟨i, queue, connection, u, _, hqueue, hu,
          Or.inr ⟨w.1, rfl, by simpa using hopen, Nbserver.sockWriteLoop_takes hw⟩, rfl⟩
  | server e =>
    right; right; right; right; right
    simp only [System.step] at h
    split_ifs at h with hown
    obtain ⟨u, hu, rfl⟩ := Option.map_eq_some_iff.mp h
    exact ⟨e, u, rfl, hown, hu, rfl⟩

theorem System.step_inv (hR : Nbserver.Piecewise R) (hs : s.Inv R) {os : Platform} {e : Event ι}
    (hone : Copies R s e) (h : s.step os e = some t) : t.Inv R := by
  rcases System.step_cases h with ⟨i, u, hi, hu, rfl⟩ | ⟨i, p, c, rfl, hc, rfl⟩ |
    ⟨i, n, fd, conn, u, hi, hconn, hu, rfl⟩ | ⟨i, idle, fd, u, hi, hu, rfl⟩ |
    ⟨i, queue, connection, u, l, hqueue, hu, hl, rfl⟩ | ⟨e, u, rfl, hown, hu, rfl⟩
  · exact System.connect_inv hs hi hu
  · exact System.client_inv hs hc
  · exact System.arrive_inv hs hi hconn hu
  · exact System.ends_inv hs hi hu
  · exact System.accept_inv hR hs hqueue hu hl
  · exact System.server_inv hR hs hone hown hu

end

def Message.line (m : Message) : List Byte := m.data.dropLast

/-- The write, if there is one, accepts everything at once. -/
def AcceptsAll : List WriteOutcome → Prop
  | [] => True
  | .accepted n :: _ => Nbserver.myMxRcv + 1 ≤ n
  | .interrupted :: outs => AcceptsAll outs
  | .failed :: _ => False

instance AcceptsAll.decidable : ∀ outs, Decidable (AcceptsAll outs)
  | [] => inferInstanceAs (Decidable True)
  | .accepted n :: _ => inferInstanceAs (Decidable (Nbserver.myMxRcv + 1 ≤ n))
  | .interrupted :: outs => AcceptsAll.decidable outs
  | .failed :: _ => inferInstanceAs (Decidable False)

/-- A message is taken whole, and so is a reply. -/
def Whole (s : System ι) : Event ι → Prop
  | .client i p => ∀ m ∈ (s.clients i).message p, m.data.length ≤ m.wlen
  | .server (.read outs) => AcceptsAll outs
  | _ => True

def System.SentWhole (s : System ι) : Prop :=
  ∀ i, ∀ m ∈ (s.clients i).messages, m.data.length ≤ m.wlen

/-- The client was told that there is no slot for it. -/
def System.Refused (s : System ι) (i : ι) : Prop :=
  ∃ down, s.links i = .refused down ∧ down <+: busyText ∧ (s.clients i).received <+: down

section
variable {R : List Byte → List Byte → Prop} {s t : System ι} {i : ι} {m : Message}

theorem Message.data_eq (m : Message) : m.data = m.line ++ [lf] ∧ lf ∉ m.line := by
  have hend : " - Hello server!\n".toList.map charByte =
      " - Hello server!".toList.map charByte ++ [lf] := by decide
  have htext : (": " ++ toString m.number ++ " - Hello server!\n").toList.map charByte =
      (": " ++ toString m.number).toList.map charByte ++
        " - Hello server!\n".toList.map charByte := by
    rw [String.toList_append, List.map_append]
  have hsplit : m.data = (datetimeStg m.tmr ++ ((": " ++ toString m.number).toList.map charByte ++
      " - Hello server!".toList.map charByte)) ++ [lf] := by
    rw [List.append_assoc, List.append_assoc, ← hend, ← htext]
    rfl
  have hdata : m.data = m.line ++ [lf] := by
    rw [Message.line, hsplit, List.dropLast_concat]
  refine ⟨hdata, ?_⟩
  have hcount : m.data.count lf = 1 := SimpClient.count_message m.number
  rw [hdata, List.count_append, List.count_singleton_self] at hcount
  exact List.count_eq_zero.mp (by omega)

theorem Message.line_length (h : m.number < 2 ^ 31) : m.line.length ≤ 100 := by
  have hlen := message_length_le m.tmr h
  rw [Message.line, List.length_dropLast]
  unfold Message.data
  omega

theorem sockWrite_whole {buf : List Byte} {outs : List WriteOutcome} {w : List Byte × ℤ}
    (houts : AcceptsAll outs) (hbuf : buf ≠ []) (hlen : buf.length ≤ Nbserver.myMxRcv + 1)
    (h : sockWrite buf outs = some w) : w.1 = buf := by
  induction outs with
  | nil =>
    cases buf with
    | nil => exact absurd rfl hbuf
    | cons b bs => cases h
  | cons o outs ih =>
    cases o with
    | accepted n =>
      rw [sockWrite_accepted hbuf (hlen.trans houts)] at h
      cases h
      rfl
    | interrupted =>
      refine ih houts ?_
      cases buf with
      | nil => exact absurd rfl hbuf
      | cons b bs => exact h
    | failed => cases houts

theorem copies_sublist (s : System ι) (e : Event ι) : Copies List.Sublist s e :=
  fun _ listnum outs _ hpc _ conn hconn w hw =>
    Nbserver.writes_sublist s.server (.read outs) outs listnum rfl hpc conn hconn w hw

theorem sent_eq {c : NbClient} (hwhole : ∀ m ∈ c.messages, m.data.length ≤ m.wlen) :
    c.sent = c.messages.flatMap Message.data ∧
      c.sent = joinLines lf (c.messages.map Message.line) := by
  have hdata : c.sent = c.messages.flatMap Message.data := by
    exact List.flatMap_congr fun m hm => List.take_of_length_le (hwhole m hm)
  refine ⟨hdata, ?_⟩
  rw [hdata, joinLines, List.flatMap_map]
  exact List.flatMap_congr fun m _ => m.data_eq.1

theorem System.Inv.line_length (hs : s.Inv R) (hwhole : s.SentWhole) {fd : ℕ}
    {conn : Conn} (hi : s.links i = .served fd) (hconn : s.server.conns fd = some conn) :
    conn.line.length ≤ 100 := by
  have hfed := hs.fed i
  rw [hi] at hfed
  obtain ⟨conn', hconn', harrived, ⟨got, hgot, -⟩, -⟩ := hfed
  cases hconn.symm.trans hconn'
  have hline : conn.line <:+: conn.arrived := by
    rw [hgot]
    exact (List.takeWhile_prefix _).isInfix.trans (List.suffix_append _ _).isInfix
  refine infix_joinLines_length ?_ (Nbserver.lf_notMem_line conn)
    ((sent_eq (hwhole i)).2 ▸ hline.trans harrived.isInfix)
  intro l hl
  obtain ⟨m, hm, rfl⟩ := List.mem_map.mp hl
  exact m.line_length (((hs.clients i).numbered m hm).2.trans_lt (hs.clients i).isInt)

theorem copies_eq (hs : s.Inv R) (hwhole : s.SentWhole) {e : Event ι} (he : Whole s e) :
    Copies (· = ·) s e := by
  rintro i listnum outs rfl - hi conn hconn w hw
  have hlen := hs.line_length hwhole hi hconn
  have hlf := Nbserver.lf_notMem_line conn
  have htake : conn.line.take Nbserver.myMxRcv = conn.line :=
    List.take_of_length_le (hlen.trans (by decide))
  rw [htake] at hw
  have hreply := Nbserver.respond_eq hlf
  have hw1 : w.1 = Nbserver.respond conn.line := by
    refine sockWrite_whole he ?_ ?_ hw
    · rw [hreply]
      exact List.concat_ne_nil _ _
    · rw [hreply, List.length_append, List.length_map, List.length_singleton, Nbserver.myMxRcv]
      omega
  rw [hw1, Nbserver.text_respond hlf]

/-- What a client has read is a first part of what the relation allows for a first part of what it
has sent, or of what it is told without a slot. -/
theorem System.Inv.received (hR : R [] []) (hs : s.Inv R) (i : ι) : s.Refused i ∨
    ∃ down got, (s.clients i).received <+: down ∧ got <+: (s.clients i).sent ∧
      R (text down) ((text got).map toupper) := by
  have hfed := hs.fed i
  cases hl : s.links i with
  | idle | queued =>
    rw [hl] at hfed
    refine Or.inr ⟨[], [], ?_, List.nil_prefix, hR⟩
    rw [show (s.clients i).received = [] from hfed]
  | served fd =>
    rw [hl] at hfed
    obtain ⟨conn, -, harrived, ⟨got, hgot, hcopied⟩, hread⟩ := hfed
    rw [hgot] at harrived
    exact Or.inr ⟨conn.sent, got, hread, (List.prefix_append _ _).trans harrived, hcopied⟩
  | closed down =>
    rw [hl] at hfed
    obtain ⟨⟨got, hgot, hcopied⟩, hread⟩ := hfed
    exact Or.inr ⟨down, got, hread, hgot, hcopied⟩
  | refused down =>
    rw [hl] at hfed
    exact Or.inl ⟨down, hl, hfed.1, hfed.2⟩

theorem text_initial {bs cs : List Byte} (h : bs <+: cs) : text bs <+: text cs := by
  obtain ⟨rest, rfl⟩ := h
  rw [Nbserver.text_append]
  exact List.prefix_append _ _

theorem System.start_inv (R : List Byte → List Byte → Prop) (sock : ℕ) :
    (System.start (ι := ι) sock).Inv R :=
  ⟨fun _ => NbClient.start_inv, List.nodup_nil, nofun, nofun, fun _ => rfl⟩

variable [DecidableEq ι]

theorem sentWhole_step {os : Platform} {e : Event ι} (hwhole : s.SentWhole) (he : Whole s e)
    (h : s.step os e = some t) : t.SentWhole := by
  rcases System.step_cases h with ⟨i, u, -, -, rfl⟩ | ⟨i, p, c, rfl, hc, rfl⟩ |
    ⟨i, n, fd, conn, u, -, -, -, rfl⟩ | ⟨i, idle, fd, u, -, -, rfl⟩ |
    ⟨i, queue, connection, u, l, -, -, -, rfl⟩ | ⟨e, u, rfl, -, -, rfl⟩
  · exact hwhole
  · refine (Function.forall_update_iff _ fun _ (c : NbClient) =>
      ∀ m ∈ c.messages, m.data.length ≤ m.wlen).mpr ⟨?_, fun j _ => hwhole j⟩
    intro m hm
    rcases NbClient.step_messages hc with hsame | hmore
    · rw [hsame] at hm
      exact hwhole i m hm
    · rw [hmore] at hm
      rcases List.mem_append.mp hm with hm | hm
      · exact hwhole i m hm
      · exact he m hm
  -- Nothing but a pass of a client changes the messages.
  · exact hwhole
  · exact hwhole
  · exact hwhole
  · exact hwhole

end

/-- In every run of any number of `nbclient` and one `nbserver`, however the bytes come in pieces,
whatever the calls take and whoever closes: linefeeds apart, what a client has read is a selection
of its own messages, in upper case and in order, or a first part of what a client without a slot is
told. If messages and replies are taken whole, it is a first part of its own messages, in upper
case. A client numbers its messages upwards, and sends one more only for each byte read, or report
of an empty read from the third on, that it is ahead by. -/
theorem clients_served [DecidableEq ι] (os : Platform) (sock : ℕ) (es : List (Event ι))
    {s : System ι} (hr : runs (System.step os) (.start sock) es = some s) (i : ι) :
    (s.Refused i ∨ (text (s.clients i).received).Sublist
      ((text (s.clients i).sent).map toupper)) ∧
    (AllSteps (System.step os) Whole (.start sock) es →
      s.Refused i ∨ text (s.clients i).received <+:
        (text ((s.clients i).messages.flatMap Message.data)).map toupper) ∧
    (s.clients i).messages.Pairwise (·.number < ·.number) ∧
    (s.clients i).messages.length ≤
      (s.clients i).received.length + ((s.clients i).client.nulReadCnt - (writeAfter - 1)) + 1 := by
  have hinv : s.Inv List.Sublist :=
    runs_invariant (System.Inv List.Sublist)
      (fun s e _ hs h => System.step_inv Nbserver.piecewise_sublist hs (copies_sublist s e) h)
      (System.start_inv List.Sublist sock) hr
  refine ⟨?_, ?_, (hinv.clients i).ordered, (hinv.clients i).messages_le⟩
  · apply (hinv.received (List.Sublist.refl []) i).imp_right
    intro hread
    obtain ⟨down, got, hread, hgot, hcopied⟩ := hread
    have hdown : (text (s.clients i).received).Sublist (text down) :=
      (text_initial hread).sublist
    exact (hdown.trans hcopied).trans ((text_initial hgot).sublist.map _)
  · intro hall
    have hstep : ∀ (s : System ι) (e : Event ι) (t : System ι),
        System.Inv (· = ·) s ∧ s.SentWhole → Whole s e → s.step os e = some t →
        System.Inv (· = ·) t ∧ t.SentWhole := by
      intro s e t hs he h
      exact ⟨System.step_inv Nbserver.piecewise_eq hs.1 (copies_eq hs.1 hs.2 he) h,
        sentWhole_step hs.2 he h⟩
    obtain ⟨hinv, hwhole⟩ :=
      hall.invariant hstep ⟨System.start_inv (· = ·) sock, fun _ => nofun⟩ hr
    apply (hinv.received rfl i).imp_right
    intro hread
    obtain ⟨down, got, hread, hgot, hcopied⟩ := hread
    have hdown := text_initial hread
    rw [hcopied] at hdown
    rw [← (sent_eq (hwhole i)).1]
    exact hdown.trans ((text_initial hgot).map _)

instance (s : System ι) : ∀ e, Decidable (Whole s e)
  | .client i p => inferInstanceAs (Decidable (∀ m ∈ (s.clients i).message p, _))
  | .server (.read outs) => AcceptsAll.decidable outs
  | .connect _ | .arrive _ _ | .ends _ _ | .accept _ _ | .server .connect | .server (.arrive _ _)
  | .server (.ends _ _) | .server .select | .server (.accept _) | .server (.checkKeys _)
  | .server .fails => inferInstanceAs (Decidable True)

/-- A pass without keys that reads what there is of `rlen` bytes, or nothing yet. -/
def samplePass (read : ReadResult) (rlen : ℕ) : Pass where
  turn := ⟨'\x00', ('\x00', '\x00', '\x00'), '\x00', .sent, read⟩
  tmr := ⟨1, 0, 100, 0, 0, 0⟩
  wlen := 40
  rlen := rlen

/-- One client sends a message, which comes in two pieces, and reads a part of the reply. -/
def sampleRun : List (Event Unit) :=
  [.connect (), .client () (samplePass .again 0), .server .select, .accept 4 [], .arrive () 7,
    .server (.read []), .server (.read []), .server (.read []), .server (.read []),
    .server (.read []), .server (.checkKeys false), .server .select,
    .server (.read [.accepted 200]), .arrive () 40, .server (.read []), .server (.read []),
    .server (.read []), .server (.read []), .server (.checkKeys false), .server .select,
    .server (.read [.interrupted, .accepted 200]), .client () (samplePass .data 41)]

theorem clients_served_sample : ∃ s, runs (System.step .unix) (.start 3) sampleRun = some s ∧
    (s.clients ()).received.length = 41 ∧
    (s.Refused () ∨ text (s.clients ()).received <+:
      (text ((s.clients ()).messages.flatMap Message.data)).map toupper) := by
  have hrun : (runs (System.step .unix) (.start 3) sampleRun).map
      (fun s => (s.clients ()).received.length) = some 41 := by decide +kernel
  obtain ⟨s, hs, hlen⟩ := Option.map_eq_some_iff.mp hrun
  exact ⟨s, hs, hlen, (clients_served .unix 3 sampleRun hs ()).2.1 (by decide +kernel)⟩

end TcpTests.Nbclient
