import Mathlib.Data.List.Range
import TcpTests.Lib.Machine

/-! `get_connection` of `sockhelp`, which forks: a system of processes that step in any order. A
process that has returned from the function, or has ended, takes no more steps. -/
namespace TcpTests.Sockhelp
open Lib

inductive Pc
  | socket
  | bind
  | accept
  | fork
  | parent
  | child
  | returned
  | exited
  deriving DecidableEq, Repr

/-- The descriptors that a process has open, and the variable of its caller for the listening
socket, unless the pointer is null. A connection is named by how many were accepted before. -/
structure Process where
  pc : Pc
  listening : Bool
  connected : Option ℕ
  listener : Option Bool
  deriving DecidableEq, Repr

/-- What a system call comes to; a call that is interrupted is `accept`. -/
inductive Outcome
  | ok
  | failed
  | interrupted
  deriving DecidableEq, Repr

/-- The process after its next system call, and the process that it creates. `next` is the
connection that waits to be accepted. -/
def Process.step (stream : Bool) (next : ℕ) (p : Process) (o : Outcome) :
    Option (Process × Option Process) :=
  let exit := { p with listening := false, connected := none, pc := .exited }
  match p.pc, o with
  | .socket, .ok =>
    some ({ p with listening := true, listener := p.listener.map fun _ => true, pc := .bind }, none)
  | .socket, .failed => some (exit, none)
  | .bind, .ok => some ({ p with pc := if stream then .accept else .returned }, none)
  | .bind, .failed => some (exit, none)
  | .accept, .ok => some ({ p with connected := some next, pc := .fork }, none)
  | .accept, .failed => some (exit, none)
  | .accept, .interrupted => some (p, none)
  | .fork, .ok => some ({ p with pc := .parent }, some { p with pc := .child })
  | .fork, .failed => some ({ p with connected := none, pc := .accept }, none)
  | .parent, .ok => some ({ p with connected := none, pc := .accept }, none)
  | .child, .ok =>
    some ({ p with listening := false, listener := p.listener.map fun _ => false, pc := .returned },
      none)
  | _, _ => none

/-- The process that called the function, and those that it created, the first one first. -/
structure System where
  caller : Process
  children : List Process
  accepted : ℕ
  dropped : List ℕ

/-- The caller wants to know the listening socket or not. -/
def System.start (listener : Bool) : System where
  caller := ⟨.socket, false, none, if listener then some false else none⟩
  children := []
  accepted := 0
  dropped := []

/-- Which process steps: the caller, or one of the others. -/
inductive Event
  | caller (o : Outcome)
  | child (i : ℕ) (o : Outcome)

/-- A process that does not fork steps alone. A fork that fails drops the connection. -/
def step (stream : Bool) (s : System) : Event → Option System
  | .caller o =>
    (s.caller.step stream s.accepted o).map fun (p, new) =>
      { caller := p
        children := s.children ++ new.toList
        accepted := if s.caller.pc = .accept ∧ o = .ok then s.accepted + 1 else s.accepted
        dropped := if s.caller.pc = .fork ∧ o = .failed then s.dropped ++ s.caller.connected.toList
          else s.dropped }
  | .child i o =>
    (s.children[i]?).bind fun p =>
      (p.step stream s.accepted o).map fun (p, new) =>
        { s with children := s.children.set i p ++ new.toList }

/-- What is true of the process that called the function. -/
def Process.Caller (stream : Bool) (accepted : ℕ) (p : Process) : Prop :=
  match p.pc with
  | .socket => p.connected = none ∧ p.listening = false
  | .bind => p.connected = none ∧ p.listening = true
  | .accept => stream = true ∧ p.connected = none ∧ p.listening = true
  | .fork | .parent =>
    stream = true ∧ p.listening = true ∧ ∃ c, p.connected = some c ∧ c + 1 = accepted
  | .child => False
  | .returned => stream = false ∧ p.connected = none ∧ p.listening = true
  | .exited => p.connected = none ∧ p.listening = false

/-- And of a process that was created for a connection. -/
def Process.Child (p : Process) : Prop :=
  p.pc = .child ∨ (p.pc = .returned ∧ p.listening = false ∧ p.listener ≠ some true)

def System.pending (s : System) : List ℕ :=
  if s.caller.pc = .fork then s.caller.connected.toList else []

/-- Every connection that was accepted was handed to one process, was dropped, or waits. -/
structure System.Inv (stream : Bool) (handed : List ℕ) (s : System) : Prop where
  caller : s.caller.Caller stream s.accepted
  children : ∀ p ∈ s.children, p.Child
  connected : s.children.map (·.connected) = handed.map some
  once : (handed ++ (s.dropped ++ s.pending)).Perm (List.range s.accepted)
  datagram : stream = false → s.accepted = 0

section
variable {stream : Bool} {handed : List ℕ} {s t : System} {p q : Process} {o : Outcome}
  {next i : ℕ} {new : Option Process} {e : Event}

theorem System.Inv.start (stream listener : Bool) : (System.start listener).Inv stream [] where
  caller := ⟨rfl, rfl⟩
  children := nofun
  connected := rfl
  once := List.Perm.refl _
  datagram := fun _ => rfl

/-- A created process only closes its copy of the listening socket. -/
theorem child_step (hp : p.Child) (h : p.step stream next o = some (q, new)) :
    q.Child ∧ q.connected = p.connected ∧ new = none := by
  rcases hp with hpc | ⟨hpc, -⟩
  · cases o with
    | ok =>
      simp only [Process.step, hpc] at h
      cases h
      refine ⟨Or.inr ⟨rfl, rfl, ?_⟩, rfl, rfl⟩
      cases p.listener <;> simp
    | failed =>
      simp only [Process.step, hpc] at h
      cases h
    | interrupted =>
      simp only [Process.step, hpc] at h
      cases h
  · simp only [Process.step, hpc] at h
    cases h

theorem child_event (hs : s.Inv stream handed) (h : step stream s (.child i o) = some t) :
    t.Inv stream handed := by
  simp only [step] at h
  obtain ⟨p, hp, h⟩ := Option.bind_eq_some_iff.mp h
  obtain ⟨⟨q, new⟩, hq, rfl⟩ := Option.map_eq_some_iff.mp h
  have hmem : p ∈ s.children := List.mem_of_getElem? hp
  obtain ⟨hchild, hsame, rfl⟩ := child_step (hs.children p hmem) hq
  obtain ⟨hi, hget⟩ := List.getElem?_eq_some_iff.mp hp
  refine ⟨hs.caller, ?_, ?_, hs.once, hs.datagram⟩
  · intro r hr
    rw [Option.toList_none, List.append_nil] at hr
    rcases List.mem_or_eq_of_mem_set hr with hr | rfl
    · exact hs.children r hr
    · exact hchild
  · have hself : (s.children.map (·.connected)).set i q.connected =
        s.children.map (·.connected) := by
      have hi' : i < (s.children.map (·.connected)).length := by rwa [List.length_map]
      have hconn : q.connected = (s.children.map (·.connected))[i] := by
        rw [hsame, List.getElem_map, hget]
      rw [hconn, List.set_getElem_self hi']
    rw [Option.toList_none, List.append_nil, List.map_set, hself]
    exact hs.connected

theorem caller_step (hp : p.Caller stream next) (h : p.step stream next o = some (q, new)) :
    (new = none ∧ p.pc ≠ .fork ∧ q.pc ≠ .fork ∧ ¬ (p.pc = .accept ∧ o = .ok) ∧
      q.Caller stream next) ∨
    (p.pc = .accept ∧ o = .ok ∧ new = none ∧
      q = { p with connected := some next, pc := .fork }) ∨
    (p.pc = .fork ∧ o = .failed ∧ new = none ∧ q = { p with connected := none, pc := .accept }) ∨
    (p.pc = .fork ∧ o = .ok ∧ new = some { p with pc := .child } ∧
      q = { p with pc := .parent }) := by
  obtain ⟨pc, listening, connected, listener⟩ := p
  have hexit : ∀ (q : Process) (new : Option Process),
      some ((⟨.exited, false, none, listener⟩ : Process), none) =
      some (q, new) → new = none ∧ q.pc ≠ .fork ∧ q.Caller stream next := by
    intro q new h
    cases h
    exact ⟨rfl, nofun, rfl, rfl⟩
  cases pc with
  | socket =>
    cases o with
    | ok =>
      cases h
      exact Or.inl ⟨rfl, nofun, nofun, nofun, hp.1, rfl⟩
    | failed =>
      obtain ⟨hnew, hpc, hq⟩ := hexit q new h
      exact Or.inl ⟨hnew, nofun, hpc, nofun, hq⟩
    | interrupted => cases h
  | bind =>
    cases o with
    | ok =>
      cases h
      refine Or.inl ⟨rfl, nofun, ?_, nofun, ?_⟩
      · cases stream <;> exact nofun
      · cases stream with
        | false => exact ⟨rfl, hp⟩
        | true => exact ⟨rfl, hp⟩
    | failed =>
      obtain ⟨hnew, hpc, hq⟩ := hexit q new h
      exact Or.inl ⟨hnew, nofun, hpc, nofun, hq⟩
    | interrupted => cases h
  | accept =>
    cases o with
    | ok =>
      cases h
      exact Or.inr (Or.inl ⟨rfl, rfl, rfl, rfl⟩)
    | failed =>
      obtain ⟨hnew, hpc, hq⟩ := hexit q new h
      exact Or.inl ⟨hnew, nofun, hpc, nofun, hq⟩
    | interrupted =>
      cases h
      exact Or.inl ⟨rfl, nofun, nofun, nofun, hp⟩
  | fork =>
    cases o with
    | ok =>
      cases h
      exact Or.inr (Or.inr (Or.inr ⟨rfl, rfl, rfl, rfl⟩))
    | failed =>
      cases h
      exact Or.inr (Or.inr (Or.inl ⟨rfl, rfl, rfl, rfl⟩))
    | interrupted => cases h
  | parent =>
    cases o with
    | ok =>
      cases h
      exact Or.inl ⟨rfl, nofun, nofun, nofun, hp.1, rfl, hp.2.1⟩
    | failed => cases h
    | interrupted => cases h
  | child => exact hp.elim
  | returned => cases o <;> cases h
  | exited => cases o <;> cases h

theorem caller_event (hs : s.Inv stream handed) (h : step stream s (.caller o) = some t) :
    ∃ handed', t.Inv stream handed' := by
  simp only [step] at h
  obtain ⟨⟨q, new⟩, hq, rfl⟩ := Option.map_eq_some_iff.mp h
  obtain ⟨hcaller, hchildren, hconnected, honce, hdatagram⟩ := hs
  unfold System.pending at honce
  rcases caller_step hcaller hq with ⟨rfl, hfork, hfork', haccept, hq⟩ | ⟨hpc, rfl, rfl, rfl⟩ |
    ⟨hpc, rfl, rfl, rfl⟩ | ⟨hpc, rfl, rfl, rfl⟩
  · refine ⟨handed, ?_, ?_, ?_, ?_, ?_⟩
    · simpa [haccept] using hq
    · simpa using hchildren
    · simpa using hconnected
    · simpa [System.pending, haccept, hfork, hfork'] using honce
    · simpa [haccept] using hdatagram
  · unfold Process.Caller at hcaller
    rw [hpc] at hcaller
    obtain ⟨hstream, -, hlistening⟩ := hcaller
    refine ⟨handed, ?_, ?_, ?_, ?_, ?_⟩
    · simpa [Process.Caller, hpc] using ⟨hstream, hlistening⟩
    · simpa using hchildren
    · simpa using hconnected
    · have hrange : List.range (s.accepted + 1) = List.range s.accepted ++ [s.accepted] :=
        List.range_succ
      simp only [hpc, reduceCtorEq, if_false, List.append_nil] at honce
      simp only [System.pending, hpc, hrange, and_self, if_true, reduceCtorEq, if_false,
        Option.toList_some]
      rw [← List.append_assoc]
      exact honce.append_right _
    · exact fun h => absurd (hstream.symm.trans h) nofun
  · unfold Process.Caller at hcaller
    rw [hpc] at hcaller
    obtain ⟨hstream, hlistening, c, hc, hcount⟩ := hcaller
    refine ⟨handed, ?_, ?_, ?_, ?_, ?_⟩
    · simpa [Process.Caller, hpc] using ⟨hstream, hlistening⟩
    · simpa using hchildren
    · simpa using hconnected
    · simp only [hpc, if_true] at honce
      simpa [System.pending, hpc] using honce
    · exact fun h => absurd (hstream.symm.trans h) nofun
  · unfold Process.Caller at hcaller
    rw [hpc] at hcaller
    obtain ⟨hstream, hlistening, c, hc, hcount⟩ := hcaller
    refine ⟨handed ++ [c], ?_, ?_, ?_, ?_, ?_⟩
    · simpa [Process.Caller, hpc] using ⟨hstream, hlistening, c, hc, hcount⟩
    · intro p hp
      rcases List.mem_append.mp hp with hp | hp
      · exact hchildren p hp
      · have hnew : p = { s.caller with pc := .child } := List.mem_singleton.mp hp
        rw [hnew]
        exact Or.inl rfl
    · rw [List.map_append, hconnected, List.map_append]
      simp [hc]
    · simp only [hpc, if_true, hc, Option.toList_some] at honce
      simp only [System.pending, hpc, reduceCtorEq, false_and, if_false, List.append_nil, and_false]
      refine List.Perm.trans ?_ honce
      rw [List.append_assoc]
      exact List.Perm.append_left _ List.perm_append_comm
    · exact fun h => absurd (hstream.symm.trans h) nofun

theorem step_inv (hs : s.Inv stream handed) (h : step stream s e = some t) :
    ∃ handed', t.Inv stream handed' := by
  cases e with
  | caller o => exact caller_event hs h
  | child i o => exact ⟨handed, child_event hs h⟩

theorem runs_inv {es : List Event} {listener : Bool}
    (h : runs (step stream) (System.start listener) es = some s) :
    ∃ handed, s.Inv stream handed :=
  runs_invariant (fun s => ∃ handed, s.Inv stream handed)
    (fun _ _ _ ⟨_, hs⟩ h => step_inv hs h) ⟨[], System.Inv.start stream listener⟩ h

theorem System.Inv.children_eq_nil (hs : s.Inv stream handed) (hdatagram : stream = false) :
    s.children = [] := by
  have hlen : s.children.length = handed.length := by
    have hlen := congrArg List.length hs.connected
    rwa [List.length_map, List.length_map] at hlen
  have hcount := hs.once.length_eq
  rw [hs.datagram hdatagram, List.length_append, List.length_range] at hcount
  have hzero : s.children.length = 0 := by omega
  exact List.eq_nil_of_length_eq_zero hzero

/-- The caller of a stream socket never returns, and waits for the next connection with no other
one open. Each accepted connection belongs to one process, was dropped as `fork` failed, or is the
one that `fork` is called for. A process that returns does not have the listening socket, nor does
the variable of its caller say so. -/
theorem get_connection_owners (stream listener : Bool) (es : List Event)
    (h : runs (step stream) (System.start listener) es = some s) :
    (stream = true → s.caller.pc ≠ .returned) ∧
    (s.caller.pc = .accept → s.caller.listening = true ∧ s.caller.connected = none) ∧
    (∀ p ∈ s.children, p.pc = .returned → p.listening = false ∧ p.listener ≠ some true) ∧
    (stream = false → s.children = []) ∧
    ∃ handed : List ℕ, s.children.map (·.connected) = handed.map some ∧
      (handed ++ (s.dropped ++ s.pending)).Perm (List.range s.accepted) := by
  obtain ⟨handed, hs⟩ := runs_inv h
  have hcaller := hs.caller
  unfold Process.Caller at hcaller
  refine ⟨?_, ?_, ?_, hs.children_eq_nil, handed, hs.connected, hs.once⟩
  · intro hstream hpc
    rw [hpc] at hcaller
    exact absurd (hstream.symm.trans hcaller.1) nofun
  · intro hpc
    rw [hpc] at hcaller
    exact ⟨hcaller.2.2, hcaller.2.1⟩
  · intro p hp hpc
    rcases hs.children p hp with hchild | ⟨-, hclosed⟩
    · exact absurd (hpc.symm.trans hchild) nofun
    · exact hclosed

/-- The second `fork` fails, and the first process has returned. -/
theorem get_connection_owners_fork : ∃ s, runs (step true) (System.start true)
    [.caller .ok, .caller .ok, .caller .ok, .caller .ok, .caller .ok, .caller .ok, .child 0 .ok,
      .caller .failed, .caller .interrupted] = some s ∧
      s.children.map (·.connected) = [some 0] ∧ s.dropped = [1] ∧
      ∀ p ∈ s.children, p.pc = .returned → p.listening = false ∧ p.listener ≠ some true := by
  refine ⟨_, rfl, rfl, rfl, ?_⟩
  exact (get_connection_owners true true
    [.caller .ok, .caller .ok, .caller .ok, .caller .ok, .caller .ok, .caller .ok, .child 0 .ok,
      .caller .failed, .caller .interrupted] rfl).2.2.1

end

end TcpTests.Sockhelp
