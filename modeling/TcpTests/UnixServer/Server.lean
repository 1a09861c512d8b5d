import Mathlib.Data.Finset.Lattice.Fold
import Mathlib.Data.Finset.Max
import Mathlib.Order.Bounds.Basic
import TcpTests.Lib.Machine
import TcpTests.Lib.Memory
import TcpTests.Lib.Table

/-! `unix_server`: the select loop of `main`, with the loops inside it that accept, receive and
echo. The machine takes one step for each call of the operating system and for each turn of
the loops over descriptors. -/
namespace TcpTests.UnixServer
open Lib

/-- The size of `buffer`. -/
def bufferSize : ℕ := 80

def fdSetsize : ℕ := 1024

structure Timeval where
  tvSec : ℕ
  tvUsec : ℕ
  deriving DecidableEq

/-- What `recv` has delivered on a connection, and what `send` has accepted on it. -/
structure Conn where
  received : List Byte
  sent : List Byte
  deriving DecidableEq

def Conn.fresh : Conn := ⟨[], []⟩

/-- Where the server stands. `send` is reached with `len`, the bytes received. -/
inductive Pc
  | select
  | scan
  | accept
  | recv
  | send (len : ℕ)
  | close
  | loopTest
  | cleanUp
  | returned
  | undefined
  deriving DecidableEq

/-- The variables of `main`, and the sockets. `conns` are the connections that are open and
`closed` those that were closed. `served` lists the descriptors that the current pass has found
ready, and `sclosed` the arguments of `SCLOSE`. -/
structure Server where
  listenSd : ℕ
  masterSet : Finset ℕ
  workingSet : Finset ℕ
  maxSd : ℕ
  timeout : Timeval
  i : ℕ
  descReady : ℕ
  buffer : List Byte
  closeConn : Bool
  endServer : Bool
  pc : Pc
  listening : Bool
  conns : ℕ → Option Conn
  closed : List Conn
  served : List ℕ
  sclosed : List ℕ

/-- The product with `server_timeout` is an `unsigned int`. -/
def Server.start (listenSd serverTimeout : ℕ) (buffer : List Byte) : Server where
  listenSd := listenSd
  masterSet := {listenSd}
  workingSet := ∅
  maxSd := listenSd
  timeout := ⟨serverTimeout * 60 % 2 ^ 32, 0⟩
  i := 0
  descReady := 0
  buffer := buffer
  closeConn := false
  endServer := false
  pc := .select
  listening := true
  conns := fun _ => none
  closed := []
  served := []
  sclosed := []

inductive SelectOutcome
  | failed
  | timedOut
  | ready (set : Finset ℕ) (left : Timeval)

inductive AcceptOutcome
  | accepted (newSd : ℕ)
  | wouldBlock
  | failed

inductive RecvOutcome
  | received (bytes : List Byte)
  | closed
  | wouldBlock
  | failed

inductive SendOutcome
  | accepted (n : ℕ)
  | failed

def Server.isOpen (s : Server) (sd : ℕ) : Bool :=
  (s.listening && sd == s.listenSd) || (s.conns sd).isSome

/-- What is ready is a part of the set, and `select` stores the time that is left. -/
def Server.select (s : Server) : SelectOutcome → Option Server
  | .failed => some { s with workingSet := s.masterSet, i := 0, pc := .cleanUp }
  | .timedOut =>
    some { s with workingSet := ∅, timeout := ⟨0, 0⟩, i := 0, pc := .cleanUp }
  | .ready set left =>
    if set ≠ ∅ ∧ set ⊆ s.masterSet ∧ ∀ sd ∈ set, sd < s.maxSd + 1 then
      some { s with
        workingSet := set
        timeout := left
        descReady := set.card
        i := 0
        served := []
        pc := .scan }
    else none

def Server.scan (s : Server) : Server :=
  if s.i ≤ s.maxSd ∧ s.descReady > 0 then
    if s.i ∈ s.workingSet then
      let s := { s with descReady := s.descReady - 1, served := s.served ++ [s.i] }
      if s.i = s.listenSd then { s with pc := .accept }
      else { s with closeConn := false, pc := .recv }
    else { s with i := s.i + 1 }
  else { s with pc := .loopTest }

def Server.next (s : Server) : Server := { s with i := s.i + 1, pc := .scan }

/-- An accepted descriptor was not open and is below `FD_SETSIZE`. -/
def Server.accept (s : Server) : AcceptOutcome → Option Server
  | .accepted newSd =>
    if s.isOpen newSd = false ∧ newSd < fdSetsize then
      some { s with
        conns := Function.update s.conns newSd (some .fresh)
        masterSet := insert newSd s.masterSet
        maxSd := if newSd > s.maxSd then newSd else s.maxSd }
    else none
  | .wouldBlock => some s.next
  | .failed => some { s.next with endServer := true }

/-- The bytes received overwrite the front of the buffer. -/
def Server.recv (s : Server) : RecvOutcome → Option Server
  | .received bytes =>
    if 0 < bytes.length ∧ bytes.length ≤ bufferSize then
      (s.conns s.i).map fun c =>
        { s with
          conns := Function.update s.conns s.i (some { c with received := c.received ++ bytes })
          buffer := bytes ++ s.buffer.drop bytes.length
          pc := .send bytes.length }
    else none
  | .closed => some { s with closeConn := true, pc := .close }
  | .wouldBlock => some { s with pc := .close }
  | .failed => some { s with closeConn := true, pc := .close }

/-- The number of bytes that `send` accepted is not looked at. -/
def Server.send (s : Server) (len : ℕ) : SendOutcome → Option Server
  | .accepted n =>
    if 0 < n ∧ n ≤ len then
      (s.conns s.i).map fun c =>
        { s with
          conns := Function.update s.conns s.i
            (some { c with sent := c.sent ++ (s.buffer.take len).take n })
          pc := .recv }
    else none
  | .failed => some { s with closeConn := true, pc := .close }

def Server.sclose (s : Server) (sd : ℕ) : Server :=
  { s with
    sclosed := s.sclosed ++ [sd]
    listening := s.listening && sd != s.listenSd
    conns := Function.update s.conns sd none
    closed := s.closed ++ (s.conns sd).toList }

/-- The loop that lowers `max_sd`: `none` when no descriptor is left and it runs out of the
set. -/
def lowerMaxSd (masterSet : Finset ℕ) : ℕ → Option ℕ
  | 0 => if 0 ∈ masterSet then some 0 else none
  | maxSd + 1 => if maxSd + 1 ∈ masterSet then some (maxSd + 1) else lowerMaxSd masterSet maxSd

def Server.close (s : Server) : Server :=
  if s.closeConn then
    let s := { s.sclose s.i with masterSet := s.masterSet.erase s.i }
    if s.i = s.maxSd then
      match lowerMaxSd s.masterSet s.maxSd with
      | some maxSd => Server.next { s with maxSd := maxSd }
      | none => { s with pc := .undefined }
    else s.next
  else s.next

def Server.loopTest (s : Server) : Server :=
  if s.endServer = false then { s with pc := .select } else { s with i := 0, pc := .cleanUp }

def Server.cleanUp (s : Server) : Server :=
  if s.i ≤ s.maxSd then
    if s.i ∈ s.masterSet then { s.sclose s.i with i := s.i + 1 } else { s with i := s.i + 1 }
  else { s with pc := .returned }

inductive Event
  | select (outcome : SelectOutcome)
  | accept (outcome : AcceptOutcome)
  | recv (outcome : RecvOutcome)
  | send (outcome : SendOutcome)
  | tick

def step (s : Server) (e : Event) : Option Server :=
  match e, s.pc with
  | .select outcome, .select => s.select outcome
  | .tick, .scan => some s.scan
  | .accept outcome, .accept => s.accept outcome
  | .recv outcome, .recv => s.recv outcome
  | .send outcome, .send len => s.send len outcome
  | .tick, .close => some s.close
  | .tick, .loopTest => some s.loopTest
  | .tick, .cleanUp => some s.cleanUp
  | _, _ => none

section
variable {s t : Server}

theorem accept_cases {outcome : AcceptOutcome} (h : s.accept outcome = some t) :
    (∃ newSd, outcome = .accepted newSd ∧ s.isOpen newSd = false ∧ newSd < fdSetsize ∧
        t = { s with
          conns := Function.update s.conns newSd (some .fresh)
          masterSet := insert newSd s.masterSet
          maxSd := if newSd > s.maxSd then newSd else s.maxSd }) ∨
      ∃ endServer, t = { s.next with endServer := endServer } := by
  cases outcome with
  | accepted newSd =>
    unfold Server.accept at h
    dsimp only at h
    split at h
    · rename_i hnew
      cases h
      exact Or.inl ⟨newSd, rfl, hnew.1, hnew.2, rfl⟩
    · cases h
  | wouldBlock =>
    cases h
    exact Or.inr ⟨s.endServer, rfl⟩
  | failed =>
    cases h
    exact Or.inr ⟨true, rfl⟩

theorem recv_cases {outcome : RecvOutcome} (h : s.recv outcome = some t) :
    (∃ bytes c, outcome = .received bytes ∧ 0 < bytes.length ∧ bytes.length ≤ bufferSize ∧
        s.conns s.i = some c ∧
        t = { s with
          conns := Function.update s.conns s.i (some { c with received := c.received ++ bytes })
          buffer := bytes ++ s.buffer.drop bytes.length
          pc := .send bytes.length }) ∨
      ∃ closeConn, t = { s with closeConn := closeConn, pc := .close } := by
  cases outcome with
  | received bytes =>
    simp only [Server.recv] at h
    split_ifs at h with hlen
    obtain ⟨c, hc, rfl⟩ := Option.map_eq_some_iff.mp h
    exact Or.inl ⟨bytes, c, rfl, hlen.1, hlen.2, hc, rfl⟩
  | wouldBlock =>
    cases h
    exact Or.inr ⟨s.closeConn, rfl⟩
  | closed | failed =>
    cases h
    exact Or.inr ⟨true, rfl⟩

theorem send_cases {len : ℕ} {outcome : SendOutcome} (h : s.send len outcome = some t) :
    (∃ n c, outcome = .accepted n ∧ 0 < n ∧ n ≤ len ∧ s.conns s.i = some c ∧
        t = { s with
          conns := Function.update s.conns s.i
            (some { c with sent := c.sent ++ (s.buffer.take len).take n })
          pc := .recv }) ∨
      (outcome = .failed ∧ t = { s with closeConn := true, pc := .close }) := by
  cases outcome with
  | accepted n =>
    simp only [Server.send] at h
    split_ifs at h with hn
    obtain ⟨c, hc, rfl⟩ := Option.map_eq_some_iff.mp h
    exact Or.inl ⟨n, c, rfl, hn.1, hn.2, hc, rfl⟩
  | failed =>
    cases h
    exact Or.inr ⟨rfl, rfl⟩

end

end TcpTests.UnixServer
