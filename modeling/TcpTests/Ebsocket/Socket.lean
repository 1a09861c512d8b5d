import Mathlib.Data.Finset.Basic
import TcpTests.Lib.Machine
import TcpTests.Net.Datagram

/-! `ebsocket`: `tcp_connect`, `tcp_listen`, `tcp_unlisten` and `tcp_close`, and the descriptors
that they create. One input of the machine is one call with the outcomes of the system calls that
it makes. -/
namespace TcpTests.Ebsocket
open Net

/-- The static data of the module, the descriptors that it created and that are still open, and
those that it returned and that were not closed since. -/
structure Sockets where
  listenS : ℤ
  inetFarMachine : SockaddrIn
  opened : Finset ℤ
  returned : Finset ℤ
  deriving DecidableEq

def Sockets.start : Sockets where
  listenS := -1
  inetFarMachine := ⟨0, 0⟩
  opened := ∅
  returned := ∅

/-- The outcomes of the system calls of `makeSocket`: a new descriptor if there is one, and
whether the option for `exec` could be set. -/
structure MakeSocket where
  socket : Option ℤ
  fcntl : Bool

structure Attempt where
  makeSocket : MakeSocket
  bind : Bool
  listen : Bool
  accept : Option (ℤ × SockaddrIn)

def Sockets.isNew (s : Sockets) (d : ℤ) : Prop := 0 ≤ d ∧ d ∉ s.opened

instance (s : Sockets) (d : ℤ) : Decidable (s.isNew d) := inferInstanceAs (Decidable (_ ∧ _))

def Sockets.makeSocket (s : Sockets) (o : MakeSocket) : Option (Sockets × ℤ) :=
  match o.socket with
  | none => some (s, -1)
  | some d =>
    if s.isNew d then
      some ({ s with opened := insert d s.opened }, if o.fcntl then d else -1)
    else none

/-- A socket that cannot be connected is only shut down. -/
def Sockets.tcpConnect (s : Sockets) (o : MakeSocket) (connect : Bool) : Option (Sockets × ℤ) :=
  (s.makeSocket o).map fun (s, d) =>
    if d < 0 then (s, d) else if connect then (s, d) else (s, -1)

/-- The listening socket is only shut down. -/
def Sockets.tcpUnlisten (s : Sockets) : Sockets :=
  if s.listenS ≥ 0 then { s with listenS := -1 } else s

/-- The listening socket is made if there is none, and whether there is one then. -/
def Sockets.listening (s : Sockets) (a : Attempt) : Option (Sockets × Bool) :=
  if s.listenS < 0 then
    (s.makeSocket a.makeSocket).map fun (s, d) =>
      let s := { s with listenS := d }
      if d < 0 then (s, false)
      else if !a.bind then (s.tcpUnlisten, false)
      else if !a.listen then (s.tcpUnlisten, false)
      else (s, true)
  else some (s, true)

inductive Tried
  | failed
  | notAccepted
  | accepted (newS : ℤ)
  deriving DecidableEq, Repr

def Tried.newS : Tried → ℤ
  | .failed | .notAccepted => -1
  | .accepted newS => newS

def Sockets.tryListen (s : Sockets) (once : Bool) (a : Attempt) : Option (Sockets × Tried) :=
  (s.listening a).bind fun (s, ok) =>
    if !ok then some (s, .failed)
    else
      match a.accept with
      | none => some (s.tcpUnlisten, .notAccepted)
      | some (newS, sa) =>
        if s.isNew newS then
          let s := { s with opened := insert newS s.opened, inetFarMachine := sa }
          some (if once then s.tcpUnlisten else s, .accepted newS)
        else none

/-- After a failed `accept` there is a second attempt, unless one connection is asked for. -/
def Sockets.tcpListen (s : Sockets) (once : Bool) (a₁ a₂ : Attempt) : Option (Sockets × ℤ) :=
  (s.tryListen once a₁).bind fun (s, tried) =>
    if tried = .notAccepted ∧ once = false then
      (s.tryListen once a₂).map fun (s, tried) => (s, tried.newS)
    else some (s, tried.newS)

def Sockets.tcpClose (s : Sockets) (fh : ℤ) : Sockets :=
  { s with opened := s.opened.erase fh }

inductive Call
  | tcpConnect (o : MakeSocket) (connect : Bool)
  | tcpListen (once : Bool) (a₁ a₂ : Attempt)
  | tcpUnlisten
  | tcpClose (fh : ℤ)

def Sockets.give (r : Sockets × ℤ) : Sockets :=
  if 0 ≤ r.2 then { r.1 with returned := insert r.2 r.1.returned } else r.1

def step (s : Sockets) : Call → Option Sockets
  | .tcpConnect o connect => (s.tcpConnect o connect).map Sockets.give
  | .tcpListen once a₁ a₂ => (s.tcpListen once a₁ a₂).map Sockets.give
  | .tcpUnlisten => some s.tcpUnlisten
  | .tcpClose fh =>
    if fh ∈ s.returned then
      some { s.tcpClose fh with returned := s.returned.erase fh }
    else none

section
variable {s t : Sockets} {o : MakeSocket} {a : Attempt} {d : ℤ} {once ok : Bool} {tried : Tried}

theorem makeSocket_cases (h : s.makeSocket o = some (t, d)) :
    (o.socket = none ∧ t = s ∧ d = -1) ∨
      ∃ n, o.socket = some n ∧ s.isNew n ∧ t = { s with opened := insert n s.opened } ∧
        d = if o.fcntl then n else -1 := by
  unfold Sockets.makeSocket at h
  cases hsocket : o.socket with
  | none =>
    rw [hsocket] at h
    cases h
    exact Or.inl ⟨rfl, rfl, rfl⟩
  | some n =>
    rw [hsocket] at h
    dsimp only at h
    by_cases hn : s.isNew n
    · rw [if_pos hn] at h
      cases h
      exact Or.inr ⟨n, rfl, hn, rfl, rfl⟩
    · rw [if_neg hn] at h
      cases h

theorem tcpConnect_cases {connect : Bool} (h : s.tcpConnect o connect = some (t, d)) :
    (o.socket = none ∧ t = s ∧ d = -1) ∨
      ∃ n, o.socket = some n ∧ s.isNew n ∧ t = { s with opened := insert n s.opened } ∧
        d = if o.fcntl && connect then n else -1 := by
  obtain ⟨⟨u, e⟩, hmake, hres⟩ := Option.map_eq_some_iff.mp h
  rcases makeSocket_cases hmake with ⟨hsocket, rfl, rfl⟩ | ⟨n, hsocket, hn, rfl, rfl⟩
  · cases hres
    exact Or.inl ⟨hsocket, rfl, rfl⟩
  · have hpos : ¬ n < 0 := not_lt.mpr hn.1
    refine Or.inr ⟨n, hsocket, hn, ?_⟩
    cases hfcntl : o.fcntl with
    | false =>
      rw [hfcntl] at hres
      cases hres
      exact ⟨rfl, rfl⟩
    | true =>
      rw [hfcntl] at hres
      simp only [if_true, if_neg hpos] at hres
      cases connect with
      | false | true =>
        cases hres
        exact ⟨rfl, rfl⟩

theorem listening_cases (h : s.listening a = some (t, ok)) :
    (0 ≤ s.listenS ∧ t = s ∧ ok = true) ∨
      (s.listenS < 0 ∧ a.makeSocket.socket = none ∧ t = { s with listenS := -1 } ∧ ok = false) ∨
      (s.listenS < 0 ∧ ∃ n, a.makeSocket.socket = some n ∧ s.isNew n ∧
        ok = (a.makeSocket.fcntl && a.bind && a.listen) ∧
        t = { s with opened := insert n s.opened, listenS := if ok then n else -1 }) := by
  unfold Sockets.listening at h
  by_cases hlisten : s.listenS < 0
  · rw [if_pos hlisten] at h
    obtain ⟨⟨u, e⟩, hmake, hres⟩ := Option.map_eq_some_iff.mp h
    rcases makeSocket_cases hmake with ⟨hsocket, rfl, rfl⟩ | ⟨n, hsocket, hn, rfl, rfl⟩
    · cases hres
      exact Or.inr (Or.inl ⟨hlisten, hsocket, rfl, rfl⟩)
    · refine Or.inr (Or.inr ⟨hlisten, n, hsocket, hn, ?_⟩)
      have hneg : ¬ n < 0 := not_lt.mpr hn.1
      have hnonneg : n ≥ 0 := hn.1
      cases hfcntl : a.makeSocket.fcntl with
      | false =>
        rw [hfcntl] at hres
        cases hres
        exact ⟨rfl, rfl⟩
      | true =>
        rw [hfcntl] at hres
        simp only [if_true, if_neg hneg, Sockets.tcpUnlisten, if_pos hnonneg] at hres
        cases hbind : a.bind with
        | false =>
          rw [hbind] at hres
          cases hres
          exact ⟨rfl, rfl⟩
        | true =>
          cases hl : a.listen with
          | false | true =>
            rw [hbind, hl] at hres
            cases hres
            exact ⟨rfl, rfl⟩
  · rw [if_neg hlisten] at h
    cases h
    exact Or.inl ⟨not_lt.mp hlisten, rfl, rfl⟩

theorem tryListen_cases (h : s.tryListen once a = some (t, tried)) :
    ∃ u ok, s.listening a = some (u, ok) ∧
      ((ok = false ∧ t = u ∧ tried = .failed) ∨
        (ok = true ∧ a.accept = none ∧ t = u.tcpUnlisten ∧ tried = .notAccepted) ∨
        (ok = true ∧ ∃ newS sa, a.accept = some (newS, sa) ∧ u.isNew newS ∧
          tried = .accepted newS ∧
          t = if once then
              Sockets.tcpUnlisten { u with opened := insert newS u.opened, inetFarMachine := sa }
            else { u with opened := insert newS u.opened, inetFarMachine := sa })) := by
  obtain ⟨⟨u, ok⟩, hlistening, hres⟩ := Option.bind_eq_some_iff.mp h
  refine ⟨u, ok, hlistening, ?_⟩
  cases ok with
  | false =>
    cases hres
    exact Or.inl ⟨rfl, rfl, rfl⟩
  | true =>
    simp only [Bool.not_true, Bool.false_eq_true, if_false] at hres
    cases haccept : a.accept with
    | none =>
      rw [haccept] at hres
      cases hres
      exact Or.inr (Or.inl ⟨rfl, rfl, rfl, rfl⟩)
    | some r =>
      obtain ⟨newS, sa⟩ := r
      rw [haccept] at hres
      dsimp only at hres
      by_cases hnew : u.isNew newS
      · rw [if_pos hnew] at hres
        cases hres
        exact Or.inr (Or.inr ⟨rfl, newS, sa, rfl, hnew, rfl, rfl⟩)
      · rw [if_neg hnew] at hres
        cases hres

theorem tcpListen_cases {a₁ a₂ : Attempt} {r : ℤ} (h : s.tcpListen once a₁ a₂ = some (t, r)) :
    ∃ u tried, s.tryListen once a₁ = some (u, tried) ∧
      ((¬ (tried = .notAccepted ∧ once = false) ∧ t = u ∧ r = tried.newS) ∨
        (tried = .notAccepted ∧ once = false ∧
          ∃ again, u.tryListen once a₂ = some (t, again) ∧ r = again.newS)) := by
  obtain ⟨⟨u, tried⟩, htry, hres⟩ := Option.bind_eq_some_iff.mp h
  refine ⟨u, tried, htry, ?_⟩
  dsimp only at hres
  by_cases hretry : tried = .notAccepted ∧ once = false
  · rw [if_pos hretry] at hres
    obtain ⟨⟨v, again⟩, hagain, hres⟩ := Option.map_eq_some_iff.mp hres
    cases hres
    exact Or.inr ⟨hretry.1, hretry.2, again, hagain, rfl⟩
  · rw [if_neg hretry] at hres
    cases hres
    exact Or.inl ⟨hretry, rfl, rfl⟩

end

end TcpTests.Ebsocket
