import Mathlib.Algebra.BigOperators.Group.List.Basic
import Mathlib.Algebra.GroupWithZero.Nat
import Mathlib.Data.List.Zip
import TcpTests.Lib.Machine

/-! `test_socket` of `fgio`: the sockets that it makes, uses and deletes. They are named in the
order in which they are made. -/
namespace TcpTests.FgIo
open Lib

inductive Action
  | new (i : ℕ)
  | test (i : ℕ)
  | close (i : ℕ)
  | delete (i : ℕ)
  deriving DecidableEq, Repr

inductive Pc
  | start
  | loop
  | done
  deriving DecidableEq, Repr

/-- The variables of the function, how many sockets were made, and what was done so far. `sock` is
none before the first socket and for a null pointer. -/
structure TestSocket where
  isServer : Bool
  sock : Option ℕ
  made : ℕ
  cnt : ℕ
  delay : ℤ
  pause : Bool
  pc : Pc
  trace : List Action

def TestSocket.start (isServer : Bool) (delay : ℤ) : TestSocket where
  isServer := isServer
  sock := none
  made := 0
  cnt := 0
  delay := delay
  pause := false
  pc := .start
  trace := []

structure Opened where
  opened : Bool
  reused : Bool

/-- The first socket is opened, or the loop is at its head again: whether the socket is valid, what
`fg_io_test` and `kbd_sleep` return, and what a reset comes to. -/
inductive Event
  | opens (o : Opened)
  | pass (isValid : Bool) (res : ℤ) (chr : Char) (o : Opened)

/-- `new SGSocket` -/
def TestSocket.make (s : TestSocket) : TestSocket :=
  { s with sock := some s.made, made := s.made + 1, trace := s.trace ++ [.new s.made] }

/-- `sock->close(); delete sock;` unless the pointer is null. -/
def TestSocket.drop (s : TestSocket) : TestSocket :=
  match s.sock with
  | some i => { s with trace := s.trace ++ [.close i, .delete i] }
  | none => s

def TestSocket.finish (s : TestSocket) : TestSocket := { s.drop with pc := .done }

/-- The key `R`: behind `Reset_Failed` the pointer is set to null. -/
def TestSocket.reset (s : TestSocket) (o : Opened) : TestSocket :=
  if o.opened && o.reused then s.drop.make else { s.drop.make.drop with sock := none }.finish

/-- The key that `kbd_sleep` returned. No key is character 0. -/
def TestSocket.key (s : TestSocket) (chr : Char) (o : Opened) : TestSocket :=
  if chr = '\x1b' then s.finish
  else if chr = '+' then { s with delay := s.delay + 1 }
  else if chr = '-' then { s with delay := if s.delay ≠ 0 then s.delay - 1 else s.delay }
  else if chr = 'p' then { s with pause := !s.pause }
  else if chr = 'R' then s.reset o
  else s

/-- `fg_io_test` -/
def TestSocket.test (s : TestSocket) : TestSocket :=
  match s.sock with
  | some i => { s with cnt := s.cnt + 1, trace := s.trace ++ [.test i] }
  | none => s

def step (s : TestSocket) (e : Event) : Option TestSocket :=
  match s.pc, e with
  | .start, .opens o =>
    let s := s.make
    if !o.opened then some { s with pc := .done }
    else if !o.reused then some s.finish
    else some { s with pc := .loop }
  | .loop, .pass isValid res chr o =>
    if !isValid then some s.finish
    else if s.pause then some (s.key chr o)
    else
      let s := s.test
      if 0 < res ∧ s.isServer then some s
      else if res < 0 then some s.finish
      else some (s.key chr o)
  | _, _ => none

def life (i n : ℕ) : List Action :=
  .new i :: List.replicate n (.test i) ++ [.close i, .delete i]

/-- The sockets one after the other, each with how often it was tested. -/
def lives (counts : List ℕ) : List Action := counts.zipIdx.flatMap fun p => life p.2 p.1

/-- At the head of the loop the last socket is in use, and those before it are deleted. -/
structure InUse (counts : List ℕ) (n : ℕ) (s : TestSocket) : Prop where
  sock : s.sock = some counts.length
  made : s.made = counts.length + 1
  trace : s.trace = lives counts ++ .new counts.length :: List.replicate n (.test counts.length)
  cnt : s.cnt = counts.sum + n

structure Ended (counts : List ℕ) (s : TestSocket) : Prop where
  made : s.made = counts.length
  trace : s.trace = lives counts
  cnt : s.cnt = counts.sum

section
variable {s t : TestSocket} {e : Event} {counts : List ℕ} {n : ℕ} {o : Opened}

theorem lives_concat (counts : List ℕ) (n : ℕ) :
    lives (counts ++ [n]) = lives counts ++ life counts.length n := by
  rw [lives, List.zipIdx_append, List.flatMap_append, List.zipIdx_singleton, List.flatMap_singleton,
    Nat.zero_add]
  rfl

theorem InUse.drop (h : InUse counts n s) : Ended (counts ++ [n]) s.drop := by
  have hdrop : s.drop = { s with trace := s.trace ++ [.close counts.length,
      .delete counts.length] } := by
    rw [TestSocket.drop, h.sock]
  rw [hdrop]
  refine ⟨?_, ?_, ?_⟩
  · rw [List.length_append, List.length_singleton]
    exact h.made
  · dsimp only
    rw [h.trace, lives_concat, life, List.append_assoc, List.cons_append]
  · rw [List.sum_append, List.sum_singleton]
    exact h.cnt

theorem Ended.make (h : Ended counts s) : InUse counts 0 s.make := by
  refine ⟨?_, ?_, ?_, h.cnt⟩
  · exact congrArg some h.made
  · exact congrArg (· + 1) h.made
  · dsimp only [TestSocket.make]
    rw [h.trace, h.made]
    rfl

theorem InUse.finish (h : InUse counts n s) : Ended (counts ++ [n]) s.finish :=
  ⟨h.drop.made, h.drop.trace, h.drop.cnt⟩

theorem InUse.test (h : InUse counts n s) : InUse counts (n + 1) s.test := by
  have htest : s.test = { s with cnt := s.cnt + 1, trace := s.trace ++ [.test counts.length] } := by
    rw [TestSocket.test, h.sock]
  rw [htest]
  refine ⟨h.sock, h.made, ?_, ?_⟩
  · dsimp only
    rw [h.trace, List.append_assoc, List.replicate_succ', List.cons_append]
  · dsimp only
    rw [h.cnt, Nat.add_assoc]

inductive Passed (s : TestSocket) : Prop
  | loop (counts : List ℕ) (n : ℕ) (pc : s.pc = .loop) (inUse : InUse counts n s)
  | done (counts : List ℕ) (pc : s.pc = .done) (made : counts ≠ []) (ended : Ended counts s)

theorem InUse.passed_finish (h : InUse counts n s) : Passed s.finish :=
  .done _ rfl (List.append_ne_nil_of_right_ne_nil _ (List.cons_ne_nil _ _)) h.finish

/-- A reset deletes the socket in use and makes the next one, which is deleted at once where it
cannot be opened. -/
theorem InUse.reset (h : InUse counts n s) (hpc : s.pc = .loop) (o : Opened) :
    Passed (s.reset o) := by
  have hnew : InUse (counts ++ [n]) 0 s.drop.make := h.drop.make
  have hdrop : s.drop.pc = s.pc := by
    rw [TestSocket.drop]
    split <;> rfl
  rw [TestSocket.reset]
  split_ifs with ho
  · exact .loop _ _ (hdrop.trans hpc) hnew
  · have hend := hnew.drop
    exact .done _ rfl (List.append_ne_nil_of_right_ne_nil _ (List.cons_ne_nil _ _))
      ⟨hend.made, hend.trace, hend.cnt⟩

theorem InUse.key (h : InUse counts n s) (hpc : s.pc = .loop) (chr : Char) (o : Opened) :
    Passed (s.key chr o) := by
  rw [TestSocket.key]
  split_ifs
  · exact h.passed_finish
  · exact .loop counts n hpc ⟨h.sock, h.made, h.trace, h.cnt⟩
  · exact .loop counts n hpc ⟨h.sock, h.made, h.trace, h.cnt⟩
  · exact .loop counts n hpc ⟨h.sock, h.made, h.trace, h.cnt⟩
  · exact .loop counts n hpc ⟨h.sock, h.made, h.trace, h.cnt⟩
  · exact h.reset hpc o
  · exact .loop counts n hpc h

theorem InUse.pass (h : InUse counts n s) (hpc : s.pc = .loop) (ht : step s e = some t) :
    Passed t := by
  cases e with
  | opens o =>
    simp only [step, hpc] at ht
    cases ht
  | pass isValid res chr o =>
    have htest : s.test.pc = .loop := by
      rw [TestSocket.test, h.sock]
      exact hpc
    simp only [step, hpc] at ht
    split_ifs at ht <;> cases ht
    · exact h.passed_finish
    · exact h.key hpc chr o
    · exact .loop _ _ htest h.test
    · exact h.test.passed_finish
    · exact h.test.key htest chr o

theorem Passed.step (h : Passed s) (ht : FgIo.step s e = some t) : Passed t := by
  cases h with
  | loop counts n hpc huse => exact huse.pass hpc ht
  | done counts hpc hmade hend =>
    simp only [FgIo.step, hpc] at ht
    cases ht

theorem step_opens (isServer : Bool) (delay : ℤ) (o : Opened) :
    step (.start isServer delay) (.opens o) =
      if !o.opened then some { (TestSocket.start isServer delay).make with pc := .done }
      else if !o.reused then some (TestSocket.start isServer delay).make.finish
      else some { (TestSocket.start isServer delay).make with pc := .loop } := rfl

theorem passed_first {isServer : Bool} {delay : ℤ} (ho : o.opened = true)
    (ht : step (.start isServer delay) (.opens o) = some t) : Passed t := by
  have hstart : Ended [] (TestSocket.start isServer delay) := ⟨rfl, rfl, rfl⟩
  have hfirst := hstart.make
  rw [step_opens, ho, Bool.not_true, if_neg Bool.false_ne_true] at ht
  split_ifs at ht <;> cases ht
  · exact hfirst.passed_finish
  · exact .loop [] 0 rfl ⟨hfirst.sock, hfirst.made, hfirst.trace, hfirst.cnt⟩

end

/-- Where the first socket is opened, each socket is made, tested, closed and deleted before the
next one is made, all are deleted at the end, and `cnt` is the number of tests of them all. A first
socket that cannot be opened is neither closed nor deleted. -/
theorem test_socket_lives {isServer : Bool} {delay : ℤ} {o : Opened} {es : List Event}
    {t : TestSocket} (h : runs step (.start isServer delay) (.opens o :: es) = some t) :
    if o.opened then
      (t.pc = .loop ∧ ∃ counts n, InUse counts n t) ∨
        t.pc = .done ∧ ∃ counts, counts ≠ [] ∧ Ended counts t
    else es = [] ∧ t.pc = .done ∧ t.made = 1 ∧ t.trace = [.new 0] ∧ t.cnt = 0 := by
  obtain ⟨u, hu, ht⟩ := runs_cons.mp h
  split_ifs with ho
  · have hpassed : Passed t :=
      runs_invariant Passed (fun _ _ _ hs hstep => hs.step hstep) (passed_first ho hu) ht
    cases hpassed with
    | loop counts n hpc huse => exact .inl ⟨hpc, counts, n, huse⟩
    | done counts hpc hmade hend => exact .inr ⟨hpc, counts, hmade, hend⟩
  · rw [step_opens, Bool.eq_false_iff.mpr ho, Bool.not_false, if_pos rfl, Option.some_inj] at hu
    subst hu
    cases es with
    | nil =>
      cases ht
      exact ⟨rfl, rfl, rfl, rfl, rfl⟩
    | cons e es =>
      obtain ⟨v, hv, -⟩ := runs_cons.mp ht
      cases hv

/-- A reset after the first test, and the second socket is tested twice. -/
def resetPasses : List Event :=
  [.pass true 0 'R' ⟨true, true⟩, .pass true 0 'p' ⟨true, true⟩, .pass true 0 'p' ⟨true, true⟩,
    .pass true (-1) '+' ⟨true, true⟩]

theorem test_socket_lives_reset :
    ∃ t, runs step (.start false 1) (.opens ⟨true, true⟩ :: resetPasses) = some t ∧
      t.trace = lives [1, 2] ∧
      ((t.pc = .loop ∧ ∃ counts n, InUse counts n t) ∨
        t.pc = .done ∧ ∃ counts, counts ≠ [] ∧ Ended counts t) :=
  ⟨_, rfl, rfl, @test_socket_lives false 1 ⟨true, true⟩ resetPasses _ rfl⟩

end TcpTests.FgIo
