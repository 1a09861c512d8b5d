import TcpTests.Lib.Loop
import TcpTests.Udpclient.AddressLength

/-! The wait of `udpclient` for a reply, as the loop that `while (wait_receive)` is, and when it
ends within `max_wait_cycles` attempts to receive. The loop counts the attempts and does not look
at the count. -/
namespace TcpTests.Udpclient
open Lib Net

def maxWaitCycles : ℕ := 3

def Call.isRecv : Call → Bool
  | .waitRecv _ | .retryRecv _ => true
  | .sendto _ | .reset => false

def Addressing.attempts (a : Addressing) : ℕ := a.calls.countP Call.isRecv

/-- A turn of the wait, or of the loop in it that sends again. The state comes with the number of
turns before. -/
def waitBody (os : Platform) (server : SockaddrIn) (turns : ℕ → Attempt) :
    Addressing × ℕ → (Addressing × ℕ) ⊕ Addressing
  | (a, i) =>
    match a.client.pc with
    | .top | .done => .inr a
    | .wait => .inl (a.wait os server (turns i), i + 1)
    | .retry waitCycles => .inl (a.retry waitCycles (turns i).toTurn, i + 1)

def Attempt.failed (turn : Attempt) : Bool :=
  match turn.recv with
  | .failed => true
  | .again | .datagram _ _ => false

def Attempt.replied (turn : Attempt) : Bool :=
  match turn.recv with
  | .datagram _ _ => true
  | .again | .failed => false

/-- The second `recvfrom` after a `WSAEINVAL` gives `WSAEINVAL` again. -/
def Attempt.aborts (turn : Attempt) : Bool :=
  match turn.second with
  | .failed => turn.invalAgain
  | .again | .datagram _ _ => false

def failedBefore (turns : ℕ → Attempt) (i : ℕ) : Bool :=
  (List.range i).any fun j => (turns j).failed

/-- The first error is `WSAEINVAL`, and `recvfrom` is called twice in the turn. -/
def secondTry (os : Platform) (turns : ℕ → Attempt) (i : ℕ) : Bool :=
  os == .windows && (turns i).failed && (turns i).inval && !failedBefore turns i

/-- The calls of `recvfrom` in the first turns, if they all make one. -/
def tries (os : Platform) (turns : ℕ → Attempt) (i : ℕ) : ℕ :=
  i + (List.range i).countP (secondTry os turns)

/-- Turn `k` ends the wait with at most `max_wait_cycles` attempts: by a datagram, by a `sendto`
that fails after an error, or by a repeated `WSAEINVAL`. -/
def EndsIn (os : Platform) (sending : Bool) (turns : ℕ → Attempt) (k : ℕ) : Prop :=
  ((turns k).replied = true ∧ tries os turns k < maxWaitCycles) ∨
    (failedBefore turns k = true ∧ sending = true ∧ (turns k).sendOk = false ∧
      tries os turns k ≤ maxWaitCycles) ∨
    (secondTry os turns k = true ∧ (turns k).aborts = true ∧
      tries os turns k + 2 ≤ maxWaitCycles)

section
variable {os : Platform} {server : SockaddrIn} {turns : ℕ → Attempt} {a : Addressing}
  {turn : Attempt} {i : ℕ}

theorem failedBefore_succ :
    failedBefore turns (i + 1) = (failedBefore turns i || (turns i).failed) := by
  simp only [failedBefore, List.range_succ, List.any_append, List.any_cons, List.any_nil,
    Bool.or_false]

theorem tries_succ :
    tries os turns (i + 1) = tries os turns i + 1 + if secondTry os turns i then 1 else 0 := by
  simp only [tries, List.range_succ, List.countP_append, List.countP_singleton]
  omega

theorem tries_strictMono : StrictMono (tries os turns) := by
  apply strictMono_nat_of_lt_succ
  intro i
  rw [tries_succ]
  omega

/-- What a turn of the loop does to the count of the attempts and the place in the program. -/
structure Addressing.Moves (a b : Addressing) (n : ℕ) (pc : Pc) (waitReceive : Bool) : Prop where
  attempts : b.attempts = a.attempts + n
  pc : b.client.pc = pc
  waitReceive : b.client.waitReceive = waitReceive
  noSendToServer : b.client.noSendToServer = a.client.noSendToServer

theorem Addressing.Moves.attempts_le {b : Addressing} {n : ℕ} {pc : Pc} {waitReceive : Bool}
    (hm : a.Moves b n pc waitReceive) : a.attempts ≤ b.attempts := by
  rw [hm.attempts]
  exact Nat.le_add_right _ _

theorem Addressing.attempts_concat (client : Client) (len : ℕ) (call : Call) :
    Addressing.attempts ⟨client, len, a.calls ++ [call]⟩ =
      a.attempts + if call.isRecv then 1 else 0 := by
  simp only [attempts, List.countP_append, List.countP_singleton]

/-- A turn of the wait without a key, up to what `recvfrom` gives. -/
theorem Addressing.wait_eq (hw : a.client.waitReceive = true) (hkey : turn.key = '\x00') :
    a.wait os server turn =
      let b := Addressing.recvfrom
        ⟨{ a.client with waitCycles := a.client.waitCycles + 1 }, sizeofServeraddr, a.calls⟩
        .waitRecv turn.recv
      match turn.recv with
      | .again => b
      | .failed =>
        if os = .windows ∧ turn.inval then b.retryInval server turn else b.goTo (.retry 200)
      | .datagram _ _ => { b with client := { b.client with waitReceive := false } } := by
  have hgoes : ¬ (!a.client.waitReceive) = true := by
    rw [hw]
    exact Bool.false_ne_true
  have hexit : ¬ (a.client.checkKey turn.key).2 = true := by
    rw [hkey]
    exact Bool.false_ne_true
  unfold wait
  dsimp only
  rw [if_neg hgoes, if_neg hexit, hkey]
  rfl

theorem Addressing.wait_again (os : Platform) (server : SockaddrIn)
    (hw : a.client.waitReceive = true) (hkey : turn.key = '\x00')
    (hr : turn.recv = .again) :
    a.Moves (a.wait os server turn) 1 a.client.pc true := by
  rw [wait_eq hw hkey, hr]
  exact ⟨attempts_concat _ _ _, rfl, hw, rfl⟩

theorem Addressing.wait_replied (os : Platform) (server : SockaddrIn)
    {addr : SockaddrIn} {bytes : List Byte}
    (hw : a.client.waitReceive = true) (hkey : turn.key = '\x00')
    (hr : turn.recv = .datagram addr bytes) :
    a.Moves (a.wait os server turn) 1 a.client.pc false := by
  rw [wait_eq hw hkey, hr]
  exact ⟨attempts_concat _ _ _, rfl, rfl, rfl⟩

theorem Addressing.wait_failed (os : Platform) (server : SockaddrIn)
    (hw : a.client.waitReceive = true) (hkey : turn.key = '\x00')
    (hr : turn.recv = .failed) (hinval : ¬ (os = .windows ∧ turn.inval = true)) :
    a.Moves (a.wait os server turn) 1 (.retry 200) true := by
  rw [wait_eq hw hkey, hr]
  dsimp only
  rw [if_neg hinval]
  exact ⟨attempts_concat _ _ _, rfl, hw, rfl⟩

theorem Addressing.retryInval_moves (a : Addressing) (server : SockaddrIn) (turn : Attempt) :
    a.Moves (a.retryInval server turn) 1 (if turn.aborts then .done else .retry 200)
      a.client.waitReceive := by
  have hreset : ∀ ok, ((a.calls ++ [Call.reset]) ++ [Call.retryRecv ok]).countP Call.isRecv =
      a.attempts + 1 := by
    intro ok
    rw [List.append_assoc, List.countP_append]
    rfl
  unfold retryInval Attempt.aborts
  cases turn.second with
  | again => exact ⟨hreset false, rfl, rfl, rfl⟩
  | datagram addr bytes => exact ⟨hreset true, rfl, rfl, rfl⟩
  | failed =>
    cases turn.invalAgain with
    | false => exact ⟨hreset false, rfl, rfl, rfl⟩
    | true => exact ⟨hreset false, rfl, rfl, rfl⟩

theorem Addressing.wait_inval (os : Platform) (server : SockaddrIn)
    (hw : a.client.waitReceive = true) (hkey : turn.key = '\x00')
    (hr : turn.recv = .failed) (hinval : os = .windows ∧ turn.inval = true) :
    a.Moves (a.wait os server turn) 2 (if turn.aborts then .done else .retry 200) true := by
  rw [wait_eq hw hkey, hr]
  dsimp only
  rw [if_pos hinval]
  have hm := Addressing.retryInval_moves (Addressing.recvfrom
    ⟨{ a.client with waitCycles := a.client.waitCycles + 1 }, sizeofServeraddr, a.calls⟩
    .waitRecv .failed) server turn
  have hone : Addressing.attempts (Addressing.recvfrom
      ⟨{ a.client with waitCycles := a.client.waitCycles + 1 }, sizeofServeraddr, a.calls⟩
      .waitRecv .failed) = a.attempts + 1 := attempts_concat _ _ _
  refine ⟨?_, hm.pc, hm.waitReceive.trans hw, hm.noSendToServer⟩
  rw [hm.attempts, hone]

theorem Addressing.retry_eq {waitCycles : ℕ} (hcycles : waitCycles ≠ 0)
    (hkey : turn.key = '\x00') :
    a.retry waitCycles turn.toTurn =
      let s := a.sendto turn.sendOk
      if !s.2 then s.1
      else
        let b := s.1.recvfrom .retryRecv turn.recv
        match turn.recv with
        | .again | .failed => b.goTo (.retry (waitCycles - 1))
        | .datagram _ _ => b.goTo .top := by
  have hexit : ¬ (a.client.checkKey turn.key).2 = true := by
    rw [hkey]
    exact Bool.false_ne_true
  unfold retry
  dsimp only
  rw [if_neg hcycles, if_neg hexit, hkey]
  rfl

theorem Addressing.sendto_attempts (a : Addressing) (sendOk : Bool) :
    (a.sendto sendOk).1.attempts = a.attempts ∧
      (a.sendto sendOk).1.client.noSendToServer = a.client.noSendToServer ∧
      (a.sendto sendOk).1.client.waitReceive = a.client.waitReceive := by
  unfold sendto Client.sendto
  dsimp only
  split_ifs
  · exact ⟨rfl, rfl, rfl⟩
  · exact ⟨attempts_concat _ _ _, rfl, rfl⟩
  · exact ⟨attempts_concat _ _ _, rfl, rfl⟩

theorem Addressing.sendto_fails (a : Addressing) (sendOk : Bool) :
    (a.sendto sendOk).2 = (a.client.noSendToServer || sendOk) ∧
      ((a.sendto sendOk).2 = false → (a.sendto sendOk).1.client.pc = .done) := by
  unfold sendto Client.sendto
  dsimp only
  split_ifs with hno hok
  · simp [hno]
  · simp [hno, hok]
  · simp [hno, hok]

theorem Addressing.retry_stops {waitCycles : ℕ} (hcycles : waitCycles ≠ 0)
    (hkey : turn.key = '\x00') (hsend : (a.client.noSendToServer || turn.sendOk) = false) :
    a.Moves (a.retry waitCycles turn.toTurn) 0 .done a.client.waitReceive := by
  obtain ⟨hatt, hno, hw⟩ := a.sendto_attempts turn.sendOk
  obtain ⟨hok, hpc⟩ := a.sendto_fails turn.sendOk
  have hfails : (a.sendto turn.sendOk).2 = false := hok.trans hsend
  have hstop : (!(a.sendto turn.sendOk).2) = true := by
    rw [hfails]
    rfl
  rw [retry_eq hcycles hkey]
  dsimp only
  rw [if_pos hstop]
  exact ⟨hatt, hpc hfails, hw, hno⟩

theorem Addressing.retry_receives {waitCycles : ℕ} (hcycles : waitCycles ≠ 0)
    (hkey : turn.key = '\x00') (hsend : (a.client.noSendToServer || turn.sendOk) = true) :
    a.Moves (a.retry waitCycles turn.toTurn) 1
      (if turn.replied then .top else .retry (waitCycles - 1)) a.client.waitReceive := by
  obtain ⟨hatt, hno, hw⟩ := a.sendto_attempts turn.sendOk
  have hok : (a.sendto turn.sendOk).2 = true := (a.sendto_fails turn.sendOk).1.trans hsend
  have hgoes : ¬ (!(a.sendto turn.sendOk).2) = true := by
    rw [hok]
    exact Bool.false_ne_true
  rw [retry_eq hcycles hkey]
  dsimp only
  rw [if_neg hgoes]
  have hone : ∀ client len ok, Addressing.attempts
      ⟨client, len, (a.sendto turn.sendOk).1.calls ++ [.retryRecv ok]⟩ = a.attempts + 1 := by
    intro client len ok
    rw [attempts_concat, hatt]
    rfl
  unfold Attempt.replied
  cases turn.recv with
  | again => exact ⟨hone _ _ _, rfl, hw, hno⟩
  | failed => exact ⟨hone _ _ _, rfl, hw, hno⟩
  | datagram addr bytes => exact ⟨hone _ _ _, rfl, hw, hno⟩

/-- The turn ends the wait, whatever the attempts before. -/
def Ends (os : Platform) (sending : Bool) (turns : ℕ → Attempt) (k : ℕ) : Prop :=
  (turns k).replied = true ∨
    (failedBefore turns k = true ∧ sending = true ∧ (turns k).sendOk = false) ∨
    (secondTry os turns k = true ∧ (turns k).aborts = true)

/-- The state after `i` turns that did not end the wait, which began with `n` calls of
`recvfrom`. -/
inductive Stage (os : Platform) (turns : ℕ → Attempt) (noSend : Bool) (n i : ℕ)
    (a : Addressing) : Prop
  | waiting (hpc : a.client.pc = .wait) (hw : a.client.waitReceive = true)
      (hno : a.client.noSendToServer = noSend) (hfailed : failedBefore turns i = false)
      (hatt : a.attempts = n + tries os turns i)
  | retrying (waitCycles : ℕ) (hpc : a.client.pc = .retry waitCycles)
      (hcycles : 200 < waitCycles + i) (hno : a.client.noSendToServer = noSend)
      (hfailed : failedBefore turns i = true) (hatt : a.attempts = n + tries os turns i)

theorem Attempt.failed_iff : turn.failed = true ↔ turn.recv = .failed := by
  unfold failed
  cases turn.recv with
  | failed => exact iff_of_true rfl rfl
  | again => exact iff_of_false Bool.false_ne_true nofun
  | datagram addr bytes => exact iff_of_false Bool.false_ne_true nofun

theorem Attempt.replied_iff :
    turn.replied = true ↔ ∃ addr bytes, turn.recv = .datagram addr bytes := by
  unfold replied
  cases turn.recv with
  | datagram addr bytes => exact iff_of_true rfl ⟨addr, bytes, rfl⟩
  | again => exact iff_of_false Bool.false_ne_true nofun
  | failed => exact iff_of_false Bool.false_ne_true nofun

theorem secondTry_iff : secondTry os turns i = true ↔
    (os = .windows ∧ (turns i).inval = true) ∧ (turns i).recv = .failed ∧
      failedBefore turns i = false := by
  simp only [secondTry, Bool.and_eq_true, beq_iff_eq, Attempt.failed_iff, Bool.not_eq_true']
  constructor
  · rintro ⟨⟨⟨hos, hfailed⟩, hinval⟩, hbefore⟩
    exact ⟨⟨hos, hinval⟩, hfailed, hbefore⟩
  · rintro ⟨⟨hos, hinval⟩, hfailed, hbefore⟩
    exact ⟨⟨⟨hos, hfailed⟩, hinval⟩, hbefore⟩

theorem tries_succ_of_second (h : secondTry os turns i = true) :
    tries os turns (i + 1) = tries os turns i + 2 := by
  rw [tries_succ, h]
  rfl

theorem tries_succ_of_not (h : ¬ secondTry os turns i = true) :
    tries os turns (i + 1) = tries os turns i + 1 := by
  rw [tries_succ, if_neg h]

theorem not_secondTry_of_failedBefore (os : Platform) (h : failedBefore turns i = true) :
    ¬ secondTry os turns i = true := by
  rw [secondTry_iff, h]
  rintro ⟨-, -, hbefore⟩
  cases hbefore

theorem not_secondTry_of_recv (os : Platform) (h : (turns i).recv ≠ .failed) :
    ¬ secondTry os turns i = true := by
  rw [secondTry_iff]
  rintro ⟨-, hfailed, -⟩
  exact h hfailed

theorem Addressing.wait_over (hw : a.client.waitReceive = false) :
    a.wait os server turn = a.goTo .top := by
  rw [wait, hw]
  rfl

theorem waitBody_wait (hpc : a.client.pc = .wait) :
    waitBody os server turns (a, i) = .inl (a.wait os server (turns i), i + 1) := by
  simp only [waitBody, hpc]

theorem waitBody_retry {waitCycles : ℕ} (hpc : a.client.pc = .retry waitCycles) :
    waitBody os server turns (a, i) =
      .inl (a.retry waitCycles (turns i).toTurn, i + 1) := by
  simp only [waitBody, hpc]

theorem waitBody_left (hpc : a.client.pc = .top ∨ a.client.pc = .done) :
    waitBody os server turns (a, i) = .inr a := by
  rcases hpc with hpc | hpc <;> simp only [waitBody, hpc]

variable {noSend : Bool} {n k : ℕ}

theorem wait_next (server : SockaddrIn) (hpc : a.client.pc = .wait)
    (hw : a.client.waitReceive = true) (hno : a.client.noSendToServer = noSend)
    (hfailed : failedBefore turns i = false) (hatt : a.attempts = n + tries os turns i)
    (hkey : (turns i).key = '\x00') (hi : i < 200) (he : ¬ Ends os (!noSend) turns i) :
    Stage os turns noSend n (i + 1) (a.wait os server (turns i)) := by
  cases hr : (turns i).recv with
  | again =>
    have hm := Addressing.wait_again os server hw hkey hr
    have hok : (turns i).failed = false := by
      rw [Attempt.failed, hr]
    have hone : ¬ secondTry os turns i = true :=
      not_secondTry_of_recv os (by rw [hr]; exact nofun)
    refine .waiting (hm.pc.trans hpc) hm.waitReceive (hm.noSendToServer.trans hno) ?_ ?_
    · rw [failedBefore_succ, hfailed, hok]
      rfl
    · rw [hm.attempts, hatt, tries_succ_of_not hone, Nat.add_assoc]
  | datagram addr bytes => exact absurd (Or.inl (Attempt.replied_iff.mpr ⟨addr, bytes, hr⟩)) he
  | failed =>
    have hfirst : failedBefore turns (i + 1) = true := by
      rw [failedBefore_succ, Attempt.failed_iff.mpr hr, Bool.or_true]
    by_cases hinval : os = .windows ∧ (turns i).inval = true
    · have hsecond : secondTry os turns i = true := secondTry_iff.mpr ⟨hinval, hr, hfailed⟩
      have hgoes : (turns i).aborts = false := by
        rw [← Bool.not_eq_true]
        exact fun h => he (Or.inr (Or.inr ⟨hsecond, h⟩))
      have hm := Addressing.wait_inval os server hw hkey hr hinval
      rw [hgoes] at hm
      refine .retrying 200 hm.pc (by omega) (hm.noSendToServer.trans hno) hfirst ?_
      rw [hm.attempts, hatt, tries_succ_of_second hsecond, Nat.add_assoc]
    · have hone : ¬ secondTry os turns i = true := fun h => hinval (secondTry_iff.mp h).1
      have hm := Addressing.wait_failed os server hw hkey hr hinval
      refine .retrying 200 hm.pc (by omega) (hm.noSendToServer.trans hno) hfirst ?_
      rw [hm.attempts, hatt, tries_succ_of_not hone, Nat.add_assoc]

theorem Stage.next (server : SockaddrIn) (hs : Stage os turns noSend n i a)
    (hkey : (turns i).key = '\x00') (hi : i < 200) (he : ¬ Ends os (!noSend) turns i) :
    ∃ b, waitBody os server turns (a, i) = .inl (b, i + 1) ∧
      Stage os turns noSend n (i + 1) b := by
  cases hs with
  | waiting hpc hw hno hfailed hatt =>
    exact ⟨_, waitBody_wait hpc, wait_next server hpc hw hno hfailed hatt hkey hi he⟩
  | retrying waitCycles hpc hcycles hno hfailed hatt =>
    refine ⟨_, waitBody_retry hpc, ?_⟩
    have hsend : (a.client.noSendToServer || (turns i).sendOk) = true := by
      by_contra hstop
      rw [hno, Bool.not_eq_true, Bool.or_eq_false_iff] at hstop
      exact he (Or.inr (Or.inl ⟨hfailed, by rw [hstop.1]; rfl, hstop.2⟩))
    have hreplied : (turns i).replied = false := by
      rw [← Bool.not_eq_true]
      exact fun h => he (Or.inl h)
    have hone := not_secondTry_of_failedBefore os hfailed
    have hm := Addressing.retry_receives (show waitCycles ≠ 0 by omega) hkey hsend
    rw [hreplied] at hm
    refine .retrying (waitCycles - 1) hm.pc (by omega) (hm.noSendToServer.trans hno) ?_ ?_
    · rw [failedBefore_succ, hfailed, Bool.true_or]
    · rw [hm.attempts, hatt, tries_succ_of_not hone, Nat.add_assoc]

/-- The attempts of a wait that turn `k` ends. -/
def triesOfEnd (os : Platform) (sending : Bool) (turns : ℕ → Attempt) (k : ℕ) : ℕ :=
  if failedBefore turns k = true ∧ sending = true ∧ (turns k).sendOk = false then tries os turns k
  else tries os turns (k + 1)

theorem triesOfEnd_sent {sending : Bool} (hfailed : failedBefore turns k = true)
    (hsending : sending = true) (hok : (turns k).sendOk = false) :
    triesOfEnd os sending turns k = tries os turns k := if_pos ⟨hfailed, hsending, hok⟩

theorem triesOfEnd_of_not {sending : Bool}
    (h : ¬ (failedBefore turns k = true ∧ sending = true ∧ (turns k).sendOk = false)) :
    triesOfEnd os sending turns k = tries os turns (k + 1) := if_neg h

theorem wait_ends (server : SockaddrIn) (hpc : a.client.pc = .wait)
    (hw : a.client.waitReceive = true) (hfailed : failedBefore turns k = false)
    (hatt : a.attempts = n + tries os turns k) (hkey : (turns k).key = '\x00')
    (he : Ends os (!noSend) turns k) :
    ∃ b, Returns (waitBody os server turns) (a, k) b ∧
      b.attempts = n + tries os turns (k + 1) := by
  rcases he with hreplied | ⟨h, -⟩ | ⟨hsecond, habort⟩
  · obtain ⟨addr, bytes, hr⟩ := Attempt.replied_iff.mp hreplied
    have hm := Addressing.wait_replied os server hw hkey hr
    have hone : ¬ secondTry os turns k = true :=
      not_secondTry_of_recv os (by rw [hr]; exact nofun)
    have hover : (a.wait os server (turns k)).wait os server (turns (k + 1)) =
        (a.wait os server (turns k)).goTo .top := Addressing.wait_over hm.waitReceive
    have htop : ((a.wait os server (turns k)).wait os server (turns (k + 1))).client.pc =
        .top := by
      rw [hover]
      rfl
    refine ⟨_, (returns_of_left (waitBody_left (Or.inl htop))).next
      (waitBody_wait (hm.pc.trans hpc)) |>.next (waitBody_wait hpc), ?_⟩
    rw [hover]
    change (a.wait os server (turns k)).attempts = _
    rw [hm.attempts, hatt, tries_succ_of_not hone, Nat.add_assoc]
  · rw [hfailed] at h
    cases h
  · obtain ⟨hinval, hr, -⟩ := secondTry_iff.mp hsecond
    have hm := Addressing.wait_inval os server hw hkey hr hinval
    rw [habort] at hm
    refine ⟨_, (returns_of_left (waitBody_left (Or.inr hm.pc))).next (waitBody_wait hpc), ?_⟩
    rw [hm.attempts, hatt, tries_succ_of_second hsecond, Nat.add_assoc]

theorem Stage.ends (server : SockaddrIn) (hs : Stage os turns noSend n k a)
    (hkeys : ∀ i, (turns i).key = '\x00') (hk : k < 200) (he : Ends os (!noSend) turns k) :
    ∃ b, Returns (waitBody os server turns) (a, k) b ∧
      b.attempts = n + triesOfEnd os (!noSend) turns k := by
  cases hs with
  | waiting hpc hw hno hfailed hatt =>
    have hafter : triesOfEnd os (!noSend) turns k = tries os turns (k + 1) := by
      apply triesOfEnd_of_not
      rw [hfailed]
      exact fun h => Bool.false_ne_true h.1
    rw [hafter]
    exact wait_ends server hpc hw hfailed hatt (hkeys k) he
  | retrying waitCycles hpc hcycles hno hfailed hatt =>
    have hrounds : waitCycles ≠ 0 := by omega
    have hone := not_secondTry_of_failedBefore os hfailed
    by_cases hstop : (!noSend) = true ∧ (turns k).sendOk = false
    · have hsend : (a.client.noSendToServer || (turns k).sendOk) = false := by
        rw [hno, hstop.2, Bool.or_false]
        exact Bool.not_eq_true' noSend ▸ hstop.1
      have hm := Addressing.retry_stops hrounds (hkeys k) hsend
      refine ⟨_, (returns_of_left (waitBody_left (Or.inr hm.pc))).next (waitBody_retry hpc), ?_⟩
      rw [hm.attempts, hatt, triesOfEnd_sent hfailed hstop.1 hstop.2]
      rfl
    · have hsend : (a.client.noSendToServer || (turns k).sendOk) = true := by
        by_contra h
        rw [hno, Bool.not_eq_true, Bool.or_eq_false_iff] at h
        exact hstop ⟨by rw [h.1]; rfl, h.2⟩
      have hreplied : (turns k).replied = true := by
        rcases he with h | ⟨-, h⟩ | ⟨h, -⟩
        · exact h
        · exact absurd h hstop
        · exact absurd h hone
      have hm := Addressing.retry_receives hrounds (hkeys k) hsend
      rw [hreplied] at hm
      refine ⟨_, (returns_of_left (waitBody_left (Or.inl hm.pc))).next (waitBody_retry hpc), ?_⟩
      rw [hm.attempts, hatt, triesOfEnd_of_not fun h => hstop h.2, tries_succ_of_not hone,
        Nat.add_assoc]

theorem le_tries : i ≤ tries os turns i := Nat.le_add_right _ _

theorem tries_succ_of_replied (os : Platform) (h : (turns k).replied = true) :
    tries os turns (k + 1) = tries os turns k + 1 := by
  obtain ⟨addr, bytes, hr⟩ := Attempt.replied_iff.mp h
  exact tries_succ_of_not (not_secondTry_of_recv os (by rw [hr]; exact nofun))

theorem endsIn_iff {sending : Bool} : EndsIn os sending turns k ↔
    Ends os sending turns k ∧ triesOfEnd os sending turns k ≤ maxWaitCycles := by
  constructor
  · rintro (⟨h, hlt⟩ | ⟨hf, hsend, hok, hle⟩ | ⟨h, habort, hle⟩)
    · refine ⟨Or.inl h, ?_⟩
      unfold triesOfEnd
      split_ifs
      · omega
      · rw [tries_succ_of_replied os h]
        omega
    · refine ⟨Or.inr (Or.inl ⟨hf, hsend, hok⟩), ?_⟩
      rw [triesOfEnd_sent hf hsend hok]
      exact hle
    · refine ⟨Or.inr (Or.inr ⟨h, habort⟩), ?_⟩
      obtain ⟨-, -, hbefore⟩ := secondTry_iff.mp h
      rw [triesOfEnd_of_not fun hno => Bool.false_ne_true (hbefore ▸ hno.1),
        tries_succ_of_second h]
      exact hle
  · rintro ⟨he, hle⟩
    by_cases hfails : failedBefore turns k = true ∧ sending = true ∧ (turns k).sendOk = false
    · rw [triesOfEnd_sent hfails.1 hfails.2.1 hfails.2.2] at hle
      exact Or.inr (Or.inl ⟨hfails.1, hfails.2.1, hfails.2.2, hle⟩)
    · rw [triesOfEnd_of_not hfails] at hle
      rcases he with h | h | ⟨h, habort⟩
      · rw [tries_succ_of_replied os h] at hle
        exact Or.inl ⟨h, hle⟩
      · exact absurd h hfails
      · rw [tries_succ_of_second h] at hle
        exact Or.inr (Or.inr ⟨h, habort, hle⟩)

theorem triesOfEnd_bounds (os : Platform) (sending : Bool) (turns : ℕ → Attempt) (k : ℕ) :
    tries os turns k ≤ triesOfEnd os sending turns k ∧
      triesOfEnd os sending turns k ≤ tries os turns (k + 1) := by
  have hlt : tries os turns k < tries os turns (k + 1) := tries_strictMono (Nat.lt_succ_self k)
  unfold triesOfEnd
  split_ifs <;> omega

theorem visits_stage (server : SockaddrIn) (hpc : a.client.pc = .wait)
    (hw : a.client.waitReceive = true)
    (hkeys : ∀ i, (turns i).key = '\x00') (hk : k ≤ 200)
    (hne : ∀ i < k, ¬ Ends os (!a.client.noSendToServer) turns i) :
    ∃ b, Visits (waitBody os server turns) (a, 0) (b, k) ∧
      Stage os turns a.client.noSendToServer a.attempts k b := by
  induction k with
  | zero => exact ⟨a, .refl _ _, .waiting hpc hw rfl rfl rfl⟩
  | succ k ih =>
    obtain ⟨b, hv, hs⟩ := ih (by omega) fun i hi => hne i (by omega)
    obtain ⟨c, hc, hs'⟩ := hs.next server (hkeys k) (by omega) (hne k (by omega))
    exact ⟨c, hv.tail hc, hs'⟩

/-- The first turn that ends the wait, if it is one of the first two hundred. -/
theorem wait_returns (server : SockaddrIn) (hpc : a.client.pc = .wait)
    (hw : a.client.waitReceive = true) (hkeys : ∀ i, (turns i).key = '\x00') (hk : k < 200)
    (hne : ∀ i < k, ¬ Ends os (!a.client.noSendToServer) turns i)
    (he : Ends os (!a.client.noSendToServer) turns k) :
    ∃ b, Returns (waitBody os server turns) (a, 0) b ∧
      b.attempts = a.attempts + triesOfEnd os (!a.client.noSendToServer) turns k := by
  obtain ⟨b, hv, hs⟩ := visits_stage server hpc hw hkeys hk.le hne
  obtain ⟨c, hc, hatt⟩ := hs.ends server hkeys hk he
  exact ⟨c, hv.returns_iff.mpr hc, hatt⟩

theorem waitBody_attempts (hkeys : ∀ i, (turns i).key = '\x00') {b : Addressing} {j : ℕ}
    (h : waitBody os server turns (a, i) = .inl (b, j)) : a.attempts ≤ b.attempts := by
  unfold waitBody at h
  dsimp only at h
  split at h
  · cases h
  · cases h
  · cases h
    by_cases hw : a.client.waitReceive = true
    · cases hr : (turns i).recv with
      | again => exact (Addressing.wait_again os server hw (hkeys i) hr).attempts_le
      | datagram addr bytes => exact (Addressing.wait_replied os server hw (hkeys i) hr).attempts_le
      | failed =>
        by_cases hinval : os = .windows ∧ (turns i).inval = true
        · exact (Addressing.wait_inval os server hw (hkeys i) hr hinval).attempts_le
        · exact (Addressing.wait_failed os server hw (hkeys i) hr hinval).attempts_le
    · rw [Bool.not_eq_true] at hw
      rw [Addressing.wait_over hw]
      exact le_rfl
  · rename_i waitCycles hpc
    cases h
    by_cases hcycles : waitCycles = 0
    · rw [hcycles, Addressing.retry, if_pos rfl]
      exact le_rfl
    by_cases hsend : (a.client.noSendToServer || (turns i).sendOk) = true
    · exact (Addressing.retry_receives hcycles (hkeys i) hsend).attempts_le
    · rw [Bool.not_eq_true] at hsend
      exact (Addressing.retry_stops hcycles (hkeys i) hsend).attempts_le

theorem waitBody_result {b : Addressing} (h : waitBody os server turns (a, i) = .inr b) :
    a = b := by
  unfold waitBody at h
  dsimp only at h
  split at h
  · exact Sum.inr.inj h
  · exact Sum.inr.inj h
  · cases h
  · cases h

/-- A wait that the first turns do not end has at least as many attempts behind it. -/
theorem wait_late (hpc : a.client.pc = .wait) (hw : a.client.waitReceive = true)
    (hkeys : ∀ i, (turns i).key = '\x00') (hk : k ≤ 200)
    (hne : ∀ i < k, ¬ Ends os (!a.client.noSendToServer) turns i) {b : Addressing}
    (hb : Returns (waitBody os server turns) (a, 0) b) : a.attempts + k ≤ b.attempts := by
  obtain ⟨c, hv, hs⟩ := visits_stage server hpc hw hkeys hk hne
  have hcatt : a.attempts + k ≤ c.attempts := by
    have hmany : k ≤ tries os turns k := le_tries
    cases hs with
    | waiting _ _ _ _ hatt => omega
    | retrying _ _ _ _ _ hatt => omega
  obtain ⟨⟨d, j⟩, hd, hleft⟩ := (hv.returns_iff.mp hb).invariant
    (fun s => a.attempts + k ≤ s.1.attempts)
    (fun s t hs ht => hs.trans (waitBody_attempts hkeys ht)) hcatt
  rw [← waitBody_result hleft]
  exact hd

theorem wait_ends_iff (hpc : a.client.pc = .wait) (hw : a.client.waitReceive = true)
    (hkeys : ∀ i, (turns i).key = '\x00') :
    (∃ b, Returns (waitBody os server turns) (a, 0) b ∧
      b.attempts ≤ a.attempts + maxWaitCycles) ↔
      ∃ k, EndsIn os (!a.client.noSendToServer) turns k := by
  classical
  have hmax : maxWaitCycles = 3 := rfl
  constructor
  · rintro ⟨b, hb, hatt⟩
    by_cases hex : ∃ k, Ends os (!a.client.noSendToServer) turns k
    · have hends := Nat.find_spec hex
      have hne := fun i => Nat.find_min hex (m := i)
      generalize Nat.find hex = k at hends hne
      have hk : k < 4 := by
        by_contra hlarge
        have hfour : 4 ≤ k := Nat.le_of_not_lt hlarge
        have hlate := wait_late hpc hw hkeys (by omega) (fun i hi => hne i (hi.trans_le hfour)) hb
        omega
      obtain ⟨c, hc, hcatt⟩ := wait_returns server hpc hw hkeys (by omega) hne hends
      rw [hb.unique hc, hcatt] at hatt
      exact ⟨k, endsIn_iff.mpr ⟨hends, by omega⟩⟩
    · have hlate := wait_late hpc hw hkeys (show 4 ≤ 200 by decide)
        (fun i _ he => hex ⟨i, he⟩) hb
      omega
  · rintro ⟨k, hk⟩
    obtain ⟨hends, hle⟩ := endsIn_iff.mp hk
    have hex : ∃ k, Ends os (!a.client.noSendToServer) turns k := ⟨k, hends⟩
    have hmin := Nat.find_min' hex hends
    have hfirst := Nat.find_spec hex
    have hne := fun i => Nat.find_min hex (m := i)
    generalize Nat.find hex = k' at hmin hfirst hne
    have hbounds := triesOfEnd_bounds os (!a.client.noSendToServer) turns k
    have hbounds' := triesOfEnd_bounds os (!a.client.noSendToServer) turns k'
    have hsmall : k ≤ tries os turns k := le_tries
    obtain ⟨b, hb, hatt⟩ := wait_returns server hpc hw hkeys (by omega) hne hfirst
    refine ⟨b, hb, ?_⟩
    rw [hatt]
    rcases Nat.lt_or_eq_of_le hmin with hlt | rfl
    · have hmono := tries_strictMono.monotone (f := tries os turns) (Nat.succ_le_of_lt hlt)
      simp only [Nat.succ_eq_add_one] at hmono
      omega
    · omega

end

end TcpTests.Udpclient
