import TcpTests.Udpclient.WaitBound
import TcpTests.Mpclient.Client

/-! The wait of `mpclient` for a reply as a loop that counts its attempts to receive, beside that
of `udpclient`. `mpclient` compares `wait_cycles` with `max_wait_cycles`, and `udpclient` does
not. -/
namespace TcpTests.Mpclient
open Lib Net Fgmp

def Client.receives (round : Wait) (c : Client) : Bool :=
  !(c.checkKey round.key).2 && decide (c.waitCycles + 1 ≤ maxWaitCycles)

/-- A test of `wait_receive` and the round after it, with the calls of `recvfrom` so far. -/
def waitBody (w : ℕ → Wait) (buflen : ℕ) : Client × ℕ → (Client × ℕ) ⊕ (Client × ℕ)
  | (c, attempts) =>
    if c.waitReceive then
      let r := c.waitRound (w c.waitCycles) buflen
      let attempts := attempts + if c.receives (w c.waitCycles) then 1 else 0
      if r.2 then .inl (r.1, attempts) else .inr (r.1, attempts)
    else .inr (c, attempts)

section
variable {w : ℕ → Wait} {buflen attempts : ℕ} {c : Client}

theorem waitBody_round {n k : ℕ} (hw : c.waitReceive = true) :
    waitBody w n (c, k) =
      let r := c.waitRound (w c.waitCycles) n
      let attempts := k + if c.receives (w c.waitCycles) then 1 else 0
      if r.2 then .inl (r.1, attempts) else .inr (r.1, attempts) :=
  if_pos hw

theorem waitBody_returns (h : attempts ≤ c.waitCycles) (hmax : c.waitCycles ≤ maxWaitCycles) :
    ∃ n, Returns (waitBody w buflen) (c, attempts) (c.waitReply w buflen, n) ∧
      n ≤ maxWaitCycles := by
  induction hk : maxWaitCycles - c.waitCycles using Nat.strongRecOn generalizing c attempts with
  | ind k ih =>
    by_cases hw : c.waitReceive = true
    · have hbody := waitBody_round (w := w) (n := buflen) (k := attempts) hw
      by_cases hr : (c.waitRound (w c.waitCycles) buflen).2 = true
      · obtain ⟨hcycles, hlt⟩ := Client.waitRound_cycles hr
        have hcount : attempts + (if c.receives (w c.waitCycles) then 1 else 0) ≤
            (c.waitRound (w c.waitCycles) buflen).1.waitCycles := by
          rw [hcycles]
          split_ifs <;> omega
        obtain ⟨n, hn, hle⟩ := ih _ (by rw [hcycles]; omega) hcount (by rw [hcycles]; exact hlt) rfl
        refine ⟨n, ?_, hle⟩
        rw [Client.waitReply, if_pos hw, dif_pos hr]
        exact hn.next (hbody.trans (if_pos hr))
      · refine ⟨attempts + if c.receives (w c.waitCycles) then 1 else 0, ?_, ?_⟩
        · rw [Client.waitReply, if_pos hw, dif_neg hr]
          exact returns_of_left (hbody.trans (if_neg hr))
        · by_cases hrecv : c.receives (w c.waitCycles) = true
          · rw [if_pos hrecv]
            simp only [Client.receives, Bool.and_eq_true, decide_eq_true_eq] at hrecv
            omega
          · rw [if_neg hrecv]
            omega
    · refine ⟨attempts, ?_, h.trans hmax⟩
      rw [Client.waitReply, if_neg hw]
      exact returns_of_left (if_neg hw)

end

/-- Without a key, the wait of `udpclient` ends within `max_wait_cycles` attempts to receive if
and only if a turn ends it in time: one with a datagram, one whose `sendto` fails after an error,
or on Windows one with two errors `WSAEINVAL`. That of `mpclient` always does. -/
theorem wait_bounded_iff (os : Platform) (server : SockaddrIn) (turns : ℕ → Udpclient.Attempt)
    (a : Udpclient.Addressing) (w : ℕ → Wait) (buflen : ℕ) (c : Client)
    (hpc : a.client.pc = .wait) (hwait : a.client.waitReceive = true)
    (hkeys : ∀ i, (turns i).key = '\x00') (hcycles : c.waitCycles = 0) :
    ((∃ b, Returns (Udpclient.waitBody os server turns) (a, 0) b ∧
        b.attempts ≤ a.attempts + Udpclient.maxWaitCycles) ↔
      ∃ k, Udpclient.EndsIn os (!a.client.noSendToServer) turns k) ∧
    ∃ n, Returns (waitBody w buflen) (c, 0) (c.waitReply w buflen, n) ∧ n ≤ maxWaitCycles := by
  have hmax : c.waitCycles ≤ maxWaitCycles := by
    rw [hcycles]
    exact Nat.zero_le _
  exact ⟨Udpclient.wait_ends_iff hpc hwait hkeys, waitBody_returns (Nat.zero_le _) hmax⟩

def waiting : Udpclient.Addressing :=
  Udpclient.Addressing.top (.start (.start ⟨0, 0⟩ false 0)) ⟨'\x00', true, .again⟩

def sent : Client := { Client.start ⟨0, 0⟩ 0 none with waitReceive := true }

def lostReplies (_ : ℕ) : Udpclient.Attempt := Udpclient.keyTurn '\x00'

theorem wait_unbounded : ¬ ∃ b,
    Returns (Udpclient.waitBody .unix ⟨0, 0⟩ lostReplies) (waiting, 0) b ∧
      b.attempts ≤ waiting.attempts + Udpclient.maxWaitCycles := by
  rw [Udpclient.wait_ends_iff rfl rfl fun _ => rfl]
  rintro ⟨k, ⟨hreplied, -⟩ | ⟨-, -, hok, -⟩ | ⟨hsecond, -⟩⟩
  · cases hreplied
  · cases hok
  · cases hsecond

def secondReplies : ℕ → Udpclient.Attempt
  | 1 => ⟨⟨'\x00', true, .datagram ⟨0, 0⟩ []⟩, false, .again, false⟩
  | _ => Udpclient.keyTurn '\x00'

theorem secondReplies_key (i : ℕ) : (secondReplies i).key = '\x00' := by
  unfold secondReplies
  split <;> rfl

theorem wait_bounded_sample :
    (∃ b, Returns (Udpclient.waitBody .unix ⟨0, 0⟩ secondReplies) (waiting, 0) b ∧
      b.attempts ≤ waiting.attempts + Udpclient.maxWaitCycles) ∧
    ∃ n, Returns (waitBody (fun _ => ⟨'\x00', .again⟩) 100) (sent, 0)
      (sent.waitReply (fun _ => ⟨'\x00', .again⟩) 100, n) ∧ n ≤ maxWaitCycles := by
  have hiff := wait_bounded_iff .unix ⟨0, 0⟩ secondReplies waiting (fun _ => ⟨'\x00', .again⟩) 100
    sent rfl rfl secondReplies_key rfl
  exact ⟨hiff.1.mpr ⟨1, Or.inl ⟨rfl, by decide⟩⟩, hiff.2⟩

end TcpTests.Mpclient
