import TcpTests.Lib.Machine
import TcpTests.Sockhelp.Sockhelp

/-! `sock_write` and `sock_read` with their pointers and counters. One input of each machine is
the outcome of one call of `write` or `read`; a call never transfers more than it is asked for.
Counts are within `int`. -/
namespace TcpTests.Sockhelp
open Lib

def WriteOutcome.result : WriteOutcome → ℤ
  | .accepted n => n
  | .interrupted | .failed => -1

/-- The variables of `sock_write`, the bytes that the socket has accepted, and the return value
once there is one. -/
structure SockWrite where
  bytesSent : ℕ
  buf : ℕ
  wire : List Byte
  ret : Option ℤ
  deriving DecidableEq, Repr

def SockWrite.start (count buf : ℕ) : SockWrite where
  bytesSent := 0
  buf := buf
  wire := []
  ret := if 0 < count then none else some count

/-- An interrupted call is made again. -/
def sockWriteCall (m : Mem) (count : ℕ) (s : SockWrite) (o : WriteOutcome) : Option SockWrite :=
  if s.ret.isSome then none
  else
    match o with
    | .interrupted => some s
    | .failed => some { s with ret := some (-1) }
    | .accepted n =>
      let thisWrite := min n (count - s.bytesSent)
      if thisWrite = 0 then some { s with ret := some 0 }
      else
        some {
          bytesSent := s.bytesSent + thisWrite
          buf := s.buf + thisWrite
          wire := s.wire ++ m.read s.buf thisWrite
          ret := if s.bytesSent + thisWrite < count then none else some count }

/-- The outcome of one `read`: some bytes of the stream, none at its end, an interruption or
another error. -/
inductive ReadOutcome
  | received (n : ℕ)
  | interrupted
  | failed
  deriving DecidableEq, Repr

/-- The variables of `sock_read`, memory, the position in the stream, and the return value once
there is one. -/
structure SockRead where
  bytesRead : ℕ
  buf : ℕ
  mem : Mem
  pos : ℕ
  ret : Option ℤ

def SockRead.start (m : Mem) (count buf : ℕ) : SockRead where
  bytesRead := 0
  buf := buf
  mem := m
  pos := 0
  ret := if 0 < count then none else some count

def sockReadCall (stream : Mem) (count : ℕ) (s : SockRead) (o : ReadOutcome) : Option SockRead :=
  if s.ret.isSome then none
  else
    match o with
    | .interrupted => some s
    | .failed => some { s with ret := some (-1) }
    | .received n =>
      let thisRead := min n (count - s.bytesRead)
      if thisRead = 0 then some { s with ret := some s.bytesRead }
      else
        some {
          bytesRead := s.bytesRead + thisRead
          buf := s.buf + thisRead
          mem := s.mem.write s.buf (stream.read s.pos thisRead)
          pos := s.pos + thisRead
          ret := if s.bytesRead + thisRead < count then none else some count }

section Write
variable {m : Mem} {count buf : ℕ} {s t : SockWrite} {o : WriteOutcome} {outs : List WriteOutcome}

theorem sockWriteCall_cases (hlt : s.ret = none → s.bytesSent < count)
    (h : sockWriteCall m count s o = some t) :
    s.ret = none ∧
      ((o = .interrupted ∧ t = s) ∨
        (o ≠ .interrupted ∧ o.result ≤ 0 ∧ t = { s with ret := some o.result }) ∨
        ∃ k, o ≠ .interrupted ∧ 0 < k ∧ k ≤ count - s.bytesSent ∧ t = {
          bytesSent := s.bytesSent + k
          buf := s.buf + k
          wire := s.wire ++ m.read s.buf k
          ret := if s.bytesSent + k < count then none else some count }) := by
  unfold sockWriteCall at h
  by_cases hrun : s.ret.isSome
  · rw [if_pos hrun] at h
    cases h
  · rw [if_neg hrun] at h
    have hnone : s.ret = none := by simpa using hrun
    refine ⟨hnone, ?_⟩
    have hleft := hlt hnone
    cases o with
    | interrupted =>
      cases h
      exact Or.inl ⟨rfl, rfl⟩
    | failed =>
      cases h
      exact Or.inr (Or.inl ⟨by simp, by decide, rfl⟩)
    | accepted n =>
      dsimp only at h
      by_cases hz : min n (count - s.bytesSent) = 0
      · rw [if_pos hz] at h
        cases h
        have hn : n = 0 := by omega
        rw [hn]
        exact Or.inr (Or.inl ⟨by simp, le_rfl, rfl⟩)
      · rw [if_neg hz] at h
        cases h
        exact Or.inr (Or.inr ⟨min n (count - s.bytesSent), by simp, by omega, by omega, rfl⟩)

theorem sockWriteCall_none (h : sockWriteCall m count s o = none) : s.ret ≠ none := by
  intro hret
  unfold sockWriteCall at h
  rw [if_neg (by simp [hret])] at h
  cases o with
  | interrupted | failed => cases h
  | accepted n =>
    dsimp only at h
    split_ifs at h

/-- The pointer, the counter and the bytes accepted stay together. -/
structure SockWrite.Inv (m : Mem) (count buf : ℕ) (s : SockWrite) : Prop where
  le : s.bytesSent ≤ count
  pointer : s.buf = buf + s.bytesSent
  wire : s.wire = m.read buf s.bytesSent
  whole : s.ret = some (count : ℤ) ↔ s.bytesSent = count

theorem SockWrite.Inv.lt (hs : s.Inv m count buf) (hret : s.ret = none) : s.bytesSent < count := by
  have hne : s.bytesSent ≠ count := by
    intro he
    rw [hs.whole.mpr he] at hret
    cases hret
  have hle := hs.le
  omega

theorem SockWrite.Inv.start (m : Mem) (count buf : ℕ) :
    (SockWrite.start count buf).Inv m count buf := by
  constructor
  · exact Nat.zero_le count
  · rfl
  · rfl
  · unfold SockWrite.start
    dsimp only
    split_ifs with hc
    · simp
      omega
    · simp
      omega

theorem sockWriteCall_inv (hs : s.Inv m count buf) (h : sockWriteCall m count s o = some t) :
    t.Inv m count buf := by
  obtain ⟨hret, hcases⟩ := sockWriteCall_cases hs.lt h
  have hlt := hs.lt hret
  rcases hcases with ⟨-, rfl⟩ | ⟨-, hr, rfl⟩ | ⟨k, -, hk, hle, rfl⟩
  · exact hs
  · refine ⟨hs.le, hs.pointer, hs.wire, ?_⟩
    dsimp only
    rw [Option.some.injEq]
    omega
  · constructor
    · dsimp only
      omega
    · dsimp only
      rw [hs.pointer, Nat.add_assoc]
    · dsimp only
      rw [hs.wire, hs.pointer, Mem.read_add]
    · dsimp only
      split_ifs
      · simp
        omega
      · simp
        omega

/-- The bytes accepted are a prefix of the buffer. The count is returned when all of it was
accepted; another return value is that of the last call, which was not interrupted. While the
function runs, every call that was not interrupted has sent something. -/
theorem sockWrite_run (hr : runs (sockWriteCall m count) (.start count buf) outs = some s) :
    s.Inv m count buf ∧
      (∀ r, s.ret = some r → s.bytesSent ≠ count →
        ∃ o, outs.getLast? = some o ∧ o ≠ .interrupted ∧ o.result = r) ∧
      (s.ret = none → outs.countP (· ≠ .interrupted) ≤ s.bytesSent) := by
  induction outs using List.reverseRecOn generalizing s with
  | nil =>
    cases hr
    refine ⟨.start m count buf, ?_, fun _ => le_rfl⟩
    intro r hret hne
    have hinv := SockWrite.Inv.start m count buf
    unfold SockWrite.start at hret hne
    dsimp only at hret hne
    split_ifs at hret
    omega
  | append_singleton outs o ih =>
    obtain ⟨u, hu, ho⟩ := runs_concat.mp hr
    obtain ⟨hinv, -, hcount⟩ := ih hu
    refine ⟨sockWriteCall_inv hinv ho, ?_⟩
    obtain ⟨hret, hcases⟩ := sockWriteCall_cases hinv.lt ho
    have hsent := hcount hret
    rw [List.getLast?_concat, List.countP_append]
    rcases hcases with ⟨rfl, rfl⟩ | ⟨hne, -, rfl⟩ | ⟨k, hne, hk, hle, rfl⟩
    · constructor
      · intro r hr'
        rw [hret] at hr'
        cases hr'
      · intro _
        simpa using hsent
    · constructor
      · intro r hr' _
        exact ⟨o, rfl, hne, Option.some.inj hr'⟩
      · intro hr'
        cases hr'
    · dsimp only
      constructor
      · intro r hr' hpart
        split_ifs at hr' with hmore
        omega
      · intro _
        rw [List.countP_singleton]
        split_ifs <;> omega

theorem sockWriteCall_returned {r : ℤ} (hret : s.ret = some r)
    (hr : runs (sockWriteCall m count) s outs = some t) : outs = [] ∧ t = s := by
  cases outs with
  | nil =>
    cases hr
    exact ⟨rfl, rfl⟩
  | cons o outs =>
    obtain ⟨u, hu, -⟩ := runs_cons.mp hr
    unfold sockWriteCall at hu
    rw [if_pos (by rw [hret, Option.isSome_some])] at hu
    cases hu

theorem sockWriteLoop_run {r : ℤ} (hs : s.Inv m count buf) (hret : s.ret = none)
    (hr : runs (sockWriteCall m count) s outs = some t) (ht : t.ret = some r) :
    ∃ bytes, sockWriteLoop count (m.read s.buf (count - s.bytesSent)) outs = some (bytes, r) ∧
      t.wire = s.wire ++ bytes := by
  induction outs generalizing s with
  | nil =>
    cases hr
    rw [hret] at ht
    cases ht
  | cons o outs ih =>
    obtain ⟨u, hu, hr⟩ := runs_cons.mp hr
    have hlt := hs.lt hret
    obtain ⟨c, cs, hcs⟩ : ∃ c cs, m.read s.buf (count - s.bytesSent) = c :: cs := by
      apply List.exists_cons_of_length_pos
      rw [Mem.read_length]
      omega
    have hinv := sockWriteCall_inv hs hu
    have hrun : ¬ s.ret.isSome := by
      rw [hret]
      simp
    unfold sockWriteCall at hu
    rw [if_neg hrun] at hu
    cases o with
    | interrupted =>
      cases hu
      rw [hcs, sockWriteLoop, ← hcs]
      exact ih hs hret hr
    | failed =>
      cases hu
      obtain ⟨-, rfl⟩ := sockWriteCall_returned rfl hr
      cases ht
      rw [hcs]
      exact ⟨[], rfl, (List.append_nil _).symm⟩
    | accepted n =>
      dsimp only at hu
      rw [hcs, sockWriteLoop, ← hcs]
      by_cases hz : min n (count - s.bytesSent) = 0
      · rw [if_pos hz] at hu
        cases hu
        obtain ⟨-, rfl⟩ := sockWriteCall_returned rfl hr
        cases ht
        rw [if_pos (by omega)]
        exact ⟨[], rfl, (List.append_nil _).symm⟩
      · rw [if_neg hz] at hu
        cases hu
        rw [if_neg (by omega), Mem.read_take_min, Mem.read_drop_min, Nat.sub_sub]
        by_cases hmore : s.bytesSent + min n (count - s.bytesSent) < count
        · obtain ⟨bytes, hloop, hwire⟩ := ih hinv (if_pos hmore) hr
          refine ⟨m.read s.buf (min n (count - s.bytesSent)) ++ bytes, ?_, ?_⟩
          · rw [hloop]
            rfl
          · rw [hwire, List.append_assoc]
        · obtain ⟨rfl, rfl⟩ := sockWriteCall_returned (if_neg hmore) hr
          dsimp only at ht
          rw [if_neg hmore, Option.some.injEq] at ht
          refine ⟨m.read s.buf (min n (count - s.bytesSent)), ?_, rfl⟩
          have hzero : count - (s.bytesSent + min n (count - s.bytesSent)) = 0 := by omega
          rw [hzero, Mem.read_zero, sockWriteLoop, Option.map_some, List.append_nil, ht]

theorem sockWrite_eq {r : ℤ} (hr : runs (sockWriteCall m count) (.start count buf) outs = some s)
    (hret : s.ret = some r) : sockWrite (m.read buf count) outs = some (s.wire, r) := by
  unfold sockWrite
  rw [Mem.read_length]
  by_cases hc : 0 < count
  · obtain ⟨bytes, hloop, hwire⟩ :=
      sockWriteLoop_run (.start m count buf) (if_pos hc) hr hret
    rw [hwire]
    exact hloop
  · obtain ⟨rfl, rfl⟩ := sockWriteCall_returned (if_neg hc) hr
    have hzero : count = 0 := by omega
    subst hzero
    cases hret
    rfl

end Write

section Read
variable {m stream : Mem} {count buf : ℕ} {s t : SockRead} {o : ReadOutcome}
  {outs : List ReadOutcome}

/-- The bytes read lie in memory, in order, and nothing else has been written. -/
structure SockRead.Inv (m stream : Mem) (count buf : ℕ) (s : SockRead) : Prop where
  le : s.bytesRead ≤ count
  pointer : s.buf = buf + s.bytesRead
  mem : s.mem = m.write buf (stream.read 0 s.bytesRead)
  pos : s.pos = s.bytesRead
  lt : s.ret = none → s.bytesRead < count

theorem SockRead.Inv.start (m stream : Mem) (count buf : ℕ) :
    (SockRead.start m count buf).Inv m stream count buf := by
  constructor
  · exact Nat.zero_le count
  · rfl
  · exact (Mem.write_nil m buf).symm
  · rfl
  · unfold SockRead.start
    dsimp only
    split_ifs with hc
    · exact fun _ => hc
    · nofun

theorem sockReadCall_cases (hlt : s.ret = none → s.bytesRead < count)
    (h : sockReadCall stream count s o = some t) :
    s.ret = none ∧
      ((o = .interrupted ∧ t = s) ∨ (o = .failed ∧ t = { s with ret := some (-1) }) ∨
        (o = .received 0 ∧ t = { s with ret := some s.bytesRead }) ∨
        ∃ k, o ≠ .interrupted ∧ 0 < k ∧ k ≤ count - s.bytesRead ∧ t = {
          bytesRead := s.bytesRead + k
          buf := s.buf + k
          mem := s.mem.write s.buf (stream.read s.pos k)
          pos := s.pos + k
          ret := if s.bytesRead + k < count then none else some count }) := by
  unfold sockReadCall at h
  by_cases hrun : s.ret.isSome
  · rw [if_pos hrun] at h
    cases h
  · rw [if_neg hrun] at h
    have hnone : s.ret = none := by simpa using hrun
    refine ⟨hnone, ?_⟩
    have hleft := hlt hnone
    cases o with
    | interrupted =>
      cases h
      exact Or.inl ⟨rfl, rfl⟩
    | failed =>
      cases h
      exact Or.inr (Or.inl ⟨rfl, rfl⟩)
    | received n =>
      dsimp only at h
      by_cases hz : min n (count - s.bytesRead) = 0
      · rw [if_pos hz] at h
        cases h
        have hn : n = 0 := by omega
        rw [hn]
        exact Or.inr (Or.inr (Or.inl ⟨rfl, rfl⟩))
      · rw [if_neg hz] at h
        cases h
        exact Or.inr (Or.inr (Or.inr
          ⟨min n (count - s.bytesRead), by simp, by omega, by omega, rfl⟩))

theorem sockReadCall_none (h : sockReadCall stream count s o = none) : s.ret ≠ none := by
  intro hret
  unfold sockReadCall at h
  rw [if_neg (by simp [hret])] at h
  cases o with
  | interrupted | failed => cases h
  | received n =>
    dsimp only at h
    split_ifs at h

theorem sockReadCall_inv (hs : s.Inv m stream count buf)
    (h : sockReadCall stream count s o = some t) : t.Inv m stream count buf := by
  obtain ⟨hret, hcases⟩ := sockReadCall_cases hs.lt h
  rcases hcases with ⟨-, rfl⟩ | ⟨-, rfl⟩ | ⟨-, rfl⟩ | ⟨k, -, hk, hle, rfl⟩
  · exact hs
  · exact ⟨hs.le, hs.pointer, hs.mem, hs.pos, nofun⟩
  · exact ⟨hs.le, hs.pointer, hs.mem, hs.pos, nofun⟩
  · constructor
    · dsimp only
      omega
    · dsimp only
      rw [hs.pointer, Nat.add_assoc]
    · dsimp only
      rw [hs.mem, hs.pos, Mem.write_write _ _ _ (by rw [Mem.read_length, hs.pointer]),
        Mem.read_add, Nat.zero_add]
    · dsimp only
      rw [hs.pos]
    · dsimp only
      split_ifs with hmore
      · exact fun _ => hmore
      · nofun

/-- A result that is not negative is the number of bytes read, less than `count` only at the end
of the stream; a negative one comes from a call that failed. While the function runs, every call
that was not interrupted has read something. -/
theorem sockRead_run (hr : runs (sockReadCall stream count) (.start m count buf) outs = some s) :
    s.Inv m stream count buf ∧
      (∀ r, s.ret = some r →
        (r = s.bytesRead ∧ (s.bytesRead < count → outs.getLast? = some (.received 0))) ∨
          r < 0 ∧ outs.getLast? = some .failed) ∧
      (s.ret = none → outs.countP (· ≠ .interrupted) ≤ s.bytesRead) := by
  induction outs using List.reverseRecOn generalizing s with
  | nil =>
    cases hr
    refine ⟨.start m stream count buf, ?_, fun _ => le_rfl⟩
    intro r hret
    unfold SockRead.start at hret ⊢
    dsimp only at hret ⊢
    split_ifs at hret with hc
    cases hret
    left
    omega
  | append_singleton outs o ih =>
    obtain ⟨u, hu, ho⟩ := runs_concat.mp hr
    obtain ⟨hinv, -, hcount⟩ := ih hu
    refine ⟨sockReadCall_inv hinv ho, ?_⟩
    obtain ⟨hret, hcases⟩ := sockReadCall_cases hinv.lt ho
    have hread := hcount hret
    rw [List.getLast?_concat, List.countP_append]
    rcases hcases with ⟨rfl, rfl⟩ | ⟨rfl, rfl⟩ | ⟨rfl, rfl⟩ | ⟨k, hne, hk, hle, rfl⟩
    · constructor
      · intro r hr'
        rw [hret] at hr'
        cases hr'
      · intro _
        simpa using hread
    · constructor
      · intro r hr'
        cases hr'
        exact Or.inr ⟨by decide, rfl⟩
      · intro hr'
        cases hr'
    · constructor
      · intro r hr'
        cases hr'
        exact Or.inl ⟨rfl, fun _ => rfl⟩
      · intro hr'
        cases hr'
    · dsimp only
      constructor
      · intro r hr'
        split_ifs at hr' with hmore
        cases hr'
        left
        omega
      · intro _
        rw [List.countP_singleton]
        split_ifs <;> omega

end Read

end TcpTests.Sockhelp
