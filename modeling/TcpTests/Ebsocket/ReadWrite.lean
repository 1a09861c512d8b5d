import TcpTests.Sockhelp.ReadWrite

/-! `tcp_write`, `tcp_read` and `tcp_readFully` of `ebsocket.c`, and the same functions of
`sockhelp.c`: each call of the first is a call of the second, with other outcomes. -/
namespace TcpTests.Ebsocket
open Lib Sockhelp

/-- The variables of `tcp_write`, the bytes that the socket has accepted, and the return value
once there is one. -/
structure TcpWrite where
  buf : ℕ
  buflen : ℕ
  wire : List Byte
  ret : Option ℤ
  deriving DecidableEq, Repr

def TcpWrite.start (buflen buf : ℕ) : TcpWrite where
  buf := buf
  buflen := buflen
  wire := []
  ret := if buflen ≠ 0 then none else some buflen

/-- One call of `send`. Any failure ends the loop. -/
def tcpWriteCall (m : Mem) (savelen : ℕ) (s : TcpWrite) (o : WriteOutcome) : Option TcpWrite :=
  if s.ret.isSome then none
  else
    match o with
    | .interrupted | .failed => some { s with ret := some (-1) }
    | .accepted accepted =>
      let n := min accepted s.buflen
      some {
        buf := s.buf + n
        buflen := s.buflen - n
        wire := s.wire ++ m.read s.buf n
        ret := if s.buflen - n ≠ 0 then none else some savelen }

/-- The variables of `tcp_readFully`, memory, the position in the stream, and the return value
once there is one. -/
structure TcpRead where
  n : ℕ
  buflen : ℕ
  buf : ℕ
  mem : Mem
  pos : ℕ
  ret : Option ℤ

def TcpRead.start (m : Mem) (buflen buf : ℕ) : TcpRead where
  n := 0
  buflen := buflen
  buf := buf
  mem := m
  pos := 0
  ret := if buflen ≠ 0 then none else some 0

def tcpRead (stream : Mem) (pos : ℕ) (mem : Mem) (buf buflen : ℕ) : ReadOutcome → Mem × ℤ
  | .interrupted | .failed => (mem, -1)
  | .received n => (mem.write buf (stream.read pos (min n buflen)), (min n buflen : ℕ))

def tcpReadCall (stream : Mem) (s : TcpRead) (o : ReadOutcome) : Option TcpRead :=
  if s.ret.isSome then none
  else
    let r := tcpRead stream s.pos s.mem s.buf s.buflen o
    let rc := r.2
    if rc < 0 then some { s with mem := r.1, ret := some rc }
    else if rc = 0 then some { s with mem := r.1, ret := some s.n }
    else
      some {
        n := s.n + rc.toNat
        buflen := s.buflen - rc.toNat
        buf := s.buf + rc.toNat
        mem := r.1
        pos := s.pos + rc.toNat
        ret := if s.buflen - rc.toNat ≠ 0 then none else some (s.n + rc.toNat : ℕ) }

/-- An outcome as `sock_write` would have to meet it: an interruption ends `tcp_write` like any
error, and if nothing is accepted the call is made again. -/
def asSockWrite : WriteOutcome → WriteOutcome
  | .interrupted | .failed => .failed
  | .accepted n => if n = 0 then .interrupted else .accepted n

def asSockRead : ReadOutcome → ReadOutcome
  | .interrupted | .failed => .failed
  | .received n => .received n

def TcpWrite.toSock (count : ℕ) (s : TcpWrite) : SockWrite where
  bytesSent := count - s.buflen
  buf := s.buf
  wire := s.wire
  ret := s.ret

def TcpRead.toSock (s : TcpRead) : SockRead where
  bytesRead := s.n
  buf := s.buf
  mem := s.mem
  pos := s.pos
  ret := s.ret

section Write
variable {m : Mem} {count buf : ℕ} {s t : TcpWrite} {o : WriteOutcome} {outs : List WriteOutcome}

def TcpWrite.Valid (count : ℕ) (s : TcpWrite) : Prop :=
  s.buflen ≤ count ∧ (s.ret = none → s.buflen ≠ 0)

theorem TcpWrite.Valid.start (count buf : ℕ) : (TcpWrite.start count buf).Valid count := by
  refine ⟨le_rfl, ?_⟩
  unfold TcpWrite.start
  dsimp only
  split_ifs with hz
  · exact fun _ => hz
  · nofun

theorem TcpWrite.start_toSock : (TcpWrite.start count buf).toSock count = .start count buf := by
  unfold TcpWrite.toSock TcpWrite.start SockWrite.start
  simp [Nat.pos_iff_ne_zero]

theorem tcpWriteCall_none (h : tcpWriteCall m count s o = none) : s.ret ≠ none := by
  intro hret
  unfold tcpWriteCall at h
  rw [if_neg (by simp [hret])] at h
  cases o with
  | interrupted | failed | accepted => cases h

theorem tcpWriteCall_valid (hs : s.Valid count) (h : tcpWriteCall m count s o = some t) :
    t.Valid count := by
  obtain ⟨hle, -⟩ := hs
  unfold tcpWriteCall at h
  split_ifs at h
  cases o with
  | interrupted | failed =>
    cases h
    exact ⟨hle, nofun⟩
  | accepted n =>
    cases h
    refine ⟨(Nat.sub_le _ _).trans hle, ?_⟩
    dsimp only
    split_ifs with hz
    · exact fun _ => hz
    · nofun

theorem tcpWriteCall_toSock (hs : s.Valid count) (o : WriteOutcome) :
    (tcpWriteCall m count s o).map (TcpWrite.toSock count) =
      sockWriteCall m count (s.toSock count) (asSockWrite o) := by
  obtain ⟨hle, hlt⟩ := hs
  unfold tcpWriteCall sockWriteCall
  by_cases hrun : s.ret.isSome
  · rw [if_pos hrun, if_pos (show (s.toSock count).ret.isSome from hrun)]
    rfl
  · rw [if_neg hrun, if_neg (show ¬ (s.toSock count).ret.isSome from hrun)]
    have hnone : s.ret = none := by simpa using hrun
    have hleft := hlt hnone
    cases o with
    | interrupted | failed => rfl
    | accepted n =>
      have hbytes : (s.toSock count).bytesSent = count - s.buflen := rfl
      have hcount : count - (count - s.buflen) = s.buflen := by omega
      by_cases hz : n = 0
      · subst hz
        rw [asSockWrite, if_pos rfl]
        simp [TcpWrite.toSock, hleft, hnone]
      · have hk : min n s.buflen ≠ 0 := by omega
        rw [asSockWrite, if_neg hz]
        dsimp only
        simp only [hbytes, hcount]
        rw [if_neg hk, Option.map_some]
        unfold TcpWrite.toSock
        congr 2
        · dsimp only
          omega
        · dsimp only
          by_cases hmore : s.buflen - min n s.buflen ≠ 0
          · rw [if_pos hmore, if_pos (by omega)]
          · rw [if_neg hmore, if_neg (by omega)]

theorem tcpWrite_toSock (m : Mem) (count buf : ℕ) (outs : List WriteOutcome) :
    (runs (tcpWriteCall m count) (.start count buf) outs).map (TcpWrite.toSock count) =
      runs (sockWriteCall m count) (.start count buf) (outs.map asSockWrite) := by
  rw [← TcpWrite.start_toSock]
  exact runs_map (TcpWrite.Valid count) (TcpWrite.toSock count) asSockWrite
    (fun _ _ _ => tcpWriteCall_valid) (fun _ o hs => tcpWriteCall_toSock hs o)
    (TcpWrite.Valid.start count buf)

theorem asSockWrite_ne (o : WriteOutcome) : asSockWrite o ≠ .interrupted ↔ o ≠ .accepted 0 := by
  cases o with
  | interrupted | failed => simp [asSockWrite]
  | accepted n =>
    by_cases hz : n = 0
    · simp [asSockWrite, hz]
    · simp [asSockWrite, hz]

theorem asSockWrite_result (ho : o ≠ .accepted 0) : (asSockWrite o).result = o.result := by
  cases o with
  | interrupted | failed => rfl
  | accepted n =>
    have hz : n ≠ 0 := by
      rintro rfl
      exact ho rfl
    rw [asSockWrite, if_neg hz]

end Write

section Read
variable {m stream : Mem} {count buf : ℕ} {s t : TcpRead} {o : ReadOutcome}
  {outs : List ReadOutcome}

def TcpRead.Valid (count : ℕ) (s : TcpRead) : Prop :=
  s.n + s.buflen = count ∧ (s.ret = none → s.buflen ≠ 0)

theorem TcpRead.Valid.start (m : Mem) (count buf : ℕ) : (TcpRead.start m count buf).Valid count := by
  refine ⟨Nat.zero_add count, ?_⟩
  unfold TcpRead.start
  dsimp only
  split_ifs with hz
  · exact fun _ => hz
  · nofun

theorem TcpRead.start_toSock : (TcpRead.start m count buf).toSock = .start m count buf := by
  unfold TcpRead.toSock TcpRead.start SockRead.start
  by_cases hz : count = 0
  · subst hz
    rfl
  · simp [hz, Nat.pos_iff_ne_zero]

theorem tcpReadCall_none (h : tcpReadCall stream s o = none) : s.ret ≠ none := by
  intro hret
  unfold tcpReadCall at h
  rw [if_neg (by simp [hret])] at h
  dsimp only at h
  split_ifs at h

theorem tcpReadCall_toSock (hs : s.Valid count) (o : ReadOutcome) :
    (tcpReadCall stream s o).map TcpRead.toSock =
      sockReadCall stream count s.toSock (asSockRead o) := by
  obtain ⟨hsum, hlt⟩ := hs
  unfold tcpReadCall sockReadCall
  by_cases hrun : s.ret.isSome
  · rw [if_pos hrun, if_pos (show s.toSock.ret.isSome from hrun)]
    rfl
  · rw [if_neg hrun, if_neg (show ¬ s.toSock.ret.isSome from hrun)]
    have hnone : s.ret = none := by simpa using hrun
    have hleft := hlt hnone
    cases o with
    | interrupted | failed => rfl
    | received n =>
      have hcount : count - s.toSock.bytesRead = s.buflen := by
        change count - s.n = s.buflen
        omega
      rw [tcpRead, asSockRead]
      dsimp only
      simp only [hcount]
      by_cases hz : min n s.buflen = 0
      · have hzero : ((min n s.buflen : ℕ) : ℤ) = 0 := by omega
        rw [if_neg (by omega), if_pos hzero, if_pos hz]
        simp [TcpRead.toSock, hz]
      · have hpos : ((min n s.buflen : ℕ) : ℤ) ≠ 0 := by omega
        rw [if_neg (by omega), if_neg hpos, if_neg hz, Option.map_some, Int.toNat_natCast]
        unfold TcpRead.toSock
        congr 2
        dsimp only
        by_cases hmore : s.buflen - min n s.buflen ≠ 0
        · rw [if_pos hmore, if_pos (by omega)]
        · rw [if_neg hmore, if_neg (by omega)]
          congr 1
          omega

theorem tcpReadCall_valid (hs : s.Valid count) (h : tcpReadCall stream s o = some t) :
    t.Valid count := by
  obtain ⟨hsum, -⟩ := hs
  unfold tcpReadCall at h
  split_ifs at h with hrun
  cases o with
  | interrupted | failed =>
    cases h
    exact ⟨hsum, nofun⟩
  | received n =>
    rw [tcpRead] at h
    dsimp only at h
    rw [if_neg (by omega)] at h
    by_cases hz : ((min n s.buflen : ℕ) : ℤ) = 0
    · rw [if_pos hz] at h
      cases h
      exact ⟨hsum, nofun⟩
    · rw [if_neg hz, Int.toNat_natCast] at h
      cases h
      refine ⟨?_, ?_⟩
      · dsimp only
        omega
      · dsimp only
        split_ifs with hmore
        · exact fun _ => hmore
        · nofun

theorem tcpRead_toSock (m stream : Mem) (count buf : ℕ) (outs : List ReadOutcome) :
    (runs (tcpReadCall stream) (.start m count buf) outs).map TcpRead.toSock =
      runs (sockReadCall stream count) (.start m count buf) (outs.map asSockRead) := by
  rw [← TcpRead.start_toSock]
  exact runs_map (TcpRead.Valid count) TcpRead.toSock asSockRead
    (fun _ _ _ => tcpReadCall_valid) (fun _ o hs => tcpReadCall_toSock hs o)
    (TcpRead.Valid.start m count buf)

theorem asSockRead_failed (h : asSockRead o = .failed) : o = .interrupted ∨ o = .failed := by
  cases o with
  | interrupted => exact Or.inl rfl
  | failed => exact Or.inr rfl
  | received n => cases h

theorem asSockRead_received {n : ℕ} (h : asSockRead o = .received n) : o = .received n := by
  cases o with
  | interrupted | failed => cases h
  | received k => exact h

/-- Without an interruption the two functions meet the same outcomes. -/
theorem map_asSockRead (h : .interrupted ∉ outs) : outs.map asSockRead = outs := by
  rw [List.map_congr_left, List.map_id]
  intro o ho
  cases o with
  | interrupted => exact absurd ho h
  | failed | received => rfl

theorem asSockRead_ne (o : ReadOutcome) : asSockRead o ≠ .interrupted := by
  cases o <;> nofun

end Read

/-- Both functions transmit a prefix of the buffer, in order and without a gap, whatever the
calls do. The count is returned when all of it was accepted, otherwise the result of the call that
stopped the function. `sock_write` makes an interrupted call again and goes on after no other
without progress; `tcp_write` stops at any call that fails. -/
theorem write_prefix (m : Mem) (buf count : ℕ) (outs : List WriteOutcome) :
    (∃ used s, used <+: outs ∧ runs (sockWriteCall m count) (.start count buf) used = some s ∧
      (s.ret = none → used = outs ∧ used.countP (· ≠ .interrupted) < count) ∧
      ∃ k, k ≤ count ∧ s.wire = m.read buf k ∧ (s.ret = some (count : ℤ) ↔ k = count) ∧
        ∀ r, s.ret = some r → k ≠ count →
          ∃ o, used.getLast? = some o ∧ o ≠ .interrupted ∧ o.result = r) ∧
      ∃ used s, used <+: outs ∧ runs (tcpWriteCall m count) (.start count buf) used = some s ∧
        (s.ret = none → used = outs ∧ used.countP (· ≠ .accepted 0) < count) ∧
        ∃ k, k ≤ count ∧ s.wire = m.read buf k ∧ (s.ret = some (count : ℤ) ↔ k = count) ∧
          ∀ r, s.ret = some r → k ≠ count → ∃ o, used.getLast? = some o ∧ o.result = r := by
  constructor
  · obtain ⟨used, s, hused, hr, hall⟩ := exists_runs_prefix (fun s : SockWrite => s.ret = none)
      (fun s o (h : sockWriteCall m count s o = none) => sockWriteCall_none h)
      (SockWrite.start count buf) outs
    obtain ⟨hinv, hlast, hprogress⟩ := sockWrite_run hr
    refine ⟨used, s, hused, hr, ?_, s.bytesSent, hinv.le, hinv.wire, hinv.whole, hlast⟩
    intro hret
    exact ⟨hall hret, (hprogress hret).trans_lt (hinv.lt hret)⟩
  · obtain ⟨used, s, hused, hr, hall⟩ := exists_runs_prefix (fun s : TcpWrite => s.ret = none)
      (fun s o (h : tcpWriteCall m count s o = none) => tcpWriteCall_none h)
      (TcpWrite.start count buf) outs
    have hsock := tcpWrite_toSock m count buf used
    rw [hr, Option.map_some] at hsock
    obtain ⟨hinv, hlast, hprogress⟩ := sockWrite_run hsock.symm
    refine ⟨used, s, hused, hr, ?_, _, hinv.le, hinv.wire, hinv.whole, ?_⟩
    · intro hret
      refine ⟨hall hret, ?_⟩
      have hlt := (hprogress hret).trans_lt (hinv.lt hret)
      rw [List.countP_map] at hlt
      refine lt_of_eq_of_lt (List.countP_congr ?_) hlt
      intro o _
      simp [asSockWrite_ne]
    · intro r hret hne
      obtain ⟨o', ho', hint, hres⟩ := hlast r hret hne
      rw [List.getLast?_map, Option.map_eq_some_iff] at ho'
      obtain ⟨o, ho, rfl⟩ := ho'
      refine ⟨o, ho, ?_⟩
      rw [← hres, asSockWrite_result ((asSockWrite_ne o).mp hint)]

/-- Both functions fill the buffer with what the stream gives, whatever the calls do. A return
value that is not negative is the number of bytes, less than the count only at the end of the
stream; a negative one comes from a call that failed. Without interruptions they agree. -/
theorem read_faithful (m stream : Mem) (buf count : ℕ) (outs : List ReadOutcome) :
    (∃ used s, used <+: outs ∧
      runs (sockReadCall stream count) (.start m count buf) used = some s ∧
      (s.ret = none → used = outs ∧ used.countP (· ≠ .interrupted) < count) ∧
      ∃ n, n ≤ count ∧ s.mem = m.write buf (stream.read 0 n) ∧ s.pos = n ∧
        ∀ r, s.ret = some r →
          (r = n ∧ (n < count → used.getLast? = some (.received 0))) ∨
            r < 0 ∧ used.getLast? = some .failed) ∧
      (∃ used s, used <+: outs ∧ runs (tcpReadCall stream) (.start m count buf) used = some s ∧
        (s.ret = none → used = outs ∧ used.length < count) ∧
        ∃ n, n ≤ count ∧ s.mem = m.write buf (stream.read 0 n) ∧ s.pos = n ∧
          ∀ r, s.ret = some r →
            (r = n ∧ (n < count → used.getLast? = some (.received 0))) ∨
              r < 0 ∧ (used.getLast? = some .interrupted ∨ used.getLast? = some .failed)) ∧
      (.interrupted ∉ outs →
        (runs (sockReadCall stream count) (.start m count buf) outs).map (fun s => (s.ret, s.mem)) =
          (runs (tcpReadCall stream) (.start m count buf) outs).map fun s => (s.ret, s.mem)) := by
  refine ⟨?_, ?_, ?_⟩
  · obtain ⟨used, s, hused, hr, hall⟩ := exists_runs_prefix (fun s : SockRead => s.ret = none)
      (fun s o (h : sockReadCall stream count s o = none) => sockReadCall_none h)
      (SockRead.start m count buf) outs
    obtain ⟨hinv, hret, hprogress⟩ := sockRead_run hr
    refine ⟨used, s, hused, hr, ?_, s.bytesRead, hinv.le, hinv.mem, hinv.pos, hret⟩
    intro hnone
    exact ⟨hall hnone, (hprogress hnone).trans_lt (hinv.lt hnone)⟩
  · obtain ⟨used, s, hused, hr, hall⟩ := exists_runs_prefix (fun s : TcpRead => s.ret = none)
      (fun s o (h : tcpReadCall stream s o = none) => tcpReadCall_none h)
      (TcpRead.start m count buf) outs
    have hsock := tcpRead_toSock m stream count buf used
    rw [hr, Option.map_some] at hsock
    obtain ⟨hinv, hret, hprogress⟩ := sockRead_run hsock.symm
    refine ⟨used, s, hused, hr, ?_, _, hinv.le, hinv.mem, hinv.pos, ?_⟩
    · intro hnone
      refine ⟨hall hnone, ?_⟩
      have hlt := (hprogress hnone).trans_lt (hinv.lt hnone)
      rw [List.countP_eq_length.mpr, List.length_map] at hlt
      · exact hlt
      · intro o' ho'
        obtain ⟨o, -, rfl⟩ := List.mem_map.mp ho'
        simp [asSockRead_ne]
    · intro r hr'
      rcases hret r hr' with ⟨hn, heof⟩ | ⟨hneg, hlast⟩
      · refine Or.inl ⟨hn, ?_⟩
        intro hlt
        have hlast := heof hlt
        rw [List.getLast?_map, Option.map_eq_some_iff] at hlast
        obtain ⟨o, ho, hrec⟩ := hlast
        rw [ho, asSockRead_received hrec]
      · refine Or.inr ⟨hneg, ?_⟩
        rw [List.getLast?_map, Option.map_eq_some_iff] at hlast
        obtain ⟨o, ho, hfail⟩ := hlast
        rw [ho]
        exact (asSockRead_failed hfail).imp (congrArg some) (congrArg some)
  · intro hint
    have hsock := tcpRead_toSock m stream count buf outs
    rw [map_asSockRead hint] at hsock
    rw [← hsock, Option.map_map]
    rfl

end TcpTests.Ebsocket
