import TcpTests.Lib.Machine
import TcpTests.Sockhelp.Sockhelp

/-! `sock_gets` with its pointer and its stores, in both variants. One input of the machine is the
outcome of one `recv` of a single byte. -/
namespace TcpTests.Sockhelp
open Lib

/-- The outcome of one `recv`: a byte, or none. -/
inductive RecvOutcome
  | byte (b : Byte)
  | idle (idle : Idle)
  deriving DecidableEq, Repr

/-- The `int` that a `size_t` is returned as. -/
def intOfSize (n : ℕ) : ℤ := (BitVec.ofNat 32 n).toInt

/-- The variables of `sock_gets`, memory, the addresses stored at, and the return value once there
is one. -/
structure SockGets where
  totalCount : ℕ
  currentPosition : ℕ
  mem : Mem
  stores : List ℕ
  ret : Option ℤ

def SockGets.start (m : Mem) (str : ℕ) : SockGets where
  totalCount := 0
  currentPosition := str
  mem := m
  stores := []
  ret := none

/-- `current_position[0] = c`. -/
def SockGets.store (s : SockGets) (c : Byte) : SockGets :=
  { s with
    mem := s.mem.write s.currentPosition [c]
    stores := s.stores ++ [s.currentPosition] }

def SockGets.accumulate (count : ℕ) (s : SockGets) (lastRead : Byte) : SockGets :=
  if s.totalCount < count then
    { s.store lastRead with
      currentPosition := s.currentPosition + 1
      totalCount := s.totalCount + 1 }
  else s

/-- The return value when `recv` gives no byte. -/
def idleRet (p : Platform) (totalCount : ℕ) : Idle → ℤ
  | .failed => -1
  | .again | .closed =>
    match p with
    | .windows => -1
    | .unix => intOfSize totalCount

def sockGetsCall (p : Platform) (count : ℕ) (s : SockGets) (o : RecvOutcome) : Option SockGets :=
  if s.ret.isSome then none
  else
    match o with
    | .idle idle => some { s with ret := some (idleRet p s.totalCount idle) }
    | .byte lastRead =>
      if lastRead ≠ lf then some (s.accumulate count lastRead)
      else
        let s' := if 0 < count then s.store 0 else s
        some { s' with ret := some (intOfSize s.totalCount) }

section
variable {p : Platform} {m : Mem} {str count : ℕ} {s t : SockGets} {o : RecvOutcome}
  {outs : List RecvOutcome} {l : List Byte}

/-- The state after the bytes of an unfinished line. -/
def SockGets.after (m : Mem) (str count : ℕ) (l : List Byte) : SockGets where
  totalCount := min count l.length
  currentPosition := str + min count l.length
  mem := m.write str (l.take count)
  stores := List.range' str (min count l.length)
  ret := none

theorem SockGets.after_nil (m : Mem) (str count : ℕ) :
    SockGets.after m str count [] = .start m str := by
  simp [after, start]

theorem SockGets.accumulate_after (m : Mem) (str count : ℕ) (l : List Byte) (b : Byte) :
    (SockGets.after m str count l).accumulate count b = .after m str count (l ++ [b]) := by
  unfold accumulate
  rcases Nat.lt_or_ge l.length count with hlt | hge
  · have htake : l.take count = l := List.take_of_length_le hlt.le
    have hmin : min count l.length = l.length := by omega
    have hlen : (l ++ [b]).length = l.length + 1 := by simp
    have hmin' : min count (l ++ [b]).length = l.length + 1 := by omega
    have htake' : (l ++ [b]).take count = l ++ [b] := List.take_of_length_le (by omega)
    unfold after store
    rw [if_pos (show min count l.length < count by omega)]
    dsimp only
    rw [htake, hmin, hmin', htake', Mem.write_write _ _ _ rfl, List.range'_1_concat, Nat.add_assoc]
  · have hmin : min count l.length = count := by omega
    have hmin' : min count (l ++ [b]).length = count := by
      rw [List.length_append]
      omega
    unfold after
    rw [if_neg (show ¬ min count l.length < count by omega), hmin, hmin', List.take_append_of_le_length hge]

def SockGets.atLine (m : Mem) (str count : ℕ) (l : List Byte) : SockGets :=
  let s := SockGets.after m str count l
  { if 0 < count then s.store 0 else s with ret := some (intOfSize (min count l.length)) }

/-- The state after a `recv` that gives no byte. -/
def SockGets.atIdle (p : Platform) (m : Mem) (str count : ℕ) (l : List Byte) (i : Idle) :
    SockGets :=
  { SockGets.after m str count l with ret := some (idleRet p (min count l.length) i) }

/-- The calls of `recv` give the bytes of a line, then its end or none, and nothing after that. -/
theorem sockGets_run (hr : runs (sockGetsCall p count) (.start m str) outs = some s) :
    ∃ l, lf ∉ l ∧ ((outs = l.map .byte ∧ s = .after m str count l) ∨
      (outs = l.map .byte ++ [.byte lf] ∧ s = .atLine m str count l) ∨
      ∃ i, outs = l.map .byte ++ [.idle i] ∧ s = .atIdle p m str count l i) := by
  induction outs using List.reverseRecOn generalizing s with
  | nil =>
    cases hr
    exact ⟨[], List.not_mem_nil, Or.inl ⟨rfl, (SockGets.after_nil m str count).symm⟩⟩
  | append_singleton outs o ih =>
    obtain ⟨u, hu, ho⟩ := runs_concat.mp hr
    obtain ⟨l, hl, ⟨rfl, rfl⟩ | ⟨-, rfl⟩ | ⟨i, -, rfl⟩⟩ := ih hu
    · cases o with
      | idle i =>
        cases ho
        exact ⟨l, hl, Or.inr (Or.inr ⟨i, rfl, rfl⟩)⟩
      | byte b =>
        by_cases hb : b = lf
        · subst hb
          cases ho
          exact ⟨l, hl, Or.inr (Or.inl ⟨rfl, rfl⟩)⟩
        · have hstep := (if_pos hb).symm.trans ho
          rw [SockGets.accumulate_after, Option.some.injEq] at hstep
          refine ⟨l ++ [b], ?_, Or.inl ⟨?_, hstep.symm⟩⟩
          · rw [List.mem_append, List.mem_singleton]
            rintro (h | h)
            · exact hl h
            · exact hb h.symm
          · rw [List.map_append, List.map_singleton]
    · cases ho
    · cases ho

theorem runs_after (hl : lf ∉ l) :
    runs (sockGetsCall p count) (.start m str) (l.map .byte) = some (.after m str count l) := by
  induction l using List.reverseRecOn with
  | nil => exact congrArg some (SockGets.after_nil m str count).symm
  | append_singleton l b ih =>
    rw [List.mem_append, List.mem_singleton, not_or] at hl
    rw [List.map_append, List.map_singleton, runs_concat]
    refine ⟨_, ih hl.1, (if_pos (Ne.symm hl.2)).trans ?_⟩
    rw [SockGets.accumulate_after]

@[simp] theorem SockGets.atLine_ret :
    (SockGets.atLine m str count l).ret = some (intOfSize (min count l.length)) := rfl

@[simp] theorem SockGets.atLine_mem : (SockGets.atLine m str count l).mem =
    m.write str (l.take count ++ if 0 < count then [0] else []) := by
  unfold atLine
  by_cases hc : 0 < count
  · simp only [if_pos hc]
    exact Mem.write_write _ _ _ (by rw [List.length_take]; rfl)
  · simp only [if_neg hc, List.append_nil]
    rfl

@[simp] theorem SockGets.atLine_stores : (SockGets.atLine m str count l).stores =
    List.range' str (min count l.length) ++
      if 0 < count then [str + min count l.length] else [] := by
  unfold atLine
  by_cases hc : 0 < count
  · simp only [if_pos hc]
    rfl
  · simp only [if_neg hc, List.append_nil]
    rfl

theorem intOfSize_eq_iff {n : ℕ} : intOfSize n = n ↔ n < 2 ^ 31 := by
  unfold intOfSize
  rw [BitVec.toInt_eq_toNat_cond, BitVec.toNat_ofNat]
  split_ifs <;> omega

theorem sockGets_machine (m : Mem) (str : ℕ) (idle : Idle) (hcount : count < 2 ^ 31)
    (pending : List Byte) :
    let g := sockGets idle count pending
    ∃ used s, used <+: pending.map .byte ++ [.idle idle] ∧
      runs (sockGetsCall .unix count) (.start m str) used = some s ∧ s.ret = some g.ret ∧
      s.mem = m.write str (g.str ++ if g.terminated then [0] else []) := by
  intro g
  have hlen (l : List Byte) : intOfSize (min count l.length) = (l.take count).length := by
    rw [intOfSize_eq_iff.mpr (by omega), List.length_take]
  by_cases hmem : lf ∈ pending
  · obtain ⟨l, rest, rfl, hl⟩ := List.eq_append_cons_of_mem hmem
    have hg : g = ⟨(l.take count).length, l.take count, decide (0 < count), rest⟩ :=
      sockGets_line hl
    refine ⟨l.map .byte ++ [.byte lf], .atLine m str count l, ?_, ?_, ?_, ?_⟩
    · simp
    · rw [runs_concat]
      exact ⟨_, runs_after hl, rfl⟩
    · rw [hg, SockGets.atLine_ret, hlen]
    · rw [hg, SockGets.atLine_mem]
      simp
  · have hg : g = ⟨if idle = .failed then -1 else ((pending.take count).length : ℤ),
        pending.take count, false, []⟩ := sockGetsLoop_end idle hmem (Nat.zero_le _)
    refine ⟨_, .atIdle .unix m str count pending idle, List.prefix_rfl, ?_, ?_, ?_⟩
    · rw [runs_concat]
      exact ⟨_, runs_after hmem, rfl⟩
    · rw [hg]
      cases idle with
      | failed => rfl
      | again | closed => exact congrArg some (hlen pending)
    · rw [hg]
      simp [SockGets.atIdle, SockGets.after]

/-- The contract of a call that returns `r`: a result that is not negative is the number of bytes
stored of a line that has been read to its end, and a connection closed before that gives -1. -/
def GetsContract (str count : ℕ) (outs : List RecvOutcome) (s : SockGets) (r : ℤ) : Prop :=
  (0 ≤ r → ∃ l : List Byte, lf ∉ l ∧ outs = l.map .byte ++ [.byte lf] ∧
    s.mem.read str (min count l.length) = l.take count ∧ r = (min count l.length : ℕ)) ∧
  (outs.getLast? = some (.idle .closed) → r = -1)

/-- The calls of `recv` with which the contract is met. A line ends with its linefeed, and its
length fits an `int`; without one the variant or the error gives -1, or the length does not fit. -/
def GetsMet (p : Platform) (count : ℕ) (outs : List RecvOutcome) : Prop :=
  let stored := min count (outs.length - 1)
  match outs.getLast? with
  | some (.byte _) => stored < 2 ^ 31 ∨ intOfSize stored < 0
  | some (.idle .again) => p = .windows ∨ intOfSize stored < 0
  | some (.idle .closed) => p = .windows ∨ intOfSize stored = -1
  | some (.idle .failed) | none => True

theorem byte_injective : Function.Injective RecvOutcome.byte := by
  intro a b h
  cases h
  rfl

theorem map_byte_concat_inj {l' : List Byte} {o' : RecvOutcome}
    (h : l.map RecvOutcome.byte ++ [o] = l'.map .byte ++ [o']) : l = l' ∧ o = o' := by
  obtain ⟨hl, ho⟩ := List.append_inj' h rfl
  exact ⟨List.map_injective_iff.mpr byte_injective hl, List.head_eq_of_cons_eq ho⟩

theorem getsContract_line (hl : lf ∉ l) :
    GetsContract str count (l.map .byte ++ [.byte lf]) (.atLine m str count l)
        (intOfSize (min count l.length)) ↔
      min count l.length < 2 ^ 31 ∨ intOfSize (min count l.length) < 0 := by
  unfold GetsContract
  rw [List.getLast?_concat, and_iff_left (by nofun)]
  constructor
  · intro h
    rcases lt_or_ge (intOfSize (min count l.length)) 0 with hneg | hpos
    · exact Or.inr hneg
    · obtain ⟨l', -, houts, -, hr⟩ := h hpos
      obtain ⟨rfl, -⟩ := map_byte_concat_inj houts
      exact Or.inl (intOfSize_eq_iff.mp hr)
  · intro h hpos
    refine ⟨l, hl, rfl, ?_, intOfSize_eq_iff.mpr (by omega)⟩
    rw [SockGets.atLine_mem, ← Mem.write_write _ _ _ rfl, List.length_take,
      Mem.read_write_disjoint _ _ (Or.inl le_rfl), Mem.read_write_of_length (List.length_take)]

theorem getsContract_idle (i : Idle) :
    GetsContract str count (l.map .byte ++ [.idle i]) (.atIdle p m str count l i)
        (idleRet p (min count l.length) i) ↔
      idleRet p (min count l.length) i < 0 ∧
        (i = .closed → idleRet p (min count l.length) i = -1) := by
  unfold GetsContract
  rw [List.getLast?_concat]
  constructor
  · rintro ⟨hpos, hclosed⟩
    refine ⟨?_, fun hi => hclosed (by rw [hi])⟩
    rcases lt_or_ge (idleRet p (min count l.length) i) 0 with hneg | hge
    · exact hneg
    · obtain ⟨l', -, houts, -⟩ := hpos hge
      obtain ⟨-, ho⟩ := map_byte_concat_inj houts
      cases ho
  · rintro ⟨hneg, hclosed⟩
    refine ⟨fun hge => absurd hge (by omega), ?_⟩
    intro hlast
    cases hlast
    exact hclosed rfl

/-- Which calls of `recv` meet the contract. -/
theorem sockGets_contract_iff {r : ℤ}
    (hr : runs (sockGetsCall p count) (.start m str) outs = some s) (hret : s.ret = some r) :
    GetsContract str count outs s r ↔ GetsMet p count outs := by
  unfold GetsMet
  obtain ⟨l, hl, ⟨-, rfl⟩ | ⟨rfl, rfl⟩ | ⟨i, rfl, rfl⟩⟩ := sockGets_run hr
  · cases hret
  · cases hret
    rw [getsContract_line hl, List.getLast?_concat]
    simp
  · cases hret
    rw [getsContract_idle, List.getLast?_concat]
    cases i with
    | failed => simp [idleRet]
    | again => cases p <;> simp [idleRet]
    | closed =>
      cases p with
      | windows => simp [idleRet]
      | unix =>
        have hneg : intOfSize (min count l.length) = -1 → intOfSize (min count l.length) < 0 := by
          omega
        simpa [idleRet] using hneg

/-- The line "ab" is read. -/
theorem sockGets_contract_iff_sample :
    ∃ s, runs (sockGetsCall .unix 8) (.start (fun _ => 0) 0) [.byte 97, .byte 98, .byte lf] =
        some s ∧
      GetsContract 0 8 [.byte 97, .byte 98, .byte lf] s 2 := by
  have hmet : GetsMet .unix 8 [.byte 97, .byte 98, .byte lf] := Or.inl (by decide)
  exact ⟨_, rfl, (sockGets_contract_iff (r := 2) rfl rfl).mpr hmet⟩

/-- The peer closes after "ab": the length of the piece is returned. -/
theorem sockGets_contract_closed :
    ∃ s, runs (sockGetsCall .unix 8) (.start (fun _ => 0) 0)
        [.byte 97, .byte 98, .idle .closed] = some s ∧ s.ret = some 2 ∧
      ¬ GetsContract 0 8 [.byte 97, .byte 98, .idle .closed] s 2 := by
  refine ⟨_, rfl, rfl, ?_⟩
  rintro ⟨-, hclosed⟩
  exact absurd (hclosed rfl) (by decide)

/-- Where the stores lie within `count`. -/
theorem sockGets_stores_iff (hr : runs (sockGetsCall p count) (.start m str) outs = some s) :
    (∀ a ∈ s.stores, a < str + count) ↔ (.byte lf ∈ outs → count = 0 ∨ outs.length ≤ count) := by
  obtain ⟨l, hl, hcases⟩ := sockGets_run hr
  have hline : RecvOutcome.byte lf ∉ l.map .byte := by
    rwa [List.mem_map_of_injective byte_injective]
  have hdata : ∀ a ∈ List.range' str (min count l.length), a < str + count := by
    intro a ha
    obtain ⟨-, hlt⟩ := List.mem_range'_1.mp ha
    omega
  rcases hcases with ⟨rfl, rfl⟩ | ⟨rfl, rfl⟩ | ⟨i, rfl, rfl⟩
  · exact iff_of_true hdata fun h => absurd h hline
  · rw [SockGets.atLine_stores, List.length_append, List.length_map, List.length_singleton]
    have hend : RecvOutcome.byte lf ∈ l.map .byte ++ [.byte lf] := by simp
    by_cases hc : 0 < count
    · rw [if_pos hc]
      constructor
      · intro h _
        have hnul := h (str + min count l.length) (by simp)
        omega
      · intro h a ha
        have hroom := h hend
        rw [List.mem_append, List.mem_singleton] at ha
        rcases ha with ha | rfl
        · exact hdata a ha
        · omega
    · rw [if_neg hc, List.append_nil]
      exact iff_of_true hdata fun _ => Or.inl (by omega)
  · refine iff_of_true hdata fun h => ?_
    rw [List.mem_append, List.mem_singleton] at h
    rcases h with h | h
    · exact absurd h hline
    · cases h

theorem sockGets_stores_iff_sample :
    ∃ s, runs (sockGetsCall .unix 2) (.start (fun _ => 0) 0) [.byte 97, .byte lf] = some s ∧
      ∀ a ∈ s.stores, a < 0 + 2 := by
  have hroom : RecvOutcome.byte lf ∈ [RecvOutcome.byte 97, .byte lf] →
      2 = 0 ∨ [RecvOutcome.byte 97, .byte lf].length ≤ 2 := fun _ => Or.inr le_rfl
  exact ⟨_, rfl, (sockGets_stores_iff (p := .unix) (m := fun _ => 0) rfl).mpr hroom⟩

/-- The line "ab" and a count of 2: the NUL goes behind the buffer. -/
theorem sockGets_stores_outside :
    ∃ s, runs (sockGetsCall .unix 2) (.start (fun _ => 0) 0) [.byte 97, .byte 98, .byte lf] =
        some s ∧ ¬ ∀ a ∈ s.stores, a < 0 + 2 :=
  ⟨_, rfl, fun h => absurd (h 2 (by decide)) (by decide)⟩

end

end TcpTests.Sockhelp
