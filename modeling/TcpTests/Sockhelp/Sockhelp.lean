import Mathlib.Data.List.TakeWhile
import TcpTests.Lib.Lines
import TcpTests.Lib.Memory

/-! Line reading and writing of `sockhelp.c`, in its Linux variant. -/
namespace TcpTests.Sockhelp
open Lib

def lf : Byte := 10#8

/-- What `recv` reports when nothing is pending: `EAGAIN`, that the peer has closed, or
another error. -/
inductive Idle
  | again
  | closed
  | failed
  deriving DecidableEq, Repr

/-- The result of `sock_gets`: the return value, the characters stored, whether the NUL was
stored behind them, and what is still pending. -/
structure Gets where
  ret : ℤ
  str : List Byte
  terminated : Bool
  rest : List Byte
  deriving DecidableEq, Repr

/-- The loop of `sock_gets` over the pending bytes. `total_count` is the length of `str`. -/
def sockGetsLoop (idle : Idle) (count : ℕ) (str : List Byte) : List Byte → Gets
  | [] =>
    match idle with
    | .again | .closed => ⟨str.length, str, false, []⟩
    | .failed => ⟨-1, str, false, []⟩
  | lastRead :: pending =>
    if lastRead = lf then ⟨str.length, str, decide (0 < count), pending⟩
    else
      sockGetsLoop idle count (if str.length < count then str ++ [lastRead] else str) pending

def sockGets (idle : Idle) (count : ℕ) (pending : List Byte) : Gets :=
  sockGetsLoop idle count [] pending

/-- The outcome of one `write`: some bytes are accepted, it is interrupted, or it fails. -/
inductive WriteOutcome
  | accepted (n : ℕ)
  | interrupted
  | failed
  deriving DecidableEq, Repr

/-- The bytes that the socket accepts, and the return value. There is no result if the outcomes
end before the calls do. -/
def sockWriteLoop (count : ℕ) : List Byte → List WriteOutcome → Option (List Byte × ℤ)
  | [], _ => some ([], count)
  | _ :: _, [] => none
  | b :: bs, .accepted n :: outs =>
    if n = 0 then some ([], 0)
    else
      (sockWriteLoop count ((b :: bs).drop n) outs).map fun r => ((b :: bs).take n ++ r.1, r.2)
  | b :: bs, .interrupted :: outs => sockWriteLoop count (b :: bs) outs
  | _ :: _, .failed :: _ => some ([], -1)

def sockWrite (buf : List Byte) (outs : List WriteOutcome) : Option (List Byte × ℤ) :=
  sockWriteLoop buf.length buf outs

section
variable {idle : Idle} {count : ℕ} {str l rest : List Byte}

private theorem take_snoc (b : Byte) (hs : str.length ≤ count) :
    (if str.length < count then str ++ [b] else str) = (str ++ [b]).take count := by
  split_ifs with hlt
  · rw [List.take_of_length_le (by rw [List.length_append, List.length_singleton]; omega)]
  · rw [List.take_append_of_le_length (by omega), List.take_of_length_le hs]

private theorem take_append_take (xs ys : List Byte) (n : ℕ) :
    (xs.take n ++ ys).take n = (xs ++ ys).take n := by
  rw [List.take_append, List.take_append, List.take_take, min_self, List.length_take]
  congr 2
  omega

theorem sockGetsLoop_line (hl : lf ∉ l) (hs : str.length ≤ count) :
    sockGetsLoop idle count str (l ++ lf :: rest) =
      ⟨((str ++ l).take count).length, (str ++ l).take count, decide (0 < count), rest⟩ := by
  induction l generalizing str with
  | nil =>
    simp only [List.nil_append, sockGetsLoop, if_true, List.append_nil, List.take_of_length_le hs]
  | cons b bs ih =>
    have hb : b ≠ lf := fun h => hl (by simp [h])
    have hbs : lf ∉ bs := fun h => hl (by simp [h])
    rw [List.cons_append, sockGetsLoop, if_neg hb, take_snoc b hs,
      ih hbs (List.length_take_le _ _)]
    rw [take_append_take, List.append_assoc, List.singleton_append]

theorem sockGetsLoop_end (idle : Idle) (hl : lf ∉ l) (hs : str.length ≤ count) :
    sockGetsLoop idle count str l =
      ⟨if idle = .failed then -1 else ((str ++ l).take count).length, (str ++ l).take count, false,
        []⟩ := by
  induction l generalizing str with
  | nil =>
    rw [List.append_nil, List.take_of_length_le hs]
    cases idle <;> rfl
  | cons b bs ih =>
    have hb : b ≠ lf := fun h => hl (by simp [h])
    have hbs : lf ∉ bs := fun h => hl (by simp [h])
    rw [sockGetsLoop, if_neg hb, take_snoc b hs, ih hbs (List.length_take_le _ _)]
    rw [take_append_take, List.append_assoc, List.singleton_append]

theorem sockGets_line (hl : lf ∉ l) :
    sockGets idle count (l ++ lf :: rest) =
      ⟨(l.take count).length, l.take count, decide (0 < count), rest⟩ :=
  sockGetsLoop_line hl (Nat.zero_le _)

theorem sockGets_noLine (hl : lf ∉ l) :
    sockGets .again count l = ⟨(l.take count).length, l.take count, false, []⟩ :=
  sockGetsLoop_end .again hl (Nat.zero_le _)

/-- What is stored is what fits of the line, whether or not its end has come. -/
theorem sockGets_str (idle : Idle) (count : ℕ) (pending : List Byte) :
    (sockGets idle count pending).str = (pending.takeWhile (· ≠ lf)).take count := by
  by_cases hmem : lf ∈ pending
  · obtain ⟨l, rest, rfl, hl⟩ := List.eq_append_cons_of_mem hmem
    rw [sockGets_line hl, takeWhile_line hl]
  · have hall : pending.takeWhile (· ≠ lf) = pending := by
      rw [List.takeWhile_eq_self_iff]
      intro b hb
      have hne : b ≠ lf := fun h => hmem (h ▸ hb)
      simpa using hne
    rw [hall, sockGets, sockGetsLoop_end idle hmem (Nat.zero_le _), List.nil_append]

theorem sockGets_ret (idle : Idle) (count : ℕ) (pending : List Byte) :
    (sockGets idle count pending).ret =
      if lf ∉ pending ∧ idle = .failed then -1
      else ((sockGets idle count pending).str.length : ℤ) := by
  by_cases hmem : lf ∈ pending
  · rw [if_neg fun h => h.1 hmem]
    obtain ⟨l, rest, rfl, hl⟩ := List.eq_append_cons_of_mem hmem
    rw [sockGets_line hl]
  · rw [sockGets, sockGetsLoop_end idle hmem (Nat.zero_le _)]
    simp only [hmem, not_false_eq_true, true_and]

theorem sockWrite_accepted {buf : List Byte} {n : ℕ} {outs : List WriteOutcome}
    (hbuf : buf ≠ []) (hn : buf.length ≤ n) :
    sockWrite buf (.accepted n :: outs) = some (buf, (buf.length : ℤ)) := by
  cases buf with
  | nil => exact absurd rfl hbuf
  | cons b bs =>
    have hpos : n ≠ 0 := by
      rw [List.length_cons] at hn
      omega
    unfold sockWrite
    rw [sockWriteLoop, if_neg hpos, List.drop_eq_nil_of_le hn, sockWriteLoop, Option.map_some,
      List.take_of_length_le hn, List.append_nil]

end

end TcpTests.Sockhelp
