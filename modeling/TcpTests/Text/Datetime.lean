import Mathlib.Data.Nat.Digits.Defs
import TcpTests.Lib.Memory

/-! The text of a date, with which the messages of the clients and servers begin. -/
namespace TcpTests.Text
open Lib

/-- The fields of `struct tm`, which are of type `int`. -/
structure Tm where
  tmMday : Word
  tmMon : Word
  tmYear : Word
  tmHour : Word
  tmMin : Word
  tmSec : Word

def charByte (c : Char) : Byte := BitVec.ofNat 8 c.toNat

/-- The conversion `%0<width>d`. -/
def padded (width : ℕ) (n : Word) : List Byte :=
  let digits := Nat.toDigits 10 n.toInt.natAbs
  let sign := if n.toInt < 0 then ['-'] else []
  (sign ++ List.replicate (width - (sign.length + digits.length)) '0' ++ digits).map charByte

/-- The text that `set_datetime_stg` makes of a time. -/
def datetimeStg (tmr : Tm) : List Byte :=
  padded 2 tmr.tmMday ++ [charByte '.'] ++ padded 2 (tmr.tmMon + 1#32) ++ [charByte '.'] ++
    padded 4 (tmr.tmYear + 1900#32) ++ [charByte ' '] ++ padded 2 tmr.tmHour ++ [charByte ':'] ++
    padded 2 tmr.tmMin ++ [charByte ':'] ++ padded 2 tmr.tmSec ++ [charByte ' ']

theorem padded_length_le (width : ℕ) (n : Word) : (padded width n).length ≤ max width 11 := by
  have hn : n.toInt.natAbs < 10 ^ 10 := by
    have hlo := BitVec.le_toInt n
    have hhi := @BitVec.toInt_lt 32 n
    omega
  have hdigits := (Nat.length_toDigits_le_iff (by decide) (by decide)).mpr hn
  unfold padded
  simp only [List.length_map, List.length_append, List.length_replicate]
  split_ifs
  · rw [List.length_singleton]
    omega
  · rw [List.length_nil]
    omega

theorem datetimeStg_length_le (tmr : Tm) : (datetimeStg tmr).length ≤ 72 := by
  have h2 : ∀ n, (padded 2 n).length ≤ 11 := padded_length_le 2
  have h4 : ∀ n, (padded 4 n).length ≤ 11 := padded_length_le 4
  have hday := h2 tmr.tmMday
  have hmon := h2 (tmr.tmMon + 1#32)
  have hyear := h4 (tmr.tmYear + 1900#32)
  have hhour := h2 tmr.tmHour
  have hmin := h2 tmr.tmMin
  have hsec := h2 tmr.tmSec
  unfold datetimeStg
  simp only [List.length_append, List.length_singleton]
  omega

theorem charByte_digit {c : Char} (hc : c.isDigit = true) : charByte c ≠ 10#8 := by
  have hlo : 48 ≤ c.toNat := by
    simp only [Char.isDigit, Bool.and_eq_true, decide_eq_true_eq] at hc
    exact hc.1
  have hhi : c.toNat ≤ 57 := by
    simp only [Char.isDigit, Bool.and_eq_true, decide_eq_true_eq] at hc
    exact hc.2
  intro h
  have hval := congrArg BitVec.toNat h
  rw [charByte, BitVec.toNat_ofNat, Nat.mod_eq_of_lt (by omega)] at hval
  simp at hval
  omega

theorem lf_notMem_digits (n : ℕ) : 10#8 ∉ (Nat.toDigits 10 n).map charByte := by
  intro h
  obtain ⟨c, hc, heq⟩ := List.mem_map.mp h
  exact charByte_digit (Nat.isDigit_of_mem_toDigits (by decide) (by decide) hc) heq

theorem lf_notMem_padded (width : ℕ) (n : Word) : 10#8 ∉ padded width n := by
  unfold padded
  simp only [List.map_append, List.mem_append, not_or]
  refine ⟨⟨?_, ?_⟩, lf_notMem_digits _⟩
  · split_ifs <;> decide
  · rw [List.map_replicate, List.mem_replicate]
    rintro ⟨-, h⟩
    revert h
    decide

theorem lf_notMem_datetimeStg (tmr : Tm) : 10#8 ∉ datetimeStg tmr := by
  unfold datetimeStg
  simp only [List.mem_append, List.mem_singleton, lf_notMem_padded, false_or, or_false]
  decide

end TcpTests.Text
