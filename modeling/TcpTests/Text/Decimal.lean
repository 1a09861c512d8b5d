import TcpTests.Text.Datetime

/-! Numbers in a text, and where a text can be cut so that its parts are known again. -/
namespace TcpTests.Text
open Lib

section
variable {α : Type*} {p : α → Prop} {xs xs' ys ys' : List α} {a a' : α}

theorem cut_inj (hxs : ∀ x ∈ xs, p x) (hxs' : ∀ x ∈ xs', p x) (ha : ¬ p a) (ha' : ¬ p a')
    (h : xs ++ a :: ys = xs' ++ a' :: ys') : xs = xs' ∧ a = a' ∧ ys = ys' := by
  induction xs generalizing xs' with
  | nil =>
    cases xs' with
    | nil => exact ⟨rfl, List.cons_eq_cons.mp h⟩
    | cons x xs' =>
      have hx : a = x := (List.cons_eq_cons.mp h).1
      exact absurd (hx ▸ hxs' x (by simp)) ha
  | cons x xs ih =>
    cases xs' with
    | nil =>
      have hx : x = a' := (List.cons_eq_cons.mp h).1
      exact absurd (hx ▸ hxs x (by simp)) ha'
    | cons x' xs' =>
      obtain ⟨rfl, htail⟩ := List.cons_eq_cons.mp h
      obtain ⟨rfl, hrest⟩ := ih (fun y hy => hxs y (by simp [hy])) (fun y hy => hxs' y (by simp [hy]))
        htail
      exact ⟨rfl, hrest⟩

theorem cut_last_inj (hys : ∀ y ∈ ys, p y) (hys' : ∀ y ∈ ys', p y) (ha : ¬ p a) (ha' : ¬ p a')
    (h : xs ++ a :: ys = xs' ++ a' :: ys') : xs = xs' ∧ a = a' ∧ ys = ys' := by
  have hrev : ys.reverse ++ a :: xs.reverse = ys'.reverse ++ a' :: xs'.reverse := by
    simpa using congrArg List.reverse h
  obtain ⟨hy, ha, hx⟩ := cut_inj (by simpa using hys) (by simpa using hys') ha ha' hrev
  exact ⟨List.reverse_inj.mp hx, ha, List.reverse_inj.mp hy⟩

end

def IsDecimal (b : Byte) : Prop := 0x30#8 ≤ b ∧ b ≤ 0x39#8

instance (b : Byte) : Decidable (IsDecimal b) := inferInstanceAs (Decidable (_ ∧ _))

/-- The conversion `%d` of a number that is not negative. -/
def decimal (n : ℕ) : List Byte := (Nat.toDigits 10 n).map charByte

theorem toNat_of_mem_toDigits {n : ℕ} {c : Char} (hc : c ∈ Nat.toDigits 10 n) :
    48 ≤ c.toNat ∧ c.toNat ≤ 57 := by
  have hdigit := Nat.isDigit_of_mem_toDigits (by decide) (by decide) hc
  simp only [Char.isDigit, Bool.and_eq_true, decide_eq_true_eq] at hdigit
  exact hdigit

theorem charByte_toNat {c : Char} (hc : c.toNat ≤ 57) : (charByte c).toNat = c.toNat := by
  rw [charByte, BitVec.toNat_ofNat, Nat.mod_eq_of_lt (by omega)]

theorem isDecimal_decimal (n : ℕ) : ∀ b ∈ decimal n, IsDecimal b := by
  intro b hb
  obtain ⟨c, hc, rfl⟩ := List.mem_map.mp hb
  obtain ⟨hlo, hhi⟩ := toNat_of_mem_toDigits hc
  unfold IsDecimal
  rw [BitVec.le_def, BitVec.le_def, charByte_toNat hhi]
  exact ⟨hlo, hhi⟩

theorem decimal_inj {m n : ℕ} (h : decimal m = decimal n) : m = n := by
  have hback : ∀ k, (decimal k).map (fun b => Char.ofNat b.toNat) = Nat.toDigits 10 k := by
    intro k
    rw [decimal, List.map_map]
    conv_rhs => rw [← List.map_id (Nat.toDigits 10 k)]
    apply List.map_congr_left
    intro c hc
    rw [Function.comp_apply, charByte_toNat (toNat_of_mem_toDigits hc).2, Char.ofNat_toNat, id]
  have hchars := congrArg (List.map fun b : Byte => Char.ofNat b.toNat) h
  rw [hback, hback] at hchars
  rw [← @Nat.ofDigitChars_ten_toDigits m, hchars, Nat.ofDigitChars_ten_toDigits]

/-- A number at the end of a text, behind a character that is not a digit. -/
theorem append_decimal_inj {xs xs' : List Byte} {a a' : Byte} {m n : ℕ} (ha : ¬ IsDecimal a)
    (ha' : ¬ IsDecimal a') (h : xs ++ a :: decimal m = xs' ++ a' :: decimal n) :
    xs = xs' ∧ m = n := by
  obtain ⟨hxs, -, hmn⟩ := cut_last_inj (isDecimal_decimal m) (isDecimal_decimal n) ha ha' h
  exact ⟨hxs, decimal_inj hmn⟩

end TcpTests.Text
