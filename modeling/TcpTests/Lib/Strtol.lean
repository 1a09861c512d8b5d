import Mathlib.Data.List.TakeWhile
import TcpTests.Lib.Memory

/-! `strtol` of the C library, with a `long` of 64 bits, and the numerals it reads. A string is the
list of its characters, without the NUL. -/
namespace Lib

/-- `isspace` in the C locale. -/
def isSpace (c : Byte) : Bool := c = 0x20#8 || (0x09#8 ≤ c && c ≤ 0x0D#8)

/-- The value of a digit or letter, and 36 for any other character. -/
def digitVal (c : Byte) : ℕ :=
  if 0x30#8 ≤ c ∧ c ≤ 0x39#8 then c.toNat - 0x30
  else if 0x61#8 ≤ c ∧ c ≤ 0x7A#8 then c.toNat - 0x57
  else if 0x41#8 ≤ c ∧ c ≤ 0x5A#8 then c.toNat - 0x37
  else 36

def isDigitOf (base : ℕ) (c : Byte) : Bool := digitVal c < base

def numberOf (base : ℕ) (ds : List Byte) : ℕ := ds.foldl (fun n c => base * n + digitVal c) 0

/-- Whether there is a minus sign, and what stands behind the sign. -/
def signOf : List Byte → Bool × List Byte
  | c :: s => if c = 0x2D#8 then (true, s) else if c = 0x2B#8 then (false, s) else (false, c :: s)
  | [] => (false, [])

/-- `0x` or `0X` with a digit behind it. -/
def hexPrefix : List Byte → Bool
  | z :: x :: c :: _ => z = 0x30#8 && (x = 0x78#8 || x = 0x58#8) && isDigitOf 16 c
  | _ => false

def radix (base : ℕ) (s : List Byte) : ℕ × List Byte :=
  if (base = 0 ∨ base = 16) ∧ hexPrefix s then (16, s.drop 2)
  else if base = 0 then (if s.head? = some 0x30#8 then 8 else 10, s)
  else (base, s)

/-- The number at the head of a string, and what stands behind it. -/
def scanNumber (base : ℕ) (s : List Byte) : Option (ℤ × List Byte) :=
  let (minus, s) := signOf (s.dropWhile isSpace)
  let (base, s) := radix base s
  let ds := s.takeWhile (isDigitOf base)
  if ds = [] then none
  else
    some (if minus then -(numberOf base ds : ℤ) else numberOf base ds,
      s.dropWhile (isDigitOf base))

/-- `LONG_MIN` or `LONG_MAX` for a number out of range. -/
def clampLong (x : ℤ) : ℤ := max (-2 ^ 63) (min x (2 ^ 63 - 1))

/-- The value, and what `endptr` points to. -/
def strtol (base : ℕ) (s : List Byte) : ℤ × List Byte :=
  match scanNumber base s with
  | none => (0, s)
  | some (x, rest) => (clampLong x, rest)

def toInt32 (x : ℤ) : ℤ := x.bmod (2 ^ 32)

def atoi (s : List Byte) : ℤ := toInt32 (strtol 10 s).1

/-- A numeral as it stands in a program: decimal, octal or hexadecimal. -/
inductive Numeral : List Byte → ℕ → Prop
  | decimal {c : Byte} {ds : List Byte} (hc : c ≠ 0x30#8)
      (hds : ∀ d ∈ c :: ds, isDigitOf 10 d) : Numeral (c :: ds) (numberOf 10 (c :: ds))
  | octal {ds : List Byte} (hds : ∀ d ∈ ds, isDigitOf 8 d) :
      Numeral (0x30#8 :: ds) (numberOf 8 ds)
  | hexadecimal {x c : Byte} {ds : List Byte} (hx : x = 0x78#8 ∨ x = 0x58#8)
      (hds : ∀ d ∈ c :: ds, isDigitOf 16 d) :
      Numeral (0x30#8 :: x :: c :: ds) (numberOf 16 (c :: ds))

/-- A sign, or none, and the number it makes of another. -/
inductive Signed (n : ℕ) : List Byte → ℤ → Prop
  | none : Signed n [] n
  | plus : Signed n [0x2B#8] n
  | minus : Signed n [0x2D#8] (-n)

/-- The whole string is a number: white space, a sign and a numeral. -/
def Denotes (s : List Byte) (x : ℤ) : Prop :=
  ∃ spaces sgn body n, s = spaces ++ (sgn ++ body) ∧ (∀ c ∈ spaces, isSpace c) ∧
    Signed n sgn x ∧ Numeral body n

section
variable {base n : ℕ} {s t ds body sgn spaces : List Byte} {c : Byte} {x : ℤ}

theorem takeWhile_all {p : Byte → Bool} (h : ∀ d ∈ ds, p d) :
    ds.takeWhile p = ds ∧ ds.dropWhile p = [] := by
  constructor
  · exact List.takeWhile_eq_self_iff.mpr h
  · exact List.dropWhile_eq_nil_iff.mpr h

theorem numberOf_zero_cons (base : ℕ) (ds : List Byte) :
    numberOf base (0x30#8 :: ds) = numberOf base ds := by
  have hzero : digitVal 0x30#8 = 0 := by decide
  rw [numberOf, List.foldl_cons, hzero, Nat.mul_zero, Nat.add_zero, numberOf]

theorem isSpace_of_digit (h : isDigitOf 16 c) : isSpace c = false := by
  revert c
  decide

theorem isDigitOf_mono {b b' : ℕ} (hb : b ≤ b') (h : isDigitOf b c) : isDigitOf b' c := by
  have hlt := of_decide_eq_true h
  exact decide_eq_true (lt_of_lt_of_le hlt hb)

theorem digit_ne_sign (h : isDigitOf 16 c) : c ≠ 0x2D#8 ∧ c ≠ 0x2B#8 := by
  revert c
  decide

theorem octal_ne_x (h : isDigitOf 8 c) : c ≠ 0x78#8 ∧ c ≠ 0x58#8 := by
  revert c
  decide

theorem Numeral.head (h : Numeral body n) : ∃ c rest, body = c :: rest ∧ isDigitOf 16 c := by
  cases h with
  | decimal hc hds =>
    exact ⟨_, _, rfl, isDigitOf_mono (by decide) (hds _ List.mem_cons_self)⟩
  | octal hds => exact ⟨_, _, rfl, by decide⟩
  | hexadecimal hx hds => exact ⟨_, _, rfl, by decide⟩

theorem Numeral.signOf (h : Numeral body n) : Lib.signOf body = (false, body) := by
  obtain ⟨c, rest, rfl, hc⟩ := h.head
  obtain ⟨hminus, hplus⟩ := digit_ne_sign hc
  rw [Lib.signOf, if_neg hminus, if_neg hplus]

theorem Numeral.radix (h : Numeral body n) :
    ∃ base ds, Lib.radix 0 body = (base, ds) ∧ ds ≠ [] ∧ (∀ d ∈ ds, isDigitOf base d) ∧
      numberOf base ds = n := by
  cases h with
  | @decimal c ds hc hds =>
    have hno : hexPrefix (c :: ds) = false := by
      rcases ds with _ | ⟨x, _ | ⟨d, ds⟩⟩
      · rfl
      · rfl
      · simp [hexPrefix, hc]
    refine ⟨10, c :: ds, ?_, List.cons_ne_nil _ _, hds, rfl⟩
    simp [Lib.radix, hno, hc]
  | @octal ds hds =>
    have hno : hexPrefix (0x30#8 :: ds) = false := by
      rcases ds with _ | ⟨x, _ | ⟨d, ds⟩⟩
      · rfl
      · rfl
      · have hx := hds x List.mem_cons_self
        obtain ⟨hlower, hupper⟩ := octal_ne_x hx
        simp [hexPrefix, hlower, hupper]
    refine ⟨8, 0x30#8 :: ds, ?_, List.cons_ne_nil _ _, ?_, numberOf_zero_cons 8 ds⟩
    · simp [Lib.radix, hno]
    · intro d hd
      rcases List.mem_cons.mp hd with rfl | hd
      · decide
      · exact hds d hd
  | @hexadecimal x c ds hx hds =>
    have hyes : hexPrefix (0x30#8 :: x :: c :: ds) = true := by
      have hc := hds c List.mem_cons_self
      rcases hx with rfl | rfl <;> simp [hexPrefix, hc]
    refine ⟨16, c :: ds, ?_, List.cons_ne_nil _ _, hds, rfl⟩
    simp [Lib.radix, hyes]

theorem numeral_of_radix (hr : radix 0 s = (base, t)) (hne : t ≠ [])
    (hall : ∀ d ∈ t, isDigitOf base d) : Numeral s (numberOf base t) := by
  unfold radix at hr
  by_cases hhex : hexPrefix s
  · rw [if_pos ⟨Or.inl rfl, hhex⟩] at hr
    cases hr
    rcases s with _ | ⟨z, _ | ⟨x, _ | ⟨c, ds⟩⟩⟩
    · cases hhex
    · cases hhex
    · cases hhex
    · simp only [hexPrefix, Bool.and_eq_true, decide_eq_true_eq, Bool.or_eq_true] at hhex
      obtain ⟨⟨rfl, hx⟩, -⟩ := hhex
      exact .hexadecimal hx hall
  · rw [if_neg fun h => hhex h.2, if_pos rfl] at hr
    cases hr
    cases s with
    | nil => exact absurd rfl hne
    | cons c ds =>
      by_cases hc : c = 0x30#8
      · subst hc
        rw [List.head?_cons, if_pos rfl] at hall ⊢
        rw [numberOf_zero_cons]
        exact .octal fun d hd => hall d (List.mem_cons_of_mem _ hd)
      · have hhead : ¬ (c :: ds).head? = some 0x30#8 := fun h => hc (Option.some.inj h)
        rw [if_neg hhead] at hall ⊢
        exact .decimal hc hall

theorem scanNumber_of_denotes (h : Denotes s x) : scanNumber 0 s = some (x, []) := by
  obtain ⟨spaces, sgn, body, n, rfl, hspaces, hsgn, hbody⟩ := h
  obtain ⟨c, rest, hhead, hdigit⟩ := hbody.head
  have hsign : ∃ minus, signOf (sgn ++ body) = (minus, body) ∧
      (if minus then -(n : ℤ) else n) = x := by
    cases hsgn with
    | none => exact ⟨false, hbody.signOf, rfl⟩
    | plus => exact ⟨false, rfl, rfl⟩
    | minus => exact ⟨true, rfl, rfl⟩
  have hstart : (spaces ++ (sgn ++ body)).dropWhile isSpace = sgn ++ body := by
    rw [List.dropWhile_append_of_pos hspaces]
    cases hsgn with
    | none =>
      rw [List.nil_append, hhead,
        List.dropWhile_cons_of_neg (by simp [isSpace_of_digit hdigit])]
    | plus => exact List.dropWhile_cons_of_neg (by decide)
    | minus => exact List.dropWhile_cons_of_neg (by decide)
  obtain ⟨minus, hminus, hx⟩ := hsign
  obtain ⟨base, ds, hradix, hne, hall, hn⟩ := hbody.radix
  obtain ⟨htake, hdrop⟩ := takeWhile_all hall
  rw [scanNumber, hstart, hminus]
  dsimp only
  rw [hradix]
  dsimp only
  rw [htake, hdrop, if_neg hne, hn, hx]

theorem signOf_split {minus : Bool} (h : signOf s = (minus, t)) :
    ∃ sgn, s = sgn ++ t ∧ ∀ n : ℕ, Signed n sgn (if minus then -(n : ℤ) else n) := by
  cases s with
  | nil =>
    cases h
    exact ⟨[], rfl, fun n => .none⟩
  | cons c s =>
    rw [signOf] at h
    by_cases hminus : c = 0x2D#8
    · rw [if_pos hminus] at h
      cases h
      exact ⟨[c], rfl, fun n => hminus ▸ .minus⟩
    rw [if_neg hminus] at h
    by_cases hplus : c = 0x2B#8
    · rw [if_pos hplus] at h
      cases h
      exact ⟨[c], rfl, fun n => hplus ▸ .plus⟩
    · rw [if_neg hplus] at h
      cases h
      exact ⟨[], rfl, fun n => .none⟩

theorem denotes_of_scanNumber (h : scanNumber 0 s = some (x, [])) : Denotes s x := by
  have hsplit := List.takeWhile_append_dropWhile (p := isSpace) (l := s)
  rcases hsign : signOf (s.dropWhile isSpace) with ⟨minus, body⟩
  rcases hradix : radix 0 body with ⟨base, ds⟩
  rw [scanNumber, hsign] at h
  dsimp only at h
  rw [hradix] at h
  dsimp only at h
  by_cases hnil : ds.takeWhile (isDigitOf base) = []
  · rw [if_pos hnil] at h
    cases h
  rw [if_neg hnil] at h
  obtain ⟨hx, hrest⟩ := Prod.mk.inj (Option.some.inj h)
  have hall := List.dropWhile_eq_nil_iff.mp hrest
  rw [(takeWhile_all hall).1] at hx hnil
  obtain ⟨sgn, hsgn, hsigned⟩ := signOf_split hsign
  refine ⟨s.takeWhile isSpace, sgn, body, numberOf base ds, ?_, ?_, ?_,
    numeral_of_radix hradix hnil hall⟩
  · rw [← hsgn, hsplit]
  · intro c hc
    exact List.mem_takeWhile_imp hc
  · rw [← hx]
    exact hsigned _

/-- The whole string is read exactly if it is a number. -/
theorem scanNumber_eq_iff : scanNumber 0 s = some (x, []) ↔ Denotes s x :=
  ⟨denotes_of_scanNumber, scanNumber_of_denotes⟩

theorem Denotes.unique {y : ℤ} (hx : Denotes s x) (hy : Denotes s y) : x = y := by
  have heq := (scanNumber_of_denotes hx).symm.trans (scanNumber_of_denotes hy)
  exact congrArg Prod.fst (Option.some.inj heq)

end

end Lib
