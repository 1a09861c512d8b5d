import TcpTests.Lib.CString

/-! `inet_isDots` of `ebsocket`: whether a string is a dotted address. A read outside of the string
and its terminator is `none`. -/
namespace TcpTests.Ebsocket
open Lib

def dot : Byte := 0x2E#8

/-- `isdigit` in the C locale. -/
def isDigit (c : Byte) : Bool := 0x30#8 ≤ c && c ≤ 0x39#8

/-- The loop, with the index of `t`. The tests of a condition are made from left to right. -/
def isDotsLoop (s : List Byte) (t nd : ℕ) : Option Bool :=
  if _h : t < s.length then
    let c := s[t]
    if c = 0 then some (nd == 3)
    else if c = dot then
      if t = 0 then some false
      else
        match s[t + 1]?, s[t - 1]? with
        | some next, some prev =>
          if next = 0 then some false
          else if prev = dot || next = dot then some false
          else isDotsLoop s (t + 1) (nd + 1)
        | _, _ => none
    else if !isDigit c then some false
    else isDotsLoop s (t + 1) nd
  else none
  termination_by s.length - t

def inetIsDots : Option CString → Option Bool
  | none => some false
  | some s => isDotsLoop s.mem 0 0

structure IsGroup (g : List Byte) : Prop where
  ne_nil : g ≠ []
  digits : ∀ c ∈ g, isDigit c

/-- Four groups of digits with single dots between them. -/
def IsDottedQuad (chars : List Byte) : Prop :=
  ∃ a b c d, chars = a ++ dot :: (b ++ dot :: (c ++ dot :: d)) ∧
    IsGroup a ∧ IsGroup b ∧ IsGroup c ∧ IsGroup d

/-- What may follow a digit, with `n` dots in it. -/
inductive AfterDigit : ℕ → List Byte → Prop
  | done : AfterDigit 0 []
  | digit {n : ℕ} {c : Byte} {s : List Byte} (hc : isDigit c = true) (hs : AfterDigit n s) :
      AfterDigit n (c :: s)
  | dot {n : ℕ} {c : Byte} {s : List Byte} (hc : isDigit c = true) (hs : AfterDigit n s) :
      AfterDigit (n + 1) (Ebsocket.dot :: c :: s)

section
variable {n t nd : ℕ} {c : Byte} {s g : List Byte}

theorem isDigit_dot : isDigit dot = false := by
  decide

theorem afterDigit_nil : AfterDigit n [] ↔ n = 0 := by
  constructor
  · intro h
    cases h
    rfl
  · intro h
    exact h ▸ .done

theorem afterDigit_digit (hc : isDigit c = true) : AfterDigit n (c :: s) ↔ AfterDigit n s := by
  constructor
  · intro h
    cases h with
    | digit _ hs => exact hs
    | dot =>
      rw [isDigit_dot] at hc
      cases hc
  · exact .digit hc

theorem afterDigit_dot (hc : isDigit c = true) :
    AfterDigit n (dot :: c :: s) ↔ ∃ m, n = m + 1 ∧ AfterDigit m s := by
  constructor
  · intro h
    cases h with
    | digit hdot =>
      rw [isDigit_dot] at hdot
      cases hdot
    | dot _ hs => exact ⟨_, rfl, hs⟩
  · rintro ⟨m, rfl, hs⟩
    exact .dot hc hs

theorem not_afterDigit_dot (hs : ∀ c ∈ s.head?, isDigit c = false) :
    ¬ AfterDigit n (dot :: s) := by
  intro h
  cases h with
  | digit hc =>
    rw [isDigit_dot] at hc
    cases hc
  | dot hc =>
    rw [hs _ rfl] at hc
    cases hc

theorem not_afterDigit (hc : isDigit c = false) (hdot : c ≠ dot) : ¬ AfterDigit n (c :: s) := by
  intro h
  cases h with
  | digit hc' =>
    rw [hc] at hc'
    cases hc'
  | dot => exact hdot rfl

theorem afterDigit_append (hg : ∀ c ∈ g, isDigit c) : AfterDigit n (g ++ s) ↔ AfterDigit n s := by
  induction g with
  | nil => rfl
  | cons c g ih =>
    rw [List.cons_append, afterDigit_digit (hg c List.mem_cons_self)]
    exact ih fun d hd => hg d (List.mem_cons_of_mem c hd)

theorem AfterDigit.split (h : AfterDigit n s) :
    ∃ g, (∀ c ∈ g, isDigit c) ∧ (n = 0 ∧ s = g ∨ ∃ m c r, n = m + 1 ∧
      s = g ++ Ebsocket.dot :: c :: r ∧ isDigit c = true ∧ AfterDigit m r) := by
  induction h with
  | done => exact ⟨[], nofun, Or.inl ⟨rfl, rfl⟩⟩
  | @digit n c s hc hs ih =>
    obtain ⟨g, hg, hrest⟩ := ih
    refine ⟨c :: g, List.forall_mem_cons.mpr ⟨hc, hg⟩, ?_⟩
    rcases hrest with ⟨rfl, rfl⟩ | ⟨m, d, r, rfl, rfl, hd, hr⟩
    · exact Or.inl ⟨rfl, rfl⟩
    · exact Or.inr ⟨m, d, r, rfl, rfl, hd, hr⟩
  | @dot n c s hc hs => exact ⟨[], nofun, Or.inr ⟨n, c, s, rfl, rfl, hc, hs⟩⟩

theorem isGroup_cons (hc : isDigit c = true) (hg : ∀ d ∈ g, isDigit d) : IsGroup (c :: g) :=
  ⟨List.cons_ne_nil c g, List.forall_mem_cons.mpr ⟨hc, hg⟩⟩

theorem IsGroup.exists_cons (h : IsGroup g) :
    ∃ c g', g = c :: g' ∧ isDigit c = true ∧ ∀ d ∈ g', isDigit d := by
  obtain ⟨c, g', rfl⟩ := List.exists_cons_of_ne_nil h.ne_nil
  obtain ⟨hc, hg⟩ := List.forall_mem_cons.mp h.digits
  exact ⟨c, g', rfl, hc, hg⟩

/-- Behind its first digit a dotted address has three dots. -/
theorem isDottedQuad_iff :
    IsDottedQuad s ↔ ∃ c r, s = c :: r ∧ isDigit c = true ∧ AfterDigit 3 r := by
  constructor
  · rintro ⟨a, b, c, d, rfl, ha, hb, hc, hd⟩
    obtain ⟨a₀, a', rfl, ha₀, ha'⟩ := ha.exists_cons
    obtain ⟨b₀, b', rfl, hb₀, hb'⟩ := hb.exists_cons
    obtain ⟨c₀, c', rfl, hc₀, hc'⟩ := hc.exists_cons
    obtain ⟨d₀, d', rfl, hd₀, hd'⟩ := hd.exists_cons
    refine ⟨a₀, _, rfl, ha₀, (afterDigit_append ha').mpr (.dot hb₀ ?_)⟩
    refine (afterDigit_append hb').mpr (.dot hc₀ ?_)
    refine (afterDigit_append hc').mpr (.dot hd₀ ?_)
    have hlast := (afterDigit_append hd').mpr AfterDigit.done
    rwa [List.append_nil] at hlast
  · rintro ⟨a₀, r, rfl, ha₀, hr⟩
    obtain ⟨a, ha, ⟨h, -⟩ | ⟨_, b₀, r, h, rfl, hb₀, hr⟩⟩ := hr.split
    · cases h
    cases h
    obtain ⟨b, hb, ⟨h, -⟩ | ⟨_, c₀, r, h, rfl, hc₀, hr⟩⟩ := hr.split
    · cases h
    cases h
    obtain ⟨c, hc, ⟨h, -⟩ | ⟨_, d₀, r, h, rfl, hd₀, hr⟩⟩ := hr.split
    · cases h
    cases h
    obtain ⟨d, hd, ⟨-, rfl⟩ | ⟨_, _, _, h, -⟩⟩ := hr.split
    · exact ⟨a₀ :: a, b₀ :: b, c₀ :: c, d₀ :: r, rfl, isGroup_cons ha₀ ha, isGroup_cons hb₀ hb,
        isGroup_cons hc₀ hc, isGroup_cons hd₀ hd⟩
    · cases h

variable {str : CString}

theorem isDotsLoop_char {s : List Byte} (ht : s[t]? = some c) :
    isDotsLoop s t nd =
      if c = 0 then some (nd == 3)
      else if c = dot then
        if t = 0 then some false
        else
          match s[t + 1]?, s[t - 1]? with
          | some next, some prev =>
            if next = 0 then some false
            else if prev = dot || next = dot then some false
            else isDotsLoop s (t + 1) (nd + 1)
          | _, _ => none
      else if !isDigit c then some false
      else isDotsLoop s (t + 1) nd := by
  obtain ⟨hlt, rfl⟩ := List.getElem?_eq_some_iff.mp ht
  rw [isDotsLoop, dif_pos hlt]

theorem isDotsLoop_end : isDotsLoop str.mem str.chars.length nd = some (nd == 3) := by
  rw [isDotsLoop_char CString.mem_end, if_pos rfl]

theorem isDotsLoop_digit (ht : t < str.chars.length) (hc : isDigit str.chars[t] = true) :
    isDotsLoop str.mem t nd = isDotsLoop str.mem (t + 1) nd := by
  have hdot : str.chars[t] ≠ dot := by
    intro h
    rw [h, isDigit_dot] at hc
    cases hc
  rw [isDotsLoop_char (CString.mem_getElem? ht), if_neg (CString.ne_zero ht), if_neg hdot, hc]
  rfl

theorem isDotsLoop_other (ht : t < str.chars.length) (hc : isDigit str.chars[t] = false)
    (hdot : str.chars[t] ≠ dot) : isDotsLoop str.mem t nd = some false := by
  rw [isDotsLoop_char (CString.mem_getElem? ht), if_neg (CString.ne_zero ht), if_neg hdot, hc]
  rfl

theorem isDotsLoop_dot (ht : t + 1 < str.chars.length) (hc : str.chars[t + 1] = dot)
    (hprev : isDigit str.chars[t] = true) :
    isDotsLoop str.mem (t + 1) nd =
      if h : t + 2 < str.chars.length then
        if isDigit str.chars[t + 2] then isDotsLoop str.mem (t + 3) (nd + 1) else some false
      else some false := by
  have hne : str.chars[t] ≠ dot := by
    intro h
    rw [h, isDigit_dot] at hprev
    cases hprev
  have hnul : dot ≠ 0 := by decide
  rw [isDotsLoop_char (CString.mem_getElem? ht), hc, if_neg hnul, if_pos rfl,
    if_neg (Nat.succ_ne_zero t), Nat.add_sub_cancel,
    CString.mem_getElem? (show t < str.chars.length by omega)]
  by_cases hnext : t + 2 < str.chars.length
  · rw [CString.mem_getElem? hnext, dif_pos hnext]
    dsimp only
    rw [if_neg (CString.ne_zero hnext)]
    by_cases hdot : str.chars[t + 2] = dot
    · rw [if_pos (by simp [hdot]), hdot, isDigit_dot]
      rfl
    · rw [if_neg (by simp [hdot, hne])]
      cases hdigit : isDigit str.chars[t + 2] with
      | true => exact isDotsLoop_digit hnext hdigit
      | false => exact isDotsLoop_other hnext hdigit hdot
  · have hend : t + 1 + 1 = str.chars.length := by omega
    rw [dif_neg hnext, hend, CString.mem_end]
    rfl

/-- What the loop looks for when it has seen `nd` dots, the last character being a digit. -/
def Completes (nd : ℕ) (s : List Byte) : Prop := ∃ m, nd + m = 3 ∧ AfterDigit m s

theorem completes_nil : Completes nd [] ↔ nd = 3 := by
  constructor
  · rintro ⟨m, hm, hafter⟩
    have hzero := afterDigit_nil.mp hafter
    omega
  · intro hnd
    exact ⟨0, hnd, .done⟩

theorem completes_digit (hc : isDigit c = true) : Completes nd (c :: s) ↔ Completes nd s := by
  simp only [Completes, afterDigit_digit hc]

theorem completes_dot (hc : isDigit c = true) :
    Completes nd (dot :: c :: s) ↔ Completes (nd + 1) s := by
  constructor
  · rintro ⟨_, hm, hafter⟩
    obtain ⟨m, rfl, hs⟩ := (afterDigit_dot hc).mp hafter
    exact ⟨m, by omega, hs⟩
  · rintro ⟨m, hm, hs⟩
    exact ⟨m + 1, by omega, .dot hc hs⟩

theorem not_completes_dot (hs : ∀ c ∈ s.head?, isDigit c = false) : ¬ Completes nd (dot :: s) := by
  rintro ⟨m, -, hafter⟩
  exact not_afterDigit_dot hs hafter

/-- Behind a digit the loop reads on to the end, and accepts what completes the address. -/
theorem isDotsLoop_afterDigit (ht : t < str.chars.length) (hc : isDigit str.chars[t] = true) :
    ∃ b, isDotsLoop str.mem (t + 1) nd = some b ∧
      (b = true ↔ Completes nd (str.chars.drop (t + 1))) := by
  induction hn : str.chars.length - t using Nat.strong_induction_on generalizing t nd with
  | _ n ih =>
    by_cases hend : t + 1 = str.chars.length
    · refine ⟨nd == 3, by rw [hend]; exact isDotsLoop_end, ?_⟩
      rw [hend, List.drop_length, beq_iff_eq, completes_nil]
    have hlt : t + 1 < str.chars.length := by omega
    rw [List.drop_eq_getElem_cons hlt]
    cases hdigit : isDigit str.chars[t + 1] with
    | true =>
      obtain ⟨b, hb, hiff⟩ := @ih _ (by omega) (t + 1) nd hlt hdigit rfl
      exact ⟨b, (isDotsLoop_digit hlt hdigit).trans hb, hiff.trans (completes_digit hdigit).symm⟩
    | false =>
      by_cases hdot : str.chars[t + 1] = dot
      · rw [isDotsLoop_dot hlt hdot hc, hdot]
        by_cases hnext : t + 2 < str.chars.length
        · rw [dif_pos hnext, List.drop_eq_getElem_cons hnext]
          cases hgroup : isDigit str.chars[t + 2] with
          | true =>
            obtain ⟨b, hb, hiff⟩ := @ih _ (by omega) (t + 2) (nd + 1) hnext hgroup rfl
            exact ⟨b, hb, hiff.trans (completes_dot hgroup).symm⟩
          | false =>
            have hno : ¬ Completes nd (dot :: str.chars[t + 2] :: str.chars.drop (t + 2 + 1)) :=
              not_completes_dot fun c hhead => Option.some.inj hhead ▸ hgroup
            exact ⟨false, rfl, nofun, fun h => absurd h hno⟩
        · rw [dif_neg hnext, List.drop_eq_nil_of_le (by omega)]
          exact ⟨false, rfl, nofun, fun h => absurd h (not_completes_dot nofun)⟩
      · refine ⟨false, isDotsLoop_other hlt hdigit hdot, nofun, ?_⟩
        rintro ⟨m, -, hafter⟩
        exact absurd hafter (not_afterDigit hdigit hdot)

end

/-- Exactly the strings of four groups are accepted, and nothing outside of the string is read. -/
theorem inetIsDots_iff (str : CString) :
    ∃ b, inetIsDots (some str) = some b ∧ (b = true ↔ IsDottedQuad str.chars) := by
  rw [inetIsDots, isDottedQuad_iff]
  by_cases hnil : str.chars = []
  · have hend := @isDotsLoop_end 0 str
    rw [hnil, List.length_nil] at hend
    refine ⟨false, hend, ?_⟩
    rw [hnil]
    constructor
    · nofun
    · rintro ⟨_, _, h, -⟩
      cases h
  have hpos := List.length_pos_iff.mpr hnil
  have hcons := List.drop_eq_getElem_cons hpos
  rw [List.drop_zero] at hcons
  cases hdigit : isDigit str.chars[0] with
  | true =>
    obtain ⟨b, hb, hiff⟩ := @isDotsLoop_afterDigit 0 0 str hpos hdigit
    refine ⟨b, (isDotsLoop_digit hpos hdigit).trans hb, hiff.trans ?_⟩
    constructor
    · rintro ⟨m, hm, hafter⟩
      obtain rfl : m = 3 := by omega
      exact ⟨_, _, hcons, hdigit, hafter⟩
    · rintro ⟨_, r, h, -, hafter⟩
      rw [h]
      exact ⟨3, rfl, hafter⟩
  | false =>
    refine ⟨false, ?_, ?_⟩
    · by_cases hdot : str.chars[0] = dot
      · have hnul : dot ≠ 0 := by decide
        rw [isDotsLoop_char (CString.mem_getElem? hpos), hdot, if_neg hnul, if_pos rfl, if_pos rfl]
      · exact isDotsLoop_other hpos hdigit hdot
    · constructor
      · nofun
      · rintro ⟨c, r, h, hc, -⟩
        have hhead : str.chars[0] = c := by simp [h]
        rw [hhead, hc] at hdigit
        cases hdigit

end TcpTests.Ebsocket
