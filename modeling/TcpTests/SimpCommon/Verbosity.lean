import TcpTests.SimpCommon.Options

/-! The option `-v` in the three programs. -/
namespace TcpTests.SimpCommon
open Lib Text

/-- `-v`, with further dashes in front and other characters behind. -/
def verbosityArg (dashes : ℕ) (behind : List Byte) : List Byte :=
  List.replicate (dashes + 1) (charByte '-') ++ charByte 'v' :: behind

/-- The argument takes the options from `s` to `t`, and the loop goes on behind it. -/
def Sets {σ : Type} (option : σ → List Byte → Option (List Byte) → Parsed σ) (s t : σ)
    (arg : List Byte) : Prop :=
  ∀ args, parseArgs option s (arg :: args) = parseArgs option t args

/-- The argument sets the verbosity to `x`, which is then an `int`. -/
def SetsVerbosity {σ : Type} (option : σ → List Byte → Option (List Byte) → Parsed σ) (s : σ)
    (set : Int32 → σ) (x : ℤ) (arg : List Byte) : Prop :=
  ∃ verbosity : Int32, verbosity.toInt = x ∧ Sets option s (set verbosity) arg

structure IsNumber (nn : List Byte) : Prop where
  ne_nil : nn ≠ []
  digits : isDigits nn = true

section
variable {nn arg behind rest : List Byte} {dashes k : ℕ} {c : Byte} {verbosity : Int32} {n : ℕ}
  {x : ℤ}

theorem sets_iff_of_one {σ : Type} {option : σ → List Byte → Option (List Byte) → Parsed σ}
    {s t u : σ} (h : ∀ next, option s arg next = .one u) : Sets option s t arg ↔ u = t := by
  constructor
  · intro hsets
    have hend := hsets []
    simp only [parseArgs, h none] at hend
    exact Sum.inl.inj (Option.some.inj hend)
  · rintro rfl args
    cases args with
    | nil => simp only [parseArgs, h none]
    | cons next args => rw [parseArgs, h (some next)]

theorem not_sets_of_badArg {σ : Type} {option : σ → List Byte → Option (List Byte) → Parsed σ}
    {s t : σ} (h : ∀ next, option s arg next = badArg) : ¬ Sets option s t arg := by
  intro hsets
  have hend := hsets []
  simp only [parseArgs, h none, badArg] at hend
  cases hend

theorem not_sets_of_undefined {σ : Type} {option : σ → List Byte → Option (List Byte) → Parsed σ}
    {s t : σ} (h : ∀ next, option s arg next = .undefined) : ¬ Sets option s t arg := by
  intro hsets
  have hend := hsets []
  simp only [parseArgs, h none] at hend
  cases hend

theorem setsVerbosity_store_iff {σ : Type}
    {option : σ → List Byte → Option (List Byte) → Parsed σ} {s : σ} {set : Int32 → σ} {y : ℤ}
    (hset : Function.Injective set)
    (h : ∀ next, option s arg next = .store set (ofInt? y)) :
    SetsVerbosity option s set x arg ↔ x = y ∧ -2 ^ 31 ≤ y ∧ y < 2 ^ 31 := by
  cases hy : ofInt? y with
  | some stored =>
    have hstored := ofInt?_eq_some_iff.mp hy
    have hle := stored.le_toInt
    have hlt := stored.toInt_lt
    rw [hy] at h
    constructor
    · rintro ⟨verbosity, rfl, hsets⟩
      have heq := hset ((sets_iff_of_one h).mp hsets)
      rw [← heq]
      exact ⟨hstored, by omega, by omega⟩
    · rintro ⟨rfl, -, -⟩
      exact ⟨stored, hstored, (sets_iff_of_one h).mpr rfl⟩
  | none =>
    rw [hy] at h
    constructor
    · rintro ⟨verbosity, -, hsets⟩
      exact absurd hsets (not_sets_of_undefined h)
    · rintro ⟨-, hle, hlt⟩
      have hnone := ofInt?_eq_none_iff.mp hy
      omega

theorem isNum_digit (h : isNum c = true) : isDigitOf 10 c = true := by
  revert c
  decide

theorem IsNumber.digitsOf (h : IsNumber nn) : ∀ c ∈ nn, isDigitOf 10 c :=
  fun c hc => isNum_digit (List.all_eq_true.mp h.digits c hc)

theorem IsNumber.scanNumber (h : IsNumber nn) :
    Lib.scanNumber 10 nn = some ((numberOf 10 nn : ℤ), []) := by
  have hall := h.digitsOf
  obtain ⟨c, rest, rfl⟩ := List.exists_cons_of_ne_nil h.ne_nil
  have hc : isDigitOf 16 c := isDigitOf_mono (by decide) (hall c List.mem_cons_self)
  obtain ⟨hminus, hplus⟩ := digit_ne_sign hc
  have hstart : (c :: rest).dropWhile isSpace = c :: rest :=
    List.dropWhile_cons_of_neg (by simp [isSpace_of_digit hc])
  have hsign : signOf (c :: rest) = (false, c :: rest) := by
    rw [signOf, if_neg hminus, if_neg hplus]
  have hradix : radix 10 (c :: rest) = (10, c :: rest) := by simp [radix]
  obtain ⟨htake, hdrop⟩ := takeWhile_all hall
  rw [Lib.scanNumber, hstart, hsign]
  dsimp only
  rw [hradix]
  dsimp only
  rw [htake, hdrop, if_neg h.ne_nil]
  rfl

theorem IsNumber.atoi (h : IsNumber nn) : Lib.atoi nn = toInt32 (clampLong (numberOf 10 nn)) := by
  rw [Lib.atoi, strtol, h.scanNumber]

theorem toInt32_clampLong_natCast : toInt32 (clampLong n) = n ↔ n < 2 ^ 31 := by
  unfold toInt32 clampLong
  rw [Int.bmod_def]
  norm_num
  split_ifs <;> omega

theorem toInt_ofInt_atoi (h : IsNumber nn) :
    (Int32.ofInt (Lib.atoi nn)).toInt = toInt32 (clampLong (numberOf 10 nn)) := by
  rw [Int32.toInt_ofInt, h.atoi, toInt32]
  exact Int.bmod_bmod

theorem countLetters_append (hrest : rest.head? ≠ some (charByte 'v')) :
    countLetters verbosity (List.replicate k (charByte 'v') ++ rest) =
      ofInt? (verbosity.toInt + k) := by
  induction k generalizing verbosity with
  | zero =>
    rw [List.replicate_zero, List.nil_append, Nat.cast_zero, add_zero,
      ofInt?_eq_some_iff.mpr rfl]
    cases rest with
    | nil => rfl
    | cons c rest =>
      have hc : c ≠ charByte 'v' := fun h => hrest (congrArg some h)
      rw [countLetters, if_neg hc]
  | succ k ih =>
    rw [List.replicate_succ, List.cons_append, countLetters, if_pos rfl]
    cases hnext : increment verbosity with
    | some next =>
      have htoInt := increment_eq_some_iff.mp hnext
      dsimp only
      rw [ih, htoInt]
      congr 1
      push_cast
      ring
    | none =>
      have hlimit := increment_eq_none_iff.mp hnext
      symm
      apply ofInt?_eq_none_iff.mpr
      push_cast
      omega

theorem increment_bind_countLetters (hrest : rest.head? ≠ some (charByte 'v')) :
    ((increment verbosity).bind fun verbosity =>
        countLetters verbosity (List.replicate k (charByte 'v') ++ rest)) =
      ofInt? (verbosity.toInt + (k + 1)) := by
  have hcount : countLetters verbosity (List.replicate (k + 1) (charByte 'v') ++ rest) = _ :=
    countLetters_append hrest
  rw [List.replicate_succ, List.cons_append, countLetters, if_pos rfl] at hcount
  push_cast at hcount
  rw [← hcount]
  cases increment verbosity <;> rfl

section
variable {σ : Type} {set : Int32 → σ}

theorem verbosityCase_number (h : IsNumber nn) :
    verbosityCase set verbosity nn = .one (set (.ofInt (Lib.atoi nn))) := by
  rw [verbosityCase, if_pos h.ne_nil, if_pos h.digits]

theorem not_isDigits_cons (hc : isNum c = false) : isDigits (c :: arg) = false := by
  rw [isDigits, List.all_cons, hc, Bool.false_and]

/-- A letter in front counts twice. -/
theorem verbosityCase_letter (hrest : rest.head? ≠ some (charByte 'v')) :
    verbosityCase set verbosity (List.replicate (k + 1) (charByte 'v') ++ rest) =
      .store set (ofInt? (verbosity.toInt + (k + 1 + 1))) := by
  have hcount : ((increment verbosity).bind fun verbosity =>
      countLetters verbosity (List.replicate (k + 1) (charByte 'v') ++ rest)) = _ :=
    increment_bind_countLetters hrest
  rw [List.replicate_succ, List.cons_append] at hcount ⊢
  have hnum : isDigits (charByte 'v' :: (List.replicate k (charByte 'v') ++ rest)) = false :=
    not_isDigits_cons (by decide)
  have hhead : (charByte 'v' :: (List.replicate k (charByte 'v') ++ rest)).head? =
      some (charByte 'v') := rfl
  rw [verbosityCase, if_pos (List.cons_ne_nil _ _), hnum, if_neg Bool.false_ne_true, if_pos hhead,
    hcount]
  push_cast
  rfl

theorem verbosityCase_dash : verbosityCase set verbosity (charByte '-' :: arg) = badArg := by
  have hnum : isDigits (charByte '-' :: arg) = false := not_isDigits_cons (by decide)
  have hhead : ¬ (charByte '-' :: arg).head? = some (charByte 'v') := by
    rw [List.head?_cons, Option.some_inj]
    decide
  rw [verbosityCase, if_pos (List.cons_ne_nil _ _), hnum, if_neg Bool.false_ne_true, if_neg hhead]

theorem verbosityCase_letters :
    verbosityCase set verbosity (List.replicate k (charByte 'v')) =
      .store set (ofInt? (verbosity.toInt + (k + 1))) := by
  cases k with
  | zero =>
    rw [List.replicate_zero, verbosityCase, if_neg (not_not_intro rfl), increment]
    push_cast
    rfl
  | succ k =>
    have hletter : verbosityCase set verbosity (List.replicate (k + 1) (charByte 'v') ++ []) = _ :=
      verbosityCase_letter (by decide)
    rw [List.append_nil] at hletter
    rw [hletter]
    push_cast
    rfl

end

theorem verbosityArg_head : (verbosityArg dashes behind).head? = some (charByte '-') := rfl

theorem verbosityArg_tail : (verbosityArg dashes behind).tail =
    List.replicate dashes (charByte '-') ++ charByte 'v' :: behind := rfl

theorem skipDashes_verbosityArg :
    skipDashes (verbosityArg dashes behind).tail = charByte 'v' :: behind := by
  have hdash : ∀ c ∈ List.replicate dashes (charByte '-'), decide (c = charByte '-') = true :=
    fun c hc => decide_eq_true (List.eq_of_mem_replicate hc)
  rw [verbosityArg_tail, skipDashes, List.dropWhile_append_of_pos hdash]
  exact List.dropWhile_cons_of_neg (by decide)

theorem clientOption_verbosity (s : ClientOptions) (next : Option (List Byte)) :
    clientOption s (verbosityArg dashes behind) next =
      verbosityCase (fun verbosity => { s with verbosity := verbosity }) s.verbosity behind := by
  unfold clientOption
  rw [if_pos verbosityArg_head, skipDashes_verbosityArg]
  rfl

theorem udpserverOption_verbosity (s : UdpserverOptions) (next : Option (List Byte)) :
    udpserverOption s (verbosityArg dashes behind) next =
      verbosityCase (fun verbosity => { s with verbosity := verbosity }) s.verbosity behind := by
  unfold udpserverOption
  rw [if_pos verbosityArg_head, skipDashes_verbosityArg]
  rfl

/-- `simp_server` looks at what stands behind the first dash. -/
theorem serverOption_verbosity (hword : behind ≠ chars "ersion") (s : ServerOptions)
    (next : Option (List Byte)) :
    serverOption s (verbosityArg dashes behind) next =
      verbosityCase (fun verbosity => { s with verbosity := verbosity }) s.verbosity
        (verbosityArg dashes behind).tail := by
  have hhelp : charByte 'v' :: behind ≠ chars "help" := by
    intro heq
    have hhead : charByte 'v' = charByte 'h' := (List.cons.inj heq).1
    revert hhead
    decide
  have hversion : charByte 'v' :: behind ≠ chars "version" := fun heq => hword (List.cons.inj heq).2
  unfold serverOption
  rw [if_pos verbosityArg_head, skipDashes_verbosityArg]
  dsimp only
  rw [if_neg (not_or.mpr ⟨hhelp, hversion⟩)]
  rfl

theorem serverOption_single (hword : List.replicate k (charByte 'v') ++ rest ≠ chars "ersion")
    (hrest : rest.head? ≠ some (charByte 'v')) (s : ServerOptions) (next : Option (List Byte)) :
    serverOption s (verbosityArg 0 (List.replicate k (charByte 'v') ++ rest)) next =
      .store (fun verbosity => { s with verbosity := verbosity })
        (ofInt? (s.verbosity.toInt + (k + 1 + 1))) := by
  rw [serverOption_verbosity hword, verbosityArg_tail, List.replicate_zero, List.nil_append,
    ← verbosityCase_letter hrest, List.replicate_succ, List.cons_append]

/-- A second dash is neither a digit nor the letter. -/
theorem serverOption_double (hword : behind ≠ chars "ersion") (s : ServerOptions)
    (next : Option (List Byte)) :
    serverOption s (verbosityArg (dashes + 1) behind) next = badArg := by
  rw [serverOption_verbosity hword, verbosityArg_tail, List.replicate_succ, List.cons_append,
    verbosityCase_dash]

theorem IsNumber.ne_word (h : IsNumber nn) : nn ≠ chars "ersion" := by
  intro heq
  have hdigits := h.digits
  rw [heq] at hdigits
  revert hdigits
  decide

theorem letters_ne_word (k : ℕ) : List.replicate k (charByte 'v') ≠ chars "ersion" := by
  intro heq
  have hmem : charByte 'e' ∈ chars "ersion" := List.mem_cons_self
  rw [← heq] at hmem
  have hletter : charByte 'e' = charByte 'v' := List.eq_of_mem_replicate hmem
  revert hletter
  decide

theorem isNum_ne_letter (h : isNum c = true) : c ≠ charByte 'v' := by
  revert c
  decide

theorem IsNumber.head_ne_letter (h : IsNumber nn) : nn.head? ≠ some (charByte 'v') := by
  obtain ⟨c, rest, rfl⟩ := List.exists_cons_of_ne_nil h.ne_nil
  have hc := isNum_ne_letter (List.all_eq_true.mp h.digits c List.mem_cons_self)
  rw [List.head?_cons]
  exact fun heq => hc (Option.some.inj heq)

/-- The options of `simp_server` with another verbosity, and those of the other two. -/
def ServerOptions.withVerbosity (s : ServerOptions) (verbosity : Int32) : ServerOptions :=
  { s with verbosity := verbosity }

def ClientOptions.withVerbosity (s : ClientOptions) (verbosity : Int32) : ClientOptions :=
  { s with verbosity := verbosity }

def UdpserverOptions.withVerbosity (s : UdpserverOptions) (verbosity : Int32) : UdpserverOptions :=
  { s with verbosity := verbosity }

theorem ServerOptions.withVerbosity_injective (s : ServerOptions) :
    Function.Injective s.withVerbosity := fun _ _ h => congrArg ServerOptions.verbosity h

theorem ClientOptions.withVerbosity_injective (s : ClientOptions) :
    Function.Injective s.withVerbosity := fun _ _ h => congrArg ClientOptions.verbosity h

theorem UdpserverOptions.withVerbosity_injective (s : UdpserverOptions) :
    Function.Injective s.withVerbosity := fun _ _ h => congrArg UdpserverOptions.verbosity h

/-- A number adds two in `simp_server`, and is no argument behind more than one dash. -/
theorem server_number_iff (h : IsNumber nn) (s : ServerOptions) :
    SetsVerbosity serverOption s s.withVerbosity (numberOf 10 nn) (verbosityArg dashes nn) ↔
      dashes = 0 ∧ s.verbosity.toInt + 2 = numberOf 10 nn ∧ numberOf 10 nn < 2 ^ 31 := by
  cases dashes with
  | zero =>
    have hword : List.replicate 0 (charByte 'v') ++ nn ≠ chars "ersion" := h.ne_word
    have hstore := serverOption_single hword h.head_ne_letter s
    rw [List.replicate_zero, List.nil_append] at hstore
    have hle := s.verbosity.le_toInt
    rw [setsVerbosity_store_iff s.withVerbosity_injective hstore, Nat.cast_zero]
    constructor
    · rintro ⟨hvalue, -, hlt⟩
      exact ⟨rfl, by omega, by omega⟩
    · rintro ⟨-, hvalue, hlt⟩
      exact ⟨by omega, by omega, by omega⟩
  | succ dashes =>
    refine iff_of_false ?_ nofun
    rintro ⟨verbosity, -, hsets⟩
    exact not_sets_of_badArg (serverOption_double h.ne_word s) hsets

/-- Letters add one too many. -/
theorem server_letters (dashes k : ℕ) (s : ServerOptions) :
    ¬ SetsVerbosity serverOption s s.withVerbosity (s.verbosity.toInt + (k + 1))
      (verbosityArg dashes (List.replicate k (charByte 'v'))) := by
  cases dashes with
  | zero =>
    have hword : List.replicate k (charByte 'v') ++ [] ≠ chars "ersion" := by
      rw [List.append_nil]
      exact letters_ne_word k
    have hstore := serverOption_single hword (by decide) s
    rw [List.append_nil] at hstore
    rw [setsVerbosity_store_iff s.withVerbosity_injective hstore]
    omega
  | succ dashes =>
    rintro ⟨verbosity, -, hsets⟩
    exact not_sets_of_badArg (serverOption_double (letters_ne_word k) s) hsets

section
variable {σ : Type} {option : σ → List Byte → Option (List Byte) → Parsed σ} {s : σ}
  {set : Int32 → σ}

theorem sets_number_iff (hset : Function.Injective set)
    (hoption : ∀ next, option s arg next = verbosityCase set verbosity nn) (h : IsNumber nn) :
    SetsVerbosity option s set (numberOf 10 nn) arg ↔ numberOf 10 nn < 2 ^ 31 := by
  rw [verbosityCase_number h] at hoption
  rw [← toInt32_clampLong_natCast, ← toInt_ofInt_atoi h]
  constructor
  · rintro ⟨verbosity, hverbosity, hsets⟩
    rw [hset ((sets_iff_of_one hoption).mp hsets)]
    exact hverbosity
  · intro hvalue
    exact ⟨_, hvalue, (sets_iff_of_one hoption).mpr rfl⟩

theorem sets_letters_iff (hset : Function.Injective set)
    (hoption : ∀ next, option s arg next =
      verbosityCase set verbosity (List.replicate k (charByte 'v'))) :
    SetsVerbosity option s set (verbosity.toInt + (k + 1)) arg ↔
      verbosity.toInt + (k + 1) < 2 ^ 31 := by
  have hle := verbosity.le_toInt
  rw [verbosityCase_letters] at hoption
  rw [setsVerbosity_store_iff hset hoption]
  omega

end

end

/-- `simp_client` and `udpserver` understand the option, as long as the verbosity is an `int`.
`simp_server` counts from the wrong place. -/
theorem verbosity_option_iff (dashes k : ℕ) (nn : List Byte) (hnn : IsNumber nn) :
    (∀ s : ServerOptions,
      (SetsVerbosity serverOption s s.withVerbosity (numberOf 10 nn) (verbosityArg dashes nn) ↔
        dashes = 0 ∧ s.verbosity.toInt + 2 = numberOf 10 nn ∧ numberOf 10 nn < 2 ^ 31) ∧
      ¬ SetsVerbosity serverOption s s.withVerbosity (s.verbosity.toInt + (k + 1))
        (verbosityArg dashes (List.replicate k (charByte 'v')))) ∧
    (∀ s : ClientOptions,
      (SetsVerbosity clientOption s s.withVerbosity (numberOf 10 nn) (verbosityArg dashes nn) ↔
        numberOf 10 nn < 2 ^ 31) ∧
      (SetsVerbosity clientOption s s.withVerbosity (s.verbosity.toInt + (k + 1))
          (verbosityArg dashes (List.replicate k (charByte 'v'))) ↔
        s.verbosity.toInt + (k + 1) < 2 ^ 31)) ∧
    ∀ s : UdpserverOptions,
      (SetsVerbosity udpserverOption s s.withVerbosity (numberOf 10 nn) (verbosityArg dashes nn) ↔
        numberOf 10 nn < 2 ^ 31) ∧
      (SetsVerbosity udpserverOption s s.withVerbosity (s.verbosity.toInt + (k + 1))
          (verbosityArg dashes (List.replicate k (charByte 'v'))) ↔
        s.verbosity.toInt + (k + 1) < 2 ^ 31) := by
  refine ⟨?_, ?_, ?_⟩
  · intro s
    exact ⟨server_number_iff hnn s, server_letters dashes k s⟩
  · intro s
    have hset := s.withVerbosity_injective
    exact ⟨sets_number_iff hset (clientOption_verbosity s) hnn,
      sets_letters_iff hset (clientOption_verbosity s)⟩
  · intro s
    have hset := s.withVerbosity_injective
    exact ⟨sets_number_iff hset (udpserverOption_verbosity s) hnn,
      sets_letters_iff hset (udpserverOption_verbosity s)⟩

/-- `--v9` and `--vvv`. -/
theorem verbosity_option_sample :
    SetsVerbosity clientOption .start ClientOptions.start.withVerbosity 9
        (verbosityArg 1 (chars "9")) ∧
      SetsVerbosity clientOption .start ClientOptions.start.withVerbosity 3
        (verbosityArg 1 (chars "vv")) := by
  obtain ⟨-, hclient, -⟩ := verbosity_option_iff 1 2 (chars "9") ⟨by decide, by decide⟩
  obtain ⟨hnumber, hletters⟩ := hclient .start
  exact ⟨hnumber.mpr (by decide), hletters.mpr (by decide)⟩

/-- `-v5` and `-v` in `simp_server`, at a verbosity of zero. -/
theorem server_option_off :
    ¬ SetsVerbosity serverOption .start ServerOptions.start.withVerbosity 5 (chars "-v5") ∧
      ¬ SetsVerbosity serverOption .start ServerOptions.start.withVerbosity 1 (chars "-v") := by
  have htwo : ∀ arg ∈ [chars "-v5", chars "-v"], ∀ next,
      serverOption .start arg next = .one (ServerOptions.start.withVerbosity 2) := by
    intro arg harg next
    rcases List.mem_pair.mp harg with rfl | rfl
    · rfl
    · rfl
  have hinj := ServerOptions.start.withVerbosity_injective
  constructor
  · rintro ⟨verbosity, hvalue, hsets⟩
    rw [← hinj ((sets_iff_of_one (htwo _ (by simp))).mp hsets)] at hvalue
    revert hvalue
    decide
  · rintro ⟨verbosity, hvalue, hsets⟩
    rw [← hinj ((sets_iff_of_one (htwo _ (by simp))).mp hsets)] at hvalue
    revert hvalue
    decide

end TcpTests.SimpCommon
