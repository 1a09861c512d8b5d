import TcpTests.Nbserver.Echo
import TcpTests.SimpClient.Client
import TcpTests.SimpServer.Server
import TcpTests.Text.Datetime

/-! The calls of `clean_data`: the arrays the programs render into, and what they render. -/
namespace TcpTests.Text
open Lib Sockhelp Nbserver

/-- A call of `clean_data`: the size of the array at `dest`, and the bytes at `src`. -/
structure CleanCall where
  size : ℕ
  src : List Byte

def CleanCall.Fits (c : CleanCall) : Prop := CleanFits c.size c.src

instance (c : CleanCall) : Decidable c.Fits := inferInstanceAs (Decidable (CleanFits _ _))

/-- The size of `m_data` and of `m_answer`, in `simp_client` and in `nbclient`. -/
def sizeofData : ℕ := SimpClient.maxStr + 16

/-- `VERB2` and `VERB9` -/
def verb2 (verbosity : Int32) : Bool := verbosity ≥ 2

def verb9 (verbosity : Int32) : Bool := verbosity ≥ 9

/-- What a program has received or is about to send when it comes to render it. A received block has
been limited by the size that `recv` was given, and `sock_gets` reads what is pending. `simp_server`
and `simp_client` look at their verbosity. -/
inductive Block
  | simpServer (verbosity : Int32) (bytes : List Byte) (fits : bytes.length ≤ SimpServer.maxStr)
      (doEcho : Bool) (tmr : Tm)
  | simpClientSends (verbosity : Int32) (tmr : Tm) (outCount : ℕ) (isInt : outCount < 2 ^ 31)
  | simpClientReceives (verbosity : Int32) (bytes : List Byte)
      (fits : bytes.length ≤ SimpClient.maxStr)
  | nbserver (idle : Idle) (pending : List Byte)
  | nbclientSends (tmr : Tm) (outCount : ℕ) (isInt : outCount < 2 ^ 31)
  | nbclientReceives (bytes : List Byte) (fits : bytes.length ≤ SimpClient.maxStr)

/-- The calls made for a block: those of `handle_receive` in `simp_server`, of the two halves of
`run_client` and of `run_nbclient`, and of `deal_with_data` in `nbserver`. -/
def Block.calls : Block → List CleanCall
  | .simpServer verbosity bytes _ doEcho tmr =>
    (if verb9 verbosity then [⟨SimpServer.maxStr + 1, bytes⟩] else []) ++
      if doEcho then
        if verb9 verbosity then
          [⟨SimpServer.maxStr + 1, datetimeStg tmr ++ SimpServer.replyText⟩]
        else []
      else []
  | .simpClientSends verbosity tmr outCount _ =>
    if verb9 verbosity then [⟨sizeofData, SimpClient.message (datetimeStg tmr) outCount⟩] else []
  | .simpClientReceives verbosity bytes _ =>
    if verb2 verbosity then [⟨sizeofData, bytes⟩] else []
  | .nbclientSends tmr outCount _ =>
    [⟨sizeofData, SimpClient.message (datetimeStg tmr) outCount⟩]
  | .nbclientReceives bytes _ => [⟨sizeofData, bytes⟩]
  | .nbserver idle pending =>
    let r := sockGets idle myMxRcv pending
    if r.ret ≤ 0 then [] else [⟨bufferSize, r.str⟩, ⟨bufferSize, respond r.str⟩]

/-- The characters that a block takes when it is rendered: one more for a control character, and
two more for a byte with the high bit. -/
def renderedLength (src : List Byte) : ℕ :=
  src.length + src.countP (fun b => b.toNat < 0x20) + 2 * src.countP (fun b => 0x80 ≤ b.toNat)

def lineRead (pending : List Byte) : List Byte := (pending.takeWhile (· ≠ lf)).take myMxRcv

/-- A block that is rendered has so few control characters and high bytes that there is room for all
of it and for the terminating NUL. What the programs write themselves has room always. -/
def Block.HasRoom : Block → Prop
  | .simpServer verbosity bytes _ _ _ =>
    verb9 verbosity → renderedLength bytes < SimpServer.maxStr + 1
  | .simpClientReceives verbosity bytes _ => verb2 verbosity → renderedLength bytes < sizeofData
  | .nbclientReceives bytes _ => renderedLength bytes < sizeofData
  | .nbserver idle pending =>
    (lf ∉ pending ∧ idle = .failed) ∨ renderedLength (lineRead pending) + 2 < bufferSize
  | .simpClientSends _ _ _ _ | .nbclientSends _ _ _ => True

section
variable {src : List Byte}

theorem cleanByte_length (b : Byte) : (cleanByte b).length =
    1 + (if b.toNat < 0x20 then 1 else 0) + 2 * (if 0x80 ≤ b.toNat then 1 else 0) := by
  revert b
  decide

theorem cleanData_length (src : List Byte) : (cleanData src).length = renderedLength src := by
  induction src with
  | nil => rfl
  | cons b bs ih =>
    have hcons : cleanData (b :: bs) = cleanByte b ++ cleanData bs := rfl
    rw [hcons, List.length_append, ih, cleanByte_length]
    simp only [renderedLength, List.length_cons, List.countP_cons, decide_eq_true_eq]
    omega

theorem renderedLength_le (src : List Byte) : renderedLength src ≤ 3 * src.length := by
  induction src with
  | nil => exact le_rfl
  | cons b bs ih =>
    simp only [renderedLength, List.length_cons, List.countP_cons, decide_eq_true_eq] at ih ⊢
    split_ifs <;> omega

theorem fits_iff {size : ℕ} : CleanFits size src ↔ renderedLength src < size := by
  rw [CleanFits, cleanData_length]

theorem fits_of_length {size : ℕ} (h : 3 * src.length < size) : CleanFits size src :=
  fits_iff.mpr ((renderedLength_le src).trans_lt h)

theorem message_length_le (tmr : Tm) {outCount : ℕ} (h : outCount < 2 ^ 31) :
    (SimpClient.message (datetimeStg tmr) outCount).length ≤ 101 := by
  have hdate := datetimeStg_length_le tmr
  have hcount : (Nat.toDigits 10 outCount).length ≤ 10 :=
    (Nat.length_toDigits_le_iff (by decide) (by decide)).mpr (by omega)
  have htext : (": " ++ toString outCount ++ " - Hello server!\n").toList =
      ": ".toList ++ Nat.toDigits 10 outCount ++ " - Hello server!\n".toList := by
    simp only [String.toList_append, Nat.toString_eq_repr, Nat.toList_repr]
  have hsep : ": ".toList.length = 2 := by decide
  have hhello : " - Hello server!\n".toList.length = 17 := by decide
  rw [SimpClient.message, List.length_append, List.length_map, htext, List.length_append,
    List.length_append, hsep, hhello]
  omega

/-- Upper-casing the line and adding a linefeed takes two characters more. -/
theorem respond_fits (pending : List Byte) :
    CleanFits bufferSize (respond (lineRead pending)) ↔
      renderedLength (lineRead pending) + 2 < bufferSize := by
  have hlf : lf ∉ lineRead pending := by
    intro h
    have hline := List.mem_takeWhile_imp (List.mem_of_mem_take h)
    simp at hline
  rw [cleanFits_respond hlf, cleanData_length]
  omega

theorem nbserver_calls (idle : Idle) (pending : List Byte) :
    (∀ c ∈ (Block.nbserver idle pending).calls, c.Fits) ↔
      (Block.nbserver idle pending).HasRoom := by
  have hstr : (sockGets idle myMxRcv pending).str = lineRead pending := sockGets_str _ _ _
  have hret := sockGets_ret idle myMxRcv pending
  rw [hstr] at hret
  simp only [Block.calls, Block.HasRoom, hstr, hret]
  by_cases hfailed : lf ∉ pending ∧ idle = .failed
  · rw [if_pos hfailed, if_pos (by decide)]
    exact iff_of_true nofun (Or.inl hfailed)
  · rw [if_neg hfailed]
    by_cases hnil : (lineRead pending).length = 0
    · rw [hnil, if_pos (by decide), List.length_eq_zero_iff.mp hnil]
      exact iff_of_true nofun (Or.inr (by decide))
    · have hpos : ¬ ((lineRead pending).length : ℤ) ≤ 0 := by omega
      rw [if_neg hpos, List.forall_mem_cons, List.forall_mem_singleton, CleanCall.Fits,
        CleanCall.Fits, respond_fits, fits_iff]
      constructor
      · rintro ⟨-, hroom⟩
        exact Or.inr hroom
      · intro h
        have hroom := h.resolve_left hfailed
        exact ⟨Nat.lt_of_le_of_lt (Nat.le_add_right _ 2) hroom, hroom⟩

theorem dealWithData_defined {c : Conn} {outs : List WriteOutcome}
    (h : (Block.nbserver c.idle c.pending).HasRoom) : dealWithData c outs ≠ some .undefined := by
  have hcalls := (nbserver_calls c.idle c.pending).mpr h
  unfold Block.calls at hcalls
  unfold dealWithData
  dsimp only at hcalls ⊢
  by_cases hret : (sockGets c.idle myMxRcv c.pending).ret ≤ 0
  · rw [if_pos hret]
    exact nofun
  · rw [if_neg hret, List.forall_mem_cons, List.forall_mem_singleton, CleanCall.Fits,
      CleanCall.Fits] at hcalls
    rw [if_neg hret, if_neg (not_not_intro hcalls.1)]
    intro hundefined
    obtain ⟨w, -, hw⟩ := Option.map_eq_some_iff.mp hundefined
    rw [if_neg (not_not_intro hcalls.2)] at hw
    cases hw

theorem message_fits (tmr : Tm) {outCount : ℕ} (h : outCount < 2 ^ 31) :
    CleanFits sizeofData (SimpClient.message (datetimeStg tmr) outCount) := by
  apply fits_of_length
  have hlen := message_length_le tmr h
  rw [sizeofData, SimpClient.maxStr]
  omega

theorem reply_fits (tmr : Tm) :
    CleanFits (SimpServer.maxStr + 1) (datetimeStg tmr ++ SimpServer.replyText) := by
  apply fits_of_length
  have hdate := datetimeStg_length_le tmr
  have htext : SimpServer.replyText.length = 29 := by decide
  rw [List.length_append, htext, SimpServer.maxStr]
  omega

end

/-- What a program renders for a block fits the array just when the block has room: the
programs' own texts always do, and received blocks if they have few control characters and high
bytes, or if the verbosity is too low for them to be rendered. -/
theorem clean_data_fits_iff (b : Block) : (∀ c ∈ b.calls, c.Fits) ↔ b.HasRoom := by
  cases b with
  | simpServer verbosity bytes fits doEcho tmr =>
    rw [Block.calls, Block.HasRoom]
    cases hverb : verb9 verbosity with
    | false =>
      rw [if_neg Bool.false_ne_true, if_neg Bool.false_ne_true, ite_self, List.append_nil]
      exact iff_of_true nofun nofun
    | true =>
      rw [if_pos rfl, List.singleton_append, List.forall_mem_cons, CleanCall.Fits,
        fits_iff, forall_prop_of_true rfl]
      apply and_iff_left
      cases doEcho with
      | false => exact nofun
      | true => exact List.forall_mem_singleton.mpr (reply_fits tmr)
  | simpClientSends verbosity tmr outCount isInt =>
    rw [Block.calls, Block.HasRoom]
    apply iff_of_true ?_ trivial
    cases verb9 verbosity with
    | false => exact nofun
    | true => exact List.forall_mem_singleton.mpr (message_fits tmr isInt)
  | simpClientReceives verbosity bytes fits =>
    rw [Block.calls, Block.HasRoom]
    cases verb2 verbosity with
    | false => exact iff_of_true nofun nofun
    | true =>
      rw [if_pos rfl, List.forall_mem_singleton, CleanCall.Fits, fits_iff, forall_prop_of_true rfl]
  | nbclientSends tmr outCount isInt =>
    exact iff_of_true (List.forall_mem_singleton.mpr (message_fits tmr isInt)) trivial
  | nbclientReceives bytes fits =>
    rw [Block.calls, List.forall_mem_singleton, CleanCall.Fits, fits_iff]
    rfl
  | nbserver idle pending => exact nbserver_calls idle pending

/-- As many bytes with the high bit as a program receives at once. -/
def highBytes (n : ℕ) : List Byte := List.replicate n 0x80#8

theorem renderedLength_highBytes (n : ℕ) : renderedLength (highBytes n) = 3 * n := by
  have hlow : (0x80#8).toNat < 0x20 ↔ False := by decide
  have hhigh : 0x80 ≤ (0x80#8).toNat ↔ True := by decide
  simp only [renderedLength, highBytes, List.length_replicate, List.countP_replicate, hlow, hhigh,
    decide_false, decide_true, Bool.false_eq_true, if_false, if_true]
  omega

theorem highBytes_length_le (n : ℕ) : (highBytes n).length ≤ n := List.length_replicate.le

/-- Each program that receives such a block, and is verbose enough to render it, writes past the end
of the array. -/
theorem clean_data_overflow :
    (¬ ∀ c ∈ (Block.simpServer 9 (highBytes 1024) (highBytes_length_le _) false
        ⟨1, 0, 100, 0, 0, 0⟩).calls, c.Fits) ∧
      (¬ ∀ c ∈ (Block.simpClientReceives 2 (highBytes 1024) (highBytes_length_le _)).calls,
        c.Fits) ∧
      (¬ ∀ c ∈ (Block.nbserver .again (highBytes 128 ++ [lf])).calls, c.Fits) ∧
      ¬ ∀ c ∈ (Block.nbclientReceives (highBytes 1024) (highBytes_length_le _)).calls,
        c.Fits := by
  have hdata : ¬ CleanFits sizeofData (highBytes 1024) := by
    rw [fits_iff, renderedLength_highBytes]
    decide
  refine ⟨?_, ?_, ?_, ?_⟩
  · intro h
    have hfits := fits_iff.mp (h _ (List.mem_singleton_self _))
    rw [renderedLength_highBytes] at hfits
    revert hfits
    decide
  · intro h
    exact hdata (h _ (List.mem_singleton_self _))
  · have hlf : lf ∉ highBytes 128 := by
      intro h
      exact absurd (List.eq_of_mem_replicate h) (by decide)
    have hline : lineRead (highBytes 128 ++ [lf]) = highBytes 128 := by
      rw [lineRead, takeWhile_line hlf]
      exact List.take_of_length_le (highBytes_length_le 128)
    rw [nbserver_calls, Block.HasRoom, hline, renderedLength_highBytes]
    rintro (⟨hmem, -⟩ | hroom)
    · exact hmem (by simp)
    · revert hroom
      decide
  · intro h
    exact hdata (h _ (List.mem_singleton_self _))

end TcpTests.Text
