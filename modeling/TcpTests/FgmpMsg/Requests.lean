import TcpTests.Lib.Loop
import TcpTests.FgmpMsg.Reader

/-! What the loop of `test_fgmp_message` asks `fread` to put into the message buffer. -/
namespace TcpTests.FgmpMsg
open Lib Net Fgmp Mpserver

/-- A call of `fread` for `n` bytes to the offset `off` of a message buffer. -/
structure Request where
  off : ℕ
  n : ℕ
  deriving DecidableEq, Repr

def Request.Fits (q : Request) : Prop := q.off + q.n ≤ maxPacketSize

instance (q : Request) : Decidable q.Fits :=
  inferInstanceAs (Decidable (q.off + q.n ≤ maxPacketSize))

/-- The reads into the message buffer that one pass asks for. The padding is read elsewhere. -/
def Reader.requests (h : Endian) (r : Reader) : List Request :=
  let hdr := r.file.fread sizeofMsgHdr
  if hdr.1.length ≠ sizeofMsgHdr then [⟨0, sizeofMsgHdr⟩]
  else
    let msgBuf := decodeHdr h (r.msgBuf.write 0 hdr.1)
    let magic := loadWord h msgBuf offMagic
    if magic ≠ msgMagic ∧ magic ≠ relayMagic then [⟨0, sizeofMsgHdr⟩]
    else if loadWord h msgBuf offVersion ≠ protoVer then [⟨0, sizeofMsgHdr⟩]
    else [⟨0, sizeofMsgHdr⟩, ⟨sizeofMsgHdr, balance (loadWord h msgBuf offMsgLen)⟩]

def Reader.body (h : Endian) (processPosMsg : ℕ → Mem → Bool) (r : Reader) :
    Reader ⊕ Option (Stop × Reader) :=
  match r.step h processPosMsg with
  | .next r' => .inl r'
  | .stop why r' => .inr (some (why, r'))
  | .overflow => .inr none

/-! The records of a file, as lists of the bytes that are left before each. -/

/-- The `MsgLen` of the header at the start of `rest`. -/
def recordLen (rest : List Byte) : ℕ := (beWord (carried rest) offMsgLen).toNat

/-- What is left after a record and its padding. -/
def afterRecord (rest : List Byte) : List Byte :=
  rest.drop (recordLen rest + (alignSteps 16 (recordLen rest) + 16))

/-- A record begins before `rest`: the records before it are whole, and `ok` holds of them. -/
inductive RecordAt (ok : List Byte → Prop) (content : List Byte) : List Byte → Prop
  | start : RecordAt ok content content
  | next {rest : List Byte} (hat : RecordAt ok content rest) (hok : ok rest)
      (hlen : recordLen rest ≤ rest.length) : RecordAt ok content (afterRecord rest)

/-- A whole header with a known magic number and version. -/
def GoodHeader (rest : List Byte) : Prop :=
  sizeofMsgHdr ≤ rest.length ∧
    (beWord (carried rest) offMagic = msgMagic ∨ beWord (carried rest) offMagic = relayMagic) ∧
    beWord (carried rest) offVersion = protoVer

section
variable {h : Endian} {processPosMsg : ℕ → Mem → Bool} {r r' : Reader}

theorem decodeHdr_file (h : Endian) (m : Mem) {f : Stream}
    (hf : (f.fread sizeofMsgHdr).1.length = sizeofMsgHdr) :
    loadWord h (decodeHdr h (m.write 0 (f.fread sizeofMsgHdr).1)) offMagic =
        beWord (carried f.rest) offMagic ∧
      loadWord h (decodeHdr h (m.write 0 (f.fread sizeofMsgHdr).1)) offVersion =
        beWord (carried f.rest) offVersion ∧
      loadWord h (decodeHdr h (m.write 0 (f.fread sizeofMsgHdr).1)) offMsgLen =
        beWord (carried f.rest) offMsgLen := by
  have hlo : sizeofMsgHdr ≤ f.rest.length := by
    rw [Stream.fread_length] at hf
    omega
  obtain ⟨hmagic, hversion, hlen⟩ := loadWord_decodeHdr h (m.write 0 (f.rest.take sizeofMsgHdr))
  rw [beWord_header _ hlo (by decide)] at hmagic hversion hlen
  exact ⟨hmagic, hversion, hlen⟩

theorem goodHeader_iff {f : Stream} : GoodHeader f.rest ↔
    (f.fread sizeofMsgHdr).1.length = sizeofMsgHdr ∧
      ¬ (beWord (carried f.rest) offMagic ≠ msgMagic ∧
        beWord (carried f.rest) offMagic ≠ relayMagic) ∧
      beWord (carried f.rest) offVersion = protoVer := by
  unfold GoodHeader
  rw [Stream.fread_length, min_eq_left_iff, not_and_or, not_not, not_not]

theorem Reader.requests_good (hg : GoodHeader r.file.rest) :
    r.requests h = [⟨0, sizeofMsgHdr⟩,
      ⟨sizeofMsgHdr, balance (beWord (carried r.file.rest) offMsgLen)⟩] := by
  obtain ⟨hread, hmagic, hversion⟩ := goodHeader_iff.mp hg
  obtain ⟨hm, hv, hl⟩ := decodeHdr_file h r.msgBuf hread
  unfold requests
  dsimp only
  rw [if_neg (not_not_intro hread), hm, if_neg hmagic, hv, if_neg (not_not_intro hversion), hl]

theorem Reader.requests_bad (hg : ¬ GoodHeader r.file.rest) :
    r.requests h = [⟨0, sizeofMsgHdr⟩] := by
  unfold requests
  dsimp only
  by_cases hread : (r.file.fread sizeofMsgHdr).1.length = sizeofMsgHdr
  · obtain ⟨hm, hv, hl⟩ := decodeHdr_file h r.msgBuf hread
    rw [if_neg (not_not_intro hread), hm, hv]
    split_ifs with hmagic hversion
    · rfl
    · rfl
    · exact absurd (goodHeader_iff.mpr ⟨hread, hmagic, not_not.mp hversion⟩) hg
  · rw [if_pos hread]

/-- The read of a message fits if its length is at least that of a header and at most that of
the buffer: a smaller one wraps around. -/
theorem balance_fits (len : Word) : (Request.mk sizeofMsgHdr (balance len)).Fits ↔
    sizeofMsgHdr ≤ len.toNat ∧ len.toNat ≤ maxPacketSize := by
  have hlt := len.isLt
  simp only [Request.Fits, balance, sizeofMsgHdr, maxPacketSize]
  omega

theorem balance_eq {len : Word} (hlo : sizeofMsgHdr ≤ len.toNat) :
    balance len = len.toNat - sizeofMsgHdr := by
  have hlt := len.isLt
  simp only [balance, sizeofMsgHdr] at hlo ⊢
  omega

theorem Reader.requests_fit : (∀ q ∈ r.requests h, q.Fits) ↔
    (GoodHeader r.file.rest →
      sizeofMsgHdr ≤ recordLen r.file.rest ∧ recordLen r.file.rest ≤ maxPacketSize) := by
  have hhdr : (Request.mk 0 sizeofMsgHdr).Fits := by decide
  by_cases hg : GoodHeader r.file.rest
  · unfold recordLen
    rw [requests_good hg, ← balance_fits (beWord (carried r.file.rest) offMsgLen)]
    simp only [List.forall_mem_cons, hhdr, List.not_mem_nil, false_imp_iff, imp_true_iff,
      and_true, true_and, hg, true_imp_iff]
  · rw [requests_bad hg]
    simp only [List.forall_mem_cons, hhdr, List.not_mem_nil, false_imp_iff, imp_true_iff,
      and_true, hg]

theorem Reader.step_next (hs : r.step h processPosMsg = .next r') :
    GoodHeader r.file.rest ∧ recordLen r.file.rest ≤ r.file.rest.length ∧
      r'.file.rest = afterRecord r.file.rest := by
  unfold step at hs
  dsimp only at hs
  split_ifs at hs with hread hmagic hversion hover hbody
  rw [not_not] at hread hversion hbody
  obtain ⟨hm, hv, hl⟩ := decodeHdr_file h r.msgBuf hread
  rw [hm] at hmagic
  rw [hv] at hversion
  rw [hl] at hbody hover
  have hg := goodHeader_iff.mpr ⟨hread, hmagic, hversion⟩
  have hfit : (Request.mk sizeofMsgHdr (balance (beWord (carried r.file.rest) offMsgLen))).Fits := by
    rw [hbody] at hover
    exact Nat.not_lt.mp hover
  have hlo := ((balance_fits _).mp hfit).1
  rw [balance_eq hlo, Stream.fread_length, Stream.fread_rest, List.length_drop] at hbody
  have hle := hg.1
  cases hs
  refine ⟨hg, ?_, ?_⟩
  · unfold recordLen
    omega
  · rw [dispatch_file]
    unfold count
    dsimp only
    rw [hl, balance_eq hlo, Stream.fread_rest, Stream.fread_rest, Stream.fread_rest,
      List.drop_drop, List.drop_drop, afterRecord, recordLen]
    congr 1
    rw [Nat.add_sub_cancel' hlo]
    omega

theorem Reader.step_overflow (hs : r.step h processPosMsg = .overflow) :
    ¬ ∀ q ∈ r.requests h, q.Fits := by
  unfold step at hs
  dsimp only at hs
  split_ifs at hs with hread hmagic hversion hover hbody
  rw [not_not] at hread hversion
  obtain ⟨hm, hv, hl⟩ := decodeHdr_file h r.msgBuf hread
  rw [hm] at hmagic
  rw [hv] at hversion
  rw [hl, Stream.fread_length] at hover
  rw [requests_good (goodHeader_iff.mpr ⟨hread, hmagic, hversion⟩)]
  intro hfit
  have hlast := hfit ⟨sizeofMsgHdr, balance (beWord (carried r.file.rest) offMsgLen)⟩ (by simp)
  simp only [Request.Fits] at hlast
  omega

theorem Reader.step_good (hg : GoodHeader r.file.rest) (hlo : sizeofMsgHdr ≤ recordLen r.file.rest)
    (hhi : recordLen r.file.rest ≤ maxPacketSize)
    (hlen : recordLen r.file.rest ≤ r.file.rest.length) :
    ∃ r', r.step h processPosMsg = .next r' := by
  obtain ⟨hread, hmagic, hversion⟩ := goodHeader_iff.mp hg
  obtain ⟨hm, hv, hl⟩ := decodeHdr_file h r.msgBuf hread
  have hbody : ((r.file.fread sizeofMsgHdr).2.fread
      (balance (beWord (carried r.file.rest) offMsgLen))).1.length =
        balance (beWord (carried r.file.rest) offMsgLen) := by
    unfold recordLen at hlo hlen
    rw [Stream.fread_length, Stream.fread_rest, List.length_drop, balance_eq hlo]
    omega
  have hover : ¬ sizeofMsgHdr + balance (beWord (carried r.file.rest) offMsgLen) > maxPacketSize :=
    Nat.not_lt.mpr ((balance_fits _).mpr ⟨hlo, hhi⟩)
  unfold step
  dsimp only
  rw [if_neg (not_not_intro hread), hm, if_neg hmagic, hv, if_neg (not_not_intro hversion), hl,
    hbody, if_neg hover, if_neg (not_not_intro rfl)]
  exact ⟨_, rfl⟩

theorem Reader.body_next : r.body h processPosMsg = .inl r' ↔
    r.step h processPosMsg = .next r' := by
  unfold body
  cases r.step h processPosMsg with
  | next r'' => simp
  | stop why r'' => simp
  | overflow => simp

theorem Reader.loop_overflow (hs : r.step h processPosMsg = .overflow) :
    r.loop h processPosMsg = none := by
  rw [loop]
  split
  · rename_i r'' hr
    rw [hs] at hr
    cases hr
  · rename_i why r'' hr
    rw [hs] at hr
    cases hr
  · rfl

theorem Reader.loop_returns : Returns (Reader.body h processPosMsg) r (r.loop h processPosMsg) := by
  induction r using Reader.loop.induct h processPosMsg with
  | case1 r r' hs ih =>
    rw [loop_next hs]
    exact ih.next (body_next.mpr hs)
  | case2 r why r' hs =>
    rw [loop_stop hs]
    exact returns_of_left (by simp only [body, hs])
  | case3 r hs =>
    rw [loop_overflow hs]
    exact returns_of_left (by simp only [body, hs])

end

/-- The lengths in the records of a capture that the reader gets to. -/
def ReaderFits (content : List Byte) : Prop :=
  ∀ rest, RecordAt GoodHeader content rest → GoodHeader rest →
    sizeofMsgHdr ≤ recordLen rest ∧ recordLen rest ≤ maxPacketSize

section
variable (h : Endian) (processPosMsg : ℕ → Mem → Bool) (m : Mem) (content : List Byte)

theorem requests_fit_iff :
    (∀ r, Visits (Reader.body h processPosMsg) (.start m (.opened content)) r →
      ∀ q ∈ r.requests h, q.Fits) ↔ ReaderFits content := by
  constructor
  · intro hfit rest hat hg
    have hvis : ∃ r, Visits (Reader.body h processPosMsg) (.start m (.opened content)) r ∧
        r.file.rest = rest := by
      clear hg
      induction hat with
      | start => exact ⟨_, .refl _ _, rfl⟩
      | next hat hok hlen ih =>
        obtain ⟨r, hv, rfl⟩ := ih
        obtain ⟨hlo, hhi⟩ := Reader.requests_fit.mp (hfit r hv) hok
        obtain ⟨r', hs⟩ : ∃ r', r.step h processPosMsg = .next r' :=
          Reader.step_good hok hlo hhi hlen
        exact ⟨r', hv.tail (Reader.body_next.mpr hs), (Reader.step_next hs).2.2⟩
    obtain ⟨r, hv, rfl⟩ := hvis
    exact Reader.requests_fit.mp (hfit r hv) hg
  · intro hfit r hv
    have hat : RecordAt GoodHeader content r.file.rest := by
      apply hv.invariant fun r => RecordAt GoodHeader content r.file.rest
      · intro r r' hat hb
        obtain ⟨hg, hlen, hrest⟩ := Reader.step_next (Reader.body_next.mp hb)
        rw [hrest]
        exact hat.next hg hlen
      · exact .start
    exact Reader.requests_fit.mpr (hfit _ hat)

theorem loop_isSome (hfit : ReaderFits content) :
    ((Reader.start m (.opened content)).loop h processPosMsg).isSome := by
  obtain ⟨n, r, hn, hb⟩ : Returns (Reader.body h processPosMsg) (.start m (.opened content)) _ :=
    Reader.loop_returns
  have hin := (requests_fit_iff h processPosMsg m content).mpr hfit r ⟨n, hn⟩
  cases hs : r.step h processPosMsg with
  | next r' =>
    rw [Reader.body_next.mpr hs] at hb
    cases hb
  | stop why r' =>
    simp only [Reader.body, hs] at hb
    rw [← Sum.inr.inj hb]
    rfl
  | overflow => exact absurd hin (Reader.step_overflow hs)

end

end TcpTests.FgmpMsg
