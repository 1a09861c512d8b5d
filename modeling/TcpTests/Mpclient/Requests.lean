import TcpTests.FgmpMsg.Requests
import TcpTests.Mpclient.Client

/-! What `myFillPosMsg` asks `fread` to put into the message buffer, over any number of calls,
and the reads of both programs that replay a capture. -/
namespace TcpTests.Mpclient
open Lib Net Fgmp Mpserver FgmpMsg

/-- The reads for the header: the second is made from the start of the file. -/
def headerRequests (f : Stream) : List Request :=
  if (f.fread sizeofMsgHdr).1.length = sizeofMsgHdr then [⟨0, sizeofMsgHdr⟩]
  else [⟨0, sizeofMsgHdr⟩, ⟨0, sizeofMsgHdr⟩]

/-- The reads for the rest of a message and its padding, by the tests of `readBody`. -/
def bodyRequests (h : Endian) (m : Mem) (f : Stream) : List Request :=
  let rlen := (xdrDecodeUint32 h (loadWord h m offMsgLen)).toNat
  if rlen ≤ sizeofMsgHdr then []
  else
    let r := f.fread (rlen - sizeofMsgHdr)
    ⟨sizeofMsgHdr, rlen - sizeofMsgHdr⟩ ::
      if sizeofMsgHdr + r.1.length > maxPacketSize then []
      else if r.1.length ≠ rlen - sizeofMsgHdr then []
      else [⟨0, alignSteps 16 rlen + 16⟩]

def fillRequests (h : Endian) (m : Mem) (fSampRaw : Option Stream) : List Request :=
  match fSampRaw with
  | none => []
  | some f =>
    headerRequests f ++
      match readHeader (m.strcpy offModel c172) f with
      | (_, none) => []
      | (m, some f) => bodyRequests h m f

/-- One call, with any message buffer and length, as a step of the file. -/
def fillStep (h : Endian) (fSampRaw : Option Stream) (call : Mem × ℕ) : Option (Option Stream) :=
  (myFillPosMsg h call.1 call.2 fSampRaw).map fun r => r.2.2

def headerRest (f : Stream) : List Byte :=
  if sizeofMsgHdr ≤ f.rest.length then f.rest else f.content

/-- A header is read whose message is longer than it. -/
def Continues (rest : List Byte) : Prop :=
  sizeofMsgHdr ≤ rest.length ∧ sizeofMsgHdr < recordLen rest

section
variable {h : Endian} {m m' : Mem} {buflen : ℕ} {f g : Stream}

theorem readHeader_some (hr : readHeader m f = (m', some g)) :
    sizeofMsgHdr ≤ (headerRest f).length ∧
      xdrDecodeUint32 h (loadWord h m' offMsgLen) = beWord (carried (headerRest f)) offMsgLen ∧
      g.rest = (headerRest f).drop sizeofMsgHdr ∧ g.content = f.content := by
  unfold readHeader at hr
  dsimp only at hr
  rw [Stream.fread_length, Stream.fread_length] at hr
  split_ifs at hr with hfirst hsecond
  · rw [min_eq_left_iff] at hfirst
    cases hr
    rw [headerRest, if_pos hfirst]
    refine ⟨hfirst, ?_, Stream.fread_rest f _, rfl⟩
    rw [xdrDecodeUint32, swap32_loadWord]
    exact beWord_header m hfirst (by decide)
  · rw [min_eq_left_iff] at hfirst hsecond
    cases hr
    rw [headerRest, if_neg hfirst]
    refine ⟨hsecond, ?_, Stream.fread_rest _ _, rfl⟩
    rw [xdrDecodeUint32, swap32_loadWord]
    exact beWord_header _ hsecond (by decide)
  · cases hr

theorem readHeader_none (hr : readHeader m f = (m', none)) :
    (headerRest f).length < sizeofMsgHdr := by
  unfold readHeader at hr
  dsimp only at hr
  rw [Stream.fread_length, Stream.fread_length] at hr
  by_cases hfirst : min sizeofMsgHdr f.rest.length = sizeofMsgHdr
  · rw [if_pos hfirst] at hr
    cases hr
  · rw [if_neg hfirst] at hr
    by_cases hsecond : min sizeofMsgHdr (f.fread sizeofMsgHdr).2.rewind.rest.length = sizeofMsgHdr
    · rw [if_pos hsecond] at hr
      cases hr
    · rw [min_eq_left_iff] at hfirst hsecond
      rw [headerRest, if_neg hfirst]
      exact Nat.lt_of_not_le hsecond

theorem headerRequests_fit : ∀ q ∈ headerRequests f, q.Fits := by
  unfold headerRequests
  split_ifs
  · decide
  · decide

theorem bodyRequests_fit {len : Word} (hlen : xdrDecodeUint32 h (loadWord h m offMsgLen) = len) :
    (∀ q ∈ bodyRequests h m f, q.Fits) ↔ len.toNat ≤ maxPacketSize := by
  unfold bodyRequests
  rw [hlen]
  dsimp only
  by_cases hshort : len.toNat ≤ sizeofMsgHdr
  · rw [if_pos hshort]
    simp only [sizeofMsgHdr] at hshort
    simp
    omega
  · rw [if_neg hshort, List.forall_mem_cons]
    have hfirst : (Request.mk sizeofMsgHdr (len.toNat - sizeofMsgHdr)).Fits ↔
        len.toNat ≤ maxPacketSize := by
      simp only [Request.Fits, sizeofMsgHdr, maxPacketSize] at hshort ⊢
      omega
    have hpad : (Request.mk 0 (alignSteps 16 len.toNat + 16)).Fits := by
      have hlt : alignSteps 16 len.toNat < 16 := alignSteps_lt (by decide) _
      simp only [Request.Fits, maxPacketSize]
      omega
    rw [hfirst]
    split_ifs
    · simp
    · simp
    · simp [hpad]

/-- The reads of a call fit unless the length of a message is greater than the buffer. -/
theorem fillRequests_fit : (∀ q ∈ fillRequests h m (some f), q.Fits) ↔
    (sizeofMsgHdr ≤ (headerRest f).length → recordLen (headerRest f) ≤ maxPacketSize) := by
  unfold fillRequests
  dsimp only
  rw [List.forall_mem_append, and_iff_right headerRequests_fit]
  split
  · rename_i m' hr
    have hshort := readHeader_none hr
    constructor
    · intro _ hlo
      exact absurd hlo (Nat.not_le.mpr hshort)
    · intro _ q hq
      cases hq
  · rename_i m' g hr
    obtain ⟨hlo, hlen, -, -⟩ := readHeader_some (h := h) hr
    rw [bodyRequests_fit hlen, recordLen]
    simp only [hlo, true_imp_iff]

theorem readBody_some {len : Word} {n : ℕ}
    (hlen : xdrDecodeUint32 h (loadWord h m offMsgLen) = len)
    (hr : readBody h m buflen f = some (m', n, some g)) :
    sizeofMsgHdr < len.toNat ∧ len.toNat ≤ sizeofMsgHdr + f.rest.length ∧
      g.rest = f.rest.drop (len.toNat - sizeofMsgHdr + (alignSteps 16 len.toNat + 16)) ∧
      g.content = f.content := by
  unfold readBody at hr
  rw [hlen] at hr
  dsimp only at hr
  split_ifs at hr with hshort hover hread
  · cases hr
  · cases hr
  · rw [not_not, Stream.fread_length] at hread
    cases hr
    refine ⟨Nat.lt_of_not_le hshort, by omega, ?_, rfl⟩
    rw [Stream.fread_rest, Stream.fread_rest, List.drop_drop]

theorem readBody_whole {len : Word} (hlen : xdrDecodeUint32 h (loadWord h m offMsgLen) = len)
    (hlo : sizeofMsgHdr < len.toNat) (hhi : len.toNat ≤ maxPacketSize)
    (hrest : len.toNat ≤ sizeofMsgHdr + f.rest.length) :
    ∃ m' n g, readBody h m buflen f = some (m', n, some g) := by
  have hread : (f.fread (len.toNat - sizeofMsgHdr)).1.length = len.toNat - sizeofMsgHdr := by
    rw [Stream.fread_length]
    omega
  have hover : ¬ sizeofMsgHdr + (len.toNat - sizeofMsgHdr) > maxPacketSize := by omega
  unfold readBody
  rw [hlen]
  dsimp only
  rw [if_neg (Nat.not_le.mpr hlo), hread, if_neg hover, if_neg (not_not_intro rfl)]
  exact ⟨_, _, _, rfl⟩

theorem fillStep_some {call : Mem × ℕ} (hs : fillStep h (some f) call = some (some g)) :
    Continues (headerRest f) ∧ recordLen (headerRest f) ≤ (headerRest f).length ∧
      g.rest = afterRecord (headerRest f) ∧ g.content = f.content := by
  obtain ⟨⟨m', n, g'⟩, hf, hg⟩ := Option.map_eq_some_iff.mp hs
  cases hg
  unfold myFillPosMsg at hf
  dsimp only at hf
  split at hf
  · cases hf
  · rename_i m₁ f₁ hr
    obtain ⟨hlo, hlen, hrest, hcontent⟩ := readHeader_some (h := h) hr
    obtain ⟨hlt, hle, hg, hgcontent⟩ := readBody_some hlen hf
    rw [hrest, List.length_drop] at hle
    rw [hrest, List.drop_drop] at hg
    refine ⟨⟨hlo, hlt⟩, ?_, ?_, hgcontent.trans hcontent⟩
    · unfold recordLen
      omega
    · rw [hg, afterRecord, recordLen]
      congr 1
      omega

theorem fillStep_none {call : Mem × ℕ} {f' : Option Stream} (hs : fillStep h f' call = none) :
    ¬ ∀ q ∈ fillRequests h call.1 f', q.Fits := by
  have hf := Option.map_eq_none_iff.mp hs
  unfold myFillPosMsg at hf
  dsimp only at hf
  split at hf
  · cases hf
  · rename_i f
    split at hf
    · cases hf
    · rename_i m₁ f₁ hr
      obtain ⟨hlo, hlen, hrest, -⟩ := readHeader_some (h := h) hr
      rw [fillRequests_fit]
      unfold readBody at hf
      rw [hlen] at hf
      dsimp only at hf
      split_ifs at hf with hshort hover hread
      intro hle
      have hmax := hle hlo
      rw [Stream.fread_length] at hover
      unfold recordLen at hmax
      simp only [sizeofMsgHdr, maxPacketSize] at hover hmax hshort
      omega

theorem fillStep_continues (call : Mem × ℕ) (hc : Continues (headerRest f))
    (hhi : recordLen (headerRest f) ≤ maxPacketSize)
    (hlen : recordLen (headerRest f) ≤ (headerRest f).length) :
    ∃ g, fillStep h (some f) call = some (some g) := by
  unfold fillStep myFillPosMsg
  dsimp only
  obtain ⟨hlo, hlt⟩ := hc
  split
  · rename_i m' hr
    exact absurd (readHeader_none hr) (Nat.not_lt.mpr hlo)
  · rename_i m' f₁ hr
    obtain ⟨-, hword, hrest, -⟩ := readHeader_some (h := h) hr
    have hle : recordLen (headerRest f) ≤ sizeofMsgHdr + f₁.rest.length := by
      rw [hrest, List.length_drop]
      omega
    obtain ⟨m₂, n, g, hbody⟩ : ∃ m₂ n g, readBody h m' call.2 f₁ = some (m₂, n, some g) :=
      readBody_whole hword hlt hhi hle
    rw [hbody]
    exact ⟨g, rfl⟩

end

/-- The lengths in the records of a capture that the client gets to. -/
def ClientFits (content : List Byte) : Prop :=
  ∀ rest, RecordAt Continues content rest → sizeofMsgHdr ≤ rest.length →
    recordLen rest ≤ maxPacketSize

section
variable (h : Endian) (content : List Byte)

/-- An open file stands behind records of the capture. -/
def InCapture (content : List Byte) : Option Stream → Prop
  | none => True
  | some f => f.content = content ∧ RecordAt Continues content f.rest

theorem InCapture.headerRest {f : Stream} (hf : InCapture content (some f)) :
    RecordAt Continues content (Mpclient.headerRest f) := by
  obtain ⟨hcontent, hat⟩ := hf
  unfold Mpclient.headerRest
  split_ifs
  · exact hat
  · rw [hcontent]
    exact .start

theorem InCapture.step {f f' : Option Stream} {call : Mem × ℕ} (hf : InCapture content f)
    (hs : fillStep h f call = some f') : InCapture content f' := by
  cases f' with
  | none => trivial
  | some g =>
    cases f with
    | none => cases hs
    | some f =>
      obtain ⟨hc, hlen, hrest, hcontent⟩ := fillStep_some hs
      refine ⟨hcontent.trans hf.1, ?_⟩
      rw [hrest]
      exact hf.headerRest.next hc hlen

theorem reaches_record {rest : List Byte}
    (hfit : ∀ calls, AllSteps (fillStep h) (fun f call => ∀ q ∈ fillRequests h call.1 f, q.Fits)
      (some (.opened content)) calls)
    (hat : RecordAt Continues content rest) :
    ∃ calls f, runs (fillStep h) (some (.opened content)) calls = some (some f) ∧
      f.rest = rest := by
  induction hat with
  | start => exact ⟨[], .opened content, rfl, rfl⟩
  | @next rest hat hok hlen ih =>
    obtain ⟨calls, f, hr, rfl⟩ := ih
    have hhdr : Mpclient.headerRest f = f.rest := if_pos hok.1
    have hall := (allSteps_append.mp (hfit (calls ++ [(fun _ => 0, 0)]))).2 _ hr
    have hhi := fillRequests_fit.mp hall.1
    rw [hhdr] at hhi
    obtain ⟨g, hg⟩ : ∃ g, fillStep h (some f) (fun _ => 0, 0) = some (some g) := by
      apply fillStep_continues
      · rwa [hhdr]
      · rw [hhdr]
        exact hhi hok.1
      · rwa [hhdr]
    refine ⟨calls ++ [(fun _ => 0, 0)], g, runs_concat.mpr ⟨_, hr, hg⟩, ?_⟩
    obtain ⟨-, -, hrest, -⟩ := fillStep_some hg
    rw [hrest, hhdr]

theorem fillRequests_fit_iff :
    (∀ calls, AllSteps (fillStep h) (fun f call => ∀ q ∈ fillRequests h call.1 f, q.Fits)
      (some (.opened content)) calls) ↔ ClientFits content := by
  constructor
  · intro hfit rest hat hlo
    obtain ⟨calls, f, hr, rfl⟩ := reaches_record h content hfit hat
    have hhdr : Mpclient.headerRest f = f.rest := if_pos hlo
    have hall := (allSteps_append.mp (hfit (calls ++ [(fun _ => 0, 0)]))).2 _ hr
    have hhi := fillRequests_fit.mp hall.1
    rw [hhdr] at hhi
    exact hhi hlo
  · intro hfit calls
    apply allSteps_of_invariant (InCapture content)
    · intro f call f' hf hs
      exact hf.step h content hs
    · intro f call hf
      cases f with
      | none =>
        intro q hq
        cases hq
      | some f => exact fillRequests_fit.mpr (hfit _ (hf.headerRest content))
    · exact ⟨rfl, .start⟩

theorem fillStep_runs (hfit : ClientFits content) (calls : List (Mem × ℕ)) :
    (runs (fillStep h) (some (.opened content)) calls).isSome := by
  have hall := (fillRequests_fit_iff h content).mpr hfit calls
  generalize some (Stream.opened content) = f at hall
  induction calls generalizing f with
  | nil => rfl
  | cons call calls ih =>
    cases hs : fillStep h f call with
    | none => exact absurd hall.1 (fillStep_none hs)
    | some f' =>
      simp only [runs, hs]
      exact ih f' (hall.2 f' hs)

/-- Every read of a capture into the message buffer fits exactly if the lengths in the records
that are reached do: for `test_fgmp_message` between the length of a header and that of the
buffer, for `mpclient` at most that of the buffer. -/
theorem capture_requests_fit (processPosMsg : ℕ → Mem → Bool) (m : Mem) :
    ((∀ r, Visits (Reader.body h processPosMsg) (.start m (.opened content)) r →
        ∀ q ∈ r.requests h, q.Fits) ↔ ReaderFits content) ∧
      ((∀ calls, AllSteps (fillStep h) (fun f call => ∀ q ∈ fillRequests h call.1 f, q.Fits)
        (some (.opened content)) calls) ↔ ClientFits content) :=
  ⟨requests_fit_iff h processPosMsg m content, fillRequests_fit_iff h content⟩

end

/-- A header whose `MsgLen` is greater than the buffer. -/
def longRecord : List Byte := headerWire posDataId 2000#32 ++ testMsg ++ [0]

theorem capture_requests_overflow :
    (¬ ∀ r, Visits (Reader.body .little fun _ _ => false)
        (.start (fun _ => 0) (.opened longRecord)) r → ∀ q ∈ r.requests .little, q.Fits) ∧
      ¬ ∀ calls, AllSteps (fillStep .little)
        (fun f call => ∀ q ∈ fillRequests .little call.1 f, q.Fits)
        (some (.opened longRecord)) calls := by
  constructor
  · intro hfit
    have hq : ⟨32, 1968⟩ ∈
        (Reader.start (fun _ => 0) (.opened longRecord)).requests .little := by decide
    exact absurd (hfit _ (.refl _ _) _ hq) (by decide)
  · intro hfit
    have hq : ⟨32, 1968⟩ ∈ fillRequests .little (fun _ => 0) (some (.opened longRecord)) := by
      decide
    exact absurd ((hfit [(fun _ => 0, 0)]).1 _ hq) (by decide)

end TcpTests.Mpclient
