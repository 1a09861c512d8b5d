import TcpTests.Mpserver.RawFile

/-! The loop of `test_fgmp_message`, which reads a capture file back. `_ProcessPosMsg` only
reads the message buffer, and the loop uses nothing of it but whether it fails: what it makes
of the `n`-th message is a parameter. A read that would leave the buffer is undefined
behaviour and ends the run of the model without a result. -/
namespace TcpTests.FgmpMsg
open Lib Net Fgmp Mpserver

def decodeWord (h : Endian) (m : Mem) (off : ℕ) : Mem :=
  storeWord h m off (xdrDecodeUint32 h (loadWord h m off))

/-- Decode the header in place and cut the callsign to seven characters. -/
def decodeHdr (h : Endian) (m : Mem) : Mem :=
  let m := decodeWord h m offMagic
  let m := decodeWord h m offVersion
  let m := decodeWord h m offMsgId
  let m := decodeWord h m offMsgLen
  let m := decodeWord h m offReplyPort
  m.write (offCallsign + maxCallsignLen - 1) [0]

/-- The state of the loop, with the messages that got as far as the switch. -/
structure Reader where
  msgBuf : Mem
  file : Stream
  totalBytes : ℕ
  totalMsgs : ℕ
  totalMsgbytes : ℕ
  totalBad : ℕ
  rdCount : ℕ
  iret : ℕ
  messages : List (List Byte)

def Reader.start (msgBuf : Mem) (file : Stream) : Reader where
  msgBuf := msgBuf
  file := file
  totalBytes := 0
  totalMsgs := 0
  totalMsgbytes := 0
  totalBad := 0
  rdCount := 0
  iret := 0
  messages := []

inductive Stop
  | noHeader
  | badMagic
  | badVersion
  | shortMessage
  deriving DecidableEq, Repr

inductive Step
  | next (r : Reader)
  | stop (why : Stop) (r : Reader)
  | overflow

def Reader.dispatch (h : Endian) (processPosMsg : ℕ → Mem → Bool) (r : Reader) : Reader :=
  let msgId := loadWord h r.msgBuf offMsgId
  if msgId = chatMsgId then r
  else if msgId = posDataId then
    if processPosMsg r.rdCount r.msgBuf then { r with totalBad := r.totalBad + 1 } else r
  else { r with iret := 1, totalBad := r.totalBad + 1 }

/-- Count a message that has been read whole, and skip the padding written after it. -/
def Reader.count (r : Reader) (buflen : ℕ) : Reader :=
  let off := alignSteps 16 buflen + 16
  { r with
    totalMsgs := r.totalMsgs + 1
    totalMsgbytes := r.totalMsgbytes + buflen
    totalBytes := r.totalBytes + buflen + off
    rdCount := r.rdCount + 1
    file := (r.file.fread off).2
    messages := r.messages ++ [r.msgBuf.read 0 buflen] }

/-- The subtraction of the header length is done in 64 bits. -/
def balance (msgLen : Word) : ℕ := (msgLen.toNat + (2 ^ 64 - sizeofMsgHdr)) % 2 ^ 64

def Reader.step (h : Endian) (processPosMsg : ℕ → Mem → Bool) (r : Reader) : Step :=
  let hdr := r.file.fread sizeofMsgHdr
  let r := { r with msgBuf := r.msgBuf.write 0 hdr.1, file := hdr.2 }
  if hdr.1.length ≠ sizeofMsgHdr then
    .stop .noHeader (if r.rdCount = 0 then { r with iret := 1 } else r)
  else
    let r := { r with msgBuf := decodeHdr h r.msgBuf }
    let magic := loadWord h r.msgBuf offMagic
    if magic ≠ msgMagic ∧ magic ≠ relayMagic then
      .stop .badMagic { r with totalBad := r.totalBad + 1 }
    else if loadWord h r.msgBuf offVersion ≠ protoVer then
      .stop .badVersion { r with totalBad := r.totalBad + 1 }
    else
      let i := balance (loadWord h r.msgBuf offMsgLen)
      let body := r.file.fread i
      if sizeofMsgHdr + body.1.length > maxPacketSize then .overflow
      else
        let r := { r with msgBuf := r.msgBuf.write sizeofMsgHdr body.1, file := body.2 }
        if body.1.length ≠ i then .stop .shortMessage r
        else .next ((r.count (sizeofMsgHdr + i)).dispatch h processPosMsg)

@[simp] theorem Reader.dispatch_file (h : Endian) (processPosMsg : ℕ → Mem → Bool) (r : Reader) :
    (r.dispatch h processPosMsg).file = r.file := by
  unfold dispatch
  dsimp only
  split_ifs <;> rfl

theorem Reader.step_next_rest {h : Endian} {processPosMsg : ℕ → Mem → Bool} {r r' : Reader}
    (hs : r.step h processPosMsg = .next r') : r'.file.rest.length < r.file.rest.length := by
  unfold step at hs
  dsimp only at hs
  split_ifs at hs with hhdr _ _ _ _
  cases hs
  rw [not_not, Stream.fread_length] at hhdr
  rw [dispatch_file]
  unfold count
  dsimp only
  rw [Stream.fread_rest, Stream.fread_rest, Stream.fread_rest, List.length_drop,
    List.length_drop, List.length_drop]
  simp only [sizeofMsgHdr] at hhdr ⊢
  omega

def Reader.loop (h : Endian) (processPosMsg : ℕ → Mem → Bool) (r : Reader) : Option (Stop × Reader) :=
  match _hs : r.step h processPosMsg with
  | .next r' => Reader.loop h processPosMsg r'
  | .stop why r' => some (why, r')
  | .overflow => none
termination_by r.file.rest.length
decreasing_by exact Reader.step_next_rest _hs

theorem Reader.loop_next {h : Endian} {processPosMsg : ℕ → Mem → Bool} {r r' : Reader}
    (hs : r.step h processPosMsg = .next r') :
    r.loop h processPosMsg = r'.loop h processPosMsg := by
  rw [loop]
  split
  · rename_i r'' hr
    rw [hs] at hr
    cases hr
    rfl
  · rename_i why r'' hr
    rw [hs] at hr
    cases hr
  · rename_i hr
    rw [hs] at hr
    cases hr

theorem Reader.loop_stop {h : Endian} {processPosMsg : ℕ → Mem → Bool} {r r' : Reader} {why : Stop}
    (hs : r.step h processPosMsg = .stop why r') :
    r.loop h processPosMsg = some (why, r') := by
  rw [loop]
  split
  · rename_i r'' hr
    rw [hs] at hr
    cases hr
  · rename_i why' r'' hr
    rw [hs] at hr
    cases hr
    rfl
  · rename_i hr
    rw [hs] at hr
    cases hr

/-- A datagram as the reader leaves it in the buffer: the header decoded in place and the
callsign cut, the rest as it was. -/
def decoded (h : Endian) (d : List Byte) : List Byte := (decodeHdr h (carried d)).read 0 d.length

section Decode
variable {h : Endian} {m m' : Mem} {a off : ℕ}

theorem decodeWord_other (h : Endian) (m : Mem) (ha : a < off ∨ off + 4 ≤ a) :
    decodeWord h m off a = m a := by
  unfold decodeWord storeWord
  rcases ha with ha | ha
  · exact Mem.write_lt m _ ha
  · exact Mem.write_ge m _ (by rwa [wordBytes_length])

@[simp] theorem loadWord_decodeWord (h : Endian) (m : Mem) (off : ℕ) :
    loadWord h (decodeWord h m off) off = beWord m off := by
  rw [decodeWord, loadWord_storeWord, xdrDecodeUint32, swap32_loadWord]

theorem decodeWord_congr {n : ℕ} (hm : ∀ a, a < n → m a = m' a) (ho : off + 4 ≤ n) :
    ∀ a, a < n → decodeWord h m off a = decodeWord h m' off a := by
  intro a ha
  have hword : loadWord h m off = loadWord h m' off :=
    loadWord_congr fun i hi => hm _ (by omega)
  unfold decodeWord
  rw [hword]
  unfold storeWord Mem.write
  rw [hm a ha]

theorem decodeHdr_congr (hm : ∀ a, a < sizeofMsgHdr → m a = m' a) :
    ∀ a, a < sizeofMsgHdr → decodeHdr h m a = decodeHdr h m' a := by
  intro a ha
  unfold decodeHdr
  have h₁ := decodeWord_congr (h := h) hm (show offMagic + 4 ≤ sizeofMsgHdr by decide)
  have h₂ := decodeWord_congr (h := h) h₁ (show offVersion + 4 ≤ sizeofMsgHdr by decide)
  have h₃ := decodeWord_congr (h := h) h₂ (show offMsgId + 4 ≤ sizeofMsgHdr by decide)
  have h₄ := decodeWord_congr (h := h) h₃ (show offMsgLen + 4 ≤ sizeofMsgHdr by decide)
  have h₅ := decodeWord_congr (h := h) h₄ (show offReplyPort + 4 ≤ sizeofMsgHdr by decide)
  unfold Mem.write
  rw [h₅ a ha]

theorem decodeHdr_ge (h : Endian) (m : Mem) (ha : sizeofMsgHdr ≤ a) : decodeHdr h m a = m a := by
  simp only [sizeofMsgHdr] at ha
  unfold decodeHdr
  rw [Mem.write_ge _ _ (by simp only [offCallsign, maxCallsignLen, List.length_singleton]; omega),
    decodeWord_other h _ (Or.inr (by simp only [offReplyPort]; omega)),
    decodeWord_other h _ (Or.inr (by simp only [offMsgLen]; omega)),
    decodeWord_other h _ (Or.inr (by simp only [offMsgId]; omega)),
    decodeWord_other h _ (Or.inr (by simp only [offVersion]; omega)),
    decodeWord_other h _ (Or.inr (by simp only [offMagic]; omega))]

theorem loadWord_decodeHdr (h : Endian) (m : Mem) :
    loadWord h (decodeHdr h m) offMagic = beWord m offMagic ∧
      loadWord h (decodeHdr h m) offVersion = beWord m offVersion ∧
      loadWord h (decodeHdr h m) offMsgLen = beWord m offMsgLen := by
  have hother : ∀ (m : Mem) (o b : ℕ), b + 4 ≤ o ∨ o + 4 ≤ b →
      loadWord h (decodeWord h m o) b = loadWord h m b :=
    fun m o b hob => loadWord_storeWord_disjoint h h m _ hob
  have hbe : ∀ (m : Mem) (o b : ℕ), b + 4 ≤ o ∨ o + 4 ≤ b →
      beWord (decodeWord h m o) b = beWord m b :=
    fun m o b hob => loadWord_storeWord_disjoint .big h m _ hob
  have hcut : ∀ (m : Mem) (b : ℕ), b + 4 ≤ offCallsign →
      loadWord h (m.write (offCallsign + maxCallsignLen - 1) [0]) b = loadWord h m b := by
    intro m b hb
    simp only [offCallsign] at hb
    apply loadWord_congr
    intro i hi
    exact Mem.write_lt m _ (by simp only [offCallsign, maxCallsignLen]; omega)
  unfold decodeHdr
  refine ⟨?_, ?_, ?_⟩
  · rw [hcut _ _ (by decide), hother _ _ _ (by decide), hother _ _ _ (by decide),
      hother _ _ _ (by decide), hother _ _ _ (by decide), loadWord_decodeWord]
  · rw [hcut _ _ (by decide), hother _ _ _ (by decide), hother _ _ _ (by decide),
      hother _ _ _ (by decide), loadWord_decodeWord, hbe _ _ _ (by decide)]
  · rw [hcut _ _ (by decide), hother _ _ _ (by decide), loadWord_decodeWord,
      hbe _ _ _ (by decide), hbe _ _ _ (by decide), hbe _ _ _ (by decide)]

theorem read_decoded (h : Endian) (m : Mem) {d : List Byte} (hd : sizeofMsgHdr ≤ d.length) :
    ((decodeHdr h (m.write 0 (d.take sizeofMsgHdr))).write sizeofMsgHdr
      (d.drop sizeofMsgHdr)).read 0 d.length = decoded h d := by
  have hsplit : d.length = sizeofMsgHdr + (d.length - sizeofMsgHdr) := by omega
  have hbody : (carried d).read sizeofMsgHdr (d.length - sizeofMsgHdr) = d.drop sizeofMsgHdr :=
    carried_read_drop d sizeofMsgHdr hd
  unfold decoded
  rw [hsplit, Mem.read_add, Mem.read_add, Nat.zero_add]
  congr 1
  · rw [Mem.read_write_disjoint _ _ (Or.inl (by omega))]
    apply Mem.read_congr
    intro a _ ha
    exact decodeHdr_congr (fun b hb => write_take_carried m hd hb) a (by omega)
  · rw [Mem.read_write_of_length List.length_drop, ← hbody]
    apply Mem.read_congr
    intro a ha _
    exact (decodeHdr_ge h _ ha).symm

end Decode

section Capture
variable {h : Endian} {processPosMsg : ℕ → Mem → Bool} {r : Reader} {d rest : List Byte}
  {ds : List (List Byte)}

theorem balance_msgLen (hd : ValidDatagram d) :
    balance (beWord (carried d) offMsgLen) = d.length - sizeofMsgHdr := by
  have hlo := hd.lo
  have hhi := hd.hi
  simp only [sizeofMsgHdr, maxPacketSize] at hlo hhi
  unfold balance
  rw [hd.msgLen_toNat]
  simp only [sizeofMsgHdr]
  omega

/-- The counters that the property of the loop is about. -/
structure Reader.Counts (r : Reader) (messages : List (List Byte)) (msgs msgbytes : ℕ) : Prop where
  messages : r.messages = messages
  totalMsgs : r.totalMsgs = msgs
  totalMsgbytes : r.totalMsgbytes = msgbytes

theorem Reader.Counts.dispatch {messages : List (List Byte)} {msgs msgbytes : ℕ}
    (hr : r.Counts messages msgs msgbytes) :
    (r.dispatch h processPosMsg).Counts messages msgs msgbytes := by
  obtain ⟨h₁, h₂, h₃⟩ := hr
  unfold Reader.dispatch
  dsimp only
  split_ifs <;> exact ⟨h₁, h₂, h₃⟩

/-- Before the record of a valid datagram the loop reads it and stands behind the record. -/
theorem step_record (hf : r.file.At (rawRecord d ++ rest)) (hd : ValidDatagram d) :
    ∃ r', r.step h processPosMsg = .next r' ∧ r'.file.At rest ∧
      r'.Counts (r.messages ++ [decoded h d]) (r.totalMsgs + 1) (r.totalMsgbytes + d.length) := by
  have hlo := hd.lo
  have hhi := hd.hi
  obtain ⟨hhdr, hbody, -, hrest⟩ := record_pieces hf hlo
  obtain ⟨hmagic, hversion, hlen⟩ :=
    loadWord_decodeHdr h (r.msgBuf.write 0 (d.take sizeofMsgHdr))
  rw [beWord_header _ hlo (by decide)] at hmagic hversion hlen
  have hbalance := balance_msgLen hd
  have hover : ¬ sizeofMsgHdr + (d.drop sizeofMsgHdr).length > maxPacketSize := by
    rw [List.length_drop]
    omega
  have hbuflen : sizeofMsgHdr + (d.length - sizeofMsgHdr) = d.length := by omega
  have hgoodMagic : ¬ (beWord (carried d) offMagic ≠ msgMagic ∧
      beWord (carried d) offMagic ≠ relayMagic) := fun hne => hd.magic.elim hne.1 hne.2
  have hread := read_decoded h r.msgBuf hlo
  have hstep : r.step h processPosMsg = .next ((Reader.count
      { r with
        msgBuf := (decodeHdr h (r.msgBuf.write 0 (d.take sizeofMsgHdr))).write sizeofMsgHdr
          (d.drop sizeofMsgHdr)
        file := ((r.file.fread sizeofMsgHdr).2.fread (d.length - sizeofMsgHdr)).2 }
      d.length).dispatch h processPosMsg) := by
    unfold Reader.step
    dsimp only
    rw [hhdr, if_neg (not_not_intro (List.length_take_of_le hlo)), hmagic,
      if_neg hgoodMagic, hversion, if_neg (not_not_intro hd.version), hlen, hbalance, hbody,
      if_neg hover, if_neg (not_not_intro List.length_drop), hbuflen]
  refine ⟨_, hstep, ?_, ?_⟩
  · rw [Reader.dispatch_file]
    exact hrest
  · apply Reader.Counts.dispatch
    refine ⟨?_, rfl, rfl⟩
    unfold Reader.count
    dsimp only
    rw [hread]

theorem loop_records (hds : ∀ d ∈ ds, ValidDatagram d) (hf : r.file.At (ds.flatMap rawRecord)) :
    ∃ r', r.loop h processPosMsg = some (.noHeader, r') ∧ r'.file.At [] ∧
      r'.Counts (r.messages ++ ds.map (decoded h)) (r.totalMsgs + ds.length)
        (r.totalMsgbytes + (ds.map List.length).sum) := by
  induction ds generalizing r with
  | nil =>
    have hnil : r.file.rest = [] := hf
    have hshort : (r.file.fread sizeofMsgHdr).1.length ≠ sizeofMsgHdr := by
      rw [Stream.fread_length, hnil]
      decide
    have hstep : r.step h processPosMsg = .stop .noHeader
        (if r.rdCount = 0 then
          { r with
            msgBuf := r.msgBuf.write 0 (r.file.fread sizeofMsgHdr).1
            file := (r.file.fread sizeofMsgHdr).2
            iret := 1 }
        else
          { r with
            msgBuf := r.msgBuf.write 0 (r.file.fread sizeofMsgHdr).1
            file := (r.file.fread sizeofMsgHdr).2 }) := by
      unfold Reader.step
      dsimp only
      rw [if_pos hshort]
    refine ⟨_, Reader.loop_stop hstep, ?_, ?_⟩
    · have hend : (r.file.fread sizeofMsgHdr).2.At [] := by
        unfold Stream.At
        rw [Stream.fread_rest, hnil, List.drop_nil]
      split_ifs <;> exact hend
    · split_ifs <;> exact ⟨by simp, rfl, rfl⟩
  | cons d ds ih =>
    rw [List.flatMap_cons] at hf
    obtain ⟨r', hstep, hf', hcounts⟩ := step_record hf (hds d (by simp))
    obtain ⟨r'', hloop, hend, hcounts'⟩ := ih (fun e he => hds e (by simp [he])) hf'
    refine ⟨r'', (Reader.loop_next hstep).trans hloop, hend, ?_, ?_, ?_⟩
    · rw [hcounts'.messages, hcounts.messages, List.map_cons, List.append_assoc,
        List.singleton_append]
    · rw [hcounts'.totalMsgs, hcounts.totalMsgs, List.length_cons]
      omega
    · rw [hcounts'.totalMsgbytes, hcounts.totalMsgbytes, List.map_cons, List.sum_cons]
      omega

end Capture

/-- A capture reads back as the datagrams that were written, and the loop ends at the end of
the file with all of them counted. -/
theorem capture_roundtrip (h : Endian) (processPosMsg : ℕ → Mem → Bool) (m : Mem)
    (ds : List (List Byte)) (hds : ∀ d ∈ ds, ValidDatagram d) :
    ∃ r, (Reader.start m (.opened (capture ds).content)).loop h processPosMsg =
        some (.noHeader, r) ∧
      r.messages = ds.map (decoded h) ∧ r.file.At [] ∧ r.totalMsgs = ds.length ∧
      r.totalMsgbytes = (ds.map List.length).sum := by
  have hat : (Reader.start m (.opened (capture ds).content)).file.At (ds.flatMap rawRecord) := by
    rw [← capture_content hds]
    exact Stream.at_opened _
  obtain ⟨r, hloop, hend, hcounts⟩ := @loop_records h processPosMsg _ ds hds hat
  refine ⟨r, hloop, ?_, hend, ?_, ?_⟩
  · rw [hcounts.messages]
    rfl
  · rw [hcounts.totalMsgs]
    exact Nat.zero_add _
  · rw [hcounts.totalMsgbytes]
    exact Nat.zero_add _

def sampleDatagram : List Byte :=
  headerWire chatMsgId 36#32 ++ [72, 105, 0, 0, 0, 0, 0, 0] ++ [0x61#8, padChar, padChar, padChar]

theorem capture_roundtrip_sample :
    ∃ r, (Reader.start (fun _ => 0)
          (.opened (capture [sampleDatagram, sampleDatagram]).content)).loop .little
          (fun _ _ => false) = some (.noHeader, r) ∧
      r.messages = [sampleDatagram, sampleDatagram].map (decoded .little) ∧ r.file.At [] ∧
      r.totalMsgs = 2 ∧ r.totalMsgbytes = 72 := by
  refine capture_roundtrip .little _ _ [sampleDatagram, sampleDatagram] ?_
  intro d hd
  have hsample : d = sampleDatagram := by simpa using hd
  rw [hsample]
  exact ⟨by decide, by decide, by decide, by decide, by decide⟩

end TcpTests.FgmpMsg
