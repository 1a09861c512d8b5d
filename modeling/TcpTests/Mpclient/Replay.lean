import TcpTests.Mpclient.Client
import TcpTests.Mpserver.RawFile

/-! Replaying a capture of `mpserver` through `mpclient`. The client walks the records of
the file in a circle, and gives the file up at a datagram that is nothing but a header. -/
namespace TcpTests.Mpclient
open Lib Net Fgmp Mpserver

/-- The file stands before the record of the `k`-th message, counting round and round, or at
the end of the file if that message is the first one. -/
def Position (ds : List (List Byte)) (f : Stream) (k : ℕ) : Prop :=
  f.content = ds.flatMap rawRecord ∧
    ∃ i ≤ ds.length, k % ds.length = i % ds.length ∧ f.At ((ds.drop i).flatMap rawRecord)

def replayed (ds : List (List Byte)) (k : ℕ) : List Byte := ds.getD (k % ds.length) []

/-- The length of a packet and what follows its header. -/
def payload (bytes : List Byte) : ℕ × List Byte := (bytes.length, bytes.drop sizeofMsgHdr)

def Replays (ds : List (List Byte)) (sent : List Packet) : Prop :=
  sent.map (fun q => payload q.bytes) =
    (List.range sent.length).map fun k => payload (replayed ds k)

section
variable {h : Endian} {m : Mem} {buflen k : ℕ} {d rest : List Byte} {f : Stream}
  {ds : List (List Byte)}

theorem readHeader_record (hf : f.At (rawRecord d ++ rest)) (hd : sizeofMsgHdr ≤ d.length) :
    readHeader m f = (m.write 0 (d.take sizeofMsgHdr), some (f.fread sizeofMsgHdr).2) := by
  obtain ⟨hhdr, -⟩ := record_pieces hf hd
  unfold readHeader
  dsimp only
  rw [hhdr, if_pos (List.length_take_of_le hd)]

theorem readHeader_end (hf : f.At []) (hr : f.rewind.At (rawRecord d ++ rest))
    (hd : sizeofMsgHdr ≤ d.length) : readHeader m f = readHeader m f.rewind := by
  have hnil : f.rest = [] := hf
  obtain ⟨hhdr, -⟩ := record_pieces hr hd
  rw [readHeader_record hr hd]
  unfold readHeader Stream.fread
  simp only [hnil, List.take_nil, List.length_nil, Mem.write_nil, sizeofMsgHdr]
  have hback : ({ f with pos := f.pos + 0 } : Stream).rewind = f.rewind := rfl
  unfold Stream.fread at hhdr
  simp only [sizeofMsgHdr] at hhdr hd
  rw [hback, hhdr, if_neg (by decide), if_pos (List.length_take_of_le hd)]

theorem readBody_record (hf : f.At (rawRecord d ++ rest)) (hd : ValidDatagram d)
    (hlen : sizeofMsgHdr < d.length) :
    ∃ m' g, readBody h (m.write 0 (d.take sizeofMsgHdr)) buflen (f.fread sizeofMsgHdr).2 =
        some (m', d.length, some g) ∧
      g.content = f.content ∧ g.At rest ∧
      m'.read sizeofMsgHdr (d.length - sizeofMsgHdr) = d.drop sizeofMsgHdr := by
  obtain ⟨-, hbody, hpad, hrest⟩ := record_pieces hf hd.lo
  have hrlen : (xdrDecodeUint32 h (loadWord h (m.write 0 (d.take sizeofMsgHdr))
      offMsgLen)).toNat = d.length := by
    rw [xdrDecodeUint32, swap32_loadWord, beWord_header m hd.lo (by decide), hd.msgLen_toNat]
  have hfit : ¬ sizeofMsgHdr + (d.drop sizeofMsgHdr).length > maxPacketSize := by
    have hhi := hd.hi
    rw [List.length_drop]
    omega
  unfold readBody
  dsimp only
  rw [hrlen, if_neg (by omega), hbody, if_neg hfit, if_neg (by rw [List.length_drop]; omega)]
  refine ⟨_, _, rfl, rfl, hrest, ?_⟩
  rw [hpad, Mem.read_write_disjoint _ _ (Or.inr (by simpa using (rawPadding_length_lt d.length).le)),
    Mem.read_write_of_length List.length_drop]

theorem readBody_headerOnly (hd : ValidDatagram d) (hlen : d.length = sizeofMsgHdr) :
    readBody h (m.write 0 (d.take sizeofMsgHdr)) buflen f =
      some (m.write 0 (d.take sizeofMsgHdr), buflen, none) := by
  have hrlen : (xdrDecodeUint32 h (loadWord h (m.write 0 (d.take sizeofMsgHdr))
      offMsgLen)).toNat = d.length := by
    rw [xdrDecodeUint32, swap32_loadWord, beWord_header m hd.lo (by decide), hd.msgLen_toNat]
  unfold readBody
  dsimp only
  rw [hrlen, if_pos hlen.le]

/-- Wherever the file stands, the next header is that of the next datagram of the circle. -/
theorem Position.next (hne : ds ≠ []) (hds : ∀ d ∈ ds, ValidDatagram d) (hp : Position ds f k) :
    ∃ g : Stream, g.content = ds.flatMap rawRecord ∧
      g.At (rawRecord (replayed ds k) ++ (ds.drop (k % ds.length + 1)).flatMap rawRecord) ∧
      ∀ m, readHeader m f = readHeader m g := by
  obtain ⟨hcontent, i, hi, hki, hat⟩ := hp
  have hn : 0 < ds.length := List.length_pos_iff.mpr hne
  have hlt : k % ds.length < ds.length := Nat.mod_lt k hn
  have hdrop : (ds.drop (k % ds.length)).flatMap rawRecord =
      rawRecord (replayed ds k) ++ (ds.drop (k % ds.length + 1)).flatMap rawRecord := by
    rw [List.drop_eq_getElem_cons hlt, List.flatMap_cons, replayed,
      List.getD_eq_getElem _ _ hlt]
  rcases Nat.lt_or_eq_of_le hi with hlt' | rfl
  · rw [Nat.mod_eq_of_lt hlt'] at hki
    subst hki
    rw [hdrop] at hat
    exact ⟨f, hcontent, hat, fun _ => rfl⟩
  · rw [Nat.mod_self] at hki
    have hend : f.At [] := by
      rw [List.drop_length] at hat
      exact hat
    have hstart : f.rewind.At (rawRecord (replayed ds k) ++
        (ds.drop (k % ds.length + 1)).flatMap rawRecord) := by
      rw [← hdrop, hki, List.drop_zero, ← hcontent]
      exact Stream.at_rewind f
    have hmem : replayed ds k ∈ ds := by
      rw [replayed, List.getD_eq_getElem _ _ hlt]
      exact List.getElem_mem hlt
    exact ⟨f.rewind, hcontent, hstart, fun m => readHeader_end hend hstart (hds _ hmem).lo⟩

theorem replayed_mem (hne : ds ≠ []) (k : ℕ) : replayed ds k ∈ ds := by
  have hlt : k % ds.length < ds.length := Nat.mod_lt k (List.length_pos_iff.mpr hne)
  rw [replayed, List.getD_eq_getElem _ _ hlt]
  exact List.getElem_mem hlt

theorem myFillMsgHdr_payload (h : Endian) (m : Mem) (len : Word) (n : ℕ) :
    (myFillMsgHdr h m posDataId len testMsg).1.read sizeofMsgHdr n = m.read sizeofMsgHdr n := by
  rw [myFillMsgHdr_eq h m posDataId len testMsg (by decide)]
  have hlen : (headerWire posDataId (msgLenFor posDataId len) ++ (testMsg ++ [0])).length =
      sizeofMsgHdr := by
    rw [List.length_append, headerWire_length]
    rfl
  exact Mem.read_write_disjoint _ _ (Or.inr (by rw [hlen, Nat.zero_add]))

theorem myFillPosMsg_position (hne : ds ≠ []) (hds : ∀ d ∈ ds, ValidDatagram d)
    (hp : Position ds f k) :
    ∃ (m₀ : Mem) (g : Stream), g.content = ds.flatMap rawRecord ∧
      g.At (rawRecord (replayed ds k) ++ (ds.drop (k % ds.length + 1)).flatMap rawRecord) ∧
      myFillPosMsg h m buflen (some f) =
        readBody h (m₀.write 0 ((replayed ds k).take sizeofMsgHdr)) buflen
          (g.fread sizeofMsgHdr).2 := by
  obtain ⟨g, hcontent, hat, hheader⟩ := hp.next hne hds
  have hd := hds _ (replayed_mem hne k)
  refine ⟨m.strcpy offModel c172, g, hcontent, hat, ?_⟩
  unfold myFillPosMsg
  dsimp only
  rw [hheader, readHeader_record hat hd.lo]

theorem fillMsg_position (hne : ds ≠ []) (hds : ∀ d ∈ ds, ValidDatagram d)
    (hp : Position ds f k) (hlen : (replayed ds k).length ≠ sizeofMsgHdr) :
    ∃ m' g, fillMsg h m (some f) = some (m', (replayed ds k).length, some g, 0) ∧
      payload (m'.read 0 (replayed ds k).length) = payload (replayed ds k) ∧
      Position ds g (k + 1) := by
  have hd := hds _ (replayed_mem hne k)
  have hlt : sizeofMsgHdr < (replayed ds k).length := Nat.lt_of_le_of_ne hd.lo hlen.symm
  obtain ⟨m₀, g, hcontent, hat, hfill⟩ :=
    @myFillPosMsg_position h (clearMsgBuf m) (sizeofMsgHdr + sizeofPositionMsg) k f ds hne hds hp
  obtain ⟨m', g', hbody, hcontent', hat', hread⟩ :=
    @readBody_record h m₀ (sizeofMsgHdr + sizeofPositionMsg) _ _ g hat hd hlt
  have hmod : k % ds.length < ds.length := Nat.mod_lt k (List.length_pos_iff.mpr hne)
  refine ⟨(myFillMsgHdr h m' posDataId (BitVec.ofNat 32 (replayed ds k).length) testMsg).1, g',
    ?_, ?_, ?_⟩
  · exact fillMsg_of_myFillPosMsg (hfill.trans hbody)
  · unfold payload
    rw [Mem.read_length, Mem.read_drop _ _ _ _ hd.lo, Nat.zero_add, myFillMsgHdr_payload, hread]
  · refine ⟨hcontent'.trans hcontent, k % ds.length + 1, hmod, ?_, hat'⟩
    exact (Nat.mod_add_mod k ds.length 1).symm

/-- A datagram that is only a header makes the client close the file. -/
theorem fillMsg_headerOnly (hne : ds ≠ []) (hds : ∀ d ∈ ds, ValidDatagram d)
    (hp : Position ds f k) (hlen : (replayed ds k).length = sizeofMsgHdr) :
    ∃ m', fillMsg h m (some f) =
      some (m', sizeofMsgHdr + sizeofPositionMsg, none, 0) := by
  have hd := hds _ (replayed_mem hne k)
  obtain ⟨m₀, g, -, -, hfill⟩ :=
    @myFillPosMsg_position h (clearMsgBuf m) (sizeofMsgHdr + sizeofPositionMsg) k f ds hne hds hp
  rw [readBody_headerOnly hd hlen] at hfill
  exact ⟨_, fillMsg_of_myFillPosMsg hfill⟩

theorem Replays.concat {sent : List Packet} {q : Packet} (hs : Replays ds sent)
    (hq : payload q.bytes = payload (replayed ds sent.length)) : Replays ds (sent ++ [q]) := by
  unfold Replays at hs ⊢
  rw [List.map_append, hs, List.length_append, List.length_singleton, List.range_succ,
    List.map_append, List.map_singleton, List.map_singleton, hq]

end

/-- The client that replays a capture of the given datagrams. -/
def Client.replay (serveraddr : SockaddrIn) (verbosity : ℕ) (ds : List (List Byte)) : Client :=
  .start serveraddr verbosity (some (.opened (capture ds).content))

/-- The packets sent repeat the datagrams, and the file stands before the next one. -/
structure Replaying (ds : List (List Byte)) (c : Client) : Prop where
  sent : Replays ds c.sent
  file : ∃ f, c.fSampRaw = some f ∧ Position ds f c.sent.length

section
variable {h : Endian} {ds : List (List Byte)} {c c' : Client} {p : Pass}

theorem replaying_start (serveraddr : SockaddrIn) (verbosity : ℕ)
    (hds : ∀ d ∈ ds, ValidDatagram d) : Replaying ds (.replay serveraddr verbosity ds) := by
  refine ⟨rfl, _, rfl, ?_, 0, Nat.zero_le _, ?_, ?_⟩
  · exact capture_content hds
  · rfl
  · rw [List.drop_zero, ← capture_content hds]
    exact Stream.at_opened _

theorem pass_replaying (hne : ds ≠ []) (hds : ∀ d ∈ ds, ValidDatagram d)
    (hlen : ∀ d ∈ ds, d.length ≠ sizeofMsgHdr) (hc : Replaying ds c)
    (hp : pass h c p = some c') : Replaying ds c' := by
  obtain ⟨hsent, f, hf, hpos⟩ := hc
  obtain ⟨m, g, hfill, hpayload, hnext⟩ :=
    @fillMsg_position h c.msgbuf _ f ds hne hds hpos (hlen _ (replayed_mem hne _))
  obtain ⟨-, ⟨hsame, -⟩ | ⟨m', n, f', hfill', hsent', hf'⟩⟩ := pass_cases hp
  · refine ⟨?_, f, ?_, ?_⟩
    · rwa [hsame.sent]
    · rw [hsame.fSampRaw, hf]
    · rwa [hsame.sent]
  · rw [hf, hfill] at hfill'
    cases hfill'
    refine ⟨?_, g, hf', ?_⟩
    · rw [hsent']
      exact hsent.concat hpayload
    · rwa [hsent', List.length_append, List.length_singleton]

theorem pass_isSome (hne : ds ≠ []) (hds : ∀ d ∈ ds, ValidDatagram d)
    (hlen : ∀ d ∈ ds, d.length ≠ sizeofMsgHdr) (hc : Replaying ds c) (hrun : c.running = true)
    (p : Pass) : (pass h c p).isSome = true := by
  obtain ⟨-, f, hf, hpos⟩ := hc
  obtain ⟨m, g, hfill, -, -⟩ :=
    @fillMsg_position h c.msgbuf _ f ds hne hds hpos (hlen _ (replayed_mem hne _))
  unfold pass
  rw [hf, hfill]
  simp only [hrun, Bool.not_true, Bool.false_eq_true, if_false]
  split_ifs <;> rfl

theorem reaches_datagram (hne : ds ≠ []) (hds : ∀ d ∈ ds, ValidDatagram d)
    (hopen : ∀ passes c', runs (pass h) c passes = some c' → c'.fSampRaw ≠ none)
    (hc : Replaying ds c) (hrun : c.running = true) (hstart : c.sent = []) (k : ℕ) :
    ∃ passes c', runs (pass h) c passes = some c' ∧ c'.running = true ∧
      (∃ f, c'.fSampRaw = some f ∧ Position ds f k) := by
  induction k with
  | zero =>
    obtain ⟨-, f, hf, hpos⟩ := hc
    rw [hstart] at hpos
    exact ⟨[], c, rfl, hrun, f, hf, hpos⟩
  | succ k ih =>
    obtain ⟨passes, c', hr, hrun', f, hf, hpos⟩ := ih
    by_cases hlen : (replayed ds k).length = sizeofMsgHdr
    · obtain ⟨m', hfill⟩ := @fillMsg_headerOnly h c'.msgbuf k f ds hne hds hpos hlen
      obtain ⟨c'', hp, -, -, hnone⟩ := pass_quiet hrun' (hf ▸ hfill)
      exact absurd hnone (hopen (passes ++ [quietPass]) c'' (runs_concat.mpr ⟨c', hr, hp⟩))
    · obtain ⟨m', g, hfill, -, hnext⟩ := @fillMsg_position h c'.msgbuf k f ds hne hds hpos hlen
      obtain ⟨c'', hp, hrun'', -, hsome⟩ := pass_quiet hrun' (hf ▸ hfill)
      exact ⟨passes ++ [quietPass], c'', runs_concat.mpr ⟨c', hr, hp⟩, hrun'', g, hsome, hnext⟩

end

/-- The client replays a capture round and round, in every run, just when no datagram of the
capture is a header only. -/
theorem replay_iff (h : Endian) (serveraddr : SockaddrIn) (verbosity : ℕ)
    (ds : List (List Byte)) (hne : ds ≠ []) (hds : ∀ d ∈ ds, ValidDatagram d) :
    (∀ passes c, runs (pass h) (.replay serveraddr verbosity ds) passes = some c →
      Replays ds c.sent ∧ c.fSampRaw ≠ none ∧
        (c.running = true → ∀ p, (pass h c p).isSome = true)) ↔
      ∀ d ∈ ds, d.length ≠ sizeofMsgHdr := by
  constructor
  · intro hall d hd hlen
    obtain ⟨k, hk, rfl⟩ := List.getElem_of_mem hd
    have hopen : ∀ passes c, runs (pass h) (.replay serveraddr verbosity ds) passes = some c →
        c.fSampRaw ≠ none := fun passes c hr => (hall passes c hr).2.1
    have hrep : replayed ds k = ds[k] := by
      rw [replayed, Nat.mod_eq_of_lt hk, List.getD_eq_getElem _ _ hk]
    obtain ⟨passes, c, hr, hrun, f, hf, hpos⟩ := reaches_datagram hne hds hopen
      (replaying_start serveraddr verbosity hds) rfl rfl k
    obtain ⟨m', hfill⟩ :=
      @fillMsg_headerOnly h c.msgbuf k f ds hne hds hpos (by rw [hrep, hlen])
    obtain ⟨c', hp, -, -, hnone⟩ := pass_quiet hrun (hf ▸ hfill)
    exact hopen (passes ++ [quietPass]) c' (runs_concat.mpr ⟨c, hr, hp⟩) hnone
  · intro hlen passes c hr
    have hc : Replaying ds c := runs_invariant (Replaying ds)
      (fun _ _ _ hc hp => pass_replaying hne hds hlen hc hp)
      (replaying_start serveraddr verbosity hds) hr
    obtain ⟨f, hf, -⟩ := hc.file
    refine ⟨hc.sent, ?_, fun hrun p => pass_isSome hne hds hlen hc hrun p⟩
    rw [hf]
    exact Option.some_ne_none f

def sampleMessage : List Byte :=
  headerWire chatMsgId 36#32 ++ testMsg ++ [0] ++ [0x61#8, 0x3D#8, 0x3D#8, 0x62#8]

theorem sampleMessage_valid : ∀ d ∈ [sampleMessage], ValidDatagram d := by
  intro d hd
  rw [List.mem_singleton.mp hd]
  exact ⟨by decide, by decide, by decide, by decide, by decide⟩

theorem replay_iff_sample :
    ∃ c, runs (pass .little) (.replay ⟨0#32, 0#16⟩ 0 [sampleMessage]) [quietPass] = some c ∧
      Replays [sampleMessage] c.sent ∧ c.fSampRaw ≠ none := by
  obtain ⟨-, f, hf, hpos⟩ := replaying_start ⟨0#32, 0#16⟩ 0 sampleMessage_valid
  obtain ⟨m, g, hfill, -, -⟩ := @fillMsg_position .little
    (Client.replay ⟨0#32, 0#16⟩ 0 [sampleMessage]).msgbuf _ f _ (by decide) sampleMessage_valid
    hpos (by decide)
  obtain ⟨c, hp, -, -, -⟩ := pass_quiet rfl (hf ▸ hfill)
  have hr := runs_cons.mpr ⟨c, hp, runs_nil⟩
  obtain ⟨hsent, hopen, -⟩ := (replay_iff .little ⟨0#32, 0#16⟩ 0 [sampleMessage] (by decide)
    sampleMessage_valid).mpr (by decide) [quietPass] c hr
  exact ⟨c, hr, hsent, hopen⟩

def sampleHeader : List Byte := headerWire posDataId 32#32 ++ testMsg ++ [0]

/-- The only datagram of the capture is valid, and the client closes the file on it and sends a
message of 232 bytes. -/
theorem replay_headerOnly :
    ValidDatagram sampleHeader ∧
      ∃ c, runs (pass .little) (.replay ⟨0#32, 0#16⟩ 0 [sampleHeader]) [quietPass] = some c ∧
        c.fSampRaw = none ∧ c.sent.map (fun q => q.bytes.length) = [232] ∧
        ¬ Replays [sampleHeader] c.sent := by
  have hvalid : ValidDatagram sampleHeader :=
    ⟨by decide, by decide, by decide, by decide, by decide⟩
  have hds : ∀ d ∈ [sampleHeader], ValidDatagram d := by
    intro d hd
    rwa [List.mem_singleton.mp hd]
  refine ⟨hvalid, ?_⟩
  obtain ⟨-, f, hf, hpos⟩ := replaying_start ⟨0#32, 0#16⟩ 0 hds
  obtain ⟨m, hfill⟩ := @fillMsg_headerOnly .little
    (Client.replay ⟨0#32, 0#16⟩ 0 [sampleHeader]).msgbuf _ f _ (by decide) hds hpos (by decide)
  obtain ⟨c, hp, -, hsent, hnone⟩ := pass_quiet rfl (hf ▸ hfill)
  have hlen : c.sent.map (fun q => q.bytes.length) = [232] := by
    rw [hsent]
    change [(m.read 0 (sizeofMsgHdr + sizeofPositionMsg)).length] = _
    rw [Mem.read_length]
    rfl
  have hone : c.sent.length = 1 := by
    rw [← List.length_map (fun q : Packet => q.bytes.length), hlen]
    rfl
  refine ⟨c, runs_cons.mpr ⟨c, hp, runs_nil⟩, hnone, hlen, ?_⟩
  intro hrep
  have hlens := congrArg (List.map Prod.fst) hrep
  rw [List.map_map, List.map_map] at hlens
  change c.sent.map (fun q => q.bytes.length) = _ at hlens
  rw [hlen, hone] at hlens
  exact absurd hlens (by decide)

end TcpTests.Mpclient
