import TcpTests.FgmpMsg.Reader
import TcpTests.Mpclient.Header
import TcpTests.Mpclient.Replay

/-! A capture on its way through the three programs: `mpclient` replays it, `mpserver` writes what
it hears of the replay to a capture of its own, and `mpclient` or `test_fgmp_message` reads that
one. The network in between may lose, repeat and reorder the packets. -/
namespace TcpTests.Mpclient
open Lib Net Fgmp Mpserver

/-- A datagram with the header that the client puts before its payload. -/
def reheaded (d : List Byte) : List Byte :=
  headerWire posDataId (BitVec.ofNat 32 d.length) ++ (testMsg ++ [0]) ++ d.drop sizeofMsgHdr

section
variable {d bytes : List Byte}

theorem reheaded_congr (h : payload bytes = payload d) : reheaded bytes = reheaded d := by
  obtain ⟨hlen, hdrop⟩ := Prod.mk.inj h
  rw [reheaded, hlen, hdrop]
  rfl

theorem PositionPacket.reheaded_eq (hb : PositionPacket bytes) : reheaded bytes = bytes := by
  obtain ⟨m, hheader, hread, hlo, -⟩ := hb
  have hhdr : bytes.take sizeofMsgHdr =
      headerWire posDataId (BitVec.ofNat 32 bytes.length) ++ (testMsg ++ [0]) := by
    have hall : bytes.take sizeofMsgHdr = m.read 0 (24 + 8) := by
      conv => enter [1, 2]; rw [hread]
      exact Mem.read_take m 0 _ _ hlo
    rw [hall, Mem.read_add, hheader.words]
    exact congrArg _ hheader.callsign
  rw [reheaded, ← hhdr, List.take_append_drop]

theorem PositionPacket.valid (hb : PositionPacket bytes) : ValidDatagram bytes := by
  obtain ⟨m, hheader, hread, hlo, hhi⟩ := hb
  have hcarried : HoldsHeader (carried bytes) posDataId (BitVec.ofNat 32 bytes.length) testMsg := by
    unfold carried
    conv => enter [1]; rw [hread]
    exact hheader.received (by decide) hlo
  have hdec : decodeHeader .big (carried bytes) = _ := hcarried.decode
  have hmagic := congrArg MsgFields.magic hdec
  have hversion := congrArg MsgFields.version hdec
  have hlen := congrArg MsgFields.msgLen hdec
  rw [decodeHeader_magic] at hmagic
  rw [decodeHeader_version] at hversion
  rw [decodeHeader_msgLen] at hlen
  exact ⟨hlo, hhi, Or.inl hmagic, hversion, hlen⟩

end

theorem Replaying.bytes {ds : List (List Byte)} {c : Client} (hc : Replaying ds c)
    (hpackets : ∀ q ∈ c.sent, PositionPacket q.bytes) :
    c.sent.map (·.bytes) = (List.range c.sent.length).map fun k => reheaded (replayed ds k) := by
  have hsent := hc.sent
  unfold Replays at hsent
  apply List.ext_getElem
  · simp
  intro k hk hk'
  rw [List.length_map] at hk
  have hpayload : payload (c.sent[k]).bytes = payload (replayed ds k) := by
    have hget := congrArg (fun l => l[k]?) hsent
    simpa [hk] using hget
  rw [List.getElem_map, List.getElem_map, List.getElem_range,
    ← (hpackets _ (List.getElem_mem hk)).reheaded_eq]
  exact reheaded_congr hpayload

end TcpTests.Mpclient

namespace TcpTests.Mpserver
open Lib Net Fgmp

/-- What the server hears in a pass, unless the exit key is pressed before. -/
def Pass.heard (p : Pass) : Option (List Byte) :=
  if p.key = '\x1b' then none
  else
    match p.recv with
    | .datagram _ bytes => some (received maxPacketSize bytes)
    | _ => none

/-- The disk takes all of the datagram and of its padding. -/
def Pass.TakesAll (p : Pass) : Prop := ∀ bytes ∈ p.heard, p.disk.TakesAll bytes.length

section
variable {h : Endian} {s t : Server} {p : Pass} {passes : List Pass}

theorem datagram_fTempRaw (h : Endian) (s : Server) (clientaddr : SockaddrIn) (bytes : List Byte)
    (disk : Disk) (rejectKey : Char) :
    (s.datagram h clientaddr bytes disk rejectKey).fTempRaw =
      writeRawData s.fTempRaw (received maxPacketSize bytes) disk := by
  unfold Server.datagram
  dsimp only
  split
  · rfl
  · rfl
  · rfl
  · split_ifs
    · rfl
    · unfold Server.register
      split_ifs
      · rfl
      · rfl
  · rfl
  · rfl
  · rfl

/-- One pass writes the record of what it hears, whether the message is accepted or not. -/
theorem pass_fTempRaw (hs : s.fTempRaw.isOpen = true) (hp : pass h s p = some t)
    (hne : [] ∉ p.heard) (hdisk : p.TakesAll) :
    t.fTempRaw = ⟨s.fTempRaw.content ++ p.heard.toList.flatMap rawRecord, true⟩ := by
  have hself : s.fTempRaw = ⟨s.fTempRaw.content ++ [], true⟩ := by
    rw [List.append_nil, ← hs]
  unfold Pass.TakesAll at hdisk
  unfold pass at hp
  unfold Pass.heard at hne hdisk ⊢
  by_cases hkey : p.key = '\x1b'
  · rw [if_pos hkey]
    rw [if_pos ((checkKey_exit s.settings p.key).mpr hkey)] at hp
    split_ifs at hp
    cases hp
    exact hself
  · rw [if_neg hkey] at hne hdisk ⊢
    rw [if_neg (mt (checkKey_exit s.settings p.key).mp hkey)] at hp
    split_ifs at hp
    dsimp only at hp
    cases hrecv : p.recv with
    | again =>
      rw [hrecv] at hp
      cases hp
      exact hself
    | failed =>
      rw [hrecv] at hp
      cases hp
      exact hself
    | datagram addr bytes =>
      rw [hrecv] at hp hne hdisk
      cases hp
      have hbytes : received maxPacketSize bytes ≠ [] := fun h => hne (congrArg some h)
      rw [datagram_fTempRaw]
      exact (writeRawData_takesAll hs hbytes (hdisk _ rfl)).trans (by simp)

theorem runs_fTempRaw (hs : s.fTempRaw.isOpen = true) (hr : runs (pass h) s passes = some t)
    (hne : [] ∉ passes.filterMap Pass.heard) (hdisk : ∀ p ∈ passes, p.TakesAll) :
    t.fTempRaw =
      ⟨s.fTempRaw.content ++ (passes.filterMap Pass.heard).flatMap rawRecord, true⟩ := by
  induction passes generalizing s with
  | nil =>
    cases hr
    rw [List.filterMap_nil, List.flatMap_nil, List.append_nil, ← hs]
  | cons p passes ih =>
    obtain ⟨u, hu, hr⟩ := runs_cons.mp hr
    have hsplit : (p :: passes).filterMap Pass.heard =
        p.heard.toList ++ passes.filterMap Pass.heard := filterMap_cons_toList _ p passes
    rw [hsplit, List.mem_append, not_or] at hne
    have hraw := pass_fTempRaw hs hu (fun h => hne.1 (by simpa using h)) (hdisk p (by simp))
    have hopen : u.fTempRaw.isOpen = true := by rw [hraw]
    rw [ih hopen hr hne.2 fun q hq => hdisk q (by simp [hq]), hraw, hsplit, List.flatMap_append,
      List.append_assoc]

end

end TcpTests.Mpserver

namespace TcpTests.Mpclient
open Lib Net Fgmp Mpserver FgmpMsg

section
variable {hs hc : Endian} {ds heard : List (List Byte)} {c : Client} {s : Server}
  {serveraddr : SockaddrIn} {verbosity : ℕ} {settings : Settings} {passes : List Pass}
  {spasses : List Mpserver.Pass}

theorem replaying_runs (hne : ds ≠ []) (hds : ∀ d ∈ ds, ValidDatagram d)
    (hlen : ∀ d ∈ ds, d.length ≠ sizeofMsgHdr)
    (hr : runs (pass hc) (.start serveraddr verbosity (some (.opened (ds.flatMap rawRecord))))
      passes = some c) : Replaying ds c := by
  rw [← capture_content hds] at hr
  exact runs_invariant (Replaying ds) (fun _ _ _ hc hp => pass_replaying hne hds hlen hc hp)
    (replaying_start serveraddr verbosity hds) hr

theorem Replaying.lengths (hne : ds ≠ []) (hlen : ∀ d ∈ ds, d.length ≠ sizeofMsgHdr)
    (hc : Replaying ds c) : ∀ q ∈ c.sent, q.bytes.length ≠ sizeofMsgHdr := by
  intro q hq
  have hmem : payload q.bytes ∈ c.sent.map fun q => payload q.bytes := List.mem_map_of_mem hq
  rw [hc.sent] at hmem
  obtain ⟨k, -, hk⟩ := List.mem_map.mp hmem
  have hlength : (replayed ds k).length = q.bytes.length := congrArg Prod.fst hk
  rw [← hlength]
  exact hlen _ (replayed_mem hne k)

end

/-- Whatever the network loses, repeats or reorders of a replay, the server's capture is the
records of what it heard; `test_fgmp_message` reads them back from it, and a client that replays
it sends them as they are. What it heard are the datagrams of the first capture with the header
of the client. -/
theorem replay_recapture (hc hs : Endian) (serveraddr : SockaddrIn) (verbosity : ℕ)
    (ds : List (List Byte)) (passes : List Pass) (c : Client) (settings : Settings)
    (spasses : List Mpserver.Pass) (s : Server) (hne : ds ≠ [])
    (hds : ∀ d ∈ ds, ValidDatagram d) (hlen : ∀ d ∈ ds, d.length ≠ sizeofMsgHdr)
    (hclient : runs (pass hc) (.replay serveraddr verbosity ds) passes = some c)
    (hserver : runs (Mpserver.pass hs) (.start settings true) spasses = some s)
    (hdisk : ∀ p ∈ spasses, p.TakesAll)
    (hnet : ∀ bytes ∈ spasses.filterMap Mpserver.Pass.heard, ∃ q ∈ c.sent, q.bytes = bytes) :
    let heard := spasses.filterMap Mpserver.Pass.heard
    c.sent.map (·.bytes) =
        (List.range c.sent.length).map (fun k => reheaded (replayed ds k)) ∧
      s.fTempRaw = ⟨heard.flatMap rawRecord, true⟩ ∧
      (∀ (h : Endian) (processPosMsg : ℕ → Mem → Bool) (m : Mem),
        ∃ r, (Reader.start m (.opened s.fTempRaw.content)).loop h processPosMsg =
            some (.noHeader, r) ∧ r.messages = heard.map (decoded h)) ∧
      ∀ (h : Endian) (serveraddr' : SockaddrIn) (verbosity' : ℕ) (passes' : List Pass)
        (c' : Client), heard ≠ [] →
        runs (pass h) (.start serveraddr' verbosity' (some (.opened s.fTempRaw.content))) passes' =
            some c' →
          c'.sent.map (·.bytes) = (List.range c'.sent.length).map (replayed heard) := by
  dsimp only
  have hreplay : Replaying ds c := runs_invariant (Replaying ds)
    (fun _ _ _ hc hp => pass_replaying hne hds hlen hc hp)
    (replaying_start serveraddr verbosity hds) hclient
  have hpackets : ∀ q ∈ c.sent, PositionPacket q.bytes :=
    Client.Reachable.packets ⟨_, _, _, _, hclient⟩
  have hheard : ∀ bytes ∈ spasses.filterMap Mpserver.Pass.heard,
      PositionPacket bytes ∧ bytes.length ≠ sizeofMsgHdr := by
    intro bytes hb
    obtain ⟨q, hq, rfl⟩ := hnet bytes hb
    exact ⟨hpackets q hq, hreplay.lengths hne hlen q hq⟩
  have hvalid : ∀ d ∈ spasses.filterMap Mpserver.Pass.heard, ValidDatagram d :=
    fun d hd => (hheard d hd).1.valid
  have hraw : s.fTempRaw = ⟨(spasses.filterMap Mpserver.Pass.heard).flatMap rawRecord, true⟩ :=
    runs_fTempRaw rfl hserver (fun hnil => (hvalid _ hnil).ne_nil rfl) hdisk
  refine ⟨hreplay.bytes hpackets, hraw, ?_, ?_⟩
  · intro h processPosMsg m
    have hat : (Reader.start m (.opened s.fTempRaw.content)).file.At
        ((spasses.filterMap Mpserver.Pass.heard).flatMap rawRecord) := by
      rw [hraw]
      exact Stream.at_opened _
    obtain ⟨r, hloop, -, hcounts⟩ := @loop_records h processPosMsg _ _ hvalid hat
    refine ⟨r, hloop, ?_⟩
    rw [hcounts.messages]
    rfl
  · intro h serveraddr' verbosity' passes' c' hsome hr
    rw [hraw] at hr
    have hagain := replaying_runs hsome hvalid (fun d hd => (hheard d hd).2) hr
    rw [hagain.bytes (Client.Reachable.packets ⟨_, _, _, _, hr⟩)]
    apply List.map_congr_left
    intro k _
    exact (hheard _ (replayed_mem hsome k)).1.reheaded_eq

/-- A server that hears one packet, after it was lost once. -/
def samplePasses (packet : List Byte) : List Mpserver.Pass :=
  [⟨'\x00', .again, ⟨0, 0⟩, '\x00'⟩,
    ⟨'\x00', .datagram ⟨0#32, 0#16⟩ packet, ⟨1200, 1232⟩, '\x00'⟩]

theorem replay_recapture_sample :
    ∃ (c : Client) (s : Server) (packet : List Byte),
      runs (pass .little) (.replay ⟨0#32, 0#16⟩ 0 [sampleMessage]) [quietPass] = some c ∧
      runs (Mpserver.pass .big) (.start ⟨0, false, 0⟩ true) (samplePasses packet) = some s ∧
      c.sent.map (·.bytes) = [reheaded sampleMessage] ∧
      s.fTempRaw = ⟨rawRecord packet, true⟩ := by
  obtain ⟨-, f, hf, hpos⟩ := replaying_start ⟨0#32, 0#16⟩ 0 sampleMessage_valid
  obtain ⟨m, g, hfill, -, -⟩ := @fillMsg_position .little
    (Client.replay ⟨0#32, 0#16⟩ 0 [sampleMessage]).msgbuf _ f _ (by decide) sampleMessage_valid
    hpos (by decide)
  obtain ⟨c, hp, -, hsent, -⟩ := pass_quiet rfl (hf ▸ hfill)
  have hr := runs_cons.mpr ⟨c, hp, runs_nil⟩
  have hone : ∃ q, c.sent = [q] := ⟨_, hsent⟩
  obtain ⟨q, hq⟩ := hone
  have hmem : q ∈ c.sent := by
    rw [hq]
    exact List.mem_singleton_self q
  obtain ⟨-, -, -, -, hhi⟩ := Client.Reachable.packets ⟨_, _, _, _, hr⟩ q hmem
  have hrecv : received maxPacketSize q.bytes = q.bytes := received_of_le hhi
  have hheard : (samplePasses q.bytes).filterMap Mpserver.Pass.heard = [q.bytes] :=
    congrArg (fun bytes => [bytes]) hrecv
  have hdisk : ∀ p ∈ samplePasses q.bytes, p.TakesAll := by
    intro p hp bytes hb
    rcases List.mem_pair.mp hp with rfl | rfl
    · cases hb
    · cases hb
      rw [hrecv]
      exact ⟨hhi, Nat.add_le_add_right hhi 32⟩
  have hnet : ∀ bytes ∈ (samplePasses q.bytes).filterMap Mpserver.Pass.heard,
      ∃ q ∈ c.sent, q.bytes = bytes := by
    rw [hheard]
    intro bytes hb
    exact ⟨q, hmem, (List.mem_singleton.mp hb).symm⟩
  obtain ⟨hbytes, hraw, -, -⟩ := replay_recapture .little .big ⟨0#32, 0#16⟩ 0 [sampleMessage]
    [quietPass] c ⟨0, false, 0⟩ (samplePasses q.bytes) _ (by decide) sampleMessage_valid
    (by decide) hr rfl hdisk hnet
  refine ⟨c, _, q.bytes, hr, rfl, ?_, ?_⟩
  · rw [hbytes, hq]
    rfl
  · rw [hraw, hheard]
    simp

end TcpTests.Mpclient
