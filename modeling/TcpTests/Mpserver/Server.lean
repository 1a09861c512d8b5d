import TcpTests.Lib.Machine
import TcpTests.Net.Datagram
import TcpTests.Fgmp.Properties
import TcpTests.Mpserver.RawFile

/-! The receive loop of `mpserver`: `run_udpserver` with `check_key`. One input of the
machine is one pass of the loop. The receive buffer `msgbuf` is a static object that is
never cleared, so a pass starts from the bytes that earlier passes left in it. -/
namespace TcpTests.Mpserver
open Lib Net Fgmp

/-- A client of the map, `struct tagMP`. -/
structure MP where
  id : ℕ
  clientaddr : SockaddrIn
  deriving DecidableEq, Repr

/-- What the keyboard changes. -/
structure Settings where
  verbosity : ℕ
  isPaused : Bool
  mDelayTime : ℕ
  deriving DecidableEq, Repr

/-- The new settings, and whether the exit key was pressed. No key is character 0. -/
def checkKey (s : Settings) (chr : Char) : Settings × Bool :=
  if chr = '\x1b' then (s, true)
  else if chr = 'p' then ({ s with isPaused := !s.isPaused }, false)
  else if chr = 't' then
    ({ s with mDelayTime := if s.mDelayTime > 10 then s.mDelayTime - 10 else 0 }, false)
  else if chr = 'T' then ({ s with mDelayTime := s.mDelayTime + 10 }, false)
  else if chr ∈ ['0', '1', '2', '5', '9'] then
    ({ s with verbosity := chr.toNat - '0'.toNat }, false)
  else (s, false)

theorem checkKey_exit (s : Settings) (chr : Char) :
    (checkKey s chr).2 = true ↔ chr = '\x1b' := by
  unfold checkKey
  split_ifs with hesc <;> simp [hesc]

structure MsgFields where
  magic : Word
  version : Word
  msgId : Word
  msgLen : Word
  deriving DecidableEq, Repr

def decodeHeader (h : Endian) (m : Mem) : MsgFields where
  magic := xdrDecodeUint32 h (loadWord h m offMagic)
  version := xdrDecodeUint32 h (loadWord h m offVersion)
  msgId := xdrDecodeUint32 h (loadWord h m offMsgId)
  msgLen := xdrDecodeUint32 h (loadWord h m offMsgLen)

/-- The callsign is cut to seven characters and `MsgLen` put in host order, in place. -/
def rewriteHeader (h : Endian) (m : Mem) (msgLen : Word) : Mem :=
  storeWord h (m.write (offCallsign + maxCallsignLen - 1) [0]) offMsgLen msgLen

section
variable {h : Endian} {m : Mem}

@[simp] theorem decodeHeader_magic : (decodeHeader h m).magic = beWord m offMagic :=
  swap32_loadWord h m _

@[simp] theorem decodeHeader_version : (decodeHeader h m).version = beWord m offVersion :=
  swap32_loadWord h m _

@[simp] theorem decodeHeader_msgId : (decodeHeader h m).msgId = beWord m offMsgId :=
  swap32_loadWord h m _

@[simp] theorem decodeHeader_msgLen : (decodeHeader h m).msgLen = beWord m offMsgLen :=
  swap32_loadWord h m _

theorem rewriteHeader_other (h : Endian) (m : Mem) (msgLen : Word) {a : ℕ}
    (hlen : a < offMsgLen ∨ offReplyAddress ≤ a) (hcs : a ≠ offCallsign + maxCallsignLen - 1) :
    rewriteHeader h m msgLen a = m a := by
  simp only [offMsgLen, offReplyAddress, offCallsign, maxCallsignLen] at hlen hcs
  unfold rewriteHeader storeWord
  have hinner : m.write (offCallsign + maxCallsignLen - 1) [0] a = m a := by
    simp only [offCallsign, maxCallsignLen]
    rcases (by omega : a < 31 ∨ 31 + 1 ≤ a) with hl | hl
    · exact Mem.write_lt m _ (by omega)
    · exact Mem.write_ge m _ (by rw [List.length_singleton]; omega)
  rw [← hinner]
  rcases hlen with hl | hl
  · exact Mem.write_lt _ _ (by simp only [offMsgLen]; omega)
  · exact Mem.write_ge _ _ (by simp only [offMsgLen, wordBytes_length]; omega)

theorem rewriteHeader_callsignEnd (h : Endian) (m : Mem) (msgLen : Word) :
    rewriteHeader h m msgLen (offCallsign + maxCallsignLen - 1) = 0 := by
  unfold rewriteHeader storeWord
  rw [Mem.write_ge _ _ (by simp), Mem.write_mem _ _ (by simp) (by simp)]
  simp

theorem rewriteHeader_msgLen (h : Endian) (m : Mem) (msgLen : Word) :
    loadWord h (rewriteHeader h m msgLen) offMsgLen = msgLen :=
  loadWord_storeWord h _ _ _

end

/-- The branches a datagram can take. A position message has the return value of
`ProcessPosMsg`, the properties decoded and the callsign in the header. -/
inductive Treatment
  | badMagic
  | badVersion
  | badLength
  | chat
  | posData (iret : ℕ) (properties : List FGPropertyData) (callsign : List Byte)
  | obsolete
  | unknown
  deriving DecidableEq, Repr

/-- The tests and the switch, on the buffer as received. -/
def treatMsg (h : Endian) (m : Mem) (rlen : ℕ) : Mem × Treatment :=
  let hdr := decodeHeader h m
  let m := rewriteHeader h m hdr.msgLen
  (m,
    if hdr.magic ≠ msgMagic ∧ hdr.magic ≠ relayMagic then .badMagic
    else if hdr.version ≠ protoVer then .badVersion
    else if hdr.msgLen ≠ BitVec.ofNat 32 rlen then .badLength
    else if hdr.msgId = chatMsgId then .chat
    else if hdr.msgId = posDataId then
      .posData (processPosMsg h m).1 (processPosMsg h m).2 (m.cstr offCallsign maxCallsignLen)
    else if hdr.msgId = unusablePosDataId ∨ hdr.msgId = oldOldPosDataId ∨
        hdr.msgId = oldPropMsgId ∨ hdr.msgId = oldPosDataId then .obsolete
    else .unknown)

/-- The message passed the tests of magic number, version and length. -/
def Treatment.Passes : Treatment → Prop
  | .badMagic | .badVersion | .badLength => False
  | _ => True

theorem treatMsg_passes {h : Endian} {m : Mem} {rlen : ℕ} :
    (treatMsg h m rlen).2.Passes ↔
      (beWord m offMagic = msgMagic ∨ beWord m offMagic = relayMagic) ∧
        beWord m offVersion = protoVer ∧ beWord m offMsgLen = BitVec.ofNat 32 rlen := by
  unfold treatMsg
  simp only [decodeHeader_magic, decodeHeader_version, decodeHeader_msgLen]
  by_cases hmagic : beWord m offMagic = msgMagic ∨ beWord m offMagic = relayMagic
  · have hmagic' : ¬ (beWord m offMagic ≠ msgMagic ∧ beWord m offMagic ≠ relayMagic) := by
      rw [← not_or]
      exact not_not_intro hmagic
    rw [if_neg hmagic']
    by_cases hversion : beWord m offVersion = protoVer
    · rw [if_neg (not_not_intro hversion)]
      by_cases hlen : beWord m offMsgLen = BitVec.ofNat 32 rlen
      · rw [if_neg (not_not_intro hlen)]
        refine iff_of_true ?_ ⟨hmagic, hversion, hlen⟩
        split_ifs <;> trivial
      · rw [if_pos hlen]
        exact iff_of_false id fun h => hlen h.2.2
    · rw [if_pos hversion]
      exact iff_of_false id fun h => hversion h.2.1
  · rw [if_pos (not_or.mp hmagic)]
    exact iff_of_false id fun h => hmagic h.1

structure Server where
  msgbuf : Mem
  mMPMap : List (List Byte × MP)
  clientId : ℕ
  totalClients : ℕ
  fTempRaw : RawFile
  settings : Settings
  running : Bool
  iret : ℕ

def Server.start (settings : Settings) (fopened : Bool) : Server where
  msgbuf := fun _ => 0
  mMPMap := []
  clientId := 0
  totalClients := 0
  fTempRaw := ⟨[], fopened⟩
  settings := settings
  running := true
  iret := 0

/-- One pass of the loop: the key pressed at its head, what `recvfrom` yields, how much the
capture file takes, and the key pressed after a rejected message. -/
structure Pass where
  key : Char
  recv : Recv
  disk : Disk
  rejectKey : Char

/-- The entry a valid message leaves in the map: a known callsign keeps its own. -/
def Server.register (s : Server) (callsign : List Byte) (clientaddr : SockaddrIn) : Server :=
  if s.mMPMap.any (·.1 = callsign) then s
  else
    { s with
      clientId := s.clientId + 1
      mMPMap := s.mMPMap ++ [(callsign, ⟨s.clientId + 1, clientaddr⟩)]
      totalClients := s.totalClients + 1 }

/-- The capture file and the buffer after a datagram. -/
def Server.receive (s : Server) (bytes : List Byte) (disk : Disk) : Server :=
  { s with
    msgbuf := s.msgbuf.write 0 (received maxPacketSize bytes)
    fTempRaw := writeRawData s.fTempRaw (received maxPacketSize bytes) disk }

def Server.treatment (h : Endian) (s : Server) (bytes : List Byte) : Treatment :=
  let bytes := received maxPacketSize bytes
  (treatMsg h (s.msgbuf.write 0 bytes) bytes.length).2

/-- A key pressed at one of the calls of `check_key`. -/
def Server.key (s : Server) (chr : Char) : Server :=
  { s with settings := (checkKey s.settings chr).1 }

/-- From the arrival of a datagram to the end of the pass. After an invalid entry the `break`
of the exit key leaves the switch only. -/
def Server.datagram (h : Endian) (s : Server) (clientaddr : SockaddrIn) (bytes : List Byte)
    (disk : Disk) (rejectKey : Char) : Server :=
  let s := s.receive bytes disk
  let r := treatMsg h s.msgbuf (received maxPacketSize bytes).length
  let s := { s with msgbuf := r.1 }
  match r.2 with
  | .badMagic | .badVersion | .badLength =>
    { s.key rejectKey with running := !(checkKey s.settings rejectKey).2 }
  | .posData iret _ callsign =>
    if iret ≠ 0 then s.key rejectKey else s.register callsign clientaddr
  | .chat | .obsolete | .unknown => s

def pass (h : Endian) (s : Server) (p : Pass) : Option Server :=
  if !s.running then none
  else if (checkKey s.settings p.key).2 then some { s with running := false }
  else
    let s := s.key p.key
    match p.recv with
    | .again => some s
    | .failed => some { s with iret := 1, running := false }
    | .datagram clientaddr bytes => some (s.datagram h clientaddr bytes p.disk p.rejectKey)

section
variable {h : Endian} {s t : Server} {clientaddr : SockaddrIn} {bytes : List Byte} {disk : Disk}
  {rejectKey : Char} {p : Pass}

/-- The clients a position message leaves in the map. -/
def enter (clients : List (List Byte × MP)) (callsign : List Byte) (clientaddr : SockaddrIn) :
    List (List Byte × MP) :=
  if clients.any (·.1 = callsign) then clients
  else clients ++ [(callsign, ⟨clients.length + 1, clientaddr⟩)]

def enterTreated (clients : List (List Byte × MP)) (clientaddr : SockaddrIn) :
    Treatment → List (List Byte × MP)
  | .posData 0 _ callsign => enter clients callsign clientaddr
  | _ => clients

structure Server.Counted (s : Server) : Prop where
  clientId : s.clientId = s.mMPMap.length
  totalClients : s.totalClients = s.mMPMap.length

theorem Server.Counted.register (hs : s.Counted) (callsign : List Byte)
    (clientaddr : SockaddrIn) : (s.register callsign clientaddr).Counted := by
  obtain ⟨hid, htotal⟩ := hs
  unfold Server.register
  split_ifs with hc
  · exact ⟨hid, htotal⟩
  · exact ⟨by simp [hid], by simp [htotal]⟩

theorem register_mMPMap (hs : s.Counted) (callsign : List Byte) :
    (s.register callsign clientaddr).mMPMap = enter s.mMPMap callsign clientaddr := by
  unfold Server.register enter
  split_ifs with hc
  · rfl
  · simp only [hs.clientId]

/-- What a datagram does to the clients and to the counters depends on its treatment only. -/
theorem datagram_clients (hs : s.Counted) :
    (s.datagram h clientaddr bytes disk rejectKey).Counted ∧
      (s.datagram h clientaddr bytes disk rejectKey).mMPMap =
        enterTreated s.mMPMap clientaddr (s.treatment h bytes) := by
  have hcounted : ∀ m : Mem, ∀ f : RawFile,
      Server.Counted { s with msgbuf := m, fTempRaw := f } :=
    fun _ _ => ⟨hs.clientId, hs.totalClients⟩
  unfold Server.datagram Server.treatment Server.receive
  dsimp only
  generalize treatMsg h (s.msgbuf.write 0 (received maxPacketSize bytes))
    (received maxPacketSize bytes).length = r
  obtain ⟨m, treatment⟩ := r
  dsimp only
  cases treatment with
  | badMagic => exact ⟨⟨hs.clientId, hs.totalClients⟩, rfl⟩
  | badVersion => exact ⟨⟨hs.clientId, hs.totalClients⟩, rfl⟩
  | badLength => exact ⟨⟨hs.clientId, hs.totalClients⟩, rfl⟩
  | chat => exact ⟨⟨hs.clientId, hs.totalClients⟩, rfl⟩
  | obsolete => exact ⟨⟨hs.clientId, hs.totalClients⟩, rfl⟩
  | unknown => exact ⟨⟨hs.clientId, hs.totalClients⟩, rfl⟩
  | posData iret properties callsign =>
    cases iret with
    | zero =>
      simp only [ne_eq, not_true_eq_false, if_false]
      exact ⟨(hcounted _ _).register _ _, register_mMPMap (hcounted _ _) _⟩
    | succ n => exact ⟨⟨hs.clientId, hs.totalClients⟩, rfl⟩

theorem pass_counted (hs : s.Counted) (hp : pass h s p = some t) : t.Counted := by
  unfold pass at hp
  split_ifs at hp with hrun hkey
  · cases hp
    exact ⟨hs.clientId, hs.totalClients⟩
  · have hk : (s.key p.key).Counted := ⟨hs.clientId, hs.totalClients⟩
    dsimp only at hp
    split at hp
    · cases hp
      exact hk
    · cases hp
      exact ⟨hk.clientId, hk.totalClients⟩
    · cases hp
      exact (datagram_clients hk).1

end

/-- The states `run_udpserver` can be in at the head of its loop. -/
def Server.Reachable (h : Endian) (s : Server) : Prop :=
  ∃ settings fopened passes, runs (pass h) (.start settings fopened) passes = some s

theorem Server.Reachable.counted {h : Endian} {s : Server} (hs : s.Reachable h) : s.Counted := by
  obtain ⟨settings, fopened, passes, hr⟩ := hs
  exact runs_invariant Server.Counted (fun _ _ _ hs hp => pass_counted hs hp) ⟨rfl, rfl⟩ hr

end TcpTests.Mpserver
