import TcpTests.Mpserver.Noninterference

/-! The clients of `mpserver` as a function of the position messages it accepted. -/
namespace TcpTests.Mpserver
open Lib Net Fgmp

/-- The buffer holds an accepted message: it passes the tests of magic number, version and
length, is a position message, and `ProcessPosMsg` returns 0. -/
def Accepted (h : Endian) (m : Mem) (rlen : ℕ) : Prop :=
  (beWord m offMagic = msgMagic ∨ beWord m offMagic = relayMagic) ∧
    beWord m offVersion = protoVer ∧ beWord m offMsgLen = BitVec.ofNat 32 rlen ∧
    beWord m offMsgId = posDataId ∧
    (processPosMsg h (rewriteHeader h m (beWord m offMsgLen))).1 = 0

instance (h : Endian) (m : Mem) (rlen : ℕ) : Decidable (Accepted h m rlen) :=
  inferInstanceAs (Decidable (_ ∧ _))

/-- The callsign in the buffer, cut to seven characters. -/
def callsign (h : Endian) (m : Mem) : List Byte :=
  (rewriteHeader h m (beWord m offMsgLen)).cstr offCallsign maxCallsignLen

/-- The callsign and the source address of the datagram that a pass accepts, if it accepts
one. -/
def Server.accepts (h : Endian) (s : Server) (p : Pass) : List (List Byte × SockaddrIn) :=
  match p.recv with
  | .datagram clientaddr bytes =>
    let m := s.msgbuf.write 0 (received maxPacketSize bytes)
    if ¬ (checkKey s.settings p.key).2 ∧ Accepted h m (received maxPacketSize bytes).length then
      [(callsign h m, clientaddr)]
    else []
  | .again | .failed => []

/-- The clients after the messages accepted so far: an entry for each callsign in the order of
its first message, with that message's address, numbered from 1. -/
structure Registers (clients : List (List Byte × MP)) (acc : List (List Byte × SockaddrIn)) :
    Prop where
  nodup : (clients.map Prod.fst).Nodup
  callsigns : clients.map Prod.fst = (acc.map Prod.fst).eraseDups
  clientaddr : ∀ c ∈ clients, (acc.find? (·.1 = c.1)).map Prod.snd = some c.2.clientaddr
  ids : clients.map (·.2.id) = List.range' 1 clients.length

section
variable {h : Endian} {m : Mem} {rlen : ℕ} {s t : Server} {p : Pass}
  {clients : List (List Byte × MP)} {acc : List (List Byte × SockaddrIn)}
  {a : List Byte × SockaddrIn}

/-- Of the branches of the switch only that of an accepted message enters a client. -/
theorem enterTreated_treatMsg (clientaddr : SockaddrIn) :
    enterTreated clients clientaddr (treatMsg h m rlen).2 =
      if Accepted h m rlen then enter clients (callsign h m) clientaddr else clients := by
  by_cases hp : (treatMsg h m rlen).2.Passes
  · obtain ⟨hmagic, hversion, hlen⟩ := treatMsg_passes.mp hp
    have hmagic' : ¬ (beWord m offMagic ≠ msgMagic ∧ beWord m offMagic ≠ relayMagic) := by
      rw [← not_or]
      exact not_not_intro hmagic
    unfold treatMsg
    simp only [decodeHeader_magic, decodeHeader_version, decodeHeader_msgLen, decodeHeader_msgId]
    rw [if_neg hmagic', if_neg (not_not_intro hversion), if_neg (not_not_intro hlen)]
    by_cases hid : beWord m offMsgId = posDataId
    · have hchat : beWord m offMsgId ≠ chatMsgId := by
        rw [hid]
        decide
      rw [if_neg hchat, if_pos hid]
      cases hret : (processPosMsg h (rewriteHeader h m (beWord m offMsgLen))).1 with
      | zero =>
        have hacc : Accepted h m rlen := ⟨hmagic, hversion, hlen, hid, hret⟩
        rw [if_pos hacc]
        rfl
      | succ n =>
        have hacc : ¬ Accepted h m rlen := fun hacc => by cases hret.symm.trans hacc.2.2.2.2
        rw [if_neg hacc]
        rfl
    · have hacc : ¬ Accepted h m rlen := fun hacc => hid hacc.2.2.2.1
      rw [if_neg hacc, if_neg hid]
      split_ifs <;> rfl
  · have hacc : ¬ Accepted h m rlen :=
      fun hacc => hp (treatMsg_passes.mpr ⟨hacc.1, hacc.2.1, hacc.2.2.1⟩)
    rw [if_neg hacc]
    revert hp
    cases (treatMsg h m rlen).2 with
    | badMagic | badVersion | badLength => exact fun _ => rfl
    | chat | posData | obsolete | unknown => exact fun hp => absurd trivial hp

theorem Registers.nil : Registers [] [] := ⟨List.nodup_nil, rfl, by simp, rfl⟩

/-- An accepted message whose callsign is known changes nothing, another one is entered. -/
theorem Registers.enter (hc : Registers clients acc) (a : List Byte × SockaddrIn) :
    Registers (enter clients a.1 a.2) (acc ++ [a]) := by
  have hmem : clients.any (·.1 = a.1) = true ↔ a.1 ∈ acc.map Prod.fst := by
    rw [← List.mem_eraseDups, ← hc.callsigns]
    simp
  have hkeep : ∀ c ∈ clients,
      ((acc ++ [a]).find? (·.1 = c.1)).map Prod.snd = some c.2.clientaddr := by
    intro c hcl
    have hfound := hc.clientaddr c hcl
    obtain ⟨b, hb, -⟩ := Option.map_eq_some_iff.mp hfound
    rw [List.find?_append, hb, Option.some_or, ← hb]
    exact hfound
  unfold Mpserver.enter
  by_cases hknown : clients.any (·.1 = a.1) = true
  · rw [if_pos hknown]
    refine ⟨hc.nodup, ?_, hkeep, hc.ids⟩
    have hremove : [a.1].removeAll (acc.map Prod.fst) = [] := by
      simpa [List.removeAll] using hmem.mp hknown
    rw [List.map_append, List.eraseDups_append, List.map_singleton, hremove, List.eraseDups_nil,
      List.append_nil]
    exact hc.callsigns
  · have hnew : a.1 ∉ acc.map Prod.fst := fun hin => hknown (hmem.mpr hin)
    rw [if_neg hknown]
    constructor
    · rw [List.map_append, List.nodup_append]
      refine ⟨hc.nodup, List.nodup_singleton _, ?_⟩
      rintro c hcl _ hlast rfl
      rw [List.mem_singleton.mp hlast] at hcl
      exact hknown (hmem.mpr (List.mem_eraseDups.mp (hc.callsigns ▸ hcl)))
    · have hremove : [a.1].removeAll (acc.map Prod.fst) = [a.1] := by
        simpa [List.removeAll] using hnew
      rw [List.map_append, List.map_append, List.eraseDups_append, List.map_singleton,
        List.map_singleton, hremove, hc.callsigns]
      rfl
    · intro c hcl
      rcases List.mem_append.mp hcl with hold | hlast
      · exact hkeep c hold
      · have hnone : acc.find? (·.1 = a.1) = none := by
          rw [List.find?_eq_none]
          intro b hb heq
          exact hnew (of_decide_eq_true heq ▸ List.mem_map_of_mem hb)
        rw [List.mem_singleton.mp hlast, List.find?_append, hnone]
        simp
    · rw [List.map_append, hc.ids, List.length_append, List.length_singleton, List.range'_concat]
      simp [Nat.add_comm]

theorem Registers.enterAll (hc : Registers clients acc) (as : List (List Byte × SockaddrIn)) :
    Registers (as.foldl (fun clients a => Mpserver.enter clients a.1 a.2) clients) (acc ++ as) := by
  induction as generalizing clients acc with
  | nil =>
    rw [List.append_nil]
    exact hc
  | cons a as ih =>
    rw [List.foldl_cons, List.append_cons]
    exact ih (hc.enter a)

theorem pass_mMPMap (hs : s.Counted) (hp : pass h s p = some t) :
    t.mMPMap = (s.accepts h p).foldl (fun clients a => enter clients a.1 a.2) s.mMPMap := by
  unfold pass at hp
  unfold Server.accepts
  split_ifs at hp with hrun hkey
  · cases hp
    cases p.recv with
    | again | failed => rfl
    | datagram clientaddr bytes =>
      dsimp only
      rw [if_neg fun h => h.1 hkey]
      rfl
  · dsimp only at hp
    cases hrecv : p.recv with
    | again | failed =>
      rw [hrecv] at hp
      cases hp
      rfl
    | datagram clientaddr bytes =>
      rw [hrecv] at hp
      cases hp
      have hk : (s.key p.key).Counted := ⟨hs.clientId, hs.totalClients⟩
      have hbuf : (s.key p.key).msgbuf = s.msgbuf := rfl
      rw [(datagram_clients hk).2, Server.treatment, enterTreated_treatMsg, hbuf]
      simp only [hkey, Bool.false_eq_true, not_false_eq_true, true_and]
      by_cases hacc : Accepted h (s.msgbuf.write 0 (received maxPacketSize bytes))
        (received maxPacketSize bytes).length
      · rw [if_pos hacc, if_pos hacc]
        rfl
      · rw [if_neg hacc, if_neg hacc]
        rfl

theorem run_registers {settings : Settings} {fopened : Bool} {passes : List Pass}
    (hr : runs (pass h) (.start settings fopened) passes = some s) :
    Registers s.mMPMap (outputs (pass h) (Server.accepts h) (.start settings fopened) passes) := by
  induction passes using List.reverseRecOn generalizing s with
  | nil =>
    cases hr
    exact Registers.nil
  | append_singleton passes p ih =>
    obtain ⟨u, hu, hp⟩ := runs_concat.mp hr
    rw [outputs_concat hu, pass_mMPMap (Server.Reachable.counted ⟨_, _, _, hu⟩) hp]
    exact (ih hu).enterAll _

end

/-- After any run the map has one entry for each callsign among the accepted messages, in the
order in which they first came, with the address the first one came from and numbered from 1;
both counters are the number of entries; and a pass that accepts nothing changes none of
these. -/
theorem registry (h : Endian) (settings : Settings) (fopened : Bool) (passes : List Pass)
    (s : Server) (hr : runs (pass h) (.start settings fopened) passes = some s) :
    let acc := outputs (pass h) (Server.accepts h) (.start settings fopened) passes
    ((s.mMPMap.map Prod.fst).Nodup ∧
        ∀ callsign, callsign ∈ s.mMPMap.map Prod.fst ↔ ∃ a ∈ acc, a.1 = callsign) ∧
      s.mMPMap.map Prod.fst = (acc.map Prod.fst).eraseDups ∧
      (∀ c ∈ s.mMPMap, (acc.find? (·.1 = c.1)).map Prod.snd = some c.2.clientaddr) ∧
      s.mMPMap.map (·.2.id) = List.range' 1 s.mMPMap.length ∧
      (s.totalClients = s.mMPMap.length ∧ s.clientId = s.mMPMap.length) ∧
      ∀ p t, pass h s p = some t → s.accepts h p = [] →
        t.mMPMap = s.mMPMap ∧ t.totalClients = s.totalClients ∧ t.clientId = s.clientId := by
  have hs : s.Counted := Server.Reachable.counted ⟨_, _, _, hr⟩
  obtain ⟨hnodup, hcallsigns, haddr, hids⟩ := run_registers hr
  refine ⟨⟨hnodup, ?_⟩, hcallsigns, haddr, hids, ⟨hs.totalClients, hs.clientId⟩, ?_⟩
  · intro callsign
    rw [hcallsigns, List.mem_eraseDups, List.mem_map]
  · intro p t hp hacc
    have hmap : t.mMPMap = s.mMPMap := by rw [pass_mMPMap hs hp, hacc, List.foldl_nil]
    have ht : t.Counted := pass_counted hs hp
    exact ⟨hmap, by rw [ht.totalClients, hs.totalClients, hmap],
      by rw [ht.clientId, hs.clientId, hmap]⟩

theorem samplePosition_accepted :
    sampleStart.accepts .little (samplePass samplePosition) = [([72, 105], ⟨0#32, 0#16⟩)] := by
  have hret : ∀ m : Mem, (processPosMsg .little (rewriteHeader .little m 32#32)).1 = 0 := by
    intro m
    rw [processPosMsg_short (by rw [rewriteHeader_msgLen]; decide)]
  have hacc : Accepted .little (sampleStart.msgbuf.write 0 (received maxPacketSize samplePosition))
      (received maxPacketSize samplePosition).length := by
    refine ⟨by decide, by decide, by decide, by decide, ?_⟩
    have hlen : beWord (sampleStart.msgbuf.write 0 (received maxPacketSize samplePosition))
        offMsgLen = 32#32 := by decide
    rw [hlen]
    exact hret _
  calc
    sampleStart.accepts .little (samplePass samplePosition) =
        [(callsign .little (sampleStart.msgbuf.write 0 (received maxPacketSize samplePosition)),
          ⟨0#32, 0#16⟩)] := if_pos ⟨by decide, hacc⟩
    _ = [([72, 105], ⟨0#32, 0#16⟩)] := by decide

theorem registry_sample :
    ∃ s, runs (pass .little) sampleStart [samplePass samplePosition] = some s ∧
      s.mMPMap.map Prod.fst = [[72, 105]] ∧ s.totalClients = s.mMPMap.length := by
  refine ⟨_, rfl, ?_⟩
  obtain ⟨-, hcallsigns, -, -, ⟨htotal, -⟩, -⟩ :=
    registry .little ⟨0, false, 0⟩ false [samplePass samplePosition] _ rfl
  refine ⟨?_, htotal⟩
  refine hcallsigns.trans ?_
  change ((sampleStart.accepts .little (samplePass samplePosition) ++ []).map Prod.fst).eraseDups = _
  rw [samplePosition_accepted]
  decide

end TcpTests.Mpserver
