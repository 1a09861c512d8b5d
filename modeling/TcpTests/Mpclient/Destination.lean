import TcpTests.Mpclient.Client
import TcpTests.Udpclient.Destination

/-! Where `mpclient` sends, which lets `recvfrom` write over the address of the server as
`udpclient` does. -/
namespace TcpTests.Mpclient
open Lib Net Fgmp

/-- The datagram that ends the wait for a reply, if one does. It is over after three rounds, at
an error, and when one of two keys is pressed. -/
def reply (w : ℕ → Wait) (buflen cycles : ℕ) : List Transfer :=
  if cycles < maxWaitCycles then
    if (w cycles).key = '\x1b' then []
    else
      match (w cycles).recv with
      | .failed => []
      | .datagram addr bytes => [.received ⟨addr, received buflen bytes⟩]
      | .again => if (w cycles).key = 'r' then [] else reply w buflen (cycles + 1)
  else []
termination_by maxWaitCycles - cycles

def Client.transfers (h : Endian) (c : Client) (p : Pass) : List Transfer :=
  if (c.checkKey p.key).2 then []
  else
    match fillMsg h c.msgbuf c.fSampRaw with
    | none => []
    | some (m, buflen, _, _) =>
      .sent ⟨c.serveraddr, m.read 0 buflen⟩ :: if p.sendOk then reply p.wait buflen 0 else []

section
variable {h : Endian} {w : ℕ → Wait} {buflen : ℕ} {c c' : Client} {p : Pass}
  {server : SockaddrIn}

theorem Client.checkKey_serveraddr (c : Client) (chr : Char) :
    (c.checkKey chr).1.serveraddr = c.serveraddr := by
  unfold checkKey
  split_ifs <;> rfl

theorem Client.checkKeySleep_serveraddr (c : Client) (chrs : List Char) :
    (c.checkKeySleep chrs).serveraddr = c.serveraddr := by
  induction chrs generalizing c with
  | nil => rfl
  | cons chr chrs ih =>
    unfold checkKeySleep
    dsimp only
    split_ifs
    · exact c.checkKey_serveraddr chr
    · rw [ih]
      exact c.checkKey_serveraddr chr

theorem Client.checkKey_esc (c : Client) (chr : Char) :
    (c.checkKey chr).2 = true ↔ chr = '\x1b' := by
  unfold checkKey
  split_ifs with hesc <;> simp [hesc]

theorem Client.checkKey_waitReceive (c : Client) (chr : Char) :
    (c.checkKey chr).1.waitReceive = if chr = 'r' then false else c.waitReceive := by
  unfold checkKey
  split_ifs with hesc hp hr <;> simp_all

theorem Client.waitRound_next {round : Wait} (hr : (c.waitRound round buflen).2 = true) :
    c.waitCycles < maxWaitCycles ∧ round.key ≠ '\x1b' ∧
      ((round.recv = .again ∧ (c.waitRound round buflen).1.serveraddr = c.serveraddr ∧
          (c.waitRound round buflen).1.waitReceive =
            if round.key = 'r' then false else c.waitReceive) ∨
        ∃ addr bytes, round.recv = .datagram addr bytes ∧
          (c.waitRound round buflen).1.serveraddr = addr ∧
          (c.waitRound round buflen).1.waitReceive = false) := by
  have haddr := c.checkKey_serveraddr round.key
  have hwait := c.checkKey_waitReceive round.key
  have hesc := c.checkKey_esc round.key
  have hlt := (Client.waitRound_cycles hr).2
  have hmax : ¬ c.waitCycles + 1 > maxWaitCycles := by omega
  refine ⟨hlt, ?_⟩
  unfold waitRound at hr ⊢
  dsimp only at hr ⊢
  by_cases hkey : round.key = '\x1b'
  · rw [if_pos (hesc.mpr hkey)] at hr
    cases hr
  · refine ⟨hkey, ?_⟩
    rw [if_neg fun h => hkey (hesc.mp h), if_neg hmax] at hr ⊢
    cases hrecv : round.recv with
    | again => exact Or.inl ⟨rfl, haddr, hwait⟩
    | failed =>
      rw [hrecv] at hr
      cases hr
    | datagram addr bytes => exact Or.inr ⟨addr, bytes, rfl, rfl, rfl⟩

theorem reply_round {cycles : ℕ} (hlt : cycles < maxWaitCycles) (hesc : (w cycles).key ≠ '\x1b') :
    reply w buflen cycles =
      match (w cycles).recv with
      | .failed => []
      | .datagram addr bytes => [.received ⟨addr, received buflen bytes⟩]
      | .again => if (w cycles).key = 'r' then [] else reply w buflen (cycles + 1) := by
  rw [reply, if_pos hlt, if_neg hesc]

theorem reply_over {cycles : ℕ} (h : maxWaitCycles ≤ cycles ∨ (w cycles).key = '\x1b') :
    reply w buflen cycles = [] := by
  rw [reply]
  rcases h with hle | hesc
  · rw [if_neg (Nat.not_lt_of_le hle)]
  · rw [if_pos hesc, ite_self]

theorem Client.waitRound_stop (hr : (c.waitRound (w c.waitCycles) buflen).2 = false) :
    (c.waitRound (w c.waitCycles) buflen).1.serveraddr = c.serveraddr ∧
      reply w buflen c.waitCycles = [] := by
  have haddr := c.checkKey_serveraddr (w c.waitCycles).key
  have hesc := c.checkKey_esc (w c.waitCycles).key
  unfold waitRound at hr ⊢
  dsimp only at hr ⊢
  by_cases hkey : (w c.waitCycles).key = '\x1b'
  · rw [if_pos (hesc.mpr hkey)]
    exact ⟨haddr, reply_over (Or.inr hkey)⟩
  · rw [if_neg fun h => hkey (hesc.mp h)] at hr ⊢
    by_cases hmax : c.waitCycles + 1 > maxWaitCycles
    · rw [if_pos hmax]
      exact ⟨haddr, reply_over (Or.inl (Nat.le_of_lt_succ hmax))⟩
    · rw [if_neg hmax] at hr ⊢
      rw [reply_round (Nat.lt_of_succ_le (Nat.le_of_not_gt hmax)) hkey]
      cases hrecv : (w c.waitCycles).recv with
      | again =>
        rw [hrecv] at hr
        cases hr
      | failed => exact ⟨haddr, rfl⟩
      | datagram addr bytes =>
        rw [hrecv] at hr
        cases hr

/-- The address after the wait is that of the datagram that ended it. -/
theorem Client.waitReply_serveraddr (w : ℕ → Wait) (buflen : ℕ) (c : Client) :
    (c.waitReply w buflen).serveraddr =
      (if c.waitReceive then lastSource? (reply w buflen c.waitCycles) else none).getD
        c.serveraddr := by
  induction c using Client.waitReply.induct w buflen with
  | case1 c hw r hr ih =>
    simp only [r] at hr ih
    obtain ⟨hlt, hesc, hrest⟩ := Client.waitRound_next hr
    have hcycles := (Client.waitRound_cycles hr).1
    rw [waitReply, if_pos hw]
    simp only [hr, dif_pos]
    rw [ih, hw, if_pos rfl, reply_round hlt hesc, hcycles]
    rcases hrest with ⟨hrecv, haddr, hwait⟩ | ⟨addr, bytes, hrecv, haddr, hwait⟩
    · rw [hrecv, haddr, hwait, hw]
      by_cases hkey : (w c.waitCycles).key = 'r'
      · simp only [hkey, if_true]
        rfl
      · simp only [hkey, if_false, if_true]
    · rw [hrecv, haddr, hwait]
      rfl
  | case2 c hw r hr =>
    simp only [r, Bool.not_eq_true] at hr
    obtain ⟨haddr, hreply⟩ := Client.waitRound_stop hr
    rw [waitReply, if_pos hw]
    simp only [hr]
    rw [hw, if_pos rfl, hreply]
    exact haddr
  | case3 c hw =>
    rw [waitReply, if_neg hw, if_neg hw]
    rfl

theorem Client.send_serveraddr (c : Client) (buflen : ℕ) (p : Pass) :
    (c.send buflen p).serveraddr =
      (lastSource? (if p.sendOk then reply p.wait buflen 0 else [])).getD c.serveraddr := by
  unfold send
  dsimp only
  cases p.sendOk with
  | false => rfl
  | true =>
    have hw := Client.waitReply_serveraddr p.wait buflen
      { c with
        sent := c.sent ++ [⟨c.serveraddr, c.msgbuf.read 0 buflen⟩]
        waitReceive := true
        waitCycles := 0 }
    rw [if_pos rfl] at hw
    simp only [Bool.not_true, Bool.false_eq_true, if_false, if_true]
    split_ifs
    · rw [Client.checkKeySleep_serveraddr]
      exact hw
    · exact hw

theorem reply_cases (w : ℕ → Wait) (buflen cycles : ℕ) :
    reply w buflen cycles = [] ∨ ∃ d, reply w buflen cycles = [.received d] := by
  induction hk : maxWaitCycles - cycles generalizing cycles with
  | zero => exact Or.inl (reply_over (Or.inl (Nat.le_of_sub_eq_zero hk)))
  | succ k ih =>
    by_cases hesc : (w cycles).key = '\x1b'
    · exact Or.inl (reply_over (Or.inr hesc))
    · rw [reply_round (by omega) hesc]
      cases (w cycles).recv with
      | again =>
        dsimp only
        split_ifs
        · exact Or.inl rfl
        · exact ih (cycles + 1) (by omega)
      | failed => exact Or.inl rfl
      | datagram addr bytes => exact Or.inr ⟨_, rfl⟩

theorem pass_transfers (hp : pass h c p = some c') :
    (c.transfers h p = [] ∧ c'.serveraddr = c.serveraddr ∧ c'.sent = c.sent) ∨
      ∃ bytes rest, c.transfers h p = .sent ⟨c.serveraddr, bytes⟩ :: rest ∧
        (rest = [] ∨ ∃ d, rest = [.received d]) ∧
        c'.serveraddr = (lastSource? rest).getD c.serveraddr ∧
        c'.sent = c.sent ++ [⟨c.serveraddr, bytes⟩] := by
  have hk := c.checkKey_same p.key
  have haddr := c.checkKey_serveraddr p.key
  unfold pass at hp
  by_cases hrun : (!c.running) = true
  · rw [if_pos hrun] at hp
    cases hp
  rw [if_neg hrun] at hp
  by_cases hesc : (c.checkKey p.key).2 = true
  · rw [if_pos hesc] at hp
    cases hp
    exact Or.inl ⟨if_pos hesc, haddr, hk.sent⟩
  · rw [if_neg hesc] at hp
    obtain ⟨⟨m, n, f, err⟩, hfill, hres⟩ := Option.map_eq_some_iff.mp hp
    obtain ⟨rfl, -⟩ := fillMsg_spec hfill
    have hdest := Client.send_serveraddr { (c.checkKey p.key).1 with msgbuf := m, fSampRaw := f } n p
    have hsent := (Client.send_output { (c.checkKey p.key).1 with msgbuf := m, fSampRaw := f } n p).1
    simp only [ne_eq, not_true_eq_false, if_false] at hres
    rw [hres] at hdest hsent
    simp only [haddr, hk.sent] at hdest hsent
    refine Or.inr ⟨m.read 0 n, if p.sendOk then reply p.wait n 0 else [], ?_, ?_, hdest, hsent⟩
    · rw [Client.transfers, if_neg hesc, hfill]
    · split_ifs
      · exact reply_cases p.wait n 0
      · exact Or.inl rfl

/-- The packets of a run and the address it ends with, by what the run sent and received. -/
structure Tracks (server : SockaddrIn) (c : Client) (ts : List Transfer) : Prop where
  serveraddr : c.serveraddr = (lastSource? ts).getD server
  follows : Follows server ts
  sent : ∀ d, Transfer.sent d ∈ ts ↔ Packet.mk d.addr d.bytes ∈ c.sent

theorem Tracks.pass {ts : List Transfer} (hc : Tracks server c ts) (hp : pass h c p = some c') :
    Tracks server c' (ts ++ c.transfers h p) := by
  rcases pass_transfers hp with ⟨hts, haddr, hsent⟩ | ⟨bytes, rest, hts, hrest, haddr, hsent⟩
  · rw [hts, List.append_nil]
    exact ⟨haddr.trans hc.serveraddr, hc.follows, hsent ▸ hc.sent⟩
  · have hfollows := hc.follows.sent (d := ⟨c.serveraddr, bytes⟩) hc.serveraddr
    have hsends : ∀ d, Transfer.sent d ∈ ts ++ c.transfers h p ↔
        Packet.mk d.addr d.bytes ∈ c'.sent := by
      rintro ⟨addr, bytes'⟩
      have hnot : Transfer.sent ⟨addr, bytes'⟩ ∉ rest := by
        rcases hrest with rfl | ⟨e, rfl⟩ <;> simp
      rw [hts, hsent, List.mem_append, List.mem_append, List.mem_cons, hc.sent, List.mem_singleton,
        or_iff_left hnot]
      simp
    rw [hts, List.append_cons] at hsends ⊢
    rcases hrest with rfl | ⟨e, rfl⟩
    · rw [List.append_nil] at hsends ⊢
      refine ⟨?_, hfollows, hsends⟩
      rw [lastSource?_sent, haddr]
      exact hc.serveraddr
    · refine ⟨?_, hfollows.received e, hsends⟩
      rw [lastSource?_received, haddr]
      rfl

theorem run_tracks {verbosity : ℕ} {fSampRaw : Option Stream} {passes : List Pass}
    (hr : runs (pass h) (.start server verbosity fSampRaw) passes = some c) :
    Tracks server c
      (outputs (pass h) (Client.transfers h) (.start server verbosity fSampRaw) passes) := by
  induction passes using List.reverseRecOn generalizing c with
  | nil =>
    cases hr
    exact ⟨rfl, Follows.nil, fun d => iff_of_false List.not_mem_nil List.not_mem_nil⟩
  | append_singleton passes p ih =>
    obtain ⟨u, hu, hp⟩ := runs_concat.mp hr
    rw [outputs_concat hu]
    exact (ih hu).pass hp

end

/-- A pass in which a datagram from anywhere is taken for the reply. -/
def strayPass (addr : SockaddrIn) : Pass :=
  ⟨'\x00', true, fun _ => ⟨'\x00', .datagram addr []⟩, []⟩

theorem pass_stray {h : Endian} {c : Client} {m : Mem} {n err : ℕ} {f : Option Stream}
    (addr : SockaddrIn) (hrun : c.running = true)
    (hf : fillMsg h c.msgbuf c.fSampRaw = some (m, n, f, err)) :
    ∃ c', pass h c (strayPass addr) = some c' ∧ c'.running = true ∧ c'.serveraddr = addr ∧
      c'.fSampRaw = f := by
  obtain ⟨rfl, -⟩ := fillMsg_spec hf
  have hwait : ∀ c : Client, c.waitReceive = true → c.waitCycles = 0 →
      c.waitReply (strayPass addr).wait n =
        { c with
          waitCycles := 1
          msgbuf := c.msgbuf.write 0 (received n [])
          serveraddr := addr
          waitReceive := false } := by
    intro c hw hcycles
    have hround : c.waitRound ((strayPass addr).wait c.waitCycles) n =
        ({ c with
            waitCycles := 1
            msgbuf := c.msgbuf.write 0 (received n [])
            serveraddr := addr
            waitReceive := false }, true) := by
      simp only [Client.waitRound, hcycles]
      rfl
    rw [Client.waitReply, if_pos hw, hround]
    simp only [dif_pos]
    rw [Client.waitReply, if_neg (by exact Bool.false_ne_true)]
  refine ⟨Client.send { c with msgbuf := m, fSampRaw := f } n (strayPass addr), ?_, ?_⟩
  · unfold pass
    rw [if_neg (by simp [hrun]), if_neg (by exact Bool.false_ne_true), hf]
    rfl
  · have hok : (strayPass addr).sendOk = true := rfl
    have hkeys : (strayPass addr).sleepKeys = [] := rfl
    simp only [Client.send, hok, hkeys, Client.checkKeySleep, Bool.not_true, Bool.false_eq_true,
      if_false, ite_self]
    rw [hwait _ rfl rfl]
    exact ⟨hrun, rfl, rfl⟩

/-- In any run of either client all that is sent goes to the address that `main` resolved just
when, at every `sendto`, the last datagram received before it came from there. -/
theorem destination_iff (server : SockaddrIn) (noSend : Bool) (verbosity : ℕ) (h : Endian)
    (fSampRaw : Option Stream) :
    (∀ turns c, runs Udpclient.step (.start server noSend verbosity) turns = some c →
      (SendsTo server c.transfers ↔ HeardFrom server c.transfers)) ∧
      ∀ passes c, runs (pass h) (.start server verbosity fSampRaw) passes = some c →
        ((∀ packet ∈ c.sent, packet.dest = server) ↔
          HeardFrom server (outputs (pass h) (Client.transfers h)
            (.start server verbosity fSampRaw) passes)) := by
  constructor
  · intro turns c hr
    exact (Udpclient.run_tracks hr).follows.sendsTo_iff
  · intro passes c hr
    have hc := run_tracks hr
    rw [← hc.follows.sendsTo_iff]
    constructor
    · intro hdest d hd
      exact hdest _ ((hc.sent d).mp hd)
    · intro hsends packet hp
      exact hsends ⟨packet.dest, packet.bytes⟩ ((hc.sent _).mpr hp)

/-- A datagram from elsewhere is taken for a reply, and the next message goes there. -/
theorem destination_hijacked :
    (∃ c, runs Udpclient.step (.start ⟨1#32, 5555#16⟩ false 0)
        [⟨'\x00', true, .again⟩, ⟨'\x00', true, .datagram ⟨2#32, 6666#16⟩ []⟩,
          ⟨'\x00', true, .again⟩, ⟨'\x00', true, .again⟩] = some c ∧
        ¬ SendsTo ⟨1#32, 5555#16⟩ c.transfers) ∧
      ∃ c, runs (pass .little) (.start ⟨1#32, 5555#16⟩ 0 none)
          [strayPass ⟨2#32, 6666#16⟩, quietPass] = some c ∧
        ¬ ∀ packet ∈ c.sent, packet.dest = ⟨1#32, 5555#16⟩ := by
  constructor
  · refine ⟨_, rfl, ?_⟩
    intro h
    have hdest := h ⟨⟨2#32, 6666#16⟩, Udpclient.nextMessage 2⟩ (by decide)
    cases hdest
  · have hfill : ∀ m, ∃ m' n f, fillMsg .little m none = some (m', n, f, 0) ∧ f = none :=
      fun m => ⟨_, _, _, fillMsg_of_myFillPosMsg rfl, rfl⟩
    obtain ⟨m, n, f, hf, rfl⟩ := hfill (fun _ => 0)
    obtain ⟨c, hc, hrun, haddr, hfile⟩ :=
      pass_stray (c := .start ⟨1#32, 5555#16⟩ 0 none) ⟨2#32, 6666#16⟩ rfl hf
    obtain ⟨m, n, f, hf, rfl⟩ := hfill c.msgbuf
    rw [← hfile] at hf
    obtain ⟨c', hc', -, hsent, -⟩ := pass_quiet hrun hf
    refine ⟨c', runs_cons.mpr ⟨c, hc, runs_cons.mpr ⟨c', hc', rfl⟩⟩, ?_⟩
    intro h
    have hmem : Packet.mk c.serveraddr (m.read 0 n) ∈ c'.sent := by
      rw [hsent]
      exact List.mem_append_right _ (List.mem_singleton_self _)
    have hdest := h _ hmem
    rw [haddr] at hdest
    cases hdest

end TcpTests.Mpclient
