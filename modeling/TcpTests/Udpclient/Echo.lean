import Mathlib.Logic.Embedding.Basic
import TcpTests.Udpclient.Client
import TcpTests.Udpserver.Server

/-! Any number of `udpclient` and one `udpserver`. Whatever has been sent may be delivered at any
time after it, any number of times or never, so that the network loses, repeats and reorders. -/
namespace TcpTests.Udpclient
open Lib Net Text

/-- What a client records in a turn: at most a message, with the next number and to where the last
datagram came from, and then a datagram. -/
structure Turned (c : Client) (turn : Turn) (c' : Client) (new : List Transfer) : Prop where
  transfers : c'.transfers = c.transfers ++ new
  counter : c.messageCounter ≤ c'.messageCounter
  sent : ∀ d, Transfer.sent d ∈ new → d.addr = c.serveraddr ∧ 0 < c'.messageCounter ∧
    d.bytes = nextMessage c'.messageCounter
  received : ∀ d, Transfer.received d ∈ new →
    ∃ bytes, turn.recv = .datagram d.addr bytes ∧ d.bytes = Net.received buflen bytes
  serveraddr : c'.serveraddr = c.serveraddr ∨
    ∃ bytes, turn.recv = .datagram c'.serveraddr bytes

section
variable {c c' : Client} {turn : Turn} {new : List Transfer}

theorem Turned.same (h : c'.transfers = c.transfers) (hcounter : c'.messageCounter = c.messageCounter)
    (haddr : c'.serveraddr = c.serveraddr) : Turned c turn c' [] :=
  ⟨by rw [h, List.append_nil], hcounter.ge, nofun, nofun, Or.inl haddr⟩

theorem Client.checkKey_record (c : Client) (chr : Char) :
    (c.checkKey chr).1.transfers = c.transfers ∧
      (c.checkKey chr).1.messageCounter = c.messageCounter ∧
      (c.checkKey chr).1.serveraddr = c.serveraddr := by
  unfold Client.checkKey
  split_ifs <;> exact ⟨rfl, rfl, rfl⟩

theorem Turned.of_checkKey (h : Turned (c.checkKey turn.key).1 turn c' new) :
    Turned c turn c' new := by
  obtain ⟨htransfers, hcounter, haddr⟩ := c.checkKey_record turn.key
  obtain ⟨h1, h2, h3, h4, h5⟩ := h
  rw [htransfers] at h1
  rw [hcounter] at h2
  rw [haddr] at h3 h5
  exact ⟨h1, h2, h3, h4, h5⟩

theorem Turned.sendto (c : Client) (turn : Turn) (sendOk : Bool) :
    ∃ new, Turned c turn (c.sendto sendOk).1 new := by
  have hsent : ∀ c' : Client,
      c'.transfers = c.transfers ++ [.sent ⟨c.serveraddr, nextMessage (c.messageCounter + 1)⟩] →
      c'.messageCounter = c.messageCounter + 1 → c'.serveraddr = c.serveraddr →
      Turned c turn c' [.sent ⟨c.serveraddr, nextMessage (c.messageCounter + 1)⟩] := by
    intro c' h hcounter haddr
    refine ⟨h, by omega, ?_, ?_, Or.inl haddr⟩
    · intro d hd
      cases List.mem_singleton.mp hd
      exact ⟨rfl, by omega, by rw [hcounter]⟩
    · intro d hd
      cases List.mem_singleton.mp hd
  unfold Client.sendto
  dsimp only
  split_ifs
  · exact ⟨[], .same rfl rfl rfl⟩
  · exact ⟨_, hsent _ rfl rfl rfl⟩
  · exact ⟨_, hsent _ rfl rfl rfl⟩

theorem Turned.recvfrom (h : Turned c turn c' new) {addr : SockaddrIn} {bytes : List Byte}
    (hrecv : turn.recv = .datagram addr bytes) :
    Turned c turn (c'.recvfrom addr bytes) (new ++ [.received ⟨addr, Net.received buflen bytes⟩]) := by
  refine ⟨?_, h.counter, ?_, ?_, Or.inr ⟨bytes, hrecv⟩⟩
  · rw [← List.append_assoc, ← h.transfers]
    rfl
  · intro d hd
    rcases List.mem_append.mp hd with hd | hd
    · exact h.sent d hd
    · cases List.mem_singleton.mp hd
  · intro d hd
    rcases List.mem_append.mp hd with hd | hd
    · exact h.received d hd
    · cases List.mem_singleton.mp hd
      exact ⟨bytes, hrecv, rfl⟩

theorem Turned.congr {t : Client} (h : Turned c turn c' new) (ht : t.transfers = c'.transfers)
    (hcounter : t.messageCounter = c'.messageCounter) (haddr : t.serveraddr = c'.serveraddr) :
    Turned c turn t new := by
  obtain ⟨h1, h2, h3, h4, h5⟩ := h
  refine ⟨ht.trans h1, hcounter ▸ h2, ?_, h4, haddr ▸ h5⟩
  rw [hcounter]
  exact h3

theorem Turned.top (c : Client) (turn : Turn) : ∃ new, Turned c turn (c.top turn) new := by
  obtain ⟨new, hnew⟩ := Turned.sendto (c.checkKey turn.key).1 turn turn.sendOk
  unfold Client.top
  dsimp only
  split_ifs
  · exact ⟨[], .of_checkKey (.same rfl rfl rfl)⟩
  · exact ⟨new, .of_checkKey (hnew.congr rfl rfl rfl)⟩
  · exact ⟨new, .of_checkKey hnew⟩

theorem Turned.wait (c : Client) (turn : Turn) : ∃ new, Turned c turn (c.wait turn) new := by
  unfold Client.wait
  dsimp only
  split_ifs
  · exact ⟨[], .same rfl rfl rfl⟩
  · exact ⟨[], .of_checkKey (.same rfl rfl rfl)⟩
  · have hself : Turned (c.checkKey turn.key).1 turn (c.checkKey turn.key).1 [] :=
      .same rfl rfl rfl
    cases hrecv : turn.recv with
    | again => exact ⟨[], .of_checkKey (.same rfl rfl rfl)⟩
    | failed => exact ⟨[], .of_checkKey (.same rfl rfl rfl)⟩
    | datagram addr bytes => exact ⟨_, .of_checkKey ((hself.recvfrom hrecv).congr rfl rfl rfl)⟩

theorem Turned.retry (c : Client) (waitCycles : ℕ) (turn : Turn) :
    ∃ new, Turned c turn (c.retry waitCycles turn) new := by
  obtain ⟨new, hnew⟩ := Turned.sendto (c.checkKey turn.key).1 turn turn.sendOk
  unfold Client.retry
  dsimp only
  split_ifs
  · exact ⟨[], .same rfl rfl rfl⟩
  · exact ⟨[], .of_checkKey (.same rfl rfl rfl)⟩
  · exact ⟨new, .of_checkKey hnew⟩
  · cases hrecv : turn.recv with
    | again => exact ⟨new, .of_checkKey (hnew.congr rfl rfl rfl)⟩
    | failed => exact ⟨new, .of_checkKey (hnew.congr rfl rfl rfl)⟩
    | datagram addr bytes => exact ⟨_, .of_checkKey ((hnew.recvfrom hrecv).congr rfl rfl rfl)⟩

theorem step_turned (h : step c turn = some c') : ∃ new, Turned c turn c' new := by
  unfold step at h
  split at h
  · cases h
    exact Turned.top c turn
  · cases h
    exact Turned.wait c turn
  · cases h
    exact Turned.retry c _ turn
  · cases h

end

structure Packet where
  src : SockaddrIn
  dst : SockaddrIn
  bytes : List Byte

/-- Where the clients and the server are, and how the server was started. -/
structure Setup (ι : Type*) where
  addr : ι ↪ SockaddrIn
  server : SockaddrIn
  addr_ne : ∀ i, addr i ≠ server
  outFile : Bool
  doAnEcho : Bool

/-- The programs, and all that was ever sent. -/
structure System (ι : Type*) where
  clients : ι → Client
  server : Udpserver.Server
  wire : List Packet

inductive Event (ι : Type*)
  | client (i : ι) (turn : Turn)
  | server (p : Udpserver.Pass)

variable {ι : Type*}

def Setup.start (w : Setup ι) (noSend : Bool) (verbosity : ℕ) : System ι where
  clients := fun _ => .start w.server noSend verbosity
  server := .start w.outFile w.doAnEcho verbosity
  wire := []

/-- What is received was sent to the receiver by who it comes from. -/
def Delivers (wire : List Packet) (dst : SockaddrIn) (recv : Recv) : Prop :=
  ∀ src bytes, recv = .datagram src bytes → ⟨src, dst, bytes⟩ ∈ wire

def packets (src : SockaddrIn) (ds : List Datagram) : List Packet :=
  ds.map fun d => ⟨src, d.addr, d.bytes⟩

def Transfer.sent? : Transfer → Option Datagram
  | .sent d => some d
  | .received _ => none

/-- One of the programs takes a step. What `sendto` has failed on is not sent. -/
inductive Setup.Step [DecidableEq ι] (w : Setup ι) (s : System ι) : Event ι → System ι → Prop
  | client {i : ι} {turn : Turn} {c : Client} (hrecv : Delivers s.wire (w.addr i) turn.recv)
      (hstep : step (s.clients i) turn = some c) :
      w.Step s (.client i turn)
        { s with
          clients := Function.update s.clients i c
          wire := s.wire ++ if turn.sendOk then packets (w.addr i)
            ((c.transfers.drop (s.clients i).transfers.length).filterMap Transfer.sent?) else [] }
  | server {p : Udpserver.Pass} {t : Udpserver.Server} (hrecv : Delivers s.wire w.server p.recv)
      (hpass : Udpserver.pass s.server p = some t) :
      w.Step s (.server p)
        { s with
          server := t
          wire := s.wire ++ if p.sendOk then
            packets w.server (t.sent.drop s.server.sent.length) else [] }

inductive Setup.Reachable [DecidableEq ι] (w : Setup ι) : System ι → Prop
  | start (noSend : Bool) (verbosity : ℕ) : w.Reachable (w.start noSend verbosity)
  | step {s t : System ι} {e : Event ι} (hs : w.Reachable s) (h : w.Step s e t) : w.Reachable t

/-- The bytes of a message as the server gets them. -/
def request (n : ℕ) : List Byte := received Udpserver.myMxData (nextMessage n)

/-- A client has sent a message with the number. -/
def Numbered (c : Client) (n : ℕ) : Prop := 0 < n ∧ n ≤ c.messageCounter

/-- What is on the wire are requests of the clients and replies to them. -/
def Setup.Genuine (w : Setup ι) (clients : ι → Client) (p : Packet) : Prop :=
  ∃ i n, Numbered (clients i) n ∧
    (p = ⟨w.addr i, w.server, nextMessage n⟩ ∨ p = ⟨w.server, w.addr i, (request n).map toupper⟩)

structure Setup.Inv (w : Setup ι) (s : System ι) : Prop where
  wire : ∀ p ∈ s.wire, w.Genuine s.clients p
  serveraddr : ∀ i, (s.clients i).serveraddr = w.server
  sent : ∀ i d, Transfer.sent d ∈ (s.clients i).transfers → d.addr = w.server
  received : ∀ i d, Transfer.received d ∈ (s.clients i).transfers →
    d.addr = w.server ∧ ∃ n, Numbered (s.clients i) n ∧
      d.bytes = received buflen ((request n).map toupper)
  served : ∃ entries, s.server.Serves w.outFile w.doAnEcho entries ∧
    ∀ e ∈ entries, ∃ i n, Numbered (s.clients i) n ∧ e.clientaddr = w.addr i ∧ e.data = request n

section
variable {w : Setup ι} {s : System ι} {i j : ι} {n : ℕ} {c : Client} {turn : Turn}
  {p : Udpserver.Pass} {pkt : Packet}

theorem Setup.Inv.delivered_client (hs : w.Inv s) {src : SockaddrIn} {bytes : List Byte}
    (h : ⟨src, w.addr i, bytes⟩ ∈ s.wire) :
    src = w.server ∧ ∃ n, Numbered (s.clients i) n ∧ bytes = (request n).map toupper := by
  obtain ⟨j, n, hn, hpkt | hpkt⟩ := hs.wire _ h
  · exact absurd (congrArg Packet.dst hpkt) (w.addr_ne i)
  · obtain rfl : i = j := w.addr.injective (congrArg Packet.dst hpkt)
    exact ⟨congrArg Packet.src hpkt, n, hn, congrArg Packet.bytes hpkt⟩

theorem Setup.Inv.delivered_server (hs : w.Inv s) {src : SockaddrIn} {bytes : List Byte}
    (h : ⟨src, w.server, bytes⟩ ∈ s.wire) :
    ∃ i n, Numbered (s.clients i) n ∧ src = w.addr i ∧ bytes = nextMessage n := by
  obtain ⟨j, n, hn, hpkt | hpkt⟩ := hs.wire _ h
  · exact ⟨j, n, hn, congrArg Packet.src hpkt, congrArg Packet.bytes hpkt⟩
  · exact absurd (congrArg Packet.dst hpkt).symm (w.addr_ne j)

theorem Setup.start_inv (noSend : Bool) (verbosity : ℕ) : w.Inv (w.start noSend verbosity) where
  wire := nofun
  serveraddr := fun _ => rfl
  sent := nofun
  received := nofun
  served := ⟨[], .start w.outFile w.doAnEcho verbosity, nofun⟩

theorem Setup.server_inv (hs : w.Inv s) {u : Udpserver.Server}
    (hrecv : Delivers s.wire w.server p.recv) (hpass : Udpserver.pass s.server p = some u) :
    w.Inv { s with
      server := u
      wire := s.wire ++ if p.sendOk then
        packets w.server (u.sent.drop s.server.sent.length) else [] } := by
  have hheard : ∀ e ∈ p.heard, ∃ i n, Numbered (s.clients i) n ∧ e.clientaddr = w.addr i ∧
      e.data = request n := by
    intro e he
    unfold Udpserver.Pass.heard at he
    split_ifs at he
    · cases he
    · cases hr : p.recv with
      | again =>
        rw [hr] at he
        cases he
      | failed =>
        rw [hr] at he
        cases he
      | datagram src bytes =>
        rw [hr] at he
        cases he
        obtain ⟨i, n, hn, hsrc, hbytes⟩ := hs.delivered_server (hrecv _ _ hr)
        exact ⟨i, n, hn, hsrc, congrArg _ hbytes⟩
  obtain ⟨new, hsent, hreply⟩ := Udpserver.pass_sent hpass
  refine ⟨?_, hs.serveraddr, hs.sent, hs.received, ?_⟩
  · intro pkt hpkt
    rcases List.mem_append.mp hpkt with hpkt | hpkt
    · exact hs.wire pkt hpkt
    · rw [hsent, List.drop_left] at hpkt
      split_ifs at hpkt
      · obtain ⟨d, hd, rfl⟩ := List.mem_map.mp hpkt
        obtain ⟨e, he, rfl⟩ := hreply d hd
        obtain ⟨i, n, hn, haddr, hdata⟩ := hheard e he
        refine ⟨i, n, hn, Or.inr ?_⟩
        rw [Udpserver.Entry.reply, haddr, hdata]
      · cases hpkt
  · obtain ⟨entries, hserves, hentries⟩ := hs.served
    refine ⟨entries ++ p.heard.toList, Udpserver.pass_serves hserves hpass, fun e he => ?_⟩
    rcases List.mem_append.mp he with he | he
    · exact hentries e he
    · exact hheard e (Option.mem_toList.mp he)

variable [DecidableEq ι]

theorem Numbered.update (h : Numbered (s.clients j) n)
    (hcounter : (s.clients i).messageCounter ≤ c.messageCounter) :
    Numbered (Function.update s.clients i c j) n := by
  by_cases hj : j = i
  · subst hj
    rw [Function.update_self]
    exact ⟨h.1, h.2.trans hcounter⟩
  · rwa [Function.update_of_ne hj]

theorem Setup.Genuine.update (h : w.Genuine s.clients pkt)
    (hcounter : (s.clients i).messageCounter ≤ c.messageCounter) :
    w.Genuine (Function.update s.clients i c) pkt := by
  obtain ⟨j, n, hn, hpkt⟩ := h
  exact ⟨j, n, hn.update hcounter, hpkt⟩

theorem Setup.Inv.packets_genuine (hs : w.Inv s) (hnew : Turned (s.clients i) turn c new) :
    ∀ pkt ∈ packets (w.addr i) (new.filterMap Transfer.sent?),
      w.Genuine (Function.update s.clients i c) pkt := by
  intro pkt hpkt
  obtain ⟨d, hd, rfl⟩ := List.mem_map.mp hpkt
  obtain ⟨tr, htr, hsent⟩ := List.mem_filterMap.mp hd
  cases tr with
  | received _ => cases hsent
  | sent d' =>
    cases hsent
    obtain ⟨haddr, hpos, hbytes⟩ := hnew.sent d htr
    refine ⟨i, c.messageCounter, ?_, Or.inl ?_⟩
    · rw [Numbered, Function.update_self]
      exact ⟨hpos, le_rfl⟩
    · rw [haddr, hs.serveraddr, hbytes]

theorem Setup.Inv.received_numbered (hs : w.Inv s) (hnew : Turned (s.clients i) turn c new)
    (hrecv : Delivers s.wire (w.addr i) turn.recv) (j : ι) (d : Datagram)
    (hd : Transfer.received d ∈ (Function.update s.clients i c j).transfers) :
    d.addr = w.server ∧ ∃ n, Numbered (Function.update s.clients i c j) n ∧
      d.bytes = Net.received buflen ((request n).map toupper) := by
  have hold : Transfer.received d ∈ (s.clients j).transfers → d.addr = w.server ∧
      ∃ n, Numbered (Function.update s.clients i c j) n ∧
        d.bytes = Net.received buflen ((request n).map toupper) := by
    intro hd
    obtain ⟨haddr, n, hn, hbytes⟩ := hs.received j d hd
    exact ⟨haddr, n, hn.update hnew.counter, hbytes⟩
  by_cases hj : j = i
  · subst hj
    rw [Function.update_self, hnew.transfers] at hd
    rcases List.mem_append.mp hd with hd | hd
    · exact hold hd
    · obtain ⟨bytes, hbytes, hd⟩ := hnew.received d hd
      obtain ⟨haddr, n, hn, rfl⟩ := hs.delivered_client (hrecv _ _ hbytes)
      exact ⟨haddr, n, hn.update hnew.counter, hd⟩
  · rw [Function.update_of_ne hj] at hd
    exact hold hd

theorem Setup.client_inv (hs : w.Inv s) (hrecv : Delivers s.wire (w.addr i) turn.recv)
    (hstep : Udpclient.step (s.clients i) turn = some c) :
    w.Inv { s with
      clients := Function.update s.clients i c
      wire := s.wire ++ if turn.sendOk then packets (w.addr i)
        ((c.transfers.drop (s.clients i).transfers.length).filterMap Transfer.sent?) else [] } := by
  obtain ⟨new, hnew⟩ := step_turned hstep
  have hcounter := hnew.counter
  rw [hnew.transfers, List.drop_left]
  refine ⟨?_, ?_, ?_, ?_, ?_⟩
  · intro pkt hpkt
    rcases List.mem_append.mp hpkt with hpkt | hpkt
    · exact (hs.wire pkt hpkt).update hcounter
    · split_ifs at hpkt
      · exact hs.packets_genuine hnew pkt hpkt
      · cases hpkt
  · refine (Function.forall_update_iff _ fun _ (c : Client) => c.serveraddr = w.server).mpr
      ⟨?_, fun j _ => hs.serveraddr j⟩
    rcases hnew.serveraddr with hsame | ⟨bytes, hbytes⟩
    · rw [hsame, hs.serveraddr]
    · exact (hs.delivered_client (hrecv _ _ hbytes)).1
  · refine (Function.forall_update_iff _ fun _ (c : Client) =>
      ∀ d, Transfer.sent d ∈ c.transfers → d.addr = w.server).mpr ⟨?_, fun j _ => hs.sent j⟩
    intro d hd
    rw [hnew.transfers] at hd
    rcases List.mem_append.mp hd with hd | hd
    · exact hs.sent i d hd
    · rw [(hnew.sent d hd).1, hs.serveraddr]
  · exact hs.received_numbered hnew hrecv
  · obtain ⟨entries, hserves, hentries⟩ := hs.served
    refine ⟨entries, hserves, fun e he => ?_⟩
    obtain ⟨j, n, hn, hentry⟩ := hentries e he
    exact ⟨j, n, hn.update hcounter, hentry⟩

theorem Setup.Reachable.inv (hs : w.Reachable s) : w.Inv s := by
  induction hs with
  | start noSend verbosity => exact Setup.start_inv noSend verbosity
  | step _ h ih =>
    cases h with
    | client hrecv hstep => exact Setup.client_inv ih hrecv hstep
    | server hrecv hpass => exact Setup.server_inv ih hrecv hpass

end

section
variable {m n : ℕ}

/-- A message is a number between two texts, and zeros. -/
theorem nextMessage_eq (n : ℕ) : nextMessage n =
    SimpCommon.chars "Hello! A client request message " ++
      (decimal n ++ charByte '!' :: List.replicate (buflen - (33 + (decimal n).length)) 0) := by
  have htext : ("Hello! A client request message " ++ toString n ++ "!").toList.map
      (fun c => BitVec.ofNat 8 c.toNat) =
        SimpCommon.chars "Hello! A client request message " ++ (decimal n ++ [charByte '!']) := by
    have hdigits : (toString n).toList = Nat.toDigits 10 n := Nat.toList_repr
    rw [String.toList_append, String.toList_append, hdigits, List.map_append, List.map_append,
      List.append_assoc]
    rfl
  have hprefix : (SimpCommon.chars "Hello! A client request message ").length = 32 := by decide
  unfold nextMessage
  dsimp only
  rw [htext, List.length_append, List.length_append, hprefix, List.length_singleton,
    List.append_assoc, List.append_assoc, List.singleton_append]
  congr 4
  omega

/-- The number of a message is an `int`, and so the buffer is not too short. -/
theorem nextMessage_length (hn : n < 2 ^ 31) : (nextMessage n).length = buflen := by
  have hdigits : (decimal n).length ≤ 10 := by
    rw [decimal, List.length_map]
    exact (Nat.length_toDigits_le_iff (by decide) (by decide)).mpr (by omega)
  have hprefix : (SimpCommon.chars "Hello! A client request message ").length = 32 := by decide
  rw [nextMessage_eq, List.length_append, List.length_append, List.length_cons,
    List.length_replicate, hprefix, buflen]
  omega

theorem toupper_of_isDecimal {b : Byte} (hb : IsDecimal b) : toupper b = b := by
  unfold IsDecimal at hb
  unfold toupper
  rw [if_neg]
  rw [BitVec.le_def, BitVec.le_def] at hb ⊢
  simp only [BitVec.toNat_ofNat] at hb ⊢
  omega

theorem toupper_nextMessage_inj (h : (nextMessage m).map toupper = (nextMessage n).map toupper) :
    m = n := by
  have hdecimal : ∀ k, (decimal k).map toupper = decimal k := by
    intro k
    conv_rhs => rw [← List.map_id (decimal k)]
    exact List.map_congr_left fun b hb => toupper_of_isDecimal (isDecimal_decimal k b hb)
  simp only [nextMessage_eq, List.map_append, List.map_cons, hdecimal] at h
  have hcut := List.append_cancel_left h
  have hmark : ¬ IsDecimal (toupper (charByte '!')) := by decide
  exact decimal_inj (cut_inj (isDecimal_decimal m) (isDecimal_decimal n) hmark hmark hcut).1

theorem request_of_lt (hn : n < 2 ^ 31) : request n = nextMessage n :=
  received_of_le ((nextMessage_length hn).trans_le (by decide))

end

/-- In every state of the system, whatever was lost, repeated or delivered out of order: a client
has sent to the server only, and each reply that it has is the upper case of one of its own
messages, which is known from the reply; and the server has counted, logged and answered messages
of the clients only. -/
theorem echo_safety [DecidableEq ι] (w : Setup ι) (s : System ι) (hs : w.Reachable s)
    (hint : ∀ i, (s.clients i).messageCounter < 2 ^ 31) :
    (∀ i d, Transfer.sent d ∈ (s.clients i).transfers → d.addr = w.server) ∧
    (∀ i d, Transfer.received d ∈ (s.clients i).transfers → d.addr = w.server ∧
      ∃! n, Numbered (s.clients i) n ∧ d.bytes = (nextMessage n).map toupper) ∧
    ∃ entries, s.server.Serves w.outFile w.doAnEcho entries ∧
      ∀ e ∈ entries, ∃ i n, Numbered (s.clients i) n ∧ e.clientaddr = w.addr i ∧
        e.data = nextMessage n := by
  have hinv := hs.inv
  have hsmall : ∀ i n, Numbered (s.clients i) n → n < 2 ^ 31 :=
    fun i n hn => hn.2.trans_lt (hint i)
  refine ⟨hinv.sent, fun i d hd => ?_, ?_⟩
  · obtain ⟨haddr, n, hn, hbytes⟩ := hinv.received i d hd
    have hreply : d.bytes = (nextMessage n).map toupper := by
      rw [hbytes, request_of_lt (hsmall i n hn), received_of_le]
      rw [List.length_map, nextMessage_length (hsmall i n hn)]
    refine ⟨haddr, n, ⟨hn, hreply⟩, fun m hm => ?_⟩
    exact toupper_nextMessage_inj (hm.2.symm.trans hreply)
  · obtain ⟨entries, hserves, hentries⟩ := hinv.served
    refine ⟨entries, hserves, fun e he => ?_⟩
    obtain ⟨i, n, hn, haddr, hdata⟩ := hentries e he
    exact ⟨i, n, hn, haddr, by rw [hdata, request_of_lt (hsmall i n hn)]⟩

def sampleSetup : Setup Unit where
  addr := ⟨fun _ => ⟨0x7F000001#32, 40000#16⟩, fun _ _ _ => rfl⟩
  server := ⟨0x7F000001#32, 3333#16⟩
  addr_ne := by
    intro _ h
    cases h
  outFile := false
  doAnEcho := true

/-- The turns in which a message is sent and the answer to it received, and the pass between. -/
def sendTurn : Turn := ⟨'\x00', true, .again⟩

def samplePass : Udpserver.Pass :=
  ⟨'\x00', .datagram (sampleSetup.addr ()) (nextMessage 1), ⟨1, 0, 100, 0, 0, 0⟩, 100, 100, true⟩

def readTurn : Turn :=
  ⟨'\x00', true, .datagram sampleSetup.server ((nextMessage 1).map toupper)⟩

theorem echo_safety_reply :
    ∃ s : System Unit, sampleSetup.Reachable s ∧
      ∃ d, Transfer.received d ∈ (s.clients ()).transfers ∧ d.addr = sampleSetup.server ∧
        ∃! n, Numbered (s.clients ()) n ∧ d.bytes = (nextMessage n).map toupper := by
  have hsend : ∃ s, sampleSetup.Reachable s ∧ s.server = .start false true 0 ∧
      s.clients () = (Client.start sampleSetup.server false 0).top sendTurn ∧
      s.wire = [⟨sampleSetup.addr (), sampleSetup.server, nextMessage 1⟩] := by
    have hdeliver : Delivers [] (sampleSetup.addr ()) sendTurn.recv := nofun
    exact ⟨_, .step (.start false 0) (.client hdeliver rfl), rfl, rfl, rfl⟩
  obtain ⟨s, hs, hserver, hclient, hwire⟩ := hsend
  have hserve : ∃ t, sampleSetup.Reachable t ∧ t.clients () = s.clients () ∧
      ⟨sampleSetup.server, sampleSetup.addr (), (nextMessage 1).map toupper⟩ ∈ t.wire := by
    have hdeliver : Delivers s.wire sampleSetup.server samplePass.recv := by
      intro src bytes hrecv
      cases hrecv
      rw [hwire]
      exact List.mem_singleton_self _
    obtain ⟨u, hpass, hiret⟩ : ∃ u, Udpserver.pass (.start false true 0) samplePass = some u ∧
        u.iret = 0 := ⟨_, rfl, rfl⟩
    have hserves := Udpserver.pass_serves (Udpserver.Server.Serves.start false true 0) hpass
    have hsent : u.sent = [⟨sampleSetup.addr (), (nextMessage 1).map toupper⟩] := by
      rw [← request_of_lt (show 1 < 2 ^ 31 by decide)]
      exact (hserves.settled hiret).2.1
    rw [← hserver] at hpass
    refine ⟨_, .step hs (.server hdeliver hpass), rfl, List.mem_append_right _ ?_⟩
    rw [hserver, hsent]
    exact List.mem_singleton_self _
  obtain ⟨t, ht, hsame, hreply⟩ := hserve
  have hread : ∃ u, sampleSetup.Reachable u ∧ u.clients () =
      ((Client.start sampleSetup.server false 0).top sendTurn).wait readTurn := by
    have hdeliver : Delivers t.wire (sampleSetup.addr ()) readTurn.recv := by
      intro src bytes hrecv
      cases hrecv
      exact hreply
    have hstep : Udpclient.step (t.clients ()) readTurn =
        some (((Client.start sampleSetup.server false 0).top sendTurn).wait readTurn) := by
      rw [hsame, hclient]
      rfl
    exact ⟨_, .step ht (.client hdeliver hstep), rfl⟩
  obtain ⟨u, hu, hclient⟩ := hread
  obtain ⟨-, hreceived, -⟩ := echo_safety sampleSetup u hu (fun i => by
    rw [hclient]
    decide)
  refine ⟨u, hu, ⟨sampleSetup.server, received buflen ((nextMessage 1).map toupper)⟩, ?_,
    hreceived () _ ?_⟩
  · rw [hclient]
    exact List.mem_append_right _ (List.mem_singleton_self _)
  · rw [hclient]
    exact List.mem_append_right _ (List.mem_singleton_self _)

end TcpTests.Udpclient
