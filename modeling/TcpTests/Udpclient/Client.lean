import TcpTests.Lib.Machine
import TcpTests.Net.Transfer

/-! `udpclient`: the loop of `run_udpclient`. The machine takes one step for each turn of one of
its loops. The length that `recvfrom` is given for the address is the size of a pointer, which on
a 64-bit machine covers the address and the port. -/
namespace TcpTests.Udpclient
open Lib Net

/-- The size of `buffer`. -/
def buflen : ℕ := 100

/-- The text of a message, and zeros up to the end of the buffer. -/
def nextMessage (messageCounter : ℕ) : List Byte :=
  let text := ("Hello! A client request message " ++ toString messageCounter ++ "!").toList.map
    fun c => BitVec.ofNat 8 c.toNat
  text ++ List.replicate (buflen - text.length) 0

/-- Where the client stands: before it sends, in the wait for a reply, or in the loop that sends
again after an error, with the rounds that are left. -/
inductive Pc
  | top
  | wait
  | retry (waitCycles : ℕ)
  | done
  deriving DecidableEq, Repr

/-- The state of `run_udpclient`, with a record of what was sent and received. -/
structure Client where
  serveraddr : SockaddrIn
  noSendToServer : Bool
  messageCounter : ℕ
  verbosity : ℕ
  isPaused : Bool
  waitReceive : Bool
  waitCycles : ℕ
  pc : Pc
  iret : ℕ
  transfers : List Transfer
  deriving DecidableEq

def Client.start (serveraddr : SockaddrIn) (noSendToServer : Bool) (verbosity : ℕ) : Client where
  serveraddr := serveraddr
  noSendToServer := noSendToServer
  messageCounter := 0
  verbosity := verbosity
  isPaused := false
  waitReceive := false
  waitCycles := 0
  pc := .top
  iret := 0
  transfers := []

/-- The new state, and whether the exit key was pressed. No key is character 0. -/
def Client.checkKey (c : Client) (chr : Char) : Client × Bool :=
  if chr = '\x1b' then (c, true)
  else if chr = 'p' then ({ c with isPaused := !c.isPaused }, false)
  else if chr = 'r' then ({ c with waitReceive := false }, false)
  else if chr ∈ ['0', '1', '2', '5', '9'] then
    ({ c with verbosity := chr.toNat - '0'.toNat }, false)
  else (c, false)

def Client.sendto (c : Client) (sendOk : Bool) : Client × Bool :=
  if c.noSendToServer then (c, true)
  else
    let counter := c.messageCounter + 1
    let c := { c with
      messageCounter := counter
      transfers := c.transfers ++ [.sent ⟨c.serveraddr, nextMessage counter⟩] }
    if sendOk then (c, true) else ({ c with iret := 1, pc := .done }, false)

/-- A datagram was received. The address it comes from is stored where that of the server was. -/
def Client.recvfrom (c : Client) (addr : SockaddrIn) (bytes : List Byte) : Client :=
  { c with
    serveraddr := addr
    transfers := c.transfers ++ [.received ⟨addr, received buflen bytes⟩] }

/-- What a turn comes to: the key pressed, whether `sendto` succeeds, and what `recvfrom` gives. A
turn that makes no such call does not look at it. -/
structure Turn where
  key : Char
  sendOk : Bool
  recv : Recv

def Client.top (c : Client) (turn : Turn) : Client :=
  let k := c.checkKey turn.key
  if k.2 then { k.1 with pc := .done }
  else
    let s := k.1.sendto turn.sendOk
    if s.2 then { s.1 with waitReceive := true, waitCycles := 0, pc := .wait } else s.1

/-- A turn of `while (wait_receive)`. An error leads to the loop that sends again. -/
def Client.wait (c : Client) (turn : Turn) : Client :=
  if !c.waitReceive then { c with pc := .top }
  else
    let k := c.checkKey turn.key
    if k.2 then { k.1 with pc := .done }
    else
      let c := { k.1 with waitCycles := k.1.waitCycles + 1 }
      match turn.recv with
      | .again => c
      | .failed => { c with pc := .retry 200 }
      | .datagram addr bytes => { c.recvfrom addr bytes with waitReceive := false }

/-- A turn of `while (wait_cycles--)`, which ends at the first datagram. -/
def Client.retry (c : Client) (waitCycles : ℕ) (turn : Turn) : Client :=
  if waitCycles = 0 then { c with pc := .top }
  else
    let k := c.checkKey turn.key
    if k.2 then { k.1 with pc := .done }
    else
      let s := k.1.sendto turn.sendOk
      if !s.2 then s.1
      else
        match turn.recv with
        | .again | .failed => { s.1 with pc := .retry (waitCycles - 1) }
        | .datagram addr bytes => { s.1.recvfrom addr bytes with pc := .top }

def step (c : Client) (turn : Turn) : Option Client :=
  match c.pc with
  | .top => some (c.top turn)
  | .wait => some (c.wait turn)
  | .retry waitCycles => some (c.retry waitCycles turn)
  | .done => none

end TcpTests.Udpclient
