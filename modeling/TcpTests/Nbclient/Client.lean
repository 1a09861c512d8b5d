import TcpTests.Lib.Machine
import TcpTests.Lib.Memory
import TcpTests.SimpCommon.Sleep

/-! `nbclient`: the loop of `run_nbclient` with `check_key`. One input of the machine is one pass
of the loop, or one round of the sleep after an error of the read. -/
namespace TcpTests.Nbclient
open Lib

structure Settings where
  mDelayTime : ℕ
  isPaused : Bool
  deriving DecidableEq, Repr

/-- The new settings, and whether the exit key was pressed. No key is character 0. The delay stops
at 0. -/
def checkKey (s : Settings) (chr : Char) : Settings × Bool :=
  if chr = 'd' then ({ s with mDelayTime := s.mDelayTime - 10 }, false)
  else if chr = 'i' then ({ s with mDelayTime := s.mDelayTime + 10 }, false)
  else if chr = 'p' then ({ s with isPaused := !s.isPaused }, false)
  else if chr = '\x1b' then (s, true)
  else (s, false)

/-- The keys polled one after the other, up to the exit key. -/
def checkKeys (s : Settings) : List Char → Settings × Bool
  | [] => (s, false)
  | chr :: chrs =>
    let k := checkKey s chr
    if k.2 then k else checkKeys k.1 chrs

def maxRecvErrors : ℕ := 2

def maxSendErrors : ℕ := 2

/-- `DEF_SLEEP`, in seconds. -/
def defSleep : ℤ := 1

/-- Seconds between two reports of a read of zero bytes. -/
def readMsgTime : ℤ := 10

def writeAfter : ℕ := 3

/-- The outcome of `send`. An error is fatal or not; only the Windows build looks at that. -/
inductive SendResult
  | sent
  | failed (fatal : Bool)

/-- The outcome of a read. One of zero bytes comes with the times that the clock shows when it is
asked whether a report is due, and when the report is made. -/
inductive ReadResult
  | again
  | failed
  | null (now stored : ℤ)
  | data

/-- A read: `last_read` before it, its outcome, and whether it was reported. -/
structure Read where
  lastRead : ℤ
  result : ReadResult
  reported : Bool

/-- At the head of the loop, in the sleep, or out of the loop. -/
inductive Pc
  | top
  | sleep (msecs : ℤ)
  | done
  deriving DecidableEq

/-- The variables of `run_nbclient`, with a record of the reads. -/
structure Client where
  settings : Settings
  wait4Reply : Bool
  sendErrors : ℕ
  recvErrors : ℕ
  lastRead : ℤ
  nulReadCnt : ℕ
  pc : Pc
  iret : ℕ
  reads : List Read

def Client.start : Client where
  settings := ⟨SimpCommon.defPause, false⟩
  wait4Reply := false
  sendErrors := 0
  recvErrors := 0
  lastRead := 0
  nulReadCnt := 0
  pc := .top
  iret := 0
  reads := []

/-- What a pass comes to: the keys in the order in which the polls look at them, and what `send`
and the read give. -/
structure Turn where
  headKey : Char
  sendKeys : Char × Char × Char
  tailKey : Char
  send : SendResult
  read : ReadResult

/-- The keys are polled. The second component says that the exit key was not pressed. -/
def Client.poll (c : Client) (keys : List Char) : Client × Bool :=
  let k := checkKeys c.settings keys
  if k.2 then ({ c with settings := k.1, pc := .done }, false)
  else ({ c with settings := k.1 }, true)

/-- Nothing is sent while a reply is awaited. The second component says that the pass goes on. -/
def Client.send (os : Platform) (c : Client) (turn : Turn) : Client × Bool :=
  if c.wait4Reply then (c, true)
  else
    match turn.send with
    | .sent =>
      let p := c.poll [turn.sendKeys.1, turn.sendKeys.2.1]
      if p.2 then ({ p.1 with wait4Reply := true }, true) else p
    | .failed fatal =>
      let c := { c with sendErrors := c.sendErrors + 1 }
      if os = .windows ∧ (fatal ∨ maxSendErrors < c.sendErrors) then
        ({ c with iret := 1, pc := .done }, false)
      else ((c.poll [turn.sendKeys.1, turn.sendKeys.2.1, turn.sendKeys.2.2]).1, false)

/-- The read and what follows it. A report stores the time in `last_read`; a read of zero bytes
that is not reported clears it, as data does. -/
def Client.read (c : Client) (turn : Turn) : Client :=
  let record := fun reported => c.reads ++ [⟨c.lastRead, turn.read, reported⟩]
  let finish := fun c : Client => ({ c with recvErrors := 0, lastRead := 0 }.poll [turn.tailKey]).1
  match turn.read with
  | .again => { c with reads := record false }
  | .failed =>
    let c := { c with recvErrors := c.recvErrors + 1, reads := record false }
    if maxRecvErrors < c.recvErrors then { c with iret := 1, pc := .done }
    else { c with pc := .sleep (SimpCommon.msecsOf (defSleep * 2)) }
  | .null now stored =>
    if c.lastRead = 0 ∨ readMsgTime < now - c.lastRead then
      let nulReadCnt := c.nulReadCnt + 1
      { c with
        lastRead := stored
        nulReadCnt := nulReadCnt
        wait4Reply := if writeAfter ≤ nulReadCnt then false else c.wait4Reply
        reads := record true }
    else finish { c with reads := record false }
  | .data => finish { c with wait4Reply := false, reads := record false }

def Client.pass (os : Platform) (c : Client) (turn : Turn) : Client :=
  let p := c.poll [turn.headKey]
  if !p.2 then p.1
  else if p.1.settings.isPaused then p.1
  else
    let s := p.1.send os turn
    if s.2 then s.1.read turn else s.1

/-- A test of `while (msecs)` in `check_key_sleep` and the round after it. -/
def Client.sleep (c : Client) (msecs : ℤ) (turn : Turn) : Client :=
  if msecs = 0 then { c with pc := .top }
  else
    let p := c.poll [turn.headKey]
    if !p.2 then p.1
    else if msecs > p.1.settings.mDelayTime then
      { p.1 with pc := .sleep (msecs - p.1.settings.mDelayTime) }
    else { p.1 with pc := .sleep 0 }

def step (os : Platform) (c : Client) (turn : Turn) : Option Client :=
  match c.pc with
  | .top => some (c.pass os turn)
  | .sleep msecs => some (c.sleep msecs turn)
  | .done => none

end TcpTests.Nbclient
