import TcpTests.Lib.Machine
import TcpTests.Lib.Memory

/-! `simp_client`: the loop of `run_client` with `do_client_connect`, `check_key` and
`check_key_sleep`. The machine takes one step for each call of the operating system and each
reading of the keyboard. How long the client is throttled depends on the clock and is left
open. -/
namespace TcpTests.SimpClient
open Lib

def maxStr : ℕ := 1024

def maxRecvErrors : ℕ := 2

inductive Key
  | esc
  | pause
  | reset
  | other
  deriving DecidableEq

/-- What happened on the connections, and the presses of the key that resets the wait. -/
inductive Happening
  | connected
  | wrote (bytes : List Byte)
  | gotData (bytes : List Byte)
  | lost
  | reset
  deriving DecidableEq

/-- Where the client stands. `socket` and `connect` are in `do_client_connect`, `throttle` and
`keys` before the test for a pause, `send` is the decision whether to send, and `sent` the part
between a write and the waiting for its reply. -/
inductive Pc
  | top
  | socket
  | connect
  | throttle
  | keys
  | send
  | sent
  | select
  | recv
  | exited
  deriving DecidableEq

/-- The variables of the client, and what has happened, the latest first. -/
structure Client where
  receiveOnly : Bool
  onceOnly : Bool
  secsToSleep : ℕ
  sleepSecs : ℕ
  notConnected : Bool
  sockfd : ℤ
  isPaused : Bool
  wait4Reply : Bool
  recvErrors : ℕ
  outCount : ℕ
  pc : Pc
  log : List Happening
  deriving DecidableEq

/-- The first connection is made by `main`, in the way in which `run_client` makes the others. -/
def Client.start (receiveOnly onceOnly : Bool) (secsToSleep : ℕ) : Client where
  receiveOnly := receiveOnly
  onceOnly := onceOnly
  secsToSleep := secsToSleep
  sleepSecs := 1
  notConnected := true
  sockfd := 0
  isPaused := false
  wait4Reply := false
  recvErrors := 0
  outCount := 0
  pc := .socket
  log := []

/-- The client after `check_key`, and whether it returned 1. All the keys are read that have been
pressed, up to an `ESC`. -/
def Client.checkKey (c : Client) : List Key → Client × Bool
  | [] => (c, false)
  | .esc :: _ => (c, true)
  | .pause :: keys => Client.checkKey { c with isPaused := !c.isPaused } keys
  | .reset :: keys => Client.checkKey { c with wait4Reply := false, log := .reset :: c.log } keys
  | .other :: keys => Client.checkKey c keys

/-- `check_key` is called again and again while the time runs, and never if there is none. -/
def Client.checkKeySleep (c : Client) (secs : ℕ) (keys : List Key) : Client × Bool :=
  if secs = 0 then (c, false) else c.checkKey keys

def Client.unlessEsc (r : Client × Bool) (pc : Pc) : Client :=
  if r.2 then { r.1 with pc := .exited } else { r.1 with pc := pc }

def message (date : List Byte) (outCount : ℕ) : List Byte :=
  date ++ (": " ++ toString outCount ++ " - Hello server!\n").toList.map fun c =>
    BitVec.ofNat 8 c.toNat

inductive WriteOutcome
  | wrote (n : ℕ)
  | failed

inductive SelectOutcome
  | failed
  | notReady
  | ready

inductive RecvOutcome
  | received (bytes : List Byte) (fits : 0 < bytes.length ∧ bytes.length ≤ maxStr)
  | closed
  | wouldBlock
  | failed

def Client.top (c : Client) : Client :=
  { c with pc := if c.notConnected then .socket else .throttle }

/-- With `select` in use nothing is slept between the steps once there is a socket. -/
def Client.socket (c : Client) : Option ℤ → Client
  | none => { c with sockfd := -1, pc := .exited }
  | some sd => { c with sockfd := sd, sleepSecs := 0, pc := .connect }

/-- A failed `connect` is tried again after a sleep. -/
def Client.connect (c : Client) (connected : Bool) (keys : List Key) : Client :=
  if connected then
    { c with notConnected := false, log := .connected :: c.log, pc := .throttle }
  else Client.unlessEsc (c.checkKeySleep c.secsToSleep keys) .connect

def Client.throttle (c : Client) (throttled : Bool) (keys : List Key) : Client :=
  if throttled then Client.unlessEsc (c.checkKey keys) .top else { c with pc := .keys }

def Client.keys (c : Client) (keys : List Key) : Client :=
  let r := c.checkKey keys
  Client.unlessEsc r (if r.1.isPaused then .top else .send)

/-- The client sends unless it waits for a reply. -/
def Client.sends (c : Client) : Bool := !c.receiveOnly && !c.wait4Reply

def Client.write (c : Client) (date : List Byte) (keys : List Key) :
    WriteOutcome → Option Client
  | .wrote n =>
    let bytes := message date (c.outCount + 1)
    if n ≤ bytes.length then
      some { c with outCount := c.outCount + 1, log := .wrote (bytes.take n) :: c.log, pc := .sent }
    else none
  | .failed => some (Client.unlessEsc ({ c with outCount := c.outCount + 1 }.checkKey keys) .top)

/-- The keys are read twice before the client waits for the reply. -/
def Client.sent (c : Client) (keys₁ keys₂ : List Key) : Client :=
  let r := c.checkKey keys₁
  if r.2 then { r.1 with pc := .exited }
  else
    let r := r.1.checkKey keys₂
    if r.2 then { r.1 with pc := .exited }
    else { r.1 with wait4Reply := true, pc := .select }

def Client.select (c : Client) : SelectOutcome → Client
  | .failed => { c with pc := .exited }
  | .notReady => { c with pc := .top }
  | .ready => { c with pc := .recv }

/-- After too many errors the server is taken to be gone and the socket is closed, but an end of
the data then ends the client. -/
def Client.recv (c : Client) (keys : List Key) : RecvOutcome → Client
  | .wouldBlock => { c with pc := .top }
  | .failed =>
    let c := { c with recvErrors := c.recvErrors + 1 }
    if c.recvErrors > maxRecvErrors then
      { c with sockfd := 0, notConnected := true, log := .lost :: c.log, pc := .top }
    else Client.unlessEsc (c.checkKeySleep (c.sleepSecs * 2) keys) .top
  | .closed =>
    let c := { c with recvErrors := c.recvErrors + 1 }
    if c.recvErrors > maxRecvErrors then { c with pc := .exited }
    else Client.unlessEsc (c.checkKeySleep (c.sleepSecs * 2) keys) .top
  | .received bytes _ =>
    { c with
      recvErrors := 0
      wait4Reply := false
      log := .gotData bytes :: c.log
      pc := if c.onceOnly then .exited else .top }

inductive Event
  | tick
  | socket (outcome : Option ℤ)
  | connect (connected : Bool) (keys : List Key)
  | throttle (throttled : Bool) (keys : List Key)
  | keys (keys : List Key)
  | write (date : List Byte) (outcome : WriteOutcome) (keys : List Key)
  | sent (keys₁ keys₂ : List Key)
  | select (outcome : SelectOutcome)
  | recv (outcome : RecvOutcome) (keys : List Key)

def step (c : Client) (e : Event) : Option Client :=
  match e, c.pc with
  | .tick, .top => some c.top
  | .socket outcome, .socket => some (c.socket outcome)
  | .connect connected keys, .connect => some (c.connect connected keys)
  | .throttle throttled keys, .throttle => some (c.throttle throttled keys)
  | .keys keys, .keys => some (c.keys keys)
  | .write date outcome keys, .send => if c.sends then c.write date keys outcome else none
  | .tick, .send => if c.sends then none else some { c with pc := .select }
  | .sent keys₁ keys₂, .sent => some (c.sent keys₁ keys₂)
  | .select outcome, .select => some (c.select outcome)
  | .recv outcome keys, .recv => some (c.recv keys outcome)
  | _, _ => none

end TcpTests.SimpClient
