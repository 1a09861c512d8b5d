import Mathlib.Data.List.DropRight
import TcpTests.Lib.Machine
import TcpTests.UnixServer.Server

/-! `unix_client`: the loop of `main` that sends what is typed and receives its echo, with the
loop of `unix_server` that echoes it. A call of `send` or `recv` of either side is one step, and
what is in flight between the two is in the state. -/
namespace TcpTests.UnixClient
open Lib

/-- The size of `send_buf` and of `recv_buf`. -/
def bufSize : ℕ := 80

def newline : Byte := 10#8

/-- What `fgets` takes of the input: no more than `n - 1` characters, and none after a newline. -/
def fgets (n : ℕ) (stdin : List Byte) : List Byte :=
  (stdin.takeWhile (· ≠ newline) ++ if newline ∈ stdin then [newline] else []).take (n - 1)

/-- `send_buf[i] > ' '`, where `char` is signed. -/
def isVisible (b : Byte) : Bool := (0x20#8).slt b

/-- A character of the line is above the blank. -/
def HasVisible (line : List Byte) : Prop := ∃ b ∈ line, 0x20 < b.toNat

instance (line : List Byte) : Decidable (HasVisible line) :=
  inferInstanceAs (Decidable (∃ b ∈ line, _))

/-- The string in `send_buf` once what is not visible is cut off at its end. -/
def sendText (line : List Byte) : List Byte :=
  (line.takeWhile (· ≠ 0)).rdropWhile fun b => !isVisible b

/-- Where the client stands. It has `stopped` when there was nothing to send, and `failed` when it
took one of the two error exits. -/
inductive Pc
  | fgets
  | send
  | recv
  | stopped
  | failed
  deriving DecidableEq, Repr

/-- The client, the connection as the server has it, and the bytes on their way: `up` those that
the server has not received, `held` the piece that it has received and not sent back, and `down`
those that the client has not received. `line` is what `fgets` has read. -/
structure Exchange where
  stdin : List Byte
  line : List Byte
  sendBuf : List Byte
  sent : List Byte
  received : List Byte
  pc : Pc
  up : List Byte
  held : List Byte
  conn : UnixServer.Conn
  down : List Byte
  deriving DecidableEq

def Exchange.start (stdin : List Byte) : Exchange where
  stdin := stdin
  line := []
  sendBuf := []
  sent := []
  received := []
  pc := .fgets
  up := []
  held := []
  conn := .fresh
  down := []

inductive Event
  | fgets
  | send (len : ℕ)
  | serverRecv (n : ℕ)
  | serverSend
  | recv (n : ℕ)
  deriving DecidableEq, Repr

/-- A line is read and cut. At the end of the input it is empty. -/
def Exchange.fgets (s : Exchange) : Exchange :=
  let line := UnixClient.fgets bufSize s.stdin
  { s with
    stdin := s.stdin.drop line.length
    line := line
    sendBuf := sendText line
    pc := if sendText line = [] then .stopped else .send }

/-- The string is sent with its NUL. A `send` that does not take all of it is an error. -/
def Exchange.send (s : Exchange) (len : ℕ) : Option Exchange :=
  let bytes := s.sendBuf ++ [0]
  if len ≤ bytes.length then
    some { s with
      sent := bytes.take len
      up := s.up ++ bytes.take len
      pc := if len = bytes.length then .recv else .failed }
  else none

/-- The server receives any piece that its buffer takes, and sends all of it back. -/
def Exchange.serverRecv (s : Exchange) (n : ℕ) : Option Exchange :=
  if 0 < n ∧ n ≤ UnixServer.bufferSize ∧ n ≤ s.up.length ∧ s.held = [] then
    some { s with
      up := s.up.drop n
      held := s.up.take n
      conn := { s.conn with received := s.conn.received ++ s.up.take n } }
  else none

def Exchange.serverSend (s : Exchange) : Option Exchange :=
  if s.held = [] then none
  else some { s with
    held := []
    conn := { s.conn with sent := s.conn.sent ++ s.held }
    down := s.down ++ s.held }

/-- One `recv` of the client gives any piece of what has been sent back. Anything but the length of
the string and its NUL is an error. -/
def Exchange.recv (s : Exchange) (n : ℕ) : Option Exchange :=
  if 0 < n ∧ n ≤ bufSize ∧ n ≤ s.down.length then
    some { s with
      received := s.down.take n
      down := s.down.drop n
      pc := if n = s.sendBuf.length + 1 then .fgets else .failed }
  else none

def step (s : Exchange) (e : Event) : Option Exchange :=
  match e, s.pc with
  | .fgets, .fgets => some s.fgets
  | .send len, .send => s.send len
  | .recv n, .recv => s.recv n
  | .serverRecv n, _ => s.serverRecv n
  | .serverSend, _ => s.serverSend
  | _, _ => none

section
variable {s t : Exchange} {n : ℕ}

theorem send_cases (h : s.send n = some t) :
    n ≤ (s.sendBuf ++ [0]).length ∧
      t = { s with
        sent := (s.sendBuf ++ [0]).take n
        up := s.up ++ (s.sendBuf ++ [0]).take n
        pc := if n = (s.sendBuf ++ [0]).length then .recv else .failed } := by
  simp only [Exchange.send] at h
  by_cases hn : n ≤ (s.sendBuf ++ [0]).length
  · rw [if_pos hn] at h
    cases h
    exact ⟨hn, rfl⟩
  · rw [if_neg hn] at h
    cases h

theorem serverRecv_cases (h : s.serverRecv n = some t) :
    (0 < n ∧ n ≤ UnixServer.bufferSize ∧ n ≤ s.up.length) ∧ s.held = [] ∧
      t = { s with
        up := s.up.drop n
        held := s.up.take n
        conn := { s.conn with received := s.conn.received ++ s.up.take n } } := by
  unfold Exchange.serverRecv at h
  split_ifs at h with hn
  cases h
  exact ⟨⟨hn.1, hn.2.1, hn.2.2.1⟩, hn.2.2.2, rfl⟩

theorem serverSend_cases (h : s.serverSend = some t) :
    t = { s with
      held := []
      conn := { s.conn with sent := s.conn.sent ++ s.held }
      down := s.down ++ s.held } := by
  unfold Exchange.serverSend at h
  split_ifs at h
  cases h
  rfl

theorem recv_cases (h : s.recv n = some t) :
    0 < n ∧ n ≤ s.down.length ∧
      t = { s with
        received := s.down.take n
        down := s.down.drop n
        pc := if n = s.sendBuf.length + 1 then .fgets else .failed } := by
  unfold Exchange.recv at h
  by_cases hn : 0 < n ∧ n ≤ bufSize ∧ n ≤ s.down.length
  · rw [if_pos hn] at h
    cases h
    exact ⟨hn.1, hn.2.2, rfl⟩
  · rw [if_neg hn] at h
    cases h

theorem sendText_length_le (stdin : List Byte) :
    (sendText (fgets bufSize stdin)).length ≤ bufSize - 1 := by
  have hcut : (sendText (fgets bufSize stdin)).length ≤ (fgets bufSize stdin).length :=
    ((List.rdropWhile_prefix _ _).length_le).trans (List.takeWhile_prefix _).length_le
  exact hcut.trans (List.length_take_le _ _)

/-- There is something to send just when a visible character comes before any NUL. -/
theorem sendText_ne_nil {line : List Byte} :
    sendText line ≠ [] ↔ ∃ b ∈ line.takeWhile (· ≠ 0), isVisible b = true := by
  rw [sendText, ne_eq, List.rdropWhile_eq_nil_iff]
  simp

end

end TcpTests.UnixClient
