import TcpTests.Lib.Machine
import TcpTests.Lib.Table
import TcpTests.Sockhelp.Sockhelp
import TcpTests.Text.CleanData

/-! `nbserver`: the select loop of `run_nbserver` with `build_select_list`,
`handle_new_connection`, `read_socks` and `deal_with_data`. The machine takes one small step
at a time, so that connections and data can arrive between any two actions of the server. A
write past the end of an array is undefined behaviour, and nothing follows it. -/
namespace TcpTests.Nbserver
open Lib Sockhelp Text

def myMxConns : ℕ := 5

def myMxRcv : ℕ := 128

/-- The size of `buffer` and `cleaned` in `deal_with_data`. -/
def bufferSize : ℕ := myMxRcv + 16

/-- An accepted connection: all that has arrived on it, the part that has not been read, what
was written to it, and what a read reports once nothing is pending. -/
structure Conn where
  arrived : List Byte
  pending : List Byte
  sent : List Byte
  idle : Idle
  deriving DecidableEq

def Conn.fresh : Conn := ⟨[], [], [], .again⟩

inductive Pc
  | select
  | accept
  | read (listnum : ℕ)
  | checkKeys
  | exit
  | undefined
  deriving DecidableEq

/-- The state of the server and of its sockets. A free slot of `connectlist` is 0. The
connections that the server closed after it had given them a slot are kept in `lost`, and `refused`
lists the arguments of `SCLOSE` for those that it had no slot for. -/
structure NbServer where
  sock : ℕ
  connectlist : ℕ → ℕ
  socks : List ℕ
  highsock : ℕ
  pc : Pc
  waiting : ℕ
  conns : ℕ → Option Conn
  lost : List Conn
  refused : List ℕ

def NbServer.start (sock : ℕ) : NbServer where
  sock := sock
  connectlist := fun _ => 0
  socks := []
  highsock := sock
  pc := .select
  waiting := 0
  conns := fun _ => none
  lost := []
  refused := []

def NbServer.occupied (s : NbServer) : List ℕ :=
  ((List.range myMxConns).map s.connectlist).filter (· ≠ 0)

def NbServer.buildSelectList (s : NbServer) : NbServer :=
  { s with socks := s.sock :: s.occupied, highsock := s.occupied.foldl max s.highsock }

/-- What `select` reports as readable: a connection is waiting, or a read would not report
`EAGAIN`. -/
def NbServer.ready (s : NbServer) (fd : ℕ) : Bool :=
  if fd = s.sock then decide (0 < s.waiting)
  else
    match s.conns fd with
    | some c => decide (c.pending ≠ [] ∨ c.idle ≠ .again)
    | none => false

/-- Descriptors above `highsock` are not looked at. The loop goes on at the keyboard when
nothing is ready. -/
def NbServer.select (s : NbServer) : NbServer :=
  let s := s.buildSelectList
  let socks := s.socks.filter fun fd => decide (fd ≤ s.highsock) && s.ready fd
  { s with
    socks := socks
    pc := if socks = [] then .checkKeys else if s.sock ∈ socks then .accept else .read 0 }

/-- The first free slot takes the connection. With none free it is told so and closed. -/
def NbServer.handleNewConnection (s : NbServer) (connection : ℕ) : NbServer :=
  let s := { s with waiting := s.waiting - 1, pc := .read 0 }
  match (List.range myMxConns).find? fun listnum => s.connectlist listnum = 0 with
  | some listnum =>
    { s with
      connectlist := Function.update s.connectlist listnum connection
      conns := Function.update s.conns connection (some .fresh) }
  | none => { s with refused := s.refused ++ [connection] }

inductive Dealt
  | goesOn (c : Conn)
  | closes (c : Conn)
  | undefined

/-- The reply to a line. The line is not empty and has no linefeed. -/
def respond (buffer : List Byte) : List Byte :=
  let buffer := buffer.map toupper
  if buffer.getLast? ≠ some lf then buffer ++ [lf] else buffer

/-- A read of length zero is taken for a connection that was lost. What a read took before it failed
is not pending any more. -/
def dealWithData (c : Conn) (outs : List WriteOutcome) : Option Dealt :=
  let r := sockGets c.idle myMxRcv c.pending
  if r.ret ≤ 0 then some (.closes { c with pending := r.rest })
  else if ¬ CleanFits bufferSize r.str then some .undefined
  else
    (sockWrite (respond r.str) outs).map fun w =>
      if ¬ CleanFits bufferSize (respond r.str) then .undefined
      else .goesOn { c with pending := r.rest, sent := c.sent ++ w.1 }

/-- The state after data was dealt with. A lost connection frees its slot. -/
def NbServer.dealt (s : NbServer) (listnum : ℕ) : Dealt → NbServer
  | .goesOn c =>
    { s with conns := Function.update s.conns (s.connectlist listnum) (some c) }
  | .closes c =>
    { s with
      conns := Function.update s.conns (s.connectlist listnum) none
      connectlist := Function.update s.connectlist listnum 0
      lost := s.lost ++ [c] }
  | .undefined => { s with pc := .undefined }

def NbServer.nextSlot (s : NbServer) (listnum : ℕ) : NbServer :=
  { s with pc := if listnum + 1 < myMxConns then .read (listnum + 1) else .checkKeys }

/-- The part of the loop of `read_socks` for one slot. -/
def NbServer.readSlot (s : NbServer) (listnum : ℕ) (outs : List WriteOutcome) :
    Option NbServer :=
  if s.connectlist listnum ≠ 0 ∧ s.connectlist listnum ∈ s.socks then
    (s.conns (s.connectlist listnum)).bind fun c =>
      (dealWithData c outs).map fun d => (s.nextSlot listnum).dealt listnum d
  else some (s.nextSlot listnum)

/-- What can happen: a client connects, its data or its end arrives, or the server takes the
next step, with the descriptor from `accept`, the outcomes of the writes, and the key. The
server exits when `select` or `accept` fails. -/
inductive Event
  | connect
  | arrive (fd : ℕ) (bytes : List Byte)
  | ends (fd : ℕ) (idle : Idle)
  | select
  | accept (connection : ℕ)
  | read (outs : List WriteOutcome)
  | checkKeys (esc : Bool)
  | fails

/-- An accepted descriptor is positive and was not open. -/
def step (s : NbServer) (e : Event) : Option NbServer :=
  match e, s.pc with
  | .connect, _ => some { s with waiting := s.waiting + 1 }
  | .arrive fd bytes, _ =>
    (s.conns fd).map fun c =>
      { s with
        conns := Function.update s.conns fd
          (some { c with arrived := c.arrived ++ bytes, pending := c.pending ++ bytes }) }
  | .ends fd idle, _ =>
    (s.conns fd).map fun c =>
      { s with conns := Function.update s.conns fd (some { c with idle := idle }) }
  | .select, .select => some s.select
  | .accept connection, .accept =>
    if connection ≠ 0 ∧ connection ≠ s.sock ∧ s.conns connection = none then
      some (s.handleNewConnection connection)
    else none
  | .read outs, .read listnum => s.readSlot listnum outs
  | .checkKeys esc, .checkKeys => some { s with pc := if esc then .exit else .select }
  | .fails, .select | .fails, .accept => some { s with pc := .exit }
  | _, _ => none

section
variable {s t : NbServer} {listnum connection : ℕ} {outs : List WriteOutcome}

theorem nextSlot_pc (s : NbServer) (listnum : ℕ) : (s.nextSlot listnum).pc ≠ .undefined := by
  unfold NbServer.nextSlot
  dsimp only
  split_ifs <;> nofun

theorem readSlot_cases (h : s.readSlot listnum outs = some t) :
    (¬ (s.connectlist listnum ≠ 0 ∧ s.connectlist listnum ∈ s.socks) ∧
        t = s.nextSlot listnum) ∨
      ∃ c d, s.connectlist listnum ≠ 0 ∧ s.connectlist listnum ∈ s.socks ∧
        s.conns (s.connectlist listnum) = some c ∧ dealWithData c outs = some d ∧
        t = (s.nextSlot listnum).dealt listnum d := by
  unfold NbServer.readSlot at h
  split_ifs at h with hfd
  · obtain ⟨c, hc, h⟩ := Option.bind_eq_some_iff.mp h
    obtain ⟨d, hd, rfl⟩ := Option.map_eq_some_iff.mp h
    exact Or.inr ⟨c, d, hfd.1, hfd.2, hc, hd, rfl⟩
  · cases h
    exact Or.inl ⟨hfd, rfl⟩

theorem step_select (h : step s .select = some t) : s.pc = .select ∧ t = s.select := by
  cases hpc : s.pc with
  | select =>
    simp only [step, hpc] at h
    cases h
    exact ⟨rfl, rfl⟩
  | _ =>
    simp only [step, hpc] at h
    cases h

theorem step_accept (h : step s (.accept connection) = some t) :
    s.pc = .accept ∧ connection ≠ 0 ∧ connection ≠ s.sock ∧ s.conns connection = none ∧
      t = s.handleNewConnection connection := by
  cases hpc : s.pc with
  | accept =>
    simp only [step, hpc] at h
    split_ifs at h with hnew
    cases h
    exact ⟨rfl, hnew.1, hnew.2.1, hnew.2.2, rfl⟩
  | _ =>
    simp only [step, hpc] at h
    cases h

theorem step_read (h : step s (.read outs) = some t) :
    ∃ listnum, s.pc = .read listnum ∧ s.readSlot listnum outs = some t := by
  cases hpc : s.pc with
  | read listnum =>
    simp only [step, hpc] at h
    exact ⟨listnum, rfl, h⟩
  | _ =>
    simp only [step, hpc] at h
    cases h

theorem step_checkKeys {esc : Bool} (h : step s (.checkKeys esc) = some t) :
    s.pc = .checkKeys ∧ t = { s with pc := if esc then .exit else .select } := by
  cases hpc : s.pc with
  | checkKeys =>
    simp only [step, hpc] at h
    cases h
    exact ⟨rfl, rfl⟩
  | _ =>
    simp only [step, hpc] at h
    cases h

theorem step_fails (h : step s .fails = some t) :
    (s.pc = .select ∨ s.pc = .accept) ∧ t = { s with pc := .exit } := by
  cases hpc : s.pc with
  | select =>
    simp only [step, hpc] at h
    cases h
    exact ⟨Or.inl rfl, rfl⟩
  | accept =>
    simp only [step, hpc] at h
    cases h
    exact ⟨Or.inr rfl, rfl⟩
  | _ =>
    simp only [step, hpc] at h
    cases h

end

end TcpTests.Nbserver
