import Mathlib.Data.Finset.Dedup
import Mathlib.Data.List.Basic
import TcpTests.Lib.Machine
import TcpTests.Lib.Memory
import TcpTests.Lib.SignedInt

/-! `simp_server`: the loop of `run_server` with `setup_fd_set`, `add_client`,
`process_clients`, `handle_receive` and `clear_client_list`. One step of the machine is one
iteration of the loop, given the key, and the outcomes of the calls that the iteration makes. It ends
in `undefined` where the program writes outside of an `fd_set` or an `int` overflows. -/
namespace TcpTests.SimpServer
open Lib

def maxStr : ℕ := 1024

def maxRwErrors : ℤ := 3

/-- The number of bits of an `fd_set`. -/
def fdSetsize : ℤ := 1024

/-- The fields of `INCLIENT` that the server decides by. -/
structure InClient where
  sock : ℤ
  hadRwError : ℤ
  deriving DecidableEq

/-- An accepted connection with its number among all accepted ones, what was received and sent
on it, and how many times `handle_receive` has failed on it. -/
structure Conn where
  sd : ℤ
  serial : ℕ
  received : List Byte
  sent : List Byte
  failed : ℕ
  deriving DecidableEq

def Conn.fresh (sd : ℤ) (serial : ℕ) : Conn := ⟨sd, serial, [], [], 0⟩

inductive Closer
  | processClients
  | clearClientList
  deriving DecidableEq

/-- The connections that are open, in the order in which they were accepted, those that were
closed, the arguments of `SCLOSE`, and the number of accepted connections. -/
structure Sockets where
  conns : List Conn
  closed : List (Conn × Closer)
  sclosed : List ℤ
  accepted : ℕ
  deriving DecidableEq

inductive Pc
  | loop
  | stopped
  | cleared
  | undefined
  deriving DecidableEq

structure Server where
  sockfd : ℤ
  vInClients : List InClient
  highest : ℤ
  totalClients : Int32
  doEcho : Bool
  isPaused : Bool
  pc : Pc
  sockets : Sockets
  deriving DecidableEq

def Server.start (sockfd : ℤ) (doEcho : Bool) : Server where
  sockfd := sockfd
  vInClients := []
  highest := sockfd
  totalClients := 0
  doEcho := doEcho
  isPaused := false
  pc := .loop
  sockets := ⟨[], [], [], 0⟩

inductive RecvOutcome
  | received (bytes : List Byte) (fits : 0 < bytes.length ∧ bytes.length ≤ maxStr)
  | closed
  | wouldBlock
  | failed

inductive SendOutcome
  | accepted (n : ℕ)
  | failed

/-- What the calls of one `handle_receive` give, with the text of the date. -/
structure Io where
  recv : RecvOutcome
  date : List Byte
  send : SendOutcome

def replyText : List Byte :=
  " echo : Reply from server...\n".toList.map fun c => BitVec.ofNat 8 c.toNat

def handleReceive (doEcho : Bool) (io : Io) : ℕ :=
  match io.recv with
  | .failed | .closed => 1
  | .wouldBlock => 0
  | .received _ _ =>
    if doEcho then
      match io.send with
      | .failed => 1
      | .accepted _ => 0
    else 0

def Conn.handleReceive (doEcho : Bool) (io : Io) (c : Conn) : Conn :=
  let c := { c with failed := c.failed + SimpServer.handleReceive doEcho io }
  match io.recv with
  | .received bytes _ =>
    let c := { c with received := c.received ++ bytes }
    if doEcho then
      match io.send with
      | .accepted n => { c with sent := c.sent ++ (io.date ++ replyText).take n }
      | .failed => c
    else c
  | _ => c

def Sockets.handleReceive (doEcho : Bool) (io : Io) (sd : ℤ) (k : Sockets) : Sockets :=
  { k with conns := k.conns.map fun c => if c.sd = sd then c.handleReceive doEcho io else c }

def Sockets.sclose (closer : Closer) (sd : ℤ) (k : Sockets) : Sockets :=
  { k with
    conns := k.conns.filter (·.sd ≠ sd)
    closed := k.closed ++ (k.conns.filter (·.sd = sd)).map (·, closer)
    sclosed := k.sclosed ++ [sd] }

/-- `pic->sock == 0 || SERROR(pic->sock)`, where the loops over the clients go on. -/
def InClient.unused (pic : InClient) : Prop := pic.sock = 0 ∨ pic.sock < 0

instance (pic : InClient) : Decidable pic.unused := inferInstanceAs (Decidable (_ ∨ _))

def InClient.exceeds (pic : InClient) : Prop := pic.hadRwError > maxRwErrors

instance (pic : InClient) : Decidable pic.exceeds := inferInstanceAs (Decidable (_ > _))

/-- `FD_SET` does not test that the descriptor is one of the set. -/
def setupFdSet (sockfd : ℤ) (vInClients : List InClient) : Option (Finset ℤ) :=
  let sds := sockfd :: (vInClients.filter fun pic => ¬ pic.unused).map InClient.sock
  if ∀ sd ∈ sds, 0 ≤ sd ∧ sd < fdSetsize then some sds.toFinset else none

def InClient.served (ret : ℕ) (pic : InClient) : InClient :=
  if ret ≠ 0 then { pic with hadRwError := pic.hadRwError + 1 } else pic

/-- The first loop of `process_clients`: the clients, `had_errors` and the sockets. The calls
for the client at position `n` give `ios n`. -/
def receiveClients (doEcho : Bool) (listenSocket : Finset ℤ) :
    List InClient → (ℕ → Io) → Sockets → List InClient × ℕ × Sockets
  | [], _, k => ([], 0, k)
  | pic :: pics, ios, k =>
    if ¬ pic.unused ∧ pic.sock ∈ listenSocket then
      let ret := handleReceive doEcho (ios 0)
      let r := receiveClients doEcho listenSocket pics (fun n => ios (n + 1))
        (k.handleReceive doEcho (ios 0) pic.sock)
      (pic.served ret :: r.1,
        r.2.1 + (if ret ≠ 0 ∧ (pic.served ret).exceeds then 1 else 0), r.2.2)
    else
      let r := receiveClients doEcho listenSocket pics (fun n => ios (n + 1)) k
      (pic :: r.1, r.2)

/-- The first client with too many errors, its position, and the `offset` found for it, which
does not count the clients that are passed over. -/
def findExceeding : List InClient → Option (InClient × ℕ × ℕ)
  | [] => none
  | pic :: pics =>
    if pic.unused then (findExceeding pics).map fun (p, n, offset) => (p, n + 1, offset)
    else if pic.exceeds then some (pic, 0, 0)
    else (findExceeding pics).map fun (p, n, offset) => (p, n + 1, offset + 1)

/-- One turn of the second loop of `process_clients`: the client that was found is closed and its
`sock` is cleared, and the entry at `offset` is erased. -/
def eraseClient (r : List InClient × Sockets) : List InClient × Sockets :=
  match findExceeding r.1 with
  | some (pic, n, offset) =>
    ((r.1.set n { pic with sock := 0 }).eraseIdx offset, r.2.sclose .processClients pic.sock)
  | none => r

def processClients (doEcho : Bool) (listenSocket : Finset ℤ) (vInClients : List InClient)
    (ios : ℕ → Io) (k : Sockets) : List InClient × Sockets :=
  let r := receiveClients doEcho listenSocket vInClients ios k
  eraseClient^[r.2.1] (r.1, r.2.2)

/-- The sockets after `clear_client_list`, which leaves the vector empty. -/
def clearClientList (vInClients : List InClient) (k : Sockets) : Sockets :=
  (vInClients.filter fun pic => ¬ pic.unused).foldl
    (fun k pic => k.sclose .clearClientList pic.sock) k

/-- A socket that is in the vector already is not stored. -/
def Server.addClient (s : Server) (newsockfd : ℤ) : Server :=
  if newsockfd ∈ s.vInClients.map InClient.sock then s
  else
    match increment s.totalClients with
    | some totalClients =>
      { s with
        highest := if newsockfd > s.highest then newsockfd else s.highest
        vInClients := s.vInClients ++ [⟨newsockfd, 0⟩]
        totalClients := totalClients }
    | none => { s with pc := .undefined }

inductive Key
  | none
  | echo
  | pause
  | esc
  | other
  deriving DecidableEq

/-- The state after `check_key`, and whether it returned 1. -/
def Server.checkKey (s : Server) : Key → Server × Bool
  | .none | .other => (s, false)
  | .echo => ({ s with doEcho := !s.doEcho }, false)
  | .pause => ({ s with isPaused := !s.isPaused }, false)
  | .esc => (s, true)

inductive AcceptOutcome
  | accepted (newsockfd : ℤ)
  | failed

/-- What `select` gives, and what the calls give that are made on the ready sockets. -/
inductive SelectOutcome
  | failed
  | timedOut
  | ready (set : Finset ℤ) (accept : AcceptOutcome) (ios : ℕ → Io)

/-- An accepted descriptor is positive and was not open. -/
def Server.accept (s : Server) : AcceptOutcome → Option Server
  | .accepted newsockfd =>
    if 0 < newsockfd ∧ newsockfd ≠ s.sockfd ∧ newsockfd ∉ s.sockets.conns.map Conn.sd then
      some (Server.addClient
        { s with
          sockets := { s.sockets with
            conns := s.sockets.conns ++ [.fresh newsockfd s.sockets.accepted]
            accepted := s.sockets.accepted + 1 } }
        newsockfd)
    else none
  | .failed => some s

/-- What is ready is a part of the set and not above `highest`. -/
def Server.selectFrom (s : Server) (listenSocket : Finset ℤ) : SelectOutcome → Option Server
  | .failed => some { s with pc := .stopped }
  | .timedOut => some s
  | .ready set accept ios =>
    if set ≠ ∅ ∧ set ⊆ listenSocket ∧ ∀ sd ∈ set, sd < s.highest + 1 then
      if s.sockfd ∈ set then s.accept accept
      else
        let r := processClients s.doEcho set s.vInClients ios s.sockets
        some { s with vInClients := r.1, sockets := r.2 }
    else none

def Server.select (s : Server) (outcome : SelectOutcome) : Option Server :=
  match setupFdSet s.sockfd s.vInClients with
  | some listenSocket => s.selectFrom listenSocket outcome
  | none => some { s with pc := .undefined }

def Server.iterate (s : Server) (key : Key) (outcome : SelectOutcome) : Option Server :=
  match s.checkKey key with
  | (s, true) => some { s with pc := .stopped }
  | (s, false) => if s.isPaused then some s else s.select outcome

inductive Event
  | iterate (key : Key) (outcome : SelectOutcome)
  | clear

def step (s : Server) (e : Event) : Option Server :=
  match e, s.pc with
  | .iterate key outcome, .loop => s.iterate key outcome
  | .clear, .stopped =>
    some { s with
      vInClients := []
      sockets := clearClientList s.vInClients s.sockets
      pc := .cleared }
  | _, _ => none

end TcpTests.SimpServer
