import TcpTests.Udpserver2.Server

/-! `udpclient2`: the loop of `main`. A request is sent, and its reply waited for. -/
namespace TcpTests.Udpclient2
open Lib Net Udpserver2

def myDefCount : Word := 10#32

/-- Where the client stands: before `sendto`, in `recvfrom`, or gone with a failure. -/
inductive Pc
  | send
  | recv
  | exited
  deriving DecidableEq, Repr

/-- The variables of `main`, and the totals that it has read. `incAmount` is in network order,
`total` is the memory that `recvfrom` writes to, and `client` the address that it stores. -/
structure Client where
  incAmount : Word
  total : Mem
  client : SockaddrIn
  pc : Pc
  totals : List Word

/-- The increment that is used: no argument leaves 0, for which there is a default. -/
def increment (incAmount : Word) : Word := if incAmount = 0#32 then myDefCount else incAmount

def Client.start (h : Endian) (incAmount : Word) (total : Mem) (client : SockaddrIn) : Client where
  incAmount := htonl h (increment incAmount)
  total := total
  client := client
  pc := .send
  totals := []

def Client.request (h : Endian) (c : Client) : List Byte := wordBytes h c.incAmount

def Client.send (c : Client) (sendOk : Bool) : Client :=
  { c with pc := if sendOk then .recv else .exited }

/-- Anything but four bytes is an error. -/
def Client.recv (h : Endian) (c : Client) : Recv → Client
  | .again | .failed => { c with pc := .exited }
  | .datagram addr bytes =>
    let bytes := received sizeofInt bytes
    let c := { c with total := c.total.write 0 bytes, client := addr }
    if bytes.length ≠ sizeofInt then { c with pc := .exited }
    else
      let total := ntohl h (loadWord h c.total 0)
      { c with
        total := storeWord h c.total 0 total
        pc := .send
        totals := c.totals ++ [total] }

section
variable {h : Endian} {c : Client}

@[simp] theorem Client.recv_incAmount (r : Recv) : (c.recv h r).incAmount = c.incAmount := by
  cases r with
  | again | failed => rfl
  | datagram addr bytes =>
    unfold Client.recv
    dsimp only
    split_ifs <;> rfl

theorem Client.recv_total (addr : SockaddrIn) (t : Word) :
    (c.recv h (.datagram addr (wordBytes .big t))).pc = .send ∧
      (c.recv h (.datagram addr (wordBytes .big t))).totals = c.totals ++ [t] := by
  have hlen : (wordBytes .big t).length = sizeofInt := wordBytes_length _ _
  have hall : received sizeofInt (wordBytes .big t) = wordBytes .big t := received_of_le hlen.le
  have hword : beWord (c.total.write 0 (wordBytes .big t)) 0 = t :=
    beWord_of_read (Mem.read_write_of_length (wordBytes_length _ _))
  unfold Client.recv
  simp only [hall, hlen, ne_eq, not_true_eq_false, if_false, ntohl, Fgmp.swap32_loadWord, hword]
  exact ⟨trivial, trivial⟩

end

end TcpTests.Udpclient2
