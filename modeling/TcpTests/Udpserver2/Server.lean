import Mathlib.Algebra.BigOperators.Group.List.Basic
import TcpTests.Lib.Machine
import TcpTests.Net.Datagram
import TcpTests.Fgmp.Xdr

/-! `udpserver2`: the loop of `main`. One input of the machine is one pass of the loop. -/
namespace TcpTests.Udpserver2
open Lib Net

def sizeofInt : ℕ := 4

def htonl (h : Endian) (x : Word) : Word := Fgmp.swap32 h x

def ntohl (h : Endian) (x : Word) : Word := Fgmp.swap32 h x

/-- The variables of `main`, and the datagrams handed to `sendto`. `thisinc` is the memory that
`recvfrom` writes to. -/
structure Server where
  thisinc : Mem
  count : Word
  client : SockaddrIn
  running : Bool
  iret : ℕ
  sent : List Datagram

def Server.start (thisinc : Mem) (client : SockaddrIn) : Server where
  thisinc := thisinc
  count := 0#32
  client := client
  running := true
  iret := 0
  sent := []

structure Pass where
  recv : Recv
  sendOk : Bool

/-- The sockets are left blocking, so that `EAGAIN` is an error like the others. The count is
held in network order while it is sent. -/
def pass (h : Endian) (s : Server) (p : Pass) : Option Server :=
  if !s.running then none
  else
    match p.recv with
    | .again | .failed => some { s with iret := 1, running := false }
    | .datagram addr bytes =>
      let bytes := received sizeofInt bytes
      let s := { s with thisinc := s.thisinc.write 0 bytes, client := addr }
      if bytes.length = sizeofInt then
        let thisinc := ntohl h (loadWord h s.thisinc 0)
        let count := htonl h (s.count + thisinc)
        let s := { s with
          thisinc := storeWord h s.thisinc 0 thisinc
          count := count
          sent := s.sent ++ [Datagram.mk addr (wordBytes h count)] }
        if p.sendOk then some { s with count := ntohl h count }
        else some { s with iret := 1, running := false }
      else some s

def Pass.arrives (d : Datagram) : Pass := ⟨.datagram d.addr d.bytes, true⟩

section
variable {h : Endian} {s : Server} {d : Datagram}

/-- A datagram of four bytes or more is answered: what lies behind the fourth byte is cut. -/
theorem pass_answers (hs : s.running = true) (hd : sizeofInt ≤ d.bytes.length) :
    ∃ t, pass h s (.arrives d) = some t ∧ t.running = true ∧
      t.count = s.count + beWord (carried d.bytes) 0 ∧
      t.sent = s.sent ++ [⟨d.addr, wordBytes .big t.count⟩] := by
  have hlen : (received sizeofInt d.bytes).length = sizeofInt := List.length_take_of_le hd
  have hword : beWord (s.thisinc.write 0 (received sizeofInt d.bytes)) 0 =
      beWord (carried d.bytes) 0 := by
    apply beWord_congr
    intro i hi
    exact write_take_carried _ hd (by unfold sizeofInt; omega)
  unfold pass Pass.arrives
  simp only [hs, Bool.not_true, Bool.false_eq_true, if_false, hlen, if_true, ntohl, htonl,
    Fgmp.swap32_loadWord, Fgmp.swap32_swap32, Fgmp.wordBytes_swap32, hword]
  exact ⟨_, rfl, rfl, rfl, rfl⟩

theorem pass_ignores (hs : s.running = true) (hd : d.bytes.length < sizeofInt) :
    ∃ t, pass h s (.arrives d) = some t ∧ t.running = true ∧ t.count = s.count ∧
      t.sent = s.sent := by
  have hlen : (received sizeofInt d.bytes).length ≠ sizeofInt := by
    rw [received_of_le (by omega)]
    omega
  unfold pass Pass.arrives
  simp only [hs, Bool.not_true, Bool.false_eq_true, if_false, hlen]
  exact ⟨_, rfl, rfl, rfl, rfl⟩

end

end TcpTests.Udpserver2
