import TcpTests.Lib.Memory

/-! Datagram sockets as the programs see them. -/
namespace TcpTests.Net
open Lib

structure SockaddrIn where
  sinAddr : Word
  sinPort : BitVec 16
  deriving DecidableEq, Repr

/-- The outcome of `recvfrom`: nothing pending, another error, or a datagram. -/
inductive Recv
  | again
  | failed
  | datagram (addr : SockaddrIn) (bytes : List Byte)

/-- A datagram with the address of its other side: the sender for a receiver, and the receiver
for a sender. -/
structure Datagram where
  addr : SockaddrIn
  bytes : List Byte
  deriving DecidableEq, Repr

/-- `recvfrom` copies at most `buflen` bytes and drops the rest of the datagram. -/
def received (buflen : ℕ) (bytes : List Byte) : List Byte := bytes.take buflen

theorem received_length_le (buflen : ℕ) (bytes : List Byte) :
    (received buflen bytes).length ≤ buflen := by
  simp [received]

theorem received_of_le {buflen : ℕ} {bytes : List Byte} (h : bytes.length ≤ buflen) :
    received buflen bytes = bytes :=
  List.take_of_length_le h

/-- The bytes of a datagram, with zeros after its end. -/
def carried (d : List Byte) : Mem := Mem.write (fun _ => 0) 0 d

theorem carried_read_drop (d : List Byte) (a : ℕ) (ha : a ≤ d.length) :
    (carried d).read a (d.length - a) = d.drop a := by
  have hall : (carried d).read 0 d.length = d := Mem.read_write_self _ 0 d
  have hdrop := Mem.read_drop (carried d) 0 d.length a ha
  rw [hall, Nat.zero_add] at hdrop
  exact hdrop.symm

theorem carried_ge {d : List Byte} {a : ℕ} (ha : d.length ≤ a) : carried d a = 0 :=
  Mem.write_ge _ d (by omega)

theorem write_take_carried (m : Mem) {d : List Byte} {k a : ℕ} (hk : k ≤ d.length) (ha : a < k) :
    m.write 0 (d.take k) a = carried d a := by
  have hlen : (d.take k).length = k := List.length_take_of_le hk
  rw [carried, Mem.write_mem m _ (by omega) (by omega), Mem.write_mem _ d (by omega) (by omega),
    List.getElem_take]

end TcpTests.Net
