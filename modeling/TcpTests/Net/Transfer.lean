import TcpTests.Lib.Lists
import TcpTests.Net.Datagram

/-! What a program sends and receives, in order, and where the datagrams that it sends go. -/
namespace TcpTests.Net
open Lib

/-- A datagram that was handed to `sendto`, or one that `recvfrom` gave. -/
inductive Transfer
  | sent (d : Datagram)
  | received (d : Datagram)
  deriving DecidableEq, Repr

def Transfer.source : Transfer → Option SockaddrIn
  | .sent _ => none
  | .received d => some d.addr

/-- Where the last datagram came from that was received, if any was. -/
def lastSource? (ts : List Transfer) : Option SockaddrIn :=
  (ts.filterMap Transfer.source).getLast?

def SendsTo (addr : SockaddrIn) (ts : List Transfer) : Prop :=
  ∀ d, Transfer.sent d ∈ ts → d.addr = addr

/-- Whenever something is sent, the last datagram that was received came from the address. -/
def HeardFrom (addr : SockaddrIn) (ts : List Transfer) : Prop :=
  ∀ pre d post, ts = pre ++ .sent d :: post → ∀ src ∈ lastSource? pre, src = addr

/-- What is sent goes to where the last datagram came from, and to the address until one has. -/
def Follows (addr : SockaddrIn) (ts : List Transfer) : Prop :=
  ∀ pre d post, ts = pre ++ .sent d :: post → d.addr = (lastSource? pre).getD addr

section
variable {addr : SockaddrIn} {ts : List Transfer} {d : Datagram}

@[simp] theorem lastSource?_sent : lastSource? (ts ++ [.sent d]) = lastSource? ts := by
  simp [lastSource?, Transfer.source]

@[simp] theorem lastSource?_received : lastSource? (ts ++ [.received d]) = some d.addr := by
  simp [lastSource?, Transfer.source]

theorem Follows.nil : Follows addr [] := by
  intro pre d post h
  simp at h

theorem Follows.received (h : Follows addr ts) (d : Datagram) :
    Follows addr (ts ++ [.received d]) := by
  intro pre e post heq
  rcases concat_eq_append_cons.mp heq with ⟨-, ht, -⟩ | ⟨post', -, hts⟩
  · cases ht
  · exact h pre e post' hts

theorem Follows.sent (h : Follows addr ts) (hd : d.addr = (lastSource? ts).getD addr) :
    Follows addr (ts ++ [.sent d]) := by
  intro pre e post heq
  rcases concat_eq_append_cons.mp heq with ⟨-, ht, rfl⟩ | ⟨post', -, hts⟩
  · cases ht
    exact hd
  · exact h pre e post' hts

theorem Follows.sendsTo_iff (h : Follows addr ts) : SendsTo addr ts ↔ HeardFrom addr ts := by
  constructor
  · intro hsends pre d post heq src hsrc
    have hd : d.addr = addr := hsends d (by simp [heq])
    rw [h pre d post heq, hsrc] at hd
    exact hd
  · intro hheard d hd
    obtain ⟨pre, post, heq⟩ := List.append_of_mem hd
    rw [h pre d post heq]
    cases hsrc : lastSource? pre with
    | none => rfl
    | some src => exact hheard pre d post heq src hsrc

end

end TcpTests.Net
