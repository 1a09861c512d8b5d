import TcpTests.Lib.Strtol
import TcpTests.Net.Datagram

/-! `atoport`, `atoaddr` and `make_connection` of `sockhelp.c`, with an `int` of 32 bits and a
`long` of 64. -/
namespace TcpTests.Sockhelp
open Lib Net

/-- What the system knows: services with their ports, dotted addresses, and hosts with their lists
of addresses. -/
structure Resolver where
  getservbyname : List Byte → List Byte → Option ℤ
  dotted : List Byte → Option Word
  gethostbyname : List Byte → Option (List Word)

def htons (h : Endian) (x : BitVec 16) : BitVec 16 :=
  match h with
  | .little => x.extractLsb' 0 8 ++ x.extractLsb' 8 8
  | .big => x

/-- The port in network order, or -1. -/
def atoport (h : Endian) (e : Resolver) (service proto : List Byte) : ℤ :=
  match e.getservbyname service proto with
  | some sPort => sPort
  | none =>
    let (value, errpos) := strtol 0 service
    let lport := toInt32 value
    if errpos ≠ [] ∨ lport < 1 ∨ lport > 65535 then -1
    else (htons h (BitVec.ofInt 16 lport)).toNat

def inaddrNone : Word := 0xFFFFFFFF#32

def inetAddr (e : Resolver) (address : List Byte) : Word := (e.dotted address).getD inaddrNone

/-- Both sides of the test have the width of an `unsigned long`. -/
def atoaddr (e : Resolver) (address : List Byte) : Option Word :=
  let saddr := inetAddr e address
  if saddr.setWidth 64 ≠ BitVec.allOnes 64 then some saddr
  else
    match e.gethostbyname address with
    | some host => host.head?
    | none => none

/-- `SOCK_STREAM`, `SOCK_DGRAM`, or another type. -/
inductive SockType
  | stream
  | dgram
  | other
  deriving DecidableEq, Repr

def SockType.proto : SockType → Option (List Byte)
  | .stream => some [0x74#8, 0x63#8, 0x70#8]
  | .dgram => some [0x75#8, 0x64#8, 0x70#8]
  | .other => none

/-- The system calls on the new socket: whether they succeed. -/
structure Sockets where
  sock : ℤ
  connect : SockaddrIn → Bool
  bind : SockaddrIn → Bool

/-- The address that `make_connection` gives to `connect` or `bind`, if it comes so far, and what
it returns. -/
def makeConnection (h : Endian) (e : Resolver) (k : Sockets) (service : List Byte)
    (type : SockType) (netaddress : List Byte) : Option SockaddrIn × ℤ :=
  let port :=
    match type.proto with
    | some proto => atoport h e service proto
    | none => -1
  if port = -1 then (none, -1)
  else
    match atoaddr e netaddress with
    | none => (none, -1)
    | some addr =>
      let address : SockaddrIn := ⟨addr, BitVec.ofInt 16 port⟩
      match type with
      | .stream => (some address, if k.connect address then k.sock else -1)
      | _ => (some address, if k.bind address then k.sock else -1)

def IsPort (p : ℤ) : Prop := 1 ≤ p ∧ p ≤ 65535

instance : DecidablePred IsPort := fun p => inferInstanceAs (Decidable (1 ≤ p ∧ p ≤ 65535))

/-- Exactly the strings that denote a port are accepted. -/
structure AcceptsPorts (h : Endian) (e : Resolver) (service proto : List Byte) : Prop where
  port : ∀ p, Denotes service p → IsPort p →
    atoport h e service proto = (htons h (BitVec.ofInt 16 p)).toNat
  other : (∀ p, Denotes service p → ¬ IsPort p) → atoport h e service proto = -1

/-- The string denotes a `long` that is not a port, and its low 32 bits are one. -/
def WrapsToPort (service : List Byte) : Prop :=
  ∃ p, Denotes service p ∧ ¬ IsPort p ∧ -2 ^ 63 ≤ p ∧ p < 2 ^ 63 ∧ IsPort (p % 2 ^ 32)

section
variable {h : Endian} {e : Resolver} {service proto address : List Byte} {x : ℤ}

theorem toInt32_clampLong_port :
    IsPort (toInt32 (clampLong x)) ↔ -2 ^ 63 ≤ x ∧ x < 2 ^ 63 ∧ IsPort (x % 2 ^ 32) := by
  unfold toInt32 clampLong IsPort
  rw [Int.bmod_def]
  norm_num
  split_ifs <;> omega

theorem toInt32_clampLong_of_port (hx : IsPort x) : toInt32 (clampLong x) = x := by
  obtain ⟨hlo, hhi⟩ := hx
  unfold toInt32 clampLong
  rw [Int.bmod_def]
  norm_num
  split_ifs <;> omega

/-- A string that is not read to its end is rejected, and so is one without a number. -/
theorem atoport_of_not_denotes (hserv : e.getservbyname service proto = none)
    (hno : ∀ p, ¬ Denotes service p) : atoport h e service proto = -1 := by
  rw [atoport, hserv]
  dsimp only
  rcases hscan : scanNumber 0 service with _ | ⟨x, rest⟩
  · have hstr : strtol 0 service = (0, service) := by rw [strtol, hscan]
    have hzero : toInt32 0 < 1 := by decide
    rw [hstr]
    exact if_pos (Or.inr (Or.inl hzero))
  · have hstr : strtol 0 service = (clampLong x, rest) := by rw [strtol, hscan]
    have hrest : rest ≠ [] := by
      intro hnil
      rw [hnil] at hscan
      exact hno x (scanNumber_eq_iff.mp hscan)
    rw [hstr]
    exact if_pos (Or.inl hrest)

theorem atoport_of_denotes (hserv : e.getservbyname service proto = none)
    (hx : Denotes service x) :
    atoport h e service proto =
      if IsPort (toInt32 (clampLong x)) then
        ((htons h (BitVec.ofInt 16 (toInt32 (clampLong x)))).toNat : ℤ)
      else -1 := by
  have hstr : strtol 0 service = (clampLong x, []) := by rw [strtol, scanNumber_eq_iff.mpr hx]
  rw [atoport, hserv]
  dsimp only
  rw [hstr]
  dsimp only
  by_cases hport : IsPort (toInt32 (clampLong x))
  · rw [if_pos hport, if_neg]
    obtain ⟨hlo, hhi⟩ := hport
    rintro (hne | hlow | hhigh)
    · exact hne rfl
    · omega
    · omega
  · rw [if_neg hport, if_pos]
    unfold IsPort at hport
    right
    omega

/-- A number that has become a port in an `int` is not rejected. -/
theorem AcceptsPorts.not_wraps (hserv : e.getservbyname service proto = none)
    (hright : AcceptsPorts h e service proto) : ¬ WrapsToPort service := by
  rintro ⟨p, hp, hno, hlo, hhi, hwrap⟩
  have hrejected := hright.other fun q hq => by rw [hq.unique hp]; exact hno
  rw [atoport_of_denotes hserv hp, if_pos (toInt32_clampLong_port.mpr ⟨hlo, hhi, hwrap⟩)]
    at hrejected
  omega

theorem acceptsPorts_of_denotes (hserv : e.getservbyname service proto = none)
    (hx : Denotes service x) (hno : ¬ WrapsToPort service) : AcceptsPorts h e service proto where
  port := by
    intro p hp hport
    obtain rfl := hp.unique hx
    rw [atoport_of_denotes hserv hp, toInt32_clampLong_of_port hport, if_pos hport]
  other := by
    intro hother
    rw [atoport_of_denotes hserv hx, if_neg]
    intro hport
    obtain ⟨hlo, hhi, hwrap⟩ := toInt32_clampLong_port.mp hport
    exact hno ⟨x, hx, hother x hx, hlo, hhi, hwrap⟩

theorem inetAddr_of_dotted {a : Word} (ha : e.dotted address = some a) :
    inetAddr e address = a := by
  rw [inetAddr, ha, Option.getD_some]

/-- Zero extension keeps the test from ever failing. -/
theorem atoaddr_eq (e : Resolver) (address : List Byte) :
    atoaddr e address = some (inetAddr e address) := by
  have hne : (inetAddr e address).setWidth 64 ≠ BitVec.allOnes 64 := by
    intro heq
    have hnat := congrArg BitVec.toNat heq
    have hlt := (inetAddr e address).isLt
    rw [BitVec.toNat_setWidth, BitVec.toNat_allOnes] at hnat
    omega
  exact if_pos hne

end

/-- Exactly the ports are accepted, but for numbers that have lost their high bits. -/
theorem atoport_accepts_iff (h : Endian) (e : Resolver) (service proto : List Byte)
    (hserv : e.getservbyname service proto = none) :
    AcceptsPorts h e service proto ↔ ¬ WrapsToPort service := by
  constructor
  · intro hright
    exact hright.not_wraps hserv
  · intro hno
    by_cases hsome : ∃ x, Denotes service x
    · obtain ⟨x, hx⟩ := hsome
      exact acceptsPorts_of_denotes hserv hx hno
    · have hnone : ∀ p, ¬ Denotes service p := fun p hp => hsome ⟨p, hp⟩
      exact ⟨fun p hp => absurd hp (hnone p), fun _ => atoport_of_not_denotes hserv hnone⟩

/-- `"0x50"` is a port. -/
theorem atoport_accepts_sample :
    AcceptsPorts .little ⟨fun _ _ => none, fun _ => none, fun _ => none⟩
        [0x30#8, 0x78#8, 0x35#8, 0x30#8] [] := by
  apply (atoport_accepts_iff .little ⟨fun _ _ => none, fun _ => none, fun _ => none⟩
    [0x30#8, 0x78#8, 0x35#8, 0x30#8] [] rfl).mpr
  rintro ⟨p, hp, hno, -⟩
  have hscan : scanNumber 0 [0x30#8, 0x78#8, 0x35#8, 0x30#8] = some (80, []) := by decide
  rw [hp.unique (scanNumber_eq_iff.mp hscan)] at hno
  exact hno (by decide)

/-- `"4294967297"` -/
def farPort : List Byte :=
  [0x34#8, 0x32#8, 0x39#8, 0x34#8, 0x39#8, 0x36#8, 0x37#8, 0x32#8, 0x39#8, 0x37#8]

/-- 2^32 + 1 is taken for the port 1. -/
theorem atoport_wraps :
    ¬ AcceptsPorts .little ⟨fun _ _ => none, fun _ => none, fun _ => none⟩ farPort [] := by
  intro hright
  have hscan : scanNumber 0 farPort = some (4294967297, []) := by decide
  have hwraps : WrapsToPort farPort :=
    ⟨4294967297, scanNumber_eq_iff.mp hscan, by decide, by decide, by decide, by decide⟩
  exact hright.not_wraps rfl hwraps

/-- The address of a string: the dotted one, or the first of the host. -/
def Resolver.resolve (e : Resolver) (address : List Byte) : Option Word :=
  match e.dotted address with
  | some a => some a
  | none => (e.gethostbyname address).bind List.head?

/-- The address of the string is found, `make_connection` goes there, and it is rejected when there
is none. -/
structure Resolves (h : Endian) (e : Resolver) (k : Sockets) (address : List Byte) : Prop where
  found : atoaddr e address = e.resolve address
  reached : ∀ service type proto port addr, type.proto = some proto →
    atoport h e service proto = port → port ≠ -1 → e.resolve address = some addr →
    (makeConnection h e k service type address).1 = some ⟨addr, BitVec.ofInt 16 port⟩
  rejected : ∀ service type, e.resolve address = none →
    makeConnection h e k service type address = (none, -1)

section
variable {h : Endian} {e : Resolver} {k : Sockets} {service address proto : List Byte}
  {type : SockType} {addr : Word}

theorem makeConnection_found (htype : type.proto = some proto)
    (hport : atoport h e service proto ≠ -1) (haddr : atoaddr e address = some addr) :
    (makeConnection h e k service type address).1 =
      some ⟨addr, BitVec.ofInt 16 (atoport h e service proto)⟩ := by
  unfold makeConnection
  rw [htype]
  dsimp only
  rw [if_neg hport, haddr]
  cases type <;> rfl

theorem makeConnection_rejected (haddr : atoaddr e address = none) :
    makeConnection h e k service type address = (none, -1) := by
  unfold makeConnection
  dsimp only
  rw [haddr]
  exact ite_self _

/-- An address is found only where the value of the failure is taken for it. -/
theorem Resolves.cond (hr : Resolves h e k address) :
    (e.dotted address).isSome ∨ (e.gethostbyname address).bind List.head? = some inaddrNone := by
  have hfound := hr.found
  rw [atoaddr_eq, inetAddr, Resolver.resolve] at hfound
  cases hdot : e.dotted address with
  | some a => exact Or.inl rfl
  | none =>
    rw [hdot] at hfound
    exact Or.inr hfound.symm

end

/-- Only dotted addresses are found, and names of 255.255.255.255. -/
theorem atoaddr_resolves_iff (h : Endian) (e : Resolver) (k : Sockets) (address : List Byte) :
    Resolves h e k address ↔
      (e.dotted address).isSome ∨
        (e.gethostbyname address).bind List.head? = some inaddrNone := by
  constructor
  · intro hr
    exact hr.cond
  · intro hcond
    have hfound : atoaddr e address = e.resolve address := by
      rw [atoaddr_eq, Resolver.resolve]
      cases hdot : e.dotted address with
      | some a => exact congrArg some (inetAddr_of_dotted hdot)
      | none =>
        rw [hdot] at hcond
        rcases hcond with hsome | hhost
        · cases hsome
        · rw [inetAddr, hdot]
          exact hhost.symm
    refine ⟨hfound, ?_, ?_⟩
    · rintro service type proto _ addr htype rfl hport hres
      exact makeConnection_found htype hport (hfound.trans hres)
    · intro service type hres
      exact makeConnection_rejected (hfound.trans hres)

def localhost : List Byte :=
  [0x6C#8, 0x6F#8, 0x63#8, 0x61#8, 0x6C#8, 0x68#8, 0x6F#8, 0x73#8, 0x74#8]

def localHosts : Resolver where
  getservbyname _ _ := none
  dotted _ := none
  gethostbyname name := if name = localhost then some [0x0100007F#32] else none

theorem atoaddr_misses_host :
    ¬ Resolves .little localHosts ⟨3, fun _ => true, fun _ => true⟩ localhost := by
  intro hr
  rcases hr.cond with hdot | hhost
  · exact absurd hdot (by decide)
  · exact absurd hhost (by decide)

end TcpTests.Sockhelp
