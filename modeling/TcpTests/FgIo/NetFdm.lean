import TcpTests.Lib.Updates
import TcpTests.Net.Datagram
import TcpTests.Fgmp.Xdr

/-! `net_fdm.hxx` and `fgio.cxx`: the record that the flight model sends, and its
conversion to the byte order of the host, in place. -/
namespace TcpTests.FgIo
open Lib Net

def fgMaxEngines : ℕ := 4

def fgMaxWheels : ℕ := 3

def fgMaxTanks : ℕ := 4

def fgNetFdmVersion : Word := 24#32

inductive Member
  | version | padding
  | longitude | latitude | altitude | agl | phi | theta | psi | alpha | beta
  | phidot | thetadot | psidot | vcas | climbRate | vNorth | vEast | vDown
  | vWindBodyNorth | vWindBodyEast | vWindBodyDown
  | aXPilot | aYPilot | aZPilot
  | stallWarning | slipDeg
  | numEngines | engState | rpm | fuelFlow | fuelPx | egt | cht | mpOsi | tit | oilTemp | oilPx
  | numTanks | fuelQuantity
  | numWheels | wow | gearPos | gearSteer | gearCompression
  | curTime | warp | visibility
  | elevator | elevatorTrimTab | leftFlap | rightFlap | leftAileron | rightAileron | rudder
  | noseWheel | speedbrake | spoilers
  deriving DecidableEq, Repr

namespace Member

def all : List Member :=
  [version, padding,
    longitude, latitude, altitude, agl, phi, theta, psi, alpha, beta,
    phidot, thetadot, psidot, vcas, climbRate, vNorth, vEast, vDown,
    vWindBodyNorth, vWindBodyEast, vWindBodyDown,
    aXPilot, aYPilot, aZPilot,
    stallWarning, slipDeg,
    numEngines, engState, rpm, fuelFlow, fuelPx, egt, cht, mpOsi, tit, oilTemp, oilPx,
    numTanks, fuelQuantity,
    numWheels, wow, gearPos, gearSteer, gearCompression,
    curTime, warp, visibility,
    elevator, elevatorTrimTab, leftFlap, rightFlap, leftAileron, rightAileron, rudder,
    noseWheel, speedbrake, spoilers]

/-- The bytes of one element: of a `double`, or of a `float` or a 32-bit integer. -/
def width : Member → ℕ
  | longitude | latitude | altitude => 8
  | _ => 4

/-- The elements of an array; 1 for what is not an array. -/
def entries : Member → ℕ
  | engState | rpm | fuelFlow | fuelPx | egt | cht | mpOsi | tit | oilTemp | oilPx => fgMaxEngines
  | fuelQuantity => fgMaxTanks
  | wow | gearPos | gearSteer | gearCompression => fgMaxWheels
  | _ => 1

def size (m : Member) : ℕ := m.width * m.entries

/-- Every member is aligned where the ones before it end. -/
def offset (m : Member) : ℕ := ((all.take m.ctorIdx).map size).sum

end Member

/-- `sizeof(FGNetFDM)` -/
def sizeofNetFdm : ℕ := (Member.all.map Member.size).sum

theorem sizeofNetFdm_eq : sizeofNetFdm = 408 := by
  decide

/-- An element of an array, or a member that is not an array with the index 0. An index past the
end stands for what the code finds there. -/
structure Element where
  member : Member
  index : ℕ
  deriving DecidableEq, Repr

def Element.address (net : ℕ) (e : Element) : ℕ := net + e.member.offset + e.member.width * e.index

def htonl (h : Endian) (x : Word) : Word := Fgmp.swap32 h x

def ntohl (h : Endian) (x : Word) : Word := Fgmp.swap32 h x

/-- The two halves of a double change places, each with its bytes reversed. -/
def htond (h : Endian) (m : Mem) (x : ℕ) : Mem :=
  match h with
  | .little =>
    let holdingBuffer := loadWord h m x
    let m := storeWord h m x (htonl h (loadWord h m (x + 4)))
    storeWord h m (x + 4) (htonl h holdingBuffer)
  | .big => m

def htonf (h : Endian) (m : Mem) (x : ℕ) : Mem :=
  match h with
  | .little =>
    let holdingBuffer := loadWord h m x
    storeWord h m x (htonl h holdingBuffer)
  | .big => m

/-- How a statement converts an element: `x = ntohl(x)`, `x = htonl(x)`, `htonf(x)` or
`htond(x)`. -/
inductive Swap
  | ntohl
  | htonl
  | htonf
  | htond
  deriving DecidableEq, Repr

def Swap.width : Swap → ℕ
  | .ntohl | .htonl | .htonf => 4
  | .htond => 8

def Swap.run (h : Endian) (m : Mem) (x : ℕ) : Swap → Mem
  | .ntohl => storeWord h m x (FgIo.ntohl h (loadWord h m x))
  | .htonl => storeWord h m x (FgIo.htonl h (loadWord h m x))
  | .htonf => FgIo.htonf h m x
  | .htond => FgIo.htond h m x

structure Conversion where
  mem : Mem
  touched : List Element

/-- Statements that convert the elements of the same index, one after the other. -/
def Conversion.statements (h : Endian) (net i : ℕ) :
    List (Swap × Member) → Conversion → Conversion
  | [], c => c
  | (swap, m) :: rest, c =>
    Conversion.statements h net i rest
      ⟨swap.run h c.mem (Element.address net ⟨m, i⟩), c.touched ++ [⟨m, i⟩]⟩

/-- `for ( i = 0; i < net->count; ++i )`, from the round of `i` on. The count is read in each
round. -/
def Conversion.loop (h : Endian) (net : ℕ) (count : Member) (body : List (Swap × Member)) (i : ℕ)
    (c : Conversion) : Conversion :=
  if i < (loadWord h c.mem (net + count.offset)).toNat then
    Conversion.loop h net count body (i + 1) (c.statements h net i body)
  else c
  termination_by 2 ^ 32 - i
  decreasing_by
    have := (loadWord h c.mem (net + count.offset)).isLt
    omega

def headStatements : List (Swap × Member) :=
  [(.ntohl, .version),
    (.htond, .longitude), (.htond, .latitude), (.htond, .altitude), (.htonf, .agl), (.htonf, .phi),
    (.htonf, .theta), (.htonf, .psi), (.htonf, .alpha), (.htonf, .beta),
    (.htonf, .phidot), (.htonf, .thetadot), (.htonf, .psidot), (.htonf, .vcas),
    (.htonf, .climbRate), (.htonf, .vNorth), (.htonf, .vEast), (.htonf, .vDown),
    (.htonf, .vWindBodyNorth), (.htonf, .vWindBodyEast), (.htonf, .vWindBodyDown),
    (.htonf, .aXPilot), (.htonf, .aYPilot), (.htonf, .aZPilot),
    (.htonf, .stallWarning), (.htonf, .slipDeg),
    (.htonl, .numEngines)]

def engineStatements : List (Swap × Member) :=
  [(.htonl, .engState), (.htonf, .rpm), (.htonf, .fuelFlow), (.htonf, .fuelPx), (.htonf, .egt),
    (.htonf, .cht), (.htonf, .mpOsi), (.htonf, .tit), (.htonf, .oilTemp), (.htonf, .oilPx)]

def tankStatements : List (Swap × Member) := [(.htonf, .fuelQuantity)]

def wheelStatements : List (Swap × Member) :=
  [(.htonl, .wow), (.htonf, .gearPos), (.htonf, .gearSteer), (.htonf, .gearCompression)]

def tailStatements : List (Swap × Member) :=
  [(.htonl, .curTime), (.ntohl, .warp), (.htonf, .visibility),
    (.htonf, .elevator), (.htonf, .elevatorTrimTab), (.htonf, .leftFlap), (.htonf, .rightFlap),
    (.htonf, .leftAileron), (.htonf, .rightAileron), (.htonf, .rudder), (.htonf, .noseWheel),
    (.htonf, .speedbrake), (.htonf, .spoilers)]

def convertNetFdm (h : Endian) (net : ℕ) (m : Mem) : Conversion :=
  let c : Conversion := ⟨m, []⟩
  let c := c.statements h net 0 headStatements
  let c := c.loop h net .numEngines engineStatements 0
  let c := c.statements h net 0 [(.htonl, .numTanks)]
  let c := c.loop h net .numTanks tankStatements 0
  let c := c.statements h net 0 [(.htonl, .numWheels)]
  let c := c.loop h net .numWheels wheelStatements 0
  c.statements h net 0 tailStatements

def blen : ℕ := 1024

/-- A read of `test_server`, with the bytes that come in: the buffer is cleared, filled and
converted, and then looked at. The second component says whether it passes for an `FGNetFDM`.
Nothing is done if no byte comes. -/
def testServer (h : Endian) (netByteOrder : Bool) (pbuf1 : ℕ) (m : Mem) (packet : List Byte) :
    Option (Conversion × Bool) :=
  let m := m.write pbuf1 (List.replicate blen 0)
  let bytes := received blen packet
  let rlen := bytes.length
  let m := m.write pbuf1 bytes
  if 0 < rlen then
    let c := if netByteOrder then convertNetFdm h pbuf1 m else ⟨m, []⟩
    some (c, rlen == sizeofNetFdm && loadWord h c.mem (pbuf1 + Member.offset .version) ==
      fgNetFdmVersion)
  else none

end TcpTests.FgIo
