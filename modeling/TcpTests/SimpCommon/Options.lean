import TcpTests.Lib.SignedInt
import TcpTests.Lib.Strtol
import TcpTests.Text.Datetime

/-! The option loops of `simp_server`, `simp_client` and `udpserver`, which share `is_digits` and
the option `-v`. An argument is the list of its characters. `ADD_UDP_SUPPORT` is not defined. -/
namespace TcpTests.SimpCommon
open Lib Text

def chars (s : String) : List Byte := s.toList.map charByte

/-- `ISNUM` -/
def isNum (c : Byte) : Bool := charByte '0' ≤ c && c ≤ charByte '9'

def isDigits (arg : List Byte) : Bool := arg.all isNum

/-- `while(*arg == '-') arg++;` -/
def skipDashes (arg : List Byte) : List Byte := arg.dropWhile fun c => c = charByte '-'

/-- What becomes of an argument: the loop goes on, behind it or behind the one after it, the program
returns, or an `int` overflows. -/
inductive Parsed (σ : Type)
  | one (s : σ)
  | two (s : σ)
  | returns (iret : ℕ)
  | undefined
  deriving DecidableEq, Repr

/-- `Bad_Arg` -/
def badArg {σ : Type} : Parsed σ := .returns 1

def Parsed.withNext {σ : Type} (next : Option (List Byte)) (f : List Byte → Option σ) : Parsed σ :=
  match next with
  | some value =>
    match f value with
    | some s => .two s
    | none => badArg
  | none => badArg

/-- `while(*arg == 'v')` -/
def countLetters (verbosity : Int32) : List Byte → Option Int32
  | c :: arg =>
    if c = charByte 'v' then
      match increment verbosity with
      | some verbosity => countLetters verbosity arg
      | none => none
    else some verbosity
  | [] => some verbosity

def Parsed.store {σ : Type} (set : Int32 → σ) : Option Int32 → Parsed σ
  | some verbosity => .one (set verbosity)
  | none => .undefined

/-- The case of the letter `v`, with what stands behind it. -/
def verbosityCase {σ : Type} (set : Int32 → σ) (verbosity : Int32) (arg : List Byte) : Parsed σ :=
  if arg ≠ [] then
    if isDigits arg then .one (set (.ofInt (atoi arg)))
    else if arg.head? = some (charByte 'v') then
      .store set ((increment verbosity).bind fun verbosity => countLetters verbosity arg)
    else badArg
  else .store set (increment verbosity)

/-- `for (i = 1; i < argc; i++)`: the options or what is returned, or `none` after an overflow. -/
def parseArgs {σ : Type} (option : σ → List Byte → Option (List Byte) → Parsed σ) (s : σ) :
    List (List Byte) → Option (σ ⊕ ℕ)
  | [] => some (.inl s)
  | [arg] =>
    match option s arg none with
    | .one s | .two s => some (.inl s)
    | .returns iret => some (.inr iret)
    | .undefined => none
  | arg :: next :: args =>
    match option s arg (some next) with
    | .one s => parseArgs option s (next :: args)
    | .two s => parseArgs option s args
    | .returns iret => some (.inr iret)
    | .undefined => none

/-- `setboolopt` -/
def setboolopt (sarg : List Byte) : Option ℤ :=
  if sarg = chars "yes" then some 1
  else if sarg = chars "no" then some 0
  else if sarg = chars "on" then some 1
  else if sarg = chars "off" then some 0
  else if sarg = chars "1" then some 1
  else if sarg = chars "0" then some 0
  else none

structure ServerOptions where
  hostName : List Byte
  portNumber : ℤ
  verbosity : Int32
  doEcho : ℤ
  msgLog : List Byte
  deriving DecidableEq, Repr

def ServerOptions.start : ServerOptions where
  hostName := []
  portNumber := 5050
  verbosity := 0
  doEcho := 1
  msgLog := chars "fgio_server.log"

/-- The body of the loop of `simp_server`. `arg` stays at the first dash, and `sarg` goes behind the
dashes. -/
def serverOption (s : ServerOptions) (arg : List Byte) (next : Option (List Byte)) :
    Parsed ServerOptions :=
  if arg.head? = some (charByte '-') then
    let sarg := skipDashes arg.tail
    let c := sarg.head?
    let c := if sarg = chars "help" ∨ sarg = chars "version" then some (charByte '?') else c
    if c = some (charByte '?') then .returns 0
    else if c = some (charByte 'h') then
      .withNext next fun value => some { s with hostName := value }
    else if c = some (charByte 'p') then
      .withNext next fun value => some { s with portNumber := atoi value }
    else if c = some (charByte 'v') then
      verbosityCase (fun verbosity => { s with verbosity := verbosity }) s.verbosity arg.tail
    else if c = some (charByte 'e') then
      .withNext next fun value => (setboolopt value).map fun doEcho => { s with doEcho := doEcho }
    else if c = some (charByte 'l') then
      .withNext next fun value => some { s with msgLog := value }
    else badArg
  else .returns 1

structure ClientOptions where
  hostName : List Byte
  portNumber : ℤ
  verbosity : Int32
  onceOnly : Bool
  receiveOnly : Bool
  secsToSleep : ℤ
  deriving DecidableEq, Repr

def ClientOptions.start : ClientOptions where
  hostName := chars "localhost"
  portNumber := 5050
  verbosity := 0
  onceOnly := false
  receiveOnly := false
  secsToSleep := 5

/-- A number that `simp_client` takes for an option. -/
def digitsValue (value : List Byte) : Option ℤ :=
  if isDigits value then some (atoi value) else none

/-- The body of the loop of `simp_client`. `arg` goes behind the dashes. -/
def clientOption (s : ClientOptions) (arg : List Byte) (next : Option (List Byte)) :
    Parsed ClientOptions :=
  if arg.head? = some (charByte '-') then
    let arg := skipDashes arg.tail
    let c := arg.head?
    if c = some (charByte '?') then .returns 0
    else if c = some (charByte '1') then .one { s with onceOnly := true }
    else if c = some (charByte 'h') then
      .withNext next fun value => some { s with hostName := value }
    else if c = some (charByte 'p') then
      .withNext next fun value => (digitsValue value).map fun n => { s with portNumber := n }
    else if c = some (charByte 'r') then .one { s with receiveOnly := true }
    else if c = some (charByte 's') then
      .withNext next fun value => (digitsValue value).map fun n => { s with secsToSleep := n }
    else if c = some (charByte 'v') then
      verbosityCase (fun verbosity => { s with verbosity := verbosity }) s.verbosity arg.tail
    else badArg
  else .returns 1

structure UdpserverOptions where
  hostName : List Byte
  portNumber : ℤ
  verbosity : Int32
  doAnEcho : Bool
  outFile : Option (List Byte)
  deriving DecidableEq, Repr

def UdpserverOptions.start : UdpserverOptions where
  hostName := []
  portNumber := 3333
  verbosity := 0
  doAnEcho := true
  outFile := none

/-- The value of the option `-e` of `udpserver`, of which the first letter counts. -/
def echoValue (value : List Byte) : Option Bool :=
  if value.head? = some (charByte 'y') then some true
  else if value.head? = some (charByte 'n') then some false
  else none

/-- The body of the loop of `udpserver`. `arg` goes behind the dashes. -/
def udpserverOption (s : UdpserverOptions) (arg : List Byte) (next : Option (List Byte)) :
    Parsed UdpserverOptions :=
  if arg.head? = some (charByte '-') then
    let arg := skipDashes arg.tail
    let c := arg.head?
    if c = some (charByte '?') then .returns 0
    else if c = some (charByte 'e') then
      .withNext next fun value => (echoValue value).map fun echo => { s with doAnEcho := echo }
    else if c = some (charByte 'h') then
      .withNext next fun value => some { s with hostName := value }
    else if c = some (charByte 'o') then
      .withNext next fun value => some { s with outFile := some value }
    else if c = some (charByte 'p') then
      .withNext next fun value => some { s with portNumber := atoi value }
    else if c = some (charByte 'v') then
      verbosityCase (fun verbosity => { s with verbosity := verbosity }) s.verbosity arg.tail
    else badArg
  else .returns 1

end TcpTests.SimpCommon
