import TcpTests.Lib.Align
import TcpTests.Fgmp.Message
import TcpTests.Fgmp.PropertyTable

/-! The property list of a position message: `_verifyProperties` and the
property loop of `ProcessPosMsg`. A pointer into the list is the index of its
word from the start of the buffer, and `data` holds the words as the machine
finds them. The text of a string is kept without its terminating NUL, a float
as its bit pattern. -/
namespace TcpTests.Fgmp
open Lib

inductive PropertyValue
  | int (value : Word)
  | float (value : Word)
  | string (value : List Byte)
  deriving DecidableEq, Repr

structure FGPropertyData where
  id : Word
  type : FGMPType
  value : PropertyValue
  deriving DecidableEq, Repr

/-- Old versions truncated the string but left the length unadjusted. -/
def textLength (length : Word) : ℕ :=
  if length.toNat > maxTextSize then maxTextSize else length.toNat

/-- The pointer after one element whose identifier has been read, or `none` where
verification gives up. -/
def verifyElement (h : Endian) (data : ℕ → Word) (type : FGMPType) (xdr : ℕ) : Option ℕ :=
  match type with
  | .int | .bool | .long => some (xdr + 1)
  | .float | .double => if isNan (xdrDecodeFloat h (data xdr)) then none else some (xdr + 1)
  | .string | .unspecified =>
    let length := textLength (xdrDecodeUint32 h (data xdr))
    some (xdr + 1 + length + alignSteps 4 length)
  | _ => none

theorem verifyElement_lt {h : Endian} {data : ℕ → Word} {type : FGMPType} {xdr next : ℕ}
    (hv : verifyElement h data type xdr = some next) : xdr < next := by
  unfold verifyElement at hv
  split at hv
  all_goals try split_ifs at hv
  all_goals cases hv
  all_goals omega

def verifyProperties (h : Endian) (data : ℕ → Word) (stop xdr : ℕ) : Bool :=
  if 4 * xdr < stop then
    match findProperty (xdrDecodeUint32 h (data xdr)) with
    | some plist =>
      match _hv : verifyElement h data plist.type (xdr + 1) with
      | some next => verifyProperties h data stop next
      | none => false
    | none => false
  else true
termination_by stop - 4 * xdr
decreasing_by
  have := verifyElement_lt _hv
  omega

/-- The value of one element whose identifier has been read, and the pointer after it. -/
def decodeElement (h : Endian) (data : ℕ → Word) (type : FGMPType) (xdr : ℕ) :
    PropertyValue × ℕ :=
  match type with
  | .int | .bool | .long => (.int (xdrDecodeUint32 h (data xdr)), xdr + 1)
  | .float | .double => (.float (xdrDecodeFloat h (data xdr)), xdr + 1)
  | .string | .unspecified =>
    let length := textLength (xdrDecodeUint32 h (data xdr))
    (.string ((List.range length).map fun i => xdrDecodeInt8 h (data (xdr + 1 + i))),
      xdr + 1 + length + alignSteps 4 length)
  | _ => (.float (xdrDecodeFloat h (data xdr)), xdr + 1)

theorem decodeElement_lt (h : Endian) (data : ℕ → Word) (type : FGMPType) (xdr : ℕ) :
    xdr < (decodeElement h data type xdr).2 := by
  unfold decodeElement
  split <;> dsimp only <;> omega

/-- The return value and the properties decoded before it. -/
def decodeProperties (h : Endian) (data : ℕ → Word) (stop xdr : ℕ) : ℕ × List FGPropertyData :=
  if 4 * xdr < stop then
    let id := xdrDecodeUint32 h (data xdr)
    match findProperty id with
    | some plist =>
      let e := decodeElement h data plist.type (xdr + 1)
      let r := decodeProperties h data stop e.2
      (r.1, ⟨id, plist.type, e.1⟩ :: r.2)
    | none => (1, [])
  else (0, [])
termination_by stop - 4 * xdr
decreasing_by
  have := decodeElement_lt h data plist.type (xdr + 1)
  omega

def bufferWords (h : Endian) (m : Mem) : ℕ → Word := fun i => loadWord h m (4 * i)

/-- The pad word and the first word of the properties, as word indices. -/
@[simp] def padWord : ℕ := offPad / 4

@[simp] def propertiesWord : ℕ := offProperties / 4

/-- `MsgLen` is in the order of the machine when this runs. A pad word other than zero is
taken for the first word of the list if the list verifies from there. -/
def processPosMsg (h : Endian) (m : Mem) : ℕ × List FGPropertyData :=
  let data := bufferWords h m
  let xdrend := (loadWord h m offMsgLen).toNat
  if data padWord ≠ 0#32 then
    if verifyProperties h data xdrend padWord then decodeProperties h data xdrend padWord
    else if !verifyProperties h data xdrend propertiesWord then (0, [])
    else decodeProperties h data xdrend propertiesWord
  else decodeProperties h data xdrend propertiesWord

@[simp] theorem swap32_bufferWords (h : Endian) (m : Mem) (i : ℕ) :
    swap32 h (bufferWords h m i) = beWord m (4 * i) :=
  swap32_loadWord h m (4 * i)

section Steps
variable {h : Endian} {data : ℕ → Word} {stop xdr : ℕ}

theorem verifyProperties_end (hs : stop ≤ 4 * xdr) : verifyProperties h data stop xdr = true := by
  rw [verifyProperties]
  simp [Nat.not_lt.mpr hs]

theorem verifyProperties_unknown (hs : 4 * xdr < stop)
    (hid : findProperty (xdrDecodeUint32 h (data xdr)) = none) :
    verifyProperties h data stop xdr = false := by
  rw [verifyProperties]
  simp [hs, hid]

theorem verifyProperties_stop {plist : IdPropertyList} (hs : 4 * xdr < stop)
    (hid : findProperty (xdrDecodeUint32 h (data xdr)) = some plist)
    (hv : verifyElement h data plist.type (xdr + 1) = none) :
    verifyProperties h data stop xdr = false := by
  rw [verifyProperties]
  simp only [hs, if_true, hid]
  split
  · rename_i next hn
    rw [hv] at hn
    cases hn
  · rfl

theorem verifyProperties_next {plist : IdPropertyList} {next : ℕ} (hs : 4 * xdr < stop)
    (hid : findProperty (xdrDecodeUint32 h (data xdr)) = some plist)
    (hv : verifyElement h data plist.type (xdr + 1) = some next) :
    verifyProperties h data stop xdr = verifyProperties h data stop next := by
  rw [verifyProperties]
  simp only [hs, if_true, hid]
  split
  · rename_i n hn
    rw [hv] at hn
    cases hn
    rfl
  · rename_i hn
    rw [hv] at hn
    cases hn

theorem decodeProperties_end (hs : stop ≤ 4 * xdr) :
    decodeProperties h data stop xdr = (0, []) := by
  rw [decodeProperties]
  simp [Nat.not_lt.mpr hs]

theorem decodeProperties_unknown (hs : 4 * xdr < stop)
    (hid : findProperty (xdrDecodeUint32 h (data xdr)) = none) :
    decodeProperties h data stop xdr = (1, []) := by
  rw [decodeProperties]
  simp [hs, hid]

theorem decodeProperties_next {plist : IdPropertyList} (hs : 4 * xdr < stop)
    (hid : findProperty (xdrDecodeUint32 h (data xdr)) = some plist) :
    decodeProperties h data stop xdr =
      ((decodeProperties h data stop (decodeElement h data plist.type (xdr + 1)).2).1,
        ⟨xdrDecodeUint32 h (data xdr), plist.type,
          (decodeElement h data plist.type (xdr + 1)).1⟩ ::
        (decodeProperties h data stop (decodeElement h data plist.type (xdr + 1)).2).2) := by
  rw [decodeProperties]
  simp only [hs, if_true, hid]

end Steps

theorem processPosMsg_short {h : Endian} {m : Mem}
    (hlen : (loadWord h m offMsgLen).toNat ≤ offPad) : processPosMsg h m = (0, []) := by
  have hpad : (loadWord h m offMsgLen).toNat ≤ 4 * padWord := hlen
  have hprops : (loadWord h m offMsgLen).toNat ≤ 4 * propertiesWord :=
    hpad.trans (by decide)
  unfold processPosMsg
  dsimp only
  rw [decodeProperties_end hpad, decodeProperties_end hprops, verifyProperties_end hprops]
  simp only [Bool.not_true, Bool.false_eq_true, ite_self]

theorem processPosMsg_unknown {h : Endian} {m : Mem}
    (hlen : offProperties < (loadWord h m offMsgLen).toNat)
    (hpad : bufferWords h m padWord = 0#32) (hid : findProperty (beWord m offProperties) = none) :
    processPosMsg h m = (1, []) := by
  have hfirst : findProperty (xdrDecodeUint32 h (bufferWords h m propertiesWord)) = none := by
    have hword : xdrDecodeUint32 h (bufferWords h m propertiesWord) = beWord m offProperties :=
      swap32_bufferWords h m propertiesWord
    rw [hword, hid]
  have hlt : 4 * propertiesWord < (loadWord h m offMsgLen).toNat := hlen
  unfold processPosMsg
  dsimp only
  rw [if_neg (not_not_intro hpad), decodeProperties_unknown hlt hfirst]

end TcpTests.Fgmp
