import TcpTests.Fgmp.Xdr

/-! The multiplayer message of `fgmpmsg.hxx`: constants, the layout of
`T_MsgHdr` and `T_PositionMsg` in a message buffer, and the header writer. -/
namespace TcpTests.Fgmp
open Lib

def msgMagic : Word := 0x46474653#32

def relayMagic : Word := 0x53464746#32

def protoVer : Word := 0x00010001#32

def chatMsgId : Word := 1#32

def unusablePosDataId : Word := 2#32

def oldOldPosDataId : Word := 3#32

def oldPosDataId : Word := 4#32

def oldPropMsgId : Word := 5#32

def posDataId : Word := 7#32

@[simp] def maxCallsignLen : ℕ := 8

@[simp] def maxChatMsgLen : ℕ := 256

@[simp] def maxPacketSize : ℕ := 1200

@[simp] def maxTextSize : ℕ := 128

/-! Byte offsets of the fields of `T_MsgHdr`. -/

@[simp] def offMagic : ℕ := 0

@[simp] def offVersion : ℕ := 4

@[simp] def offMsgId : ℕ := 8

@[simp] def offMsgLen : ℕ := 12

@[simp] def offReplyAddress : ℕ := 16

@[simp] def offReplyPort : ℕ := 20

@[simp] def offCallsign : ℕ := 24

@[simp] def sizeofMsgHdr : ℕ := 32

@[simp] def sizeofChatMsg : ℕ := maxChatMsgLen

@[simp] def sizeofPositionMsg : ℕ := 200

/-- `posMsg()->Model` in the buffer. -/
@[simp] def offModel : ℕ := sizeofMsgHdr

/-- `posMsg()->pad` in the buffer: the last word before the properties. -/
@[simp] def offPad : ℕ := sizeofMsgHdr + 196

@[simp] def offProperties : ℕ := sizeofMsgHdr + sizeofPositionMsg

/-- The `MsgLen` that `myFillMsgHdr` chooses for a message identifier. -/
def msgLenFor (msgId len : Word) : Word :=
  if msgId = chatMsgId then BitVec.ofNat 32 (sizeofMsgHdr + sizeofChatMsg)
  else if msgId = posDataId then len
  else BitVec.ofNat 32 sizeofMsgHdr

/-- The header fields are written before the callsign is examined, so a callsign
that is too long leaves the old one in place and reports failure. -/
def myFillMsgHdr (h : Endian) (m : Mem) (msgId len : Word) (pCallSign : List Byte) : Mem × ℕ :=
  let m := storeWord h m offMagic (xdrEncodeUint32 h msgMagic)
  let m := storeWord h m offVersion (xdrEncodeUint32 h protoVer)
  let m := storeWord h m offMsgId (xdrEncodeUint32 h msgId)
  let m := storeWord h m offMsgLen (xdrEncodeUint32 h (msgLenFor msgId len))
  let m := storeWord h m offReplyAddress 0#32
  let m := storeWord h m offReplyPort 0#32
  if pCallSign.length < maxCallsignLen then (m.strcpy offCallsign pCallSign, 0) else (m, 1)

/-- The words of a header on the wire, up to the callsign. -/
def headerWire (msgId len : Word) : List Byte :=
  wordBytes .big msgMagic ++ wordBytes .big protoVer ++ wordBytes .big msgId ++
    wordBytes .big len ++ wordBytes .big 0#32 ++ wordBytes .big 0#32

@[simp] theorem headerWire_length (msgId len : Word) : (headerWire msgId len).length = 24 := rfl

/-- The bytes written do not depend on the byte order of the machine. -/
theorem myFillMsgHdr_eq (h : Endian) (m : Mem) (msgId len : Word) (cs : List Byte)
    (hcs : cs.length < maxCallsignLen) :
    myFillMsgHdr h m msgId len cs =
      (m.write 0 (headerWire msgId (msgLenFor msgId len) ++ (cs ++ [0])), 0) := by
  have hz : (0#32 : Word) = swap32 h 0#32 := (swap32_zero h).symm
  unfold myFillMsgHdr
  simp only [xdrEncodeUint32]
  rw [hz]
  simp only [storeWord_swap32, offMagic, offVersion, offMsgId, offMsgLen, offReplyAddress,
    offReplyPort, offCallsign, Mem.strcpy, if_pos hcs]
  rw [Mem.write_write _ _ _ (by rfl), Mem.write_write _ _ _ (by rfl),
    Mem.write_write _ _ _ (by rfl), Mem.write_write _ _ _ (by rfl),
    Mem.write_write _ _ _ (by rfl), Mem.write_write _ _ _ (by rfl)]
  rfl

theorem myFillMsgHdr_result (h : Endian) (m : Mem) (msgId len : Word) (cs : List Byte) :
    (myFillMsgHdr h m msgId len cs).2 = 1 ↔ maxCallsignLen ≤ cs.length := by
  unfold myFillMsgHdr
  dsimp only
  split_ifs with hcs
  · simp only [false_iff]
    omega
  · simp only [true_iff]
    omega

end TcpTests.Fgmp
