import TcpTests.Lib.Align
import TcpTests.Lib.Stream
import TcpTests.Net.Datagram
import TcpTests.Fgmp.Message

/-! `WriteRawData`: the capture file `mpserver` keeps of what it receives. -/
namespace TcpTests.Mpserver
open Lib Net Fgmp

/-- The file behind `fTempRaw`, which is a null pointer when `isOpen` is false. -/
structure RawFile where
  content : List Byte
  isOpen : Bool

def padChar : Byte := 0x3D#8

/-- What `hex_buffer` is filled with after a block: up to a multiple of 16, and one row more. -/
def rawPadding (rlen : ℕ) : List Byte :=
  List.replicate (alignSteps 16 rlen) padChar ++ List.replicate 16 padChar

/-- How many bytes each of the two `fwrite` calls may take. -/
structure Disk where
  wlen : ℕ
  padlen : ℕ

def Disk.TakesAll (d : Disk) (rlen : ℕ) : Prop := rlen ≤ d.wlen ∧ rlen + 32 ≤ d.padlen

/-- The file is abandoned when the block is cut short. A cut in the padding goes unnoticed. -/
def writeRawData (fTempRaw : RawFile) (bufptr : List Byte) (d : Disk) : RawFile :=
  let rlen := bufptr.length
  if fTempRaw.isOpen ∧ 0 < rlen then
    let taken := bufptr.take d.wlen
    if taken.length ≠ rlen then ⟨fTempRaw.content ++ taken, false⟩
    else ⟨fTempRaw.content ++ taken ++ (rawPadding rlen).take d.padlen, true⟩
  else fTempRaw

def rawRecord (bytes : List Byte) : List Byte := bytes ++ rawPadding bytes.length

theorem rawPadding_length (n : ℕ) : (rawPadding n).length = alignSteps 16 n + 16 := by
  simp [rawPadding]

theorem rawPadding_length_lt (n : ℕ) : (rawPadding n).length < 32 := by
  have := alignSteps_lt (show 0 < 16 by decide) n
  rw [rawPadding_length]
  omega

theorem writeRawData_takesAll {f : RawFile} {bytes : List Byte} {d : Disk} (hf : f.isOpen = true)
    (hb : bytes ≠ []) (hd : d.TakesAll bytes.length) :
    writeRawData f bytes d = ⟨f.content ++ rawRecord bytes, true⟩ := by
  have hpos : 0 < bytes.length := List.length_pos_iff.mpr hb
  have htake : bytes.take d.wlen = bytes := List.take_of_length_le hd.1
  have hpad : (rawPadding bytes.length).take d.padlen = rawPadding bytes.length := by
    apply List.take_of_length_le
    have := rawPadding_length_lt bytes.length
    have := hd.2
    omega
  unfold writeRawData
  simp only [hf, hpos, and_self, if_true, htake, ne_eq, not_true_eq_false, if_false, hpad,
    rawRecord, List.append_assoc]

/-- The file after one call for each datagram, on a disk that takes everything. -/
def capture (ds : List (List Byte)) : RawFile :=
  ds.foldl (fun f d => writeRawData f d ⟨d.length, d.length + 32⟩) ⟨[], true⟩

/-- A datagram with a header that the server accepts. -/
structure ValidDatagram (d : List Byte) : Prop where
  lo : sizeofMsgHdr ≤ d.length
  hi : d.length ≤ maxPacketSize
  magic : beWord (carried d) offMagic = msgMagic ∨ beWord (carried d) offMagic = relayMagic
  version : beWord (carried d) offVersion = protoVer
  msgLen : beWord (carried d) offMsgLen = BitVec.ofNat 32 d.length

theorem ValidDatagram.ne_nil {d : List Byte} (hd : ValidDatagram d) : d ≠ [] := by
  rintro rfl
  exact absurd hd.lo (by decide)

theorem ValidDatagram.msgLen_toNat {d : List Byte} (hd : ValidDatagram d) :
    (beWord (carried d) offMsgLen).toNat = d.length := by
  have := hd.hi
  simp only [maxPacketSize] at this
  rw [hd.msgLen, BitVec.toNat_ofNat, Nat.mod_eq_of_lt (by omega)]

theorem capture_content {ds : List (List Byte)} (hds : ∀ d ∈ ds, ValidDatagram d) :
    (capture ds).content = ds.flatMap rawRecord := by
  have hfold : ∀ (ds : List (List Byte)) (f : RawFile), f.isOpen = true →
      (∀ d ∈ ds, ValidDatagram d) →
      (ds.foldl (fun f d => writeRawData f d ⟨d.length, d.length + 32⟩) f).content =
        f.content ++ ds.flatMap rawRecord := by
    intro ds
    induction ds with
    | nil => intro f _ _; simp
    | cons d ds ih =>
      intro f hf hds
      have hw : writeRawData f d ⟨d.length, d.length + 32⟩ = ⟨f.content ++ rawRecord d, true⟩ :=
        writeRawData_takesAll hf (hds d (by simp)).ne_nil ⟨le_rfl, le_rfl⟩
      rw [List.foldl_cons, hw, ih _ rfl fun e he => hds e (by simp [he]), List.flatMap_cons,
        List.append_assoc]
  exact hfold ds ⟨[], true⟩ rfl hds

/-- Reading a record in three pieces: the header, the rest of the datagram, the padding. -/
theorem record_pieces {f : Stream} {d rest : List Byte} (hf : f.At (rawRecord d ++ rest))
    (hd : sizeofMsgHdr ≤ d.length) :
    (f.fread sizeofMsgHdr).1 = d.take sizeofMsgHdr ∧
      ((f.fread sizeofMsgHdr).2.fread (d.length - sizeofMsgHdr)).1 = d.drop sizeofMsgHdr ∧
      (((f.fread sizeofMsgHdr).2.fread (d.length - sizeofMsgHdr)).2.fread
        (alignSteps 16 d.length + 16)).1 = rawPadding d.length ∧
      (((f.fread sizeofMsgHdr).2.fread (d.length - sizeofMsgHdr)).2.fread
        (alignSteps 16 d.length + 16)).2.At rest := by
  have hsplit : rawRecord d ++ rest =
      d.take sizeofMsgHdr ++ (d.drop sizeofMsgHdr ++ (rawPadding d.length ++ rest)) := by
    rw [rawRecord, List.append_assoc, ← List.append_assoc (d.take sizeofMsgHdr),
      List.take_append_drop]
  rw [hsplit] at hf
  obtain ⟨h₁, hf⟩ := hf.fread (List.length_take_of_le hd)
  obtain ⟨h₂, hf⟩ := hf.fread (List.length_drop)
  obtain ⟨h₃, hf⟩ := hf.fread (rawPadding_length d.length)
  exact ⟨h₁, h₂, h₃, hf⟩

theorem beWord_header (m : Mem) {d : List Byte} {off : ℕ} (hd : sizeofMsgHdr ≤ d.length)
    (ho : off + 4 ≤ sizeofMsgHdr) :
    beWord (m.write 0 (d.take sizeofMsgHdr)) off = beWord (carried d) off := by
  apply beWord_congr
  intro i hi
  exact write_take_carried m hd (by omega)

end TcpTests.Mpserver
