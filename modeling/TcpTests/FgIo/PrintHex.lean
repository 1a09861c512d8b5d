import TcpTests.Lib.CString
import TcpTests.GenStg.Contents

/-! `print_hex` of `fgio.cxx` and `fg_telnet.cxx`: received bytes in lines of 16, in hex and as
characters. A store outside of a buffer is `none`. -/
namespace TcpTests.FgIo
open Lib

def myHexWidth : ℕ := 16

def space : Byte := 0x20#8

def percent : Byte := 0x25#8

/-- The static arrays, with what the last call has left in them. -/
structure HexBuffers where
  hexBuffer : List Byte
  ascBuffer : List Byte
  hex_length : hexBuffer.length = 256
  asc_length : ascBuffer.length = 64

def hexDigit (n : ℕ) : Byte := BitVec.ofNat 8 (if n < 10 then 0x30 + n else 0x37 + n)

/-- `"%02X "` -/
def hexText (b : Byte) : List Byte := [hexDigit (b.toNat / 16), hexDigit (b.toNat % 16), space]

structure Row where
  lpd : List Byte
  pab : List Byte
  off : ℕ
  ext : ℕ
  deriving DecidableEq, Repr

/-- `d`, as it is stored: `c` is an `int`, and plain `char` is signed. -/
def shownChar (b : Byte) : Byte :=
  let c : Word := b.signExtend 32
  let d := if c.slt 0x20#32 ∨ c &&& 0x80#32 ≠ 0#32 then 0x2E#32 else c
  d.setWidth 8

/-- The body of the loop over the bytes of a line, up to `ext++`. -/
def Row.put (r : Row) (b : Byte) : Option Row := do
  let d := shownChar b
  let pab ← Block.write r.pab r.off [d]
  let off := r.off + 1
  let (pab, off) ←
    if d = percent then (Block.write pab off [d]).map fun pab => (pab, off + 1)
    else some (pab, off)
  let lpd ← Block.strcat r.lpd (hexText b)
  some { lpd := lpd, pab := pab, off := off, ext := r.ext + 1 }

/-- `for( ; i < in_size; i++ )`. A byte outside of `buf` is `none`. -/
def Row.fill (buf : List Byte) (inSize cnt i : ℕ) (r : Row) : Option (ℕ × Row) :=
  if i < inSize then do
    let b ← buf[i]?
    let r ← r.put b
    if cnt ≤ r.ext then some (i + 1, r) else Row.fill buf inSize cnt (i + 1) r
  else some (i, r)
  termination_by inSize - i

/-- `while( ext < MY_HEX_WIDTH )` -/
def Row.pad (lpd : List Byte) (ext : ℕ) : Option (List Byte) :=
  if ext < myHexWidth then do
    let lpd ← Block.strcat lpd [space, space, space]
    Row.pad lpd (ext + 1)
  else some lpd
  termination_by myHexWidth - ext

/-- `while( sz > 0 )`. What becomes of a line is left to `emit`, and the lines that have been shown
are collected. -/
def hexLines {σ : Type} (emit : σ → List Byte → Option (σ × List Byte)) (buf : List Byte)
    (inSize sz i : ℕ) (lpd pab : List Byte) (s : σ) : Option (List (List Byte)) :=
  if 0 < sz then do
    let cnt := if sz > myHexWidth then myHexWidth else sz
    let (i, r) ← Row.fill buf inSize cnt i ⟨lpd, pab, 0, 0⟩
    let pab ← Block.write r.pab r.off [0]
    let lpd ← Row.pad r.lpd r.ext
    let hex ← Block.cstr lpd
    let asc ← Block.cstr pab
    let (s, line) ← emit s (hex ++ space :: asc)
    let lpd ← Block.write lpd 0 [0]
    let lines ← hexLines emit buf inSize (sz - cnt) i lpd pab s
    some (line :: lines)
  else some []
  termination_by sz
  decreasing_by
    unfold myHexWidth
    split_ifs <;> omega

def printHex {σ : Type} (emit : σ → List Byte → Option (σ × List Byte)) (b : HexBuffers)
    (buf : List Byte) (inSize : ℕ) (s : σ) : Option (List (List Byte)) := do
  let lpd ← Block.write b.hexBuffer 0 [0]
  hexLines emit buf inSize inSize 0 lpd b.ascBuffer s

/-- `globalStg.sprintf("%s %s", lpd, pab); OUTGS;` -/
def outgs (p : Platform) (heap : Heap) (globalStg : GenStg) (text : List Byte) :
    Option (GenStg × List Byte) := do
  let globalStg ← globalStg.sprintf p heap text
  let line ← Block.cstr globalStg.mBuf
  some (globalStg, line)

/-- `print_hex` of `fgio.cxx`. The calls are those that `globalStg` has seen. -/
def fgioPrintHex (p : Platform) (heap : Heap) (calls : List GenStg.Call) (b : HexBuffers)
    (buf : List Byte) (inSize : ℕ) : Option (List (List Byte)) := do
  let globalStg ← GenStg.after p heap none calls
  printHex (outgs p heap) b buf inSize globalStg

/-- `print_hex` of `fg_telnet.cxx`, which has `printf("%s %s\n", lpd, pab)`. -/
def fgTelnetPrintHex (b : HexBuffers) (buf : List Byte) (inSize : ℕ) : Option (List (List Byte)) :=
  printHex (fun (s : Unit) text => some (s, text)) b buf inSize ()

/-- The hex column of some bytes, filled out to 48 characters. -/
def hexColumn (bs : List Byte) : List Byte :=
  bs.flatMap hexText ++ List.replicate (3 * (myHexWidth - bs.length)) space

def asciiChar (b : Byte) : Byte := if 0x20#8 ≤ b ∧ b ≤ 0x7F#8 then b else 0x2E#8

/-- The lines show the bytes, 16 a line: two digits for each of them, and then the characters that
`column` has for them. -/
structure Dump (column : List Byte → List Byte) (bytes : List Byte) (lines : List (List Byte)) :
    Prop where
  count : lines.length = (bytes.length + 15) / 16
  line : ∀ k < lines.length, ∃ bs, bs = (bytes.drop (16 * k)).take 16 ∧
    lines[k]? = some (hexColumn bs ++ space :: column bs)

def FaithfulDump (bytes : List Byte) (lines : List (List Byte)) : Prop :=
  Dump (List.map asciiChar) bytes lines

/-- What the loop stores for a byte in the ASCII column. -/
def columnText (b : Byte) : List Byte :=
  if shownChar b = percent then [percent, percent] else [shownChar b]

@[simp] theorem hexText_length (b : Byte) : (hexText b).length = 3 := rfl

theorem hexText_noNul (b : Byte) : 0 ∉ hexText b := by
  revert b
  decide

theorem columnText_noNul (b : Byte) : 0 ∉ columnText b := by
  revert b
  decide

theorem columnText_length_le (b : Byte) : (columnText b).length ≤ 2 := by
  unfold columnText
  split_ifs <;> simp

theorem columnText_eq (b : Byte) :
    columnText b = if b = percent then [asciiChar b, asciiChar b] else [asciiChar b] := by
  revert b
  decide

theorem hexTexts_length (bs : List Byte) : (bs.flatMap hexText).length = 3 * bs.length := by
  induction bs with
  | nil => rfl
  | cons b bs ih =>
    rw [List.flatMap_cons, List.length_append, ih, hexText_length, List.length_cons]
    omega

theorem columnTexts_length_le (bs : List Byte) :
    (bs.flatMap columnText).length ≤ 2 * bs.length := by
  induction bs with
  | nil => rfl
  | cons b bs ih =>
    have hb := columnText_length_le b
    rw [List.flatMap_cons, List.length_append, List.length_cons]
    omega

theorem flatMap_noNul {f : Byte → List Byte} (hf : ∀ b, 0 ∉ f b) (bs : List Byte) :
    0 ∉ bs.flatMap f := by
  intro hmem
  obtain ⟨b, -, hb⟩ := List.mem_flatMap.mp hmem
  exact hf b hb

structure Row.Shows (r : Row) (bs : List Byte) : Prop where
  hex : Block.HasText r.lpd (bs.flatMap hexText)
  asc : r.pab.take r.off = bs.flatMap columnText
  off : r.off = (bs.flatMap columnText).length
  ext : r.ext = bs.length
  lpd : r.lpd.length = 256
  pab : r.pab.length = 64

section
variable {buf bs lpd pab : List Byte} {r : Row} {b : Byte} {inSize cnt i n : ℕ}

theorem Row.Shows.column (h : r.Shows bs) (hlt : bs.length < 16) (b : Byte) :
    ∃ pab pab' off, Block.write r.pab r.off [shownChar b] = some pab ∧
      (if shownChar b = percent then
        (Block.write pab (r.off + 1) [shownChar b]).map fun pab => (pab, r.off + 1 + 1)
      else some (pab, r.off + 1)) = some (pab', off) ∧
      pab'.take off = bs.flatMap columnText ++ columnText b ∧
      off = (bs.flatMap columnText).length + (columnText b).length ∧ pab'.length = 64 := by
  have hoff := h.off
  have hle := columnTexts_length_le bs
  obtain ⟨pab, hpab, htake, hlen⟩ := Block.exists_write r.pab r.off [shownChar b]
    (by rw [h.pab, List.length_singleton]; omega)
  rw [List.length_singleton, h.asc] at htake
  rw [h.pab] at hlen
  by_cases hper : shownChar b = percent
  · obtain ⟨pab', hpab', htake', hlen'⟩ := Block.exists_write pab (r.off + 1) [shownChar b]
      (by rw [hlen, List.length_singleton]; omega)
    have hcol : columnText b = [shownChar b, shownChar b] := by
      rw [columnText, if_pos hper, hper]
    rw [List.length_singleton, htake, List.append_assoc] at htake'
    refine ⟨pab, pab', r.off + 1 + 1, hpab, ?_, ?_, ?_, hlen'.trans hlen⟩
    · rw [if_pos hper, hpab', Option.map_some]
    · rw [hcol]
      exact htake'
    · rw [hcol, hoff]
      rfl
  · have hcol : columnText b = [shownChar b] := if_neg hper
    refine ⟨pab, pab, r.off + 1, hpab, if_neg hper, ?_, ?_, hlen⟩
    · rw [hcol]
      exact htake
    · rw [hcol, hoff]
      rfl

theorem Row.put_shows (h : r.Shows bs) (hlt : bs.length < 16) (b : Byte) :
    ∃ t, r.put b = some t ∧ t.Shows (bs ++ [b]) := by
  obtain ⟨pab, pab', off, hpab, hcolumn, htake, hoff, hpabLen⟩ := h.column hlt b
  obtain ⟨lpd, hlpd, htext, hlpdLen⟩ := Block.exists_strcat h.hex (hexText_noNul b)
    (by rw [hexTexts_length, h.lpd, hexText_length]; omega)
  refine ⟨⟨lpd, pab', off, r.ext + 1⟩, ?_, ?_⟩
  · rw [Row.put, hpab]
    simp only [Option.bind_eq_bind, Option.bind_some, hlpd]
    split_ifs at hcolumn ⊢
    · rw [hcolumn, Option.bind_some]
    · cases hcolumn
      rfl
  · constructor
    · rw [List.flatMap_append, List.flatMap_singleton]
      exact htext
    · rw [List.flatMap_append, List.flatMap_singleton]
      exact htake
    · rw [List.flatMap_append, List.flatMap_singleton, List.length_append]
      exact hoff
    · rw [h.ext, List.length_append, List.length_singleton]
    · rw [hlpdLen, h.lpd]
    · exact hpabLen

theorem Row.fill_shows (hbuf : inSize ≤ buf.length) (hcnt : cnt ≤ 16) (hn : bs.length + n = cnt)
    (hpos : 0 < n) (hin : i + n ≤ inSize) (h : r.Shows bs) :
    ∃ t, Row.fill buf inSize cnt i r = some (i + n, t) ∧ t.Shows (bs ++ (buf.drop i).take n) := by
  induction n generalizing i r bs with
  | zero => omega
  | succ n ih =>
    have hi : i < buf.length := by omega
    obtain ⟨t, hput, ht⟩ := Row.put_shows h (by omega) buf[i]
    have hdrop : (buf.drop i).take (n + 1) = buf[i] :: (buf.drop (i + 1)).take n := by
      rw [List.drop_eq_getElem_cons hi, List.take_succ_cons]
    have hext := ht.ext
    rw [List.length_append, List.length_singleton] at hext
    rw [Row.fill, if_pos (by omega), List.getElem?_eq_getElem hi, Option.bind_eq_bind,
      Option.bind_some, hput, Option.bind_eq_bind, Option.bind_some, hdrop]
    rcases Nat.eq_zero_or_pos n with rfl | hmore
    · rw [if_pos (by omega), List.take_zero]
      exact ⟨t, rfl, ht⟩
    · rw [if_neg (by omega)]
      have hlen : (bs ++ [buf[i]]).length + n = cnt := by
        rw [List.length_append, List.length_singleton]
        omega
      obtain ⟨u, hu, hshows⟩ := ih hlen hmore (show i + 1 + n ≤ inSize by omega) ht
      rw [List.append_assoc, List.singleton_append] at hshows
      rw [Nat.add_assoc, Nat.add_comm 1 n] at hu
      exact ⟨u, hu, hshows⟩

theorem Row.pad_holds {text : List Byte} {ext : ℕ} (hlen : lpd.length = 256)
    (h : Block.HasText lpd text) (htext : text.length = 3 * ext) (hext : ext ≤ 16) :
    ∃ lpd', Row.pad lpd ext = some lpd' ∧
      Block.HasText lpd' (text ++ List.replicate (3 * (16 - ext)) space) ∧ lpd'.length = 256 := by
  induction hn : 16 - ext generalizing lpd text ext with
  | zero =>
    rw [Row.pad, if_neg (by unfold myHexWidth; omega)]
    refine ⟨lpd, rfl, ?_, hlen⟩
    simpa using h
  | succ n ih =>
    obtain ⟨lpd', hcat, hholds, hlen'⟩ := Block.exists_strcat h
      (show 0 ∉ [space, space, space] by decide) (by rw [htext, hlen]; simp; omega)
    rw [hlen] at hlen'
    have htext' : (text ++ [space, space, space]).length = 3 * (ext + 1) := by
      rw [List.length_append, htext]
      rfl
    obtain ⟨lpd'', hpad, hall, hend⟩ := ih hlen' hholds htext' (by omega) (by omega)
    rw [Row.pad, if_pos (by unfold myHexWidth; omega), hcat, Option.bind_eq_bind,
      Option.bind_some]
    refine ⟨lpd'', hpad, ?_, hend⟩
    rw [List.append_assoc] at hall
    have hspaces : [space, space, space] ++ List.replicate (3 * n) space =
        List.replicate (3 * (n + 1)) space := by
      rw [Nat.mul_add, Nat.add_comm, List.replicate_add]
      rfl
    rwa [hspaces] at hall

theorem dump_nil (column : List Byte → List Byte) : Dump column [] [] := by
  refine ⟨rfl, ?_⟩
  intro k hk
  exact absurd hk (Nat.not_lt_zero k)

theorem Dump.cons {column : List Byte → List Byte} {bytes line : List Byte}
    {lines : List (List Byte)} (hne : bytes ≠ [])
    (hline : line = hexColumn (bytes.take 16) ++ space :: column (bytes.take 16))
    (h : Dump column (bytes.drop 16) lines) : Dump column bytes (line :: lines) := by
  have hpos := List.length_pos_iff.mpr hne
  constructor
  · rw [List.length_cons, h.count, List.length_drop]
    omega
  · intro k hk
    cases k with
    | zero => exact ⟨_, rfl, by rw [List.getElem?_cons_zero, hline]; rfl⟩
    | succ k =>
      obtain ⟨bs, hbs, hget⟩ := h.line k (by rw [List.length_cons] at hk; omega)
      refine ⟨bs, ?_, by rw [List.getElem?_cons_succ]; exact hget⟩
      rw [hbs, List.drop_drop, Nat.mul_succ, Nat.add_comm 16]

theorem Row.Shows.line (h : r.Shows bs) (hlen : bs.length ≤ 16) :
    ∃ pab lpd, Block.write r.pab r.off [0] = some pab ∧ Row.pad r.lpd r.ext = some lpd ∧
      Block.cstr lpd = some (hexColumn bs) ∧ Block.cstr pab = some (bs.flatMap columnText) ∧
      lpd.length = 256 ∧ pab.length = 64 := by
  have hoff := h.off
  have hle := columnTexts_length_le bs
  obtain ⟨pab, hpab, hp⟩ := Block.exists_printed r.pab r.off []
    (by rw [h.pab, List.length_nil]; omega)
  have hext : (bs.flatMap hexText).length = 3 * r.ext := by rw [hexTexts_length, h.ext]
  obtain ⟨lpd, hlpd, hhex, hlpdLen⟩ := Row.pad_holds h.lpd h.hex hext (by rw [h.ext]; exact hlen)
  rw [h.ext] at hhex
  have hasc := Block.hasText_of_take (hp.take.trans h.asc) hp.nul
    (flatMap_noNul columnText_noNul bs)
  exact ⟨pab, lpd, hpab, hlpd, hhex.cstr, hasc.cstr, hlpdLen, by rw [hp.length, h.pab]⟩

theorem hexColumn_noNul (bs : List Byte) : 0 ∉ hexColumn bs := by
  intro hmem
  rcases List.mem_append.mp hmem with hm | hm
  · exact flatMap_noNul hexText_noNul bs hm
  · have hspace : (0 : Byte) = space := (List.mem_replicate.mp hm).2
    revert hspace
    decide

theorem lineText_noNul (bs : List Byte) :
    0 ∉ hexColumn bs ++ space :: bs.flatMap columnText := by
  intro hmem
  rcases List.mem_append.mp hmem with hm | hm
  · exact hexColumn_noNul bs hm
  · rcases List.mem_cons.mp hm with hm | hm
    · revert hm
      decide
    · exact flatMap_noNul columnText_noNul bs hm

/-- A text without a NUL is shown as it is, by an output in any of its states. -/
def Shown {σ : Type} (emit : σ → List Byte → Option (σ × List Byte)) (ok : σ → Prop) : Prop :=
  ∀ s, ok s → ∀ text, 0 ∉ text → ∃ t, emit s text = some (t, text) ∧ ok t

theorem lineCount_spec {sz : ℕ} (hpos : 0 < sz) :
    ∃ cnt, (if sz > myHexWidth then myHexWidth else sz) = cnt ∧ cnt ≤ 16 ∧ 0 < cnt ∧ cnt ≤ sz ∧
      (cnt = 16 ∨ cnt = sz) := by
  refine ⟨_, rfl, ?_, ?_, ?_, ?_⟩ <;> unfold myHexWidth <;> split_ifs <;> omega

theorem line_split {sz cnt : ℕ} (hin : i + sz ≤ buf.length) (hle : cnt ≤ 16) (hsz : cnt ≤ sz)
    (hcut : cnt = 16 ∨ cnt = sz) :
    ((buf.drop i).take sz).take 16 = (buf.drop i).take cnt ∧
      ((buf.drop i).take sz).drop 16 = (buf.drop (i + cnt)).take (sz - cnt) := by
  constructor
  · rw [List.take_take]
    congr 1
    omega
  · rcases hcut with rfl | rfl
    · rw [List.drop_take, List.drop_drop]
    · rw [Nat.sub_self, List.take_zero]
      apply List.drop_eq_nil_of_le
      rw [List.length_take]
      omega

structure Cleared (lpd pab : List Byte) : Prop where
  text : Block.HasText lpd []
  lpd : lpd.length = 256
  pab : pab.length = 64

theorem exists_cleared (hlpd : lpd.length = 256) (hpab : pab.length = 64) :
    ∃ lpd', Block.write lpd 0 [0] = some lpd' ∧ Cleared lpd' pab := by
  obtain ⟨lpd', hclear, hp⟩ := Block.exists_printed lpd 0 []
    (by rw [hlpd, List.length_nil]; omega)
  have hempty := Block.hasText_of_take hp.take hp.nul (by simp)
  exact ⟨lpd', hclear, hempty, by rw [hp.length, hlpd], hpab⟩

theorem hexLines_step {σ : Type} {emit : σ → List Byte → Option (σ × List Byte)} {ok : σ → Prop}
    {sz : ℕ} {s : σ} (hemit : Shown emit ok) (hbuf : inSize ≤ buf.length)
    (hcnt : (if sz > myHexWidth then myHexWidth else sz) = cnt) (hle : cnt ≤ 16) (hpos : 0 < cnt)
    (hsz : cnt ≤ sz) (hin : i + cnt ≤ inSize) (h : Cleared lpd pab) (hs : ok s) :
    ∃ lpd' pab' t, Cleared lpd' pab' ∧ ok t ∧
      hexLines emit buf inSize sz i lpd pab s =
        (hexLines emit buf inSize (sz - cnt) (i + cnt) lpd' pab' t).map
          ((hexColumn ((buf.drop i).take cnt) ++
            space :: ((buf.drop i).take cnt).flatMap columnText) :: ·) := by
  have hstart : Row.Shows ⟨lpd, pab, 0, 0⟩ [] := ⟨h.text, rfl, rfl, rfl, h.lpd, h.pab⟩
  obtain ⟨r, hfill, hshows⟩ := Row.fill_shows hbuf hle (Nat.zero_add cnt) hpos hin hstart
  rw [List.nil_append] at hshows
  have hlen : ((buf.drop i).take cnt).length ≤ 16 := by
    rw [List.length_take]
    omega
  obtain ⟨pab', lpd', hwrite, hpad, hhex, hasc, hlpd, hpab⟩ := hshows.line hlen
  obtain ⟨t, hshown, ht⟩ := hemit s hs _ (lineText_noNul ((buf.drop i).take cnt))
  obtain ⟨lpd'', hclear, hcleared⟩ := exists_cleared hlpd hpab
  refine ⟨lpd'', pab', t, hcleared, ht, ?_⟩
  rw [hexLines, if_pos (by omega)]
  dsimp only
  simp only [hcnt, hfill, Option.bind_eq_bind, Option.bind_some, hwrite, hpad, hhex, hasc, hshown,
    hclear]
  rw [Option.map_eq_bind]
  rfl

/-- All lines, by induction on the bytes that are left. -/
theorem hexLines_dump {σ : Type} {emit : σ → List Byte → Option (σ × List Byte)} {ok : σ → Prop}
    {sz : ℕ} {s : σ} (hemit : Shown emit ok) (hbuf : inSize ≤ buf.length) (hin : i + sz = inSize)
    (h : Cleared lpd pab) (hs : ok s) :
    ∃ lines, hexLines emit buf inSize sz i lpd pab s = some lines ∧
      Dump (List.flatMap columnText) ((buf.drop i).take sz) lines := by
  induction sz using Nat.strong_induction_on generalizing i lpd pab s with
  | _ sz ih =>
    rcases Nat.eq_zero_or_pos sz with rfl | hpos
    · rw [hexLines, if_neg (by omega), List.take_zero]
      exact ⟨[], rfl, dump_nil _⟩
    obtain ⟨cnt, hcnt, hle, hcntPos, hsz, hcut⟩ := lineCount_spec hpos
    obtain ⟨lpd', pab', t, hcleared, ht, hstep⟩ := hexLines_step hemit hbuf hcnt hle hcntPos hsz
      (show i + cnt ≤ inSize by omega) h hs
    have hleft : i + cnt + (sz - cnt) = inSize := by omega
    obtain ⟨lines, hrest, hdump⟩ := ih (sz - cnt) (by omega) hleft hcleared ht
    obtain ⟨htake, hdrop⟩ := @line_split buf i sz cnt (by omega) hle hsz hcut
    rw [← hdrop] at hdump
    rw [hstep, hrest]
    refine ⟨_, rfl, Dump.cons ?_ ?_ hdump⟩
    · intro hnil
      have hlen := congrArg List.length hnil
      rw [List.length_take, List.length_drop, List.length_nil] at hlen
      omega
    · rw [htake]

theorem columnTexts_length (bs : List Byte) :
    (bs.flatMap columnText).length = bs.length + bs.count percent := by
  induction bs with
  | nil => rfl
  | cons b bs ih =>
    rw [List.flatMap_cons, List.length_append, ih, List.length_cons, columnText_eq]
    by_cases hb : b = percent
    · rw [if_pos hb, hb, List.count_cons_self, List.length_cons, List.length_singleton]
      omega
    · rw [if_neg hb, List.count_cons_of_ne hb, List.length_singleton]
      omega

/-- A percent sign takes a second character. -/
theorem columnTexts_eq_iff (bs : List Byte) :
    bs.flatMap columnText = bs.map asciiChar ↔ percent ∉ bs := by
  constructor
  · intro heq hmem
    have hlen := congrArg List.length heq
    have hcount := List.count_pos_iff.mpr hmem
    rw [columnTexts_length, List.length_map] at hlen
    omega
  · intro hno
    have hsingle : ∀ b ∈ bs, columnText b = [asciiChar b] := by
      intro b hb
      have hne : b ≠ percent := fun h => hno (h ▸ hb)
      rw [columnText_eq, if_neg hne]
    induction bs with
    | nil => rfl
    | cons b bs ih =>
      have hrest := ih (fun h => hno (List.mem_cons_of_mem _ h))
        (fun c hc => hsingle c (List.mem_cons_of_mem _ hc))
      rw [List.flatMap_cons, List.map_cons, hsingle b List.mem_cons_self, hrest]
      rfl

/-- What the code shows is one character for a byte, if no byte is a percent sign. -/
theorem dump_faithful_iff {bytes : List Byte} {lines : List (List Byte)}
    (h : Dump (List.flatMap columnText) bytes lines) :
    FaithfulDump bytes lines ↔ percent ∉ bytes := by
  constructor
  · intro hf hmem
    obtain ⟨j, hj, hget⟩ := List.getElem_of_mem hmem
    have hk : j / 16 < lines.length := by
      rw [h.count]
      omega
    obtain ⟨bs, hbs, hline⟩ := h.line (j / 16) hk
    obtain ⟨_, rfl, hline'⟩ := hf.line (j / 16) hk
    rw [← hbs, hline, Option.some_inj, List.append_cancel_left_eq, List.cons_inj_right] at hline'
    apply (columnTexts_eq_iff bs).mp hline'
    rw [hbs, List.mem_take_iff_getElem]
    refine ⟨j % 16, by rw [List.length_drop]; omega, ?_⟩
    rw [List.getElem_drop, ← hget]
    congr 1
    omega
  · intro hno
    refine ⟨h.count, ?_⟩
    intro k hk
    obtain ⟨bs, hbs, hline⟩ := h.line k hk
    refine ⟨bs, hbs, ?_⟩
    have hrow : percent ∉ bs := by
      intro hmem
      rw [hbs] at hmem
      exact hno (List.mem_of_mem_drop (List.mem_of_mem_take hmem))
    rw [hline, (columnTexts_eq_iff bs).mpr hrow]

theorem printHex_dump {σ : Type} {emit : σ → List Byte → Option (σ × List Byte)} {ok : σ → Prop}
    {s : σ} (hemit : Shown emit ok) (b : HexBuffers) (hn : n ≤ buf.length) (hs : ok s) :
    ∃ lines, printHex emit b buf n s = some lines ∧
      Dump (List.flatMap columnText) (buf.take n) lines := by
  obtain ⟨lpd, hclear, hcleared⟩ := exists_cleared b.hex_length b.asc_length
  obtain ⟨lines, hrun, hdump⟩ := hexLines_dump hemit hn (Nat.zero_add n) hcleared hs
  refine ⟨lines, ?_, hdump⟩
  rw [printHex, hclear]
  exact hrun

/-- `globalStg` holds what has been formatted, of any length. -/
theorem outgs_shown (p : Platform) (heap : Heap) :
    Shown (outgs p heap) fun s => ∃ text, s.Holds text := by
  intro s hs text hno
  obtain ⟨_, hholds⟩ := hs
  obtain ⟨t, ht, hnew, -⟩ := GenStg.sprintf_holds p heap text hholds.toRoom
  refine ⟨t, ?_, text, hnew⟩
  have hstr := Block.hasText_of_take hnew.text hnew.nul hno
  rw [outgs, ht, Option.bind_eq_bind, Option.bind_some, hstr.cstr]
  rfl

theorem fgioPrintHex_dump (p : Platform) (heap : Heap) (calls : List GenStg.Call) (b : HexBuffers)
    (hn : n ≤ buf.length) :
    ∃ lines, fgioPrintHex p heap calls b buf n = some lines ∧
      Dump (List.flatMap columnText) (buf.take n) lines := by
  obtain ⟨s, hs, hholds⟩ := GenStg.new_holds p heap none
  obtain ⟨t, ht, hcalls, -⟩ := GenStg.calls_hold p heap calls hholds
  have hafter : GenStg.after p heap none calls = some t := by
    rw [GenStg.after, hs]
    exact ht
  rw [fgioPrintHex, hafter]
  exact printHex_dump (outgs_shown p heap) b hn ⟨_, hcalls⟩

theorem fgTelnetPrintHex_dump (b : HexBuffers) (hn : n ≤ buf.length) :
    ∃ lines, fgTelnetPrintHex b buf n = some lines ∧
      Dump (List.flatMap columnText) (buf.take n) lines := by
  have hshown : Shown (fun (s : Unit) text => some (s, text)) fun _ => True := by
    intro s _ text _
    exact ⟨s, rfl, trivial⟩
  exact printHex_dump hshown b hn trivial

/-- Neither program stores outside of its buffers, and the dump is a faithful one if no byte is a
percent sign. -/
theorem print_hex_faithful_iff (p : Platform) (heap : Heap) (calls : List GenStg.Call)
    (b : HexBuffers) (buf : List Byte) (n : ℕ) (hn : n ≤ buf.length) :
    (∃ lines, fgioPrintHex p heap calls b buf n = some lines ∧
      (FaithfulDump (buf.take n) lines ↔ percent ∉ buf.take n)) ∧
    ∃ lines, fgTelnetPrintHex b buf n = some lines ∧
      (FaithfulDump (buf.take n) lines ↔ percent ∉ buf.take n) := by
  obtain ⟨lines, hrun, hdump⟩ := fgioPrintHex_dump p heap calls b hn
  obtain ⟨lines', hrun', hdump'⟩ := fgTelnetPrintHex_dump b hn
  exact ⟨⟨lines, hrun, dump_faithful_iff hdump⟩, lines', hrun', dump_faithful_iff hdump'⟩

def HexBuffers.init : HexBuffers where
  hexBuffer := List.replicate 256 0
  ascBuffer := List.replicate 64 0
  hex_length := List.length_replicate
  asc_length := List.length_replicate

/-- Two bytes, of which the first is not printable. -/
theorem print_hex_faithful_iff_sample :
    (∃ lines, fgioPrintHex .unix (fun _ _ => 0) [] .init [0x0A#8, 0x41#8] 2 = some lines ∧
      FaithfulDump [0x0A#8, 0x41#8] lines) ∧
    ∃ lines, fgTelnetPrintHex .init [0x0A#8, 0x41#8] 2 = some lines ∧
      FaithfulDump [0x0A#8, 0x41#8] lines := by
  have hmem : percent ∉ [0x0A#8, 0x41#8] := by decide
  obtain ⟨⟨lines, hrun, hiff⟩, lines', hrun', hiff'⟩ :=
    print_hex_faithful_iff .unix (fun _ _ => 0) [] .init [0x0A#8, 0x41#8] 2 (by decide)
  exact ⟨⟨lines, hrun, hiff.mpr hmem⟩, lines', hrun', hiff'.mpr hmem⟩

/-- `"%"` is shown as two characters. -/
theorem print_hex_doubles :
    (∃ lines, fgioPrintHex .unix (fun _ _ => 0) [] .init [percent] 1 = some lines ∧
      ¬ FaithfulDump [percent] lines) ∧
    ∃ lines, fgTelnetPrintHex .init [percent] 1 = some lines ∧
      ¬ FaithfulDump [percent] lines := by
  have hmem : ¬ percent ∉ [percent] := by decide
  obtain ⟨lines, hrun, hdump⟩ := fgioPrintHex_dump .unix (fun _ _ => 0) [] .init
    (show 1 ≤ [percent].length by decide)
  obtain ⟨lines', hrun', hdump'⟩ := fgTelnetPrintHex_dump .init
    (show 1 ≤ [percent].length by decide)
  exact ⟨⟨lines, hrun, fun h => hmem ((dump_faithful_iff hdump).mp h)⟩,
    lines', hrun', fun h => hmem ((dump_faithful_iff hdump').mp h)⟩

end

end TcpTests.FgIo
