import TcpTests.Text.CleanData

/-! `clean_data` with its destination and the running offset into it, and the 7-bit text that
its masks are for. -/
namespace TcpTests.Text
open Lib

/-- The loop: what has been written to `dest`, and `off`. -/
def cleanLoop (dest : Mem) (off : ℕ) : List Byte → Mem × ℕ
  | [] => (dest, off)
  | b :: src =>
    let c : Word := b.signExtend 32
    let high := c &&& 0x80#32 ≠ 0#32
    let dest := if high then dest.write off [0x40#8] else dest
    let off := if high then off + 1 else off
    let c := if high then c &&& ~~~0x80#32 else c
    let ctrl := c.slt 0x20#32
    let dest := if ctrl then dest.write off [0x5E#8] else dest
    let off := if ctrl then off + 1 else off
    let c := if ctrl then c + 0x40#32 else c
    cleanLoop (dest.write off [c.setWidth 8]) (off + 1) src

def cleanDataTo (dest : Mem) (src : List Byte) : Mem :=
  let r := cleanLoop dest 0 src
  r.1.write r.2 [0]

/-- A byte below 0x80, as text: control characters with a caret. -/
def sevenBitRendering (b : Byte) : List Byte := if b < 0x20#8 then [0x5E#8, b + 0x40#8] else [b]

/-- A byte as text: an at sign for the high bit, and the rendering of the low seven. -/
def rendering (b : Byte) : List Byte :=
  if 0x80#8 ≤ b then 0x40#8 :: sevenBitRendering (b &&& 0x7F#8) else sevenBitRendering b

section
variable {dest : Mem} {off : ℕ} {src : List Byte}

theorem cleanLoop_cons (b : Byte) : cleanLoop dest off (b :: src) =
    cleanLoop (dest.write off (cleanByte b)) (off + (cleanByte b).length) src := by
  rw [cleanLoop]
  unfold cleanByte
  dsimp only
  by_cases hhigh : b.signExtend 32 &&& 0x80#32 ≠ 0#32
  · simp only [if_pos hhigh]
    split_ifs
    · rw [Mem.write_write _ _ _ (by rfl), Mem.write_write _ _ _ (by simp)]
      rfl
    · rw [Mem.write_write _ _ _ (by rfl)]
      rfl
  · simp only [if_neg hhigh]
    split_ifs
    · rw [Mem.write_write _ _ _ (by rfl)]
      rfl
    · rfl

theorem cleanLoop_eq : cleanLoop dest off src =
    (dest.write off (cleanData src), off + (cleanData src).length) := by
  induction src generalizing dest off with
  | nil => simp [cleanLoop]
  | cons b src ih =>
    have hcons : cleanData (b :: src) = cleanByte b ++ cleanData src := rfl
    rw [cleanLoop_cons, ih, Mem.write_write _ _ _ (by rfl), hcons, List.length_append, Nat.add_assoc]

theorem cleanDataTo_eq : cleanDataTo dest src = dest.write 0 (cleanData src ++ [0]) := by
  unfold cleanDataTo
  rw [cleanLoop_eq]
  exact Mem.write_write _ _ _ (by rfl)

theorem cleanByte_eq_rendering {b : Byte} (hb : b < 0xA0#8) : cleanByte b = rendering b := by
  revert b
  decide

/-- A byte from 0xA0 on takes one character more than its rendering. -/
theorem cleanByte_length_rendering {b : Byte} (hb : ¬ b < 0xA0#8) :
    (cleanByte b).length = (rendering b).length + 1 := by
  revert b
  decide

theorem cleanByte_ne_zero (b : Byte) : (cleanByte b).all (fun c => c ≠ 0) = true := by
  revert b
  decide

theorem rendering_sevenBit (b : Byte) :
    (rendering b).all (fun c => 0x20#8 ≤ c ∧ c ≤ 0x7F#8) = true := by
  revert b
  decide

theorem cleanData_eq_rendering (hsrc : ∀ b ∈ src, b < 0xA0#8) :
    cleanData src = src.flatMap rendering :=
  List.flatMap_congr fun b hb => cleanByte_eq_rendering (hsrc b hb)

theorem cleanData_length_rendering : (cleanData src).length =
    (src.flatMap rendering).length + src.countP fun b => ¬ b < 0xA0#8 := by
  induction src with
  | nil => rfl
  | cons b src ih =>
    have hcons : cleanData (b :: src) = cleanByte b ++ cleanData src := rfl
    rw [hcons, List.flatMap_cons, List.length_append, List.length_append, List.countP_cons, ih]
    by_cases hb : b < 0xA0#8
    · rw [cleanByte_eq_rendering hb]
      simp [hb]
      omega
    · rw [cleanByte_length_rendering hb]
      simp only [hb, not_false_iff, decide_true, if_true]
      omega

end

/-- The output is the text of the renderings, all of its characters printable, and a NUL exactly
if no byte is 0xA0 or more: of a greater one the sign bits of `c` stay, and it counts as a
control character. -/
theorem cleanDataTo_rendering_iff (dest : Mem) (src : List Byte) :
    (∃ text, (cleanDataTo dest src).read 0 (text.length + 1) = text ++ [0] ∧
      text = src.flatMap rendering ∧ ∀ c ∈ text, 0x20#8 ≤ c ∧ c ≤ 0x7F#8) ↔
      ∀ b ∈ src, b < 0xA0#8 := by
  constructor
  · rintro ⟨text, hread, htext, -⟩
    have hlen : (cleanData src).length ≤ text.length := by
      by_contra hlt
      have hi : text.length < (cleanData src).length := Nat.lt_of_not_le hlt
      have hzero : cleanDataTo dest src text.length = 0 := by
        have hget := Mem.read_getElem (cleanDataTo dest src) 0 (text.length + 1) text.length
          (by simp)
        simp only [hread, Nat.zero_add, List.getElem_concat_length] at hget
        exact hget.symm
      have hchar : cleanDataTo dest src text.length = (cleanData src)[text.length] := by
        rw [cleanDataTo_eq, Mem.write_mem _ _ (Nat.zero_le _) (by simp; omega)]
        exact List.getElem_append_left hi
      obtain ⟨b, -, hb⟩ := List.mem_flatMap.mp (List.getElem_mem hi)
      have hne := of_decide_eq_true (List.all_eq_true.mp (cleanByte_ne_zero b) _ hb)
      exact hne (hchar.symm.trans hzero)
    rw [cleanData_length_rendering, ← htext] at hlen
    have hcount : src.countP (fun b => ¬ b < 0xA0#8) = 0 := by omega
    intro b hb
    simpa using List.countP_eq_zero.mp hcount b hb
  · intro hsrc
    refine ⟨cleanData src, ?_, cleanData_eq_rendering hsrc, ?_⟩
    · rw [cleanDataTo_eq]
      exact Mem.read_write_of_length (by simp)
    · rw [cleanData_eq_rendering hsrc]
      intro c hc
      obtain ⟨b, -, hb⟩ := List.mem_flatMap.mp hc
      exact of_decide_eq_true (List.all_eq_true.mp (rendering_sevenBit b) c hb)

/-- `A` with the high bit is not rendered as `@A`. -/
theorem cleanDataTo_high : ¬ ∃ text,
    (cleanDataTo (fun _ => 0) [0xC1#8]).read 0 (text.length + 1) = text ++ [0] ∧
      text = [0xC1#8].flatMap rendering ∧ ∀ c ∈ text, 0x20#8 ≤ c ∧ c ≤ 0x7F#8 := by
  rintro ⟨text, hread, rfl, -⟩
  exact absurd hread (by decide)

end TcpTests.Text
