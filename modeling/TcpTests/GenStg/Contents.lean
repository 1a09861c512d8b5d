import TcpTests.GenStg.GenStg

/-! The buffer of a `GenStg` holds the text that has been formatted since the last clear, with its
NUL, and has the size that the object says. -/
namespace TcpTests.GenStg
open Lib

/-- The buffer holds a text, perhaps without its NUL, and has room for one. -/
structure Room (s : GenStg) (text : List Byte) : Prop where
  text : s.mBuf.take s.mStrlen = text
  lt : s.mStrlen < s.mSize
  block : s.mBuf.length = s.mSize
  increment : mIncrement ∣ s.mSize

structure Holds (s : GenStg) (text : List Byte) : Prop extends Room s text where
  nul : s.mBuf[s.mStrlen]? = some 0

variable {p : Platform} {heap : Heap} {s t : GenStg} {text more : List Byte}

theorem Room.length (h : s.Room text) : text.length = s.mStrlen := by
  rw [← h.text, List.length_take, h.block, Nat.min_eq_left h.lt.le]

theorem Room.fits (h : s.Room text) : s.mStrlen + (s.mSize - s.mStrlen) ≤ s.mBuf.length := by
  have hlt := h.lt
  rw [h.block]
  omega

theorem Room.printed (h : s.Room text) {mBuf : List Byte}
    (hp : Block.Printed s.mBuf s.mStrlen more mBuf) :
    Holds { s with mBuf := mBuf, mStrlen := s.mStrlen + more.length } (text ++ more) := by
  have hlt := hp.lt
  rw [h.block] at hlt
  constructor
  · exact ⟨by rw [hp.stored, h.text], hlt, hp.length.trans h.block, h.increment⟩
  · exact hp.nul

theorem Room.grow (heap : Heap) (h : s.Room text) {mBuf cut : List Byte} {mSize : ℕ}
    (hp : Block.Printed s.mBuf s.mStrlen cut mBuf) (hsize : s.mSize ≤ mSize)
    (hinc : mIncrement ∣ mSize) :
    Room { s with mBuf := Block.realloc heap mBuf mSize, mSize := mSize } text := by
  have hlt := h.lt
  refine ⟨?_, hlt.trans_le hsize, Block.realloc_length _ _ _, hinc⟩
  dsimp only
  rw [Block.realloc_take (by omega) (by rw [hp.length, h.block]; exact hlt.le), hp.take, h.text]

theorem lt_grown (n : ℕ) : n < (n + mIncrement) / mIncrement * mIncrement := by
  unfold mIncrement
  omega

/-- Each round of the loop that cuts the text adds an increment, so one comes that does not. -/
theorem mAppendfWindows_holds (heap : Heap) (more : List Byte) (h : s.Room text) :
    ∃ t, mAppendfWindows heap s more = some t ∧ t.Holds (text ++ more) ∧ s.mSize ≤ t.mSize := by
  induction hn : s.mStrlen + more.length + 1 - s.mSize using Nat.strong_induction_on generalizing s
    with
  | _ n ih =>
    have hlt := h.lt
    obtain ⟨mBuf, hcall, hp⟩ := exists_vsnprintfS more (Nat.sub_pos_of_lt hlt) h.fits
    rw [mAppendfWindows, hcall]
    dsimp only
    by_cases hfit : more.length < s.mSize - s.mStrlen
    · have hpos : ¬ (more.length : ℤ) < 0 := by omega
      rw [if_pos hfit, if_neg hpos, Int.toNat_natCast]
      rw [List.take_of_length_le (by omega)] at hp
      exact ⟨_, rfl, h.printed hp, le_rfl⟩
    · rw [if_neg hfit, if_pos (by decide)]
      have hgrow := h.grow heap hp (Nat.le_add_right _ mIncrement)
        (Nat.dvd_add h.increment (Nat.dvd_refl mIncrement))
      have hless : s.mStrlen + more.length + 1 - (s.mSize + mIncrement) < n := by
        unfold mIncrement
        omega
      obtain ⟨t, ht, hholds, hsize⟩ := ih _ hless hgrow rfl
      exact ⟨t, ht, hholds, (Nat.le_add_right _ _).trans hsize⟩

theorem mAppendfUnix_holds (heap : Heap) (more : List Byte) (h : s.Room text) :
    ∃ t, mAppendfUnix heap s more = some t ∧ t.Holds (text ++ more) ∧ s.mSize ≤ t.mSize := by
  have hlt := h.lt
  obtain ⟨mBuf, hcall, hp⟩ := exists_vsnprintf more (Nat.sub_pos_of_lt hlt) h.fits
  unfold mAppendfUnix
  rw [hcall]
  dsimp only [Option.bind_eq_bind, Option.bind_some]
  by_cases hlong : more.length + 1 > s.mSize - s.mStrlen
  · rw [if_pos hlong]
    have hgrown := lt_grown (s.mStrlen + more.length + 1)
    have hsize : s.mSize ≤
        (s.mStrlen + more.length + 1 + mIncrement) / mIncrement * mIncrement := by omega
    have hgrow := h.grow heap hp hsize (Nat.dvd_mul_left mIncrement _)
    obtain ⟨mBuf', hcall', hp'⟩ := exists_vsnprintf more (Nat.sub_pos_of_lt hgrow.lt) hgrow.fits
    rw [hcall', Option.bind_some]
    have hfit : more.length ≤ (s.mStrlen + more.length + 1 + mIncrement) / mIncrement * mIncrement
        - s.mStrlen - 1 := by omega
    rw [List.take_of_length_le hfit] at hp'
    exact ⟨_, rfl, hgrow.printed hp', hsize⟩
  · rw [if_neg hlong]
    rw [List.take_of_length_le (by omega)] at hp
    exact ⟨_, rfl, h.printed hp, le_rfl⟩

theorem Room.alloc (heap : Heap) : (GenStg.alloc heap).Room [] := by
  refine ⟨rfl, ?_, Block.malloc_length _ _, Nat.dvd_refl mIncrement⟩
  show 0 < mIncrement
  decide

theorem sclear_holds (h : s.Room text) :
    ∃ t, s.sclear = some t ∧ t.Holds [] ∧ t.mSize = s.mSize := by
  have hlt := h.lt
  obtain ⟨mBuf, hw, hp⟩ := Block.exists_printed s.mBuf 0 []
    (by rw [h.block, List.length_nil]; omega)
  refine ⟨_, Option.map_eq_some_iff.mpr ⟨mBuf, hw, rfl⟩, ⟨⟨rfl, ?_, ?_, h.increment⟩, hp.nul⟩, rfl⟩
  · dsimp only
    omega
  · exact hp.length.trans h.block

theorem mAppendf_holds (p : Platform) (heap : Heap) (more : List Byte) (h : s.Room text) :
    ∃ t, s.mAppendf p heap more = some t ∧ t.Holds (text ++ more) ∧ s.mSize ≤ t.mSize := by
  cases p with
  | windows => exact mAppendfWindows_holds heap more h
  | unix => exact mAppendfUnix_holds heap more h

theorem sprintf_holds (p : Platform) (heap : Heap) (more : List Byte) (h : s.Room text) :
    ∃ t, s.sprintf p heap more = some t ∧ t.Holds more ∧ s.mSize ≤ t.mSize := by
  obtain ⟨u, hu, hclear, hsize⟩ := sclear_holds h
  obtain ⟨t, ht, hholds, hle⟩ := mAppendf_holds p heap more hclear.toRoom
  refine ⟨t, ?_, hholds, hsize ▸ hle⟩
  rw [sprintf, hu]
  exact ht

theorem new_holds (p : Platform) (heap : Heap) (stg : Option (List Byte)) :
    ∃ s, new p heap stg = some s ∧ s.Holds (stg.getD []) := by
  cases stg with
  | none =>
    obtain ⟨s, hs, hholds, -⟩ := sclear_holds (Room.alloc heap)
    exact ⟨s, hs, hholds⟩
  | some stg =>
    obtain ⟨s, hs, hholds, -⟩ := sprintf_holds p heap stg (Room.alloc heap)
    exact ⟨s, hs, hholds⟩

theorem call_holds (p : Platform) (heap : Heap) (c : Call) (h : s.Holds text) :
    ∃ t, call p heap s c = some t ∧ t.Holds (c.text text) ∧ s.mSize ≤ t.mSize := by
  cases c with
  | sclear =>
    obtain ⟨t, ht, hholds, hsize⟩ := sclear_holds h.toRoom
    exact ⟨t, ht, hholds, hsize.ge⟩
  | sprintf more => exact sprintf_holds p heap more h.toRoom
  | appendf more => exact mAppendf_holds p heap more h.toRoom

theorem calls_hold (p : Platform) (heap : Heap) (calls : List Call) (h : s.Holds text) :
    ∃ t, runs (call p heap) s calls = some t ∧ t.Holds (calls.foldl Call.text text) ∧
      s.mSize ≤ t.mSize := by
  induction calls generalizing s text with
  | nil => exact ⟨s, rfl, h, le_rfl⟩
  | cons c calls ih =>
    obtain ⟨u, hu, hholds, hsize⟩ := call_holds p heap c h
    obtain ⟨t, ht, hholds', hsize'⟩ := ih hholds
    exact ⟨t, runs_cons.mpr ⟨u, hu, ht⟩, hholds', hsize.trans hsize'⟩

theorem after_holds (p : Platform) (heap : Heap) (stg : Option (List Byte)) (calls : List Call) :
    ∃ s, after p heap stg calls = some s ∧ s.Holds (contents stg calls) := by
  obtain ⟨s, hs, hholds⟩ := new_holds p heap stg
  obtain ⟨t, ht, hholds', -⟩ := calls_hold p heap calls hholds
  refine ⟨t, ?_, hholds'⟩
  rw [after, hs]
  exact ht

/-- After any calls the buffer holds what has been formatted since the last clear, with a NUL
behind it, and is as long as `m_size` says, a multiple of the increment that never becomes less.
The text is the same in both variants, whatever the heap holds. -/
theorem after_contents (stg : Option (List Byte)) (calls : List Call) :
    (∀ p heap, ∃ s, after p heap stg calls = some s ∧
      s.mBuf.take s.mStrlen = contents stg calls ∧ s.mStrlen = (contents stg calls).length ∧
      s.mBuf[s.mStrlen]? = some 0 ∧ s.mStrlen < s.mSize ∧ 0 < s.mSize ∧ mIncrement ∣ s.mSize ∧
      s.mBuf.length = s.mSize ∧
      ∀ later, ∃ t, after p heap stg (calls ++ later) = some t ∧ s.mSize ≤ t.mSize) ∧
    ∀ heap heap', (after .windows heap stg calls).map (fun s => s.mBuf.take s.mStrlen) =
      (after .unix heap' stg calls).map fun s => s.mBuf.take s.mStrlen := by
  constructor
  · intro p heap
    obtain ⟨s, hs, hholds⟩ := after_holds p heap stg calls
    refine ⟨s, hs, hholds.text, hholds.length.symm, hholds.nul, hholds.lt,
      Nat.zero_lt_of_lt hholds.lt, hholds.increment, hholds.block, ?_⟩
    intro later
    obtain ⟨t, ht, -, hsize⟩ := calls_hold p heap later hholds
    refine ⟨t, ?_, hsize⟩
    obtain ⟨s₀, hs₀, hrun⟩ := Option.bind_eq_some_iff.mp hs
    exact Option.bind_eq_some_iff.mpr ⟨s₀, hs₀, runs_append.mpr ⟨s, hrun, ht⟩⟩
  · intro heap heap'
    obtain ⟨s, hs, hholds⟩ := after_holds .windows heap stg calls
    obtain ⟨t, ht, hholds'⟩ := after_holds .unix heap' stg calls
    rw [hs, ht, Option.map_some, Option.map_some, hholds.text, hholds'.text]

/-- The text fills the block up to the NUL, and one character more takes a second increment. -/
example : (after .unix (fun _ _ => 1) none [.appendf (List.replicate 63 97), .appendf [98]]).map
    (fun s => (s.mSize, s.mStrlen)) = some (128, 64) := by
  decide +kernel

end TcpTests.GenStg
