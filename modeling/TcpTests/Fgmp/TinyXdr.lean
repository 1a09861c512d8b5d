import TcpTests.Lib.Bits

/-! The templates of `tiny_xdr.hxx`, for types of any size. A word is the list of its bytes as they
lie in memory. The functions of `simgear` that swap words are given. -/
namespace TcpTests.Fgmp
open Lib

/-- `sgIsLittleEndian`, `sg_bswap_16`, `sg_bswap_32` and `sg_bswap_64` -/
structure SimGear where
  sgIsLittleEndian : Bool
  sgBswap16 : List Byte → List Byte
  sgBswap32 : List Byte → List Byte
  sgBswap64 : List Byte → List Byte

/-- What their documentation says for a machine of this byte order: the test knows the order, and
each of the others reverses the bytes of a word of its size. -/
structure SimGear.Documented (g : SimGear) (h : Endian) : Prop where
  order : g.sgIsLittleEndian = true ↔ h = .little
  bswap16 : ∀ word, word.length = 2 → g.sgBswap16 word = word.reverse
  bswap32 : ∀ word, word.length = 4 → g.sgBswap32 word = word.reverse
  bswap64 : ∀ word, word.length = 8 → g.sgBswap64 word = word.reverse

/-- `SWAP16`, `SWAP32` and `SWAP64` -/
def SimGear.swap16 (g : SimGear) (arg : List Byte) : List Byte :=
  if g.sgIsLittleEndian then g.sgBswap16 arg else arg

def SimGear.swap32 (g : SimGear) (arg : List Byte) : List Byte :=
  if g.sgIsLittleEndian then g.sgBswap32 arg else arg

def SimGear.swap64 (g : SimGear) (arg : List Byte) : List Byte :=
  if g.sgIsLittleEndian then g.sgBswap64 arg else arg

/-- The pairs of `XDR_encode`, `XDR_encode64`, `NET_encode8` and so on with what decodes. -/
inductive Template
  | xdr
  | xdr64
  | net8
  | net16
  | net32
  | net64
  deriving DecidableEq, Repr

def Template.width : Template → ℕ
  | .xdr => 4
  | .xdr64 => 8
  | .net8 => 1
  | .net16 => 2
  | .net32 => 4
  | .net64 => 8

/-- A word of eight bits is not swapped. -/
def Template.swap (t : Template) (g : SimGear) (word : List Byte) : List Byte :=
  match t with
  | .net8 => word
  | .net16 => g.swap16 word
  | .xdr | .net32 => g.swap32 word
  | .xdr64 | .net64 => g.swap64 word

/-- The bytes of a value of `n` bytes in the memory of a machine. -/
def valueBytes {w : ℕ} (h : Endian) (n : ℕ) (x : BitVec w) : List Byte :=
  match h with
  | .little => bytesOf n x
  | .big => (bytesOf n x).reverse

/-- The union is written as the value and read as the word. `tmp` is what it held before. -/
def Template.encode {w : ℕ} (t : Template) (g : SimGear) (h : Endian) (n : ℕ) (x : BitVec w)
    (tmp : Mem) : List Byte :=
  t.swap g ((tmp.write 0 (valueBytes h n x)).read 0 t.width)

/-- The union is written as the word and read as the value. -/
def Template.decode (t : Template) (g : SimGear) (n : ℕ) (word : List Byte) (tmp : Mem) :
    List Byte :=
  (tmp.write 0 (t.swap g word)).read 0 n

def networkOrder (h : Endian) (word : List Byte) : List Byte :=
  match h with
  | .little => word.reverse
  | .big => word

section
variable {w n : ℕ} {t : Template} {g g' : SimGear} {h h' : Endian} {word : List Byte}

@[simp] theorem bytesOf_length (n : ℕ) (x : BitVec w) : (bytesOf n x).length = n := by
  simp [bytesOf]

@[simp] theorem valueBytes_length (h : Endian) (n : ℕ) (x : BitVec w) :
    (valueBytes h n x).length = n := by
  cases h <;> simp [valueBytes]

/-- One test and one function that reverses make network order. -/
theorem swap_eq_networkOrder (hg : g.Documented h) (hlen : word.length = t.width) :
    t.swap g word = networkOrder h word := by
  have hbranch : ∀ swapped : List Byte, swapped = word.reverse →
      (if g.sgIsLittleEndian then swapped else word) = networkOrder h word := by
    rintro swapped rfl
    cases h with
    | little => exact if_pos (hg.order.mpr rfl)
    | big => exact if_neg fun hlittle => nomatch hg.order.mp hlittle
  cases t with
  | net8 =>
    obtain ⟨b, rfl⟩ := List.length_eq_one_iff.mp hlen
    cases h <;> rfl
  | net16 => exact hbranch _ (hg.bswap16 word hlen)
  | xdr | net32 => exact hbranch _ (hg.bswap32 word hlen)
  | xdr64 | net64 => exact hbranch _ (hg.bswap64 word hlen)

theorem networkOrder_length (h : Endian) (word : List Byte) :
    (networkOrder h word).length = word.length := by
  cases h with
  | little => exact List.length_reverse
  | big => rfl

theorem write_read (tmp : Mem) {bs : List Byte} (hle : bs.length ≤ n) :
    (tmp.write 0 bs).read 0 n = bs ++ tmp.read bs.length (n - bs.length) := by
  obtain ⟨k, rfl⟩ := Nat.exists_eq_add_of_le hle
  rw [Mem.read_add, Mem.read_write_self, Nat.zero_add, Nat.add_sub_cancel_left,
    Mem.read_write_disjoint]
  exact Or.inr (by omega)

/-- What a value leaves of the word is what the union held before. -/
theorem encode_eq (hg : g.Documented h) (hle : n ≤ t.width) (x : BitVec w) (tmp : Mem) :
    t.encode g h n x tmp = networkOrder h (valueBytes h n x ++ tmp.read n (t.width - n)) := by
  have hlen := valueBytes_length h n x
  rw [Template.encode, swap_eq_networkOrder hg (Mem.read_length _ _ _),
    write_read tmp (by rwa [hlen]), hlen]

theorem decode_eq (hg : g.Documented h) (hle : n ≤ t.width) (hlen : word.length = t.width)
    (tmp : Mem) : t.decode g n word tmp = (networkOrder h word).take n := by
  have hswap : (networkOrder h word).length = t.width := by rw [networkOrder_length, hlen]
  rw [Template.decode, swap_eq_networkOrder hg hlen, ← Mem.read_take _ _ _ n (hswap ▸ hle),
    Mem.read_write_self]

theorem encode_length (hg : g.Documented h) (x : BitVec w) (tmp : Mem) :
    (t.encode g h n x tmp).length = t.width := by
  rw [Template.encode, swap_eq_networkOrder hg (Mem.read_length _ _ _), networkOrder_length,
    Mem.read_length]

/-- A word that was swapped on both sides or on none is itself, and else it is reversed. -/
theorem networkOrder_networkOrder (h h' : Endian) (word : List Byte) :
    networkOrder h' (networkOrder h word) = if h = h' then word else word.reverse := by
  cases h <;> cases h' <;> simp [networkOrder]

theorem networkOrder_valueBytes (h : Endian) (n : ℕ) (x : BitVec w) :
    networkOrder h (valueBytes h n x) = (bytesOf n x).reverse := by
  cases h <;> rfl

theorem mem_valueBytes_zero {b : Byte} (hb : b ∈ valueBytes h n (0 : BitVec w)) : b = 0 := by
  have hbytes : b ∈ bytesOf n (0 : BitVec w) := by
    cases h with
    | little => exact hb
    | big => exact List.mem_reverse.mp hb
  obtain ⟨i, -, rfl⟩ := List.mem_map.mp hbytes
  exact BitVec.extractLsb'_zero

theorem decode_encode_same (hg : g.Documented h) (hg' : g'.Documented h) (hle : n ≤ t.width)
    (x : BitVec w) (tmp tmp' : Mem) :
    t.decode g' n (t.encode g h n x tmp) tmp' = valueBytes h n x := by
  rw [decode_eq hg' hle (encode_length hg x tmp), encode_eq hg hle, networkOrder_networkOrder,
    if_pos rfl, List.take_left' (valueBytes_length h n x)]

theorem encode_full (hg : g.Documented h) (hn : n = t.width) (x : BitVec w) (tmp : Mem) :
    t.encode g h n x tmp = (bytesOf n x).reverse := by
  rw [encode_eq hg hn.le, hn, Nat.sub_self, Mem.read_zero, List.append_nil,
    networkOrder_valueBytes]

theorem decode_encode_full (hg : g.Documented h) (hg' : g'.Documented h') (hn : n = t.width)
    (x : BitVec w) (tmp tmp' : Mem) :
    t.decode g' n (t.encode g h n x tmp) tmp' = valueBytes h' n x := by
  rw [encode_full hg hn, ← networkOrder_valueBytes h' n x,
    decode_eq hg' hn.le (by rw [networkOrder_length, valueBytes_length, hn]),
    networkOrder_networkOrder, if_pos rfl, List.take_of_length_le (by rw [valueBytes_length])]

/-- Between two machines every value comes through just when they have the same byte order or the
type fills the word; then the bytes on the way are the same for both. A smaller type meets what the
union held before. -/
theorem templates_round_trip_iff (t : Template) (n : ℕ) (hn : 0 < n) (hle : n ≤ t.width)
    (g g' : SimGear) (h h' : Endian) (hg : g.Documented h) (hg' : g'.Documented h') :
    ((∀ (x : BitVec (8 * n)) (tmp tmp' : Mem),
        t.decode g' n (t.encode g h n x tmp) tmp' = valueBytes h' n x) ↔ h = h' ∨ n = t.width) ∧
      (n = t.width → ∀ (x : BitVec (8 * n)) (tmp : Mem),
        t.encode g h n x tmp = (bytesOf n x).reverse) := by
  refine ⟨⟨?_, ?_⟩, fun hfull x tmp => encode_full hg hfull x tmp⟩
  · intro hall
    by_contra hnot
    obtain ⟨hne, hpart⟩ := not_or.mp hnot
    obtain ⟨k, hk⟩ : ∃ k, t.width - n = k + 1 := ⟨t.width - n - 1, by omega⟩
    have hzero := hall 0 (fun _ => 0xFF#8) (fun _ => 0)
    rw [decode_eq hg' hle (encode_length hg _ _), encode_eq hg hle, networkOrder_networkOrder,
      if_neg hne, List.reverse_append, hk] at hzero
    have hones : (Mem.read (fun _ => 0xFF#8) n (k + 1)).reverse =
        0xFF#8 :: List.replicate k 0xFF#8 := by
      rw [Mem.read, List.map_const', List.length_range, List.reverse_replicate,
        List.replicate_succ]
    obtain ⟨m, rfl⟩ : ∃ m, n = m + 1 := ⟨n - 1, by omega⟩
    rw [hones, List.cons_append, List.take_succ_cons] at hzero
    have hmem : (0xFF#8 : Byte) ∈ valueBytes h' (m + 1) (0 : BitVec (8 * (m + 1))) := by
      rw [← hzero]
      exact List.mem_cons_self
    exact absurd (mem_valueBytes_zero hmem) (by decide)
  · rintro (rfl | hfull) x tmp tmp'
    · exact decode_encode_same hg hg' hle x tmp tmp'
    · exact decode_encode_full hg hg' hfull x tmp tmp'

def SimGear.reversing (h : Endian) : SimGear :=
  ⟨decide (h = .little), List.reverse, List.reverse, List.reverse⟩

theorem SimGear.reversing_documented (h : Endian) : (SimGear.reversing h).Documented h :=
  ⟨decide_eq_true_iff, fun _ _ => rfl, fun _ _ => rfl, fun _ _ => rfl⟩

/-- A `short` through `XDR_encode` on a little-endian machine and `XDR_decode` on another. -/
theorem templates_round_trip_iff_short : ¬ ∀ (x : BitVec 16) (tmp tmp' : Mem),
    Template.xdr.decode (.reversing .big) 2
      (Template.xdr.encode (.reversing .little) .little 2 x tmp) tmp' = valueBytes .big 2 x := by
  rw [(templates_round_trip_iff .xdr 2 (by decide) (by decide) _ _ .little .big
    (SimGear.reversing_documented .little) (SimGear.reversing_documented .big)).1]
  decide

end

end TcpTests.Fgmp
