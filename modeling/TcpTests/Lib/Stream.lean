import TcpTests.Lib.Memory

/-! Binary file streams: contents, a read position, short reads at the end. -/
namespace Lib

structure Stream where
  content : List Byte
  pos : ℕ

namespace Stream

def opened (content : List Byte) : Stream := ⟨content, 0⟩

def rest (f : Stream) : List Byte := f.content.drop f.pos

/-- Read up to `n` bytes: what is left of the file may be shorter. -/
def fread (f : Stream) (n : ℕ) : List Byte × Stream :=
  (f.rest.take n, { f with pos := f.pos + (f.rest.take n).length })

def rewind (f : Stream) : Stream := { f with pos := 0 }

def At (f : Stream) (bs : List Byte) : Prop := f.rest = bs

@[simp] theorem fread_content (f : Stream) (n : ℕ) : (f.fread n).2.content = f.content := rfl

@[simp] theorem opened_content (c : List Byte) : (opened c).content = c := rfl

@[simp] theorem rewind_content (f : Stream) : f.rewind.content = f.content := rfl

theorem at_opened (c : List Byte) : (opened c).At c := rfl

theorem at_rewind (f : Stream) : f.rewind.At f.content := rfl

theorem At.fread {f : Stream} {bs rest : List Byte} {n : ℕ} (h : f.At (bs ++ rest))
    (hn : bs.length = n) : (f.fread n).1 = bs ∧ (f.fread n).2.At rest := by
  have hr : f.rest = bs ++ rest := h
  have ht : f.rest.take n = bs := by rw [hr, ← hn, List.take_left]
  refine ⟨ht, ?_⟩
  have hd : f.content.drop (f.pos + n) = rest := by
    rw [← List.drop_drop]
    change f.rest.drop n = rest
    rw [hr, ← hn, List.drop_left]
  change f.content.drop (f.pos + (f.rest.take n).length) = rest
  rw [ht, hn, hd]

theorem fread_length (f : Stream) (n : ℕ) : (f.fread n).1.length = min n f.rest.length :=
  List.length_take

theorem fread_rest (f : Stream) (n : ℕ) : (f.fread n).2.rest = f.rest.drop n := by
  change f.content.drop (f.pos + (f.rest.take n).length) = _
  rw [← List.drop_drop, List.length_take]
  change f.rest.drop (min n f.rest.length) = _
  rcases Nat.le_total n f.rest.length with hn | hn
  · rw [Nat.min_eq_left hn]
  · rw [Nat.min_eq_right hn, List.drop_length, List.drop_eq_nil_of_le hn]

end Stream
end Lib
