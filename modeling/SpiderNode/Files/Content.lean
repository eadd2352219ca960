import SpiderNode.Files.Position

/-!
# Files that are read and written

A file as the kernel keeps it behind a descriptor: its bytes, and where the next transfer without a
position begins. How many bytes a transfer takes is left to the kernel.
-/

namespace SpiderNode.Files

/-- Bytes are written into a file at a position, behind a hole if it is beyond the end. -/
def overwrite (content : Bytes) (p : ℕ) (b : Bytes) : Bytes :=
  content.take p ++ List.replicate (p - content.length) 0 ++ b ++ content.drop (p + b.length)

/-- What is written behind the last byte is appended. -/
@[simp] theorem overwrite_length (content b : Bytes) :
    overwrite content content.length b = content ++ b := by
  rw [overwrite, List.take_length, Nat.sub_self, List.replicate_zero, List.append_nil,
    List.drop_of_length_le (Nat.le_add_right _ _), List.append_nil]

/-- An open file. -/
structure OpenFile where
  content : Bytes
  offset : ℕ
  deriving DecidableEq, Repr

namespace OpenFile

variable (f : OpenFile)

/-- Where a transfer begins. -/
def source : Place → ℕ
  | .current => f.offset
  | .at p => p.toNat

/-- The position moves, unless the transfer had one of its own. -/
def move (p : Place) (n : ℕ) : ℕ := if p = .current then f.offset + n else f.offset

/-- The bytes that a read of at most `n` can get. -/
def available (p : Place) (n : ℕ) : ℕ := min n (f.content.length - f.source p)

/-- The kernel reads `n` bytes. -/
def read (p : Place) (n : ℕ) : Bytes × OpenFile :=
  ((f.content.drop (f.source p)).take n, { f with offset := f.move p n })

/-- The kernel writes these bytes. -/
def write (p : Place) (b : Bytes) : OpenFile :=
  ⟨overwrite f.content (f.source p) b, f.move p b.length⟩

/-- `O_TRUNC` -/
def truncated : OpenFile := ⟨[], 0⟩

/-- A file of which the position is at its end grows. -/
theorem write_current (content b : Bytes) :
    write ⟨content, content.length⟩ .current b = ⟨content ++ b, (content ++ b).length⟩ := by
  rw [write, source, overwrite_length, move, if_pos rfl, List.length_append]

end OpenFile

end SpiderNode.Files
