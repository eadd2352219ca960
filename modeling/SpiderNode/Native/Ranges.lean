import SpiderNode.Net.Socket
import Mathlib.Algebra.Group.Int.Defs
import Mathlib.Algebra.Group.Nat.Defs

/-!
# Ranges of buffers in native code

Seven native functions are passed a buffer with an offset and a length: `Read`, `RecvFrom`,
`RecvMsg` and `Write` of `src/node_net.cc`, `Parser::Execute` of `src/node_http_parser.cc`, and
`Read` and `Write` of `src/node_file.cc`. Each makes two checks before it passes the range on. The
arguments are 32-bit numbers with a sign that are taken for a `size_t`, so that a negative one is
very large, and the sum of the two wraps around.

A negative length thus takes the sum back to where it was. `sound_iff` says exactly which ranges
are still kept in bounds.
-/

namespace SpiderNode.Native

open Net (JsError)

/-- `size_t n = …->Int32Value()` -/
def sizeT (n : Int32) : UInt64 := n.toInt64.toUInt64

/-- The two checks, and the range that passes them. -/
def checkRange (bufferLength off len : UInt64) : Except JsError (UInt64 × UInt64) :=
  if bufferLength ≤ off then .error (.error "Offset is out of bounds")
  else if bufferLength < off + len then .error (.error "Length is extends beyond buffer")
  else .ok (off, len)

/-- The functions with a range. -/
inductive RangeFunction where
  | netRead
  | netRecvFrom
  | netRecvMsg
  | netWrite
  | httpExecute
  | fsRead
  | fsWrite
  deriving DecidableEq, Repr

namespace RangeFunction

variable (bufferLength : UInt64) (off len : Int32)

/-- The functions of `src/node_net.cc`, and `Parser::Execute`. -/
def checkSizes : Except JsError (UInt64 × UInt64) := checkRange bufferLength (sizeT off) (sizeT len)

/-- `Read` of `src/node_file.cc`, which declares `len` before it is set. -/
def checkFileRead : Except JsError (UInt64 × UInt64) :=
  checkRange bufferLength (sizeT off) (sizeT len)

/-- `Write` of `src/node_file.cc`. Its `len` is an `ssize_t`, which the sum with `off` makes
unsigned. -/
def checkFileWrite : Except JsError (UInt64 × UInt64) :=
  let len : Int64 := len.toInt64
  checkRange bufferLength (sizeT off) len.toUInt64

/-- The range that the function passes on. -/
def check : RangeFunction → Except JsError (UInt64 × UInt64)
  | netRead | netRecvFrom | netRecvMsg | netWrite | httpExecute => checkSizes bufferLength off len
  | fsRead => checkFileRead bufferLength off len
  | fsWrite => checkFileWrite bufferLength off len

end RangeFunction

/-- If the checks pass, the range is in the buffer. -/
def Sound (f : RangeFunction) (bufferLength : UInt64) (off len : Int32) : Prop :=
  ∀ range, f.check bufferLength off len = .ok range →
    0 ≤ off.toInt ∧ 0 ≤ len.toInt ∧ off.toInt + len.toInt ≤ bufferLength.toNat

/-- The ranges that are in the buffer if they pass. The length may be negative only behind the end
of the buffer, or if the sum is negative and larger than the buffer as a `size_t`. The offset may be
negative unless the buffer is larger than it is as a `size_t`. -/
def InBounds (bufferLength : ℕ) (off len : ℤ) : Prop :=
  if 0 ≤ off then
    0 ≤ len ∨ bufferLength ≤ off ∨ off + len < 0 ∧ bufferLength < 2 ^ 64 + off + len
  else
    bufferLength ≤ 2 ^ 64 + off ∨
      0 ≤ len ∧ off + len < 0 ∧ bufferLength < 2 ^ 64 + off + len

instance (bufferLength : ℕ) (off len : ℤ) : Decidable (InBounds bufferLength off len) :=
  inferInstanceAs (Decidable (if 0 ≤ off then _ else _))

/-! ## Sizes -/

/-- A number with a sign, as a `size_t`. -/
theorem toNat_sizeT (n : Int32) :
    ((sizeT n).toNat : ℤ) = if 0 ≤ n.toInt then n.toInt else 2 ^ 64 + n.toInt := by
  have hcond := n.toInt64.toBitVec.toInt_eq_toNat_cond
  have hint : n.toInt64.toBitVec.toInt = n.toInt := n.toInt_toInt64
  have hlt : (sizeT n).toNat < 2 ^ 64 := (sizeT n).toNat_lt
  rw [hint] at hcond
  change n.toInt = if 2 * (sizeT n).toNat < 2 ^ 64 then ((sizeT n).toNat : ℤ)
    else (sizeT n).toNat - (2 ^ 64 : ℕ) at hcond
  split_ifs at hcond with htop
  · rw [if_pos (by omega), hcond]
  · rw [if_neg (by omega), hcond]
    omega

theorem check_eq (f : RangeFunction) (bufferLength : UInt64) (off len : Int32) :
    f.check bufferLength off len = checkRange bufferLength (sizeT off) (sizeT len) := by
  cases f with
  | netRead | netRecvFrom | netRecvMsg | netWrite | httpExecute | fsRead | fsWrite => rfl

theorem checkRange_eq_ok_iff {bufferLength off len : UInt64} {range : UInt64 × UInt64} :
    checkRange bufferLength off len = .ok range ↔
      off < bufferLength ∧ off + len ≤ bufferLength ∧ (off, len) = range := by
  rw [checkRange]
  split_ifs with hoff hlen
  · refine iff_of_false (fun h ↦ by cases h) fun h ↦ ?_
    exact absurd h.1 (UInt64.not_lt.mpr hoff)
  · refine iff_of_false (fun h ↦ by cases h) fun h ↦ ?_
    exact absurd h.2.1 (UInt64.not_le.mpr hlen)
  · rw [Except.ok.injEq]
    exact ⟨fun h ↦ ⟨UInt64.not_le.mp hoff, UInt64.not_lt.mp hlen, h⟩, fun h ↦ h.2.2⟩

/-- When the checks pass, in numbers. -/
theorem exists_check_iff {f : RangeFunction} {bufferLength : UInt64} {off len : Int32} :
    (∃ range, f.check bufferLength off len = .ok range) ↔
      (sizeT off).toNat < bufferLength.toNat ∧
        ((sizeT off).toNat + (sizeT len).toNat) % 2 ^ 64 ≤ bufferLength.toNat := by
  rw [← UInt64.toNat_add, ← UInt64.lt_iff_toNat_lt, ← UInt64.le_iff_toNat_le]
  constructor
  · rintro ⟨range, hrange⟩
    rw [check_eq, checkRange_eq_ok_iff] at hrange
    exact ⟨hrange.1, hrange.2.1⟩
  · rintro ⟨hoff, hlen⟩
    exact ⟨_, by rw [check_eq, checkRange_eq_ok_iff]; exact ⟨hoff, hlen, rfl⟩⟩

/-! ## Soundness -/

/-- The checks of a function keep a range in the buffer exactly if its numbers are in bounds. -/
theorem sound_iff (f : RangeFunction) (bufferLength : UInt64) (off len : Int32) :
    Sound f bufferLength off len ↔ InBounds bufferLength.toNat off.toInt len.toInt := by
  have hpass : Sound f bufferLength off len ↔
      ((sizeT off).toNat < bufferLength.toNat ∧
        ((sizeT off).toNat + (sizeT len).toNat) % 2 ^ 64 ≤ bufferLength.toNat →
      0 ≤ off.toInt ∧ 0 ≤ len.toInt ∧ off.toInt + len.toInt ≤ bufferLength.toNat) := by
    rw [← exists_check_iff (f := f), Sound, forall_exists_index]
  have hoff := toNat_sizeT off
  have hlen := toNat_sizeT len
  have hoff' := off.toInt_lt
  have hoff'' := off.le_toInt
  have hlen' := len.toInt_lt
  have hlen'' := len.le_toInt
  have hbuffer : bufferLength.toNat < 2 ^ 64 := bufferLength.toNat_lt
  rw [hpass, InBounds]
  -- what is left is arithmetic on the four cases of signs
  split_ifs at hoff with hpos
  · rw [if_pos hpos]
    split_ifs at hlen with hpos'
    · omega
    · omega
  · rw [if_neg hpos]
    split_ifs at hlen with hpos'
    · omega
    · omega

/-- A length that takes back a part of the offset passes all the checks. -/
theorem negative_length_passes : ¬∃ f : RangeFunction, Sound f 4 1 (-1) := by
  rintro ⟨f, h⟩
  have hcheck : f.check 4 1 (-1) = .ok (sizeT 1, sizeT (-1)) := by
    rw [check_eq, checkRange_eq_ok_iff]
    exact ⟨by decide, by decide, rfl⟩
  have hneg := (h _ hcheck).2.1
  exact absurd hneg (by decide)

end SpiderNode.Native
