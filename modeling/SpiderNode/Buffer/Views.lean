import SpiderNode.Buffer.Encoders
import SpiderNode.Text.Inflate
import Mathlib.Algebra.Group.Int.Defs
import Mathlib.Algebra.Group.Nat.Defs

/-!
# Buffers over typed arrays, and their slices

Where the engine has `ArrayBuffer`, `lib/buffer.js` exports `createTypedArray` for `Buffer`. Such a
buffer is a proxy of a `Uint8Array`; it answers `rawArray` with that array, and keeps `offset` and
`length` beside it. A slice is a proxy of a *sub*array, so its bytes already begin where the slice
begins. Its `offset` is nevertheless the distance to the buffer that was sliced first.

`toString`, `write` and `copy` were written for buffers that share one parent: they add `offset`
and leave the rest to natives that index from the start of `rawArray`. On a slice that does not
begin at zero the offset is then counted twice. `hexSlice` and `copy` also read an end of zero as
an end that is not given.

`coherent_iff` says of each operation of each slice whether it works on the bytes that indexed
access shows.
-/

namespace SpiderNode.Buffer

open Net (JsError)

/-! ## Memory -/

/-- The bytes of every `ArrayBuffer`. -/
abbrev Memory := ℕ → ℕ → UInt8

namespace Memory

/-- `n` bytes from index `i` on. -/
def read (m : Memory) (buffer i n : ℕ) : Bytes := (List.range n).map fun k ↦ m buffer (i + k)

/-- The memory with `b` stored from index `i` on. -/
def store (m : Memory) (buffer i : ℕ) (b : Bytes) : Memory := fun buffer' j ↦
  if buffer' = buffer ∧ i ≤ j then b[j - i]?.getD (m buffer' j) else m buffer' j

/-- `memmove` -/
def move (m : Memory) (source i target j n : ℕ) : Memory := fun buffer k ↦
  if buffer = target ∧ j ≤ k ∧ k < j + n then m source (i + (k - j)) else m buffer k

end Memory

/-! ## The natives

They find their memory through `rawArray`: `rawLength` bytes from `start` on. -/

/-- A `Buffer`: its `rawArray`, and the properties that the proxy keeps beside it. -/
structure View where
  /-- The `ArrayBuffer` below the array. -/
  buffer : ℕ
  /-- Where the array begins in it. -/
  start : ℕ
  /-- The length of the array. -/
  rawLength : ℕ
  length : ℕ
  offset : ℕ
  deriving DecidableEq, Repr

/-- The encodings of `toString` that are looked at here. -/
inductive SliceEncoding where
  | utf8
  | ascii
  | binary
  | hex
  deriving DecidableEq, Repr

/-- A hexadecimal digit. -/
def hexUnit (d : ℕ) : UInt16 := .ofNat (if d < 10 then 0x30 + d else 0x57 + d)

def toHex (b : UInt8) : JSString := [hexUnit (b.toNat / 16), hexUnit (b.toNat % 16)]

/-- The text of bytes in an encoding. `asciiSlice` inflates them like `utf8Slice`. Which of three
errors the engine reports for bytes that are not UTF-8 is not told apart. -/
def decode (encoding : SliceEncoding) (b : Bytes) : Except JsError JSString :=
  match encoding with
  | .utf8 | .ascii =>
    match utf8Decode b with
    | some s => .ok s
    | none => .error .typeError
  | .binary => .ok (b.map fun x ↦ .ofNat x.toNat)
  | .hex => .ok (b.flatMap toHex)

/-- `Int32Value` -/
def toInt32 (n : ℕ) : ℤ :=
  if n % 2 ^ 32 < 2 ^ 31 then (n % 2 ^ 32 : ℕ) else (n % 2 ^ 32 : ℕ) - 2 ^ 32

namespace View

/-- Indexed access: `v[i]`. -/
def get (v : View) (m : Memory) (i : ℕ) : UInt8 := m v.buffer (v.start + i)

/-- `Utf8Slice`, `AsciiSlice` and `BinarySlice` behind `SLICE_ARGS`. -/
def nativeSlice (v : View) (m : Memory) (encoding : SliceEncoding) (start stop : ℕ) :
    Except JsError JSString :=
  if 2 ^ 31 ≤ start ∨ 2 ^ 31 ≤ stop then .error .typeError
  else if ¬start ≤ stop then .error (.error "Must have start <= end")
  else if v.rawLength < stop then .error (.error "end cannot be longer than parent.length")
  else decode encoding (m.read v.buffer (v.start + start) (stop - start))

/-- `SlowBuffer.prototype.hexSlice`, called on the parent proxy: its `length` is that of the view,
and it reads the array. -/
def hexSlice (v : View) (m : Memory) (start stop : ℕ) : Except JsError JSString :=
  let stop := if stop = 0 ∨ v.length < stop then v.length else stop
  decode .hex (m.read v.buffer (v.start + start) (stop - start))

/-- `Utf8Write`. The room that is left is an unsigned number, and wraps behind the end. -/
def nativeUtf8Write (v : View) (h : Heap) (m : Memory) (s : JSString) (offset maxLength : ℕ) :
    Except JsError (ℤ × Memory) :=
  if 0 < s.length ∧ v.rawLength ≤ offset then .error .typeError
  else
    let room := if offset ≤ v.rawLength then min (v.rawLength - offset) maxLength else maxLength
    let r := utf8Write h s room
    .ok (r.bytesWritten, m.store v.buffer (v.start + offset) r.stored)

/-- `Copy`. An end that is not an `int32` counts as not given. -/
def nativeCopy (v : View) (m : Memory) (target : View) (targetStart start stop : ℕ) :
    Except JsError (ℕ × Memory) :=
  let sourceEnd : ℤ := if stop < 2 ^ 31 then stop else v.rawLength
  if sourceEnd < toInt32 start then .error (.error "sourceEnd < sourceStart")
  else if sourceEnd = toInt32 start then .ok (0, m)
  else if toInt32 targetStart < 0 ∨ target.rawLength ≤ toInt32 targetStart then
    .error (.error "targetStart out of bounds")
  else if toInt32 start < 0 ∨ v.rawLength ≤ toInt32 start then
    .error (.error "sourceStart out of bounds")
  else if sourceEnd < 0 ∨ v.rawLength < sourceEnd then .error (.error "sourceEnd out of bounds")
  else
    let n := (min (min (sourceEnd - toInt32 start) (target.rawLength - toInt32 targetStart))
      (v.rawLength - toInt32 start)).toNat
    .ok (n, m.move v.buffer (v.start + (toInt32 start).toNat) target.buffer
      (target.start + (toInt32 targetStart).toNat) n)

/-! ## `Buffer.prototype` -/

/-- The index that `subarray` makes of its argument. -/
def clampIndex (n : ℕ) (i : ℤ) : ℕ := if i < 0 then (n + i).toNat else min i.toNat n

/-- `createTypedArray(subject, length, offset)`: the branch that slices. -/
def createSlice (subject : View) (length : ℕ) (offset : ℕ) : View :=
  let actualOffset : ℤ := offset - subject.offset
  let stop := clampIndex subject.rawLength (actualOffset + length)
  let start := min (clampIndex subject.rawLength actualOffset) stop
  ⟨subject.buffer, subject.start + start, stop - start, length, offset⟩

def slice (v : View) (start stop : ℕ) : Except JsError View :=
  if v.length < stop then .error (.error "oob")
  else if stop < start then .error (.error "oob")
  else .ok (createSlice v (stop - start) (start + v.offset))

def toString (v : View) (m : Memory) (encoding : SliceEncoding) (start stop : ℕ) :
    Except JsError JSString :=
  let start := min start v.length + v.offset
  let stop := min stop v.length + v.offset
  match encoding with
  | .hex => v.hexSlice m start stop
  | _ => v.nativeSlice m encoding start stop

/-- `write(string, offset)`, in UTF-8. -/
def write (v : View) (h : Heap) (m : Memory) (s : JSString) (offset : ℕ) :
    Except JsError (ℤ × Memory) :=
  v.nativeUtf8Write h m s (v.offset + offset) (v.length - offset)

def copy (v : View) (m : Memory) (target : View) (targetStart start stop : ℕ) :
    Except JsError (ℕ × Memory) :=
  let stop := if stop = 0 then v.length else stop
  if stop < start then .error (.error "sourceEnd < sourceStart")
  else if stop = start then .ok (0, m)
  else if target.length = 0 ∨ v.length = 0 then .ok (0, m)
  else if target.length ≤ targetStart then .error (.error "targetStart out of bounds")
  else if v.length ≤ start then .error (.error "sourceStart out of bounds")
  else if v.length < stop then .error (.error "sourceEnd out of bounds")
  else
    let stop := if target.length - targetStart < stop - start then
      target.length - targetStart + start else stop
    v.nativeCopy m target (targetStart + target.offset) (start + v.offset) (stop + v.offset)

/-- The buffers of `createTypedArray` and their slices. A buffer made of a string can have a
`length` below that of its array; no array has `2 ^ 31` bytes. -/
inductive Made : View → Prop
  | create (buffer : ℕ) {rawLength length : ℕ} (h : length ≤ rawLength)
      (hraw : rawLength < 2 ^ 31) : Made ⟨buffer, 0, rawLength, length, 0⟩
  | slice {v w : View} {start stop : ℕ} (hv : Made v) (h : v.slice start stop = .ok w) : Made w

end View

/-! ## What every slice keeps -/

namespace View

/-- What `slice` makes of a buffer. -/
theorem slice_cases {v w : View} {start stop : ℕ} (h : v.slice start stop = .ok w) :
    start ≤ stop ∧ stop ≤ v.length ∧ w = createSlice v (stop - start) (start + v.offset) := by
  unfold slice at h
  split_ifs at h with h₁ h₂
  exact ⟨by omega, by omega, (Except.ok.inj h).symm⟩

/-- The sub-array of a slice that lies in its subject. -/
theorem createSlice_eq {v : View} {start stop : ℕ} (hle : start ≤ stop)
    (hstop : stop ≤ v.rawLength) :
    createSlice v (stop - start) (start + v.offset) =
      ⟨v.buffer, v.start + start, stop - start, stop - start, start + v.offset⟩ := by
  have hactual : ((start + v.offset : ℕ) : ℤ) - v.offset = start := by omega
  have hbegin : clampIndex v.rawLength start = start := by
    rw [clampIndex, if_neg (by omega)]
    omega
  have hend : clampIndex v.rawLength (start + (stop - start : ℕ)) = stop := by
    rw [clampIndex, if_neg (by omega)]
    omega
  simp only [createSlice, hactual, hbegin, hend]
  rw [Nat.min_eq_left hle]

/-- The array of a slice begins `offset` bytes into the first buffer, so that the slice's own
indices need no offset any more. -/
structure Placed (v : View) : Prop where
  start_eq : v.start = v.offset
  length_le : v.length ≤ v.rawLength
  /-- Only an array that begins at zero can be longer than its view. -/
  rawLength_eq : v.offset ≠ 0 → v.rawLength = v.length
  rawLength_lt : v.rawLength < 2 ^ 31
  end_lt : v.offset + v.length < 2 ^ 31

theorem Placed.createSlice {v : View} (hv : Placed v) {start stop : ℕ} (hle : start ≤ stop)
    (hstop : stop ≤ v.length) :
    Placed (createSlice v (stop - start) (start + v.offset)) := by
  obtain ⟨hstart, hlen, -, hraw, hend⟩ := hv
  rw [createSlice_eq hle (Nat.le_trans hstop hlen)]
  constructor
  · rw [hstart, Nat.add_comm]
  · exact Nat.le_refl _
  · exact fun _ ↦ rfl
  · change stop - start < 2 ^ 31
    omega
  · change start + v.offset + (stop - start) < 2 ^ 31
    omega

theorem Made.placed {v : View} (hv : Made v) : Placed v := by
  induction hv with
  | create buffer h hraw =>
    refine ⟨rfl, h, fun h ↦ absurd rfl h, hraw, ?_⟩
    rw [Nat.zero_add]
    exact Nat.lt_of_le_of_lt h hraw
  | slice _ h ih =>
    obtain ⟨hle, hstop, rfl⟩ := slice_cases h
    exact ih.createSlice hle hstop

/-- Indexed access to a slice shows the bytes of the buffer that was sliced. -/
theorem get_slice {v w : View} (hv : Made v) {start stop : ℕ} (h : v.slice start stop = .ok w)
    (m : Memory) (i : ℕ) : w.get m i = v.get m (start + i) := by
  obtain ⟨hle, hstop, rfl⟩ := slice_cases h
  rw [createSlice_eq hle (Nat.le_trans hstop hv.placed.length_le)]
  simp only [get, Nat.add_assoc]

end View

/-! ## Coherence -/

/-- A call on a slice. -/
inductive ViewOp where
  | toString (encoding : SliceEncoding) (start stop : ℕ)
  | write (s : JSString) (offset : ℕ)
  | copy (target : View) (targetStart start stop : ℕ)
  deriving DecidableEq, Repr

namespace ViewOp

/-- The positions lie in the slice. -/
def InRange (v : View) : ViewOp → Prop
  | toString _ start stop => start ≤ stop ∧ stop ≤ v.length
  | write _ offset => offset < v.length
  | copy target _ start stop => target.Made ∧ start ≤ stop ∧ stop ≤ v.length

/-- Whatever the memory holds, the call works on the bytes that indexed access shows: `toString`
decodes `v[start..stop)`; `write` stores the characters of the string, as far as there is room for
them, at `v[offset..)`, and changes nothing outside of the slice; `copy` copies `v[start..stop)`
and nothing else. -/
def Coherent (h : Heap) (v : View) : ViewOp → Prop
  | toString encoding start stop => ∀ m, v.toString m encoding start stop =
      decode encoding ((List.range (stop - start)).map fun k ↦ v.get m (start + k))
  | write s offset => ∀ m, ∃ r m', v.write h m s offset = .ok (r, m') ∧
      (∀ k b, (deflate (v.length - offset) s)[k]? = some b → v.get m' (offset + k) = b) ∧
      ∀ buffer i, ¬(buffer = v.buffer ∧ v.start ≤ i ∧ i < v.start + v.length) →
        m' buffer i = m buffer i
  | copy target targetStart start stop => ∀ m, v.copy m target targetStart start stop =
      .ok (stop - start, m.move v.buffer (v.start + start) target.buffer
        (target.start + targetStart) (stop - start))

/-- When a call is coherent. With an offset, only what reads and stores nothing is, as long as the
offset counted twice does not leave the slice; `copy` also where it copies bytes onto themselves.
Without one, `hex` text and `copy` go wrong on an end of zero. -/
def Safe (v : View) : ViewOp → Prop
  | toString .hex start stop =>
    if v.offset = 0 then stop ≠ 0 ∨ v.length = 0 else start = stop
  | toString _ start stop => v.offset = 0 ∨ start = stop ∧ stop + v.offset ≤ v.length
  | write s offset => v.offset = 0 ∨ deflate (v.length - offset) s = [] ∧
      (v.offset + offset < v.length ∨ s = [] ∧ v.offset + offset = v.length)
  | copy target targetStart start stop =>
    if start = stop then stop ≠ 0 ∨ v.length = 0 ∨ target.length = 0
    else
      targetStart + (stop - start) ≤ target.length ∧
        (v.offset = 0 ∧ target.offset = 0 ∨
          v.buffer = target.buffer ∧ v.offset = target.offset ∧ start = targetStart ∧
            stop + v.offset ≤ v.length ∧ stop + target.offset ≤ target.length)

end ViewOp

/-! ## Reading -/

theorem Memory.read_succ (m : Memory) (buffer i n : ℕ) :
    m.read buffer i (n + 1) = m buffer i :: m.read buffer (i + 1) n := by
  rw [read, List.range_succ_eq_map, List.map_cons, List.map_map, read]
  congr 1
  apply List.map_congr_left
  intro k _
  rw [Function.comp_apply, Nat.add_assoc, Nat.succ_eq_one_add]

/-- A memory that is zero but for one byte of the first buffer. -/
def mark (buffer i : ℕ) : Memory := fun buffer' j ↦ if buffer' = buffer ∧ j = i then 1 else 0

theorem mark_self (buffer i : ℕ) : mark buffer i buffer i = 1 := if_pos ⟨rfl, rfl⟩

theorem mark_of_ne {buffer i j : ℕ} (h : j ≠ i) : mark buffer i buffer j = 0 :=
  if_neg fun h' ↦ h h'.2

theorem read_mark_lt (buffer i j n : ℕ) :
    ∀ x ∈ (mark buffer i).read buffer j n, x.toNat < 0x80 := by
  intro x hx
  obtain ⟨k, -, rfl⟩ := List.mem_map.mp hx
  by_cases hk : j + k = i
  · rw [hk, mark_self]
    decide
  · rw [mark_of_ne hk]
    decide

/-- The text of ASCII bytes shows their first one. -/
theorem decode_cons_ne (encoding : SliceEncoding) {l l' : Bytes}
    (hl : ∀ x ∈ (1 : UInt8) :: l, x.toNat < 0x80) (hl' : ∀ x ∈ (0 : UInt8) :: l', x.toNat < 0x80) :
    decode encoding (1 :: l) ≠ decode encoding (0 :: l') ∧
      decode encoding (1 :: l) ≠ decode encoding [] := by
  cases encoding <;> simp only [decode, utf8Decode_of_ascii hl, utf8Decode_of_ascii hl'] <;>
    constructor <;> intro h <;> simp [asciiText, toHex, utf8Decode] at h
  exact absurd h.1 (by decide)

/-- A text that begins with the marked byte is not one that begins behind it. -/
theorem decode_mark_ne (encoding : SliceEncoding) (buffer : ℕ) {i j n n' : ℕ} (hn : 0 < n)
    (hj : i < j) :
    decode encoding ((mark buffer i).read buffer i n) ≠
      decode encoding ((mark buffer i).read buffer j n') := by
  obtain ⟨n, rfl⟩ := Nat.exists_eq_add_one.mpr hn
  have hl := read_mark_lt buffer i i (n + 1)
  rw [Memory.read_succ, mark_self] at hl ⊢
  have hl' (n' : ℕ) : ∀ x ∈ 0 :: (mark buffer i).read buffer (j + 1) n', x.toNat < 0x80 := by
    rw [← mark_of_ne (Nat.ne_of_gt hj), ← Memory.read_succ]
    exact read_mark_lt buffer i j (n' + 1)
  rcases n' with _ | n'
  · exact (decode_cons_ne encoding hl (hl' 0)).2
  · rw [Memory.read_succ, mark_of_ne (Nat.ne_of_gt hj)]
    exact (decode_cons_ne encoding hl (hl' n')).1

namespace View

theorem read_eq_map_get (v : View) (m : Memory) (i n : ℕ) :
    m.read v.buffer (v.start + i) n = (List.range n).map fun k ↦ v.get m (i + k) := by
  simp only [Memory.read, get, Nat.add_assoc]

end View

theorem decode_of_ascii (encoding : SliceEncoding) {b : Bytes} (h : ∀ x ∈ b, x.toNat < 0x80) :
    ∃ s, decode encoding b = .ok s := by
  cases encoding <;> simp [decode, utf8Decode_of_ascii h]

namespace View

variable {v : View} {start stop : ℕ}

theorem nativeSlice_coherent_iff (hv : Placed v) (hle : start ≤ stop) (hstop : stop ≤ v.length)
    (encoding : SliceEncoding) :
    (∀ m, v.nativeSlice m encoding (start + v.offset) (stop + v.offset) =
      decode encoding (m.read v.buffer (v.start + start) (stop - start))) ↔
      v.offset = 0 ∨ start = stop ∧ stop + v.offset ≤ v.length := by
  obtain ⟨-, hlen, hraw, hlt, -⟩ := hv
  have hcount : stop + v.offset - (start + v.offset) = stop - start := by omega
  by_cases ho : v.offset = 0
  · refine iff_of_true (fun m ↦ ?_) (Or.inl ho)
    rw [nativeSlice, ho, if_neg (by omega), if_neg (by omega), if_neg (by omega)]
    rfl
  · specialize hraw ho
    constructor
    · intro h
      specialize h (mark v.buffer (v.start + start))
      obtain ⟨s, hs⟩ := decode_of_ascii encoding
        (read_mark_lt v.buffer (v.start + start) (v.start + start) (stop - start))
      -- the text could be decoded, so the checks let the call pass
      rw [hs, nativeSlice] at h
      split_ifs at h with h₁ h₂ h₃
      refine Or.inr ⟨?_, by omega⟩
      by_contra hne
      rw [← hs, hcount] at h
      exact decode_mark_ne encoding v.buffer (by omega) (by omega) h.symm
    · rintro (h | ⟨rfl, h⟩) m
      · exact absurd h ho
      · rw [nativeSlice, if_neg (by omega), if_neg (by omega), if_neg (by omega), hcount,
          Nat.sub_self]
        rfl

theorem hexSlice_coherent_iff (hle : start ≤ stop) (hstop : stop ≤ v.length) :
    (∀ m, v.hexSlice m (start + v.offset) (stop + v.offset) =
      decode .hex (m.read v.buffer (v.start + start) (stop - start))) ↔
      if v.offset = 0 then stop ≠ 0 ∨ v.length = 0 else start = stop := by
  by_cases ho : v.offset = 0
  · rw [if_pos ho, ho]
    by_cases hz : stop = 0
    · -- an end of zero is the end of the buffer
      have hstart : start = 0 := by omega
      subst hz hstart
      simp only [hexSlice, Nat.add_zero, true_or, if_true, Nat.sub_zero, ne_eq, not_true,
        false_or]
      constructor
      · intro h
        by_contra hne
        specialize h (mark v.buffer v.start)
        have hl := read_mark_lt v.buffer v.start v.start v.length
        obtain ⟨n, hn⟩ := Nat.exists_eq_add_one.mpr (Nat.pos_of_ne_zero hne)
        rw [hn, Memory.read_succ, mark_self] at h hl
        exact (decode_cons_ne .hex hl (read_mark_lt 0 1 0 1)).2 h
      · intro h m
        rw [h]
    · refine iff_of_true (fun m ↦ ?_) (Or.inl hz)
      rw [hexSlice, if_neg (by omega)]
      rfl
  · rw [if_neg ho]
    unfold hexSlice
    constructor
    · intro h
      by_contra hne
      exact decode_mark_ne .hex v.buffer (by omega) (by omega)
        (h (mark v.buffer (v.start + start))).symm
    · rintro rfl m
      have hnone : (if start + v.offset = 0 ∨ v.length < start + v.offset then v.length
          else start + v.offset) - (start + v.offset) = 0 := by
        split_ifs <;> omega
      simp only [hnone, Nat.sub_self]
      rfl

theorem toString_coherent_iff (h : Heap) (hv : Placed v) (encoding : SliceEncoding)
    (hle : start ≤ stop) (hstop : stop ≤ v.length) :
    (ViewOp.toString encoding start stop).Coherent h v ↔
      (ViewOp.toString encoding start stop).Safe v := by
  simp only [ViewOp.Coherent, toString, Nat.min_eq_left (Nat.le_trans hle hstop),
    Nat.min_eq_left hstop, ← read_eq_map_get]
  cases encoding with
  | hex => exact hexSlice_coherent_iff hle hstop
  | _ => exact nativeSlice_coherent_iff hv hle hstop _

end View

/-! ## Writing -/

/-- What is stored begins with the characters that fit, and does not leave the room. -/
theorem utf8Write_stored (h : Heap) (s : JSString) (room : ℕ) :
    ∃ tail, (utf8Write h s room).stored = deflate room s ++ tail ∧
      (deflate room s ++ tail).length ≤ room := by
  have hle := length_deflate_le room s
  by_cases hw : WellFormed s = true
  · simp only [utf8Write, hw, if_true]
    refine ⟨_, rfl, ?_⟩
    rw [List.length_append]
    split_ifs with h₁ h₂
    · rw [deflate_eq hw (Nat.le_of_lt h₁), List.length_singleton]
      omega
    · rwa [List.length_nil, Nat.add_zero]
    · rw [List.length_replicate]
      omega
  · simp only [utf8Write, if_neg hw]
    exact ⟨[], (List.append_nil _).symm, by rwa [List.append_nil]⟩

theorem Memory.store_of_lt (m : Memory) (buffer i : ℕ) (b : Bytes) {buffer' j : ℕ} (h : j < i) :
    m.store buffer i b buffer' j = m buffer' j := if_neg fun h' ↦ by omega

theorem Memory.store_of_ne (m : Memory) (buffer i : ℕ) {b : Bytes} {buffer' j : ℕ}
    (h : ¬(buffer' = buffer ∧ i ≤ j ∧ j < i + b.length)) :
    m.store buffer i b buffer' j = m buffer' j := by
  unfold store
  split_ifs with h'
  · rw [List.getElem?_eq_none (by omega), Option.getD_none]
  · rfl

theorem Memory.store_add (m : Memory) (buffer i : ℕ) {b : Bytes} {k : ℕ} {x : UInt8}
    (h : b[k]? = some x) : m.store buffer i b buffer (i + k) = x := by
  rw [store, if_pos ⟨rfl, Nat.le_add_right i k⟩, Nat.add_sub_cancel_left, h, Option.getD_some]

namespace View

variable {v : View} {offset : ℕ} {s : JSString}

/-- A write that ends in the slice changes nothing outside of it. -/
theorem store_outside (m : Memory) {i : ℕ} {b : Bytes} (h : i + b.length ≤ v.length)
    {buffer j : ℕ} (hj : ¬(buffer = v.buffer ∧ v.start ≤ j ∧ j < v.start + v.length)) :
    m.store v.buffer (v.start + i) b buffer j = m buffer j := by
  apply Memory.store_of_ne
  rintro ⟨rfl, h₁, h₂⟩
  exact hj ⟨rfl, by omega, by omega⟩

theorem write_coherent_of_safe (h : Heap) (hv : Placed v) (hoff : offset < v.length)
    (hs : (ViewOp.write s offset).Safe v) : (ViewOp.write s offset).Coherent h v := by
  intro m
  obtain ⟨-, hlen, hraw, -, -⟩ := hv
  have hraw' : v.offset = 0 ∨ v.rawLength = v.length := Decidable.or_iff_not_imp_left.mpr hraw
  -- the native function counts the offset of the view a second time
  have hend : v.offset + offset ≤ v.length := by
    rcases hs with ho | ⟨-, hin | ⟨-, hin⟩⟩ <;> omega
  have hcheck : ¬(0 < s.length ∧ v.rawLength ≤ v.offset + offset) := by
    rcases hs with ho | ⟨-, hin | ⟨rfl, -⟩⟩
    · omega
    · omega
    · exact fun h ↦ Nat.lt_irrefl _ h.1
  have hroom : min (v.rawLength - (v.offset + offset)) (v.length - offset) =
      v.length - (v.offset + offset) := by omega
  obtain ⟨tail, htail, hle⟩ := utf8Write_stored h s (v.length - (v.offset + offset))
  rw [write, nativeUtf8Write, if_neg hcheck]
  simp only [if_pos (Nat.le_trans hend hlen), hroom]
  refine ⟨_, _, rfl, fun k x hk ↦ ?_, fun buffer i hi ↦ ?_⟩
  · rcases hs with ho | ⟨hnone, -⟩
    · rw [ho, Nat.zero_add] at htail ⊢
      rw [get, ← Nat.add_assoc]
      apply Memory.store_add
      rw [htail, List.getElem?_append_left (List.getElem?_eq_some_iff.mp hk).1, hk]
    · rw [hnone, List.getElem?_nil] at hk
      cases hk
  · exact store_outside m (by rw [htail]; omega) hi

theorem write_cases {h : Heap} {m m' : Memory} {r : ℤ} (hw : v.write h m s offset = .ok (r, m')) :
    (s = [] ∨ v.offset + offset < v.rawLength) ∧ ∃ room,
      (v.rawLength < v.offset + offset → room = v.length - offset) ∧
      m' = m.store v.buffer (v.start + (v.offset + offset)) (utf8Write h s room).stored := by
  rw [write, nativeUtf8Write] at hw
  by_cases hcheck : 0 < s.length ∧ v.rawLength ≤ v.offset + offset
  · rw [if_pos hcheck] at hw
    cases hw
  rw [if_neg hcheck] at hw
  obtain ⟨-, rfl⟩ := Prod.mk.inj (Except.ok.inj hw)
  refine ⟨?_, _, fun hlt ↦ if_neg (by omega), rfl⟩
  rw [← List.length_eq_zero_iff]
  omega

theorem safe_of_write_coherent (h : Heap) (hv : Placed v) (hoff : offset < v.length)
    (hc : (ViewOp.write s offset).Coherent h v) : (ViewOp.write s offset).Safe v := by
  by_cases ho : v.offset = 0
  · exact Or.inl ho
  have hraw := hv.rawLength_eq ho
  -- the call stores behind `offset`, where a character was to go
  have hnone : deflate (v.length - offset) s = [] := by
    by_contra hne
    obtain ⟨x, l, hx⟩ := List.exists_cons_of_ne_nil hne
    obtain ⟨r, m', hw, hget, -⟩ := hc fun _ _ ↦ x + 1
    obtain ⟨-, room, -, rfl⟩ := write_cases hw
    have hstored := hget 0 x (by rw [hx]; rfl)
    rw [get, Memory.store_of_lt _ _ _ _ (by omega)] at hstored
    exact absurd hstored (by simp)
  refine Or.inr ⟨hnone, ?_⟩
  obtain ⟨r, m', hw, -, hframe⟩ := hc fun _ _ ↦ 1
  obtain ⟨rfl | hin, room, hroom, rfl⟩ := write_cases hw
  · by_contra hout
    -- the terminator of the empty string falls behind the slice
    obtain ⟨hlt, hne⟩ := not_or.mp hout
    have hne' : v.offset + offset ≠ v.length := fun h ↦ hne ⟨rfl, h⟩
    have hpos : 0 < room := by omega
    have hstored : (utf8Write h [] room).stored = [0] := by
      simp [utf8Write, deflate, WellFormed, utf8Bytes, hpos]
    have hbyte := hframe v.buffer (v.start + (v.offset + offset) + 0) (by omega)
    rw [hstored, Memory.store_add _ _ _ rfl] at hbyte
    exact absurd hbyte (by decide)
  · exact Or.inl (by omega)

end View

/-! ## Copying -/

theorem toInt32_of_lt {n : ℕ} (h : n < 2 ^ 31) : toInt32 n = n := by
  have hmod : n % 2 ^ 32 = n := Nat.mod_eq_of_lt (by omega)
  rw [toInt32, hmod, if_pos h]

/-- Two indices that show the same byte in every memory are the same. -/
theorem index_eq_of_forall {buffer buffer' i i' : ℕ}
    (h : ∀ m : Memory, m buffer i = m buffer' i') : buffer = buffer' ∧ i = i' := by
  have hm := h (mark buffer' i')
  rw [mark_self] at hm
  by_contra hne
  exact absurd hm (by rw [mark, if_neg hne]; decide)

theorem Memory.move_self (m : Memory) (buffer i n : ℕ) : m.move buffer i buffer i n = m := by
  funext buffer' k
  unfold move
  split_ifs with h
  · rw [h.1, Nat.add_sub_cancel' h.2.1]
  · rfl

theorem Memory.move_zero (m : Memory) (source i target j : ℕ) : m.move source i target j 0 = m := by
  funext buffer k
  exact if_neg (by omega)

/-- Two moves of which the second begins `o` later in the source and `p` later in the target do the
same only if there is no difference, or if both leave every byte in its place. -/
theorem move_eq_iff {source target i j o p n : ℕ} (hn : 0 < n) :
    (∀ m : Memory, m.move source (i + o) target (j + p) n = m.move source i target j n) ↔
      o = 0 ∧ p = 0 ∨ source = target ∧ i = j ∧ o = p := by
  constructor
  · intro h
    have hfirst (m : Memory) : m.move source (i + o) target (j + p) n target j = m source i := by
      rw [h, Memory.move, if_pos ⟨rfl, Nat.le_refl j, by omega⟩, Nat.sub_self, Nat.add_zero]
    by_cases hp : p = 0
    · -- the first byte comes from `i`, so nothing was added to it
      subst hp
      have hsource : source = source ∧ i + o = i := index_eq_of_forall fun m ↦ by
        rw [← hfirst m, Memory.move, if_pos (by omega)]
        congr 1
        omega
      exact Or.inl ⟨by omega, rfl⟩
    · -- the first byte of the target stays, and so it came from there
      have hstays : target = source ∧ j = i := index_eq_of_forall fun m ↦ by
        rw [← hfirst m, Memory.move, if_neg (by omega)]
      obtain ⟨rfl, rfl⟩ := hstays
      have hsecond : target = target ∧ j + o = j + p := index_eq_of_forall fun m ↦ by
        have hm := congrFun (congrFun (h m) target) (j + p)
        rw [Memory.move_self, Memory.move, if_pos (by omega)] at hm
        rw [← hm, Nat.sub_self, Nat.add_zero]
      exact Or.inr ⟨rfl, rfl, by omega⟩
  · rintro (⟨rfl, rfl⟩ | ⟨rfl, rfl, rfl⟩) m
    · rfl
    · rw [Memory.move_self, Memory.move_self]

namespace View

variable {v target : View} {targetStart start stop : ℕ}

/-- A copy of `n` bytes that succeeds. -/
theorem nativeCopy_eq (ht : target.rawLength < 2 ^ 31) (hv : v.rawLength < 2 ^ 31) (m : Memory)
    (hlt : start < stop) (hstop : stop ≤ v.rawLength)
    (htarget : targetStart + (stop - start) ≤ target.rawLength) :
    v.nativeCopy m target targetStart start stop =
      .ok (stop - start, m.move v.buffer (v.start + start) target.buffer
        (target.start + targetStart) (stop - start)) := by
  have hn : (min (min ((stop : ℤ) - start) (target.rawLength - targetStart))
      (v.rawLength - start)).toNat = stop - start := by omega
  unfold nativeCopy
  rw [if_pos (show stop < 2 ^ 31 by omega), toInt32_of_lt (show start < 2 ^ 31 by omega),
    toInt32_of_lt (show targetStart < 2 ^ 31 by omega)]
  rw [if_neg (by omega), if_neg (by omega), if_neg (by omega), if_neg (by omega),
    if_neg (by omega)]
  simp only [hn, Int.toNat_natCast]

/-- A copy that does not throw stays in both arrays. -/
theorem nativeCopy_cases {m m' : Memory} {n : ℕ} (hstop : stop < 2 ^ 31)
    (htarget : targetStart < 2 ^ 31) (hlt : start < stop)
    (h : v.nativeCopy m target targetStart start stop = .ok (n, m')) :
    0 < n ∧ n ≤ stop - start ∧ start + n ≤ v.rawLength ∧ targetStart + n ≤ target.rawLength := by
  simp only [nativeCopy, if_pos hstop, toInt32_of_lt (Nat.lt_trans hlt hstop),
    toInt32_of_lt htarget] at h
  split_ifs at h with h₁ h₂
  · omega
  · obtain ⟨hcount, -⟩ := Prod.mk.inj (Except.ok.inj h)
    omega

theorem copy_of_lt (m : Memory) (hlt : start < stop) (hstop : stop ≤ v.length) :
    v.copy m target targetStart start stop =
      if target.length = 0 then .ok (0, m)
      else if target.length ≤ targetStart then .error (.error "targetStart out of bounds")
      else v.nativeCopy m target (targetStart + target.offset) (start + v.offset)
        ((if target.length - targetStart < stop - start then
          target.length - targetStart + start else stop) + v.offset) := by
  unfold copy
  rw [if_neg (show stop ≠ 0 by omega), if_neg (by omega), if_neg (by omega)]
  by_cases ht : target.length = 0
  · rw [if_pos (Or.inl ht), if_pos ht]
  · rw [if_neg (by omega), if_neg ht]
    by_cases htarget : target.length ≤ targetStart
    · rw [if_pos htarget, if_pos htarget]
    · rw [if_neg htarget, if_neg htarget, if_neg (by omega), if_neg (by omega)]

theorem copy_coherent_iff_of_lt (h : Heap) (hv : Placed v) (ht : Placed target)
    (hlt : start < stop) (hstop : stop ≤ v.length) :
    (ViewOp.copy target targetStart start stop).Coherent h v ↔
      (ViewOp.copy target targetStart start stop).Safe v := by
  obtain ⟨hstart, hlen, hraw, hrawlt, hend⟩ := hv
  obtain ⟨htstart, htlen, htraw, htrawlt, htend⟩ := ht
  have hraw' : v.offset = 0 ∨ v.rawLength = v.length := Decidable.or_iff_not_imp_left.mpr hraw
  have htraw' : target.offset = 0 ∨ target.rawLength = target.length :=
    Decidable.or_iff_not_imp_left.mpr htraw
  simp only [ViewOp.Coherent, ViewOp.Safe, if_neg (Nat.ne_of_lt hlt), copy_of_lt _ hlt hstop]
  -- what the native does when there is space for all bytes in both arrays
  have hcopy (m : Memory) (h₁ : stop + v.offset ≤ v.rawLength)
      (h₂ : targetStart + target.offset + (stop - start) ≤ target.rawLength) :
      v.nativeCopy m target (targetStart + target.offset) (start + v.offset) (stop + v.offset) =
        .ok (stop - start, m.move v.buffer (v.start + start + v.offset) target.buffer
          (target.start + targetStart + target.offset) (stop - start)) := by
    have hcount : stop + v.offset - (start + v.offset) = stop - start := by omega
    rw [nativeCopy_eq htrawlt hrawlt m (by omega) h₁ (by omega), hcount, Nat.add_assoc,
      Nat.add_assoc]
  constructor
  · intro hc
    -- a call that copies all bytes has the space
    have hrun := hc fun _ _ ↦ 0
    split_ifs at hrun with h₁ h₂ h₃
    · have := (Prod.mk.inj (Except.ok.inj hrun)).1
      omega
    · have := nativeCopy_cases (by omega) (by omega) (by omega) hrun
      omega
    · have hfit := nativeCopy_cases (by omega) (by omega) (by omega) hrun
      have hmove (m : Memory) := hc m
      simp only [if_neg h₁, if_neg h₂, if_neg h₃, hcopy _ (by omega) (by omega),
        Except.ok.injEq, Prod.mk.injEq, true_and] at hmove
      rw [move_eq_iff (by omega)] at hmove
      refine ⟨by omega, ?_⟩
      rcases hmove with hzero | ⟨hbuffer, hij, ho⟩
      · exact Or.inl hzero
      · by_cases hz : v.offset = 0
        · exact Or.inl ⟨hz, by omega⟩
        · exact Or.inr ⟨hbuffer, ho, by omega, by omega, by omega⟩
  · rintro ⟨hfits, hsafe⟩ m
    rw [if_neg (by omega), if_neg (by omega), if_neg (by omega), hcopy m (by omega) (by omega)]
    congr 2
    apply (move_eq_iff (by omega)).mpr
    rcases hsafe with hzero | ⟨hbuffer, ho, hs, -, -⟩
    · exact Or.inl hzero
    · exact Or.inr ⟨hbuffer, by omega, ho⟩

theorem copy_coherent_iff_of_eq (h : Heap) (hv : Placed v) (ht : Placed target)
    (hstop : start ≤ v.length) :
    (ViewOp.copy target targetStart start start).Coherent h v ↔
      (ViewOp.copy target targetStart start start).Safe v := by
  have hend := hv.end_lt
  have htend := ht.end_lt
  simp only [ViewOp.Coherent, ViewOp.Safe, if_true, Nat.sub_self, Memory.move_zero]
  by_cases hz : start = 0
  · subst hz
    by_cases hlen : v.length = 0
    · refine iff_of_true (fun m ↦ ?_) (Or.inr (Or.inl hlen))
      simp [copy, hlen]
    · have hpos : 0 < v.length := Nat.pos_of_ne_zero hlen
      -- an end of zero is the end of the buffer
      have hcopy (m : Memory) : v.copy m target targetStart 0 0 =
          v.copy m target targetStart 0 v.length := by
        simp only [copy, if_true, if_neg hlen]
      simp only [hcopy, copy_of_lt _ hpos (Nat.le_refl _)]
      by_cases htz : target.length = 0
      · simp [htz]
      · refine iff_of_false (fun hc ↦ ?_) (by omega)
        have hrun := hc fun _ _ ↦ 0
        split_ifs at hrun
        · have := (nativeCopy_cases (by omega) (by omega) (by omega) hrun).1
          omega
        · have := (nativeCopy_cases (by omega) (by omega) (by omega) hrun).1
          omega
  · refine iff_of_true (fun m ↦ ?_) (Or.inl hz)
    simp [copy, hz]

end View

/-- Which calls on a slice work on the bytes that indexed access shows. -/
theorem coherent_iff (h : Heap) {v : View} (hv : v.Made) {op : ViewOp} (hop : op.InRange v) :
    op.Coherent h v ↔ op.Safe v := by
  match op, hop with
  | .toString encoding start stop, ⟨hle, hstop⟩ =>
    exact View.toString_coherent_iff h hv.placed encoding hle hstop
  | .write s offset, hoff =>
    exact ⟨View.safe_of_write_coherent h hv.placed hoff,
      View.write_coherent_of_safe h hv.placed hoff⟩
  | .copy target targetStart start stop, ⟨ht, hle, hstop⟩ =>
    rcases Nat.eq_or_lt_of_le hle with rfl | hlt
    · exact View.copy_coherent_iff_of_eq h hv.placed ht.placed hstop
    · exact View.copy_coherent_iff_of_lt h hv.placed ht.placed hlt hstop

/-- A buffer of eight bytes. -/
def eightBytes : View := ⟨0, 0, 8, 8, 0⟩

theorem made_eightBytes : eightBytes.Made := .create 0 (Nat.le_refl 8) (by decide)

/-- `b.slice(0, 6).slice(0, 4).toString('utf8', 1, 3)` is coherent, for it has no offset. -/
theorem coherent_iff_prefix :
    (ViewOp.toString .utf8 1 3).Coherent ⟨fun _ ↦ 0, 0, 0, 0⟩ ⟨0, 0, 4, 4, 0⟩ ∧
      (ViewOp.toString .utf8 1 3).Safe ⟨0, 0, 4, 4, 0⟩ := by
  have hsix : View.Made ⟨0, 0, 6, 6, 0⟩ :=
    .slice made_eightBytes (show eightBytes.slice 0 6 = _ by decide)
  have hfour : View.Made ⟨0, 0, 4, 4, 0⟩ :=
    .slice hsix (show View.slice ⟨0, 0, 6, 6, 0⟩ 0 4 = _ by decide)
  have hrange : (ViewOp.toString .utf8 1 3).InRange ⟨0, 0, 4, 4, 0⟩ := ⟨by decide, by decide⟩
  have hsafe : (ViewOp.toString .utf8 1 3).Safe ⟨0, 0, 4, 4, 0⟩ := Or.inl rfl
  exact ⟨(coherent_iff _ hfour hrange).mpr hsafe, hsafe⟩

/-- `b.slice(4, 8).toString()` throws: it asks the native for bytes 4 to 8 of an array of four. -/
theorem slice_not_coherent :
    ¬∀ (h : Heap) (v : View), v.Made → ∀ op : ViewOp, op.InRange v → op.Coherent h v := by
  intro hall
  have hmade : View.Made ⟨0, 4, 4, 4, 4⟩ :=
    .slice made_eightBytes (show eightBytes.slice 4 8 = _ by decide)
  have hc := hall ⟨fun _ ↦ 0, 0, 0, 0⟩ _ hmade (.toString .utf8 0 4) ⟨by decide, by decide⟩
  exact absurd (hc fun _ i ↦ .ofNat i) (by decide)

end SpiderNode.Buffer
