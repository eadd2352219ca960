import SpiderNode.Net.Socket

/-!
# What `Buffer.prototype.write` stores and reports

`lib/buffer.js` passes a string to one native encoder for each encoding (`hexWrite` is JavaScript).
They are modelled with what they return and what they store, including where that is not what their
callers expect:

* `utf8Write` reports the number of bytes the whole string needs, whether or not they fit, counts
  all its characters as written, and drops a final `NUL` when it takes it for the terminator;
* `asciiWrite` turns the string into UTF-8 and back, and loses the characters that do not come back
  as one byte;
* `binaryWrite` aborts on a code unit that is not a byte;
* `ucs2Write` takes its limit in bytes for a limit in code units;
* `base64Write` and `hexWrite` report fewer bytes than the string has characters.

Some of them read memory that is not theirs. `Heap` holds what they find there.
-/

namespace SpiderNode.Buffer

open Net (JsError PoolWrite PoolWriter)

/-- What the encoders depend on besides their arguments. -/
structure Heap where
  /-- The bytes behind the end of the buffer. -/
  beyond : ℕ → UInt8
  /-- The byte behind the UTF-8 copy that `WriteAscii` works on. -/
  behindCopy : UInt8
  /-- `SlowBuffer._charsWritten` as an earlier call left it. -/
  charsWritten : ℤ
  /-- The free bytes behind a new buffer in its parent. -/
  slack : ℕ

/-! ## UTF-8 -/

/-- `DeflateStringToUTF8Buffer`: whole characters, up to the first that does not fit in `room` bytes
or is not a character. -/
def deflate (room : ℕ) : JSString → Bytes
  | [] => []
  | [u] =>
    if isHigh u || isLow u then []
    else if room < (codePointBytes u.toNat).length then []
    else codePointBytes u.toNat
  | u :: v :: rest =>
    if isHigh u && isLow v then
      let b := codePointBytes (pairCodePoint u v)
      if room < b.length then [] else b ++ deflate (room - b.length) rest
    else if isHigh u || isLow u then []
    else
      let b := codePointBytes u.toNat
      if room < b.length then [] else b ++ deflate (room - b.length) (v :: rest)

/-- `Buffer::Utf8Write`, with `room` bytes to write to. -/
def utf8Write (m : Heap) (s : JSString) (room : ℕ) : PoolWrite :=
  let part := deflate room s
  if WellFormed s then
    let n := (utf8Bytes s).length
    -- a terminator if there is space for it, and zeros behind the last character that fits
    let stored := part ++ if n < room then [0]
      else if n = room then [] else List.replicate (room - part.length) 0
    let written := if n < room then n + 1 else n
    let last := if written - 1 < room then stored.getD (written - 1) 0
      else m.beyond (written - 1 - room)
    ⟨stored, if 0 < written ∧ last = 0 then written - 1 else written, s.length⟩
  else ⟨part, -1, s.length⟩

/-! ## ASCII -/

/-- The character `WriteAscii` makes of two bytes. -/
def twoByteChar (first second : UInt8) : ℕ := (first.toNat % 0x40) <<< 6 ||| second.toNat % 0x80

/-- The loop of `WriteAscii` over the UTF-8 bytes of a string: at most `n` bytes, each made of an
ASCII byte or of a two-byte sequence below `0x100`. It does not know longer sequences, and takes
what follows their first byte for two-byte ones. -/
def writeAscii (m : Heap) : ℕ → Bytes → Bytes
  | _, [] => []
  | 0, _ => []
  | n + 1, [first] =>
    if 0x7F < first.toNat then
      if first.toNat < 0xE0 ∧ twoByteChar first m.behindCopy < 0x100 then
        [.ofNat (twoByteChar first m.behindCopy)]
      else []
    else first :: writeAscii m n []
  | n + 1, first :: second :: rest =>
    if 0x7F < first.toNat then
      if first.toNat < 0xE0 then
        if twoByteChar first second < 0x100 then
          .ofNat (twoByteChar first second) :: writeAscii m n rest
        else writeAscii m (n + 1) rest
      else writeAscii m (n + 1) (second :: rest)
    else first :: writeAscii m n (second :: rest)

/-- `Buffer::AsciiWrite`. The length of a string that has no UTF-8 form is taken for the size of an
allocation. -/
def asciiWrite (m : Heap) (s : JSString) (room : ℕ) : Except JsError PoolWrite :=
  if WellFormed s then
    let max := min s.length room
    let out := writeAscii m max (utf8Bytes s)
    .ok ⟨out ++ if out.length < max then [0] else [], out.length, m.charsWritten⟩
  else .error .fault

/-! ## The other encodings -/

/-- `Buffer::BinaryWrite`; `DecodeWrite` asserts that the upper half of each code unit is zero. -/
def binaryWrite (m : Heap) (s : JSString) (room : ℕ) : Except JsError PoolWrite :=
  if ∀ u ∈ s.take room, u.toNat < 0x100 then
    .ok ⟨latin1Bytes (s.take room), (s.take room).length, m.charsWritten⟩
  else .error .fault

/-- `Buffer::Ucs2Write`, with `limit` for the number of code units and `room` bytes of memory. -/
def ucs2Write (m : Heap) (s : JSString) (limit room : ℕ) : Except JsError PoolWrite :=
  let units := s.take limit
  if 2 * units.length ≤ room then
    .ok ⟨units.flatMap fun (u : UInt16) ↦ [u.toUInt8, (u >>> 8).toUInt8], 2 * units.length,
      m.charsWritten⟩
  else .error .fault

/-- The value of a hexadecimal digit. -/
def hexDigit (u : UInt16) : Option ℕ :=
  if 0x30 ≤ u ∧ u ≤ 0x39 then some (u.toNat - 0x30)
  else if 0x41 ≤ u ∧ u ≤ 0x46 then some (u.toNat - 0x37)
  else if 0x61 ≤ u ∧ u ≤ 0x66 then some (u.toNat - 0x57)
  else none

/-- White space, as `parseInt` skips it. -/
def isSpace (u : UInt16) : Bool :=
  (0x09 ≤ u && u ≤ 0x0D) || u == 0x20 || u == 0xA0 || u == 0x1680 || u == 0x180E ||
    (0x2000 ≤ u && u ≤ 0x200A) || u == 0x2028 || u == 0x2029 || u == 0x202F || u == 0x205F ||
    u == 0x3000 || u == 0xFEFF

/-- `parseInt(string, 16)` of two code units, as a byte; `none` is `NaN`. -/
def parseHexByte (a b : UInt16) : Option UInt8 :=
  if isSpace a then (hexDigit b).map .ofNat
  else if a = 0x2B then (hexDigit b).map .ofNat
  else if a = 0x2D then (hexDigit b).map fun d ↦ .ofNat (256 - d)
  else if a = 0x30 ∧ (b = 0x78 ∨ b = 0x58) then none
  else
    (hexDigit a).map fun d ↦
      match hexDigit b with
      | some d' => .ofNat (16 * d + d')
      | none => .ofNat d

/-- The bytes of a string of hexadecimal digits. -/
def hexBytes : JSString → Option Bytes
  | [] => some []
  | [_] => none
  | a :: b :: rest => do
    let byte ← parseHexByte a b
    let bytes ← hexBytes rest
    return byte :: bytes

/-- `SlowBuffer.prototype.hexWrite`. Assignments behind the end of the memory have no effect. -/
def hexWrite (m : Heap) (s : JSString) (room : ℕ) : Except JsError PoolWrite :=
  match hexBytes s with
  | some b => .ok ⟨b.take room, b.length, m.charsWritten⟩
  | none => .error (.error "Invalid hex string")

/-- `unbase64`, with `none` for what is not a digit. -/
def unbase64 (c : UInt8) : Option ℕ :=
  if 0x41 ≤ c ∧ c ≤ 0x5A then some (c.toNat - 0x41)
  else if 0x61 ≤ c ∧ c ≤ 0x7A then some (c.toNat - 0x61 + 26)
  else if 0x30 ≤ c ∧ c ≤ 0x39 then some (c.toNat - 0x30 + 52)
  else if c = 0x2B then some 62
  else if c = 0x2F then some 63
  else none

/-- The loop of `Base64Write`, on the digits it does not skip. -/
def decodeDigits : List ℕ → Bytes
  | a :: b :: c :: d :: rest =>
    .ofNat (a * 4 + b / 16) :: .ofNat (b % 16 * 16 + c / 4) :: .ofNat (c % 4 * 64 + d) ::
      decodeDigits rest
  | [a, b, c] => [.ofNat (a * 4 + b / 16), .ofNat (b % 16 * 16 + c / 4)]
  | [a, b] => [.ofNat (a * 4 + b / 16)]
  | _ => []

/-- `base64_decoded_size`, before it is taken for an unsigned number. -/
def base64DecodedSize (src : Bytes) : ℤ :=
  let size := src.length / 4 * 3
  let size := if src.length % 4 = 0 then size
    else if size = 0 ∧ src.length % 4 = 1 then 0
    else size + 1 + if src.length % 4 = 3 then 1 else 0
  if 0 < size then
    (size : ℤ) - (if src.getLast? = some 0x3D then 1 else 0)
      - (if src.dropLast.getLast? = some 0x3D then 1 else 0)
  else 0

/-- `Buffer::Base64Write`. -/
def base64Write (m : Heap) (s : JSString) (room : ℕ) : Except JsError PoolWrite :=
  if WellFormed s then
    let src := writeAscii m (s.length + 1) (utf8Bytes s)
    let size := base64DecodedSize src
    if size < 0 ∨ room < size then .error (.error "Buffer too small")
    else
      let out := decodeDigits (src.filterMap unbase64)
      .ok ⟨out.take room, out.length, m.charsWritten⟩
  else .error .fault

/-! ## Buffers -/

/-- `Buffer.prototype.write` at an offset where the buffer has `maxLength` bytes left and its parent
has `room`. -/
def write (m : Heap) (encoding : Encoding) (s : JSString) (maxLength room : ℕ) :
    Except JsError PoolWrite :=
  match encoding with
  | .text .utf8 | .text .utf8Dash => .ok (utf8Write m s (min room maxLength))
  | .text .ascii => asciiWrite m s (min room maxLength)
  | .text .binary => binaryWrite m s room
  | .base64 => base64Write m s room
  | .ucs2 => ucs2Write m s (min room maxLength) room
  | .hex => hexWrite m s room

/-- The pool is a buffer with a parent of its own size. -/
def poolWriter (m : Heap) : PoolWriter := fun encoding s room ↦ write m encoding s room room

/-- `Buffer.byteLength`; `none` stands for a negative number. -/
def byteLength (s : JSString) : Encoding → Option ℕ
  | .text .utf8 | .text .utf8Dash => if WellFormed s then some (utf8Bytes s).length else none
  | .text .ascii | .text .binary => some s.length
  | .base64 =>
    if WellFormed s ∧ 0 ≤ base64DecodedSize (utf8Bytes s) then
      some (base64DecodedSize (utf8Bytes s)).toNat
    else none
  | .ucs2 => some (2 * s.length)
  | .hex => some (s.length / 2)

/-- The bytes of `new Buffer(s, encoding)`. -/
def newBuffer (m : Heap) (s : JSString) (encoding : Encoding) : Except JsError Bytes :=
  match byteLength s encoding with
  | none => .error .fault
  | some length =>
    match write m encoding s length (length + m.slack) with
    | .error e => .error e
    | .ok r => .ok (r.stored.take r.bytesWritten.toNat)

end SpiderNode.Buffer
