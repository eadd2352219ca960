import SpiderNode.Buffer.WriteUtf8
import SpiderNode.Buffer.Strings

/-!
# The windows of the native writes

`Utf8Write`, `Ucs2Write`, `AsciiWrite` and `BinaryWrite` of `src/node_buffer.cc`, with their
arguments as the numbers of the machine that they become. A call has a window, from `offset` to
`offset + maxLength` or the end of the array; it is to store there the prefix of the string that
fits, and to return the number of its bytes.

Each of the four leaves its window, or returns another number, in a way of its own: `Utf8Write` for
a string that does not fit, for one that ends in `NUL`, and behind the end of the array when the
string is empty, since the offset is not checked then; `Ucs2Write` since it takes a number of bytes
for one of code units; `AsciiWrite` for characters that it has no byte for; and `BinaryWrite` since
it does not look at `maxLength`. `stays_iff` says exactly when a call keeps to its window.
-/

namespace SpiderNode.Buffer

open Net (JsError)

/-! ## The calls -/

/-- The functions that store a string. -/
inductive WriteFunction where
  | utf8
  | ucs2
  | ascii
  | binary
  deriving DecidableEq, Repr

/-- The memory from the first byte of a typed array on. From `length` on, the bytes are not those of
the array. -/
structure Region where
  length : ℕ
  length_lt : length < 2 ^ 31
  byte : ℕ → UInt8

/-- Code units as they are in memory, the lower half of each first. -/
def ucs2Bytes (s : JSString) : Bytes :=
  s.flatMap fun (u : UInt16) ↦ [u.toUInt8, (u >>> 8).toUInt8]

/-- A number of 32 bits that is passed as an `int` and then taken for a `size_t`. -/
def sizeOfInt (n : ℕ) : ℕ :=
  if n % 2 ^ 32 < 2 ^ 31 then n % 2 ^ 32 else 2 ^ 64 - (2 ^ 32 - n % 2 ^ 32)

namespace Region

variable (r : Region)

/-- The bytes with `b` stored from `i` on. -/
def store (i : ℕ) (b : Bytes) : ℕ → UInt8 := fun j ↦
  if i ≤ j then b[j - i]?.getD (r.byte j) else r.byte j

/-- `length - offset`, as a `size_t`. -/
def left (offset : ℕ) : ℕ :=
  if offset ≤ r.length then r.length - offset else 2 ^ 64 - (offset - r.length)

/-- `MIN(length - offset, max_length)` -/
def limit (offset : ℕ) (maxLength : Option UInt32) : ℕ :=
  min (r.left offset) (maxLength.elim (r.left offset) UInt32.toNat)

variable (h : Heap) (s : JSString) (offset : UInt32) (maxLength : Option UInt32)

/-- `Utf8Write` -/
def utf8Write : Except JsError (ℤ × (ℕ → UInt8)) :=
  if 0 < s.length ∧ r.length ≤ offset.toNat then .error .typeError
  else
    let room := sizeOfInt (r.limit offset.toNat maxLength)
    let w := Buffer.utf8Write { h with beyond := fun i ↦ r.byte (offset.toNat + room + i) } s room
    .ok (w.bytesWritten, r.store offset.toNat w.stored)

/-- `Ucs2Write`. The limit is passed on as one of code units. -/
def ucs2Write : Except JsError (ℤ × (ℕ → UInt8)) :=
  if 0 < s.length ∧ r.length ≤ offset.toNat then .error .typeError
  else
    let units := s.take (sizeOfInt (r.limit offset.toNat maxLength))
    .ok ((2 * units.length : ℕ), r.store offset.toNat (ucs2Bytes units))

/-- `AsciiWrite`. The offset is read as a signed number. -/
def asciiWrite : Except JsError (ℤ × (ℕ → UInt8)) :=
  let offset := sizeOfInt offset.toNat
  if 0 < s.length ∧ r.length ≤ offset then .error .typeError
  else
    match Buffer.asciiWrite h s (r.limit offset maxLength) with
    | .error e => .error e
    | .ok w => .ok (w.bytesWritten, r.store offset w.stored)

/-- `BinaryWrite`. The offset is read as a signed number, and `maxLength` is not read. -/
def binaryWrite : Except JsError (ℤ × (ℕ → UInt8)) :=
  let offset := sizeOfInt offset.toNat
  if 0 < s.length ∧ r.length ≤ offset then .error .typeError
  else
    match Buffer.binaryWrite h s (r.left offset) with
    | .error e => .error e
    | .ok w => .ok (w.bytesWritten, r.store offset w.stored)

/-- A call of one of the functions. -/
def write (f : WriteFunction) : Except JsError (ℤ × (ℕ → UInt8)) :=
  match f with
  | .utf8 => r.utf8Write h s offset maxLength
  | .ucs2 => r.ucs2Write s offset maxLength
  | .ascii => r.asciiWrite h s offset maxLength
  | .binary => r.binaryWrite h s offset

/-! ## Windows -/

/-- The end of the window. -/
def windowEnd : ℕ :=
  match maxLength with
  | none => r.length
  | some n => min (offset.toNat + n.toNat) r.length

/-- The size of the window. -/
def room : ℕ := r.windowEnd offset maxLength - offset.toNat

end Region

/-- `b` is what `room` bytes hold of the string: the longest prefix that fits, encoded. In ASCII and
in binary a code unit has one byte, if it has any. -/
def WriteFunction.Encoded (f : WriteFunction) (room : ℕ) (s : JSString) (b : Bytes) : Prop :=
  match f with
  | .utf8 => IsLongest room s b
  | .ucs2 => b = ucs2Bytes (s.take (room / 2))
  | .ascii | .binary => (∀ u ∈ s.take room, u.toNat < 0x100) ∧ b = latin1Bytes (s.take room)

/-- The call throws, or keeps to its window: it changes bytes of the window only, returns the number
of bytes that hold the encoded prefix, and changes nothing behind the byte that follows these. -/
def Stays (r : Region) (h : Heap) (f : WriteFunction) (s : JSString) (offset : UInt32)
    (maxLength : Option UInt32) : Prop :=
  r.write h s offset maxLength f = .error .typeError ∨
    ∃ (b : Bytes) (after : ℕ → UInt8), r.write h s offset maxLength f = .ok (b.length, after) ∧
      f.Encoded (r.room offset maxLength) s b ∧
      (∀ i x, b[i]? = some x → after (offset.toNat + i) = x) ∧
      (∀ p, after p ≠ r.byte p → offset.toNat ≤ p ∧ p < r.windowEnd offset maxLength) ∧
      ∀ p, offset.toNat + b.length < p → after p = r.byte p

/-- When a call that does not throw keeps to its window. Two cases of UTF-8 are accidents: the
terminator of an empty string can fall on a byte that is zero already, and a string that is one byte
too long is reported without that byte if the one behind the window is zero. -/
def SafeWithin (r : Region) (f : WriteFunction) (s : JSString) (offset : UInt32)
    (maxLength : Option UInt32) : Prop :=
  match f with
  | .utf8 =>
    if s = [] then offset.toNat ≤ r.length ∨ maxLength = some 0 ∨ r.byte offset.toNat = 0
    else
      WellFormed s = true ∧
        ((utf8Bytes s).length < r.room offset maxLength ∨
          (utf8Bytes s).length = r.room offset maxLength ∧ s.getLast? ≠ some 0 ∨
          (utf8Bytes s).length = r.room offset maxLength + 1 ∧ (∃ u ∈ s.getLast?, u.toNat < 0x80) ∧
            r.byte (offset.toNat + r.room offset maxLength) = 0)
  | .ucs2 => 2 * s.length ≤ r.room offset maxLength ∨ r.room offset maxLength = 0
  | .ascii => WellFormed s = true ∧ ∀ u ∈ s.take (r.room offset maxLength), u.toNat < 0x100
  | .binary =>
    min s.length (r.length - offset.toNat) ≤ r.room offset maxLength ∧
      ∀ u ∈ s.take (r.room offset maxLength), u.toNat < 0x100

/-- The call throws, or is safe within its window. -/
def Safe (r : Region) (f : WriteFunction) (s : JSString) (offset : UInt32)
    (maxLength : Option UInt32) : Prop :=
  s ≠ [] ∧ r.length ≤ offset.toNat ∨ SafeWithin r f s offset maxLength

variable {r : Region} {h : Heap} {f : WriteFunction} {s : JSString} {offset : UInt32}
  {maxLength : Option UInt32} {n : ℤ} {after : ℕ → UInt8} {b tail : Bytes}

/-! ## Sizes -/

theorem sizeOfInt_of_lt {n : ℕ} (h : n < 2 ^ 31) : sizeOfInt n = n := by
  rw [sizeOfInt, Nat.mod_eq_of_lt (by omega), if_pos h]

theorem le_sizeOfInt {n : ℕ} (h : 2 ^ 31 ≤ n) (h' : n < 2 ^ 32) : 2 ^ 31 ≤ sizeOfInt n := by
  rw [sizeOfInt, Nat.mod_eq_of_lt h', if_neg (by omega)]
  omega

namespace Region

theorem room_eq (r : Region) (offset : UInt32) (maxLength : Option UInt32) :
    r.room offset maxLength =
      min (r.length - offset.toNat) (maxLength.elim (r.length - offset.toNat) UInt32.toNat) := by
  rw [room]
  cases maxLength with
  | none => exact (Nat.min_self _).symm
  | some n =>
    rw [windowEnd, Option.elim_some]
    omega

theorem windowEnd_le (r : Region) (offset : UInt32) (maxLength : Option UInt32) :
    r.windowEnd offset maxLength ≤ r.length := by
  cases maxLength with
  | none => exact Nat.le_refl _
  | some n => exact Nat.min_le_right _ _

theorem limit_eq_room (hle : offset.toNat ≤ r.length) (maxLength : Option UInt32) :
    r.limit offset.toNat maxLength = r.room offset maxLength := by
  rw [limit, left, if_pos hle, room_eq]

theorem room_lt (r : Region) (offset : UInt32) (maxLength : Option UInt32) :
    r.room offset maxLength < 2 ^ 31 := by
  have := r.length_lt
  rw [room_eq]
  omega

/-! ## Stored bytes -/

theorem store_of_lt {i j : ℕ} (h : j < i) : r.store i b j = r.byte j := if_neg (by omega)

theorem store_of_le {i j : ℕ} (h : i + b.length ≤ j) : r.store i b j = r.byte j := by
  rw [store, if_pos (by omega), List.getElem?_eq_none (by omega), Option.getD_none]

theorem store_nil (r : Region) (i : ℕ) : r.store i [] = r.byte := by
  funext j
  by_cases h : j < i
  · exact store_of_lt h
  · exact store_of_le (Nat.le_of_not_lt h)

theorem store_eq_self (r : Region) {i : ℕ} {x : UInt8} (h : r.byte i = x) :
    r.store i [x] = r.byte := by
  funext j
  by_cases hj : i = j
  · subst hj
    simp [store, h]
  · by_cases hlt : j < i
    · exact store_of_lt hlt
    · exact store_of_le (by rw [List.length_singleton]; omega)

theorem store_add {i k : ℕ} {x : UInt8} (h : b[k]? = some x) : r.store i b (i + k) = x := by
  rw [store, if_pos (by omega), Nat.add_sub_cancel_left, h, Option.getD_some]

end Region

theorem stays_iff_of_ok (hok : r.write h s offset maxLength f = .ok (n, after)) :
    Stays r h f s offset maxLength ↔ ∃ b : Bytes, n = b.length ∧
      f.Encoded (r.room offset maxLength) s b ∧
      (∀ i x, b[i]? = some x → after (offset.toNat + i) = x) ∧
      (∀ p, after p ≠ r.byte p → offset.toNat ≤ p ∧ p < r.windowEnd offset maxLength) ∧
      ∀ p, offset.toNat + b.length < p → after p = r.byte p := by
  rw [Stays, hok]
  constructor
  · rintro (hthrow | ⟨b, after', heq, hrest⟩)
    · cases hthrow
    · obtain ⟨rfl, rfl⟩ := Prod.mk.inj (Except.ok.inj heq)
      exact ⟨b, rfl, hrest⟩
  · rintro ⟨b, rfl, hrest⟩
    exact .inr ⟨b, after, rfl, hrest⟩

/-- A call that stores the encoded prefix, with at most a terminator behind it, keeps to its
window. -/
theorem stays_of_stored
    (hok : r.write h s offset maxLength f = .ok (b.length, r.store offset.toNat (b ++ tail)))
    (hb : f.Encoded (r.room offset maxLength) s b) (htail : tail.length ≤ 1)
    (hroom : (b ++ tail).length ≤ r.room offset maxLength) : Stays r h f s offset maxLength := by
  rw [stays_iff_of_ok hok]
  refine ⟨b, rfl, hb, ?_, ?_, ?_⟩
  · intro i x hx
    apply Region.store_add
    rw [List.getElem?_append_left (List.getElem?_eq_some_iff.mp hx).1, hx]
  · intro p hp
    rw [Region.room] at hroom
    by_cases hlt : p < offset.toNat
    · exact absurd (Region.store_of_lt hlt) hp
    · by_cases hle : offset.toNat + (b ++ tail).length ≤ p
      · exact absurd (Region.store_of_le hle) hp
      · omega
  · intro p hp
    apply Region.store_of_le
    rw [List.length_append]
    omega

theorem stays_of_exact
    (hok : r.write h s offset maxLength f = .ok (b.length, r.store offset.toNat b))
    (hb : f.Encoded (r.room offset maxLength) s b)
    (hroom : b.length ≤ r.room offset maxLength) : Stays r h f s offset maxLength := by
  have hok' : r.write h s offset maxLength f = .ok (b.length, r.store offset.toNat (b ++ [])) := by
    rwa [List.append_nil]
  refine stays_of_stored hok' hb (Nat.zero_le 1) ?_
  rwa [List.append_nil]

theorem not_stays_of_fault (hfault : r.write h s offset maxLength f = .error .fault) :
    ¬Stays r h f s offset maxLength := by
  rw [Stays, hfault]
  rintro (hthrow | ⟨b, after, hok, -⟩)
  · cases hthrow
  · cases hok

/-! ## `Ucs2Write` -/

theorem length_ucs2Bytes (s : JSString) : (ucs2Bytes s).length = 2 * s.length := by
  simp [ucs2Bytes, List.length_flatMap, Nat.mul_comm]

theorem write_ucs2 (h : Heap) (hlt : offset.toNat < r.length) (s : JSString)
    (maxLength : Option UInt32) :
    r.write h s offset maxLength .ucs2 = .ok ((2 * (s.take (r.room offset maxLength)).length : ℕ),
      r.store offset.toNat (ucs2Bytes (s.take (r.room offset maxLength)))) := by
  rw [Region.write, Region.ucs2Write, if_neg (by omega), Region.limit_eq_room (Nat.le_of_lt hlt),
    sizeOfInt_of_lt (r.room_lt offset maxLength)]

theorem stays_ucs2_iff (hlt : offset.toNat < r.length) :
    Stays r h .ucs2 s offset maxLength ↔
      2 * s.length ≤ r.room offset maxLength ∨ r.room offset maxLength = 0 := by
  have hok := write_ucs2 h hlt s maxLength
  constructor
  · intro hs
    obtain ⟨b, hn, rfl, -⟩ := (stays_iff_of_ok hok).mp hs
    rw [length_ucs2Bytes, List.length_take, List.length_take] at hn
    omega
  · intro hroom
    have htake : s.take (r.room offset maxLength) = s.take (r.room offset maxLength / 2) := by
      rw [List.take_eq_take_iff]
      omega
    rw [htake, ← length_ucs2Bytes] at hok
    refine stays_of_exact hok rfl ?_
    rw [length_ucs2Bytes, List.length_take]
    omega

/-! ## `BinaryWrite` -/

theorem length_latin1Bytes (s : JSString) : (latin1Bytes s).length = s.length := List.length_map ..

theorem write_binary (h : Heap) (hlt : offset.toNat < r.length) (s : JSString)
    (maxLength : Option UInt32) :
    r.write h s offset maxLength .binary =
      if ∀ u ∈ s.take (r.length - offset.toNat), u.toNat < 0x100 then
        .ok ((latin1Bytes (s.take (r.length - offset.toNat))).length,
          r.store offset.toNat (latin1Bytes (s.take (r.length - offset.toNat))))
      else .error .fault := by
  have hlen := r.length_lt
  rw [Region.write, Region.binaryWrite, sizeOfInt_of_lt (by omega)]
  rw [if_neg (by omega), Buffer.binaryWrite, Region.left, if_pos (Nat.le_of_lt hlt)]
  split_ifs with hbytes
  · rw [latin1Bytes, List.length_map]
  · rfl

theorem stays_binary_iff (hlt : offset.toNat < r.length) :
    Stays r h .binary s offset maxLength ↔
      min s.length (r.length - offset.toNat) ≤ r.room offset maxLength ∧
        ∀ u ∈ s.take (r.room offset maxLength), u.toNat < 0x100 := by
  have hle : r.room offset maxLength ≤ r.length - offset.toNat := by
    rw [Region.room_eq]
    exact Nat.min_le_left _ _
  have hwrite := write_binary h hlt s maxLength
  constructor
  · intro hs
    by_cases hbytes : ∀ u ∈ s.take (r.length - offset.toNat), u.toNat < 0x100
    · rw [if_pos hbytes] at hwrite
      obtain ⟨b, hn, ⟨hunits, rfl⟩, -⟩ := (stays_iff_of_ok hwrite).mp hs
      rw [length_latin1Bytes, length_latin1Bytes, List.length_take, List.length_take] at hn
      exact ⟨by omega, hunits⟩
    · rw [if_neg hbytes] at hwrite
      exact absurd hs (not_stays_of_fault hwrite)
  · rintro ⟨hmin, hunits⟩
    have htake : s.take (r.length - offset.toNat) = s.take (r.room offset maxLength) := by
      rw [List.take_eq_take_iff]
      omega
    rw [htake, if_pos hunits] at hwrite
    refine stays_of_exact hwrite ⟨hunits, rfl⟩ ?_
    rw [length_latin1Bytes, List.length_take]
    omega

/-! ## `AsciiWrite` -/

/-- As far as the characters have a byte, these are stored. -/
theorem writeAscii_of_latin1 (m : Heap) {s : JSString} :
    ∀ {n : ℕ}, (∀ u ∈ s.take n, u.toNat < 0x100) →
      writeAscii m (min s.length n) (utf8Bytes s) = latin1Bytes (s.take n) := by
  induction s with
  | nil =>
    intro n _
    rw [List.take_nil]
    simp [writeAscii, latin1Bytes]
  | cons u s ih =>
    rintro (_ | n) hunits
    · cases utf8Bytes (u :: s) with
      | nil => simp [writeAscii, latin1Bytes]
      | cons first rest => simp [writeAscii, latin1Bytes]
    · rw [List.take_succ_cons, List.forall_mem_cons] at hunits
      obtain ⟨hu, hunits⟩ := hunits
      have hbyte : asciiByte u = some u.toUInt8 := by rw [asciiByte, if_pos (.inl hu)]
      have hmin : min (u :: s).length (n + 1) = min s.length n + 1 := by
        rw [List.length_cons]
        omega
      rw [utf8Bytes_cons_of_not_surrogate (not_surrogate_of_lt (Nat.lt_trans hu (by decide))), hmin,
        writeAscii_codePointBytes, hbyte, List.take_succ_cons]
      simp only [ih hunits, latin1Bytes, List.map_cons]

theorem write_ascii (h : Heap) (hlt : offset.toNat < r.length) (s : JSString)
    (maxLength : Option UInt32) :
    r.write h s offset maxLength .ascii =
      match Buffer.asciiWrite h s (r.room offset maxLength) with
      | .error e => .error e
      | .ok w => .ok (w.bytesWritten, r.store offset.toNat w.stored) := by
  have hlen := r.length_lt
  rw [Region.write, Region.asciiWrite, sizeOfInt_of_lt (by omega)]
  rw [if_neg (by omega), Region.limit_eq_room (Nat.le_of_lt hlt)]

theorem stays_ascii_iff (hlt : offset.toNat < r.length) :
    Stays r h .ascii s offset maxLength ↔
      WellFormed s = true ∧ ∀ u ∈ s.take (r.room offset maxLength), u.toNat < 0x100 := by
  have hwrite := write_ascii h hlt s maxLength
  rw [Buffer.asciiWrite] at hwrite
  by_cases hw : WellFormed s = true
  · rw [if_pos hw] at hwrite
    constructor
    · intro hs
      obtain ⟨b, -, ⟨hunits, -⟩, -⟩ := (stays_iff_of_ok hwrite).mp hs
      exact ⟨hw, hunits⟩
    · rintro ⟨-, hunits⟩
      have hstored : ¬(latin1Bytes (s.take (r.room offset maxLength))).length <
          min s.length (r.room offset maxLength) := by
        rw [length_latin1Bytes, List.length_take]
        omega
      simp only [writeAscii_of_latin1 h hunits, if_neg hstored, List.append_nil] at hwrite
      refine stays_of_exact hwrite ⟨hunits, rfl⟩ ?_
      rw [length_latin1Bytes, List.length_take]
      omega
  · rw [if_neg hw] at hwrite
    exact iff_of_false (not_stays_of_fault hwrite) fun hs ↦ hw hs.1

/-! ## `Utf8Write` -/

theorem write_utf8 (h : Heap) (hlt : offset.toNat < r.length) (s : JSString)
    (maxLength : Option UInt32) :
    ∃ m : Heap, (∀ i, m.beyond i = r.byte (offset.toNat + r.room offset maxLength + i)) ∧
      r.write h s offset maxLength .utf8 =
        .ok ((Buffer.utf8Write m s (r.room offset maxLength)).bytesWritten,
          r.store offset.toNat (Buffer.utf8Write m s (r.room offset maxLength)).stored) := by
  rw [Region.write, Region.utf8Write, if_neg (by omega), Region.limit_eq_room (Nat.le_of_lt hlt),
    sizeOfInt_of_lt (r.room_lt offset maxLength)]
  exact ⟨_, fun _ ↦ rfl, rfl⟩

/-- One byte is one character of ASCII. -/
theorem exists_ascii_of_length {t : JSString} (hw : WellFormed t = true)
    (hlen : (utf8Bytes t).length = 1) : ∃ u : UInt16, t = [u] ∧ u.toNat < 0x80 := by
  rcases t with _ | ⟨u, _ | ⟨v, rest⟩⟩
  · simp at hlen
  · refine ⟨u, rfl, ?_⟩
    rw [WellFormed, Bool.not_eq_true'] at hw
    rw [utf8Bytes_single hw] at hlen
    by_contra hu
    rw [codePointBytes, if_neg hu] at hlen
    split_ifs at hlen with h₁ h₂
    · simp at hlen
    · simp at hlen
    · simp at hlen
  · exfalso
    by_cases hp : (isHigh u && isLow v) = true
    · have hpair : ¬pairCodePoint u v < 0x10000 := by
        rw [pairCodePoint]
        omega
      rw [utf8Bytes, if_pos hp, List.length_append, codePointBytes, if_neg (by omega),
        if_neg (by omega), if_neg hpair] at hlen
      simp only [List.length_cons, List.length_nil] at hlen
      omega
    · rw [WellFormed, if_neg hp, Bool.and_eq_true, Bool.not_eq_true'] at hw
      have hu := length_codePointBytes_pos u.toNat
      have hrest := length_utf8Bytes_pos hw.2 (List.cons_ne_nil v rest)
      rw [utf8Bytes_cons_of_not_surrogate hw.1, List.length_append] at hlen
      omega

theorem wellFormed_of_append_single {t : JSString} {u : UInt16}
    (hu : (isHigh u || isLow u) = false) (hw : WellFormed (t ++ [u]) = true) :
    WellFormed t = true := by
  rw [Bool.or_eq_false_iff] at hu
  fun_induction WellFormed t with
  | case1 => rfl
  | case2 v => simpa [WellFormed, hu] using hw
  | case3 v w rest hp ih => exact ih (by simpa [WellFormed, hp] using hw)
  | case4 v w rest hp ih =>
    rw [List.cons_append, List.cons_append, WellFormed, if_neg hp, Bool.and_eq_true] at hw
    rw [Bool.and_eq_true]
    exact ⟨hw.1, ih hw.2⟩

/-- A string that is one byte too long fills the space if its last character is that byte. -/
theorem length_deflate_of_over {room : ℕ} (hw : WellFormed s = true)
    (hlen : (utf8Bytes s).length = room + 1) :
    (deflate room s).length = room ↔ ∃ u ∈ s.getLast?, u.toNat < 0x80 := by
  have hlongest := isLongest_deflate room s
  constructor
  · intro hroom
    obtain ⟨n, ⟨⟨-, htake, -⟩, -⟩, hstored⟩ := hlongest
    have hsplit := utf8Bytes_append (splits_of_wellFormed htake (s.drop n))
    have hdrop := wellFormed_append (b := s.drop n) htake
    rw [List.take_append_drop] at hsplit hdrop
    rw [hsplit, List.length_append, ← hstored, hroom] at hlen
    obtain ⟨u, hrest, hu⟩ := exists_ascii_of_length (hdrop.symm.trans hw) (by omega)
    refine ⟨u, ?_, hu⟩
    rw [← List.take_append_drop n s, hrest, List.getLast?_concat]
    rfl
  · rintro ⟨u, hlast, hu⟩
    obtain ⟨t, rfl⟩ : ∃ t, s = t ++ [u] :=
      ⟨s.dropLast, (List.dropLast_append_getLast? u hlast).symm⟩
    have hlow := not_surrogate_of_lt (Nat.lt_trans hu (by decide))
    have ht := wellFormed_of_append_single hlow hw
    have hroom : (utf8Bytes t).length = room := by
      rw [utf8Bytes_append (splits_of_wellFormed ht [u]), List.length_append,
        utf8Bytes_single hlow, codePointBytes_of_lt hu] at hlen
      simpa using hlen
    have ht' : IsLongest room (t ++ [u]) (utf8Bytes t) := by
      refine ⟨t.length, ⟨⟨?_, ?_, ?_⟩, fun k hk ↦ ?_⟩, ?_⟩
      · simp
      · rwa [List.take_left]
      · rw [List.take_left]
        exact Nat.le_of_eq hroom
      · -- the whole string does not fit
        by_contra hlt
        obtain ⟨hle, -, hfits⟩ := hk
        rw [List.length_append, List.length_singleton] at hle
        rw [List.take_of_length_le (by rw [List.length_append, List.length_singleton]; omega),
          hlen] at hfits
        omega
      · rw [List.take_left]
    rw [hlongest.unique ht', hroom]

/-- A string that fills the window loses a final `NUL`. -/
theorem stays_utf8_iff_of_full (hlt : offset.toNat < r.length) (hw : WellFormed s = true)
    (hfull : (utf8Bytes s).length = r.room offset maxLength) :
    Stays r h .utf8 s offset maxLength ↔ s.getLast? ≠ some 0 := by
  obtain ⟨m, -, hwrite⟩ := write_utf8 h hlt s maxLength
  rw [utf8Write_of_full m hw hfull] at hwrite
  have hlongest := isLongest_utf8Bytes hw (Nat.le_of_eq hfull)
  rw [ne_eq, ← getLast?_utf8Bytes hw, ← ne_eq, ← dropNul_eq_iff]
  constructor
  · intro hs
    obtain ⟨b, hn, hb, -⟩ := (stays_iff_of_ok hwrite).mp hs
    rw [← hlongest.unique hb] at hn
    exact Int.natCast_inj.mp hn
  · intro hlen
    rw [hlen] at hwrite
    exact stays_of_exact hwrite hlongest (Nat.le_of_eq hfull)

/-- A string that does not fit is reported as if it did, unless the byte behind the window is taken
for the end of a string that is one byte too long. -/
theorem stays_utf8_iff_of_over (hlt : offset.toNat < r.length) (hw : WellFormed s = true)
    (hover : r.room offset maxLength < (utf8Bytes s).length) :
    Stays r h .utf8 s offset maxLength ↔
      (utf8Bytes s).length = r.room offset maxLength + 1 ∧ (∃ u ∈ s.getLast?, u.toNat < 0x80) ∧
        r.byte (offset.toNat + r.room offset maxLength) = 0 := by
  obtain ⟨m, hm, hwrite⟩ := write_utf8 h hlt s maxLength
  rw [utf8Write_of_over m hw hover] at hwrite
  dsimp only at hwrite
  have hlongest := isLongest_deflate (r.room offset maxLength) s
  have hle := length_deflate_le (r.room offset maxLength) s
  constructor
  · intro hs
    obtain ⟨b, hn, hb, -⟩ := (stays_iff_of_ok hwrite).mp hs
    rw [← hlongest.unique hb] at hn
    -- the number that is reported can only be right without the last byte
    split_ifs at hn with hzero
    · have hlen : (utf8Bytes s).length = r.room offset maxLength + 1 := by omega
      refine ⟨hlen, ?_, ?_⟩
      · rw [← length_deflate_of_over hw hlen]
        omega
      · rwa [hlen, hm, Nat.add_sub_cancel, Nat.sub_self, Nat.add_zero] at hzero
    · omega
  · rintro ⟨hlen, hlast, hzero⟩
    have hall := (length_deflate_of_over hw hlen).mpr hlast
    have hbeyond : m.beyond ((utf8Bytes s).length - 1 - r.room offset maxLength) = 0 := by
      rw [hlen, hm, Nat.add_sub_cancel, Nat.sub_self, Nat.add_zero, hzero]
    have hcount : ((r.room offset maxLength + 1 : ℕ) : ℤ) - 1 = r.room offset maxLength := by omega
    refine stays_of_exact ?_ hlongest hle
    rw [hwrite, if_pos hbeyond, hlen, hall, hcount, Nat.sub_self, List.replicate_zero,
      List.append_nil]

theorem stays_utf8_iff (hlt : offset.toNat < r.length) :
    Stays r h .utf8 s offset maxLength ↔ WellFormed s = true ∧
      ((utf8Bytes s).length < r.room offset maxLength ∨
        (utf8Bytes s).length = r.room offset maxLength ∧ s.getLast? ≠ some 0 ∨
        (utf8Bytes s).length = r.room offset maxLength + 1 ∧ (∃ u ∈ s.getLast?, u.toNat < 0x80) ∧
          r.byte (offset.toNat + r.room offset maxLength) = 0) := by
  obtain ⟨m, -, hwrite⟩ := write_utf8 h hlt s maxLength
  by_cases hw : WellFormed s = true
  · rcases Nat.lt_trichotomy (utf8Bytes s).length (r.room offset maxLength) with
      hspare | hfull | hover
    · rw [utf8Write_of_spare m hw hspare] at hwrite
      refine iff_of_true (stays_of_stored hwrite ?_ (Nat.le_refl 1) ?_) ⟨hw, .inl hspare⟩
      · exact isLongest_utf8Bytes hw (Nat.le_of_lt hspare)
      · rw [List.length_append, List.length_singleton]
        omega
    · rw [stays_utf8_iff_of_full hlt hw hfull]
      constructor
      · exact fun hlast ↦ ⟨hw, .inr (.inl ⟨hfull, hlast⟩)⟩
      · rintro ⟨-, hspare | ⟨-, hlast⟩ | ⟨hover, -⟩⟩
        · omega
        · exact hlast
        · omega
    · rw [stays_utf8_iff_of_over hlt hw hover]
      constructor
      · exact fun hlast ↦ ⟨hw, .inr (.inr hlast)⟩
      · rintro ⟨-, hspare | ⟨hfull, -⟩ | hlast⟩
        · omega
        · omega
        · exact hlast
  · rw [utf8Write_of_not_wellFormed m _ hw] at hwrite
    refine iff_of_false (fun hs ↦ ?_) fun hs ↦ hw hs.1
    obtain ⟨b, hn, -⟩ := (stays_iff_of_ok hwrite).mp hs
    change (-1 : ℤ) = b.length at hn
    omega

/-! ## Empty strings -/

theorem write_nil_eq (r : Region) (h : Heap) (offset : UInt32) (maxLength : Option UInt32)
    (hf : f ≠ .utf8) : r.write h [] offset maxLength f = .ok (0, r.byte) := by
  cases f with
  | utf8 => exact absurd rfl hf
  | ucs2 => simp [Region.write, Region.ucs2Write, ucs2Bytes, Region.store_nil]
  | ascii => simp [Region.write, Region.asciiWrite, Buffer.asciiWrite, writeAscii, Region.store_nil]
  | binary =>
    simp [Region.write, Region.binaryWrite, Buffer.binaryWrite, latin1Bytes, Region.store_nil]

theorem stays_nil (hf : f ≠ .utf8) : Stays r h f [] offset maxLength := by
  have hwrite := write_nil_eq r h offset maxLength hf
  rw [← r.store_nil offset.toNat] at hwrite
  refine stays_of_exact (b := []) hwrite ?_ (Nat.zero_le _)
  cases f with
  | utf8 => exact absurd rfl hf
  | ucs2 => simp [WriteFunction.Encoded, ucs2Bytes]
  | ascii | binary => simp [WriteFunction.Encoded, latin1Bytes]

theorem safeWithin_nil (hf : f ≠ .utf8) : SafeWithin r f [] offset maxLength := by
  cases f with
  | utf8 => exact absurd rfl hf
  | ucs2 => exact .inl (Nat.zero_le _)
  | ascii => simp [SafeWithin]
  | binary => simp [SafeWithin]

theorem sizeOfInt_limit_eq_zero_iff (hgt : r.length < offset.toNat) :
    sizeOfInt (r.limit offset.toNat maxLength) = 0 ↔ maxLength = some 0 := by
  have hlen := r.length_lt
  have hoffset : offset.toNat < 2 ^ 32 := offset.toNat_lt
  rw [Region.limit, Region.left, if_neg (by omega), sizeOfInt]
  cases maxLength with
  | none =>
    -- the difference is no multiple of `2 ^ 32`
    rw [Option.elim_none, Nat.min_self]
    refine iff_of_false ?_ (by simp)
    split_ifs
    · omega
    · omega
  | some k =>
    have hk : k.toNat < 2 ^ 32 := k.toNat_lt
    rw [Option.elim_some, Nat.min_eq_right (by omega), Nat.mod_eq_of_lt hk, Option.some_inj,
      ← UInt32.toNat_inj, UInt32.toNat_zero]
    split_ifs
    · rfl
    · omega

/-- In UTF-8 there is a terminator for an empty string, wherever the offset is. -/
theorem write_utf8_nil (r : Region) (h : Heap) (offset : UInt32) (maxLength : Option UInt32) :
    r.write h [] offset maxLength .utf8 = .ok (0, r.store offset.toNat
      (if 0 < sizeOfInt (r.limit offset.toNat maxLength) then [0] else [])) := by
  rw [Region.write, Region.utf8Write, if_neg (by simp)]
  dsimp only
  by_cases hpos : 0 < sizeOfInt (r.limit offset.toNat maxLength)
  · rw [if_pos hpos, utf8Write_of_spare _ wellFormed_nil hpos]
    rfl
  · rw [if_neg hpos, utf8Write_of_full _ wellFormed_nil (Nat.eq_zero_of_not_pos hpos).symm]
    rfl

theorem stays_utf8_nil_iff :
    Stays r h .utf8 [] offset maxLength ↔
      offset.toNat ≤ r.length ∨ maxLength = some 0 ∨ r.byte offset.toNat = 0 := by
  have hnil : WriteFunction.utf8.Encoded (r.room offset maxLength) [] [] :=
    isLongest_utf8Bytes wellFormed_nil (Nat.zero_le _)
  have hwrite := write_utf8_nil r h offset maxLength
  by_cases hle : offset.toNat ≤ r.length
  · refine iff_of_true ?_ (.inl hle)
    rw [Region.limit_eq_room hle, sizeOfInt_of_lt (r.room_lt offset maxLength)] at hwrite
    by_cases hpos : 0 < r.room offset maxLength
    · rw [if_pos hpos] at hwrite
      exact stays_of_stored (b := []) hwrite hnil (Nat.le_refl 1) hpos
    · rw [if_neg hpos] at hwrite
      exact stays_of_exact (b := []) hwrite hnil (Nat.zero_le _)
  · have hzero : sizeOfInt (r.limit offset.toNat maxLength) = 0 ↔ maxLength = some 0 :=
      sizeOfInt_limit_eq_zero_iff (Nat.lt_of_not_le hle)
    by_cases hpos : 0 < sizeOfInt (r.limit offset.toNat maxLength)
    · rw [if_pos hpos] at hwrite
      constructor
      · intro hs
        obtain ⟨b, -, -, -, hframe, -⟩ := (stays_iff_of_ok hwrite).mp hs
        refine .inr (.inr ?_)
        by_contra hbyte
        -- the terminator is stored behind the end of the array
        have hstored : r.store offset.toNat [0] (offset.toNat + 0) = 0 := Region.store_add rfl
        rw [Nat.add_zero] at hstored
        have hend := (hframe offset.toNat (by rwa [hstored, ne_comm])).2
        have hwindow := r.windowEnd_le offset maxLength
        omega
      · rintro (h₁ | h₁ | h₁)
        · exact absurd h₁ hle
        · exact absurd (hzero.mpr h₁) (Nat.ne_of_gt hpos)
        · rw [r.store_eq_self h₁, ← r.store_nil offset.toNat] at hwrite
          exact stays_of_exact (b := []) hwrite hnil (Nat.zero_le _)
    · rw [if_neg hpos] at hwrite
      refine iff_of_true (stays_of_exact (b := []) hwrite hnil (Nat.zero_le _)) ?_
      exact .inr (.inl (hzero.mp (Nat.eq_zero_of_not_pos hpos)))

/-! ## Every call -/

/-- The offset of a string that is not empty is checked. -/
theorem write_of_out_of_bounds (h : Heap) (f : WriteFunction) (maxLength : Option UInt32)
    (hs : s ≠ []) (hle : r.length ≤ offset.toNat) :
    r.write h s offset maxLength f = .error .typeError := by
  have hpos := List.length_pos_iff.mpr hs
  have hsigned : r.length ≤ sizeOfInt offset.toNat := by
    have hlen := r.length_lt
    by_cases hlt : offset.toNat < 2 ^ 31
    · rwa [sizeOfInt_of_lt hlt]
    · have := le_sizeOfInt (Nat.le_of_not_lt hlt) offset.toNat_lt
      omega
  cases f with
  | utf8 => exact if_pos ⟨hpos, hle⟩
  | ucs2 => exact if_pos ⟨hpos, hle⟩
  | ascii => exact if_pos ⟨hpos, hsigned⟩
  | binary => exact if_pos ⟨hpos, hsigned⟩

/-- A call keeps to its window exactly when it is safe. -/
theorem stays_iff (r : Region) (h : Heap) (f : WriteFunction) (s : JSString) (offset : UInt32)
    (maxLength : Option UInt32) : Stays r h f s offset maxLength ↔ Safe r f s offset maxLength := by
  by_cases hthrow : s ≠ [] ∧ r.length ≤ offset.toNat
  · exact iff_of_true (.inl (write_of_out_of_bounds h f maxLength hthrow.1 hthrow.2)) (.inl hthrow)
  · rw [Safe, or_iff_right hthrow]
    by_cases hs : s = []
    · subst hs
      by_cases hf : f = .utf8
      · subst hf
        rw [stays_utf8_nil_iff, SafeWithin, if_pos rfl]
      · exact iff_of_true (stays_nil hf) (safeWithin_nil hf)
    · have hlt : offset.toNat < r.length := Nat.lt_of_not_le fun hle ↦ hthrow ⟨hs, hle⟩
      cases f with
      | utf8 => rw [stays_utf8_iff hlt, SafeWithin, if_neg hs]
      | ucs2 => exact stays_ucs2_iff hlt
      | ascii => exact stays_ascii_iff hlt
      | binary => exact stays_binary_iff hlt

/-- An array of four bytes, with others behind it. -/
def fourBytes : Region := ⟨4, by decide, fun _ ↦ 1⟩

/-- An empty string is terminated behind the end of the array. In two bytes, `"abc"` is reported to
take three, and `"ab"` does take four as code units and two in binary when there is to be one. A
character that ASCII does not have is not stored, but the one behind it is. -/
theorem calls_leave_window :
    ¬Stays fourBytes ⟨fun _ ↦ 1, 0, 0, 0⟩ .utf8 [] 5 none ∧
      ¬Stays fourBytes ⟨fun _ ↦ 1, 0, 0, 0⟩ .utf8 (js "abc") 0 (some 2) ∧
      ¬Stays fourBytes ⟨fun _ ↦ 1, 0, 0, 0⟩ .ucs2 (js "ab") 0 (some 2) ∧
      ¬Stays fourBytes ⟨fun _ ↦ 1, 0, 0, 0⟩ .ascii [0x100, 0x61] 0 none ∧
      ¬Stays fourBytes ⟨fun _ ↦ 1, 0, 0, 0⟩ .binary (js "ab") 0 (some 1) := by
  have hlt : (0 : UInt32).toNat < fourBytes.length := by decide
  refine ⟨?_, ?_, ?_, ?_, ?_⟩
  · rw [stays_utf8_nil_iff]
    decide
  · rw [stays_utf8_iff hlt]
    rintro ⟨-, hspare | ⟨hfull, -⟩ | ⟨-, -, hzero⟩⟩
    · exact absurd hspare (by decide)
    · exact absurd hfull (by decide)
    · exact absurd hzero (by decide)
  · rw [stays_ucs2_iff hlt]
    decide
  · rw [stays_ascii_iff hlt]
    decide
  · rw [stays_binary_iff hlt]
    decide

end SpiderNode.Buffer
