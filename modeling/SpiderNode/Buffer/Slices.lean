import SpiderNode.Buffer.Base64

/-!
# The native slices

The functions of `src/node_buffer.cc` that make a string of a range of a typed array. Each of them
adds `start` to the address of the array. For `Ucs2Slice` that address is one of code units, so the
bytes are taken from twice the distance; `Base64Slice` adds `start` twice, since its index begins
there too. What lies behind the end of the array is then read as well.

`decodesRange_iff` says for which ranges this makes no difference.
-/

namespace SpiderNode.Buffer

open Net (JsError)

/-- The functions that make a string of a range. -/
inductive SliceFunction where
  | binary
  | ascii
  | utf8
  | base64
  | ucs2
  deriving DecidableEq, Repr

/-- Code units in memory, the lower half of each first. -/
def units : Bytes → JSString
  | lo :: hi :: rest => .ofNat (lo.toNat + 0x100 * hi.toNat) :: units rest
  | _ => []

/-- `String::New(data, length)`; it has no string for bytes that are not UTF-8. Which of three
errors the engine then reports depends on the bytes alone, so they are not told apart. -/
def newString (b : Bytes) : Except JsError JSString :=
  match utf8Decode b with
  | some s => jsNewString s
  | none => .error .typeError

variable (m : Heap) (arr : TypedArray) (start stop : ℕ)

/-- `BinarySlice`, behind `SLICE_ARGS`. -/
def binarySliceText : Except JsError JSString :=
  jsNewString ((bytesFrom (arr.byteAt m) start (stop - start)).map fun x ↦ .ofNat x.toNat)

/-- `AsciiSlice` and `Utf8Slice`, behind `SLICE_ARGS`. -/
def utf8SliceText : Except JsError JSString :=
  newString (bytesFrom (arr.byteAt m) start (stop - start))

/-- `Ucs2Slice`, behind `SLICE_ARGS`: `start` counts code units. -/
def ucs2SliceText : Except JsError JSString :=
  jsNewString (units (bytesFrom (arr.byteAt m) (2 * start) (2 * ((stop - start) / 2))))

namespace SliceFunction

/-- The function, behind `SLICE_ARGS`. -/
def text : SliceFunction → Except JsError JSString
  | binary => binarySliceText m arr start stop
  | ascii | utf8 => utf8SliceText m arr start stop
  | base64 => base64SliceText m arr start stop
  | ucs2 => ucs2SliceText m arr start stop

end SliceFunction

/-- `BinarySlice`, `AsciiSlice`, `Utf8Slice`, `Base64Slice` and `Ucs2Slice`. -/
def slice (f : SliceFunction) (start stop : ℤ) : Except JsError JSString :=
  match sliceArgs arr start stop with
  | .ok (start, stop) => f.text m arr start stop
  | .error e => .error e

/-- What the function makes of a range depends on the bytes of the range only: it is what it makes
of a new array that holds just these. -/
def DecodesRange (f : SliceFunction) (length start stop : ℕ) : Prop :=
  ∀ (m m' : Heap) (arr fresh : TypedArray), arr.length = length →
    fresh.bytes = (arr.bytes.drop start).take (stop - start) →
    slice m arr f start stop = slice m' fresh f 0 (stop - start : ℕ)

/-- The function begins at the beginning of the range, or there is nothing to decode, or the engine
has no string of that length, whatever the bytes are. -/
def BeginsThere (f : SliceFunction) (start stop : ℕ) : Prop :=
  match f with
  | .binary | .ascii | .utf8 => True
  | .base64 => start = 0 ∨ start = stop ∨ maxStringLength < 4 * ((stop - start + 2) / 3)
  | .ucs2 => start = 0 ∨ stop - start < 2 ∨ maxStringLength < (stop - start) / 2

instance (f : SliceFunction) : Decidable (BeginsThere f start stop) :=
  match f with
  | .binary | .ascii | .utf8 => inferInstanceAs (Decidable True)
  | .base64 => inferInstanceAs (Decidable (_ ∨ _))
  | .ucs2 => inferInstanceAs (Decidable (_ ∨ _))

variable {m arr start stop} {f : SliceFunction} {n : ℕ}

/-! ## Ranges of bytes -/

theorem bytesFrom_byteAt (m : Heap) (h : start + n ≤ arr.length) :
    bytesFrom (arr.byteAt m) start n = (arr.bytes.drop start).take n := by
  apply List.ext_getElem
  · rw [length_bytesFrom, List.length_take, List.length_drop]
    change n = min n (arr.length - start)
    omega
  · intro k hk hk'
    rw [length_bytesFrom] at hk
    have hlt : start + k < arr.length := by omega
    simp only [bytesFrom, List.getElem_map, List.getElem_range, TypedArray.byteAt, if_pos hlt,
      List.getElem_take, List.getElem_drop]
    exact List.getD_eq_getElem _ _ hlt

theorem bytesFrom_eq_iff {data data' : ℕ → UInt8} {i j : ℕ} :
    bytesFrom data i n = bytesFrom data' j n ↔ ∀ k < n, data (i + k) = data' (j + k) := by
  rw [bytesFrom, bytesFrom, List.map_inj_left]
  exact forall_congr' fun k ↦ by rw [List.mem_range]

theorem units_injective {b b' : Bytes} (hlen : b.length = b'.length) (heven : b.length % 2 = 0)
    (h : units b = units b') : b = b' := by
  fun_induction units b generalizing b' with
  | case1 lo hi rest ih =>
    rcases b' with _ | ⟨lo', _ | ⟨hi', rest'⟩⟩
    · cases hlen
    · simp only [List.length_cons, List.length_nil] at hlen
      omega
    · rw [units] at h
      obtain ⟨hunit, hrest⟩ := List.cons.inj h
      have hlo := lo.toNat_lt
      have hhi := hi.toNat_lt
      have hlo' := lo'.toNat_lt
      have hhi' := hi'.toNat_lt
      have hnat := congrArg UInt16.toNat hunit
      rw [UInt16.toNat_ofNat', UInt16.toNat_ofNat'] at hnat
      simp only [List.length_cons] at hlen heven
      rw [ih (by omega) (by omega) hrest, UInt8.toNat_inj.mp (show lo.toNat = lo'.toNat by omega),
        UInt8.toNat_inj.mp (show hi.toNat = hi'.toNat by omega)]
  | case2 b hb =>
    -- a single byte would be an odd number of them
    rcases b with _ | ⟨lo, _ | ⟨hi, rest⟩⟩
    · exact (List.length_eq_zero_iff.mp hlen.symm).symm
    · simp at heven
    · exact absurd rfl (hb lo hi rest)

/-! ## Functions -/

/-- The address that the function takes for the beginning of the range. -/
def SliceFunction.address (start : ℕ) : SliceFunction → ℕ
  | .binary | .ascii | .utf8 => start
  | .base64 | .ucs2 => 2 * start

/-- The number of bytes it decodes. -/
def SliceFunction.count (n : ℕ) : SliceFunction → ℕ
  | .ucs2 => 2 * (n / 2)
  | _ => n

/-- What it makes of bytes. -/
def SliceFunction.decode (b : Bytes) : SliceFunction → Except JsError JSString
  | .binary => jsNewString (b.map fun x ↦ .ofNat x.toNat)
  | .ascii | .utf8 => newString b
  | .base64 => base64Text b
  | .ucs2 => jsNewString (units b)

theorem count_le (f : SliceFunction) (n : ℕ) : f.count n ≤ n := by
  cases f with
  | ucs2 => exact Nat.mul_div_le n 2
  | binary | ascii | utf8 | base64 => exact Nat.le_refl n

theorem text_eq (f : SliceFunction) (m : Heap) (arr : TypedArray) (start stop : ℕ) :
    f.text m arr start stop =
      f.decode (bytesFrom (arr.byteAt m) (f.address start) (f.count (stop - start))) := by
  cases f with
  | binary | ascii | utf8 | ucs2 => rfl
  | base64 =>
    rw [SliceFunction.text, base64SliceText_eq]
    have haddress : bytesFrom (fun i ↦ arr.byteAt m (start + i)) start (stop - start) =
        bytesFrom (arr.byteAt m) (2 * start) (stop - start) := by
      refine List.map_congr_left fun k _ ↦ congrArg (arr.byteAt m) ?_
      omega
    rw [haddress]
    rfl

theorem slice_eq (f : SliceFunction) (m : Heap) (h : start ≤ stop) (h' : stop ≤ arr.length) :
    slice m arr f start stop =
      f.decode (bytesFrom (arr.byteAt m) (f.address start) (f.count (stop - start))) := by
  rw [slice, sliceArgs_of_le h h']
  exact text_eq f m arr start stop

/-- On a new array the function decodes what is there. -/
theorem slice_zero (f : SliceFunction) (m : Heap) (h : arr.length = n) :
    slice m arr f 0 n = f.decode (arr.bytes.take (f.count n)) := by
  have haddress : f.address 0 = 0 := by cases f <;> rfl
  have hslice := slice_eq f m (Nat.zero_le n) (Nat.le_of_eq h.symm)
  rw [Nat.sub_zero, haddress, bytesFrom_byteAt m (by have := count_le f n; omega)] at hslice
  exact hslice

theorem decodesRange_iff_decode {length : ℕ} (h : start ≤ stop) (h' : stop ≤ length) :
    DecodesRange f length start stop ↔ ∀ (m : Heap) (arr : TypedArray), arr.length = length →
      f.decode (bytesFrom (arr.byteAt m) (f.address start) (f.count (stop - start))) =
        f.decode ((arr.bytes.drop start).take (f.count (stop - start))) := by
  have hnew : ∀ (m' : Heap) (arr fresh : TypedArray), arr.length = length →
      fresh.bytes = (arr.bytes.drop start).take (stop - start) →
      slice m' fresh f 0 (stop - start : ℕ) =
        f.decode ((arr.bytes.drop start).take (f.count (stop - start))) := by
    intro m' arr fresh harr hfresh
    have hlen : fresh.length = stop - start := by
      rw [TypedArray.length, hfresh, List.length_take, List.length_drop]
      change min (stop - start) (arr.length - start) = _
      omega
    rw [slice_zero f m' hlen, hfresh, List.take_take, Nat.min_eq_left (count_le f _)]
  constructor
  · intro hr m arr harr
    have hlt : ((arr.bytes.drop start).take (stop - start)).length < 2 ^ 31 := by
      have := arr.length_lt
      rw [List.length_take, List.length_drop]
      omega
    have heq := hr m m arr ⟨_, hlt⟩ harr rfl
    rwa [slice_eq f m h (harr ▸ h'), hnew m arr ⟨_, hlt⟩ harr rfl] at heq
  · intro hd m m' arr fresh harr hfresh
    rw [slice_eq f m h (harr ▸ h'), hd m arr harr, hnew m' arr fresh harr hfresh]

theorem jsNewString_of_le {s : JSString} (h : s.length ≤ maxStringLength) :
    jsNewString s = .ok s :=
  if_pos h

theorem length_units (b : Bytes) : (units b).length = b.length / 2 := by
  fun_induction units b with
  | case1 lo hi rest ih =>
    rw [List.length_cons, ih, List.length_cons, List.length_cons]
    omega
  | case2 b hb =>
    rcases b with _ | ⟨lo, _ | ⟨hi, rest⟩⟩
    · rfl
    · rw [List.length_singleton]
      rfl
    · exact absurd rfl (hb lo hi rest)

/-- Two sequences that the function cannot tell apart, of which there are strings. -/
theorem decode_injective_base64 {b b' : Bytes} (hlen : b.length = n) (hlen' : b'.length = n)
    (hfits : 4 * ((n + 2) / 3) ≤ maxStringLength)
    (h : SliceFunction.base64.decode b = SliceFunction.base64.decode b') : b = b' := by
  rw [SliceFunction.decode, SliceFunction.decode, base64Text_of_le (hlen.symm ▸ hfits),
    base64Text_of_le (hlen'.symm ▸ hfits)] at h
  have henc := congrArg latin1Bytes (Except.ok.inj h)
  rw [latin1Bytes_asciiText, latin1Bytes_asciiText] at henc
  exact encode_injective henc

theorem decode_injective_ucs2 {b b' : Bytes} (hlen : b.length = 2 * n) (hlen' : b'.length = 2 * n)
    (hfits : n ≤ maxStringLength)
    (h : SliceFunction.ucs2.decode b = SliceFunction.ucs2.decode b') : b = b' := by
  rw [SliceFunction.decode, SliceFunction.decode,
    jsNewString_of_le (by rw [length_units, hlen]; omega),
    jsNewString_of_le (by rw [length_units, hlen']; omega)] at h
  exact units_injective (hlen.trans hlen'.symm) (by omega) (Except.ok.inj h)

/-- Where there is no string, two sequences of the same length have the same error. -/
theorem decode_eq_base64 {b b' : Bytes} (hlen : b.length = n) (hlen' : b'.length = n)
    (hlong : maxStringLength < 4 * ((n + 2) / 3)) :
    SliceFunction.base64.decode b = SliceFunction.base64.decode b' := by
  rw [SliceFunction.decode, SliceFunction.decode, base64Text_of_lt (hlen.symm ▸ hlong),
    base64Text_of_lt (hlen'.symm ▸ hlong), hlen, hlen']

theorem decode_eq_ucs2 {b b' : Bytes} (hlen : b.length = 2 * n) (hlen' : b'.length = 2 * n)
    (hlong : maxStringLength < n) :
    SliceFunction.ucs2.decode b = SliceFunction.ucs2.decode b' := by
  rw [SliceFunction.decode, SliceFunction.decode, jsNewString, jsNewString, length_units,
    length_units, hlen, hlen', if_neg (by omega), if_neg (by omega)]

/-! ## Ranges -/

/-- An array whose bytes differ from `k` on from those before, as what is behind it does. -/
def stepArray (k length : ℕ) (h : length < 2 ^ 31) : TypedArray where
  bytes := (List.range length).map fun j ↦ if j < k then 0 else 1
  length_lt := by rwa [List.length_map, List.length_range]

def stepHeap : Heap where
  beyond := fun _ ↦ 1
  behindCopy := 0
  charsWritten := 0
  slack := 0

theorem length_stepArray {k length : ℕ} (h : length < 2 ^ 31) :
    (stepArray k length h).length = length := by
  rw [TypedArray.length, stepArray, List.length_map, List.length_range]

theorem byteAt_stepArray {k length i : ℕ} (h : length < 2 ^ 31) (hk : k ≤ length) :
    (stepArray k length h).byteAt stepHeap i = if i < k then 0 else 1 := by
  rw [TypedArray.byteAt, length_stepArray]
  by_cases hi : i < length
  · rw [if_pos hi, stepArray, List.getD_eq_getElem _ _ (by simpa using hi)]
    simp
  · rw [if_neg hi, if_neg (by omega)]
    rfl

/-- The last byte that the function decodes is beyond the range when `start` is counted twice. -/
theorem beginsThere_of_decodesRange (h : start ≤ stop) (h' : stop ≤ arr.length)
    (hr : DecodesRange f arr.length start stop) : BeginsThere f start stop := by
  by_contra hf
  have hf' : f.address start = 2 * start ∧ 0 < start ∧ 0 < f.count (stop - start) ∧
      ∀ b b' : Bytes, b.length = f.count (stop - start) → b'.length = f.count (stop - start) →
        f.decode b = f.decode b' → b = b' := by
    cases f with
    | binary | ascii | utf8 => exact absurd trivial hf
    | base64 =>
      simp only [BeginsThere, not_or] at hf
      exact ⟨rfl, by omega, show 0 < stop - start by omega,
        fun b b' hlen hlen' ↦ decode_injective_base64 hlen hlen' (Nat.not_lt.mp hf.2.2)⟩
    | ucs2 =>
      simp only [BeginsThere, not_or] at hf
      exact ⟨rfl, by omega, show 0 < 2 * ((stop - start) / 2) by omega,
        fun b b' hlen hlen' ↦ decode_injective_ucs2 hlen hlen' (by omega)⟩
  obtain ⟨haddress, hstart, hcount, hinjective⟩ := hf'
  have hle := count_le f (stop - start)
  let k := start + f.count (stop - start)
  have hk : k ≤ arr.length := by omega
  -- an array whose bytes are other ones from the end of the decoded range on
  let probe := stepArray k arr.length arr.length_lt
  have hprobe : probe.length = arr.length := length_stepArray arr.length_lt
  have heq := (decodesRange_iff_decode h h').mp hr stepHeap probe hprobe
  rw [haddress, ← bytesFrom_byteAt stepHeap (show k ≤ probe.length from hprobe ▸ hk)] at heq
  have hbytes := hinjective _ _ (length_bytesFrom _ _ _) (length_bytesFrom _ _ _) heq
  have hlast := (bytesFrom_eq_iff.mp hbytes) (f.count (stop - start) - 1) (by omega)
  have hbyte (i : ℕ) : probe.byteAt stepHeap i = if i < k then 0 else 1 :=
    byteAt_stepArray arr.length_lt hk
  rw [hbyte, hbyte, if_neg (by omega), if_pos (by omega)] at hlast
  exact absurd hlast (by decide)

/-- The string that a function makes of a range is that of the bytes of the range, whatever the
array is and whatever is behind it, exactly when the function begins there. -/
theorem decodesRange_iff (arr : TypedArray) (h : start ≤ stop) (h' : stop ≤ arr.length) :
    DecodesRange f arr.length start stop ↔ BeginsThere f start stop := by
  constructor
  · exact beginsThere_of_decodesRange h h'
  · intro hf
    rw [decodesRange_iff_decode h h']
    intro m arr' harr'
    have hle := count_le f (stop - start)
    rw [← bytesFrom_byteAt m (by omega)]
    -- the same bytes, or no bytes at all, or no string
    cases f with
    | binary | ascii | utf8 => rfl
    | base64 =>
      rcases hf with rfl | rfl | hlong
      · rfl
      · rw [Nat.sub_self]
        rfl
      · exact decode_eq_base64 (length_bytesFrom ..) (length_bytesFrom ..) hlong
    | ucs2 =>
      rcases hf with rfl | hlt | hlong
      · rfl
      · have hzero : (stop - start) / 2 = 0 := by omega
        rw [SliceFunction.count, hzero]
        rfl
      · exact decode_eq_ucs2 (length_bytesFrom ..) (length_bytesFrom ..) hlong

/-- The last two of five bytes, in UTF-8. -/
theorem decodesRange_iff_last :
    BeginsThere .utf8 3 5 ∧ DecodesRange .utf8 5 3 5 :=
  ⟨trivial, (decodesRange_iff ⟨[0, 1, 2, 3, 4], by decide⟩ (by decide) (by decide)).mpr trivial⟩

/-- The byte at 1, in Base64, is taken for the one at 2, and the code unit at 2 for the one at 4. -/
theorem decodes_later_bytes : ¬DecodesRange .base64 4 1 2 ∧ ¬DecodesRange .ucs2 8 2 4 := by
  constructor
  · intro h
    have heq := h stepHeap stepHeap ⟨[1, 2, 3, 4], by decide⟩ ⟨[2], by decide⟩ rfl rfl
    exact absurd heq (by decide)
  · intro h
    have heq := h stepHeap stepHeap ⟨[1, 0, 2, 0, 3, 0, 4, 0], by decide⟩ ⟨[2, 0], by decide⟩ rfl
      rfl
    exact absurd heq (by decide)

end SpiderNode.Buffer
