import SpiderNode.Buffer.Encoders
import SpiderNode.Text.Inflate
import Mathlib.Algebra.Group.Int.Defs
import Mathlib.Algebra.Group.Nat.Defs
import Mathlib.Data.List.GetD

/-!
# Base64

`Base64Slice` and `Base64Write` of `src/node_buffer.cc`, and `base64_decoded_size`, by which the
latter checks whether what it is going to store fits.

The encoder makes four digits of three bytes, with padding in the last group. The decoder skips
whatever is not a digit, the padding included, and makes three bytes of four digits. The predicted
size depends on the length of the text and its last two characters only.

The engine has no string of more than `2 ^ 28 - 1` characters, so the encoder throws for longer
arrays than that; for arrays that are longer still, the `int` that counts the characters overflows,
which is taken for a fault. All other numbers are unbounded.
-/

namespace SpiderNode.Buffer

open Net (JsError)

/-- The typed array behind a buffer. The engine makes none of `2 ^ 31` bytes. -/
structure TypedArray where
  bytes : Bytes
  length_lt : bytes.length < 2 ^ 31

namespace TypedArray

def length (arr : TypedArray) : ℕ := arr.bytes.length

/-- The byte at an address, counted from the first one of the array. -/
def byteAt (arr : TypedArray) (m : Heap) (i : ℕ) : UInt8 :=
  if i < arr.length then arr.bytes.getD i 0 else m.beyond (i - arr.length)

end TypedArray

/-! ## The encoder -/

def base64Table : Bytes :=
  "ABCDEFGHIJKLMNOPQRSTUVWXYZabcdefghijklmnopqrstuvwxyz0123456789+/".toList.map
    fun c ↦ .ofNat c.toNat

/-- `out[j++] = base64_table[c]`, with the assertion before it. -/
def putDigit (c : ℕ) (out : Bytes) : Option Bytes :=
  if c < 64 then some (out ++ [base64Table.getD c 0]) else none

/-- One turn of the loop of `Base64Slice`; `none` if an assertion fails. -/
def base64Turn (data : ℕ → UInt8) (stop outLen i : ℕ) (out : Bytes) : Option Bytes := do
  let b₀ := (data i).toNat
  let b₁ := if i + 1 < stop then (data (i + 1)).toNat else 0
  let b₂ := if i + 2 < stop then (data (i + 2)).toNat else 0
  let out ← putDigit (b₀ >>> 2) out
  guard (out.length < outLen)
  let out ← putDigit ((b₀ &&& 0x03) <<< 4 ||| b₁ >>> 4) out
  guard (out.length < outLen)
  let out ← (if i + 1 < stop then putDigit ((b₁ &&& 0x0F) <<< 2 ||| b₂ >>> 6) out
    else some (out ++ [0x3D]) : Option Bytes)
  guard (out.length < outLen)
  let out ← (if i + 2 < stop then putDigit (b₂ &&& 0x3F) out
    else some (out ++ [0x3D]) : Option Bytes)
  guard (out.length ≤ outLen)
  return out

/-- The loop of `Base64Slice`, for at most `n` turns. -/
def base64Loop (data : ℕ → UInt8) (stop outLen : ℕ) : ℕ → ℕ → Bytes → Option Bytes
  | 0, i, out => if i < stop then none else some out
  | n + 1, i, out =>
    if i < stop then
      (base64Turn data stop outLen i out).bind (base64Loop data stop outLen n (i + 3))
    else some out

/-- `SLICE_ARGS` -/
def sliceArgs (arr : TypedArray) (start stop : ℤ) : Except JsError (ℕ × ℕ) :=
  if start < -2 ^ 31 ∨ 2 ^ 31 ≤ start ∨ stop < -2 ^ 31 ∨ 2 ^ 31 ≤ stop then .error .typeError
  else if start < 0 ∨ stop < 0 then .error .typeError
  else if ¬start ≤ stop then .error (.error "Must have start <= end")
  else if arr.length < stop then .error (.error "end cannot be longer than parent.length")
  else .ok (start.toNat, stop.toNat)

/-- `Base64Slice`, behind `SLICE_ARGS`: both `data` and the index begin at `start`. The bytes of the
output are ASCII. -/
def base64SliceText (m : Heap) (arr : TypedArray) (start stop : ℕ) : Except JsError JSString :=
  let n := stop - start
  let outLen := (n + 2 - (n + 2) % 3) / 3 * 4
  if 2 ^ 31 ≤ outLen then .error .fault
  else
    match base64Loop (fun i ↦ arr.byteAt m (start + i)) stop outLen stop start [] with
    | some out => jsNewString (asciiText out)
    | none => .error .assertion

/-- `Base64Slice` -/
def base64Slice (m : Heap) (arr : TypedArray) (start stop : ℤ) : Except JsError JSString :=
  match sliceArgs arr start stop with
  | .ok (start, stop) => base64SliceText m arr start stop
  | .error e => .error e

/-! ## The decoder -/

/-- `while (unbase64(*src) < 0 && src < srcEnd)`: what is left, and `remaining`. -/
def skip (src : Bytes) (remaining : ℕ) : Bytes × ℕ :=
  let rest := src.dropWhile fun c ↦ (unbase64 c).isNone
  (rest, remaining - (src.length - rest.length))

/-- The character at `src`; behind the text there is its terminator. -/
def peek (src : Bytes) : UInt8 := src.headD 0

/-- `unbase64(*src++)` -/
def digitAt (src : Bytes) : ℕ := (unbase64 (peek src)).getD 0

/-- The loop of `Base64Write`, for at most `n` turns, with what it stores. -/
def decodeLoop : ℕ → Bytes → Bytes
  | 0, _ => []
  | n + 1, src =>
    if src = [] then []
    else
      let (src, remaining) := skip src src.length
      if remaining = 0 ∨ peek src = 0x3D then []
      else
        let a := digitAt src
        let (src, remaining) := skip src.tail remaining
        if remaining ≤ 1 ∨ peek src = 0x3D then []
        else
          let b := digitAt src
          .ofNat (a <<< 2 ||| (b &&& 0x30) >>> 4) ::
            let (src, remaining) := skip src.tail remaining
            if remaining ≤ 2 ∨ peek src = 0x3D then []
            else
              let c := digitAt src
              .ofNat ((b &&& 0x0F) <<< 4 ||| (c &&& 0x3C) >>> 2) ::
                let (src, remaining) := skip src.tail remaining
                if remaining ≤ 3 ∨ peek src = 0x3D then []
                else
                  let d := digitAt src
                  .ofNat ((c &&& 0x03) <<< 6 ||| (d &&& 0x3F)) :: decodeLoop n src.tail

/-- The character at a distance before the end; `none` if it lies before the text. -/
def beforeEnd (src : Bytes) (i : ℕ) : Option UInt8 :=
  if i ≤ src.length then src[src.length - i]? else none

/-- `base64_decoded_size`, with the characters that it reads: `none` if one of them is not of the
text. The size is not yet taken for an unsigned number. -/
def decodedSize (src : Bytes) : Option ℤ :=
  let remainder := src.length % 4
  let size := src.length / 4 * 3
  let size := if remainder ≠ 0 then
      if size = 0 ∧ remainder = 1 then 0 else size + (1 + if remainder = 3 then 1 else 0)
    else size
  if 0 < size then do
    let last ← beforeEnd src 1
    let size : ℤ := if last = 0x3D then size - 1 else size
    let last ← beforeEnd src 2
    return if last = 0x3D then size - 1 else size
  else some 0

/-- The size as an unsigned number of 64 bits. -/
def unsigned (size : ℤ) : ℕ := if size < 0 then (size + 2 ^ 64).toNat else size.toNat

/-- `Base64Write`: the bytes it stores from `offset` on. -/
def base64Store (m : Heap) (s : JSString) (offset bufferLength : ℕ) : Except JsError Bytes :=
  if WellFormed s then
    let src := writeAscii m (s.length + 1) (utf8Bytes s)
    if offset = 0 ∧ bufferLength = 0 then .ok []
    else if bufferLength ≤ offset then .error .typeError
    else
      match decodedSize src with
      | none => .error .fault
      | some size =>
        if bufferLength - offset < unsigned size then .error .typeError
        else .ok (decodeLoop src.length src)
  else .error .fault

/-! ## Digits -/

/-- The digits of a sequence of bytes. -/
def sextets : Bytes → List ℕ
  | x :: y :: z :: rest =>
    x.toNat / 4 :: (x.toNat % 4 * 16 + y.toNat / 16) :: (y.toNat % 16 * 4 + z.toNat / 64) ::
      z.toNat % 64 :: sextets rest
  | [x, y] => [x.toNat / 4, x.toNat % 4 * 16 + y.toNat / 16, y.toNat % 16 * 4]
  | [x] => [x.toNat / 4, x.toNat % 4 * 16]
  | [] => []

def toDigit (c : ℕ) : UInt8 := base64Table.getD c 0

/-- What fills the last group of digits. -/
def padding (n : ℕ) : Bytes := List.replicate ((3 - n % 3) % 3) 0x3D

/-- The text of a sequence of bytes. -/
def encode (b : Bytes) : Bytes := (sextets b).map toDigit ++ padding b.length

variable {b : Bytes} {m : Heap}

theorem lt_of_mem_sextets {c : ℕ} (h : c ∈ sextets b) : c < 64 := by
  fun_induction sextets b with
  | case1 x y z rest ih =>
    have hx := x.toNat_lt
    have hy := y.toNat_lt
    have hz := z.toNat_lt
    simp only [List.mem_cons] at h
    rcases h with rfl | rfl | rfl | rfl | h
    · omega
    · omega
    · omega
    · omega
    · exact ih h
  | case2 x y =>
    have hx := x.toNat_lt
    have hy := y.toNat_lt
    simp only [List.mem_cons, List.not_mem_nil, or_false] at h
    omega
  | case3 x =>
    have hx := x.toNat_lt
    simp only [List.mem_cons, List.not_mem_nil, or_false] at h
    omega
  | case4 => cases h

theorem length_sextets (b : Bytes) : (sextets b).length = (4 * b.length + 2) / 3 := by
  fun_induction sextets b with
  | case1 x y z rest ih =>
    simp only [List.length_cons, ih]
    omega
  | case2 => simp
  | case3 => simp
  | case4 => rfl

theorem decodeDigits_sextets (b : Bytes) : decodeDigits (sextets b) = b := by
  have hbyte (x : UInt8) {n : ℕ} (h : n = x.toNat) : UInt8.ofNat n = x := by
    rw [h, UInt8.ofNat_toNat]
  fun_induction sextets b with
  | case1 x y z rest ih =>
    have hx := x.toNat_lt
    have hy := y.toNat_lt
    have hz := z.toNat_lt
    rw [decodeDigits, ih, hbyte x (by omega), hbyte y (by omega), hbyte z (by omega)]
  | case2 x y =>
    have hx := x.toNat_lt
    have hy := y.toNat_lt
    rw [decodeDigits, hbyte x (by omega), hbyte y (by omega)]
  | case3 x => rw [decodeDigits, hbyte x (by omega)]
  | case4 => rfl

theorem map_unbase64_base64Table : base64Table.map unbase64 = (List.range 64).map some := by
  decide +kernel

theorem unbase64_toDigit {c : ℕ} (h : c < 64) : unbase64 (toDigit c) = some c := by
  have hlen : base64Table.length = 64 := by
    simpa using congrArg List.length map_unbase64_base64Table
  have hentry := congrArg (·[c]?) map_unbase64_base64Table
  simpa [toDigit, List.getD, h, hlen] using hentry

/-- A digit is an ASCII character. -/
theorem toNat_lt_of_unbase64 {x : UInt8} {c : ℕ} (h : unbase64 x = some c) : x.toNat < 0x80 := by
  unfold unbase64 at h
  simp only [UInt8.le_iff_toNat_le] at h
  split_ifs at h with h₁ h₂ h₃ h₄ h₅
  · exact Nat.lt_of_le_of_lt h₁.2 (by decide)
  · exact Nat.lt_of_le_of_lt h₂.2 (by decide)
  · exact Nat.lt_of_le_of_lt h₃.2 (by decide)
  · rw [h₄]
    decide
  · rw [h₅]
    decide

theorem filterMap_unbase64_encode (b : Bytes) : (encode b).filterMap unbase64 = sextets b := by
  have hdigits : ((sextets b).map toDigit).filterMap unbase64 = sextets b := by
    rw [List.filterMap_map]
    calc (sextets b).filterMap (unbase64 ∘ toDigit)
        = (sextets b).filterMap some :=
          List.filterMap_congr fun c hc ↦ unbase64_toDigit (lt_of_mem_sextets hc)
      _ = sextets b := List.filterMap_some
  have hpadding : (padding b.length).filterMap unbase64 = [] := by
    rw [List.filterMap_eq_nil_iff]
    intro x hx
    rw [List.eq_of_mem_replicate hx]
    decide
  rw [encode, List.filterMap_append, hdigits, hpadding, List.append_nil]

/-- Decoding undoes encoding. -/
theorem decodeDigits_encode (b : Bytes) : decodeDigits ((encode b).filterMap unbase64) = b := by
  rw [filterMap_unbase64_encode, decodeDigits_sextets]

theorem encode_injective {b' : Bytes} (h : encode b = encode b') : b = b' := by
  rw [← decodeDigits_encode b, h, decodeDigits_encode]

theorem length_encode (b : Bytes) : (encode b).length = 4 * ((b.length + 2) / 3) := by
  rw [encode, List.length_append, List.length_map, length_sextets, padding, List.length_replicate]
  omega

/-! ## The loop of the encoder -/

/-- Bits put side by side. -/
theorem shiftLeft_or {x y k : ℕ} (h : y < 2 ^ k) : x <<< k ||| y = x * 2 ^ k + y := by
  rw [← Nat.shiftLeft_add_eq_or_of_lt h, Nat.shiftLeft_eq]

theorem putDigit_of_lt {c : ℕ} (h : c < 64) (out : Bytes) :
    putDigit c out = some (out ++ [toDigit c]) := if_pos h

/-- The bytes at `n` addresses. -/
def bytesFrom (data : ℕ → UInt8) (i n : ℕ) : Bytes := (List.range n).map fun k ↦ data (i + k)

@[simp] theorem length_bytesFrom (data : ℕ → UInt8) (i n : ℕ) :
    (bytesFrom data i n).length = n := by simp [bytesFrom]

theorem bytesFrom_succ (data : ℕ → UInt8) (i n : ℕ) :
    bytesFrom data i (n + 1) = data i :: bytesFrom data (i + 1) n := by
  simp only [bytesFrom, List.range_succ_eq_map, List.map_cons, List.map_map, Nat.add_zero]
  congr 2
  funext k
  exact congrArg data (by simp only [Nat.succ_eq_add_one]; omega)

@[simp] theorem bytesFrom_zero (data : ℕ → UInt8) (i : ℕ) : bytesFrom data i 0 = [] := rfl

@[simp] theorem encode_nil : encode [] = [] := by simp [encode, sextets, padding]

theorem encode_cons (x y z : UInt8) (rest : Bytes) :
    encode (x :: y :: z :: rest) = (sextets [x, y, z]).map toDigit ++ encode rest := by
  have hpadding : padding (x :: y :: z :: rest).length = padding rest.length := by
    rw [padding, padding, List.length_cons, List.length_cons, List.length_cons]
    congr 1
    omega
  rw [encode, hpadding, encode, sextets, sextets, sextets]
  simp

variable {data : ℕ → UInt8} {stop outLen i n : ℕ} {out : Bytes}

theorem and_three (x : ℕ) : x &&& 0x03 = x % 4 := Nat.and_two_pow_sub_one_eq_mod x 2

theorem and_fifteen (x : ℕ) : x &&& 0x0F = x % 16 := Nat.and_two_pow_sub_one_eq_mod x 4

theorem and_sixtyThree (x : ℕ) : x &&& 0x3F = x % 64 := Nat.and_two_pow_sub_one_eq_mod x 6

/-- The four digits of three bytes, as the encoder finds them. -/
theorem digits_eq {x y z : ℕ} (hy : y < 256) (hz : z < 256) :
    x >>> 2 = x / 4 ∧ (x &&& 0x03) <<< 4 ||| y >>> 4 = x % 4 * 16 + y / 16 ∧
      (y &&& 0x0F) <<< 2 ||| z >>> 6 = y % 16 * 4 + z / 64 ∧ z &&& 0x3F = z % 64 := by
  refine ⟨Nat.shiftRight_eq_div_pow x 2, ?_, ?_, and_sixtyThree z⟩
  · rw [Nat.shiftRight_eq_div_pow, and_three, shiftLeft_or (by omega)]
    rfl
  · rw [Nat.shiftRight_eq_div_pow, and_fifteen, shiftLeft_or (by omega)]
    rfl

theorem guard_bind {α : Type} {p : Prop} [Decidable p] (h : p) (f : Unit → Option α) :
    (guard p : Option Unit).bind f = f () := by
  rw [guard, if_pos h]
  rfl

/-- One turn of the loop, given the second byte and what is put into the last two places. -/
theorem base64Turn_of_put {y : ℕ} {c₂ c₃ : UInt8} (hout : out.length + 4 ≤ outLen) (hy : y < 256)
    (h₁ : (if i + 1 < stop then (data (i + 1)).toNat else 0) = y)
    (h₂ : ∀ out : Bytes, (if i + 1 < stop then
      putDigit ((y &&& 0x0F) <<< 2 ||| (if i + 2 < stop then (data (i + 2)).toNat else 0) >>> 6) out
      else some (out ++ [0x3D])) = some (out ++ [c₂]))
    (h₃ : ∀ out : Bytes, (if i + 2 < stop then
      putDigit ((if i + 2 < stop then (data (i + 2)).toNat else 0) &&& 0x3F) out
      else some (out ++ [0x3D])) = some (out ++ [c₃])) :
    base64Turn data stop outLen i out = some (out ++
      [toDigit ((data i).toNat / 4), toDigit ((data i).toNat % 4 * 16 + y / 16), c₂, c₃]) := by
  have h₀ := (data i).toNat_lt
  obtain ⟨hd₀, hd₁, -, -⟩ := digits_eq (x := (data i).toNat) hy (z := 0) (by decide)
  have hlen (x : UInt8) (out : Bytes) : (out ++ [x]).length = out.length + 1 := by simp
  rw [base64Turn, h₁, hd₀, hd₁, Option.bind_eq_bind, putDigit_of_lt (by omega), Option.bind_some,
    Option.bind_eq_bind, guard_bind (by rw [hlen]; omega), putDigit_of_lt (by omega),
    Option.bind_some, guard_bind (by rw [hlen, hlen]; omega), h₂, Option.bind_some,
    guard_bind (by rw [hlen, hlen, hlen]; omega), h₃, Option.bind_some,
    guard_bind (by rw [hlen, hlen, hlen, hlen]; omega), Option.pure_def]
  simp

/-- One turn of the loop encodes up to three bytes. -/
theorem base64Turn_eq (hi : i < stop) (hout : out.length + 4 ≤ outLen) :
    base64Turn data stop outLen i out =
      some (out ++ encode (bytesFrom data i (min 3 (stop - i)))) := by
  have h₁ := (data (i + 1)).toNat_lt
  have h₂ := (data (i + 2)).toNat_lt
  by_cases hi₂ : i + 2 < stop
  · have hi₁ : i + 1 < stop := by omega
    have hmin : min 3 (stop - i) = 3 := by omega
    obtain ⟨-, -, hd₂, hd₃⟩ := digits_eq (x := 0) h₁ h₂
    rw [base64Turn_of_put hout h₁ (if_pos hi₁)
      (fun out ↦ by rw [if_pos hi₁, if_pos hi₂, hd₂, putDigit_of_lt (by omega)])
      (fun out ↦ by rw [if_pos hi₂, if_pos hi₂, hd₃, putDigit_of_lt (by omega)]), hmin]
    simp [bytesFrom_succ, encode, sextets, padding]
  · by_cases hi₁ : i + 1 < stop
    · have hmin : min 3 (stop - i) = 2 := by omega
      obtain ⟨-, -, hd₂, -⟩ := digits_eq (x := 0) h₁ (z := 0) (by decide)
      rw [base64Turn_of_put hout h₁ (if_pos hi₁)
        (fun out ↦ by rw [if_pos hi₁, if_neg hi₂, hd₂, putDigit_of_lt (by omega)])
        (fun out ↦ by rw [if_neg hi₂]), hmin]
      simp [bytesFrom_succ, encode, sextets, padding]
    · have hmin : min 3 (stop - i) = 1 := by omega
      rw [base64Turn_of_put hout (by decide) (if_neg hi₁) (fun out ↦ by rw [if_neg hi₁])
        (fun out ↦ by rw [if_neg hi₂]), hmin]
      simp [bytesFrom_succ, encode, sextets, padding]

theorem base64Loop_eq (hn : stop ≤ i + n)
    (hout : out.length + 4 * ((stop - i + 2) / 3) = outLen) :
    base64Loop data stop outLen n i out = some (out ++ encode (bytesFrom data i (stop - i))) := by
  induction n generalizing i out with
  | zero =>
    have hstop : stop - i = 0 := by omega
    rw [base64Loop, if_neg (by omega), hstop]
    simp
  | succ n ih =>
    rw [base64Loop]
    split_ifs with hi
    · rw [base64Turn_eq hi (by omega), Option.bind_some]
      rcases Nat.lt_or_ge (stop - i) 3 with hlt | hge
      · -- The last turn, with a group that is not full.
        have hmin : min 3 (stop - i) = stop - i := by omega
        have hstop : stop - (i + 3) = 0 := by omega
        rw [hmin, ih (by omega), hstop]
        · simp
        · rw [List.length_append, length_encode, length_bytesFrom, hstop]
          omega
      · obtain ⟨k, hk⟩ : ∃ k, stop - i = k + 3 := ⟨stop - i - 3, by omega⟩
        have hmin : min 3 (stop - i) = 3 := by omega
        have hstop : stop - (i + 3) = k := by omega
        rw [hmin, ih (by omega), hstop, hk]
        · simp only [bytesFrom_succ, bytesFrom_zero, encode_cons, encode_nil, List.append_nil,
            List.append_assoc]
        · rw [List.length_append, length_encode, length_bytesFrom, hstop]
          omega
    · have hstop : stop - i = 0 := by omega
      rw [hstop]
      simp

/-! ## The loop of the decoder -/

theorem lt_of_unbase64 {x : UInt8} {a : ℕ} (h : unbase64 x = some a) : a < 64 := by
  simp only [unbase64, UInt8.le_iff_toNat_le, UInt8.toNat_ofNat] at h
  split_ifs at h
  all_goals
    obtain rfl := Option.some.inj h
    omega

/-- The three bytes of four digits, as the decoder finds them. -/
theorem bytes_eq {a b c d : ℕ} (hb : b < 64) (hc : c < 64) (hd : d < 64) :
    a <<< 2 ||| (b &&& 0x30) >>> 4 = a * 4 + b / 16 ∧
      (b &&& 0x0F) <<< 4 ||| (c &&& 0x3C) >>> 2 = b % 16 * 16 + c / 4 ∧
      (c &&& 0x03) <<< 6 ||| (d &&& 0x3F) = c % 4 * 64 + d := by
  have hb' : (b &&& 0x30) >>> 4 = b / 16 := by
    rw [Nat.shiftRight_and_distrib, Nat.shiftRight_eq_div_pow]
    change b / 16 &&& 3 = _
    rw [and_three]
    omega
  have hc' : (c &&& 0x3C) >>> 2 = c / 4 := by
    rw [Nat.shiftRight_and_distrib, Nat.shiftRight_eq_div_pow]
    change c / 4 &&& 15 = _
    rw [and_fifteen]
    omega
  refine ⟨?_, ?_, ?_⟩
  · rw [hb', shiftLeft_or (by omega)]
    rfl
  · rw [hc', and_fifteen, shiftLeft_or (by omega)]
    rfl
  · rw [and_three, and_sixtyThree, shiftLeft_or (by omega), Nat.mod_eq_of_lt hd]
    rfl

/-- What `skip` leaves: nothing, or a text that begins with a digit. The number `k` of digits that
were taken in this turn is still in `remaining`. -/
theorem skip_cases (src : Bytes) (k : ℕ) :
    skip src (src.length + k) = ([], k) ∧ src.filterMap unbase64 = [] ∨
      ∃ x xs a, skip src (src.length + k) = (x :: xs, xs.length + (k + 1)) ∧
        unbase64 x = some a ∧ src.filterMap unbase64 = a :: xs.filterMap unbase64 ∧
        xs.length < src.length := by
  induction src with
  | nil => exact .inl ⟨by simp [skip], rfl⟩
  | cons y ys ih =>
    rcases hy : unbase64 y with _ | a
    · have hskip : skip (y :: ys) ((y :: ys).length + k) = skip ys (ys.length + k) := by
        have hle : (ys.dropWhile fun c ↦ (unbase64 c).isNone).length ≤ ys.length :=
          (List.dropWhile_sublist _).length_le
        rw [skip, skip, List.dropWhile_cons_of_pos (by rw [hy]; rfl), List.length_cons]
        congr 1
        omega
      rw [hskip, List.filterMap_cons_none hy]
      rcases ih with h | ⟨x, xs, a, h, hx, hdigits, hlt⟩
      · exact .inl h
      · exact .inr ⟨x, xs, a, h, hx, hdigits, by rw [List.length_cons]; omega⟩
    · refine .inr ⟨y, ys, a, ?_, hy, List.filterMap_cons_some hy, by simp⟩
      rw [skip, List.dropWhile_cons_of_neg (by rw [hy]; simp), Nat.sub_self, List.length_cons]
      congr 1
      omega

/-- The loop goes on where there is a digit. -/
theorem digitAt_cons {x : UInt8} {a : ℕ} (h : unbase64 x = some a) (xs : Bytes) (k : ℕ) :
    digitAt (x :: xs) = a ∧ ¬(xs.length + (k + 1) ≤ k ∨ peek (x :: xs) = 0x3D) := by
  refine ⟨by rw [digitAt, peek, List.headD_cons, h]; rfl, ?_⟩
  rintro (hle | heq)
  · omega
  · obtain rfl : x = 0x3D := heq
    cases h

/-- The loop decodes all digits of the text. -/
theorem decodeLoop_eq {n : ℕ} {src : Bytes} (h : src.length ≤ n) :
    decodeLoop n src = decodeDigits (src.filterMap unbase64) := by
  induction n generalizing src with
  | zero =>
    obtain rfl : src = [] := List.eq_nil_of_length_eq_zero (Nat.le_zero.mp h)
    rfl
  | succ n ih =>
    rw [decodeLoop]
    split_ifs with hsrc
    · rw [hsrc]
      rfl
    -- four digits a turn; the text can end before each of them
    · rcases skip_cases src 0 with ⟨hskip, hnil⟩ | ⟨x, xs, a, hskip, hx, hdigits, hlt⟩
      · rw [Nat.add_zero] at hskip
        rw [hskip, hnil]
        rfl
      · rw [Nat.add_zero] at hskip
        obtain ⟨ha, hgo⟩ := digitAt_cons hx xs 0
        rw [Nat.le_zero] at hgo
        rw [hskip, hdigits]
        dsimp only
        rw [if_neg hgo, ha, List.tail_cons]
        rcases skip_cases xs 1 with ⟨hskip, hnil⟩ | ⟨y, ys, b, hskip, hy, hdigits, hlt₁⟩
        · rw [hskip, hnil]
          rfl
        obtain ⟨hb, hgo⟩ := digitAt_cons hy ys 1
        rw [hskip, hdigits]
        dsimp only
        rw [if_neg hgo, hb, List.tail_cons]
        rcases skip_cases ys 2 with ⟨hskip, hnil⟩ | ⟨z, zs, c, hskip, hz, hdigits, hlt₂⟩
        · rw [hskip, hnil, (bytes_eq (lt_of_unbase64 hy) (c := 0) (d := 0) (by decide)
            (by decide)).1]
          rfl
        obtain ⟨hc, hgo⟩ := digitAt_cons hz zs 2
        rw [hskip, hdigits]
        dsimp only
        rw [if_neg hgo, hc, List.tail_cons]
        rcases skip_cases zs 3 with ⟨hskip, hnil⟩ | ⟨w, ws, d, hskip, hw, hdigits, hlt₃⟩
        · obtain ⟨h₁, h₂, -⟩ := bytes_eq (a := a) (lt_of_unbase64 hy) (lt_of_unbase64 hz) (d := 0)
            (by decide)
          rw [hskip, hnil, h₁, h₂]
          rfl
        obtain ⟨hd, hgo⟩ := digitAt_cons hw ws 3
        obtain ⟨h₁, h₂, h₃⟩ := bytes_eq (a := a) (lt_of_unbase64 hy) (lt_of_unbase64 hz)
          (lt_of_unbase64 hw)
        rw [hskip, hdigits]
        dsimp only
        rw [if_neg hgo, hd, List.tail_cons, h₁, h₂, h₃, ih (by omega), decodeDigits]

/-! ## The predicted size -/

/-- The size of a text of which the last characters are not padding. -/
def unpadded (n : ℕ) : ℕ :=
  n / 4 * 3 + if n % 4 = 0 ∨ n = 1 then 0 else if n % 4 = 3 then 2 else 1

theorem decodedSize_of_lt {src : Bytes} (h : src.length < 2) : decodedSize src = some 0 := by
  obtain hlen | hlen : src.length = 0 ∨ src.length = 1 := by omega
  · simp [decodedSize, hlen]
  · simp [decodedSize, hlen]

/-- Only characters of the text are read. -/
theorem decodedSize_eq {src : Bytes} {x y : UInt8} (hx : src[src.length - 2]? = some x)
    (hy : src[src.length - 1]? = some y) (h : 2 ≤ src.length) :
    decodedSize src = some ((unpadded src.length : ℤ) - (if y = 0x3D then 1 else 0)
      - (if x = 0x3D then 1 else 0)) := by
  have hsize : (if src.length % 4 ≠ 0 then if src.length / 4 * 3 = 0 ∧ src.length % 4 = 1 then 0
      else src.length / 4 * 3 + (1 + if src.length % 4 = 3 then 1 else 0)
      else src.length / 4 * 3) = unpadded src.length := by
    rw [unpadded]
    split_ifs <;> omega
  have hpos : 0 < unpadded src.length := by
    rw [unpadded]
    split_ifs <;> omega
  have hy' : beforeEnd src 1 = some y := by rw [beforeEnd, if_pos (by omega), hy]
  have hx' : beforeEnd src 2 = some x := by rw [beforeEnd, if_pos h, hx]
  simp only [decodedSize, hsize, if_pos hpos, hx', hy', Option.bind_eq_bind, Option.bind_some,
    Option.pure_def]
  congr 1
  split_ifs <;> omega

theorem getElem?_encode {k : ℕ} (hk : k < (encode b).length) :
    ∃ x, (encode b)[k]? = some x ∧ (x = 0x3D ↔ (4 * b.length + 2) / 3 ≤ k) := by
  have hlen : ((sextets b).map toDigit).length = (4 * b.length + 2) / 3 := by
    rw [List.length_map, length_sextets]
  refine ⟨(encode b)[k], List.getElem?_eq_getElem hk, ?_⟩
  simp only [encode]
  rcases Nat.lt_or_ge k ((4 * b.length + 2) / 3) with hlt | hge
  · rw [List.getElem_append_left (by omega)]
    refine ⟨fun heq ↦ ?_, fun h ↦ absurd hlt (Nat.not_lt.mpr h)⟩
    have hdigit := unbase64_toDigit (lt_of_mem_sextets
      (List.getElem_mem (l := sextets b) (n := k) (by rw [length_sextets]; exact hlt)))
    rw [List.getElem_map] at heq
    rw [heq] at hdigit
    cases hdigit
  · rw [List.getElem_append_right (by omega)]
    exact ⟨fun _ ↦ hge, fun _ ↦ List.eq_of_mem_replicate (List.getElem_mem _)⟩

/-- The size of an encoded text is predicted. -/
theorem decodedSize_encode (b : Bytes) : decodedSize (encode b) = some (b.length : ℤ) := by
  rcases Nat.eq_zero_or_pos b.length with hzero | hpos
  · obtain rfl := List.eq_nil_of_length_eq_zero hzero
    simp [decodedSize]
  · have hlen := length_encode b
    obtain ⟨x, hx, hx'⟩ := getElem?_encode (b := b) (k := (encode b).length - 2) (by omega)
    obtain ⟨y, hy, hy'⟩ := getElem?_encode (b := b) (k := (encode b).length - 1) (by omega)
    rw [decodedSize_eq hx hy (by omega)]
    simp only [hx', hy', hlen, unpadded]
    congr 1
    split_ifs <;> omega

theorem unsigned_natCast (n : ℕ) : unsigned n = n := by
  rw [unsigned, if_neg (by omega), Int.toNat_natCast]

/-! ## Encoding and decoding -/

variable {s : JSString}

theorem wellFormed_of_isAscii (h : IsAscii s) : WellFormed s = true :=
  wellFormed_of_not_surrogate fun u hu ↦ not_surrogate_of_lt (Nat.lt_trans (h u hu) (by decide))

/-- An ASCII string is passed on as it is. -/
theorem writeAscii_of_isAscii (m : Heap) (h : IsAscii s) :
    writeAscii m (s.length + 1) (utf8Bytes s) = latin1Bytes s := by
  have hbytes : s.filterMap asciiByte = latin1Bytes s := by
    rw [latin1Bytes, ← List.filterMap_eq_map']
    refine List.filterMap_congr fun u hu ↦ ?_
    have hlt := h u hu
    exact if_pos (.inl (by omega))
  have hs : ∀ u ∈ s, (isHigh u || isLow u) = false := fun u hu ↦
    not_surrogate_of_lt (Nat.lt_trans (h u hu) (by decide))
  rw [writeAscii_utf8Bytes m hs, hbytes]
  exact List.take_of_length_le (by simp [latin1Bytes])

theorem latin1Bytes_asciiText (b : Bytes) : latin1Bytes (asciiText b) = b := by
  rw [latin1Bytes, asciiText, List.map_map]
  conv_rhs => rw [← List.map_id b]
  refine List.map_congr_left fun x _ ↦ ?_
  simp

theorem isAscii_encode (b : Bytes) : IsAscii (asciiText (encode b)) := by
  intro u hu
  obtain ⟨x, hx, rfl⟩ := List.mem_map.mp hu
  have hlt : x.toNat < 0x80 := by
    rcases List.mem_append.mp hx with hx | hx
    · obtain ⟨c, hc, rfl⟩ := List.mem_map.mp hx
      exact toNat_lt_of_unbase64 (unbase64_toDigit (lt_of_mem_sextets hc))
    · rw [List.eq_of_mem_replicate hx]
      decide
  rw [UInt16.toNat_ofNat']
  omega

theorem byteAt_bytes (m : Heap) (arr : TypedArray) :
    bytesFrom (fun i ↦ arr.byteAt m i) 0 arr.length = arr.bytes := by
  apply List.ext_getElem
  · exact length_bytesFrom ..
  · intro k hk hk'
    have hlt : k < arr.length := hk'
    simp only [bytesFrom, List.getElem_map, List.getElem_range, Nat.zero_add, TypedArray.byteAt,
      if_pos hlt]
    exact List.getD_eq_getElem _ _ hk'

/-- What becomes of bytes that `Base64Slice` finds. -/
def base64Text (b : Bytes) : Except JsError JSString :=
  if 2 ^ 31 ≤ 4 * ((b.length + 2) / 3) then .error .fault else jsNewString (asciiText (encode b))

/-- The text of a range of addresses, as `Base64Slice` finds them. -/
theorem base64SliceText_eq (m : Heap) (arr : TypedArray) (start stop : ℕ) :
    base64SliceText m arr start stop =
      base64Text (bytesFrom (fun i ↦ arr.byteAt m (start + i)) start (stop - start)) := by
  have hlen : (stop - start + 2 - (stop - start + 2) % 3) / 3 * 4 =
      4 * ((stop - start + 2) / 3) := by omega
  rw [base64SliceText, base64Text, length_bytesFrom, hlen,
    base64Loop_eq (Nat.le_add_left ..) (Nat.zero_add _)]
  rfl

theorem length_asciiText_encode (b : Bytes) :
    (asciiText (encode b)).length = 4 * ((b.length + 2) / 3) := by
  rw [asciiText, List.length_map, length_encode]

/-- Bytes whose text is a string of the engine. -/
theorem base64Text_of_le {b : Bytes} (h : 4 * ((b.length + 2) / 3) ≤ maxStringLength) :
    base64Text b = .ok (asciiText (encode b)) := by
  rw [base64Text, if_neg (by rw [maxStringLength] at h; omega), jsNewString,
    length_asciiText_encode, if_pos h]

/-- For other bytes there is an error, which depends on their number only. -/
theorem base64Text_of_lt {b : Bytes} (h : maxStringLength < 4 * ((b.length + 2) / 3)) :
    base64Text b = if 2 ^ 31 ≤ 4 * ((b.length + 2) / 3) then .error .fault
      else .error (.error "allocation size overflow") := by
  rw [base64Text, jsNewString, length_asciiText_encode, if_neg (Nat.not_le.mpr h)]

theorem sliceArgs_of_le {arr : TypedArray} {start stop : ℕ} (h : start ≤ stop)
    (h' : stop ≤ arr.length) : sliceArgs arr start stop = .ok (start, stop) := by
  have hlt : arr.length < 2 ^ 31 := arr.length_lt
  rw [sliceArgs, if_neg (by omega), if_neg (by omega), if_neg (by omega), if_neg (by omega)]
  rfl

theorem base64Slice_eq (m : Heap) (arr : TypedArray) :
    base64Slice m arr 0 arr.length = base64Text arr.bytes := by
  have hargs : sliceArgs arr 0 arr.length = .ok (0, arr.length) :=
    sliceArgs_of_le (Nat.zero_le arr.length) (Nat.le_refl _)
  rw [base64Slice, hargs]
  dsimp only
  rw [base64SliceText_eq]
  simp only [Nat.zero_add, Nat.sub_zero, byteAt_bytes]

/-- The text of an array has the length and the predicted size that it should have, and is decoded
to the bytes of the array, as long as the engine has a string of that length. -/
theorem base64_round_trip (m : Heap) (arr : TypedArray) (h : arr.length ≤ 201326589) :
    ∃ s, base64Slice m arr 0 arr.length = .ok s ∧ s.length = 4 * ((arr.length + 2) / 3) ∧
      decodedSize (latin1Bytes s) = some (arr.length : ℤ) ∧
      base64Store m s 0 arr.length = .ok arr.bytes := by
  have hs := isAscii_encode arr.bytes
  have hfits : 4 * ((arr.bytes.length + 2) / 3) ≤ maxStringLength := by
    change 4 * ((arr.length + 2) / 3) ≤ 2 ^ 28 - 1
    omega
  have hslice : base64Slice m arr 0 arr.length = .ok (asciiText (encode arr.bytes)) :=
    (base64Slice_eq m arr).trans (base64Text_of_le hfits)
  refine ⟨_, hslice, length_asciiText_encode arr.bytes, ?_, ?_⟩
  · rw [latin1Bytes_asciiText, decodedSize_encode]
    rfl
  · have hsrc : writeAscii m ((asciiText (encode arr.bytes)).length + 1)
        (utf8Bytes (asciiText (encode arr.bytes))) = encode arr.bytes := by
      rw [writeAscii_of_isAscii m hs, latin1Bytes_asciiText]
    have hsize : decodedSize (encode arr.bytes) = some (arr.length : ℤ) := decodedSize_encode _
    rw [base64Store, if_pos (wellFormed_of_isAscii hs)]
    simp only [hsrc, hsize, decodeLoop_eq (Nat.le_refl _), decodeDigits_encode]
    rcases Nat.eq_zero_or_pos arr.length with hzero | hpos
    · rw [if_pos ⟨trivial, hzero⟩, List.eq_nil_of_length_eq_zero hzero]
    · rw [if_neg (by omega), if_neg (by omega), unsigned_natCast, if_neg (by omega)]

theorem base64_round_trip_two :
    ∃ s, base64Slice ⟨fun _ ↦ 0, 0, 0, 0⟩ ⟨[0x68, 0x69], by decide⟩ 0 2 = .ok s ∧ s.length = 4 ∧
      decodedSize (latin1Bytes s) = some 2 ∧
      base64Store ⟨fun _ ↦ 0, 0, 0, 0⟩ s 0 2 = .ok [0x68, 0x69] := by
  have hlength : (⟨[0x68, 0x69], by decide⟩ : TypedArray).length ≤ 201326589 := by decide
  exact base64_round_trip ⟨fun _ ↦ 0, 0, 0, 0⟩ _ hlength

/-- The text of one byte more would be longer than any string. -/
theorem base64_too_long :
    ¬∀ (m : Heap) (arr : TypedArray), ∃ s, base64Slice m arr 0 arr.length = .ok s := by
  intro hall
  have hlength : (List.replicate 201326590 (0 : UInt8)).length = 201326590 :=
    List.length_replicate ..
  have hlt : (List.replicate 201326590 (0 : UInt8)).length < 2 ^ 31 := by
    rw [hlength]
    decide
  have hlong : maxStringLength < 4 * (((List.replicate 201326590 (0 : UInt8)).length + 2) / 3) := by
    rw [hlength]
    decide
  obtain ⟨s, hs⟩ := hall ⟨fun _ ↦ 0, 0, 0, 0⟩ ⟨_, hlt⟩
  rw [base64Slice_eq, base64Text_of_lt hlong] at hs
  split_ifs at hs

/-! ## Texts of which the size is predicted -/

/-- The predicted size is a number and rests on characters of the text only; no more bytes are
stored than predicted, and so none behind the end of the buffer. -/
def Predicts (m : Heap) (s : JSString) : Prop :=
  (∃ size, decodedSize (latin1Bytes s) = some size ∧ 0 ≤ size ∧
    ((decodeLoop s.length (latin1Bytes s)).length : ℤ) ≤ size) ∧
  ∀ offset bufferLength stored, base64Store m s offset bufferLength = .ok stored →
    offset + stored.length ≤ bufferLength

/-- Digits in full groups, and then padding that would have to be part of a group. -/
def Overpadded (s : JSString) : Prop :=
  ∃ l : JSString, s = l ++ [0x3D, 0x3D] ∧ l.length % 4 = 0 ∧ ∀ u ∈ l, (unbase64 u.toUInt8).isSome

theorem exists_append_pair {src : Bytes} (h : 2 ≤ src.length) : ∃ l x y, src = l ++ [x, y] := by
  rcases src.eq_nil_or_concat' with rfl | ⟨l, y, rfl⟩
  · cases h
  · rcases l.eq_nil_or_concat' with rfl | ⟨l, x, rfl⟩
    · exact absurd h (by simp)
    · exact ⟨l, x, y, by simp⟩

/-- Padding is not decoded. -/
theorem length_filterMap_pair (x y : UInt8) : ([x, y].filterMap unbase64).length +
    (if y = 0x3D then 1 else 0) + (if x = 0x3D then 1 else 0) ≤ 2 := by
  have hone (x : UInt8) : ([x].filterMap unbase64).length + (if x = 0x3D then 1 else 0) ≤ 1 := by
    by_cases hx : x = 0x3D
    · subst hx
      decide
    · rw [if_neg hx]
      exact List.length_filterMap_le _ _
  have hx := hone x
  have hy := hone y
  have happend : [x, y].filterMap unbase64 = [x].filterMap unbase64 ++ [y].filterMap unbase64 :=
    List.filterMap_append (l := [x])
  rw [happend, List.length_append]
  omega

/-- No more bytes are stored than predicted. -/
theorem length_decodeDigits_le {src : Bytes} (h : ¬∃ l : Bytes, src = l ++ [0x3D, 0x3D] ∧
      l.length % 4 = 0 ∧ ∀ x ∈ l, (unbase64 x).isSome) :
    ∃ size, decodedSize src = some size ∧ 0 ≤ size ∧
      ((decodeDigits (src.filterMap unbase64)).length : ℤ) ≤ size := by
  rw [length_decodeDigits]
  rcases Nat.lt_or_ge src.length 2 with hlt | hge
  · have hle := List.length_filterMap_le unbase64 src
    exact ⟨0, decodedSize_of_lt hlt, Int.le_refl 0, by omega⟩
  · obtain ⟨l, x, y, rfl⟩ := exists_append_pair hge
    have hle := List.length_filterMap_le unbase64 l
    have hpair := length_filterMap_pair x y
    have hlen : (l ++ [x, y]).length = l.length + 2 := by simp
    have hx : (l ++ [x, y])[(l ++ [x, y]).length - 2]? = some x := by simp
    have hy : (l ++ [x, y])[(l ++ [x, y]).length - 1]? = some y := by simp
    have hfull : x = 0x3D → y = 0x3D → l.length % 4 = 0 →
        (l.filterMap unbase64).length < l.length := by
      rintro rfl rfl hmod
      refine Nat.lt_of_le_of_ne hle fun heq ↦ h ⟨l, rfl, hmod, ?_⟩
      exact List.filterMap_length_eq_length.mp heq
    refine ⟨_, decodedSize_eq hx hy hge, ?_⟩
    rw [hlen, List.filterMap_append, List.length_append, unpadded]
    by_cases hx' : x = 0x3D <;> by_cases hy' : y = 0x3D <;>
      simp only [hx', hy', if_true, if_false, forall_const] at hpair hfull ⊢ <;>
      split_ifs <;> omega

/-- The last two code units of an ASCII string are told by their bytes. -/
theorem overpadded_of_latin1Bytes (hs : IsAscii s) {b : Bytes}
    (h : latin1Bytes s = b ++ [0x3D, 0x3D]) (hmod : b.length % 4 = 0)
    (hdigits : ∀ x ∈ b, (unbase64 x).isSome) : Overpadded s := by
  have hunit : ∀ u ∈ s, u.toUInt8 = 0x3D → u = 0x3D := by
    intro u hu heq
    have hlt := hs u hu
    have hnat : u.toUInt8.toNat = 0x3D := by rw [heq]; rfl
    rw [UInt16.toNat_toUInt8] at hnat
    have hsame : u.toNat = 0x3D := by omega
    exact UInt16.toNat_inj.mp hsame
  obtain ⟨l, t, rfl, rfl, ht⟩ := List.map_eq_append_iff.mp h
  obtain ⟨x, l', rfl, hx, hl'⟩ := List.map_eq_cons_iff.mp ht
  obtain ⟨y, l'', rfl, hy, hl''⟩ := List.map_eq_cons_iff.mp hl'
  obtain rfl := List.map_eq_nil_iff.mp hl''
  rw [hunit x (by simp) hx, hunit y (by simp) hy]
  refine ⟨l, rfl, by rwa [List.length_map] at hmod, fun u hu ↦ ?_⟩
  exact hdigits _ (List.mem_map_of_mem hu)

/-- The size is predicted, unless there is padding behind digits that are in full groups. -/
theorem predicts_iff (m : Heap) (hs : IsAscii s) : Predicts m s ↔ ¬Overpadded s := by
  have hlen : (latin1Bytes s).length = s.length := by rw [latin1Bytes, List.length_map]
  have hloop := decodeLoop_eq (Nat.le_of_eq hlen)
  constructor
  · rintro ⟨⟨size, hsize, -, hle⟩, -⟩ ⟨l, rfl, hmod, hdigits⟩
    have hsrc : latin1Bytes (l ++ [0x3D, 0x3D]) = latin1Bytes l ++ [0x3D, 0x3D] := by
      simp [latin1Bytes]
    have hall : ((latin1Bytes l).filterMap unbase64).length = l.length := by
      rw [List.filterMap_length_eq_length.mpr]
      · rw [latin1Bytes, List.length_map]
      · intro x hx
        obtain ⟨u, hu, rfl⟩ := List.mem_map.mp hx
        exact hdigits u hu
    have hpad : ([0x3D, 0x3D] : Bytes).filterMap unbase64 = [] := by decide
    have hlen' : (latin1Bytes l ++ [0x3D, 0x3D]).length = l.length + 2 := by simp [latin1Bytes]
    rw [hsrc, decodedSize_eq (x := 0x3D) (y := 0x3D) (by simp) (by simp) (by omega), hlen',
      unpadded] at hsize
    rw [hloop, hsrc, length_decodeDigits, List.filterMap_append, hpad, List.append_nil, hall] at hle
    have heq := Option.some.inj hsize
    simp only [if_true] at heq
    -- the padding takes two bytes off the size, though all groups are full
    split_ifs at heq <;> omega
  · intro hover
    have hpadded : ¬∃ l : Bytes, latin1Bytes s = l ++ [0x3D, 0x3D] ∧ l.length % 4 = 0 ∧
        ∀ x ∈ l, (unbase64 x).isSome := by
      rintro ⟨b, hb, hmod, hdigits⟩
      exact hover (overpadded_of_latin1Bytes hs hb hmod hdigits)
    obtain ⟨size, hsize, hpos, hle⟩ := length_decodeDigits_le hpadded
    rw [← hloop] at hle
    refine ⟨⟨size, hsize, hpos, hle⟩, fun offset bufferLength stored hstored ↦ ?_⟩
    simp only [base64Store, if_pos (wellFormed_of_isAscii hs), writeAscii_of_isAscii m hs, hsize,
      hlen] at hstored
    split_ifs at hstored with hzero hout hsmall
    · obtain rfl := Except.ok.inj hstored
      simp [hzero]
    · obtain rfl := Except.ok.inj hstored
      rw [unsigned, if_neg (by omega)] at hsmall
      omega

/-- Padding as it should be. -/
theorem predicts_iff_padded : IsAscii (js "TWE=") ∧
    (Predicts ⟨fun _ ↦ 0, 0, 0, 0⟩ (js "TWE=") ↔ ¬Overpadded (js "TWE=")) :=
  ⟨by decide, predicts_iff _ (by decide)⟩

/-- Of this text two bytes are predicted, and three are stored. -/
theorem overpadded_not_predicted : ¬∀ m s, IsAscii s → Predicts m s := by
  intro hall
  have hsize : decodedSize (latin1Bytes (js "TWFu==")) = some 2 := by decide
  have hstored : (decodeLoop (js "TWFu==").length (latin1Bytes (js "TWFu=="))).length = 3 := by
    decide
  obtain ⟨⟨size, hsize', -, hle⟩, -⟩ := hall ⟨fun _ ↦ 0, 0, 0, 0⟩ (js "TWFu==") (by decide)
  obtain rfl := Option.some.inj (hsize.symm.trans hsize')
  rw [hstored] at hle
  exact absurd hle (by decide)

end SpiderNode.Buffer
