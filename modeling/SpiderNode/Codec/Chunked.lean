import Mathlib.Data.Nat.Digits.Defs
import Mathlib.Data.Nat.Digits.Lemmas

/-!
# Chunked bodies

A body is cut into chunks, each with its size in front in hexadecimal digits. A chunk of size zero
is the last one, and behind it stand the lines of a trailer and an empty line:

```text
size CRLF data CRLF  …  0 CRLF line CRLF … CRLF
```

`decode` is the reader of such a body. `decode_encode` is the law of the format: what was encoded is
read back, and whatever follows it is left alone.
-/

namespace Chunked

/-- The line end. -/
def crlf : List UInt8 := [0x0D, 0x0A]

/-! ## Sizes -/

/-- A hexadecimal digit. -/
def digit (d : ℕ) : UInt8 := .ofNat (if d < 10 then 0x30 + d else 0x57 + d)

/-- The hexadecimal digits of a number. -/
def digits (n : ℕ) : List UInt8 :=
  if n = 0 then [0x30] else (Nat.digits 16 n).reverse.map digit

/-- The value of a hexadecimal digit, in either case. -/
def digitValue (b : UInt8) : Option ℕ :=
  if 0x30 ≤ b ∧ b ≤ 0x39 then some (b.toNat - 0x30)
  else if 0x61 ≤ b ∧ b ≤ 0x66 then some (b.toNat - 0x57)
  else if 0x41 ≤ b ∧ b ≤ 0x46 then some (b.toNat - 0x37)
  else none

/-- The number that a line of digits stands for. -/
def size (line : List UInt8) : Option ℕ :=
  if line = [] then none else (line.mapM digitValue).map fun ds ↦ Nat.ofDigits 16 ds.reverse

theorem digitValue_digit : ∀ d < 16, digitValue (digit d) = some d := by decide

theorem digit_ne_cr : ∀ d < 16, digit d ≠ 0x0D := by decide

theorem mapM_digitValue {ds : List ℕ} (h : ∀ d ∈ ds, d < 16) :
    (ds.map digit).mapM digitValue = some ds := by
  induction ds with
  | nil => rfl
  | cons d ds ih =>
    rw [List.map_cons, List.mapM_cons, digitValue_digit d (h d (by simp)),
      ih fun d' hd ↦ h d' (by simp [hd])]
    rfl

theorem lt_of_mem_digits {n d : ℕ} (h : d ∈ (Nat.digits 16 n).reverse) : d < 16 :=
  Nat.digits_lt_base (by omega) (List.mem_reverse.mp h)

theorem size_digits (n : ℕ) : size (digits n) = some n := by
  rw [digits]
  split_ifs with h
  · subst h
    decide
  · have hne : (Nat.digits 16 n).reverse.map digit ≠ [] := by
      simpa [Nat.digits_ne_nil_iff_ne_zero] using h
    rw [size, if_neg hne, mapM_digitValue fun d hd ↦ lt_of_mem_digits hd]
    simp [Nat.ofDigits_digits]

theorem cr_not_mem_digits (n : ℕ) : (0x0D : UInt8) ∉ digits n := by
  rw [digits]
  split_ifs
  · decide
  · intro h
    obtain ⟨d, hd, hdig⟩ := List.mem_map.mp h
    exact digit_ne_cr d (lt_of_mem_digits hd) hdig

/-! ## Lines -/

/-- The line up to the next line end, and what follows. -/
def takeLine : List UInt8 → Option (List UInt8 × List UInt8)
  | [] => none
  | b :: rest =>
    if b = 0x0D then
      match rest with
      | 0x0A :: rest => some ([], rest)
      | _ => none
    else (takeLine rest).map fun l ↦ (b :: l.1, l.2)

theorem takeLine_append {line : List UInt8} (h : (0x0D : UInt8) ∉ line) (rest : List UInt8) :
    takeLine (line ++ crlf ++ rest) = some (line, rest) := by
  induction line with
  | nil => rfl
  | cons b line ih =>
    have hb : b ≠ 0x0D := by
      rintro rfl
      simp at h
    have hl := ih fun hm ↦ h (by simp [hm])
    simp only [List.cons_append, takeLine, hb, if_false, hl, Option.map_some]

/-! ## Bodies -/

/-- A body that has been read. -/
structure Body where
  chunks : List (List UInt8)
  trailer : List (List UInt8)
  /-- What follows the body. -/
  rest : List UInt8
  deriving DecidableEq, Repr

/-- The lines up to the empty one. -/
def decodeTrailer : ℕ → List UInt8 → Option (List (List UInt8) × List UInt8)
  | 0, _ => none
  | fuel + 1, input => do
    let (line, rest) ← takeLine input
    if line = [] then return ([], rest)
    else
      let (lines, rest) ← decodeTrailer fuel rest
      return (line :: lines, rest)

def decodeChunks : ℕ → List UInt8 → Option Body
  | 0, _ => none
  | fuel + 1, input => do
    let (line, rest) ← takeLine input
    let n ← size line
    if n = 0 then
      let (lines, rest) ← decodeTrailer (fuel + 1) rest
      return ⟨[], lines, rest⟩
    else
      if rest.length < n then none
      else
        let (line, after) ← takeLine (rest.drop n)
        if line = [] then
          let body ← decodeChunks fuel after
          return { body with chunks := rest.take n :: body.chunks }
        else none

/-- The reader. Each round takes at least one byte, so the length of the input bounds them. -/
def decode (input : List UInt8) : Option Body := decodeChunks (input.length + 1) input

/-- A chunk. -/
def encodeChunk (b : List UInt8) : List UInt8 := digits b.length ++ crlf ++ b ++ crlf

/-- The last chunk, with the trailer. -/
def encodeLast (lines : List (List UInt8)) : List UInt8 :=
  digits 0 ++ crlf ++ (lines.flatMap fun l ↦ l ++ crlf) ++ crlf

def encode (chunks lines : List (List UInt8)) : List UInt8 :=
  chunks.flatMap encodeChunk ++ encodeLast lines

variable {chunks lines : List (List UInt8)}

theorem decodeTrailer_append (hne : ∀ l ∈ lines, l ≠ []) (hcr : ∀ l ∈ lines, (0x0D : UInt8) ∉ l)
    {fuel : ℕ} (hf : lines.length < fuel) (rest : List UInt8) :
    decodeTrailer fuel ((lines.flatMap fun l ↦ l ++ crlf) ++ crlf ++ rest) =
      some (lines, rest) := by
  induction lines generalizing fuel with
  | nil =>
    obtain ⟨fuel, rfl⟩ : ∃ k, fuel = k + 1 := ⟨fuel - 1, by simp at hf; omega⟩
    have ht := @takeLine_append [] (by simp) rest
    simp only [List.flatMap_nil, decodeTrailer, ht]
    rfl
  | cons l lines ih =>
    obtain ⟨fuel, rfl⟩ : ∃ k, fuel = k + 1 := ⟨fuel - 1, by simp at hf; omega⟩
    have ht := takeLine_append (hcr l (by simp)) ((lines.flatMap fun l ↦ l ++ crlf) ++ crlf ++ rest)
    have hlt : lines.length < fuel := by simp at hf; omega
    have hr := ih (fun l' hl ↦ hne l' (by simp [hl])) (fun l' hl ↦ hcr l' (by simp [hl])) hlt
    have happ : (((l :: lines).flatMap fun l ↦ l ++ crlf) ++ crlf ++ rest) =
        l ++ crlf ++ ((lines.flatMap fun l ↦ l ++ crlf) ++ crlf ++ rest) := by
      simp
    rw [happ, decodeTrailer, ht]
    simp only [Option.bind_eq_bind, Option.bind_some, hne l (by simp), if_false, hr]
    rfl

theorem decodeChunks_last (hne : ∀ l ∈ lines, l ≠ []) (hcr : ∀ l ∈ lines, (0x0D : UInt8) ∉ l)
    {fuel : ℕ} (hf : lines.length ≤ fuel) (rest : List UInt8) :
    decodeChunks (fuel + 1) (encodeLast lines ++ rest) = some ⟨[], lines, rest⟩ := by
  have ht := takeLine_append (cr_not_mem_digits 0)
    ((lines.flatMap fun l ↦ l ++ crlf) ++ crlf ++ rest)
  have htr := decodeTrailer_append hne hcr (Nat.lt_succ_of_le hf) rest
  have happ : encodeLast lines ++ rest =
      digits 0 ++ crlf ++ ((lines.flatMap fun l ↦ l ++ crlf) ++ crlf ++ rest) := by
    simp [encodeLast]
  rw [happ, decodeChunks, ht]
  simp only [Option.bind_eq_bind, Option.bind_some, size_digits, if_true, htr]
  rfl

theorem decodeChunks_cons {b : List UInt8} (hb : b ≠ []) (fuel : ℕ) (input : List UInt8) :
    decodeChunks (fuel + 1) (encodeChunk b ++ input) =
      (decodeChunks fuel input).map fun body ↦ { body with chunks := b :: body.chunks } := by
  have ht := takeLine_append (cr_not_mem_digits b.length) (b ++ crlf ++ input)
  have ht' := @takeLine_append [] (by simp) input
  have hlen : b.length ≠ 0 := by simpa using hb
  have hle : ¬(b ++ crlf ++ input).length < b.length := by
    simp only [List.length_append]
    omega
  have htake : (b ++ crlf ++ input).take b.length = b := by simp
  have hdrop : (b ++ crlf ++ input).drop b.length = [] ++ crlf ++ input := by simp
  have happ : encodeChunk b ++ input = digits b.length ++ crlf ++ (b ++ crlf ++ input) := by
    simp [encodeChunk]
  rw [happ, decodeChunks, ht]
  simp only [Option.bind_eq_bind, Option.bind_some, size_digits, hlen, if_false, hle, hdrop, ht',
    if_true, htake]
  cases decodeChunks fuel input <;> rfl

theorem decodeChunks_append (hc : ∀ b ∈ chunks, b ≠ []) (hne : ∀ l ∈ lines, l ≠ [])
    (hcr : ∀ l ∈ lines, (0x0D : UInt8) ∉ l) {fuel : ℕ} (hf : chunks.length + lines.length < fuel)
    (rest : List UInt8) :
    decodeChunks fuel (encode chunks lines ++ rest) = some ⟨chunks, lines, rest⟩ := by
  induction chunks generalizing fuel with
  | nil =>
    obtain ⟨fuel, rfl⟩ : ∃ k, fuel = k + 1 := ⟨fuel - 1, by omega⟩
    simp only [encode, List.flatMap_nil, List.nil_append]
    exact decodeChunks_last hne hcr (by simp at hf; omega) rest
  | cons b chunks ih =>
    obtain ⟨fuel, rfl⟩ : ∃ k, fuel = k + 1 := ⟨fuel - 1, by omega⟩
    have happ : encode (b :: chunks) lines ++ rest =
        encodeChunk b ++ (encode chunks lines ++ rest) := by
      simp [encode]
    rw [happ, decodeChunks_cons (hc b (by simp)), ih (fun c hm ↦ hc c (by simp [hm])) (by
      simp at hf; omega)]
    rfl

theorem length_le_encode (chunks lines : List (List UInt8)) :
    chunks.length + lines.length ≤ (encode chunks lines).length := by
  have hc : chunks.length ≤ (chunks.flatMap encodeChunk).length := by
    induction chunks with
    | nil => simp
    | cons b chunks ih =>
      simp only [List.flatMap_cons, List.length_append, List.length_cons, encodeChunk, crlf]
      omega
  have hl : lines.length ≤ (lines.flatMap fun l ↦ l ++ crlf).length := by
    induction lines with
    | nil => simp
    | cons l lines ih =>
      simp only [List.flatMap_cons, List.length_append, List.length_cons, crlf] at ih ⊢
      omega
  simp only [encode, encodeLast, List.length_append]
  omega

/-- **The law of the format.** A body of chunks that are not empty and a trailer of lines that are
not empty and have no carriage return is read back, and what follows it is left alone. -/
theorem decode_encode (hc : ∀ b ∈ chunks, b ≠ []) (hne : ∀ l ∈ lines, l ≠ [])
    (hcr : ∀ l ∈ lines, (0x0D : UInt8) ∉ l) (rest : List UInt8) :
    decode (encode chunks lines ++ rest) = some ⟨chunks, lines, rest⟩ := by
  refine decodeChunks_append hc hne hcr ?_ rest
  have := length_le_encode chunks lines
  rw [List.length_append]
  omega

end Chunked
