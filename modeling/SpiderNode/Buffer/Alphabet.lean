import SpiderNode.Buffer.Base64
import Mathlib.Tactic.Ring

/-!
# What a Base64 text stands for

The characters `A-Z`, `a-z`, `0-9`, `+` and `/` stand for six bits each, whatever is between them.
The bytes of a text are cut from the string of these bits; an incomplete byte is dropped.

`Base64Write` stores these bytes, whenever its checks let it store at all. They do not see what it
will skip: the predicted size is that of all characters, and a buffer without bytes takes any text.
-/

namespace SpiderNode.Buffer

/-! ## Strings of bits -/

/-- The lowest `n` bits of a number, from the highest of them on. -/
def bits : ℕ → ℕ → List Bool
  | 0, _ => []
  | n + 1, v => v.testBit n :: bits n v

/-- The number that a string of bits stands for. -/
def ofBits (l : List Bool) : ℕ := l.foldl (fun v b ↦ 2 * v + b.toNat) 0

/-- A string of bits, cut into bytes; what is left of it is dropped. -/
def wholeBytes : List Bool → Bytes
  | b₀ :: b₁ :: b₂ :: b₃ :: b₄ :: b₅ :: b₆ :: b₇ :: rest =>
    .ofNat (ofBits [b₀, b₁, b₂, b₃, b₄, b₅, b₆, b₇]) :: wholeBytes rest
  | _ => []

@[simp] theorem length_bits (n v : ℕ) : (bits n v).length = n := by
  induction n with
  | zero => rfl
  | succ n ih => rw [bits, List.length_cons, ih]

theorem bits_add (n k v : ℕ) : bits (n + k) v = bits n (v / 2 ^ k) ++ bits k v := by
  induction n with
  | zero => rw [Nat.zero_add, bits, List.nil_append]
  | succ n ih =>
    rw [Nat.add_right_comm, bits, bits, ih, Nat.testBit_div_two_pow, List.cons_append]

theorem ofBits_append (l l' : List Bool) :
    ofBits (l ++ l') = ofBits l * 2 ^ l'.length + ofBits l' := by
  have hfold (v : ℕ) : l'.foldl (fun v b ↦ 2 * v + b.toNat) v =
      v * 2 ^ l'.length + l'.foldl (fun v b ↦ 2 * v + b.toNat) 0 := by
    induction l' generalizing v with
    | nil => simp
    | cons b l' ih =>
      rw [List.foldl_cons, List.foldl_cons, ih, ih (2 * 0 + b.toNat), List.length_cons, pow_succ]
      ring
  rw [ofBits, List.foldl_append, hfold]
  rfl

theorem ofBits_bits (n v : ℕ) : ofBits (bits n v) = v % 2 ^ n := by
  induction n with
  | zero => rw [pow_zero, Nat.mod_one]; rfl
  | succ n ih =>
    have hcons : bits (n + 1) v = [v.testBit n] ++ bits n v := rfl
    have hone : ofBits [v.testBit n] = v / 2 ^ n % 2 := by
      rw [Nat.testBit_eq_decide_div_mod_eq]
      rcases Nat.mod_two_eq_zero_or_one (v / 2 ^ n) with h | h <;> simp [ofBits, h]
    rw [hcons, ofBits_append, ih, hone, length_bits, pow_succ, Nat.mod_mul]
    ring

/-- A byte is two pieces of eight bits together. -/
theorem wholeBytes_bits {n k : ℕ} (h : n + k = 8) (v w : ℕ) (rest : List Bool) :
    wholeBytes (bits n v ++ (bits k w ++ rest)) =
      .ofNat (v % 2 ^ n * 2 ^ k + w % 2 ^ k) :: wholeBytes rest := by
  have hcut {l : List Bool} (hl : l.length = 8) :
      wholeBytes (l ++ rest) = .ofNat (ofBits l) :: wholeBytes rest := by
    match l, hl with
    | [_, _, _, _, _, _, _, _], _ => rfl
  rw [← List.append_assoc, hcut (by rw [List.length_append, length_bits, length_bits, h]),
    ofBits_append, ofBits_bits, ofBits_bits, length_bits]

theorem wholeBytes_of_lt {l : List Bool} (h : l.length < 8) : wholeBytes l = [] := by
  match l, h with
  | [], _ | [_], _ | [_, _], _ | [_, _, _], _ | [_, _, _, _], _ | [_, _, _, _, _], _
  | [_, _, _, _, _, _], _ | [_, _, _, _, _, _, _], _ => rfl

/-- Four digits make three bytes. -/
theorem decodeDigits_eq {digits : List ℕ} (h : ∀ d ∈ digits, d < 64) :
    decodeDigits digits = wholeBytes (digits.flatMap (bits 6)) := by
  have hhigh (v : ℕ) : bits 6 v = bits 2 (v / 16) ++ bits 4 v := bits_add 2 4 v
  have hlow (v : ℕ) : bits 6 v = bits 4 (v / 4) ++ bits 2 v := bits_add 4 2 v
  have hfirst {a b : ℕ} (ha : a < 64) (hb : b < 64) :
      a % 2 ^ 6 * 2 ^ 2 + b / 16 % 2 ^ 2 = a * 4 + b / 16 := by omega
  have hsecond {b c : ℕ} (hc : c < 64) :
      b % 2 ^ 4 * 2 ^ 4 + c / 4 % 2 ^ 4 = b % 16 * 16 + c / 4 := by omega
  have hthird {c d : ℕ} (hd : d < 64) : c % 2 ^ 2 * 2 ^ 6 + d % 2 ^ 6 = c % 4 * 64 + d := by omega
  fun_induction decodeDigits digits with
  | case1 a b c d rest ih =>
    have ha := h a (by simp)
    have hb := h b (by simp)
    have hc := h c (by simp)
    have hd := h d (by simp)
    rw [ih fun x hx ↦ h x (by simp [hx])]
    simp only [List.flatMap_cons]
    rw [hhigh b, hlow c, List.append_assoc, List.append_assoc, wholeBytes_bits rfl,
      wholeBytes_bits rfl, wholeBytes_bits rfl, hfirst ha hb, hsecond hc, hthird hd]
  | case2 a b c =>
    have ha := h a (by simp)
    have hb := h b (by simp)
    have hc := h c (by simp)
    simp only [List.flatMap_cons, List.flatMap_nil]
    rw [hhigh b, hlow c, List.append_assoc, List.append_assoc, wholeBytes_bits rfl,
      wholeBytes_bits rfl, wholeBytes_of_lt (by simp), hfirst ha hb, hsecond hc]
  | case3 a b =>
    have ha := h a (by simp)
    have hb := h b (by simp)
    simp only [List.flatMap_cons, List.flatMap_nil]
    rw [hhigh b, List.append_assoc, wholeBytes_bits rfl, wholeBytes_of_lt (by simp), hfirst ha hb]
  | case4 digits h₄ h₃ h₂ =>
    rcases digits with _ | ⟨a, _ | ⟨b, _ | ⟨c, _ | ⟨d, rest⟩⟩⟩⟩
    · rfl
    · simp [wholeBytes_of_lt]
    · exact absurd rfl (h₂ a b)
    · exact absurd rfl (h₃ a b c)
    · exact absurd rfl (h₄ a b c d rest)

/-! ## The alphabet -/

/-- The place of a character is its value. -/
def alphabet : JSString := js "ABCDEFGHIJKLMNOPQRSTUVWXYZabcdefghijklmnopqrstuvwxyz0123456789+/"

/-- The characters of a text that belong to the alphabet. -/
def digitsOf (s : JSString) : JSString := s.filter (· ∈ alphabet)

/-- Six bits for each of them. -/
def bitString (s : JSString) : List Bool := (digitsOf s).flatMap fun u ↦ bits 6 (alphabet.idxOf u)

/-- What `Base64Write` checks: there is a byte at the offset, and as many as it predicts. -/
def Accepts (s : JSString) (offset bufferLength : ℕ) : Prop :=
  offset < bufferLength ∧
    ∃ size, decodedSize (latin1Bytes s) = some size ∧ unsigned size ≤ bufferLength - offset

variable {s t : JSString} {offset bufferLength : ℕ}

/-- `unbase64_table` is the inverse of the alphabet. -/
theorem unbase64_eq {u : UInt16} (hu : u.toNat < 0x80) :
    unbase64 u.toUInt8 = if u ∈ alphabet then some (alphabet.idxOf u) else none := by
  have hall : ∀ n < 0x80, unbase64 (UInt16.ofNat n).toUInt8 =
      if UInt16.ofNat n ∈ alphabet then some (alphabet.idxOf (.ofNat n)) else none := by
    decide +kernel
  simpa using hall u.toNat hu

theorem filterMap_unbase64 (hs : IsAscii s) :
    (latin1Bytes s).filterMap unbase64 = (digitsOf s).map alphabet.idxOf := by
  induction s with
  | nil => rfl
  | cons u s ih =>
    have hu := unbase64_eq (hs u (List.mem_cons_self ..))
    have hrest := ih fun x hx ↦ hs x (List.mem_cons_of_mem u hx)
    rw [latin1Bytes, List.map_cons, List.filterMap_cons, hu, digitsOf, List.filter_cons]
    by_cases hmem : u ∈ alphabet
    · simp only [hmem, decide_true, if_true, List.map_cons]
      exact congrArg _ hrest
    · simp only [hmem, decide_false, if_false, Bool.false_eq_true]
      exact hrest

theorem decodeLoop_latin1Bytes (hs : IsAscii s) :
    decodeLoop (latin1Bytes s).length (latin1Bytes s) = wholeBytes (bitString s) := by
  have hlt : ∀ d ∈ (digitsOf s).map alphabet.idxOf, d < 64 := by
    intro d hd
    obtain ⟨u, hu, rfl⟩ := List.mem_map.mp hd
    have hmem : u ∈ alphabet := by simpa using (List.mem_filter.mp hu).2
    exact List.idxOf_lt_length_iff.mpr hmem
  rw [decodeLoop_eq (Nat.le_refl _), filterMap_unbase64 hs, decodeDigits_eq hlt, bitString,
    List.flatMap_map]

theorem exists_decodedSize (src : Bytes) : ∃ size, decodedSize src = some size := by
  rcases Nat.lt_or_ge src.length 2 with hlt | hge
  · exact ⟨0, decodedSize_of_lt hlt⟩
  · obtain ⟨l, x, y, rfl⟩ := exists_append_pair hge
    exact ⟨_, decodedSize_eq (x := x) (y := y) (by simp) (by simp) hge⟩

/-- What is stored in a buffer that has bytes. -/
theorem base64Store_eq_ok (m : Heap) (hs : IsAscii s) (hpos : 0 < bufferLength) {stored : Bytes} :
    base64Store m s offset bufferLength = .ok stored ↔
      Accepts s offset bufferLength ∧ stored = wholeBytes (bitString s) := by
  obtain ⟨size, hsize⟩ := exists_decodedSize (latin1Bytes s)
  have haccepts : Accepts s offset bufferLength ↔
      offset < bufferLength ∧ unsigned size ≤ bufferLength - offset := by
    refine and_congr_right fun _ ↦ ⟨?_, fun hle ↦ ⟨size, hsize, hle⟩⟩
    rintro ⟨size', hsize', hle⟩
    rwa [Option.some.inj (hsize.symm.trans hsize')]
  simp only [base64Store, if_pos (wellFormed_of_isAscii hs), writeAscii_of_isAscii m hs, hsize,
    decodeLoop_latin1Bytes hs, haccepts]
  rw [if_neg (by omega)]
  split_ifs with hout hsmall
  · exact iff_of_false not_false fun h ↦ by omega
  · exact iff_of_false not_false fun h ↦ by omega
  · constructor
    · intro h
      exact ⟨⟨by omega, by omega⟩, (Except.ok.inj h).symm⟩
    · rintro ⟨-, rfl⟩
      rfl

/-- Whenever a text is stored into a buffer that has bytes, what is stored is what its characters of
the alphabet stand for; other characters make no difference to it. -/
theorem stores_digits (m : Heap) (hs : IsAscii s) :
    (∀ offset bufferLength stored, 0 < bufferLength →
      (base64Store m s offset bufferLength = .ok stored ↔
        Accepts s offset bufferLength ∧ stored = wholeBytes (bitString s))) ∧
    ∀ t, IsAscii t → digitsOf t = digitsOf s →
      ∀ offset bufferLength stored, 0 < bufferLength →
        (base64Store m t offset bufferLength = .ok stored ↔
          Accepts t offset bufferLength ∧ stored = wholeBytes (bitString s)) := by
  refine ⟨fun offset bufferLength stored hpos ↦ base64Store_eq_ok m hs hpos, ?_⟩
  intro t ht hsame offset bufferLength stored hpos
  have hbits : bitString t = bitString s := by rw [bitString, hsame, bitString]
  rw [base64Store_eq_ok m ht hpos, hbits]

/-- A text with a line break in a group and padding. -/
theorem stores_digits_padded :
    IsAscii (js "TW\nE=") ∧
    base64Store ⟨fun _ ↦ 0, 0, 0, 0⟩ (js "TW\nE=") 0 8 =
      .ok (wholeBytes (bitString (js "TW\nE="))) := by
  refine ⟨by decide, ?_⟩
  refine ((stores_digits _ (by decide)).1 0 8 _ (by decide)).mpr ⟨⟨by decide, 3, ?_⟩, rfl⟩
  decide

/-- Four blanks behind a text make a buffer too small that has the size of what is stored, and
nothing is stored into a buffer without bytes. -/
theorem blanks_make_buffer_small :
    ¬((∀ m s offset bufferLength, IsAscii s →
        base64Store m s offset bufferLength = .ok (wholeBytes (bitString s))) ∨
      ∀ m s t offset bufferLength, IsAscii s → IsAscii t → digitsOf t = digitsOf s →
        base64Store m t offset bufferLength = base64Store m s offset bufferLength) := by
  rintro (hall | hall)
  · have hzero : base64Store ⟨fun _ ↦ 0, 0, 0, 0⟩ (js "QUJD") 0 0 = .ok [] := by decide
    have hsome := (hall ⟨fun _ ↦ 0, 0, 0, 0⟩ (js "QUJD") 0 0 (by decide)).symm.trans hzero
    exact absurd (Except.ok.inj hsome) (by decide)
  · have hfits : base64Store ⟨fun _ ↦ 0, 0, 0, 0⟩ (js "QUJD") 0 3 = .ok [0x41, 0x42, 0x43] := by
      decide
    have hsmall : base64Store ⟨fun _ ↦ 0, 0, 0, 0⟩ (js "QUJD    ") 0 3 = .error .typeError := by
      decide
    have hsame := hall ⟨fun _ ↦ 0, 0, 0, 0⟩ (js "QUJD") (js "QUJD    ") 0 3 (by decide) (by decide)
      (by decide)
    cases hsmall.symm.trans (hsame.trans hfits)

end SpiderNode.Buffer
