import SpiderNode.Text.Utf16

/-!
# The character encodings of `write`

`write(data, encoding)` takes its encoding as a JavaScript value: absent, or one of the names that
`Buffer` knows. Two spellings of the same encoding are different values, and the program compares
them with `===` when it decides whether two strings may be joined, so the spellings are kept apart
here. An absent encoding stands for UTF-8.

`encodeText` gives the bytes of a string under the three encodings that work character by
character. In the single-byte ones each code unit is one byte.
-/

namespace SpiderNode

/-- The encodings that turn each character of a string into bytes on its own. -/
inductive TextEncoding where
  | utf8
  /-- The spelling `utf-8`. -/
  | utf8Dash
  | ascii
  | binary
  deriving DecidableEq, Repr

/-- The encodings `Buffer.prototype.write` accepts. -/
inductive Encoding where
  | text (e : TextEncoding)
  | base64
  | ucs2
  | hex
  deriving DecidableEq, Repr

/-- Whether an `encoding` argument, possibly absent, stands for UTF-8. -/
def isUtf8 : Option TextEncoding → Bool
  | none | some .utf8 | some .utf8Dash => true
  | some .ascii | some .binary => false

/-- One byte for each code unit. -/
def latin1Bytes (s : JSString) : Bytes := s.map UInt16.toUInt8

/-- The bytes of a string under an `encoding` argument. -/
def encodeText (e : Option TextEncoding) (s : JSString) : Bytes :=
  if isUtf8 e then utf8Bytes s else latin1Bytes s

/-- Every character of the string has bytes under the encoding. -/
def Encodable (e : Option TextEncoding) (s : JSString) : Bool := !isUtf8 e || WellFormed s

@[simp] theorem encodeText_nil (e : Option TextEncoding) : encodeText e [] = [] := by
  simp [encodeText, latin1Bytes]

@[simp] theorem encodable_nil (e : Option TextEncoding) : Encodable e [] = true := by
  simp [Encodable]

theorem encodeText_of_isUtf8 {e : Option TextEncoding} (h : isUtf8 e = true) (s : JSString) :
    encodeText e s = encodeText none s := by
  rw [encodeText, encodeText, h]
  rfl

/-- Only in UTF-8 there are characters without bytes. -/
theorem isUtf8_of_encodeText_eq_nil {e : Option TextEncoding} {s : JSString} (hs : s ≠ [])
    (h : encodeText e s = []) : isUtf8 e = true := by
  by_contra hu
  rw [encodeText, if_neg hu, latin1Bytes, List.map_eq_nil_iff] at h
  exact hs h

/-! ## Cutting -/

theorem encodeText_append_of_splits {e : Option TextEncoding} {a b : JSString} (h : Splits a b) :
    encodeText e (a ++ b) = encodeText e a ++ encodeText e b := by
  unfold encodeText
  split
  · exact utf8Bytes_append h
  · simp [latin1Bytes]

theorem encodeText_append {e : Option TextEncoding} {a : JSString} (h : Encodable e a = true)
    (b : JSString) : encodeText e (a ++ b) = encodeText e a ++ encodeText e b := by
  cases he : isUtf8 e with
  | false => simp [encodeText, he, latin1Bytes]
  | true =>
    rw [Encodable, he] at h
    exact encodeText_append_of_splits (splits_of_wellFormed (by simpa using h) b)

theorem encodable_append {e : Option TextEncoding} {a : JSString} (h : Encodable e a = true)
    (b : JSString) : Encodable e (a ++ b) = Encodable e b := by
  cases he : isUtf8 e with
  | false => simp [Encodable, he]
  | true =>
    rw [Encodable, he] at h
    simpa [Encodable, he] using wellFormed_append (b := b) (by simpa using h)

/-- An encodable string that is not empty has bytes. -/
theorem encodeText_ne_nil {e : Option TextEncoding} {s : JSString} (h : Encodable e s = true)
    (hs : s ≠ []) : encodeText e s ≠ [] := by
  obtain ⟨u, t, rfl⟩ := List.exists_cons_of_ne_nil hs
  cases he : isUtf8 e with
  | false => simp [encodeText, he, latin1Bytes]
  | true =>
    have hw : WellFormed (u :: t) = true := by simpa [Encodable, he] using h
    have hne : ∀ v, codePointBytes v ≠ [] := fun v ↦
      List.ne_nil_of_length_pos (length_codePointBytes_pos v)
    rw [encodeText, if_pos he]
    cases t with
    | nil => simp_all [utf8Bytes, WellFormed]
    | cons v t =>
      rw [WellFormed] at hw
      rw [utf8Bytes]
      split
      · simp [hne]
      · simp_all

/-! ## ASCII text

The texts the program writes of its own, such as chunk sizes and line ends, have the same bytes
under every encoding. -/

/-- Every code unit is below `0x80`. -/
def IsAscii (s : JSString) : Prop := ∀ u ∈ s, u.toNat < 0x80

instance (s : JSString) : Decidable (IsAscii s) := inferInstanceAs (Decidable (∀ u ∈ s, _))

theorem IsAscii.append {a b : JSString} (ha : IsAscii a) (hb : IsAscii b) : IsAscii (a ++ b) := by
  intro u hu
  rcases List.mem_append.mp hu with h | h
  · exact ha u h
  · exact hb u h

theorem utf8Bytes_of_isAscii {s : JSString} (h : IsAscii s) : utf8Bytes s = latin1Bytes s := by
  induction s with
  | nil => rfl
  | cons u s ih =>
    rw [utf8Bytes_cons_of_lt (h u (by simp)), ih fun v hv ↦ h v (by simp [hv])]
    rfl

theorem encodeText_of_isAscii {s : JSString} (h : IsAscii s) (e : Option TextEncoding) :
    encodeText e s = latin1Bytes s := by
  unfold encodeText
  split
  · exact utf8Bytes_of_isAscii h
  · rfl

/-- ASCII text in front of a string is encoded on its own. -/
theorem encodeText_ascii_append {a : JSString} (h : IsAscii a) (e : Option TextEncoding)
    (b : JSString) : encodeText e (a ++ b) = latin1Bytes a ++ encodeText e b := by
  induction a with
  | nil => rfl
  | cons u a ih =>
    have hu : u.toNat < 0x80 := h u (by simp)
    have ih' := ih fun v hv ↦ h v (by simp [hv])
    cases he : isUtf8 e with
    | false => simp [encodeText, he, latin1Bytes]
    | true =>
      rw [encodeText, if_pos he] at ih' ⊢
      rw [List.cons_append, utf8Bytes_cons_of_lt hu, ih']
      rfl

/-- So is ASCII text behind it. -/
theorem encodeText_append_ascii {b : JSString} (h : IsAscii b) (e : Option TextEncoding)
    (a : JSString) : encodeText e (a ++ b) = encodeText e a ++ latin1Bytes b := by
  rw [encodeText_append_of_splits, encodeText_of_isAscii h]
  cases b with
  | nil => simp
  | cons u b => exact splits_of_head_lt (h u (by simp)) a b

/-! ## Two encodings of one text

A character outside ASCII takes more bytes in UTF-8 than code units, and all of them are at least
`0x80`. So the two encodings of a text that ends in an ASCII character are prefixes of the same
bytes only if they are equal. -/

theorem le_of_mem_codePointBytes {v : ℕ} (h : 0x80 ≤ v) (h' : v < 0x110000) :
    ∀ x ∈ codePointBytes v, 0x80 ≤ x.toNat := by
  intro x hx
  rw [codePointBytes, if_neg (by omega)] at hx
  split_ifs at hx <;> simp only [List.mem_cons, List.not_mem_nil, or_false] at hx
  · rcases hx with rfl | rfl <;> rw [UInt8.toNat_ofNat'] <;> omega
  · rcases hx with rfl | rfl | rfl <;> rw [UInt8.toNat_ofNat'] <;> omega
  · rcases hx with rfl | rfl | rfl | rfl <;> rw [UInt8.toNat_ofNat'] <;> omega

theorem two_le_length_codePointBytes {v : ℕ} (h : 0x80 ≤ v) : 2 ≤ (codePointBytes v).length := by
  rw [codePointBytes, if_neg (by omega)]
  split_ifs <;> simp

theorem pairCodePoint_lt {hi lo : UInt16} (hh : isHigh hi = true) (hl : isLow lo = true) :
    0x10000 ≤ pairCodePoint hi lo ∧ pairCodePoint hi lo < 0x110000 := by
  have h₁ : (0xDBFF : UInt16).toNat = 0xDBFF := rfl
  have h₂ : (0xDFFF : UInt16).toNat = 0xDFFF := rfl
  simp only [isHigh, isLow, Bool.and_eq_true, decide_eq_true_eq, UInt16.le_iff_toNat_le] at hh hl
  rw [pairCodePoint]
  omega

theorem latin1Bytes_cons (u : UInt16) (s : JSString) :
    latin1Bytes (u :: s) = u.toUInt8 :: latin1Bytes s := rfl

theorem utf8Bytes_cons_of_not_surrogate {u : UInt16} (h : (isHigh u || isLow u) = false)
    (s : JSString) : utf8Bytes (u :: s) = codePointBytes u.toNat ++ utf8Bytes s := by
  rw [Bool.or_eq_false_iff] at h
  cases s with
  | nil => simp [utf8Bytes, h]
  | cons v s => simp [utf8Bytes, h]

theorem toNat_toUInt8_of_lt {u : UInt16} (h : u.toNat < 0x80) : u.toUInt8.toNat < 0x80 := by
  rw [UInt16.toNat_toUInt8]
  omega

section

variable {t : JSString} {a : UInt8} {p x y : Bytes}

/-- UTF-8 lags behind: `p` of it is still to come. -/
def Lags (a : UInt8) (x y : Bytes) (t : JSString) (p : Bytes) : Prop :=
  p ≠ [] ∧ (∀ b ∈ p, 0x80 ≤ b.toNat) ∧ latin1Bytes t ++ a :: x = p ++ utf8Bytes t ++ a :: y

/-- A character outside ASCII leaves UTF-8 behind. -/
theorem lags_of_codePoint {v : ℕ} {l : Bytes} (hv : 0x80 ≤ v) (hv' : v < 0x110000)
    (hp : ∀ b ∈ p, 0x80 ≤ b.toNat) (hlen : l.length < (codePointBytes v).length)
    (h : l ++ (latin1Bytes t ++ a :: x) = p ++ (codePointBytes v ++ utf8Bytes t) ++ a :: y) :
    ∃ q, Lags a x y t q := by
  have hall : ∀ b ∈ p ++ codePointBytes v, 0x80 ≤ b.toNat := by
    intro c hc
    rcases List.mem_append.mp hc with hc | hc
    · exact hp c hc
    · exact le_of_mem_codePointBytes hv hv' c hc
  have hlen' : l.length < (p ++ codePointBytes v).length := by
    rw [List.length_append]
    omega
  rw [← List.append_assoc p] at h
  generalize p ++ codePointBytes v = q at *
  refine ⟨q.drop l.length, ?_, fun d hd ↦ hall d (List.mem_of_mem_drop hd), ?_⟩
  · exact List.ne_nil_of_length_pos (by rw [List.length_drop]; omega)
  · have h' := congrArg (List.drop l.length) h
    rw [List.drop_left, List.append_assoc, List.drop_append_of_le_length (by omega)] at h'
    rw [h', List.append_assoc]

theorem lags_of_cons {u : UInt16} (hu : (isHigh u || isLow u) = false) (hge : 0x80 ≤ u.toNat)
    (hp : ∀ b ∈ p, 0x80 ≤ b.toNat)
    (h : latin1Bytes (u :: t) ++ a :: x = p ++ utf8Bytes (u :: t) ++ a :: y) :
    ∃ q, Lags a x y t q := by
  rw [latin1Bytes_cons, utf8Bytes_cons_of_not_surrogate hu] at h
  exact lags_of_codePoint (l := [u.toUInt8]) hge (Nat.lt_trans u.toNat_lt (by decide)) hp
    (two_le_length_codePointBytes hge) h

theorem lags_of_pair {u v : UInt16} (hs : (isHigh u && isLow v) = true)
    (hp : ∀ b ∈ p, 0x80 ≤ b.toNat)
    (h : latin1Bytes (u :: v :: t) ++ a :: x = p ++ utf8Bytes (u :: v :: t) ++ a :: y) :
    ∃ q, Lags a x y t q := by
  obtain ⟨hu, hv⟩ : isHigh u = true ∧ isLow v = true := by simpa using hs
  obtain ⟨hge, hlt⟩ := pairCodePoint_lt hu hv
  have hlen : (codePointBytes (pairCodePoint u v)).length = 4 := by
    rw [codePointBytes, if_neg (by omega), if_neg (by omega), if_neg (by omega)]
    rfl
  rw [utf8Bytes, if_pos hs] at h
  exact lags_of_codePoint (l := [u.toUInt8, v.toUInt8]) (by omega) hlt hp (by simp [hlen]) h

theorem Lags.of_cons {u : UInt16} (hu : (isHigh u || isLow u) = false)
    (h : Lags a x y (u :: t) p) : ∃ q, Lags a x y t q := by
  obtain ⟨hne, hp, h⟩ := h
  refine lags_of_cons hu ?_ hp h
  obtain ⟨b, p, rfl⟩ := List.exists_cons_of_ne_nil hne
  have hb := hp b (by simp)
  by_contra hlt
  have hu' := toNat_toUInt8_of_lt (Nat.lt_of_not_le hlt)
  rw [(List.cons.inj h).1] at hu'
  omega

/-- It never catches up. -/
theorem not_lags (hw : WellFormed t = true) (ha : a.toNat < 0x80) : ¬Lags a x y t p := by
  have hnil : ∀ p, ¬Lags a x y [] p := by
    rintro p ⟨hne, hp, h⟩
    obtain ⟨b, p, rfl⟩ := List.exists_cons_of_ne_nil hne
    have hb := hp b (by simp)
    have hab : a = b := by simpa [latin1Bytes] using (List.cons.inj h).1
    subst hab
    omega
  fun_induction WellFormed t generalizing p with
  | case1 => exact hnil p
  | case2 u =>
    intro h
    obtain ⟨q, hq⟩ := h.of_cons (by simpa using hw)
    exact hnil q hq
  | case3 u v rest hs ih =>
    intro h
    obtain ⟨q, hq⟩ := lags_of_pair hs h.2.1 h.2.2
    exact ih hw hq
  | case4 u v rest hs ih =>
    rw [Bool.and_eq_true] at hw
    intro h
    obtain ⟨q, hq⟩ := h.of_cons (by simpa using hw.1)
    exact ih hw.2 hq

/-- If both encodings of a text that ends in an ASCII character begin the same bytes, they are
equal. -/
theorem latin1Bytes_eq_of_append (hw : WellFormed t = true) (ha : a.toNat < 0x80)
    (h : latin1Bytes t ++ a :: x = utf8Bytes t ++ a :: y) : latin1Bytes t = utf8Bytes t := by
  -- a first character that takes more bytes in UTF-8 is behind for good
  have hcons : ∀ {u : UInt16} {t : JSString}, (isHigh u || isLow u) = false →
      WellFormed t = true → latin1Bytes (u :: t) ++ a :: x = utf8Bytes (u :: t) ++ a :: y →
      u.toNat < 0x80 ∧ latin1Bytes t ++ a :: x = utf8Bytes t ++ a :: y := by
    intro u t hu hw h
    have hlt : u.toNat < 0x80 := by
      by_contra hge
      obtain ⟨q, hq⟩ := lags_of_cons (p := []) hu (Nat.le_of_not_lt hge) (by simp) h
      exact not_lags hw ha hq
    rw [latin1Bytes_cons, utf8Bytes_cons_of_lt hlt] at h
    exact ⟨hlt, (List.cons.inj h).2⟩
  fun_induction WellFormed t with
  | case1 => rfl
  | case2 u =>
    obtain ⟨hlt, -⟩ := hcons (by simpa using hw) rfl h
    rw [utf8Bytes_cons_of_lt hlt]
    rfl
  | case3 u v rest hs ih =>
    obtain ⟨q, hq⟩ := lags_of_pair (p := []) hs (by simp) h
    exact absurd hq (not_lags hw ha)
  | case4 u v rest hs ih =>
    rw [Bool.and_eq_true] at hw
    obtain ⟨hlt, h⟩ := hcons (by simpa using hw.1) hw.2 h
    rw [latin1Bytes_cons, utf8Bytes_cons_of_lt hlt, ih hw.2 h]

/-- A well-formed text begins with well-formed texts, wherever no pair is cut. -/
theorem wellFormed_of_append {b : JSString} (hs : Splits t b) (h : WellFormed (t ++ b) = true) :
    WellFormed t = true := by
  fun_induction WellFormed t with
  | case1 => rfl
  | case2 u =>
    cases b with
    | nil => simpa [WellFormed] using h
    | cons v b =>
      have hp : (isHigh u && isLow v) = false := hs u (by simp) v (by simp)
      simp only [List.cons_append, List.nil_append, WellFormed, hp, Bool.false_eq_true, if_false,
        Bool.and_eq_true] at h
      exact h.1
  | case3 u v rest hp ih =>
    simp only [List.cons_append, WellFormed, hp, if_true] at h
    exact ih hs.of_cons_cons h
  | case4 u v rest hp ih =>
    simp only [List.cons_append, WellFormed, hp, Bool.false_eq_true, if_false,
      Bool.and_eq_true] at h
    rw [h.1, ih hs.of_cons h.2]
    rfl

/-- If a text that ends in an ASCII character begins the same bytes under two encodings, the rest is
the same as well. -/
theorem append_cancel_encodeText {u : UInt16} (hu : u.toNat < 0x80)
    (hw : WellFormed (t ++ [u]) = true) (e : Option TextEncoding)
    (h : encodeText e (t ++ [u]) ++ x = encodeText none (t ++ [u]) ++ y) : x = y := by
  have hone : IsAscii [u] := by simpa [IsAscii] using hu
  have hsplit : Splits t [u] := splits_of_head_lt hu t []
  rw [encodeText_append_ascii hone, encodeText_append_ascii hone] at h
  cases he : isUtf8 e with
  | true =>
    rw [encodeText_of_isUtf8 he] at h
    exact List.append_cancel_left h
  | false =>
    have hl : encodeText e t = latin1Bytes t := by simp [encodeText, he]
    have hn : encodeText none t = utf8Bytes t := rfl
    have hone' : latin1Bytes [u] = [u.toUInt8] := rfl
    rw [hl, hn, hone', List.append_assoc, List.append_assoc] at h
    have heq := latin1Bytes_eq_of_append (wellFormed_of_append hsplit hw) (toNat_toUInt8_of_lt hu) h
    rw [heq] at h
    exact (List.cons.inj (List.append_cancel_left h)).2

end

end SpiderNode
