import SpiderNode.Text.Encoding
import SpiderNode.Text.Inflate

/-!
# UTF-8 as a sequence of characters

Bytes that can be made into a string are a sequence of characters, where the first byte of each
tells how many bytes it has and the others are continuation bytes (`isText_iff`). So they can be
decoded in parts, if no character is cut in two, and what a string is encoded to is decoded to that
string.
-/

namespace SpiderNode

/-- The bytes of one character, and its code units. -/
inductive IsCharacter : Bytes → JSString → Prop
  | one {a : UInt8} (ha : a.toNat < 0x80) : IsCharacter [a] [.ofNat a.toNat]
  | two {a b : UInt8} {u : JSString} (ha : 0xC0 ≤ a.toNat) (ha' : a.toNat < 0xE0)
      (hb : isContinuation b = true)
      (hu : codePointUnits 0x80 (a.toNat % 0x20 * 0x40 + b.toNat % 0x40) = some u) :
      IsCharacter [a, b] u
  | three {a b c : UInt8} {u : JSString} (ha : 0xE0 ≤ a.toNat) (ha' : a.toNat < 0xF0)
      (hb : isContinuation b = true) (hc : isContinuation c = true)
      (hu : codePointUnits 0x800
        (a.toNat % 0x10 * 0x1000 + b.toNat % 0x40 * 0x40 + c.toNat % 0x40) = some u) :
      IsCharacter [a, b, c] u
  | four {a b c d : UInt8} {u : JSString} (ha : 0xF0 ≤ a.toNat) (ha' : a.toNat < 0xF8)
      (hb : isContinuation b = true) (hc : isContinuation c = true) (hd : isContinuation d = true)
      (hu : codePointUnits 0x10000 (a.toNat % 0x08 * 0x40000 + b.toNat % 0x40 * 0x1000
        + c.toNat % 0x40 * 0x40 + d.toNat % 0x40) = some u) :
      IsCharacter [a, b, c, d] u

/-- The bytes of a sequence of characters, and their code units. -/
inductive IsText : Bytes → JSString → Prop
  | nil : IsText [] []
  | cons {c b : Bytes} {u s : JSString} (hc : IsCharacter c u) (hb : IsText b s) :
      IsText (c ++ b) (u ++ s)

/-- The number of bytes that the first byte of a character announces; none for other bytes. -/
def leadLength (a : UInt8) : ℕ :=
  if a.toNat < 0x80 then 1
  else if a.toNat < 0xC0 then 0
  else if a.toNat < 0xE0 then 2
  else if a.toNat < 0xF0 then 3
  else if a.toNat < 0xF8 then 4
  else 0

variable {b b' c : Bytes} {s s' u : JSString}

/-! ## Decoding -/

/-- A character in front is decoded on its own. -/
theorem IsCharacter.utf8Decode_append (h : IsCharacter c u) (b : Bytes) :
    utf8Decode (c ++ b) = (utf8Decode b).map (u ++ ·) := by
  cases h with
  | one ha =>
    rw [List.singleton_append]
    conv_lhs => unfold utf8Decode
    rw [if_pos ha]
    rcases utf8Decode b with _ | s <;> rfl
  | two ha ha' hb hu =>
    change utf8Decode (_ :: _ :: b) = _
    conv_lhs => unfold utf8Decode
    rw [if_neg (by omega), if_neg (by omega), if_pos ha']
    dsimp only
    rw [if_pos hb, hu]
    rcases utf8Decode b with _ | s <;> rfl
  | three ha ha' hb hc hu =>
    change utf8Decode (_ :: _ :: _ :: b) = _
    conv_lhs => unfold utf8Decode
    rw [if_neg (by omega), if_neg (by omega), if_neg (by omega), if_pos ha']
    dsimp only
    rw [if_pos (by rw [hb, hc]; rfl), hu]
    rcases utf8Decode b with _ | s <;> rfl
  | four ha ha' hb hc hd hu =>
    change utf8Decode (_ :: _ :: _ :: _ :: b) = _
    conv_lhs => unfold utf8Decode
    rw [if_neg (by omega), if_neg (by omega), if_neg (by omega), if_neg (by omega), if_pos ha']
    dsimp only
    rw [if_pos (by rw [hb, hc, hd]; rfl), hu]
    rcases utf8Decode b with _ | s <;> rfl

theorem IsCharacter.utf8Decode_eq (h : IsCharacter c u) : utf8Decode c = some u := by
  have := h.utf8Decode_append []
  simpa [utf8Decode] using this

theorem IsText.utf8Decode_append (h : IsText b s) (b' : Bytes) :
    utf8Decode (b ++ b') = (utf8Decode b').map (s ++ ·) := by
  induction h with
  | nil => simp
  | cons hc _ ih =>
    rw [List.append_assoc, hc.utf8Decode_append, ih, Option.map_map]
    congr 1
    funext t
    simp

theorem IsText.utf8Decode_eq (h : IsText b s) : utf8Decode b = some s := by
  have := h.utf8Decode_append []
  simpa [utf8Decode] using this

/-- The rest of a string is decoded behind a character. -/
theorem exists_of_bind_eq_some {f : Option JSString}
    (h : (f.bind fun u ↦ (utf8Decode b).bind fun s ↦ some (u ++ s)) = some s) :
    ∃ u t, f = some u ∧ utf8Decode b = some t ∧ s = u ++ t := by
  obtain ⟨u, hu, h⟩ := Option.bind_eq_some_iff.mp h
  obtain ⟨t, ht, h⟩ := Option.bind_eq_some_iff.mp h
  exact ⟨u, t, hu, ht, (Option.some.inj h).symm⟩

theorem isText_of_utf8Decode (h : utf8Decode b = some s) : IsText b s := by
  fun_induction utf8Decode b generalizing s with
  | case1 =>
    obtain rfl := Option.some.inj h
    exact .nil
  | case2 a rest ha ih =>
    obtain ⟨t, ht, h⟩ := Option.bind_eq_some_iff.mp h
    obtain rfl := Option.some.inj h
    exact .cons (.one ha) (ih ht)
  | case4 a ha₁ ha₂ ha b rest hb ih =>
    obtain ⟨u, t, hu, ht, rfl⟩ := exists_of_bind_eq_some h
    exact .cons (.two (Nat.not_lt.mp ha₂) ha hb hu) (ih ht)
  | case7 a ha₁ ha₂ ha₃ ha b c rest hbc ih =>
    obtain ⟨u, t, hu, ht, rfl⟩ := exists_of_bind_eq_some h
    rw [Bool.and_eq_true] at hbc
    exact .cons (.three (Nat.not_lt.mp ha₃) ha hbc.1 hbc.2 hu) (ih ht)
  | case10 a ha₁ ha₂ ha₃ ha₄ ha b c d rest hbcd ih =>
    obtain ⟨u, t, hu, ht, rfl⟩ := exists_of_bind_eq_some h
    rw [Bool.and_eq_true, Bool.and_eq_true] at hbcd
    exact .cons (.four (Nat.not_lt.mp ha₄) ha hbcd.1.1 hbcd.1.2 hbcd.2 hu) (ih ht)
  | _ => cases h

theorem isText_iff : IsText b s ↔ utf8Decode b = some s :=
  ⟨IsText.utf8Decode_eq, isText_of_utf8Decode⟩

theorem IsText.append (h : IsText b s) (h' : IsText b' s') : IsText (b ++ b') (s ++ s') := by
  induction h with
  | nil => exact h'
  | cons hc _ ih =>
    rw [List.append_assoc, List.append_assoc]
    exact .cons hc ih

/-- What is left behind whole characters. -/
theorem IsText.cancel (hb : IsText b u) (h : IsText (b ++ b') s) :
    ∃ t, IsText b' t ∧ s = u ++ t := by
  have hdecode := h.utf8Decode_eq
  rw [hb.utf8Decode_append] at hdecode
  obtain ⟨t, ht, rfl⟩ := Option.map_eq_some_iff.mp hdecode
  exact ⟨t, isText_of_utf8Decode ht, rfl⟩

theorem IsCharacter.isText (h : IsCharacter c u) : IsText c u := by
  simpa using IsText.cons h .nil

/-! ## The bytes of a character -/

theorem leadLength_eq_zero {a : UInt8} (h : isContinuation a = true) : leadLength a = 0 := by
  rw [isContinuation, Bool.and_eq_true, decide_eq_true_eq, decide_eq_true_eq] at h
  rw [leadLength, if_neg (by omega), if_pos h.2]

/-- The first byte announces the length, and the others are continuation bytes. -/
theorem IsCharacter.exists_cons (h : IsCharacter c u) :
    ∃ a l, c = a :: l ∧ leadLength a = c.length ∧ ∀ x ∈ l, leadLength x = 0 := by
  cases h with
  | one ha => exact ⟨_, [], rfl, if_pos ha, nofun⟩
  | two ha ha' hb hu =>
    refine ⟨_, _, rfl, ?_, by simp [leadLength_eq_zero hb]⟩
    rw [leadLength, if_neg (by omega), if_neg (by omega), if_pos ha']
    rfl
  | three ha ha' hb hc hu =>
    refine ⟨_, _, rfl, ?_, by simp [leadLength_eq_zero hb, leadLength_eq_zero hc]⟩
    rw [leadLength, if_neg (by omega), if_neg (by omega), if_neg (by omega), if_pos ha']
    rfl
  | four ha ha' hb hc hd hu =>
    refine ⟨_, _, rfl, ?_,
      by simp [leadLength_eq_zero hb, leadLength_eq_zero hc, leadLength_eq_zero hd]⟩
    rw [leadLength, if_neg (by omega), if_neg (by omega), if_neg (by omega), if_neg (by omega),
      if_pos ha']
    rfl

/-- The first character of a text has the length that its first byte announces. -/
theorem IsText.exists_character {a : UInt8} (h : IsText (a :: b) s) :
    ∃ c u r, IsCharacter c u ∧ a :: b = c ++ r ∧ c.length = leadLength a := by
  generalize hb : a :: b = b' at h
  rcases h with _ | ⟨hc, -⟩
  · cases hb
  · rename_i c r u s
    obtain ⟨a', l, rfl, hlead, -⟩ := hc.exists_cons
    obtain rfl : a = a' := (List.cons.inj hb).1
    exact ⟨_, u, r, hc, rfl, hlead.symm⟩

theorem IsCharacter.length_le (h : IsCharacter c u) : c.length ≤ 4 := by
  cases h <;> simp

/-! ## Encoding -/

theorem isContinuation_ofNat (v : ℕ) : isContinuation (.ofNat (0x80 + v % 0x40)) = true := by
  have hv : (UInt8.ofNat (0x80 + v % 0x40)).toNat = 0x80 + v % 0x40 := by
    rw [UInt8.toNat_ofNat']
    omega
  rw [isContinuation, hv, Bool.and_eq_true, decide_eq_true_eq, decide_eq_true_eq]
  omega

theorem codePointUnits_of_le {least v : ℕ} (hu : codePointUnits 0 v = some u) (h : least ≤ v) :
    codePointUnits least v = some u := by
  rw [codePointUnits] at hu ⊢
  rw [← hu]
  have : (v < least ∨ 0xD800 ≤ v ∧ v ≤ 0xDFFF ∨ 0x10FFFF < v) ↔
      (v < 0 ∨ 0xD800 ≤ v ∧ v ≤ 0xDFFF ∨ 0x10FFFF < v) := by omega
  simp only [this]

theorem lt_of_codePointUnits {v : ℕ} (hu : codePointUnits 0 v = some u) : v < 0x110000 := by
  rw [codePointUnits] at hu
  split_ifs at hu <;> omega

/-- What a code point is encoded to is decoded to its code units. -/
theorem isCharacter_codePointBytes {v : ℕ} (hu : codePointUnits 0 v = some u) :
    IsCharacter (codePointBytes v) u := by
  have hlt := lt_of_codePointUnits hu
  have hmod (n : ℕ) : (UInt8.ofNat (0x80 + n % 0x40)).toNat % 0x40 = n % 0x40 := by
    rw [UInt8.toNat_ofNat']
    omega
  unfold codePointBytes
  split_ifs with h₁ h₂ h₃
  · have ha : (UInt8.ofNat v).toNat = v := by
      rw [UInt8.toNat_ofNat']
      omega
    have hunits : u = [.ofNat (UInt8.ofNat v).toNat] := by
      rw [codePointUnits, if_neg (by omega), if_pos (by omega)] at hu
      rw [ha]
      exact (Option.some.inj hu).symm
    rw [hunits]
    exact .one (by omega)
  · have ha : (UInt8.ofNat (0xC0 + v / 0x40)).toNat = 0xC0 + v / 0x40 := by
      rw [UInt8.toNat_ofNat']
      omega
    -- the bits come together again, and the code point is not one that is shorter
    refine .two (by omega) (by omega) (isContinuation_ofNat v) ?_
    rw [ha, hmod]
    have hv : (0xC0 + v / 0x40) % 0x20 * 0x40 + v % 0x40 = v := by omega
    rw [hv]
    exact codePointUnits_of_le hu (Nat.not_lt.mp h₁)
  · have ha : (UInt8.ofNat (0xE0 + v / 0x1000)).toNat = 0xE0 + v / 0x1000 := by
      rw [UInt8.toNat_ofNat']
      omega
    refine .three (by omega) (by omega) (isContinuation_ofNat _) (isContinuation_ofNat v) ?_
    rw [ha, hmod, hmod]
    have hv : (0xE0 + v / 0x1000) % 0x10 * 0x1000 + v / 0x40 % 0x40 * 0x40 + v % 0x40 = v := by
      omega
    rw [hv]
    exact codePointUnits_of_le hu (Nat.not_lt.mp h₂)
  · have ha : (UInt8.ofNat (0xF0 + v / 0x40000)).toNat = 0xF0 + v / 0x40000 := by
      rw [UInt8.toNat_ofNat']
      omega
    refine .four (by omega) (by omega) (isContinuation_ofNat _) (isContinuation_ofNat _)
      (isContinuation_ofNat v) ?_
    rw [ha, hmod, hmod, hmod]
    have hv : (0xF0 + v / 0x40000) % 0x08 * 0x40000 + v / 0x1000 % 0x40 * 0x1000
        + v / 0x40 % 0x40 * 0x40 + v % 0x40 = v := by omega
    rw [hv]
    exact codePointUnits_of_le hu (Nat.not_lt.mp h₃)

theorem codePointUnits_unit {x : UInt16} (h : (isHigh x || isLow x) = false) :
    codePointUnits 0 x.toNat = some [x] := by
  have h₁ : (0xD800 : UInt16).toNat = 0xD800 := rfl
  have h₂ : (0xDBFF : UInt16).toNat = 0xDBFF := rfl
  have h₃ : (0xDC00 : UInt16).toNat = 0xDC00 := rfl
  have h₄ : (0xDFFF : UInt16).toNat = 0xDFFF := rfl
  have hx := x.toNat_lt
  simp only [isHigh, isLow, Bool.or_eq_false_iff, Bool.and_eq_false_iff, decide_eq_false_iff_not,
    UInt16.le_iff_toNat_le] at h
  rw [codePointUnits, if_neg (by omega), if_pos (by omega), UInt16.ofNat_toNat]

theorem codePointUnits_pair {hi lo : UInt16} (hh : isHigh hi = true) (hl : isLow lo = true) :
    codePointUnits 0 (pairCodePoint hi lo) = some [hi, lo] := by
  have h₁ : (0xD800 : UInt16).toNat = 0xD800 := rfl
  have h₂ : (0xDBFF : UInt16).toNat = 0xDBFF := rfl
  have h₃ : (0xDC00 : UInt16).toNat = 0xDC00 := rfl
  have h₄ : (0xDFFF : UInt16).toNat = 0xDFFF := rfl
  simp only [isHigh, isLow, Bool.and_eq_true, decide_eq_true_eq, UInt16.le_iff_toNat_le] at hh hl
  rw [codePointUnits, pairCodePoint, if_neg (by omega), if_neg (by omega)]
  have hhi : UInt16.ofNat (0xD800 + ((hi.toNat - 0xD800) * 0x400 + (lo.toNat - 0xDC00) + 0x10000
      - 0x10000) / 0x400) = hi := by
    rw [← UInt16.toNat_inj, UInt16.toNat_ofNat']
    omega
  have hlo : UInt16.ofNat (0xDC00 + ((hi.toNat - 0xD800) * 0x400 + (lo.toNat - 0xDC00) + 0x10000
      - 0x10000) % 0x400) = lo := by
    rw [← UInt16.toNat_inj, UInt16.toNat_ofNat']
    omega
  rw [hhi, hlo]

/-- What a well-formed string is encoded to is decoded to that string. -/
theorem isText_utf8Bytes (h : WellFormed s = true) : IsText (utf8Bytes s) s := by
  fun_induction WellFormed s with
  | case1 => simpa using IsText.nil
  | case2 x =>
    have hx : (isHigh x || isLow x) = false := by simpa using h
    have hbytes : utf8Bytes [x] = codePointBytes x.toNat ++ [] := by simp [utf8Bytes, hx]
    rw [hbytes]
    exact .cons (isCharacter_codePointBytes (codePointUnits_unit hx)) .nil
  | case3 x y rest hp ih =>
    have hbytes : utf8Bytes (x :: y :: rest) =
        codePointBytes (pairCodePoint x y) ++ utf8Bytes rest := by simp [utf8Bytes, hp]
    rw [Bool.and_eq_true] at hp
    rw [hbytes]
    exact .cons (isCharacter_codePointBytes (codePointUnits_pair hp.1 hp.2)) (ih h)
  | case4 x y rest hp ih =>
    rw [Bool.and_eq_true, Bool.not_eq_true'] at h
    rw [utf8Bytes_cons_of_not_surrogate h.1]
    exact .cons (isCharacter_codePointBytes (codePointUnits_unit h.1)) (ih h.2)

theorem utf8Decode_utf8Bytes (h : WellFormed s = true) : utf8Decode (utf8Bytes s) = some s :=
  (isText_utf8Bytes h).utf8Decode_eq

end SpiderNode
