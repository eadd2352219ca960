import Mathlib.Data.List.Basic
import Mathlib.Tactic.Common

/-!
# Strings of UTF-16 code units and their UTF-8 bytes

A JavaScript string is a sequence of 16-bit code units, and `length`, `slice` and `+` all count in
code units. A byte encoding, on the other hand, works on characters: a code unit outside the
surrogate range is a character of its own, and a high surrogate followed by a low one is a single
character. A surrogate that is not part of such a pair has no UTF-8 encoding at all.

`utf8Bytes` is total: it skips the surrogates that no character owns. `WellFormed` singles out the
strings where nothing is skipped, and it is on those that an encoder may be trusted.

## Cutting a string

Encoding does not commute with concatenation in general, because a cut may fall inside a surrogate
pair. `Splits` says that a cut does not, and `utf8Bytes_append` is the law every queue, pool and
buffer of the program relies on.
-/

namespace SpiderNode

/-- A sequence of bytes, as held by a buffer or handed to the kernel. -/
abbrev Bytes := List UInt8

/-- A JavaScript string: its UTF-16 code units. -/
abbrev JSString := List UInt16

instance : LawfulBEq JSString := List.instLawfulBEq

/-- The JavaScript string of a literal whose characters all lie in the basic plane. -/
def js (s : String) : JSString := s.toList.map fun c ↦ c.toNat.toUInt16

/-- What every object has. -/
def objectPrototype : List JSString :=
  [js "constructor", js "toSource", js "toString", js "toLocaleString", js "valueOf", js "watch",
    js "unwatch", js "hasOwnProperty", js "isPrototypeOf", js "propertyIsEnumerable",
    js "__defineGetter__", js "__defineSetter__", js "__lookupGetter__", js "__lookupSetter__",
    js "__proto__"]

/-- A statement about all code units of a string is decided by a walk through the string, also where
the code units are known to form a finite type. -/
instance (priority := high) decidableForallMem {α : Type} (p : α → Prop) [DecidablePred p]
    (l : List α) : Decidable (∀ x ∈ l, p x) := List.decidableBAll p l

instance (priority := high) decidableExistsMem {α : Type} (p : α → Prop) [DecidablePred p]
    (l : List α) : Decidable (∃ x ∈ l, p x) := List.decidableBEx p l

/-! ## Surrogates -/

def isHigh (u : UInt16) : Bool := 0xD800 ≤ u && u ≤ 0xDBFF

def isLow (u : UInt16) : Bool := 0xDC00 ≤ u && u ≤ 0xDFFF

theorem not_isLow_of_isHigh {u : UInt16} (h : isHigh u = true) : isLow u = false := by
  simp only [isHigh, isLow, Bool.and_eq_true, decide_eq_true_eq, UInt16.le_iff_toNat_le] at h ⊢
  simp only [Bool.and_eq_false_iff, decide_eq_false_iff_not]
  have h₁ : (0xDBFF : UInt16).toNat = 0xDBFF := rfl
  have h₂ : (0xDC00 : UInt16).toNat = 0xDC00 := rfl
  omega

/-- The code point of a surrogate pair. -/
def pairCodePoint (hi lo : UInt16) : ℕ :=
  (hi.toNat - 0xD800) * 0x400 + (lo.toNat - 0xDC00) + 0x10000

/-- The UTF-8 bytes of one code point. -/
def codePointBytes (v : ℕ) : Bytes :=
  if v < 0x80 then [.ofNat v]
  else if v < 0x800 then [.ofNat (0xC0 + v / 0x40), .ofNat (0x80 + v % 0x40)]
  else if v < 0x10000 then
    [.ofNat (0xE0 + v / 0x1000), .ofNat (0x80 + v / 0x40 % 0x40), .ofNat (0x80 + v % 0x40)]
  else
    [.ofNat (0xF0 + v / 0x40000), .ofNat (0x80 + v / 0x1000 % 0x40),
      .ofNat (0x80 + v / 0x40 % 0x40), .ofNat (0x80 + v % 0x40)]

theorem length_codePointBytes_pos (v : ℕ) : 0 < (codePointBytes v).length := by
  unfold codePointBytes
  split_ifs <;> simp

theorem length_codePointBytes_le (v : ℕ) : (codePointBytes v).length ≤ 4 := by
  unfold codePointBytes
  split_ifs <;> simp

/-! ## The encoder -/

/-- The UTF-8 bytes of a string; a surrogate outside a pair contributes nothing. -/
def utf8Bytes : JSString → Bytes
  | [] => []
  | [u] => if isHigh u || isLow u then [] else codePointBytes u.toNat
  | u :: v :: rest =>
    if isHigh u && isLow v then codePointBytes (pairCodePoint u v) ++ utf8Bytes rest
    else if isHigh u || isLow u then utf8Bytes (v :: rest)
    else codePointBytes u.toNat ++ utf8Bytes (v :: rest)

/-- Every surrogate of the string is half of a pair. -/
def WellFormed : JSString → Bool
  | [] => true
  | [u] => !(isHigh u || isLow u)
  | u :: v :: rest =>
    if isHigh u && isLow v then WellFormed rest
    else !(isHigh u || isLow u) && WellFormed (v :: rest)

@[simp] theorem utf8Bytes_nil : utf8Bytes [] = [] := by rw [utf8Bytes]

@[simp] theorem wellFormed_nil : WellFormed [] = true := by rw [WellFormed]

/-- A cut between `a` and `b` does not fall inside a surrogate pair. -/
def Splits (a b : JSString) : Prop :=
  ∀ u ∈ a.getLast?, ∀ v ∈ b.head?, (isHigh u && isLow v) = false

@[simp] theorem splits_nil_left (b : JSString) : Splits [] b := by simp [Splits]

@[simp] theorem splits_nil_right (a : JSString) : Splits a [] := by simp [Splits]

theorem Splits.of_cons {u v : UInt16} {a b : JSString} (h : Splits (u :: v :: a) b) :
    Splits (v :: a) b := by
  simpa [Splits] using h

theorem Splits.of_cons_cons {u v : UInt16} {a b : JSString} (h : Splits (u :: v :: a) b) :
    Splits a b := by
  cases a with
  | nil => simp
  | cons w a => exact h.of_cons.of_cons

/-- **The cutting law.** Encoding the two parts of a string encodes the string, provided no
surrogate pair is cut in two. -/
theorem utf8Bytes_append {a b : JSString} (h : Splits a b) :
    utf8Bytes (a ++ b) = utf8Bytes a ++ utf8Bytes b := by
  fun_induction utf8Bytes a with
  | case1 => rfl
  | case2 u hu =>
    cases b with
    | nil => simp [utf8Bytes, hu]
    | cons v b =>
      have hs : (isHigh u && isLow v) = false := h u (by simp) v (by simp)
      simp [utf8Bytes, hs, hu]
  | case3 u hu =>
    cases b with
    | nil => simp [utf8Bytes, hu]
    | cons v b =>
      have hs : (isHigh u && isLow v) = false := h u (by simp) v (by simp)
      simp [utf8Bytes, hs, hu]
  -- the pair is within the first part, so that what is cut is its rest
  | case4 u v rest hp ih => simp [utf8Bytes, hp, ih h.of_cons_cons]
  | case5 u v rest hp hs ih =>
    have ih' := ih h.of_cons
    rw [List.cons_append] at ih'
    simp [utf8Bytes, hp, hs, ih']
  | case6 u v rest hp hs ih =>
    have ih' := ih h.of_cons
    rw [List.cons_append] at ih'
    simp [utf8Bytes, hp, hs, ih']

/-! ## Well-formed strings -/

/-- A well-formed string ends in a whole character, so any cut after it is safe. -/
theorem splits_of_wellFormed {a : JSString} (h : WellFormed a = true) (b : JSString) :
    Splits a b := by
  fun_induction WellFormed a with
  | case1 => simp
  | case2 u =>
    intro w hw v _
    obtain rfl : u = w := by simpa using hw
    simp_all
  | case3 u v rest hp ih =>
    cases rest with
    | nil =>
      intro w hw x _
      obtain rfl : v = w := by simpa using hw
      rw [Bool.and_eq_true] at hp
      cases hv : isHigh v with
      | false => rfl
      | true => simp [not_isLow_of_isHigh hv] at hp
    | cons w rest => simpa [Splits] using ih h
  | case4 u v rest hp ih =>
    rw [Bool.and_eq_true] at h
    simpa [Splits] using ih h.2

theorem wellFormed_append {a b : JSString} (ha : WellFormed a = true) :
    WellFormed (a ++ b) = WellFormed b := by
  fun_induction WellFormed a with
  | case1 => rfl
  | case2 u =>
    cases b with
    | nil => simpa [WellFormed] using ha
    | cons v b => simp_all [WellFormed]
  | case3 u v rest hp ih => simpa [WellFormed, hp] using ih ha
  | case4 u v rest hp ih =>
    rw [Bool.and_eq_true] at ha
    have ih' := ih ha.2
    rw [List.cons_append] at ih'
    simp [WellFormed, hp, ha.1, ih']

theorem wellFormed_of_not_surrogate {s : JSString} (h : ∀ u ∈ s, (isHigh u || isLow u) = false) :
    WellFormed s = true := by
  induction s with
  | nil => simp
  | cons u s ih =>
    have hu := h u (by simp)
    have ih' := ih fun v hv ↦ h v (by simp [hv])
    cases s with
    | nil => simp [WellFormed, hu]
    | cons v s => simp_all [WellFormed]

/-! ## Characters below `U+0080` -/

theorem codePointBytes_of_lt {v : ℕ} (h : v < 0x80) : codePointBytes v = [.ofNat v] := by
  rw [codePointBytes, if_pos h]

theorem not_surrogate_of_lt {u : UInt16} (h : u.toNat < 0xD800) :
    (isHigh u || isLow u) = false := by
  have h₁ : (0xD800 : UInt16).toNat = 0xD800 := rfl
  have h₂ : (0xDC00 : UInt16).toNat = 0xDC00 := rfl
  simp only [isHigh, isLow, Bool.or_eq_false_iff, Bool.and_eq_false_iff, decide_eq_false_iff_not,
    UInt16.le_iff_toNat_le]
  omega

/-- A string starting with an ASCII character can be cut off from whatever precedes it. -/
theorem splits_of_head_lt {u : UInt16} (h : u.toNat < 0x80) (a b : JSString) :
    Splits a (u :: b) := by
  intro w _ v hv
  obtain rfl : u = v := by simpa using hv
  have := not_surrogate_of_lt (u := u) (by omega)
  simp_all

theorem splits_of_getLast_lt {u : UInt16} (h : u.toNat < 0x80) (a b : JSString) :
    Splits (a ++ [u]) b := by
  intro w hw v _
  obtain rfl : u = w := by simpa using hw
  have := not_surrogate_of_lt (u := u) (by omega)
  simp_all

theorem utf8Bytes_cons_of_lt {u : UInt16} (h : u.toNat < 0x80) (s : JSString) :
    utf8Bytes (u :: s) = u.toUInt8 :: utf8Bytes s := by
  have hs := not_surrogate_of_lt (u := u) (by omega)
  have hc : codePointBytes u.toNat = [u.toUInt8] := codePointBytes_of_lt h
  rw [Bool.or_eq_false_iff] at hs
  cases s with
  | nil => simp [utf8Bytes, hs, hc]
  | cons v s => simp [utf8Bytes, hs, hc]

end SpiderNode
