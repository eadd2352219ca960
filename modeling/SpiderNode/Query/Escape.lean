import SpiderNode.Buffer.Views
import SpiderNode.Text.Characters
import Mathlib.Tactic.IntervalCases

/-!
# Escaped strings

`escape` writes a string as UTF-8 and leaves a byte as it is if it is one of the characters that
mean nothing in a URI; all others become `%` and two digits. `unescapeBuffer` reads that in one
pass, with the end of the string as one more character whose byte is cut off again. It also reads
what no `escape` wrote: a `%` that no two digits follow stands for itself.

`unescape_escape` says that nothing is lost, and `mem_escapeText` that no separator is left.
-/

namespace SpiderNode.Query

open Net (JsError)
open Buffer (hexDigit)

/-! ## The two directions -/

/-- `js_uriUnescaped_ucstr` -/
def uriUnescaped : JSString :=
  js "0123456789ABCDEFGHIJKLMNOPQRSTUVWXYZabcdefghijklmnopqrstuvwxyz-_.!~*'()"

/-- A digit of `HexDigits`. -/
def upperUnit (d : ℕ) : UInt16 := .ofNat (if d < 10 then 0x30 + d else 0x37 + d)

/-- A byte as `Encode` writes it. -/
def percent (b : UInt8) : JSString := [0x25, upperUnit (b.toNat / 16), upperUnit (b.toNat % 16)]

def badUri : JsError := .error "malformed URI sequence"

/-- `encodeURIComponent` -/
def encodeURIComponent : JSString → Except JsError JSString
  | [] => .ok []
  | [c] =>
    if c ∈ uriUnescaped then .ok [c]
    else if isLow c || isHigh c then .error badUri
    else .ok ((codePointBytes c.toNat).flatMap percent)
  | c :: c₂ :: rest =>
    if c ∈ uriUnescaped then (encodeURIComponent (c₂ :: rest)).map ([c] ++ ·)
    else if isLow c then .error badUri
    else if isHigh c then
      if isLow c₂ then
        (encodeURIComponent rest).map ((codePointBytes (pairCodePoint c c₂)).flatMap percent ++ ·)
      else .error badUri
    else (encodeURIComponent (c₂ :: rest)).map ((codePointBytes c.toNat).flatMap percent ++ ·)

/-- `QueryString.escape` -/
def escape (str : JSString) : Except JsError JSString := encodeURIComponent str

/-- The state of `unescapeBuffer`; in `hex1` the first digit has the value `n`. -/
inductive Scan where
  | char
  | hex0
  | hex1 (n : ℕ) (hexchar : Option UInt16)
  deriving DecidableEq, Repr

/-- What an index of a buffer keeps of a code unit; `none` is `NaN`. -/
def stored (c : Option UInt16) : UInt8 := (c.map (·.toUInt8)).getD 0

/-- The bytes that the loop of `unescapeBuffer` writes. -/
def scan (decodeSpaces : Bool) : Scan → List (Option UInt16) → Bytes
  | _, [] => []
  | .char, c :: cs =>
    if c = some 0x25 then scan decodeSpaces .hex0 cs
    else stored (if c = some 0x2B ∧ decodeSpaces = true then some 0x20 else c) ::
      scan decodeSpaces .char cs
  | .hex0, c :: cs =>
    match c.bind hexDigit with
    | some n => scan decodeSpaces (.hex1 n c) cs
    | none => [0x25, stored c] ++ scan decodeSpaces .char cs
  | .hex1 n hexchar, c :: cs =>
    match c.bind hexDigit with
    | some m => .ofNat (16 * n + m) :: scan decodeSpaces .char cs
    | none => [0x25, stored hexchar, stored c] ++ scan decodeSpaces .char cs

/-- `QueryString.unescapeBuffer`: the end of the string is read as well, and the byte written last
is cut off. -/
def unescapeBuffer (s : JSString) (decodeSpaces : Bool) : Bytes :=
  (scan decodeSpaces .char (s.map some ++ [none])).dropLast

/-- `QueryString.unescape` -/
def unescape (s : JSString) (decodeSpaces : Bool) : Except JsError JSString :=
  Buffer.decode .utf8 (unescapeBuffer s decodeSpaces)

/-! ## One byte at a time -/

/-- What `escape` makes of a byte. -/
def escapeByte (b : UInt8) : JSString :=
  if b.toUInt16 ∈ uriUnescaped then [b.toUInt16] else percent b

/-- What `escape` makes of a string that is written as `b`. -/
def escapeText (b : Bytes) : JSString := b.flatMap escapeByte

variable {s : JSString} {u : UInt16} {b : UInt8} {bs : Bytes} {d : ℕ}

theorem lt_of_mem_uriUnescaped (h : u ∈ uriUnescaped) : u.toNat < 0x80 := by
  revert u
  decide

theorem ne_of_mem_uriUnescaped (h : u ∈ uriUnescaped) :
    u ≠ 0x25 ∧ u ≠ 0x2B ∧ u ≠ 0x26 ∧ u ≠ 0x3D := by
  revert u
  decide

theorem upperUnit_mem (h : d < 16) : upperUnit d ∈ uriUnescaped := by
  interval_cases d <;> decide

theorem hexDigit_upperUnit (h : d < 16) : hexDigit (upperUnit d) = some d := by
  interval_cases d <;> rfl

/-- A byte of a longer sequence is never left as it is. -/
theorem escapeByte_of_le (h : 0x80 ≤ b.toNat) : escapeByte b = percent b := by
  rw [escapeByte, if_neg]
  intro hmem
  have hlt := lt_of_mem_uriUnescaped hmem
  rw [UInt8.toNat_toUInt16] at hlt
  omega

theorem flatMap_percent {v : ℕ} (hv : ∀ w ∈ uriUnescaped, w.toNat ≠ v) (hlt : v < 0x110000) :
    (codePointBytes v).flatMap percent = escapeText (codePointBytes v) := by
  rw [escapeText, List.flatMap_def, List.flatMap_def]
  congr 1
  refine List.map_congr_left fun b hb ↦ ?_
  by_cases h : v < 0x80
  · rw [codePointBytes_of_lt h, List.mem_singleton] at hb
    have hb' : b.toUInt16.toNat = v := by
      rw [hb, UInt8.toNat_toUInt16, UInt8.toNat_ofNat']
      omega
    rw [escapeByte, if_neg fun hmem ↦ hv _ hmem hb']
  · exact (escapeByte_of_le (le_of_mem_codePointBytes (Nat.not_lt.mp h) hlt b hb)).symm

theorem escapeText_append (b c : Bytes) : escapeText (b ++ c) = escapeText b ++ escapeText c :=
  List.flatMap_append

theorem escapeText_unescaped (h : u ∈ uriUnescaped) : escapeText [u.toUInt8] = [u] := by
  have hlt := lt_of_mem_uriUnescaped h
  have hu : u.toUInt8.toUInt16 = u := by
    rw [← UInt16.toNat_inj, UInt8.toNat_toUInt16, UInt16.toNat_toUInt8]
    omega
  rw [escapeText, List.flatMap_singleton, escapeByte, hu, if_pos h]

/-- A well-formed string has an escape, that of its bytes. -/
theorem encodeURIComponent_eq (h : WellFormed s = true) :
    encodeURIComponent s = .ok (escapeText (utf8Bytes s)) := by
  fun_induction WellFormed s with
  | case1 => rfl
  | case2 c =>
    have hc : (isHigh c || isLow c) = false := by simpa using h
    rw [encodeURIComponent]
    by_cases hmem : c ∈ uriUnescaped
    · rw [if_pos hmem, utf8Bytes_cons_of_lt (lt_of_mem_uriUnescaped hmem), utf8Bytes_nil,
        escapeText_unescaped hmem]
    · have hv : ∀ w ∈ uriUnescaped, w.toNat ≠ c.toNat := fun w hw he ↦
        hmem (UInt16.toNat_inj.mp he ▸ hw)
      have hlt := c.toNat_lt
      rw [if_neg hmem, Bool.or_comm, hc, if_neg Bool.false_ne_true, flatMap_percent hv (by omega),
        utf8Bytes, hc, if_neg Bool.false_ne_true]
  | case3 c c₂ rest hp ih =>
    have hp' := hp
    rw [Bool.and_eq_true] at hp'
    have hhigh : c ∉ uriUnescaped := by
      intro hmem
      have := not_surrogate_of_lt (u := c) (by have := lt_of_mem_uriUnescaped hmem; omega)
      simp [hp'.1] at this
    have hv : ∀ w ∈ uriUnescaped, w.toNat ≠ pairCodePoint c c₂ := by
      intro w hw he
      have := lt_of_mem_uriUnescaped hw
      rw [pairCodePoint] at he
      omega
    have hlt : pairCodePoint c c₂ < 0x110000 := (pairCodePoint_lt hp'.1 hp'.2).2
    rw [encodeURIComponent, if_neg hhigh, not_isLow_of_isHigh hp'.1, if_neg Bool.false_ne_true,
      if_pos hp'.1, if_pos hp'.2, ih h, flatMap_percent hv hlt, utf8Bytes, if_pos hp,
      escapeText_append]
    rfl
  | case4 c c₂ rest hp ih =>
    rw [Bool.and_eq_true] at h
    have hc : (isHigh c || isLow c) = false := by simpa using h.1
    have hc' := hc
    rw [Bool.or_eq_false_iff] at hc'
    rw [encodeURIComponent, ih h.2]
    by_cases hmem : c ∈ uriUnescaped
    · have hsplit : c.toUInt8 :: utf8Bytes (c₂ :: rest) =
          [c.toUInt8] ++ utf8Bytes (c₂ :: rest) := rfl
      rw [if_pos hmem, utf8Bytes_cons_of_lt (lt_of_mem_uriUnescaped hmem), hsplit,
        escapeText_append, escapeText_unescaped hmem]
      rfl
    · have hv : ∀ w ∈ uriUnescaped, w.toNat ≠ c.toNat := fun w hw he ↦
        hmem (UInt16.toNat_inj.mp he ▸ hw)
      have hlt := c.toNat_lt
      rw [if_neg hmem, hc'.2, if_neg Bool.false_ne_true, hc'.1, if_neg Bool.false_ne_true,
        flatMap_percent hv (by omega), utf8Bytes, if_neg hp, hc, if_neg Bool.false_ne_true,
        escapeText_append]
      rfl

/-! ## Reading an escape -/

variable (decodeSpaces : Bool)

theorem scan_escapeByte (b : UInt8) (cs : List (Option UInt16)) :
    scan decodeSpaces .char ((escapeByte b).map some ++ cs) = b :: scan decodeSpaces .char cs := by
  by_cases h : b.toUInt16 ∈ uriUnescaped
  · have hne := ne_of_mem_uriUnescaped h
    rw [escapeByte, if_pos h, List.map_singleton, List.singleton_append, scan,
      if_neg (by simpa using hne.1), if_neg (by simpa using fun heq ↦ absurd heq hne.2.1)]
    simp [stored]
  · have hb := b.toNat_lt
    have hdigits : UInt8.ofNat (16 * (b.toNat / 16) + b.toNat % 16) = b := by
      rw [Nat.div_add_mod, UInt8.ofNat_toNat]
    rw [escapeByte, if_neg h, percent, List.map_cons, List.map_cons, List.map_cons, List.map_nil,
      List.cons_append, List.cons_append, List.cons_append, List.nil_append, scan, if_pos rfl,
      scan, Option.bind_some, hexDigit_upperUnit (by omega)]
    show scan decodeSpaces (.hex1 (b.toNat / 16) _) _ = _
    rw [scan, Option.bind_some, hexDigit_upperUnit (by omega)]
    show UInt8.ofNat (16 * (b.toNat / 16) + b.toNat % 16) :: _ = _
    rw [hdigits]

theorem scan_escapeText (bs : Bytes) (cs : List (Option UInt16)) :
    scan decodeSpaces .char ((escapeText bs).map some ++ cs) =
      bs ++ scan decodeSpaces .char cs := by
  induction bs with
  | nil => rfl
  | cons b bs ih =>
    rw [escapeText, List.flatMap_cons, ← escapeText, List.map_append, List.append_assoc,
      scan_escapeByte, ih, List.cons_append]

theorem unescapeBuffer_escapeText (bs : Bytes) :
    unescapeBuffer (escapeText bs) decodeSpaces = bs := by
  rw [unescapeBuffer, scan_escapeText]
  show (bs ++ [stored none]).dropLast = bs
  exact List.dropLast_concat

theorem unescape_escapeText (h : WellFormed s = true) :
    unescape (escapeText (utf8Bytes s)) true = .ok s := by
  rw [unescape, unescapeBuffer_escapeText, Buffer.decode, utf8Decode_utf8Bytes h]

/-- **`unescape` undoes `escape`** on every well-formed string. -/
theorem unescape_escape (h : WellFormed s = true) :
    ∃ t, escape s = .ok t ∧ unescape t true = .ok s :=
  ⟨_, encodeURIComponent_eq h, unescape_escapeText h⟩

/-- No separator is left in an escape. -/
theorem mem_escapeText (h : u ∈ escapeText bs) : u ≠ 0x26 ∧ u ≠ 0x3D := by
  obtain ⟨b, -, hu⟩ := List.mem_flatMap.mp h
  rw [escapeByte] at hu
  split_ifs at hu with hb
  · obtain rfl := List.mem_singleton.mp hu
    exact (ne_of_mem_uriUnescaped hb).2.2
  · have hlt := b.toNat_lt
    rw [percent, List.mem_cons, List.mem_cons, List.mem_singleton] at hu
    rcases hu with rfl | rfl | rfl
    · decide
    · exact (ne_of_mem_uriUnescaped (upperUnit_mem (by omega))).2.2
    · exact (ne_of_mem_uriUnescaped (upperUnit_mem (by omega))).2.2

end SpiderNode.Query
