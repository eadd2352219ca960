import SpiderNode.Text.Utf16

/-!
# From bytes to strings

`String::New(data, length)` inflates its bytes as UTF-8, and so do the `utf8Slice` and `asciiSlice`
of a buffer, which both come down to it. Bytes that are not UTF-8 make it throw: stray or missing
continuation bytes, forms that are not the shortest, surrogates, and code points above `U+10FFFF`.
-/

namespace SpiderNode

/-- A byte that continues a character. -/
def isContinuation (b : UInt8) : Bool := 0x80 ≤ b.toNat && b.toNat < 0xC0

/-- The code units of a code point, unless it is below `least`, a surrogate, or too large. -/
def codePointUnits (least v : ℕ) : Option JSString :=
  if v < least ∨ 0xD800 ≤ v ∧ v ≤ 0xDFFF ∨ 0x10FFFF < v then none
  else if v < 0x10000 then some [.ofNat v]
  else some [.ofNat (0xD800 + (v - 0x10000) / 0x400), .ofNat (0xDC00 + (v - 0x10000) % 0x400)]

/-- `InflateUTF8StringToBuffer`; `none` is a string that cannot be made. -/
def utf8Decode : Bytes → Option JSString
  | [] => some []
  | a :: rest =>
    if a.toNat < 0x80 then do
      let s ← utf8Decode rest
      return .ofNat a.toNat :: s
    else if a.toNat < 0xC0 then none
    else if a.toNat < 0xE0 then
      match rest with
      | b :: rest =>
        if isContinuation b then do
          let u ← codePointUnits 0x80 (a.toNat % 0x20 * 0x40 + b.toNat % 0x40)
          let s ← utf8Decode rest
          return u ++ s
        else none
      | _ => none
    else if a.toNat < 0xF0 then
      match rest with
      | b :: c :: rest =>
        if isContinuation b && isContinuation c then do
          let u ← codePointUnits 0x800
            (a.toNat % 0x10 * 0x1000 + b.toNat % 0x40 * 0x40 + c.toNat % 0x40)
          let s ← utf8Decode rest
          return u ++ s
        else none
      | _ => none
    else if a.toNat < 0xF8 then
      match rest with
      | b :: c :: d :: rest =>
        if isContinuation b && isContinuation c && isContinuation d then do
          let u ← codePointUnits 0x10000 (a.toNat % 0x08 * 0x40000 + b.toNat % 0x40 * 0x1000
            + c.toNat % 0x40 * 0x40 + d.toNat % 0x40)
          let s ← utf8Decode rest
          return u ++ s
        else none
      | _ => none
    else none

/-! ## ASCII bytes -/

/-- The string of ASCII bytes. -/
def asciiText (b : Bytes) : JSString := b.map fun x ↦ .ofNat x.toNat

theorem utf8Decode_of_ascii {b : Bytes} (h : ∀ x ∈ b, x.toNat < 0x80) :
    utf8Decode b = some (asciiText b) := by
  induction b with
  | nil => rfl
  | cons a b ih =>
    unfold utf8Decode
    rw [if_pos (h a (by simp)), ih fun x hx ↦ h x (by simp [hx])]
    rfl

/-- A byte on its own is a string only if it is ASCII. -/
theorem utf8Decode_singleton {a : UInt8} (h : ¬a.toNat < 0x80) : utf8Decode [a] = none := by
  unfold utf8Decode
  rw [if_neg h]
  split_ifs <;> rfl

/-! ## Characters -/

theorem codePointUnits_ne_nil {least v : ℕ} {u : JSString} (h : codePointUnits least v = some u) :
    u ≠ [] := by
  rw [codePointUnits] at h
  split_ifs at h
  all_goals
    obtain rfl := Option.some.inj h
    simp

/-- Bytes that are a string are not the empty string. -/
theorem utf8Decode_ne_nil {b : Bytes} {t : JSString} (hb : b ≠ []) (h : utf8Decode b = some t) :
    t ≠ [] := by
  obtain ⟨a, rest, rfl⟩ := List.exists_cons_of_ne_nil hb
  have hunits : ∀ {rest : Bytes} {least v : ℕ},
      (codePointUnits least v).bind (fun u ↦ (utf8Decode rest).bind fun s ↦ some (u ++ s)) =
        some t →
        t ≠ [] := by
    intro rest least v h
    obtain ⟨u, hu, h⟩ := Option.bind_eq_some_iff.mp h
    obtain ⟨s, -, h⟩ := Option.bind_eq_some_iff.mp h
    obtain rfl := Option.some.inj h
    simp [codePointUnits_ne_nil hu]
  unfold utf8Decode at h
  split_ifs at h
  · obtain ⟨s, -, h⟩ := Option.bind_eq_some_iff.mp h
    obtain rfl := Option.some.inj h
    simp
  all_goals
    split at h
    · split_ifs at h
      exact hunits h
    · cases h

end SpiderNode
