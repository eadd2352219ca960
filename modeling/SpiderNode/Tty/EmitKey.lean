import SpiderNode.Text.Numerals
import SpiderNode.Regex.Backtracking

/-!
# What a chunk of terminal input is read as

`_emitKey` of `lib/tty_posix.js` takes a chunk of input for one key, or for a paste, whose units it
then takes one by one. It tries the keys first, by comparisons and by two regular expressions. One
of the comparisons, `s <= '\x1a'`, is meant for the control characters. But strings are ordered by
their first units, so it holds of a longer chunk too if this begins with one of them: a paste that
begins with a tab or with the end of a line is a single key. `text_emitKey` says that all other
pastes arrive as they are.
-/

namespace SpiderNode.Tty

open Regex Pattern

/-! ## Keys -/

structure Key where
  name : Option JSString
  ctrl : Bool
  metaKey : Bool
  shift : Bool
  deriving DecidableEq

/-- The arguments of `'keypress'`. -/
structure Keypress where
  char : Option JSString
  key : Option Key
  deriving DecidableEq

def esc : UInt16 := 0x1B

def isLower (u : UInt16) : Bool := 0x61 ≤ u && u ≤ 0x7A

def isUpper (u : UInt16) : Bool := 0x41 ≤ u && u ≤ 0x5A

def isLetter (u : UInt16) : Bool := isLower u || isUpper u

/-- `toLowerCase()` of a letter or a digit. -/
def toLower (u : UInt16) : UInt16 := if isUpper u then u + 0x20 else u

/-! ## Escape sequences -/

/-- What `functionKeyCodeRe` captures; `none` is `undefined`. -/
structure Parts where
  opener : JSString
  number : Option JSString
  numberModifier : Option JSString
  final : Option UInt16
  letterModifier : Option JSString
  letter : Option UInt16

/-- `/^(?:\x1b)([a-zA-Z0-9])$/` -/
def metaKeyCodeRe : Pattern UInt16 UInt16 := do
  let _ ← one (· = esc)
  let u ← one fun u ↦ isLetter u || isDigit u
  atEnd
  return u

/-- `(O|N|\[|\[\[)` -/
def openerRe : Pattern UInt16 JSString :=
  let unit (u : UInt16) : Pattern UInt16 JSString := do
    let u ← one (· = u)
    return [u]
  let bracket : UInt16 := 0x5B
  let brackets : Pattern UInt16 JSString := do
    let u ← one (· = bracket)
    let v ← one (· = bracket)
    return [u, v]
  orElse (unit 0x4F) (orElse (unit 0x4E) (orElse (unit bracket) brackets))

/-- `(\d+)(?:;(\d+))?([~^$])` -/
def numberedRe (opener : JSString) : Pattern UInt16 Parts := do
  let number ← plus isDigit
  let modifier ← opt (do
    let _ ← one (· = 0x3B)
    plus isDigit)
  let u ← one fun u ↦ u = 0x7E || u = 0x5E || u = 0x24
  return ⟨opener, some number, modifier, some u, none, none⟩

/-- `(?:1;)?(\d+)?([a-zA-Z])` -/
def letteredRe (opener : JSString) : Pattern UInt16 Parts := do
  let _ ← opt (do
    let _ ← one (· = 0x31)
    one (· = 0x3B))
  let modifier ← opt (plus isDigit)
  let u ← one isLetter
  return ⟨opener, none, none, none, modifier, some u⟩

/-- `/^(?:\x1b+)(O|N|\[|\[\[)(?:(\d+)(?:;(\d+))?([~^$])|(?:1;)?(\d+)?([a-zA-Z]))/` -/
def functionKeyCodeRe : Pattern UInt16 Parts := do
  let _ ← plus (· = esc)
  let opener ← openerRe
  orElse (numberedRe opener) (letteredRe opener)

namespace Parts

/-- `(parts[1] || '') + (parts[2] || '') + (parts[4] || '') + (parts[6] || '')` -/
def code (p : Parts) : JSString :=
  p.opener ++ p.number.getD [] ++ p.final.toList ++ p.letter.toList

/-- `(parts[3] || parts[5] || 1) - 1`, as the bit operators take it. -/
def modifier (d : Doubles) (p : Parts) : ℕ :=
  let n := match p.numberModifier.or p.letterModifier with
    | some digits => d.toNumber (some digits)
    | none => .finite 1
  match n with
  | .finite q =>
    match d.round (q - 1) with
    | .finite q => (q.num.tdiv q.den % 2 ^ 32).toNat
    | _ => 0
  | _ => 0

end Parts

/-- The codes that leave the modifiers as they are. -/
def plainCodes : List (String × String) :=
  [("OP", "f1"), ("OQ", "f2"), ("OR", "f3"), ("OS", "f4"),
    ("[11~", "f1"), ("[12~", "f2"), ("[13~", "f3"), ("[14~", "f4"),
    ("[15~", "f5"), ("[17~", "f6"), ("[18~", "f7"), ("[19~", "f8"), ("[20~", "f9"),
    ("[21~", "f10"), ("[23~", "f11"), ("[24~", "f12"),
    ("[A", "up"), ("[B", "down"), ("[C", "right"), ("[D", "left"), ("[E", "clear"),
    ("[F", "end"), ("[H", "home"),
    ("OA", "up"), ("OB", "down"), ("OC", "right"), ("OD", "left"), ("OE", "clear"),
    ("OF", "end"), ("OH", "home"),
    ("[1~", "home"), ("[2~", "insert"), ("[3~", "delete"), ("[4~", "end"), ("[5~", "pageup"),
    ("[6~", "pagedown"),
    ("[[5~", "pageup"), ("[[6~", "pagedown"),
    ("[7~", "home"), ("[8~", "end")]

/-- The codes of keys with shift. -/
def shiftCodes : List (String × String) :=
  [("[a", "up"), ("[b", "down"), ("[c", "right"), ("[d", "left"), ("[e", "clear"),
    ("[2$", "insert"), ("[3$", "delete"), ("[5$", "pageup"), ("[6$", "pagedown"),
    ("[7$", "home"), ("[8$", "end"),
    ("[Z", "tab")]

/-- The codes of keys with ctrl. -/
def ctrlCodes : List (String × String) :=
  [("Oa", "up"), ("Ob", "down"), ("Oc", "right"), ("Od", "left"), ("Oe", "clear"),
    ("[2^", "insert"), ("[3^", "delete"), ("[5^", "pageup"), ("[6^", "pagedown"),
    ("[7^", "home"), ("[8^", "end")]

def findCode (codes : List (String × String)) (code : JSString) : Option JSString :=
  (codes.find? fun e ↦ js e.1 = code).map fun e ↦ js e.2

/-- The key of an escape sequence. -/
def functionKey (d : Doubles) (parts : Parts) : Key :=
  let modifier := parts.modifier d
  let key : Key :=
    ⟨none, (modifier &&& 4) ≠ 0, (modifier &&& 10) ≠ 0, (modifier &&& 1) ≠ 0⟩
  match findCode plainCodes parts.code with
  | some name => { key with name }
  | none =>
    match findCode shiftCodes parts.code with
    | some name => { key with name, shift := true }
    | none =>
      match findCode ctrlCodes parts.code with
      | some name => { key with name, ctrl := true }
      | none => key

/-! ## `_emitKey` -/

/-- The key that a chunk is taken for; `none` if it is taken for a paste. -/
def readKey (d : Doubles) (s : JSString) : Option Key :=
  if s = [0x0D] ∨ s = [0x0A] then some ⟨js "enter", false, false, false⟩
  else if s = [0x09] then some ⟨js "tab", false, false, false⟩
  else if s = [0x08] ∨ s = [0x7F] ∨ s = [esc, 0x7F] ∨ s = [esc, 0x08] then
    some ⟨js "backspace", false, s.head? = some esc, false⟩
  else if s = [esc] ∨ s = [esc, esc] then some ⟨js "escape", false, s.length = 2, false⟩
  else if s = [0x20] ∨ s = [esc, 0x20] then some ⟨js "space", false, s.length = 2, false⟩
  else if s ≤ [0x1A] then
    -- of the empty string `charCodeAt(0)` is `NaN`
    some ⟨some [(s.head?.map (· + 0x60)).getD 0], true, false, false⟩
  else if s.length = 1 ∧ js "a" ≤ s ∧ s ≤ js "z" then some ⟨s, false, false, false⟩
  else if s.length = 1 ∧ js "A" ≤ s ∧ s ≤ js "Z" then
    some ⟨some (s.map toLower), false, false, true⟩
  else
    match metaKeyCodeRe.exec s with
    | some u => some ⟨some [toLower u], false, true, isUpper u⟩
    | none =>
      match functionKeyCodeRe.exec s with
      | some parts => some (functionKey d parts)
      | none =>
        if 1 < s.length ∧ s.head? ≠ some esc then none else some ⟨none, false, false, false⟩

/-- The event of a key, if there is one. -/
def press (s : JSString) (key : Key) : List Keypress :=
  let key := if key.name = none then none else some key
  let char := if s.length = 1 then some s else none
  if key = none ∧ char = none then [] else [⟨char, key⟩]

theorem one_lt_length_of_readKey {d : Doubles} {s : JSString} (h : readKey d s = none) :
    1 < s.length := by
  by_contra hlt
  have hn : ¬(1 < s.length ∧ s.head? ≠ some esc) := fun h ↦ hlt h.1
  rw [readKey, if_neg hn] at h
  split_ifs at h
  rcases hm : metaKeyCodeRe.exec s with _ | u
  · rcases hf : functionKeyCodeRe.exec s with _ | parts
    · rw [hm, hf] at h
      cases h
    · rw [hm, hf] at h
      cases h
  · rw [hm] at h
    cases h

/-- `_emitKey` of a string, as the events that it emits. -/
def emitKey (d : Doubles) (s : JSString) : List Keypress :=
  if h : readKey d s = none then
    have := one_lt_length_of_readKey h
    s.flatMap fun u ↦ emitKey d [u]
  else press s ((readKey d s).getD ⟨none, false, false, false⟩)
termination_by s.length

/-- A buffer as the string that is read; a single byte with the high bit stands for a meta key. -/
def chunk (toString : Bytes → JSString) : Bytes → JSString
  | [b] => if 127 < b then esc :: toString [b - 128] else toString [b]
  | bytes => toString bytes

/-! ## What arrives -/

/-- What a listener appends to the text that it has got. -/
def Keypress.text (k : Keypress) : JSString := k.char.getD []

variable {d : Doubles} {u v : UInt16} {s : JSString} {key : Key}

theorem emitKey_of_key (h : readKey d s = some key) : emitKey d s = press s key := by
  have hsome : readKey d s ≠ none := h ▸ Option.some_ne_none key
  rw [emitKey, dif_neg hsome, h]
  rfl

theorem emitKey_of_paste (h : readKey d s = none) :
    emitKey d s = s.flatMap fun u ↦ emitKey d [u] := by
  rw [emitKey, dif_pos h]

theorem text_press : (press s key).flatMap Keypress.text = if s.length = 1 then s else [] := by
  by_cases h : s.length = 1
  · rw [press, if_pos h, if_pos h, if_neg (by simp)]
    exact List.flatMap_singleton _ _
  · rw [press, if_neg h, if_neg h]
    split_ifs <;> rfl

/-- A single unit always arrives, with or without a key. -/
theorem text_emitKey_single : (emitKey d [u]).flatMap Keypress.text = [u] := by
  obtain ⟨key, hkey⟩ : ∃ key, readKey d [u] = some key := by
    rw [← Option.ne_none_iff_exists']
    exact fun h ↦ absurd (one_lt_length_of_readKey h) (Nat.lt_irrefl 1)
  rw [emitKey_of_key hkey, text_press, if_pos (List.length_singleton)]

theorem exec_metaKeyCodeRe (h : s.head? ≠ some esc) : metaKeyCodeRe.exec s = none := by
  rw [exec_eq_none_iff]
  intro x r hmem
  obtain ⟨w, r', hone, -⟩ := mem_bind.mp hmem
  obtain ⟨rfl, hw⟩ := mem_one.mp hone
  exact h (congrArg some (of_decide_eq_true hw))

theorem exec_functionKeyCodeRe (h : s.head? ≠ some esc) : functionKeyCodeRe.exec s = none := by
  rw [exec_eq_none_iff]
  intro x r hmem
  obtain ⟨l, r', hplus, -⟩ := mem_bind.mp hmem
  obtain ⟨rfl, hne, hl⟩ := mem_plus.mp hplus
  obtain ⟨w, l, rfl⟩ := List.exists_cons_of_ne_nil hne
  exact h (congrArg some (of_decide_eq_true (hl w List.mem_cons_self)))

/-- A longer string comes before a single unit if it begins with a smaller one. -/
theorem cons_cons_le_singleton {w : UInt16} : u :: v :: s ≤ [w] ↔ u < w := by
  rw [← List.not_lt, List.cons_lt_cons_iff, not_or, UInt16.not_lt]
  constructor
  · rintro ⟨hle, hne⟩
    exact UInt16.lt_of_le_of_ne hle fun heq ↦ hne ⟨heq.symm, List.nil_lt_cons v s⟩
  · intro hlt
    exact ⟨UInt16.le_of_lt hlt, fun heq ↦ UInt16.ne_of_lt hlt heq.1.symm⟩

/-- A longer chunk is a paste, unless it begins with a control character. -/
theorem readKey_of_longer (h : u ≠ esc) : readKey d (u :: v :: s) =
    if u < 0x1A then some ⟨some [u + 0x60], true, false, false⟩ else none := by
  have hhead : (u :: v :: s).head? ≠ some esc := fun heq ↦ h (Option.some.inj heq)
  have hpair (w : UInt16) : u :: v :: s ≠ [esc, w] := fun heq ↦ h (List.cons.inj heq).1
  have hsingle (w : UInt16) : u :: v :: s ≠ [w] := by simp
  have hlength : (u :: v :: s).length ≠ 1 := by simp
  simp only [readKey, hpair, hsingle, hlength, or_false, false_and, if_false,
    cons_cons_le_singleton, exec_metaKeyCodeRe hhead, exec_functionKeyCodeRe hhead]
  refine if_congr Iff.rfl rfl (if_pos ⟨?_, hhead⟩)
  simp

/-- **A paste arrives unchanged** unless it begins with a control character. -/
theorem text_emitKey (hs : s ≠ []) (hesc : esc ∉ s) :
    (emitKey d s).flatMap Keypress.text = s ↔ s.length = 1 ∨ ∀ u ∈ s.head?, 0x1A ≤ u := by
  obtain ⟨u, s, rfl⟩ := List.exists_cons_of_ne_nil hs
  rcases s with _ | ⟨v, s⟩
  · exact iff_of_true text_emitKey_single (.inl rfl)
  · have hu : u ≠ esc := fun heq ↦ hesc (heq ▸ List.mem_cons_self)
    have hcondition : (u :: v :: s).length = 1 ∨ (∀ w ∈ (u :: v :: s).head?, 0x1A ≤ w) ↔
        ¬u < 0x1A := by simp
    have hread := readKey_of_longer (d := d) (v := v) (s := s) hu
    rw [hcondition]
    by_cases hlt : u < 0x1A
    · -- the comparison takes the whole chunk for one key
      rw [if_pos hlt] at hread
      rw [emitKey_of_key hread, text_press, if_neg (by simp)]
      exact iff_of_false (by simp) (not_not.mpr hlt)
    · rw [if_neg hlt] at hread
      rw [emitKey_of_paste hread, List.flatMap_assoc]
      simp only [text_emitKey_single, List.flatMap_singleton', true_iff]
      exact hlt

theorem text_paste : (emitKey .naturals (js "a\tb")).flatMap Keypress.text = js "a\tb" := by
  refine (text_emitKey (by decide) (by decide)).mpr (.inr fun u hu ↦ ?_)
  obtain rfl : 0x61 = u := Option.some.inj hu
  decide

/-- A line is pasted that is indented by a tab. -/
theorem indented_paste :
    ¬∀ (d : Doubles) (s : JSString), s ≠ [] → esc ∉ s →
      (emitKey d s).flatMap Keypress.text = s := by
  intro h
  have htab := h .naturals (js "\tab") (by decide) (by decide)
  have hread : readKey .naturals (js "\tab") = some ⟨js "i", true, false, false⟩ :=
    readKey_of_longer (by decide)
  rw [emitKey_of_key hread] at htab
  exact absurd htab (by decide)

end SpiderNode.Tty
