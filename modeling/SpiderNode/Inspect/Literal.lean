import SpiderNode.Files.SplitPath
import SpiderNode.Text.Json

/-!
# Strings as literals

`inspect` of `lib/util.js` prints a string, and a key that is no name, in single quotation marks. It
takes the JSON text in double ones and replaces, one after the other, each `'` by `\'`, each `\"` by
`"`, and the marks at the ends. The second replacement does not tell an escaped quotation mark from
a backslash in front of the last mark. So the literal of a string that ends with a backslash is not
closed. Nor does JSON escape the separators of lines and of paragraphs, which a literal must not
have. `literalValue_inspectString` says that all other literals are right.

A literal is read as the engine reads it (`TokenStream::getTokenInternal` of
`js/src/frontend/TokenStream.cpp`).
-/

namespace SpiderNode.Inspect

open Files (isLineTerminator)
open Regex Pattern

def apostrophe : UInt16 := 0x27

def quotation : UInt16 := 0x22

def backslash : UInt16 := 0x5C

/-! ## Writing -/

/-- `.replace(/'/g, "\\'")` -/
def replaceApostrophes (s : JSString) : JSString :=
  s.flatMap fun u ↦ if u = apostrophe then [backslash, apostrophe] else [u]

/-- `.replace(/\\"/g, '"')` -/
def replaceEscaped : JSString → JSString
  | u :: v :: s =>
    if u = backslash ∧ v = quotation then quotation :: replaceEscaped s
    else u :: replaceEscaped (v :: s)
  | s => s

/-- `.replace(/(^"|"$)/g, "'")` -/
def replaceOuter (s : JSString) : JSString :=
  let s := if s.head? = some quotation then apostrophe :: s.tail else s
  if s.getLast? = some quotation then s.dropLast ++ [apostrophe] else s

/-- The three replacements. -/
def requote (json : JSString) : JSString :=
  replaceOuter (replaceEscaped (replaceApostrophes json))

/-- `inspect` of a string. -/
def inspectString (s : JSString) : JSString := requote (Json.quote s)

def isNameStart (u : UInt16) : Bool :=
  (0x61 ≤ u && u ≤ 0x7A) || (0x41 ≤ u && u ≤ 0x5A) || u == 0x5F

/-- `/^"([a-zA-Z_][a-zA-Z_0-9]*)"$/` -/
def nameRe : Pattern UInt16 JSString := do
  let _ ← one (· = quotation)
  let u ← one isNameStart
  let l ← star fun u ↦ isNameStart u || isDigit u
  let _ ← one (· = quotation)
  atEnd
  return u :: l

/-- How a key is printed. -/
def keyName (key : JSString) : JSString :=
  let name := Json.quote key
  match nameRe.exec name with
  | some _ => name.tail.take (name.length - 2)
  | none => requote name

/-! ## Reading -/

def isOctal (u : UInt16) : Bool := 0x30 ≤ u && u < 0x38

/-- Up to two more octal digits, as long as the value is that of a byte. -/
def readOctal (value : ℕ) : JSString → JSString × JSString
  | c :: t =>
    if isOctal c then
      let value := 8 * value + digitValue c
      match t with
      | c :: t =>
        if isOctal c ∧ 8 * value + digitValue c ≤ 0xFF then
          ([.ofNat (8 * value + digitValue c)], t)
        else ([.ofNat value], c :: t)
      | [] => ([.ofNat value], [])
    else ([.ofNat value], c :: t)
  | [] => ([.ofNat value], [])

def readHex (n : ℕ) (t : JSString) : Option (JSString × JSString) :=
  if n ≤ t.length then
    ((t.take n).mapM hexValue).map fun ds ↦ ([.ofNat (Nat.ofDigits 16 ds.reverse)], t.drop n)
  else none

/-- What a backslash stands for in front of a text, and the rest of the text. -/
def readEscape : JSString → Option (JSString × JSString)
  | [] => none
  | c :: t =>
    if c = 0x62 then some ([0x08], t)
    else if c = 0x66 then some ([0x0C], t)
    else if c = 0x6E then some ([0x0A], t)
    else if c = 0x72 then some ([0x0D], t)
    else if c = 0x74 then some ([0x09], t)
    else if c = 0x76 then some ([0x0B], t)
    else if isOctal c then some (readOctal (digitValue c) t)
    else if c = 0x75 then readHex 4 t
    else if c = 0x78 then readHex 2 t
    else if isLineTerminator c then
      -- the end of a line stands for nothing
      some ([], if c = 0x0D ∧ t.head? = some 0x0A then t.tail else t)
    else some ([c], t)

/-- The value up to the quotation mark, and what follows this. Each step reads a unit at least. -/
def readUnits : ℕ → JSString → Option (JSString × JSString)
  | n + 1, u :: t =>
    if u = apostrophe then some ([], t)
    else if u = backslash then do
      let (c, t) ← readEscape t
      let (s, rest) ← readUnits n t
      return (c ++ s, rest)
    else if isLineTerminator u then none
    else do
      let (s, rest) ← readUnits n t
      return (u :: s, rest)
  | _, _ => none

/-- The value of a text that is a single-quoted literal. -/
def literalValue : JSString → Option JSString
  | u :: t =>
    if u = apostrophe then
      match readUnits t.length t with
      | some (s, []) => some s
      | _ => none
    else none
  | [] => none

/-! ## The literal of a string -/

/-- A unit between single quotation marks. -/
def literalEscape (u : UInt16) : JSString :=
  if u = apostrophe then [backslash, apostrophe]
  else if u = quotation then [quotation]
  else Json.escape u

/-- A string whose literal is right. -/
def Printable (s : JSString) : Prop :=
  s.getLast? ≠ some backslash ∧ ∀ u ∈ s, u ≠ 0x2028 ∧ u ≠ 0x2029

instance (s : JSString) : Decidable (Printable s) :=
  inferInstanceAs (Decidable (_ ∧ _))

variable {u v : UInt16} {s t l : JSString}

theorem hexUnit_ne : ∀ n < 16, Json.hexUnit n ≠ apostrophe ∧ Json.hexUnit n ≠ quotation ∧
    Json.hexUnit n ≠ backslash := by decide

/-- The quotation marks in JSON text are those of the string. -/
theorem eq_of_mem_escape (hv : v = apostrophe ∨ v = quotation) (h : v ∈ Json.escape u) :
    v = u := by
  rcases Json.escape_cases u with ⟨c, -, hunescape, heq⟩ | ⟨hu, heq⟩ | ⟨-, -, -, heq⟩
  · rw [heq, List.mem_cons, List.mem_singleton] at h
    rcases h with rfl | rfl
    · exact absurd hv (by decide)
    · rcases hv with rfl | rfl
      · cases hunescape
      · exact Option.some.inj hunescape
  · have hlt := UInt16.lt_iff_toNat_lt.mp hu
    have h₁ : (0x20 : UInt16).toNat = 0x20 := rfl
    obtain ⟨happ, hquot, -⟩ := hexUnit_ne (u.toNat % 16) (Nat.mod_lt _ (by decide))
    obtain ⟨happ', hquot', -⟩ := hexUnit_ne (u.toNat / 16) (by omega)
    rw [heq, List.mem_append, List.mem_cons, List.mem_singleton] at h
    rcases hv with rfl | rfl
    · exact absurd h (not_or.mpr ⟨by decide, not_or.mpr ⟨happ'.symm, happ.symm⟩⟩)
    · exact absurd h (not_or.mpr ⟨by decide, not_or.mpr ⟨hquot'.symm, hquot.symm⟩⟩)
  · exact List.mem_singleton.mp (heq ▸ h)

theorem replaceApostrophes_eq_self (h : apostrophe ∉ s) : replaceApostrophes s = s := by
  induction s with
  | nil => rfl
  | cons u s ih =>
    rw [List.mem_cons, not_or] at h
    rw [replaceApostrophes, List.flatMap_cons, if_neg (Ne.symm h.1), ← replaceApostrophes, ih h.2]
    rfl

theorem replaceApostrophes_escape (h : u ≠ quotation) :
    replaceApostrophes (Json.escape u) = literalEscape u := by
  rw [literalEscape, if_neg h]
  split_ifs with happ
  · rw [happ]
    rfl
  · exact replaceApostrophes_eq_self fun hmem ↦ happ (eq_of_mem_escape (.inl rfl) hmem).symm

theorem quotation_notMem_literalEscape (h : u ≠ quotation) : quotation ∉ literalEscape u := by
  rw [literalEscape, if_neg h]
  split_ifs
  · decide
  · exact fun hmem ↦ h (eq_of_mem_escape (.inr rfl) hmem).symm

theorem replaceEscaped_cons (h : u ≠ backslash ∨ t.head? ≠ some quotation) :
    replaceEscaped (u :: t) = u :: replaceEscaped t := by
  rcases t with _ | ⟨v, t⟩
  · rfl
  · refine if_neg fun heq ↦ ?_
    exact h.elim (fun hu ↦ hu heq.1) fun hv ↦ hv (congrArg some heq.2)

/-- Text without quotation marks stays, if no backslash in it is in front of one behind it. -/
theorem replaceEscaped_append (hl : quotation ∉ l)
    (h : l.getLast? ≠ some backslash ∨ t.head? ≠ some quotation) :
    replaceEscaped (l ++ t) = l ++ replaceEscaped t := by
  induction l with
  | nil => rfl
  | cons u l ih =>
    rw [List.mem_cons, not_or] at hl
    rcases l with _ | ⟨v, l⟩
    · exact replaceEscaped_cons (h.imp_left fun hu heq ↦ hu (congrArg some heq))
    · have hhead : (v :: l ++ t).head? ≠ some quotation := fun heq ↦
        hl.2 (Option.some.inj heq ▸ List.mem_cons_self)
      rw [List.cons_append, replaceEscaped_cons (.inr hhead), ih hl.2]
      · rfl
      · rwa [List.getLast?_cons_cons] at h

theorem getLast?_literalEscape (h : u ≠ backslash) :
    (literalEscape u).getLast? ≠ some backslash := by
  rw [literalEscape]
  split_ifs
  · decide
  · decide
  rcases Json.escape_cases u with ⟨c, -, hunescape, heq⟩ | ⟨-, heq⟩ | ⟨-, -, -, heq⟩
  · rw [heq]
    intro hc
    obtain rfl : c = backslash := Option.some.inj hc
    exact h (Option.some.inj hunescape).symm
  · have hlow := (hexUnit_ne (u.toNat % 16) (Nat.mod_lt _ (by decide))).2.2
    rw [heq, List.getLast?_append]
    exact fun hlast ↦ hlow (Option.some.inj hlast)
  · rw [heq]
    exact fun hu ↦ h (Option.some.inj hu)

/-- The text between the quotation marks after the first replacement. -/
theorem replaceApostrophes_quote (s : JSString) : replaceApostrophes (Json.quote s) =
    quotation :: ((s.flatMap fun u ↦ replaceApostrophes (Json.escape u)) ++ [quotation]) := by
  rw [Json.quote, replaceApostrophes, List.flatMap_cons, List.flatMap_append, List.flatMap_assoc]
  rfl

theorem literalEscape_ne_nil : literalEscape u ≠ [] := by
  rw [literalEscape]
  split_ifs
  · exact List.cons_ne_nil _ _
  · exact List.cons_ne_nil _ _
  rcases Json.escape_cases u with ⟨c, -, -, heq⟩ | ⟨-, heq⟩ | ⟨-, -, -, heq⟩
  · exact heq ▸ List.cons_ne_nil _ _
  · exact heq ▸ List.cons_ne_nil _ _
  · exact heq ▸ List.cons_ne_nil _ _

theorem head?_replaceApostrophes_escape :
    (replaceApostrophes (Json.escape u) ++ t).head? ≠ some quotation := by
  by_cases hu : u = quotation
  · rw [hu]
    exact fun heq ↦ absurd (Option.some.inj heq) (by decide)
  · rw [replaceApostrophes_escape hu]
    obtain ⟨w, l, hl⟩ := List.exists_cons_of_ne_nil (literalEscape_ne_nil (u := u))
    have hmem := quotation_notMem_literalEscape hu
    rw [hl] at hmem ⊢
    exact fun heq ↦ hmem (Option.some.inj heq ▸ List.mem_cons_self)

/-- The second replacement, in front of a text that it leaves apart. -/
theorem replaceEscaped_flatMap (h : s.getLast? ≠ some backslash ∨ t.head? ≠ some quotation) :
    replaceEscaped ((s.flatMap fun u ↦ replaceApostrophes (Json.escape u)) ++ t) =
      s.flatMap literalEscape ++ replaceEscaped t := by
  induction s with
  | nil => rfl
  | cons u s ih =>
    have hrest : s.getLast? ≠ some backslash ∨ t.head? ≠ some quotation := by
      refine h.imp_left fun hu heq ↦ hu ?_
      rcases s with _ | ⟨v, s⟩
      · cases heq
      · rwa [List.getLast?_cons_cons]
    rw [List.flatMap_cons, List.flatMap_cons, List.append_assoc, List.append_assoc, ← ih hrest]
    by_cases hu : u = quotation
    · rw [hu]
      rfl
    · rw [replaceApostrophes_escape hu]
      refine replaceEscaped_append (quotation_notMem_literalEscape hu) ?_
      rcases s with _ | ⟨v, s⟩
      · exact h.imp_left fun hlast ↦ getLast?_literalEscape fun heq ↦ hlast (congrArg some heq)
      · rw [List.flatMap_cons, List.append_assoc]
        exact .inr head?_replaceApostrophes_escape

theorem replaceOuter_quotation :
    replaceOuter (quotation :: (t ++ [quotation])) = apostrophe :: (t ++ [apostrophe]) := by
  have hlast : (apostrophe :: (t ++ [quotation])).getLast? = some quotation := by
    rw [← List.cons_append, List.getLast?_concat]
  have hinit : (apostrophe :: (t ++ [quotation])).dropLast = apostrophe :: t := by
    rw [← List.cons_append, List.dropLast_concat]
  simp only [replaceOuter, List.head?_cons, List.tail_cons, if_true, hlast, hinit,
    List.cons_append]

theorem inspectString_eq (h : s.getLast? ≠ some backslash) :
    inspectString s = apostrophe :: (s.flatMap literalEscape ++ [apostrophe]) := by
  have hescaped : replaceEscaped (replaceApostrophes (Json.quote s)) =
      quotation :: (s.flatMap literalEscape ++ [quotation]) := by
    rw [replaceApostrophes_quote, replaceEscaped_cons (.inl (by decide)),
      replaceEscaped_flatMap (.inl h)]
    rfl
  rw [inspectString, requote, hescaped, replaceOuter_quotation]

/-- The last mark is taken for an escaped one. -/
theorem inspectString_backslash :
    inspectString (s ++ [backslash]) =
      apostrophe :: (s.flatMap literalEscape ++ [backslash] ++ [apostrophe]) := by
  have hescaped : replaceEscaped (replaceApostrophes (Json.quote (s ++ [backslash]))) =
      quotation :: (s.flatMap literalEscape ++ [backslash] ++ [quotation]) := by
    rw [replaceApostrophes_quote, replaceEscaped_cons (.inl (by decide)), List.flatMap_append,
      List.append_assoc, replaceEscaped_flatMap (.inr (by decide)), List.append_assoc]
    rfl
  rw [inspectString, requote, hescaped, replaceOuter_quotation]

/-! ## Its value -/

variable {n : ℕ}

theorem readUnits_escape {c : UInt16} (h : readEscape (v :: t) = some ([c], s)) :
    readUnits (n + 1) (backslash :: v :: t) =
      (readUnits n s).map fun r ↦ (c :: r.1, r.2) := by
  have hne : backslash ≠ apostrophe := by decide
  rw [readUnits, if_neg hne, if_pos rfl, h]
  show (readUnits n s).bind (fun r ↦ some ([c] ++ r.1, r.2)) = _
  rcases readUnits n s with _ | r
  · rfl
  · rfl

theorem readUnits_cons (ha : u ≠ apostrophe) (hb : u ≠ backslash) :
    readUnits (n + 1) (u :: t) =
      if isLineTerminator u then none
      else (readUnits n t).map fun r ↦ (u :: r.1, r.2) := by
  rw [readUnits, if_neg ha, if_neg hb]
  rcases readUnits n t with _ | r
  · rfl
  · rfl

/-- A separator is left as it is, which ends no literal. -/
theorem readUnits_separator (h : u = 0x2028 ∨ u = 0x2029) :
    readUnits (n + 1) (literalEscape u ++ t) = none := by
  rcases h with rfl | rfl
  · exact readUnits_cons (by decide) (by decide)
  · exact readUnits_cons (by decide) (by decide)

/-- What JSON escapes by a letter, a literal does too. -/
theorem readEscape_of_unescape {c : UInt16} (h : Json.unescape c = some u) :
    readEscape (c :: t) = some ([u], t) := by
  unfold Json.unescape at h
  split_ifs at h with hself hb hf hn hr ht
  · obtain rfl := Option.some.inj h
    rcases hself with rfl | rfl | rfl <;> rfl
  · subst hb
    exact Option.some.inj h ▸ rfl
  · subst hf
    exact Option.some.inj h ▸ rfl
  · subst hn
    exact Option.some.inj h ▸ rfl
  · subst hr
    exact Option.some.inj h ▸ rfl
  · subst ht
    exact Option.some.inj h ▸ rfl

/-- Every other unit is read as itself. -/
theorem readUnits_literalEscape (h : ¬(u = 0x2028 ∨ u = 0x2029)) :
    readUnits (n + 1) (literalEscape u ++ t) = (readUnits n t).map fun r ↦ (u :: r.1, r.2) := by
  rw [literalEscape]
  split_ifs with happ hquot
  · subst happ
    exact readUnits_escape rfl
  · subst hquot
    exact readUnits_cons (by decide) (by decide)
  rcases Json.escape_cases u with ⟨c, -, hunescape, heq⟩ | ⟨hu, heq⟩ | ⟨hu, -, hback, heq⟩
  · rw [heq]
    exact readUnits_escape (readEscape_of_unescape hunescape)
  · obtain ⟨hdigits, hvalue⟩ := Json.mapM_hexValue_control hu
    rw [heq]
    refine readUnits_escape ?_
    show readHex 4 (0x30 :: 0x30 :: Json.hexUnit (u.toNat / 16) :: Json.hexUnit (u.toNat % 16) ::
      t) = _
    rw [readHex, if_pos (by simp)]
    show (List.mapM hexValue [0x30, 0x30, _, _]).map _ = _
    rw [hdigits, Option.map_some, hvalue]
    rfl
  · have hline : isLineTerminator u = false := by
      rw [not_or] at h
      have hn : u ≠ 0x0A := fun heq ↦ hu (heq ▸ by decide)
      have hr : u ≠ 0x0D := fun heq ↦ hu (heq ▸ by decide)
      exact decide_eq_false (not_or.mpr ⟨hn, not_or.mpr ⟨hr, not_or.mpr h⟩⟩)
    rw [heq, List.singleton_append, readUnits_cons happ hback, hline]
    rfl

theorem readUnits_flatMap (h : ∀ u ∈ s, u ≠ 0x2028 ∧ u ≠ 0x2029) :
    readUnits (s.length + n) (s.flatMap literalEscape ++ t) =
      (readUnits n t).map fun r ↦ (s ++ r.1, r.2) := by
  induction s with
  | nil =>
    rw [List.length_nil, Nat.zero_add]
    exact Option.map_id'.symm
  | cons u s ih =>
    obtain ⟨hu, hs⟩ := List.forall_mem_cons.mp h
    rw [List.flatMap_cons, List.append_assoc, List.length_cons, Nat.succ_add,
      readUnits_literalEscape (not_or.mpr hu), ih hs, Option.map_map]
    rfl

/-- Nothing in front makes a text readable that is not. -/
theorem readUnits_flatMap_eq_none (h : ∀ n, readUnits n t = none) :
    readUnits n (s.flatMap literalEscape ++ t) = none := by
  induction s generalizing n with
  | nil => exact h n
  | cons u s ih =>
    rw [List.flatMap_cons, List.append_assoc]
    rcases n with _ | n
    · rw [readUnits.eq_def]
    · by_cases hu : u = 0x2028 ∨ u = 0x2029
      · exact readUnits_separator hu
      · rw [readUnits_literalEscape hu, ih]
        rfl

/-- The escaped mark does not close the literal. -/
theorem readUnits_escaped_mark (n : ℕ) : readUnits n [backslash, apostrophe] = none := by
  rcases n with _ | n
  · rfl
  · rw [readUnits_escape (c := apostrophe) (s := []) rfl]
    rcases n with _ | n
    · rfl
    · rfl

theorem length_le_flatMap : s.length ≤ (s.flatMap literalEscape).length := by
  induction s with
  | nil => exact Nat.le_refl 0
  | cons u s ih =>
    have hu := List.length_pos_of_ne_nil (literalEscape_ne_nil (u := u))
    rw [List.flatMap_cons, List.length_append, List.length_cons]
    omega

theorem literalValue_eq_some (h : readUnits t.length t = some (s, [])) :
    literalValue (apostrophe :: t) = some s := by
  rw [literalValue, if_pos rfl, h]

theorem literalValue_eq_none (h : ∀ n, readUnits n t = none) :
    literalValue (apostrophe :: t) = none := by
  rw [literalValue, if_pos rfl, h]

/-- **What `inspect` prints for a string** is its literal just if the string is printable. -/
theorem literalValue_inspectString (s : JSString) :
    literalValue (inspectString s) = if Printable s then some s else none := by
  by_cases hlast : s.getLast? = some backslash
  · have hs : s = s.dropLast ++ [backslash] := (List.dropLast_append_getLast? _ hlast).symm
    rw [if_neg fun h ↦ h.1 hlast, hs, inspectString_backslash, List.append_assoc]
    exact literalValue_eq_none fun n ↦ readUnits_flatMap_eq_none readUnits_escaped_mark
  rw [inspectString_eq hlast]
  by_cases hsep : ∀ u ∈ s, u ≠ 0x2028 ∧ u ≠ 0x2029
  · obtain ⟨n, hn⟩ := Nat.exists_eq_add_of_le (length_le_flatMap (s := s))
    rw [if_pos ⟨hlast, hsep⟩]
    refine literalValue_eq_some ?_
    rw [List.length_append, hn, List.length_singleton, Nat.add_assoc, readUnits_flatMap hsep]
    show some (s ++ [], []) = _
    rw [List.append_nil]
  · rw [if_neg fun h ↦ hsep h.2]
    refine literalValue_eq_none fun n ↦ ?_
    simp only [not_forall, not_and_or, not_not] at hsep
    obtain ⟨u, hu, hsep⟩ := hsep
    obtain ⟨s₁, s₂, rfl⟩ := List.append_of_mem hu
    rw [List.flatMap_append, List.flatMap_cons, List.append_assoc, List.append_assoc]
    refine readUnits_flatMap_eq_none fun n ↦ ?_
    rcases n with _ | n
    · rw [readUnits.eq_def]
    · exact readUnits_separator hsep

theorem keyName_eq_inspectString (h : nameRe.exec (Json.quote s) = none) :
    keyName s = inspectString s := by
  rw [keyName, h]
  rfl

/-- **Strings and quoted keys are printed as their literals** just if they are printable. -/
theorem literalValue_iff (s : JSString) :
    (literalValue (inspectString s) = some s ↔ Printable s) ∧
      (nameRe.exec (Json.quote s) = none →
        (literalValue (keyName s) = some s ↔ Printable s)) := by
  have hstring : literalValue (inspectString s) = some s ↔ Printable s := by
    rw [literalValue_inspectString]
    by_cases h : Printable s
    · rw [if_pos h]
      exact iff_of_true rfl h
    · rw [if_neg h]
      exact iff_of_false (Option.some_ne_none s).symm h
  refine ⟨hstring, fun h ↦ ?_⟩
  rw [keyName_eq_inspectString h]
  exact hstring

theorem quoted_key : literalValue (keyName (js "it's \"it\"")) = some (js "it's \"it\"") :=
  ((literalValue_iff (js "it's \"it\"")).2 (by decide)).mpr (by decide)

theorem directory_literal :
    ¬∀ s : JSString, WellFormed s = true → literalValue (inspectString s) = some s ∧
      (nameRe.exec (Json.quote s) = none → literalValue (keyName s) = some s) := by
  intro h
  have hnone : literalValue (inspectString (js "C:\\")) = none :=
    (literalValue_inspectString _).trans (if_neg (by decide))
  rw [(h (js "C:\\") (by decide)).1] at hnone
  cases hnone

end SpiderNode.Inspect
