import SpiderNode.Text.Numerals

/-!
# JSON

`JSON.stringify` and `JSON.parse`, for values that are trees: an object is the list of its fields,
in their order, and there is no `toJSON`. What `stringify` writes is read by `parse` as the same
value.
-/

namespace SpiderNode

inductive Json where
  | null
  | bool (b : Bool)
  | number (x : Number)
  | string (s : JSString)
  | array (l : List Json)
  | object (fields : List (JSString × Json))

/-- An assignment to a field. -/
def setField {α : Type*} (fields : List (JSString × α)) (key : JSString) (value : α) :
    List (JSString × α) :=
  match fields with
  | [] => [(key, value)]
  | f :: fields =>
    if f.1 = key then (key, value) :: fields else f :: setField fields key value

namespace Json

/-! ## `stringify` -/

def hexUnit (n : ℕ) : UInt16 := .ofNat (if n < 10 then 0x30 + n else 0x57 + n)

def escape (u : UInt16) : JSString :=
  if u = 0x22 ∨ u = 0x5C then [0x5C, u]
  else if u = 0x08 then js "\\b"
  else if u = 0x0C then js "\\f"
  else if u = 0x0A then js "\\n"
  else if u = 0x0D then js "\\r"
  else if u = 0x09 then js "\\t"
  else if u < 0x20 then js "\\u00" ++ [hexUnit (u.toNat / 16), hexUnit (u.toNat % 16)]
  else [u]

/-- `Quote` -/
def quote (s : JSString) : JSString := 0x22 :: (s.flatMap escape ++ [0x22])

variable (d : Doubles)

def numberText : Number → JSString
  | .finite q => d.toString q
  | _ => js "null"

mutual

/-- `Str` -/
def stringify : Json → JSString
  | null => js "null"
  | bool b => if b then js "true" else js "false"
  | number x => numberText d x
  | string s => quote s
  | array [] => [0x5B, 0x5D]
  | array (v :: l) => 0x5B :: (v.stringify ++ elements l)
  | object [] => [0x7B, 0x7D]
  | object ((key, v) :: fields) => 0x7B :: (quote key ++ 0x3A :: (v.stringify ++ members fields))

/-- The other elements of an array. -/
def elements : List Json → JSString
  | [] => [0x5D]
  | v :: l => 0x2C :: (v.stringify ++ elements l)

/-- The other fields of an object. -/
def members : List (JSString × Json) → JSString
  | [] => [0x7D]
  | (key, v) :: fields => 0x2C :: (quote key ++ 0x3A :: (v.stringify ++ members fields))

end

/-! ## `parse` -/

def isBlank (u : UInt16) : Bool := u == 0x09 || u == 0x0A || u == 0x0D || u == 0x20

def skipSpace (s : JSString) : JSString := s.dropWhile isBlank

/-- What a letter behind a backslash stands for. -/
def unescape (u : UInt16) : Option UInt16 :=
  if u = 0x22 ∨ u = 0x2F ∨ u = 0x5C then some u
  else if u = 0x62 then some 0x08
  else if u = 0x66 then some 0x0C
  else if u = 0x6E then some 0x0A
  else if u = 0x72 then some 0x0D
  else if u = 0x74 then some 0x09
  else none

/-- The rest of a string behind its quotation mark. -/
def readString : JSString → Option (JSString × JSString)
  | [] => none
  | u :: t =>
    if u = 0x22 then some ([], t)
    else if u = 0x5C then
      match t with
      | [] => none
      | c :: t =>
        if c = 0x75 then
          match t with
          | h₁ :: h₂ :: h₃ :: h₄ :: t => do
            let ds ← [h₁, h₂, h₃, h₄].mapM hexValue
            let (s, rest) ← readString t
            return (.ofNat (Nat.ofDigits 16 ds.reverse) :: s, rest)
          | _ => none
        else do
          let c ← unescape c
          let (s, rest) ← readString t
          return (c :: s, rest)
    else if u ≤ 0x1F then none
    else (readString t).map fun r ↦ (u :: r.1, r.2)

/-- What follows a text. -/
def expect : JSString → JSString → Option JSString
  | [], s => some s
  | _ :: _, [] => none
  | u :: text, v :: s => if u = v then expect text s else none

/-- A name and the colon behind it. -/
def readName (s : JSString) : Option (JSString × JSString) := do
  let s ← expect [0x22] (skipSpace s)
  let (name, s) ← readString s
  let s ← expect [0x3A] (skipSpace s)
  return (name, s)

def define (fields : List (JSString × Json)) : List (JSString × Json) :=
  fields.foldl (fun fields f ↦ setField fields f.1 f.2) []

mutual

/-- A value. Each call takes at least one code unit, so that the length bounds their depth. -/
def parseValue : ℕ → JSString → Option (Json × JSString)
  | 0, _ => none
  | n + 1, s =>
    match skipSpace s with
    | [] => none
    | u :: t =>
      if u = 0x22 then (readString t).map fun r ↦ (string r.1, r.2)
      else if u = 0x2D ∨ isDigit u then
        (readNumeral (u :: t)).map fun r ↦ (number (d.round r.1), r.2)
      else if u = 0x74 then (expect (js "rue") t).map fun rest ↦ (bool true, rest)
      else if u = 0x66 then (expect (js "alse") t).map fun rest ↦ (bool false, rest)
      else if u = 0x6E then (expect (js "ull") t).map fun rest ↦ (null, rest)
      else if u = 0x5B then
        match expect [0x5D] (skipSpace t) with
        | some rest => some (array [], rest)
        | none => do
          let (v, rest) ← parseValue n t
          let (l, rest) ← parseElements n rest
          return (array (v :: l), rest)
      else if u = 0x7B then
        match expect [0x7D] (skipSpace t) with
        | some rest => some (object [], rest)
        | none => do
          let (key, rest) ← readName t
          let (v, rest) ← parseValue n rest
          let (fields, rest) ← parseMembers n rest
          return (object (define ((key, v) :: fields)), rest)
      else none

/-- Behind an element of an array. -/
def parseElements : ℕ → JSString → Option (List Json × JSString)
  | 0, _ => none
  | n + 1, s =>
    match skipSpace s with
    | [] => none
    | u :: t =>
      if u = 0x5D then some ([], t)
      else if u = 0x2C then do
        let (v, rest) ← parseValue n t
        let (l, rest) ← parseElements n rest
        return (v :: l, rest)
      else none

/-- Behind a field of an object. -/
def parseMembers : ℕ → JSString → Option (List (JSString × Json) × JSString)
  | 0, _ => none
  | n + 1, s =>
    match skipSpace s with
    | [] => none
    | u :: t =>
      if u = 0x7D then some ([], t)
      else if u = 0x2C then do
        let (key, rest) ← readName t
        let (v, rest) ← parseValue n rest
        let (fields, rest) ← parseMembers n rest
        return ((key, v) :: fields, rest)
      else none

end

/-- `JSON.parse`, or `none` for a `SyntaxError`. -/
def parse (s : JSString) : Option Json :=
  match parseValue d (s.length + 1) s with
  | some (v, rest) => if skipSpace rest = [] then some v else none
  | none => none

/-! ## Values that are written faithfully -/

mutual

/-- All numbers are doubles, and no object has two fields of one name. -/
def Serialisable : Json → Prop
  | number x => ∃ q, x = .finite q ∧ d.round q = .finite q
  | array l => AllSerialisable l
  | object fields => (fields.map Prod.fst).Nodup ∧ FieldsSerialisable fields
  | _ => True

def AllSerialisable : List Json → Prop
  | [] => True
  | v :: l => v.Serialisable ∧ AllSerialisable l

def FieldsSerialisable : List (JSString × Json) → Prop
  | [] => True
  | f :: fields => f.2.Serialisable ∧ FieldsSerialisable fields

end

/-! ## Round trip -/

variable {d} {rest : JSString}

theorem setField_of_notMem {α : Type*} {fields : List (JSString × α)} {key : JSString}
    (h : key ∉ fields.map Prod.fst) (value : α) :
    setField fields key value = fields ++ [(key, value)] := by
  induction fields with
  | nil => rfl
  | cons f fields ih =>
    rw [List.map_cons, List.mem_cons, not_or] at h
    rw [setField, if_neg (Ne.symm h.1), ih h.2]
    rfl

theorem define_of_nodup {fields : List (JSString × Json)} (h : (fields.map Prod.fst).Nodup) :
    define fields = fields := by
  have hfold (fields done : List (JSString × Json))
      (h : ((done ++ fields).map Prod.fst).Nodup) :
      fields.foldl (fun fields f ↦ setField fields f.1 f.2) done = done ++ fields := by
    induction fields generalizing done with
    | nil => exact (List.append_nil _).symm
    | cons f fields ih =>
      have hf : f.1 ∉ done.map Prod.fst := by
        rw [List.map_append, List.map_cons, List.nodup_append] at h
        exact fun hmem ↦ h.2.2 _ hmem _ List.mem_cons_self rfl
      rw [List.foldl_cons, setField_of_notMem hf, ih _ (by rwa [List.append_assoc]),
        List.append_assoc]
      rfl
  exact hfold fields [] h

theorem hexValue_hexUnit : ∀ n < 16, hexValue (hexUnit n) = some n := by decide

theorem readString_cons {u : UInt16} (hu : ¬u < 0x20) (hquote : u ≠ 0x22) (hslash : u ≠ 0x5C)
    (t : JSString) : readString (u :: t) = (readString t).map fun r ↦ (u :: r.1, r.2) := by
  have hle : ¬u ≤ 0x1F := by
    simp only [UInt16.lt_iff_toNat_lt, UInt16.le_iff_toNat_le] at hu ⊢
    have h₁ : (0x20 : UInt16).toNat = 0x20 := rfl
    have h₂ : (0x1F : UInt16).toNat = 0x1F := rfl
    omega
  rw [readString.eq_def]
  simp only [if_neg hquote, if_neg hslash, if_neg hle]

/-- The four digits of an escaped control character. -/
theorem mapM_hexValue_control {u : UInt16} (h : u < 0x20) :
    [0x30, 0x30, hexUnit (u.toNat / 16), hexUnit (u.toNat % 16)].mapM hexValue =
        some [0, 0, u.toNat / 16, u.toNat % 16] ∧
      UInt16.ofNat (Nat.ofDigits 16 [0, 0, u.toNat / 16, u.toNat % 16].reverse) = u := by
  have hlt : u.toNat < 0x20 := UInt16.lt_iff_toNat_lt.mp h
  have hhigh := hexValue_hexUnit (u.toNat / 16) (by omega)
  have hlow := hexValue_hexUnit (u.toNat % 16) (by omega)
  have hzero : hexValue 0x30 = some 0 := rfl
  constructor
  · simp only [List.mapM_cons, List.mapM_nil, hzero, hhigh, hlow]
    rfl
  · have hnat : Nat.ofDigits 16 [0, 0, u.toNat / 16, u.toNat % 16].reverse = u.toNat := by
      simp only [List.reverse_cons, List.reverse_nil, List.nil_append, List.cons_append,
        Nat.ofDigits_cons, Nat.ofDigits_nil]
      omega
    rw [hnat, UInt16.ofNat_toNat]

/-- A code unit is escaped by a letter, or by its digits, or not at all. -/
theorem escape_cases (u : UInt16) :
    (∃ c, c ≠ 0x75 ∧ unescape c = some u ∧ escape u = [0x5C, c]) ∨
      (u < 0x20 ∧ escape u = js "\\u00" ++ [hexUnit (u.toNat / 16), hexUnit (u.toNat % 16)]) ∨
      ¬u < 0x20 ∧ u ≠ 0x22 ∧ u ≠ 0x5C ∧ escape u = [u] := by
  unfold escape
  split_ifs with hquote hu hu hu hu hu hu
  · obtain rfl | rfl := hquote
    · exact .inl ⟨0x22, by decide, rfl, rfl⟩
    · exact .inl ⟨0x5C, by decide, rfl, rfl⟩
  · exact .inl ⟨0x62, by decide, by rw [hu]; rfl, rfl⟩
  · exact .inl ⟨0x66, by decide, by rw [hu]; rfl, rfl⟩
  · exact .inl ⟨0x6E, by decide, by rw [hu]; rfl, rfl⟩
  · exact .inl ⟨0x72, by decide, by rw [hu]; rfl, rfl⟩
  · exact .inl ⟨0x74, by decide, by rw [hu]; rfl, rfl⟩
  · exact .inr (.inl ⟨hu, rfl⟩)
  · exact .inr (.inr ⟨hu, fun h ↦ hquote (.inl h), fun h ↦ hquote (.inr h), rfl⟩)

/-- An escaped code unit is read as itself. -/
theorem readString_escape (u : UInt16) (t : JSString) :
    readString (escape u ++ t) = (readString t).map fun r ↦ (u :: r.1, r.2) := by
  have hslash : (0x5C : UInt16) ≠ 0x22 := by decide
  rcases escape_cases u with ⟨c, hc, hunescape, heq⟩ | ⟨hu, heq⟩ | ⟨hu, hquote, hback, heq⟩
  · rw [heq, List.cons_append, List.singleton_append, readString.eq_def]
    simp only [if_neg hslash, if_true, if_neg hc, hunescape]
    cases readString t <;> rfl
  · obtain ⟨hdigits, hvalue⟩ := mapM_hexValue_control hu
    rw [heq]
    change readString (0x5C :: 0x75 :: 0x30 :: 0x30 :: hexUnit (u.toNat / 16) ::
      hexUnit (u.toNat % 16) :: t) = _
    rw [readString.eq_def]
    simp only [if_neg hslash, if_true, hdigits, Option.bind_eq_bind, Option.bind_some, hvalue]
    cases readString t <;> rfl
  · rw [heq]
    exact readString_cons hu hquote hback t

theorem readString_quote (s : JSString) :
    readString (s.flatMap escape ++ 0x22 :: rest) = some (s, rest) := by
  induction s with
  | nil =>
    rw [List.flatMap_nil, List.nil_append, readString.eq_def]
    rfl
  | cons u s ih =>
    rw [List.flatMap_cons, List.append_assoc, readString_escape, ih]
    rfl

theorem quote_append (s : JSString) :
    quote s ++ rest = 0x22 :: (s.flatMap escape ++ 0x22 :: rest) := by
  simp [quote]

/-- A name is read up to behind its colon. -/
theorem readName_quote (key : JSString) :
    readName (quote key ++ 0x3A :: rest) = some (key, rest) := by
  rw [quote_append, readName]
  have hskip : skipSpace (0x22 :: (key.flatMap escape ++ 0x22 :: 0x3A :: rest)) =
      0x22 :: (key.flatMap escape ++ 0x22 :: 0x3A :: rest) := rfl
  rw [hskip]
  simp only [expect, if_true, Option.bind_eq_bind, Option.bind_some, readString_quote]
  rfl

theorem stops_of_cons {u : UInt16} (hu : isDigit u = false ∧ u ≠ 0x2E ∧ u ≠ 0x65 ∧ u ≠ 0x45) :
    Stops (u :: rest) := by
  rintro v ⟨⟩
  exact hu

/-- A numeral is read as its number. -/
theorem parseValue_number {n : ℕ} {q : ℚ} (hq : d.round q = .finite q) (hrest : Stops rest) :
    parseValue d (n + 1) (d.toString q ++ rest) = some (number (.finite q), rest) := by
  obtain ⟨v, hread, hround⟩ := d.readNumeral_toString q hq
  obtain ⟨u, t, htext, hu⟩ := head_of_readNumeral hread
  have hread := readNumeral_append hrest hread
  have hblank : isBlank u = false ∧ u ≠ 0x22 := by
    obtain rfl | hu := hu
    · exact ⟨rfl, by decide⟩
    · exact forall_digit (p := fun u ↦ isBlank u = false ∧ u ≠ 0x22) (by decide) hu
  rw [htext] at hread ⊢
  have hskip : skipSpace (u :: t ++ rest) = u :: (t ++ rest) :=
    List.dropWhile_cons_of_neg (by simp [hblank.1])
  rw [parseValue, hskip]
  simp only [if_neg hblank.2, if_pos hu]
  rw [show u :: (t ++ rest) = u :: t ++ rest from rfl, hread]
  simp only [Option.map_some, hround, List.nil_append]

/-- What `stringify` writes does not begin with what closes an array, or with a blank. -/
theorem stringify_head {v : Json} (hv : v.Serialisable d) : ∃ u t, v.stringify d = u :: t ∧
    isBlank u = false ∧ u ≠ 0x5D := by
  cases v with
  | null => exact ⟨_, _, rfl, rfl, by decide⟩
  | bool b => cases b <;> exact ⟨_, _, rfl, rfl, by decide⟩
  | number x =>
    obtain ⟨q, rfl, hq⟩ := hv
    obtain ⟨v, hread, -⟩ := d.readNumeral_toString q hq
    obtain ⟨u, t, htext, hu⟩ := head_of_readNumeral hread
    refine ⟨u, t, htext, ?_⟩
    obtain rfl | hu := hu
    · exact ⟨rfl, by decide⟩
    · exact forall_digit (p := fun u ↦ isBlank u = false ∧ u ≠ 0x5D) (by decide) hu
  | string s => exact ⟨_, _, rfl, rfl, by decide⟩
  | array l => cases l <;> exact ⟨_, _, rfl, rfl, by decide⟩
  | object fields =>
    obtain _ | ⟨⟨key, v⟩, fields⟩ := fields <;> exact ⟨_, _, rfl, rfl, by decide⟩

theorem expect_close {v : Json} (hv : v.Serialisable d) :
    expect [0x5D] (skipSpace (v.stringify d ++ rest)) = none := by
  obtain ⟨u, t, htext, hblank, hclose⟩ := stringify_head hv
  have hskip : skipSpace (u :: t ++ rest) = u :: (t ++ rest) :=
    List.dropWhile_cons_of_neg (by simp [hblank])
  rw [htext, hskip, expect, if_neg (Ne.symm hclose)]

theorem parseValue_array {n : ℕ} {t t' : JSString} {v : Json} {l : List Json}
    (hclose : expect [0x5D] (skipSpace t) = none) (hv : parseValue d n t = some (v, t'))
    (hl : parseElements d n t' = some (l, rest)) :
    parseValue d (n + 1) (0x5B :: t) = some (array (v :: l), rest) := by
  have hskip : skipSpace (0x5B :: t) = 0x5B :: t := rfl
  have hdigit : ¬((0x5B : UInt16) = 0x2D ∨ isDigit 0x5B = true) := by decide
  rw [parseValue, hskip]
  simp only [if_neg hdigit, if_neg (show (0x5B : UInt16) ≠ 0x22 by decide),
    if_neg (show (0x5B : UInt16) ≠ 0x74 by decide), if_neg (show (0x5B : UInt16) ≠ 0x66 by decide),
    if_neg (show (0x5B : UInt16) ≠ 0x6E by decide), if_true, hclose, hv, hl, Option.bind_eq_bind,
    Option.bind_some, Option.pure_def]

theorem parseValue_object {n : ℕ} {key t t' : JSString} {v : Json}
    {fields : List (JSString × Json)} (hnodup : (((key, v) :: fields).map Prod.fst).Nodup)
    (hv : parseValue d n t = some (v, t')) (hfields : parseMembers d n t' = some (fields, rest)) :
    parseValue d (n + 1) (0x7B :: (quote key ++ 0x3A :: t)) =
      some (object ((key, v) :: fields), rest) := by
  have hskip : skipSpace (0x7B :: (quote key ++ 0x3A :: t)) = 0x7B :: (quote key ++ 0x3A :: t) :=
    rfl
  have hdigit : ¬((0x7B : UInt16) = 0x2D ∨ isDigit 0x7B = true) := by decide
  have hclose : expect [0x7D] (skipSpace (quote key ++ 0x3A :: t)) = none := by
    rw [quote_append]
    rfl
  rw [parseValue, hskip]
  simp only [if_neg hdigit, if_neg (show (0x7B : UInt16) ≠ 0x22 by decide),
    if_neg (show (0x7B : UInt16) ≠ 0x74 by decide), if_neg (show (0x7B : UInt16) ≠ 0x66 by decide),
    if_neg (show (0x7B : UInt16) ≠ 0x6E by decide), if_neg (show (0x7B : UInt16) ≠ 0x5B by decide),
    if_true, hclose, readName_quote, hv, hfields, Option.bind_eq_bind, Option.bind_some,
    Option.pure_def, define_of_nodup hnodup]

theorem stops_elements (l : List Json) : Stops (elements d l ++ rest) := by
  cases l <;> exact stops_of_cons (by decide)

theorem stops_members (fields : List (JSString × Json)) : Stops (members d fields ++ rest) := by
  obtain _ | ⟨⟨key, v⟩, fields⟩ := fields <;> exact stops_of_cons (by decide)

mutual

theorem parseValue_stringify : ∀ (v : Json) (n : ℕ) (rest : JSString), v.Serialisable d →
    (v.stringify d).length ≤ n → Stops rest →
      parseValue d n (v.stringify d ++ rest) = some (v, rest)
  | null, n + 1, rest, _, _, _ => rfl
  | bool b, n + 1, rest, _, _, _ => by cases b <;> rfl
  | number x, n + 1, rest, hv, _, hrest => by
    obtain ⟨q, rfl, hq⟩ := hv
    exact parseValue_number hq hrest
  | string s, n + 1, rest, _, _, _ => by
    change parseValue d (n + 1) (quote s ++ rest) = _
    rw [quote_append, parseValue]
    change (readString (s.flatMap escape ++ 0x22 :: rest)).map _ = _
    rw [readString_quote]
    rfl
  | array [], n + 1, rest, _, _, _ => rfl
  | array (v :: l), n + 1, rest, hv, hn, _ => by
    have hlength : (v.stringify d).length + (elements d l).length ≤ n :=
      (List.length_append ..).symm.le.trans (Nat.le_of_succ_le_succ hn)
    have hl := parseElements_elements l n rest hv.2 (by omega)
    have hv' := parseValue_stringify v n (elements d l ++ rest) hv.1 (by omega) (stops_elements l)
    have harray := parseValue_array (expect_close hv.1) hv' hl
    simpa only [stringify, List.cons_append, List.append_assoc] using harray
  | object [], n + 1, rest, _, _, _ => rfl
  | object ((key, v) :: fields), n + 1, rest, hv, hn, _ => by
    have hlength : (v.stringify d).length + (members d fields).length ≤ n := by
      simp only [stringify, List.length_cons, List.length_append] at hn
      omega
    have hfields := parseMembers_members fields n rest hv.2.2 (by omega)
    have hv' := parseValue_stringify v n (members d fields ++ rest) hv.2.1 (by omega)
      (stops_members fields)
    have hobject := parseValue_object hv.1 hv' hfields
    simpa only [stringify, List.cons_append, List.append_assoc] using hobject
  | v, 0, rest, hv, hn, _ => by
    obtain ⟨u, t, htext, -⟩ := stringify_head hv
    rw [htext] at hn
    cases hn

theorem parseElements_elements : ∀ (l : List Json) (n : ℕ) (rest : JSString), AllSerialisable d l →
    (elements d l).length ≤ n → parseElements d n (elements d l ++ rest) = some (l, rest)
  | [], n + 1, rest, _, _ => rfl
  | v :: l, n + 1, rest, hl, hn => by
    have hlength : (v.stringify d).length + (elements d l).length ≤ n :=
      (List.length_append ..).symm.le.trans (Nat.le_of_succ_le_succ hn)
    have hl' := parseElements_elements l n rest hl.2 (by omega)
    have hv := parseValue_stringify v n (elements d l ++ rest) hl.1 (by omega) (stops_elements l)
    have hskip : skipSpace (elements d (v :: l) ++ rest) = elements d (v :: l) ++ rest := rfl
    rw [parseElements, hskip]
    simp only [elements, List.cons_append, List.append_assoc,
      if_neg (show (0x2C : UInt16) ≠ 0x5D by decide), if_true, hv, hl', Option.bind_eq_bind,
      Option.bind_some, Option.pure_def]
  | [], 0, rest, _, hn => by cases hn
  | _ :: _, 0, rest, _, hn => by cases hn

theorem parseMembers_members : ∀ (fields : List (JSString × Json)) (n : ℕ) (rest : JSString),
    FieldsSerialisable d fields → (members d fields).length ≤ n →
      parseMembers d n (members d fields ++ rest) = some (fields, rest)
  | [], n + 1, rest, _, _ => rfl
  | (key, v) :: fields, n + 1, rest, hfields, hn => by
    have hlength : (v.stringify d).length + (members d fields).length ≤ n := by
      simp only [members, List.length_cons, List.length_append] at hn
      omega
    have hfields' := parseMembers_members fields n rest hfields.2 (by omega)
    have hv := parseValue_stringify v n (members d fields ++ rest) hfields.1 (by omega)
      (stops_members fields)
    have hskip : skipSpace (members d ((key, v) :: fields) ++ rest) =
        members d ((key, v) :: fields) ++ rest := rfl
    rw [parseMembers, hskip]
    simp only [members, List.cons_append, List.append_assoc,
      if_neg (show (0x2C : UInt16) ≠ 0x7D by decide), if_true, readName_quote, hv, hfields',
      Option.bind_eq_bind, Option.bind_some, Option.pure_def]
  | [], 0, rest, _, hn => by cases hn
  | (_, _) :: _, 0, rest, _, hn => by cases hn

end

/-- `JSON.parse(JSON.stringify(v))` -/
theorem parse_stringify {v : Json} (hv : v.Serialisable d) : parse d (v.stringify d) = some v := by
  have hparse := parseValue_stringify v ((v.stringify d).length + 1) [] hv (Nat.le_succ _) nofun
  rw [List.append_nil] at hparse
  rw [parse, hparse]
  rfl

end Json

end SpiderNode
