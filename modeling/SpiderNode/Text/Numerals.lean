import SpiderNode.Text.Utf16
import Mathlib.Algebra.Field.Rat
import Mathlib.Data.Nat.Digits.Lemmas
import Mathlib.Data.Rat.Floor

/-!
# Numerals

What the engine does between numbers and strings: `Number(s)`, and the numbers of JSON. The digits
are read exactly here, as a rational number. Rounding that to a double, and finding a short numeral
for a double, is left to `Doubles`, of which only a little is known: integers up to `2 ^ 53` are
doubles and have their decimal digits; and the numeral of a double is one of JSON, and is read as
that double.
-/

namespace SpiderNode

/-- A number. There is only one zero. -/
inductive Number where
  | nan
  | infinity (negative : Bool)
  | finite (q : ℚ)
  deriving DecidableEq

namespace Number

/-- `n >= x` -/
def le (x : Number) (n : ℕ) : Bool :=
  match x with
  | nan => false
  | infinity negative => negative
  | finite q => q ≤ n

/-- `n < x` -/
def gt (x : Number) (n : ℕ) : Bool :=
  match x with
  | nan => false
  | infinity negative => !negative
  | finite q => n < q

/-- A position that is given to `slice`, in a string of a length. -/
def index (x : Number) (length : ℕ) : ℕ :=
  match x with
  | nan => 0
  | infinity negative => if negative then 0 else length
  | finite q =>
    let i := q.num.tdiv q.den
    if i < 0 then (length + i).toNat else min i.toNat length

end Number

/-! ## Digits -/

def isDigit (u : UInt16) : Bool := 0x30 ≤ u && u ≤ 0x39

def digitUnit (d : ℕ) : UInt16 := .ofNat (0x30 + d)

def digitValue (u : UInt16) : ℕ := u.toNat - 0x30

/-- The decimal digits of a number. -/
def decimal (n : ℕ) : JSString :=
  if n = 0 then [0x30] else (Nat.digits 10 n).reverse.map digitUnit

/-- The number that digits stand for. -/
def digitsValue (s : JSString) : ℕ := Nat.ofDigits 10 (s.reverse.map digitValue)

theorem digitValue_digitUnit : ∀ d < 10, digitValue (digitUnit d) = d := by decide

theorem isDigit_digitUnit : ∀ d < 10, isDigit (digitUnit d) = true := by decide

/-- What holds of ten digits holds of every digit. -/
theorem forall_digit {p : UInt16 → Prop} (h : ∀ d < 10, p (digitUnit d)) {u : UInt16}
    (hu : isDigit u = true) : p u := by
  simp only [isDigit, Bool.and_eq_true, decide_eq_true_eq, UInt16.le_iff_toNat_le] at hu
  have h₁ : (0x30 : UInt16).toNat = 0x30 := rfl
  have h₂ : (0x39 : UInt16).toNat = 0x39 := rfl
  have hunit : digitUnit (u.toNat - 0x30) = u := by
    rw [digitUnit, show 0x30 + (u.toNat - 0x30) = u.toNat by omega]
    exact UInt16.ofNat_toNat
  exact hunit ▸ h (u.toNat - 0x30) (by omega)

theorem mem_digits_lt {n d : ℕ} (h : d ∈ (Nat.digits 10 n).reverse) : d < 10 :=
  Nat.digits_lt_base (by omega) (List.mem_reverse.mp h)

theorem decimal_ne_nil (n : ℕ) : decimal n ≠ [] := by
  rw [decimal]
  split_ifs with h
  · exact List.cons_ne_nil _ _
  · simpa [Nat.digits_ne_nil_iff_ne_zero] using h

theorem isDigit_of_mem_decimal {n : ℕ} {u : UInt16} (h : u ∈ decimal n) : isDigit u = true := by
  rw [decimal] at h
  split_ifs at h
  · obtain rfl := List.mem_singleton.mp h
    rfl
  · obtain ⟨d, hd, rfl⟩ := List.mem_map.mp h
    exact isDigit_digitUnit d (mem_digits_lt hd)

theorem digitsValue_decimal (n : ℕ) : digitsValue (decimal n) = n := by
  rw [decimal]
  split_ifs with h
  · subst h
    rfl
  · have hmap : (Nat.digits 10 n).map (digitValue ∘ digitUnit) = Nat.digits 10 n := by
      refine (List.map_congr_left fun d hd ↦ ?_).trans (List.map_id _)
      exact digitValue_digitUnit d (Nat.digits_lt_base (by omega) hd)
    rw [digitsValue, ← List.map_reverse, List.reverse_reverse, List.map_map, hmap,
      Nat.ofDigits_digits]

/-! ## Reading -/

/-- What may follow a number. -/
def Stops (rest : JSString) : Prop :=
  ∀ u ∈ rest.head?, isDigit u = false ∧ u ≠ 0x2E ∧ u ≠ 0x65 ∧ u ≠ 0x45

/-- The exact value of digits, with an exponent. -/
def decimalValue (whole fraction : JSString) (exponent : ℤ) : ℚ :=
  digitsValue (whole ++ fraction) * 10 ^ (exponent - fraction.length)

def readExponentDigits (negative : Bool) (s : JSString) : Option (ℤ × JSString) :=
  if s.takeWhile isDigit = [] then none
  else
    let e : ℤ := digitsValue (s.takeWhile isDigit)
    some (if negative then -e else e, s.dropWhile isDigit)

def readSignedExponent (s : JSString) : Option (ℤ × JSString) :=
  match s with
  | [] => none
  | u :: t =>
    if u = 0x2B then readExponentDigits false t
    else if u = 0x2D then readExponentDigits true t
    else readExponentDigits false s

/-- An exponent, if there is one. -/
def readExponent (s : JSString) : Option (ℤ × JSString) :=
  match s with
  | [] => some (0, [])
  | u :: t => if u = 0x65 ∨ u = 0x45 then readSignedExponent t else some (0, s)

/-- The digits behind a point, if there is one. -/
def readFraction (s : JSString) : Option (JSString × JSString) :=
  match s with
  | [] => some ([], [])
  | u :: t =>
    if u = 0x2E then
      if t.takeWhile isDigit = [] then none else some (t.takeWhile isDigit, t.dropWhile isDigit)
    else some ([], s)

/-- The digits of a number in JSON in front of the point: only `0` begins with a zero. -/
def readWhole (s : JSString) : Option (JSString × JSString) :=
  match s with
  | [] => none
  | u :: t =>
    if u = 0x30 then some ([u], t)
    else if isDigit u then some (u :: t.takeWhile isDigit, t.dropWhile isDigit)
    else none

/-- A number in JSON, without its sign. -/
def readUnsigned (s : JSString) : Option (ℚ × JSString) := do
  let (whole, s) ← readWhole s
  let (fraction, s) ← readFraction s
  let (exponent, s) ← readExponent s
  return (decimalValue whole fraction exponent, s)

/-- A number in JSON. -/
def readNumeral (s : JSString) : Option (ℚ × JSString) :=
  match s with
  | [] => none
  | u :: t => if u = 0x2D then (readUnsigned t).map fun r ↦ (-r.1, r.2) else readUnsigned s

/-- The digits of `StrUnsignedDecimalLiteral`. -/
def readDecimal (s : JSString) : Option ℚ :=
  let whole := s.takeWhile isDigit
  let s := s.dropWhile isDigit
  let point := s.head? = some 0x2E
  let fraction := if point then s.tail.takeWhile isDigit else []
  let s := if point then s.tail.dropWhile isDigit else s
  if whole = [] ∧ fraction = [] then none
  else
    match readExponent s with
    | some (exponent, []) => some (decimalValue whole fraction exponent)
    | _ => none

/-! ## Doubles -/

/-- What the engine knows about doubles (`js_strtod`, `js_NumberToString`). -/
structure Doubles where
  /-- The nearest double. -/
  round : ℚ → Number
  /-- `String(q)` -/
  toString : ℚ → JSString
  round_natCast : ∀ n : ℕ, n ≤ 2 ^ 53 → round n = .finite n
  toString_natCast : ∀ n : ℕ, n ≤ 2 ^ 53 → toString n = decimal n
  readNumeral_toString : ∀ q, round q = .finite q →
    ∃ v, readNumeral (toString q) = some (v, []) ∧ round v = .finite q

def isWhite (u : UInt16) : Bool :=
  (0x09 ≤ u && u ≤ 0x0D) || u == 0x20 || u == 0xA0 || u == 0x1680 || u == 0x180E ||
    (0x2000 ≤ u && u ≤ 0x200A) || u == 0x2028 || u == 0x2029 || u == 0x202F || u == 0x205F ||
    u == 0x3000 || u == 0xFEFF

def trim (s : JSString) : JSString :=
  ((s.dropWhile isWhite).reverse.dropWhile isWhite).reverse

/-- The value of a hexadecimal digit. -/
def hexValue (u : UInt16) : Option ℕ :=
  if isDigit u then some (digitValue u)
  else if 0x41 ≤ u ∧ u ≤ 0x46 then some (u.toNat - 0x37)
  else if 0x61 ≤ u ∧ u ≤ 0x66 then some (u.toNat - 0x57)
  else none

namespace Doubles

variable (d : Doubles)

/-- `StrDecimalLiteral` -/
def signed (negative : Bool) (s : JSString) : Number :=
  if s = js "Infinity" then .infinity negative
  else
    match readDecimal s with
    | some q => d.round (if negative then -q else q)
    | none => .nan

/-- `Number(s)` of a string without white space around it. -/
def ofTrimmed (s : JSString) : Number :=
  match s with
  | [] => .finite 0
  | u :: t =>
    if u = 0x30 ∧ (t.head? = some 0x78 ∨ t.head? = some 0x58) then
      match t.tail.mapM hexValue with
      | some (e :: es) => d.round (Nat.ofDigits 16 (e :: es).reverse : ℕ)
      | _ => .nan
    else if u = 0x2B then d.signed false t
    else if u = 0x2D then d.signed true t
    else d.signed false s

/-- `Number(s)`, where `none` is `undefined`. -/
def toNumber (s : Option JSString) : Number :=
  match s with
  | none => .nan
  | some s => d.ofTrimmed (trim s)

/-- `n + x` -/
def add (n : ℕ) : Number → Number
  | .finite q => d.round (n + q)
  | x => x

end Doubles

/-! ### Numerals of natural numbers -/

variable {s rest : JSString}

theorem takeWhile_append_of_head {p : UInt16 → Bool} (rest : JSString)
    (hs : ∀ u ∈ s, p u = true) (hrest : ∀ u ∈ rest.head?, p u = false) :
    (s ++ rest).takeWhile p = s ∧ (s ++ rest).dropWhile p = rest := by
  have hstop : rest.takeWhile p = [] ∧ rest.dropWhile p = rest := by
    cases rest with
    | nil => exact ⟨rfl, rfl⟩
    | cons u t =>
      have hu := hrest u rfl
      exact ⟨List.takeWhile_cons_of_neg (by simp [hu]), List.dropWhile_cons_of_neg (by simp [hu])⟩
  rw [List.takeWhile_append_of_pos hs, List.dropWhile_append_of_pos hs, hstop.1, hstop.2]
  exact ⟨List.append_nil _, rfl⟩

theorem decimalValue_whole (whole : JSString) : decimalValue whole [] 0 = digitsValue whole := by
  simp [decimalValue]

theorem trim_of_digits (hs : ∀ u ∈ s, isDigit u = true) : trim s = s := by
  have hdrop {l : JSString} (hl : ∀ u ∈ l, isDigit u = true) : l.dropWhile isWhite = l := by
    cases l with
    | nil => rfl
    | cons u t =>
      have hwhite := forall_digit (p := fun u ↦ isWhite u = false) (by decide)
        (hl u List.mem_cons_self)
      exact List.dropWhile_cons_of_neg (by simp [hwhite])
  rw [trim, hdrop hs, hdrop fun u hu ↦ hs u (List.mem_reverse.mp hu), List.reverse_reverse]

theorem readDecimal_of_digits (hs : ∀ u ∈ s, isDigit u = true) (hne : s ≠ []) :
    readDecimal s = some (digitsValue s : ℚ) := by
  obtain ⟨htake, hdrop⟩ := takeWhile_append_of_head [] hs nofun
  rw [List.append_nil] at htake hdrop
  simp only [readDecimal, htake, hdrop]
  rw [if_neg (fun h ↦ hne h.1)]
  exact congrArg some (decimalValue_whole s)

/-- A numeral of decimal digits. -/
theorem Doubles.toNumber_of_digits (d : Doubles) (hs : ∀ u ∈ s, isDigit u = true) (hne : s ≠ []) :
    d.toNumber (some s) = d.round (digitsValue s : ℕ) := by
  obtain ⟨u, t, rfl⟩ := List.exists_cons_of_ne_nil hne
  have hhex : ¬(u = 0x30 ∧ (t.head? = some 0x78 ∨ t.head? = some 0x58)) := by
    rintro ⟨-, ht⟩
    obtain _ | ⟨v, t⟩ := t
    · cases ht <;> contradiction
    · have hv := forall_digit (p := fun v ↦ v ≠ 0x78 ∧ v ≠ 0x58) (by decide) (hs v (by simp))
      exact ht.elim (fun h ↦ hv.1 (Option.some.inj h)) fun h ↦ hv.2 (Option.some.inj h)
  have hsign := forall_digit (p := fun u ↦ u ≠ 0x2B ∧ u ≠ 0x2D ∧ u ≠ 0x49) (by decide)
    (hs u List.mem_cons_self)
  have hinfinity : u :: t ≠ js "Infinity" := fun h ↦ hsign.2.2 (List.cons.inj h).1
  rw [toNumber, trim_of_digits hs]
  simp only [ofTrimmed, if_neg hhex, if_neg hsign.1, if_neg hsign.2.1, signed, if_neg hinfinity,
    readDecimal_of_digits hs hne]
  rfl

/-! ### Numerals with something behind them -/

theorem takeWhile_append_stops {p : UInt16 → Bool} (hrest : ∀ u ∈ rest.head?, p u = false) :
    (s ++ rest).takeWhile p = s.takeWhile p ∧ (s ++ rest).dropWhile p = s.dropWhile p ++ rest := by
  induction s with
  | nil =>
    have h := takeWhile_append_of_head (s := []) _ nofun hrest
    exact h
  | cons u t ih =>
    cases hu : p u with
    | true =>
      simp only [List.cons_append, List.takeWhile_cons, List.dropWhile_cons, hu, if_true]
      exact ⟨congrArg _ ih.1, ih.2⟩
    | false => simp only [List.cons_append, List.takeWhile_cons, List.dropWhile_cons, hu,
        Bool.false_eq_true, if_false, and_self]

theorem Stops.digits (h : Stops rest) : ∀ u ∈ rest.head?, isDigit u = false :=
  fun u hu ↦ (h u hu).1

theorem readWhole_append (h : Stops rest) {whole t : JSString}
    (hs : readWhole s = some (whole, t)) :
    readWhole (s ++ rest) = some (whole, t ++ rest) := by
  obtain _ | ⟨u, s⟩ := s
  · cases hs
  simp only [readWhole, List.cons_append] at hs ⊢
  obtain ⟨htake, hdrop⟩ := takeWhile_append_stops (s := s) h.digits
  rw [htake, hdrop]
  split_ifs at hs ⊢
  all_goals
    obtain ⟨rfl, rfl⟩ := Prod.mk.inj (Option.some.inj hs)
    rfl

theorem readFraction_append (h : Stops rest) {fraction t : JSString}
    (hs : readFraction s = some (fraction, t)) :
    readFraction (s ++ rest) = some (fraction, t ++ rest) := by
  obtain _ | ⟨u, s⟩ := s
  · obtain ⟨rfl, rfl⟩ := Prod.mk.inj (Option.some.inj hs)
    obtain _ | ⟨v, rest⟩ := rest
    · rfl
    · exact if_neg (h v rfl).2.1
  simp only [readFraction, List.cons_append] at hs ⊢
  obtain ⟨htake, hdrop⟩ := takeWhile_append_stops (s := s) h.digits
  rw [htake, hdrop]
  split_ifs at hs ⊢
  all_goals
    obtain ⟨rfl, rfl⟩ := Prod.mk.inj (Option.some.inj hs)
    rfl

theorem readExponentDigits_append (h : Stops rest) {negative : Bool} {e : ℤ} {t : JSString}
    (hs : readExponentDigits negative s = some (e, t)) :
    readExponentDigits negative (s ++ rest) = some (e, t ++ rest) := by
  obtain ⟨htake, hdrop⟩ := takeWhile_append_stops (s := s) h.digits
  simp only [readExponentDigits, htake, hdrop] at hs ⊢
  split_ifs at hs ⊢
  all_goals
    obtain ⟨rfl, rfl⟩ := Prod.mk.inj (Option.some.inj hs)
    rfl

theorem readSignedExponent_append (h : Stops rest) {e : ℤ} {t : JSString}
    (hs : readSignedExponent s = some (e, t)) :
    readSignedExponent (s ++ rest) = some (e, t ++ rest) := by
  obtain _ | ⟨u, s⟩ := s
  · cases hs
  simp only [readSignedExponent, List.cons_append] at hs ⊢
  split_ifs at hs ⊢
  all_goals exact readExponentDigits_append h hs

theorem readExponent_append (h : Stops rest) {e : ℤ} {t : JSString}
    (hs : readExponent s = some (e, t)) : readExponent (s ++ rest) = some (e, t ++ rest) := by
  obtain _ | ⟨u, s⟩ := s
  · obtain ⟨rfl, rfl⟩ := Prod.mk.inj (Option.some.inj hs)
    obtain _ | ⟨v, rest⟩ := rest
    · rfl
    · exact if_neg fun hv ↦ hv.elim (h v rfl).2.2.1 (h v rfl).2.2.2
  simp only [readExponent, List.cons_append] at hs ⊢
  split_ifs at hs ⊢ with hu
  · exact readSignedExponent_append h hs
  · obtain ⟨rfl, rfl⟩ := Prod.mk.inj (Option.some.inj hs)
    rfl

theorem readUnsigned_append (h : Stops rest) {q : ℚ} {t : JSString}
    (hs : readUnsigned s = some (q, t)) : readUnsigned (s ++ rest) = some (q, t ++ rest) := by
  simp only [readUnsigned, Option.bind_eq_bind, Option.bind_eq_some_iff, Option.pure_def] at hs
  obtain ⟨⟨whole, s₁⟩, hwhole, ⟨fraction, s₂⟩, hfraction, ⟨e, s₃⟩, hexponent, hq⟩ := hs
  obtain ⟨rfl, rfl⟩ := Prod.mk.inj (Option.some.inj hq)
  simp only [readUnsigned, readWhole_append h hwhole, readFraction_append h hfraction,
    readExponent_append h hexponent, Option.bind_eq_bind, Option.bind_some, Option.pure_def]

theorem readNumeral_append (h : Stops rest) {q : ℚ} {t : JSString}
    (hs : readNumeral s = some (q, t)) : readNumeral (s ++ rest) = some (q, t ++ rest) := by
  obtain _ | ⟨u, s⟩ := s
  · cases hs
  simp only [readNumeral, List.cons_append] at hs ⊢
  split_ifs at hs ⊢
  · obtain ⟨⟨q', t'⟩, hunsigned, hq⟩ := Option.map_eq_some_iff.mp hs
    obtain ⟨rfl, rfl⟩ := Prod.mk.inj hq
    rw [readUnsigned_append h hunsigned]
    rfl
  · exact readUnsigned_append h hs

/-- The first code unit of a numeral. -/
theorem head_of_readNumeral {q : ℚ} {t : JSString} (hs : readNumeral s = some (q, t)) :
    ∃ u s', s = u :: s' ∧ (u = 0x2D ∨ isDigit u = true) := by
  obtain _ | ⟨u, s⟩ := s
  · cases hs
  refine ⟨u, s, rfl, or_iff_not_imp_left.mpr fun hu ↦ ?_⟩
  simp only [readNumeral, if_neg hu, readUnsigned, Option.bind_eq_bind,
    Option.bind_eq_some_iff] at hs
  obtain ⟨⟨whole, s₁⟩, hwhole, -⟩ := hs
  simp only [readWhole] at hwhole
  split_ifs at hwhole with hzero hdigit
  · exact hzero ▸ rfl
  · exact hdigit

/-! ### An example -/

/-- Only zero begins with a zero. -/
theorem tail_decimal {n : ℕ} {t : JSString} (h : decimal n = 0x30 :: t) : t = [] := by
  rw [decimal] at h
  split_ifs at h with hn
  · exact (List.cons.inj h).2.symm
  · exfalso
    have hne : Nat.digits 10 n ≠ [] := Nat.digits_ne_nil_iff_ne_zero.mpr hn
    have hlast := Nat.getLast_digit_ne_zero 10 hn
    have hlt := Nat.digits_lt_base (m := n) (by omega) (List.getLast_mem hne)
    rw [← List.dropLast_append_getLast hne, List.reverse_append, List.map_append] at h
    have hhead := (List.cons.inj h).1
    have hzero : ∀ d < 10, digitUnit d = 0x30 → d = 0 := by decide
    exact hlast (hzero _ hlt hhead)

/-- The numeral of a natural number in JSON. -/
theorem readNumeral_decimal (n : ℕ) : readNumeral (decimal n) = some ((n : ℚ), []) := by
  have hdigits := fun u (hu : u ∈ decimal n) ↦ isDigit_of_mem_decimal hu
  obtain ⟨u, t, htext⟩ := List.exists_cons_of_ne_nil (decimal_ne_nil n)
  have hvalue : decimalValue (u :: t) [] 0 = (n : ℚ) := by
    rw [← htext, decimalValue_whole, digitsValue_decimal]
  rw [htext] at hdigits ⊢
  have hu := hdigits u List.mem_cons_self
  have hsign := forall_digit (p := fun u ↦ u ≠ 0x2D) (by decide) hu
  obtain ⟨htake, hdrop⟩ := takeWhile_append_of_head (s := t) []
    (fun v hv ↦ hdigits v (List.mem_cons_of_mem _ hv)) nofun
  rw [List.append_nil] at htake hdrop
  have hwhole : readWhole (u :: t) = some (u :: t, []) := by
    rw [readWhole]
    split_ifs with hzero
    · rw [hzero] at htext
      rw [tail_decimal htext]
    · rw [htake, hdrop]
  simp only [readNumeral, if_neg hsign, readUnsigned, hwhole, readFraction, readExponent,
    Option.bind_eq_bind, Option.bind_some, Option.pure_def, hvalue]

/-- What is certain of every machine: the doubles up to `2 ^ 53` that are natural numbers. -/
def Doubles.naturals : Doubles where
  round q := if q.den = 1 ∧ 0 ≤ q.num ∧ q.num ≤ 2 ^ 53 then .finite q else .nan
  toString q := decimal q.num.toNat
  round_natCast n hn := if_pos ⟨rfl, Int.natCast_nonneg n, Int.ofNat_le.mpr hn⟩
  toString_natCast n _ := rfl
  readNumeral_toString q hq := by
    split_ifs at hq with hnat
    have hcast : ((q.num.toNat : ℕ) : ℚ) = q := by
      rw [← Int.cast_natCast, Int.toNat_of_nonneg hnat.2.1]
      exact Rat.coe_int_num_of_den_eq_one hnat.1
    exact ⟨q, by rw [readNumeral_decimal, hcast], if_pos hnat⟩

end SpiderNode