import SpiderNode.Query.Escape

/-!
# What `unescapeBuffer` decodes

`unescapeBuffer` writes into a buffer that has a byte for each character of the string. The end of
the string is one more character, which ends an escape that is not complete, and is written, as a
byte of padding, behind all the others. `unescapeInto_eq` says that just this byte is cut off, or
lost behind the end of the buffer.

A `%` that no two digits follow stands for itself; but so does the character that was read instead
of a digit, also if it is a `+`, or begins an escape. `unescapeInto_eq_iff` says that for all other
strings `unescapeBuffer` is the decoder one expects.
-/

namespace SpiderNode.Query

open Net (JsError)
open Buffer (hexDigit)

/-! ## The loop -/

/-- The variables of the loop. -/
structure Unescaping where
  state : Scan
  out : Bytes
  outIndex : ℕ

/-- `out[outIndex++] = c`; behind its end, `out` stores nothing. -/
def Unescaping.write (r : Unescaping) (b : UInt8) : Unescaping :=
  { r with out := r.out.set r.outIndex b, outIndex := r.outIndex + 1 }

/-- A turn of the loop. -/
def Unescaping.read (decodeSpaces : Bool) (r : Unescaping) (c : Option UInt16) : Unescaping :=
  match r.state with
  | .char =>
    if c = some 0x25 then { r with state := .hex0 }
    else r.write (stored (if c = some 0x2B ∧ decodeSpaces = true then some 0x20 else c))
  | .hex0 =>
    match c.bind hexDigit with
    | some n => { r with state := .hex1 n c }
    | none => { (r.write 0x25).write (stored c) with state := .char }
  | .hex1 n hexchar =>
    match c.bind hexDigit with
    | some m => { r.write (.ofNat (16 * n + m)) with state := .char }
    | none => { ((r.write 0x25).write (stored hexchar)).write (stored c) with state := .char }

/-- `QueryString.unescapeBuffer`, where a new buffer holds what was in `memory`. -/
def unescapeInto (memory : ℕ → UInt8) (s : JSString) (decodeSpaces : Bool) :
    Except JsError Bytes :=
  let r := (s.map some ++ [none]).foldl (Unescaping.read decodeSpaces)
    ⟨.char, (List.range s.length).map memory, 0⟩
  if r.out.length < r.outIndex - 1 then .error (.error "oob") else .ok (r.out.take (r.outIndex - 1))

/-- The bytes that are written for the characters of a string, and the state behind them. -/
def scanned (decodeSpaces : Bool) : Scan → JSString → Bytes × Scan
  | st, [] => ([], st)
  | .char, c :: s =>
    if c = 0x25 then scanned decodeSpaces .hex0 s
    else (scanned decodeSpaces .char s).map
      (stored (if c = 0x2B ∧ decodeSpaces = true then some 0x20 else some c) :: ·) id
  | .hex0, c :: s =>
    match hexDigit c with
    | some n => scanned decodeSpaces (.hex1 n (some c)) s
    | none => (scanned decodeSpaces .char s).map ([0x25, stored (some c)] ++ ·) id
  | .hex1 n hexchar, c :: s =>
    match hexDigit c with
    | some m => (scanned decodeSpaces .char s).map (.ofNat (16 * n + m) :: ·) id
    | none => (scanned decodeSpaces .char s).map ([0x25, stored hexchar, stored (some c)] ++ ·) id

/-- An escape that is not complete. -/
def Scan.pending : Scan → Bytes
  | char => []
  | hex0 => [0x25]
  | hex1 _ hexchar => [0x25, stored hexchar]

/-! ## The decoder -/

/-- The byte of an escape. -/
def escaped : JSString → Option UInt8
  | 0x25 :: a :: b :: _ =>
    match hexDigit a, hexDigit b with
    | some n, some m => some (.ofNat (16 * n + m))
    | _, _ => none
  | _ => none

/-- What a character stands for that does not begin an escape. -/
def plain (decodeSpaces : Bool) (c : UInt16) : UInt8 :=
  stored (some (if c = 0x2B ∧ decodeSpaces = true then 0x20 else c))

/-- The decoder: each escape is a byte, and all other characters are themselves. -/
def percentDecode (decodeSpaces : Bool) : JSString → Bytes
  | [] => []
  | [c] => [plain decodeSpaces c]
  | [c, d] => [plain decodeSpaces c, plain decodeSpaces d]
  | c :: a :: b :: s =>
    match escaped (c :: a :: b :: s) with
    | some byte => byte :: percentDecode decodeSpaces s
    | none => plain decodeSpaces c :: percentDecode decodeSpaces (a :: b :: s)

/-- What stands here is not to be taken for itself. -/
def Decodes (decodeSpaces : Bool) (s : JSString) : Bool :=
  (escaped s).isSome || (decodeSpaces && s.head? = some 0x2B)

/-- Reading from the left, what ends an escape that fails stands for itself. -/
def Clear (decodeSpaces : Bool) : JSString → Bool
  | [] => true
  | u :: s =>
    if u ≠ 0x25 then Clear decodeSpaces s
    else match s with
      | [] => true
      | c :: s =>
        match hexDigit c with
        | none => !Decodes decodeSpaces (c :: s) && Clear decodeSpaces s
        | some _ =>
          match s with
          | [] => true
          | d :: s =>
            if (hexDigit d).isSome then Clear decodeSpaces s
            else !Decodes decodeSpaces (d :: s) && Clear decodeSpaces s

variable {decodeSpaces : Bool} {s : JSString} {c d : UInt16} {n m : ℕ} {r : Unescaping} {w : Bytes}

/-! ## What the buffer holds -/

/-- The buffer holds what has been written, as far as it goes. -/
structure Unescaping.Holds (r : Unescaping) (size : ℕ) (w : Bytes) : Prop where
  length_out : r.out.length = size
  outIndex : r.outIndex = w.length
  take_out : r.out.take w.length = w.take size

theorem Unescaping.Holds.write {size : ℕ} (h : r.Holds size w) (b : UInt8) :
    (r.write b).Holds size (w ++ [b]) := by
  refine ⟨?_, ?_, ?_⟩
  · rw [Unescaping.write, List.length_set, h.length_out]
  · rw [Unescaping.write, h.outIndex, List.length_append, List.length_singleton]
  · rw [Unescaping.write, h.outIndex, List.length_append, List.length_singleton]
    rcases Nat.lt_or_ge w.length size with hlt | hge
    · have hlength : w.length < r.out.length := by rwa [h.length_out]
      rw [List.take_of_length_le (l := w ++ [b]) (by simp; omega), List.take_add_one,
        List.take_set_of_le (Nat.le_refl _), h.take_out, List.take_of_length_le (Nat.le_of_lt hlt),
        List.getElem?_set_self hlength]
      rfl
    · have hfull := h.take_out
      rw [List.take_of_length_le (by rw [h.length_out]; exact hge)] at hfull
      rw [List.set_eq_of_length_le (by rw [h.length_out]; exact hge),
        List.take_of_length_le (by rw [h.length_out]; omega), List.take_append_of_le_length hge,
        hfull]

/-- **The loop writes** what `scan` says. -/
theorem Unescaping.Holds.foldl {size : ℕ} (h : r.Holds size w) (decodeSpaces : Bool)
    (cs : List (Option UInt16)) :
    (cs.foldl (Unescaping.read decodeSpaces) r).Holds size (w ++ scan decodeSpaces r.state cs) := by
  induction cs generalizing r w with
  | nil =>
    rw [scan, List.append_nil]
    exact h
  | cons c cs ih =>
    have hstate : ∀ (r : Unescaping) (st : Scan) (w : Bytes), r.Holds size w →
        Unescaping.Holds { r with state := st } size w := fun r st w h ↦
      ⟨h.length_out, h.outIndex, h.take_out⟩
    rw [List.foldl_cons, Unescaping.read]
    rcases hst : r.state with _ | _ | ⟨n, hexchar⟩
    · by_cases hc : c = some 0x25
      · simp only [if_pos hc, scan]
        exact ih (hstate r .hex0 w h)
      · simp only [if_neg hc, scan]
        have hnext := ih (h.write
          (stored (if c = some 0x2B ∧ decodeSpaces = true then some 0x20 else c)))
        rw [List.append_assoc, show (r.write _).state = .char from hst] at hnext
        exact hnext
    · rcases hc : c.bind hexDigit with _ | n
      · simp only [scan, hc]
        have hnext := ih (hstate _ .char _ ((h.write 0x25).write (stored c)))
        rw [List.append_assoc, List.append_assoc] at hnext
        exact hnext
      · simp only [scan, hc]
        exact ih (hstate r (.hex1 n c) w h)
    · rcases hc : c.bind hexDigit with _ | m
      · simp only [scan, hc]
        have hnext := ih (hstate _ .char _
          (((h.write 0x25).write (stored hexchar)).write (stored c)))
        rw [List.append_assoc, List.append_assoc, List.append_assoc] at hnext
        exact hnext
      · simp only [scan, hc]
        have hnext := ih (hstate _ .char _ (h.write (.ofNat (16 * n + m))))
        rw [List.append_assoc] at hnext
        exact hnext

/-- The end of the string writes what is pending, and a byte of padding. -/
theorem scan_concat (st : Scan) (s : JSString) :
    scan decodeSpaces st (s.map some ++ [none]) =
      (scanned decodeSpaces st s).1 ++ (scanned decodeSpaces st s).2.pending ++ [0] := by
  fun_induction scanned decodeSpaces st s with
  | case1 st => cases st <;> rfl
  | case2 s ih =>
    rw [← ih]
    rfl
  | case3 c s hc ih =>
    rw [List.map_cons, List.cons_append, scan, if_neg (by simpa using hc), ih]
    simp
  | case4 c s n hn ih =>
    rw [List.map_cons, List.cons_append, scan, Option.bind_some, hn]
    exact ih
  | case5 c s hn ih =>
    rw [List.map_cons, List.cons_append, scan, Option.bind_some, hn]
    simp [ih]
  | case6 n hexchar c s m hm ih =>
    rw [List.map_cons, List.cons_append, scan, Option.bind_some, hm]
    simp [ih]
  | case7 n hexchar c s hm ih =>
    rw [List.map_cons, List.cons_append, scan, Option.bind_some, hm]
    simp [ih]

theorem unescapeBuffer_eq (s : JSString) (decodeSpaces : Bool) :
    unescapeBuffer s decodeSpaces =
      (scanned decodeSpaces .char s).1 ++ (scanned decodeSpaces .char s).2.pending := by
  rw [unescapeBuffer, scan_concat]
  exact List.dropLast_concat

/-- Nothing is written that was not read. -/
theorem length_scanned_le (decodeSpaces : Bool) (st : Scan) (s : JSString) :
    (scanned decodeSpaces st s).1.length + (scanned decodeSpaces st s).2.pending.length ≤
      st.pending.length + s.length := by
  fun_induction scanned decodeSpaces st s <;> simp [Scan.pending] at * <;> omega

theorem length_unescapeBuffer_le (s : JSString) (decodeSpaces : Bool) :
    (unescapeBuffer s decodeSpaces).length ≤ s.length := by
  have hle := length_scanned_le decodeSpaces .char s
  rw [unescapeBuffer_eq, List.length_append]
  simpa [Scan.pending] using hle

/-- **The byte that is cut off** is the byte of padding. -/
theorem unescapeInto_eq (memory : ℕ → UInt8) (s : JSString) (decodeSpaces : Bool) :
    unescapeInto memory s decodeSpaces = .ok (unescapeBuffer s decodeSpaces) := by
  have hstart : (⟨.char, (List.range s.length).map memory, 0⟩ : Unescaping).Holds s.length [] :=
    ⟨by simp, rfl, by simp⟩
  have hholds := hstart.foldl decodeSpaces (s.map some ++ [none])
  rw [List.nil_append, scan_concat, ← unescapeBuffer_eq] at hholds
  have hle := length_unescapeBuffer_le s decodeSpaces
  rw [unescapeInto]
  set r := (s.map some ++ [none]).foldl (Unescaping.read decodeSpaces)
    ⟨.char, (List.range s.length).map memory, 0⟩
  have hindex : r.outIndex - 1 = (unescapeBuffer s decodeSpaces).length := by
    rw [hholds.outIndex, List.length_append, List.length_singleton, Nat.add_sub_cancel]
  have htake : r.out.take (unescapeBuffer s decodeSpaces).length =
      unescapeBuffer s decodeSpaces := by
    have htaken := congrArg (List.take (unescapeBuffer s decodeSpaces).length) hholds.take_out
    rw [List.take_take, List.take_take, List.length_append, List.length_singleton,
      Nat.min_eq_left (Nat.le_succ _), Nat.min_eq_left hle, List.take_left] at htaken
    exact htaken
  rw [hindex, if_neg (by rw [hholds.length_out]; omega), htake]

/-- **`unescapeBuffer` undoes `encodeURIComponent`**, and whatever the string, it returns all bytes
that are written for its characters and the escape that is not complete, and nothing else. -/
theorem unescapeInto_escape (memory : ℕ → UInt8) (decodeSpaces : Bool) :
    (∀ s, WellFormed s = true → ∃ t, escape s = .ok t ∧
      unescapeInto memory t decodeSpaces = .ok (utf8Bytes s)) ∧
    ∀ t, ∃ b, unescapeInto memory t decodeSpaces = .ok b ∧
      b = (scanned decodeSpaces .char t).1 ++ (scanned decodeSpaces .char t).2.pending ∧
      b.length ≤ t.length := by
  constructor
  · intro s hs
    refine ⟨_, encodeURIComponent_eq hs, ?_⟩
    rw [unescapeInto_eq, unescapeBuffer_escapeText]
  · intro t
    exact ⟨_, unescapeInto_eq memory t decodeSpaces, unescapeBuffer_eq t decodeSpaces,
      length_unescapeBuffer_le t decodeSpaces⟩

example : scanned false .char (js "a%4") = ([0x61], .hex1 4 (some 0x34)) := by decide

/-! ## One step of each -/

section

variable (decodeSpaces : Bool)

theorem unescapeBuffer_plain (hc : c ≠ 0x25) (s : JSString) :
    unescapeBuffer (c :: s) decodeSpaces =
      plain decodeSpaces c :: unescapeBuffer s decodeSpaces := by
  rw [unescapeBuffer_eq, unescapeBuffer_eq, scanned, if_neg hc, plain]
  split_ifs <;> rfl

theorem unescapeBuffer_hex0 (hc : hexDigit c = none) (s : JSString) :
    unescapeBuffer (0x25 :: c :: s) decodeSpaces =
      0x25 :: c.toUInt8 :: unescapeBuffer s decodeSpaces := by
  rw [unescapeBuffer_eq, unescapeBuffer_eq, scanned, if_pos rfl, scanned, hc]
  rfl

theorem unescapeBuffer_hex1 (hc : hexDigit c = some n) (hd : hexDigit d = none) (s : JSString) :
    unescapeBuffer (0x25 :: c :: d :: s) decodeSpaces =
      0x25 :: c.toUInt8 :: d.toUInt8 :: unescapeBuffer s decodeSpaces := by
  rw [unescapeBuffer_eq, unescapeBuffer_eq, scanned, if_pos rfl, scanned, hc]
  simp only [scanned, hd]
  rfl

theorem unescapeBuffer_escaped (hc : hexDigit c = some n) (hd : hexDigit d = some m)
    (s : JSString) :
    unescapeBuffer (0x25 :: c :: d :: s) decodeSpaces =
      .ofNat (16 * n + m) :: unescapeBuffer s decodeSpaces := by
  rw [unescapeBuffer_eq, unescapeBuffer_eq, scanned, if_pos rfl, scanned, hc]
  simp only [scanned, hd]
  rfl

theorem percentDecode_plain (h : escaped (c :: s) = none) :
    percentDecode decodeSpaces (c :: s) = plain decodeSpaces c :: percentDecode decodeSpaces s := by
  rcases s with _ | ⟨a, _ | ⟨b, s⟩⟩
  · rfl
  · rfl
  · rw [percentDecode, h]

theorem percentDecode_escaped (hc : hexDigit c = some n) (hd : hexDigit d = some m)
    (s : JSString) :
    percentDecode decodeSpaces (0x25 :: c :: d :: s) =
      .ofNat (16 * n + m) :: percentDecode decodeSpaces s := by
  rw [percentDecode, escaped, hc, hd]

end

theorem hexDigit_ne (hc : hexDigit c = some n) : c ≠ 0x25 ∧ c ≠ 0x2B := by
  constructor
  · rintro rfl
    cases hc
  · rintro rfl
    cases hc

theorem plain_of_hexDigit (hc : hexDigit c = some n) : plain decodeSpaces c = c.toUInt8 := by
  rw [plain, if_neg fun h ↦ (hexDigit_ne hc).2 h.1]
  rfl

theorem escaped_of_ne (hc : c ≠ 0x25) (s : JSString) : escaped (c :: s) = none := by
  unfold escaped
  split
  · rename_i heq
    exact absurd (List.cons.inj heq).1 hc
  · rfl

/-- An escape, digit by digit. -/
theorem escaped_eq_some {b : UInt8} (h : escaped s = some b) :
    ∃ c d t n m, s = 0x25 :: c :: d :: t ∧ hexDigit c = some n ∧ hexDigit d = some m := by
  unfold escaped at h
  split at h
  · rename_i c d t
    rcases hc : hexDigit c with _ | n
    · simp [hc] at h
    · rcases hd : hexDigit d with _ | m
      · simp [hc, hd] at h
      · exact ⟨c, d, t, n, m, rfl, hc, hd⟩
  · cases h

/-! ## Where they differ -/

theorem escaped_of_hex0 (hc : hexDigit c = none) (s : JSString) :
    escaped (0x25 :: c :: s) = none := by
  rcases h : escaped (0x25 :: c :: s) with _ | b
  · rfl
  · obtain ⟨c', d, t, n, m, heq, hc', -⟩ := escaped_eq_some h
    obtain ⟨rfl, -⟩ := List.cons.inj (List.cons.inj heq).2
    cases hc.symm.trans hc'

theorem escaped_of_hex1 (hd : hexDigit d = none) (s : JSString) :
    escaped (0x25 :: c :: d :: s) = none := by
  rcases h : escaped (0x25 :: c :: d :: s) with _ | b
  · rfl
  · obtain ⟨c', d', t, n, m, heq, -, hd'⟩ := escaped_eq_some h
    obtain ⟨rfl, -⟩ := List.cons.inj (List.cons.inj (List.cons.inj heq).2).2
    cases hd.symm.trans hd'

theorem decodes_of_escaped (h : escaped (c :: s) = none) (decodeSpaces : Bool) :
    Decodes decodeSpaces (c :: s) = true ↔ c = 0x2B ∧ decodeSpaces = true := by
  simp [Decodes, h, and_comm]

/-- A character that ends an escape is at most two longer than what the decoder makes of it. -/
theorem length_percentDecode_cons_le (hlength : ∀ t : JSString, t.length ≤ s.length →
      (percentDecode decodeSpaces t).length ≤ (unescapeBuffer t decodeSpaces).length) :
    (percentDecode decodeSpaces (c :: s)).length ≤ (unescapeBuffer s decodeSpaces).length + 1 := by
  rcases h : escaped (c :: s) with _ | b
  · rw [percentDecode_plain decodeSpaces h, List.length_cons]
    exact Nat.succ_le_succ (hlength s (Nat.le_refl _))
  · obtain ⟨a, b, t, n, m, heq, ha, hb⟩ := escaped_eq_some h
    obtain ⟨rfl, rfl⟩ := List.cons.inj heq
    have hle := hlength t (by simp only [List.length_cons]; omega)
    rw [percentDecode_escaped decodeSpaces ha hb, unescapeBuffer_plain _ (hexDigit_ne ha).1,
      unescapeBuffer_plain _ (hexDigit_ne hb).1]
    simp only [List.length_cons]
    omega

theorem length_percentDecode_le (s : JSString) (decodeSpaces : Bool) :
    (percentDecode decodeSpaces s).length ≤ (unescapeBuffer s decodeSpaces).length := by
  induction hn : s.length using Nat.strong_induction_on generalizing s with
  | _ k ih =>
    have hlength : ∀ t : JSString, t.length < s.length →
        (percentDecode decodeSpaces t).length ≤ (unescapeBuffer t decodeSpaces).length :=
      fun t ht ↦ ih t.length (hn ▸ ht) t rfl
    rcases s with _ | ⟨u, s⟩
    · exact Nat.le_refl _
    by_cases hu : u = 0x25
    · subst hu
      rcases s with _ | ⟨c, s⟩
      · exact Nat.le_refl _
      rcases hc : hexDigit c with _ | n
      · have hle := length_percentDecode_cons_le (c := c) (s := s) fun t ht ↦
          hlength t (by simp only [List.length_cons]; omega)
        rw [percentDecode_plain _ (escaped_of_hex0 hc s), unescapeBuffer_hex0 _ hc]
        simp only [List.length_cons]
        omega
      rcases s with _ | ⟨d, s⟩
      · rw [percentDecode, unescapeBuffer_eq]
        simp [scanned, hc, Scan.pending]
      rcases hd : hexDigit d with _ | m
      · have hle := length_percentDecode_cons_le (c := d) (s := s) fun t ht ↦
          hlength t (by simp only [List.length_cons]; omega)
        rw [percentDecode_plain _ (escaped_of_hex1 hd s),
          percentDecode_plain _ (escaped_of_ne (hexDigit_ne hc).1 _), unescapeBuffer_hex1 _ hc hd]
        simp only [List.length_cons]
        omega
      · rw [percentDecode_escaped _ hc hd, unescapeBuffer_escaped _ hc hd]
        exact Nat.succ_le_succ (hlength s (by simp only [List.length_cons]; omega))
    · rw [percentDecode_plain _ (escaped_of_ne hu s), unescapeBuffer_plain _ hu]
      exact Nat.succ_le_succ (hlength s (by simp))

/-- What ends an escape is taken for itself, also where the decoder does not. -/
theorem cons_eq_percentDecode_iff (s : JSString) :
    c.toUInt8 :: unescapeBuffer s decodeSpaces = percentDecode decodeSpaces (c :: s) ↔
      Decodes decodeSpaces (c :: s) = false ∧
        unescapeBuffer s decodeSpaces = percentDecode decodeSpaces s := by
  rcases h : escaped (c :: s) with _ | b
  · have hdecodes := decodes_of_escaped h decodeSpaces
    rw [percentDecode_plain _ h, List.cons.injEq, ← Bool.not_eq_true, hdecodes, plain]
    refine and_congr_left fun _ ↦ ?_
    by_cases hplus : c = 0x2B ∧ decodeSpaces = true
    · rw [if_pos hplus, hplus.1]
      exact iff_of_false (by decide) fun hnot ↦ hnot ⟨rfl, hplus.2⟩
    · rw [if_neg hplus]
      exact iff_of_true rfl hplus
  · obtain ⟨a, b', t, n, m, heq, ha, hb⟩ := escaped_eq_some h
    obtain ⟨rfl, rfl⟩ := List.cons.inj heq
    refine iff_of_false (fun heq ↦ ?_) fun hdecodes ↦ ?_
    · have hlength := congrArg List.length heq
      have hle := length_percentDecode_le t decodeSpaces
      rw [percentDecode_escaped _ ha hb, unescapeBuffer_plain _ (hexDigit_ne ha).1,
        unescapeBuffer_plain _ (hexDigit_ne hb).1] at hlength
      simp only [List.length_cons] at hlength
      omega
    · simp [Decodes, h] at hdecodes

/-- **`unescapeBuffer` is the decoder** exactly for the strings where no character is skipped. -/
theorem unescapeBuffer_eq_iff (s : JSString) :
    unescapeBuffer s decodeSpaces = percentDecode decodeSpaces s ↔ Clear decodeSpaces s = true := by
  fun_induction Clear decodeSpaces s with
  | case1 => exact iff_of_true rfl rfl
  | case2 u s hu ih =>
    rw [unescapeBuffer_plain _ hu, percentDecode_plain _ (escaped_of_ne hu s), List.cons.injEq,
      ← ih]
    exact and_iff_right rfl
  | case3 u hu =>
    obtain rfl : u = 0x25 := not_not.mp hu
    exact iff_of_true rfl rfl
  | case4 u hu c s hc ih =>
    obtain rfl : u = 0x25 := not_not.mp hu
    rw [unescapeBuffer_hex0 _ hc, percentDecode_plain _ (escaped_of_hex0 hc s), List.cons.injEq,
      cons_eq_percentDecode_iff, ih]
    simp [plain, stored]
  | case5 u hu c n hc =>
    obtain rfl : u = 0x25 := not_not.mp hu
    refine iff_of_true ?_ rfl
    rw [percentDecode, plain_of_hexDigit hc, unescapeBuffer_eq]
    simp [scanned, hc, Scan.pending, plain, stored]
  | case6 u hu c n hc d s hd ih =>
    obtain rfl : u = 0x25 := not_not.mp hu
    obtain ⟨m, hm⟩ := Option.isSome_iff_exists.mp hd
    rw [unescapeBuffer_escaped _ hc hm, percentDecode_escaped _ hc hm, List.cons.injEq, ih]
    exact and_iff_right rfl
  | case7 u hu c n hc d s hd ih =>
    obtain rfl : u = 0x25 := not_not.mp hu
    have hnone : hexDigit d = none := by simpa using hd
    rw [unescapeBuffer_hex1 _ hc hnone, percentDecode_plain _ (escaped_of_hex1 hnone s),
      percentDecode_plain _ (escaped_of_ne (hexDigit_ne hc).1 _), plain_of_hexDigit hc,
      List.cons.injEq, List.cons.injEq, cons_eq_percentDecode_iff, ih]
    simp [plain, stored]

/-- The same, in a new buffer. -/
theorem unescapeInto_eq_iff (memory : ℕ → UInt8) (s : JSString) (decodeSpaces : Bool) :
    unescapeInto memory s decodeSpaces = .ok (percentDecode decodeSpaces s) ↔
      Clear decodeSpaces s = true := by
  rw [unescapeInto_eq, Except.ok.injEq, unescapeBuffer_eq_iff]

/-- The second `%` begins an escape. -/
theorem skipped_escape :
    ¬∀ (memory : ℕ → UInt8) (s : JSString) (decodeSpaces : Bool), (∀ u ∈ s, u.toNat < 0x80) →
      unescapeInto memory s decodeSpaces = .ok (percentDecode decodeSpaces s) := by
  intro h
  have hescape := h (fun _ ↦ 0) (js "%%41") false (by decide)
  rw [unescapeInto_eq] at hescape
  revert hescape
  decide

end SpiderNode.Query
