import SpiderNode.Buffer.Encoders
import SpiderNode.Buffer.Strings

/-!
# `String::WriteAscii`

The writer of `deps/mozjs/js/src/v8api/string.cpp`. It encodes the whole string as UTF-8 in a copy
and reads that from index `start` on, as many bytes as the copy has. So

* `start` counts bytes, where it is to count characters;
* with `start` above zero, the end of the copy is passed, unless the buffer is full before;
* of a character with three bytes the last two are taken for a character with two;
* of a character with four bytes the last is joined with the first byte that follows.

`Undisturbed` is what keeps all of that from happening.
-/

namespace SpiderNode.Buffer

open Net (JsError)

/-- How many bytes the loop of `WriteAscii` reads, with `n` bytes to store to. The second byte of a
sequence is read wherever the first is. -/
def asciiRead : ℕ → Bytes → ℕ
  | _, [] => 0
  | 0, _ => 0
  | n + 1, [first] =>
    if 0x7F < first.toNat then (if first.toNat < 0xE0 then 2 else 1) else asciiRead n [] + 1
  | n + 1, first :: second :: rest =>
    if 0x7F < first.toNat then
      if first.toNat < 0xE0 then
        if twoByteChar first second < 0x100 then asciiRead n rest + 2
        else asciiRead (n + 1) rest + 2
      else asciiRead (n + 1) (second :: rest) + 1
    else asciiRead n (second :: rest) + 1

/-- What `WriteAscii` leaves behind. -/
structure AsciiWritten where
  /-- The bytes stored in the buffer. -/
  stored : Bytes
  returned : ℕ
  /-- How many bytes are read, from index `start` of the copy on. -/
  read : ℕ
  deriving DecidableEq, Repr

/-- `String::WriteAscii`, with the memory behind the copy. The length of a string that has no UTF-8
form is taken for the size of an allocation. -/
def stringWriteAscii (behind : ℕ → UInt8) (s : JSString) (start : ℕ) (length : ℤ) :
    Except JsError AsciiWritten :=
  if WellFormed s then
    let tmp := utf8Bytes s
    let effectiveLength := if length = -1 then tmp.length + 1 else length.toNat
    -- from `start` to `start + encodedLength`
    let range := (tmp ++ (List.range start).map behind).drop start
    let out := writeAscii ⟨behind, behind start, 0, 0⟩ effectiveLength range
    .ok ⟨out ++ if out.length < effectiveLength then [0] else [], out.length,
      asciiRead effectiveLength range⟩
  else .error .fault

/-! ## What is to be written -/

/-- The byte of a character that is at most `U+00FF`. -/
def latinByte (u : UInt16) : Option UInt8 := if u.toNat < 0x100 then some u.toUInt8 else none

/-- The bytes of the characters from index `start` on, at most `length` of them. -/
def representable (s : JSString) (start length : ℕ) : Bytes :=
  ((s.drop start).filterMap latinByte).take length

/-- `WriteAscii` stores the bytes of the characters, a `NUL` only where there is room, returns how
many bytes there are, and reads nothing but its copy. -/
def WritesAscii (behind : ℕ → UInt8) (s : JSString) (start length : ℕ) : Prop :=
  ∃ w, stringWriteAscii behind s start length = .ok w ∧
    (w.stored = representable s start length ∨
      w.stored = representable s start length ++ [0] ∧
        (representable s start length).length < length) ∧
    w.returned = (representable s start length).length ∧
    (w.read = 0 ∨ start + w.read ≤ (utf8Bytes s).length)

/-- A character of the basic plane that is not misread: of one with three bytes, the last two are
no character with a byte. -/
def Harmless (u : UInt16) : Prop :=
  (isHigh u || isLow u) = false ∧ ¬(0x800 ≤ u.toNat ∧ u.toNat % 0x1000 < 0x100)

instance (u : UInt16) : Decidable (Harmless u) := inferInstanceAs (Decidable (_ ∧ _))

/-- There is only ASCII in front of `start`; the characters that are looked at before the buffer is
full are harmless; and the buffer gets full, or all is read from the beginning. -/
structure Undisturbed (s : JSString) (start length : ℕ) : Prop where
  ascii : IsAscii (s.take start)
  harmless : ∀ p u r, s.drop start = p ++ u :: r → (p.filterMap latinByte).length < length →
    Harmless u
  full : start = 0 ∨ length ≤ ((s.drop start).filterMap latinByte).length

/-! ## The loop -/

variable {n : ℕ} {u : UInt16} {s : JSString} {b rest : Bytes}

theorem asciiRead_cons_ascii (n : ℕ) {first : UInt8} (h : first.toNat ≤ 0x7F) (rest : Bytes) :
    asciiRead (n + 1) (first :: rest) = asciiRead n rest + 1 := by
  cases rest <;> simp [asciiRead, Nat.not_lt.mpr h]

theorem asciiRead_cons_long (n : ℕ) {first : UInt8} (h : 0xE0 ≤ first.toNat) (rest : Bytes) :
    asciiRead (n + 1) (first :: rest) = asciiRead (n + 1) rest + 1 := by
  have h₁ : 0x7F < first.toNat := by omega
  have h₂ : ¬first.toNat < 0xE0 := by omega
  cases rest with
  | nil => simp [asciiRead, h₁, h₂]
  | cons second rest => simp [asciiRead, h₁, h₂]

theorem asciiRead_cons_two (n : ℕ) {first : UInt8} (h₁ : 0x7F < first.toNat)
    (h₂ : first.toNat < 0xE0) (second : UInt8) (rest : Bytes) :
    asciiRead (n + 1) (first :: second :: rest) =
      if twoByteChar first second < 0x100 then asciiRead n rest + 2
      else asciiRead (n + 1) rest + 2 := by
  simp [asciiRead, h₁, h₂]

/-- A character of the basic plane is read whole. -/
theorem asciiRead_codePointBytes (n : ℕ) (u : UInt16) (rest : Bytes) :
    asciiRead (n + 1) (codePointBytes u.toNat ++ rest) =
      asciiRead (if (asciiByte u).isSome then n else n + 1) rest +
        (codePointBytes u.toNat).length := by
  have hu : u.toNat < 0x10000 := u.toNat_lt
  by_cases h₁ : u.toNat < 0x80
  · have hb : asciiByte u = some u.toUInt8 := if_pos (.inl (by omega))
    rw [codePointBytes, if_pos h₁, hb]
    refine asciiRead_cons_ascii n ?_ rest
    rw [UInt8.toNat_ofNat']
    omega
  · by_cases h₂ : u.toNat < 0x800
    · have hfirst := toNat_firstByte (k := 0xC0) (x := u.toNat / 0x40) (by omega)
      rw [codePointBytes, if_neg h₁, if_pos h₂, List.cons_append, List.cons_append, List.nil_append,
        asciiRead_cons_two n (by omega) (by omega), twoByteChar_of_two h₂]
      by_cases h256 : u.toNat < 0x100
      · have hb : asciiByte u = some u.toUInt8 := if_pos (.inl h256)
        rw [if_pos h256, hb]
        rfl
      · have hb : asciiByte u = none := if_neg (by omega)
        rw [if_neg h256, hb]
        rfl
    · have hfirst := toNat_firstByte (k := 0xE0) (x := u.toNat / 0x1000) (by omega)
      have hsecond := toNat_firstByte (k := 0x80) (x := u.toNat / 0x40 % 0x40) (by omega)
      rw [codePointBytes, if_neg h₁, if_neg h₂, if_pos hu]
      simp only [List.cons_append, List.nil_append]
      rw [asciiRead_cons_long n (by omega), asciiRead_cons_two n (by omega) (by omega),
        twoByteChar_of_three]
      by_cases h256 : u.toNat % 0x1000 < 0x100
      · have hb : asciiByte u = some u.toUInt8 := if_pos (.inr ⟨by omega, h256⟩)
        rw [if_pos h256, hb]
        rfl
      · have hb : asciiByte u = none := if_neg (by omega)
        rw [if_neg h256, hb]
        rfl

/-- A buffer that does not get full takes the loop to the end of what there is to read. -/
theorem length_le_asciiRead (m : Heap) (h : (writeAscii m n b).length < n) :
    b.length ≤ asciiRead n b := by
  fun_induction writeAscii m n b with
  | case1 => simp
  | case2 => cases h
  | case3 n first hlong htwo => simp [asciiRead, hlong, htwo.1]
  | case4 n first hlong htwo =>
    simp only [asciiRead, hlong, if_true, List.length_singleton]
    split_ifs <;> simp
  | case5 n first hlong ih => simp [asciiRead, hlong]
  | case6 n first second rest hlong htwo hbyte ih =>
    have hrest := ih (by simpa using h)
    simpa [asciiRead, hlong, htwo, hbyte] using hrest
  | case7 n first second rest hlong htwo hbyte ih =>
    have hrest := ih h
    simpa [asciiRead, hlong, htwo, hbyte] using hrest
  | case8 n first second rest hlong htwo ih =>
    have hrest := ih h
    simpa [asciiRead, hlong, htwo] using hrest
  | case9 n first second rest hlong ih =>
    have hrest := ih (by simpa using h)
    simpa [asciiRead, hlong] using hrest

theorem asciiByte_of_harmless (h : Harmless u) : asciiByte u = latinByte u := by
  have hno := h.2
  rw [asciiByte, latinByte]
  congr 1
  exact propext ⟨fun hu ↦ hu.resolve_right hno, .inl⟩

/-- Harmless characters are written as they should be, up to where the buffer is full, and nothing
is read behind them. -/
theorem loop_of_harmless (m : Heap) {t : JSString}
    (hh : ∀ p u r, t = p ++ u :: r → (p.filterMap latinByte).length < n → Harmless u)
    (hfull : rest = [] ∨ n ≤ (t.filterMap latinByte).length) :
    writeAscii m n (utf8Bytes t ++ rest) = (t.filterMap latinByte).take n ∧
      asciiRead n (utf8Bytes t ++ rest) ≤ (utf8Bytes t).length := by
  induction t generalizing n with
  | nil =>
    rcases hfull with rfl | hn
    · simp [writeAscii, asciiRead]
    · obtain rfl : n = 0 := by simpa using hn
      cases rest <;> simp [writeAscii, asciiRead]
  | cons u t ih =>
    cases n with
    | zero => cases hb : utf8Bytes (u :: t) ++ rest <;> simp [writeAscii, asciiRead]
    | succ n =>
      have hu : Harmless u := hh [] u t rfl (by simp)
      rw [utf8Bytes_cons_of_not_surrogate hu.1, List.append_assoc, writeAscii_codePointBytes,
        asciiRead_codePointBytes, asciiByte_of_harmless hu, List.length_append]
      cases hbyte : latinByte u with
      | some x =>
        have hih := ih (n := n)
          (fun p v r ht hp ↦ hh (u :: p) v r (by rw [ht]; rfl) (by simpa [hbyte] using hp))
          (hfull.imp_right fun hn ↦ by simpa [hbyte] using hn)
        simp only [List.filterMap_cons, hbyte, List.take_succ_cons, Option.isSome_some, if_true]
        exact ⟨by rw [hih.1], by omega⟩
      | none =>
        have hih := ih (n := n + 1)
          (fun p v r ht hp ↦ hh (u :: p) v r (by rw [ht]; rfl) (by simpa [hbyte] using hp))
          (hfull.imp_right fun hn ↦ by simpa [hbyte] using hn)
        simp only [List.filterMap_cons, hbyte, Option.isSome_none, Bool.false_eq_true, if_false]
        exact ⟨hih.1, by omega⟩

/-! ## The range that is read -/

variable {start length : ℕ} {behind : ℕ → UInt8}

/-- Behind ASCII text, the index of a byte is the index of a character. -/
theorem drop_utf8Bytes_of_isAscii (h : IsAscii (s.take start)) (hs : start ≤ s.length)
    (rest : Bytes) :
    (utf8Bytes s ++ rest).drop start = utf8Bytes (s.drop start) ++ rest ∧
      (utf8Bytes s).length = start + (utf8Bytes (s.drop start)).length := by
  have hw : WellFormed (s.take start) = true :=
    wellFormed_of_not_surrogate fun u hu ↦ not_surrogate_of_lt (Nat.lt_trans (h u hu) (by decide))
  have hbytes : utf8Bytes s = latin1Bytes (s.take start) ++ utf8Bytes (s.drop start) := by
    rw [← utf8Bytes_of_isAscii h, ← utf8Bytes_append (splits_of_wellFormed hw _),
      List.take_append_drop]
  have hlen : (latin1Bytes (s.take start)).length = start := by
    rw [latin1Bytes, List.length_map, List.length_take, Nat.min_eq_left hs]
  constructor
  · rw [hbytes, List.append_assoc, List.drop_append, hlen, Nat.sub_self, List.drop_zero,
      List.drop_eq_nil_of_le (Nat.le_of_eq hlen), List.nil_append]
  · rw [hbytes, List.length_append, hlen]

theorem stringWriteAscii_eq (behind : ℕ → UInt8) (hw : WellFormed s = true) (start length : ℕ) :
    stringWriteAscii behind s start length =
      let range := (utf8Bytes s ++ (List.range start).map behind).drop start
      let out := writeAscii ⟨behind, behind start, 0, 0⟩ length range
      .ok ⟨out ++ if out.length < length then [0] else [], out.length, asciiRead length range⟩ := by
  have hlength : ((length : ℤ) = -1) = False := eq_false (by omega)
  simp only [stringWriteAscii, hw, if_true, hlength, if_false, Int.toNat_natCast]

theorem writesAscii_of_undisturbed (behind : ℕ → UInt8) (hs : start ≤ s.length)
    (hw : WellFormed s = true) (h : length = 0 ∨ Undisturbed s start length) :
    WritesAscii behind s start length := by
  have hloop : writeAscii ⟨behind, behind start, 0, 0⟩ length
        ((utf8Bytes s ++ (List.range start).map behind).drop start) =
          representable s start length ∧
      (asciiRead length ((utf8Bytes s ++ (List.range start).map behind).drop start) = 0 ∨
        start + asciiRead length ((utf8Bytes s ++ (List.range start).map behind).drop start) ≤
          (utf8Bytes s).length) := by
    rcases h with rfl | h
    · cases (utf8Bytes s ++ (List.range start).map behind).drop start <;>
        simp [writeAscii, asciiRead, representable]
    · obtain ⟨hdrop, hlen⟩ :=
        drop_utf8Bytes_of_isAscii h.ascii hs ((List.range start).map behind)
      have hrest : (List.range start).map behind = [] ∨
          length ≤ ((s.drop start).filterMap latinByte).length :=
        h.full.imp_left fun h₀ ↦ by rw [h₀]; rfl
      obtain ⟨hout, hread⟩ :=
        loop_of_harmless ⟨behind, behind start, 0, 0⟩ h.harmless hrest
      rw [hdrop, hlen]
      exact ⟨hout, .inr (by omega)⟩
  refine ⟨_, stringWriteAscii_eq behind hw start length, ?_⟩
  dsimp only
  rw [hloop.1]
  refine ⟨?_, rfl, hloop.2⟩
  split_ifs with hroom
  · exact .inr ⟨rfl, hroom⟩
  · exact .inl (List.append_nil _)

/-- A buffer that does not get full is written to from the beginning of the string only. -/
theorem full_of_writesAscii (hs : start ≤ s.length) (h : WritesAscii behind s start length) :
    WellFormed s = true ∧
      (start = 0 ∨ length ≤ ((s.drop start).filterMap latinByte).length) := by
  obtain ⟨w, hok, -, hreturned, hread⟩ := h
  have hw : WellFormed s = true := by
    by_contra hw
    rw [stringWriteAscii, if_neg hw] at hok
    cases hok
  refine ⟨hw, ?_⟩
  by_contra hcon
  obtain ⟨hstart, hcount⟩ := not_or.mp hcon
  rw [Nat.not_le] at hcount
  rw [stringWriteAscii_eq behind hw] at hok
  obtain rfl := Except.ok.inj hok
  dsimp only at hreturned hread
  rw [representable, List.length_take, Nat.min_eq_right (Nat.le_of_lt hcount)] at hreturned
  have hend := length_le_asciiRead (n := length) ⟨behind, behind start, 0, 0⟩
    (hreturned ▸ hcount)
  rw [List.length_drop, List.length_append, List.length_map, List.length_range] at hend
  have hne : s ≠ [] := by
    rintro rfl
    exact hstart (Nat.le_zero.mp hs)
  have hpos := length_utf8Bytes_pos hw hne
  omega

/-- **When `WriteAscii` does what it is for.** It is enough that there are whole characters only,
and that there is nothing to write or that nothing disturbs it. Whole characters are needed, and so
is a buffer that gets full where `start` is not zero. -/
theorem writesAscii_when (behind : ℕ → UInt8) (hs : start ≤ s.length) :
    (WellFormed s = true ∧ (length = 0 ∨ Undisturbed s start length) →
      WritesAscii behind s start length) ∧
    (WritesAscii behind s start length →
      WellFormed s = true ∧
        (start = 0 ∨ length ≤ ((s.drop start).filterMap latinByte).length)) :=
  ⟨fun h ↦ writesAscii_of_undisturbed behind hs h.1 h.2, full_of_writesAscii hs⟩

/-- An em dash, of which the last two bytes are taken for `U+0014`. -/
theorem dash_written : ¬∀ (behind : ℕ → UInt8) (s : JSString) (start length : ℕ),
    start ≤ s.length → WritesAscii behind s start length := by
  intro h
  obtain ⟨w, hok, hstored, -⟩ := h (fun _ ↦ 0) [0x2014] 0 1 (by decide)
  have hwritten : stringWriteAscii (fun _ ↦ 0) [0x2014] 0 1 = .ok ⟨[0x14], 1, 3⟩ := by
    decide +kernel
  obtain rfl := Except.ok.inj (hok.symm.trans hwritten)
  revert hstored
  decide +kernel

/-- `éa` from the second byte of `é` on, with what is behind the copy; an emoji in front of `1`. -/
example : stringWriteAscii (fun _ ↦ 0x78) (js "éa") 1 1 = .ok ⟨[0x78], 1, 3⟩ ∧
    stringWriteAscii (fun _ ↦ 0) [0xD83D, 0xDE01, 0x31] 0 2 = .ok ⟨[0x71, 0], 1, 5⟩ := by
  decide +kernel

/-- `aé中b` behind its first character. -/
theorem writesAscii_when_two : WritesAscii (fun _ ↦ 0) (js "aé中b") 1 2 ∧
    (WellFormed (js "aé中b") = true ∧
      (1 = 0 ∨ 2 ≤ (((js "aé中b").drop 1).filterMap latinByte).length)) := by
  have hall : ∀ u ∈ (js "aé中b").drop 1, Harmless u := by decide +kernel
  have hwhen := @writesAscii_when (js "aé中b") 1 2 (fun _ ↦ 0) (by decide +kernel)
  have hwrites := hwhen.1 ⟨by decide +kernel, .inr ⟨by decide +kernel,
    fun p u r hp _ ↦ hall u (by rw [hp]; simp), .inr (by decide +kernel)⟩⟩
  exact ⟨hwrites, hwhen.2 hwrites⟩

end SpiderNode.Buffer
