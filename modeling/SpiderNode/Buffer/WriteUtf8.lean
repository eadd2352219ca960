import SpiderNode.Buffer.Encoders
import Mathlib.Data.List.GetD

/-!
# `String::WriteUtf8`

The writer of `deps/mozjs/js/src/v8api/string.cpp`, with the functions of the engine below it. What
it stores of a string is always the longest prefix of whole characters that fits. What it reports is
the size of the whole string, or that there is none, and the number of all its code units.

Numbers are unbounded. The encoding of a string of the engine has fewer than `2 ^ 31` bytes, so that
no `int` overflows.
-/

namespace SpiderNode.Buffer

open Net (PoolWrite)

/-- What `DeflateStringToUTF8Buffer` returns: whether it has come to the end of the string. -/
def deflates (room : ℕ) : JSString → Bool
  | [] => true
  | [u] =>
    if isHigh u || isLow u then false
    else if room < (codePointBytes u.toNat).length then false
    else true
  | u :: v :: rest =>
    if isHigh u && isLow v then
      let b := codePointBytes (pairCodePoint u v)
      if room < b.length then false else deflates (room - b.length) rest
    else if isHigh u || isLow u then false
    else
      let b := codePointBytes u.toNat
      if room < b.length then false else deflates (room - b.length) (v :: rest)

/-- The buffer with `b` stored at its beginning. -/
def overwrite (buffer b : Bytes) : Bytes := b ++ buffer.drop b.length

/-- `JS_EncodeStringToBuffer`: the buffer behind it, and what it returns, with `none` for
`size_t(-1)`. -/
def encodeStringToBuffer (buffer : Bytes) (s : JSString) : Bytes × Option ℕ :=
  let part := deflate buffer.length s
  if deflates buffer.length s then (overwrite buffer part, some part.length)
  else if WellFormed s then
    -- the buffer is to contain only valid sequences
    (part ++ List.replicate (buffer.length - part.length) 0, some (utf8Bytes s).length)
  else (overwrite buffer part, none)

/-- What `WriteUtf8` leaves behind: the buffer, the value it returns, and `*nchars_ref`. -/
structure Utf8Written where
  buffer : Bytes
  written : ℤ
  nchars : ℕ
  deriving DecidableEq, Repr

/-- `WriteUtf8`, with the size of the buffer for `length`. -/
def writeUtf8 (buffer : Bytes) (s : JSString) : Utf8Written :=
  match encodeStringToBuffer buffer s with
  | (after, some bytesWritten) =>
    if bytesWritten < buffer.length then ⟨after.set bytesWritten 0, bytesWritten + 1, s.length⟩
    else ⟨after, bytesWritten, s.length⟩
  | (after, none) => ⟨after, -1, s.length⟩

/-! ## Prefixes of whole characters -/

/-- The first `n` code units are whole characters, and their encoding fits in `room` bytes. -/
def Fits (room : ℕ) (s : JSString) (n : ℕ) : Prop :=
  n ≤ s.length ∧ WellFormed (s.take n) = true ∧ (utf8Bytes (s.take n)).length ≤ room

/-- `n` is the largest number of code units that fit. -/
def Longest (room : ℕ) (s : JSString) (n : ℕ) : Prop :=
  Fits room s n ∧ ∀ k, Fits room s k → k ≤ n

/-- The encoding of the longest prefix of whole characters that fits. -/
def IsLongest (room : ℕ) (s : JSString) (b : Bytes) : Prop :=
  ∃ n, Longest room s n ∧ b = utf8Bytes (s.take n)

variable {room n k : ℕ} {s c t : JSString} {u v : UInt16} {b : Bytes}

theorem fits_zero (room : ℕ) (s : JSString) : Fits room s 0 := by simp [Fits]

theorem fits_append (hc : WellFormed c = true) :
    Fits room (c ++ t) (c.length + k) ↔
      (utf8Bytes c).length ≤ room ∧ Fits (room - (utf8Bytes c).length) t k := by
  rw [Fits, Fits, List.take_length_add_append, wellFormed_append hc,
    utf8Bytes_append (splits_of_wellFormed hc _), List.length_append, List.length_append]
  constructor
  · rintro ⟨hle, hw, hlen⟩
    exact ⟨by omega, by omega, hw, by omega⟩
  · rintro ⟨hroom, hle, hw, hlen⟩
    exact ⟨by omega, hw, by omega⟩

/-- A string of which no shorter prefix than itself, but the empty one, is well-formed. -/
structure IsCodePoint (c : JSString) : Prop where
  wellFormed : WellFormed c = true
  eq_zero : ∀ n < c.length, WellFormed (c.take n) = true → n = 0

theorem isCodePoint_single (h : (isHigh u || isLow u) = false) : IsCodePoint [u] where
  wellFormed := by simp [WellFormed, h]
  eq_zero n hn _ := Nat.lt_one_iff.mp hn

theorem isCodePoint_pair (h : (isHigh u && isLow v) = true) : IsCodePoint [u, v] where
  wellFormed := by simp [WellFormed, h]
  eq_zero := by
    rintro (_ | _ | n) hn hw
    · rfl
    · rw [Bool.and_eq_true] at h
      simp [WellFormed, h.1] at hw
    · simp only [List.length_cons, List.length_nil] at hn
      omega

namespace IsCodePoint

/-- Nothing fits of a character that does not fit. -/
theorem isLongest_nil (hc : IsCodePoint c) (t : JSString) (h : room < (utf8Bytes c).length) :
    IsLongest room (c ++ t) [] := by
  refine ⟨0, ⟨fits_zero _ _, fun k hk ↦ ?_⟩, by simp⟩
  by_cases hlt : k < c.length
  · obtain ⟨-, hw, -⟩ := hk
    rw [List.take_append_of_le_length (by omega)] at hw
    exact Nat.le_of_eq (hc.eq_zero k hlt hw)
  · obtain ⟨j, rfl⟩ := Nat.exists_eq_add_of_le (Nat.le_of_not_lt hlt)
    have := (fits_append hc.wellFormed).mp hk
    omega

theorem isLongest_append (hc : IsCodePoint c) (h : (utf8Bytes c).length ≤ room)
    (ht : IsLongest (room - (utf8Bytes c).length) t b) :
    IsLongest room (c ++ t) (utf8Bytes c ++ b) := by
  obtain ⟨n, ⟨hfits, hlongest⟩, rfl⟩ := ht
  refine ⟨c.length + n, ⟨(fits_append hc.wellFormed).mpr ⟨h, hfits⟩, fun k hk ↦ ?_⟩, ?_⟩
  · by_cases hlt : k < c.length
    · omega
    · obtain ⟨j, rfl⟩ := Nat.exists_eq_add_of_le (Nat.le_of_not_lt hlt)
      have := hlongest j ((fits_append hc.wellFormed).mp hk).2
      omega
  · rw [List.take_length_add_append, utf8Bytes_append (splits_of_wellFormed hc.wellFormed _)]

end IsCodePoint

/-- Nothing fits of a string that begins with half of a pair. -/
theorem isLongest_of_surrogate (room : ℕ) (hu : (isHigh u || isLow u) = true)
    (ht : ∀ v ∈ t.head?, (isHigh u && isLow v) = false) : IsLongest room (u :: t) [] := by
  refine ⟨0, ⟨fits_zero _ _, ?_⟩, by simp⟩
  rintro (_ | k) ⟨-, hw, -⟩
  · exact Nat.le_refl 0
  · rw [List.take_succ_cons] at hw
    rcases htake : t.take k with _ | ⟨v, t'⟩
    · rw [htake] at hw
      simp [WellFormed, hu] at hw
    · have hv : v ∈ t.head? := by
        cases t with
        | nil => simp at htake
        | cons w t =>
          cases k with
          | zero => simp at htake
          | succ k =>
            rw [List.take_succ_cons] at htake
            simp [(List.cons.inj htake).1]
      rw [htake] at hw
      simp [WellFormed, ht v hv, hu] at hw

theorem utf8Bytes_single (hu : (isHigh u || isLow u) = false) :
    utf8Bytes [u] = codePointBytes u.toNat := by
  simp [utf8Bytes, hu]

theorem utf8Bytes_pair (hp : (isHigh u && isLow v) = true) :
    utf8Bytes [u, v] = codePointBytes (pairCodePoint u v) := by
  simp [utf8Bytes, hp]

/-- What is stored of a string is the longest prefix of whole characters that fits. -/
theorem isLongest_deflate (room : ℕ) (s : JSString) : IsLongest room s (deflate room s) := by
  fun_induction deflate room s with
  | case1 room => exact ⟨0, ⟨fits_zero _ _, fun k hk ↦ hk.1⟩, by simp⟩
  | case2 room u hu => exact isLongest_of_surrogate room hu (by simp)
  | case3 room u hu hroom =>
    rw [Bool.not_eq_true] at hu
    rw [← utf8Bytes_single hu] at hroom
    exact (isCodePoint_single hu).isLongest_nil [] hroom
  | case4 room u hu hroom =>
    rw [Bool.not_eq_true] at hu
    rw [← utf8Bytes_single hu] at hroom ⊢
    have hnil : IsLongest (room - (utf8Bytes [u]).length) [] [] :=
      ⟨0, ⟨fits_zero _ _, fun k hk ↦ hk.1⟩, by simp⟩
    simpa using (isCodePoint_single hu).isLongest_append (Nat.le_of_not_lt hroom) hnil
  | case5 room u v rest hp b hroom =>
    have hb : b = utf8Bytes [u, v] := (utf8Bytes_pair hp).symm
    rw [hb] at hroom
    exact (isCodePoint_pair hp).isLongest_nil rest hroom
  | case6 room u v rest hp b hroom ih =>
    have hb : b = utf8Bytes [u, v] := (utf8Bytes_pair hp).symm
    rw [hb] at hroom ih ⊢
    exact (isCodePoint_pair hp).isLongest_append (Nat.le_of_not_lt hroom) ih
  | case7 room u v rest hp hu => exact isLongest_of_surrogate room hu (by simpa using hp)
  | case8 room u v rest hp hu b hroom =>
    rw [Bool.not_eq_true] at hu
    have hb : b = utf8Bytes [u] := (utf8Bytes_single hu).symm
    rw [hb] at hroom
    exact (isCodePoint_single hu).isLongest_nil (v :: rest) hroom
  | case9 room u v rest hp hu b hroom ih =>
    rw [Bool.not_eq_true] at hu
    have hb : b = utf8Bytes [u] := (utf8Bytes_single hu).symm
    rw [hb] at hroom ih ⊢
    exact (isCodePoint_single hu).isLongest_append (Nat.le_of_not_lt hroom) ih

theorem IsLongest.unique {b' : Bytes} (h : IsLongest room s b) (h' : IsLongest room s b') :
    b = b' := by
  obtain ⟨n, hn, rfl⟩ := h
  obtain ⟨n', hn', rfl⟩ := h'
  rw [Nat.le_antisymm (hn'.2 n hn.1) (hn.2 n' hn'.1)]

theorem longest_length (hw : WellFormed s = true) (hlen : (utf8Bytes s).length ≤ room) :
    Longest room s s.length := by
  refine ⟨⟨Nat.le_refl _, ?_, ?_⟩, fun k hk ↦ hk.1⟩
  · rwa [List.take_length]
  · rwa [List.take_length]

theorem isLongest_utf8Bytes (hw : WellFormed s = true) (hlen : (utf8Bytes s).length ≤ room) :
    IsLongest room s (utf8Bytes s) :=
  ⟨s.length, longest_length hw hlen, by rw [List.take_length]⟩

theorem deflates_iff (room : ℕ) (s : JSString) :
    deflates room s = true ↔ WellFormed s = true ∧ (utf8Bytes s).length ≤ room := by
  fun_induction deflates room s with
  | case1 => simp
  | case2 room u hu => simp [WellFormed, hu]
  | case3 room u hu hroom => simp [utf8Bytes, hu, hroom]
  | case4 room u hu hroom => simp_all [WellFormed, utf8Bytes]
  | case5 room u v rest hp b hroom =>
    have hroom' : room < (codePointBytes (pairCodePoint u v)).length := hroom
    rw [utf8Bytes, if_pos hp, List.length_append]
    constructor
    · intro h
      cases h
    · omega
  | case6 room u v rest hp b hroom ih =>
    rw [ih, WellFormed, utf8Bytes, if_pos hp, if_pos hp, List.length_append]
    refine and_congr_right fun _ ↦ ?_
    change _ ≤ room - b.length ↔ b.length + _ ≤ room
    omega
  | case7 room u v rest hp hu => simp [WellFormed, hp, hu]
  | case8 room u v rest hp hu b hroom =>
    have hroom' : room < (codePointBytes u.toNat).length := hroom
    rw [utf8Bytes, if_neg hp, if_neg hu, List.length_append]
    constructor
    · intro h
      cases h
    · omega
  | case9 room u v rest hp hu b hroom ih =>
    rw [Bool.not_eq_true] at hu
    rw [ih, WellFormed, utf8Bytes, if_neg hp, if_neg hp, hu, if_neg Bool.false_ne_true,
      Bool.not_false, Bool.true_and, List.length_append]
    refine and_congr_right fun _ ↦ ?_
    change _ ≤ room - b.length ↔ b.length + _ ≤ room
    omega

/-! ## What is stored -/

theorem nchars_writeUtf8 (buffer : Bytes) (s : JSString) :
    (writeUtf8 buffer s).nchars = s.length := by
  rw [writeUtf8]
  split
  · split
    · rfl
    · rfl
  · rfl

theorem length_overwrite {buffer : Bytes} (h : b.length ≤ buffer.length) :
    (overwrite buffer b).length = buffer.length := by
  rw [overwrite, List.length_append, List.length_drop]
  omega

theorem getD_overwrite (buffer : Bytes) {i : ℕ} (h : i < b.length) :
    (overwrite buffer b).getD i 0 = b.getD i 0 := by
  rw [overwrite, List.getD_append _ _ _ _ h]

/-- Storing a terminator. -/
theorem set_overwrite {buffer : Bytes} (h : b.length < buffer.length) :
    (overwrite buffer b).set b.length 0 = overwrite buffer (b ++ [0]) := by
  obtain ⟨x, rest, hrest⟩ : ∃ x rest, buffer.drop b.length = x :: rest :=
    List.exists_cons_of_length_pos (by rw [List.length_drop]; omega)
  have hrest' : buffer.drop (b.length + 1) = rest := by
    rw [← List.drop_drop, hrest]
    rfl
  rw [overwrite, overwrite, List.length_append, List.length_singleton, hrest, hrest',
    List.set_append_right _ _ (Nat.le_refl _), Nat.sub_self, List.set_cons_zero, List.append_assoc]
  rfl

theorem encodeStringToBuffer_of_fits {buffer : Bytes} (hw : WellFormed s = true)
    (hlen : (utf8Bytes s).length ≤ buffer.length) :
    encodeStringToBuffer buffer s =
      (overwrite buffer (utf8Bytes s), some (utf8Bytes s).length) := by
  rw [encodeStringToBuffer, if_pos ((deflates_iff _ _).mpr ⟨hw, hlen⟩), deflate_eq hw hlen]

/-- With space to spare there is a terminator. -/
theorem writeUtf8_of_lt {buffer : Bytes} (hw : WellFormed s = true)
    (hlt : (utf8Bytes s).length < buffer.length) :
    writeUtf8 buffer s =
      ⟨overwrite buffer (utf8Bytes s ++ [0]), (utf8Bytes s).length + 1, s.length⟩ := by
  simp only [writeUtf8, encodeStringToBuffer_of_fits hw (Nat.le_of_lt hlt), if_pos hlt,
    set_overwrite hlt]

theorem writeUtf8_of_eq {buffer : Bytes} (hw : WellFormed s = true)
    (heq : (utf8Bytes s).length = buffer.length) :
    writeUtf8 buffer s = ⟨utf8Bytes s, (utf8Bytes s).length, s.length⟩ := by
  have hall : overwrite buffer (utf8Bytes s) = utf8Bytes s := by
    rw [overwrite, heq, List.drop_length, List.append_nil]
  simp only [writeUtf8, encodeStringToBuffer_of_fits hw (Nat.le_of_eq heq), hall,
    if_neg (show ¬(utf8Bytes s).length < buffer.length by omega)]

/-- Of a string that does not fit, more is reported than there is space. -/
theorem writeUtf8_of_gt {buffer : Bytes} (hw : WellFormed s = true)
    (hgt : buffer.length < (utf8Bytes s).length) :
    writeUtf8 buffer s = ⟨deflate buffer.length s ++
      List.replicate (buffer.length - (deflate buffer.length s).length) 0, (utf8Bytes s).length,
      s.length⟩ := by
  have hfail : ¬deflates buffer.length s = true := by
    rw [deflates_iff]
    omega
  simp only [writeUtf8, encodeStringToBuffer, if_neg hfail, if_pos hw, if_neg (Nat.lt_asymm hgt)]

theorem writeUtf8_of_not_wellFormed (buffer : Bytes) (hw : ¬WellFormed s = true) :
    writeUtf8 buffer s = ⟨overwrite buffer (deflate buffer.length s), -1, s.length⟩ := by
  have hfail : ¬deflates buffer.length s = true := by
    rw [deflates_iff]
    exact fun h ↦ hw h.1
  simp only [writeUtf8, encodeStringToBuffer, if_neg hfail, if_neg hw]

/-! ## The contract -/

/-- The contract of V8: of the string, the longest prefix of whole characters that fits is stored,
with a terminator only behind the whole string; the value that is returned is the number of bytes,
and `nchars` that of code units. -/
structure Honoured (buffer : Bytes) (s : JSString) : Prop where
  written_le : (writeUtf8 buffer s).written ≤ buffer.length
  longest : Longest buffer.length s (writeUtf8 buffer s).nchars
  stored : ∃ tail, (writeUtf8 buffer s).written =
      (utf8Bytes (s.take (writeUtf8 buffer s).nchars) ++ tail).length ∧
    (writeUtf8 buffer s).buffer.take (writeUtf8 buffer s).written.toNat =
      utf8Bytes (s.take (writeUtf8 buffer s).nchars) ++ tail ∧
    (tail = [] ∨ tail = [0] ∧ (writeUtf8 buffer s).nchars = s.length ∧
      (utf8Bytes s).length < buffer.length)

/-- `WriteUtf8` keeps the contract for the strings that fit, and for no others. -/
theorem honoured_iff (buffer : Bytes) (s : JSString) :
    Honoured buffer s ↔ WellFormed s = true ∧ (utf8Bytes s).length ≤ buffer.length := by
  constructor
  · intro h
    have hlongest := h.longest
    rw [nchars_writeUtf8] at hlongest
    have hw : WellFormed s = true := by simpa using hlongest.1.2.1
    refine ⟨hw, Nat.le_of_not_lt fun hgt ↦ ?_⟩
    have hle := h.written_le
    rw [writeUtf8_of_gt hw hgt] at hle
    exact absurd (Int.ofNat_le.mp hle) (Nat.not_le_of_lt hgt)
  · rintro ⟨hw, hlen⟩
    have hlongest : Longest buffer.length s (writeUtf8 buffer s).nchars := by
      rw [nchars_writeUtf8]
      exact longest_length hw hlen
    rcases Nat.lt_or_eq_of_le hlen with hlt | heq
    · have hstored := writeUtf8_of_lt hw hlt
      refine ⟨?_, hlongest, ?_⟩
      · rw [hstored]
        exact Int.ofNat_le.mpr hlt
      · rw [hstored]
        refine ⟨[0], by simp, ?_, .inr ⟨rfl, rfl, hlt⟩⟩
        rw [List.take_length]
        exact List.take_left' (by simp)
    · have hstored := writeUtf8_of_eq hw heq
      refine ⟨?_, hlongest, ?_⟩
      · rw [hstored]
        exact Int.ofNat_le.mpr hlen
      · rw [hstored]
        exact ⟨[], by simp, by simp, .inl rfl⟩

/-- Of `"ab"` in one byte, two are reported. -/
theorem written_beyond_buffer : ¬Honoured [0] (js "ab") := by
  intro h
  exact absurd h.written_le (by decide)

/-! ## `Utf8Write` -/

/-- The byte that `Utf8Write` takes for a terminator: `p[written - 1]`. -/
def Utf8Written.lastByte (m : Heap) (w : Utf8Written) : UInt8 :=
  if w.written.toNat - 1 < w.buffer.length then w.buffer.getD (w.written.toNat - 1) 0
  else m.beyond (w.written.toNat - 1 - w.buffer.length)

/-- What `Utf8Write` returns. -/
def Utf8Written.reported (m : Heap) (w : Utf8Written) : ℤ :=
  if 0 < w.written ∧ w.lastByte m = 0 then w.written - 1 else w.written

theorem reported_of_lt (m : Heap) {buffer : Bytes} (hw : WellFormed s = true)
    (hlt : (utf8Bytes s).length < buffer.length) :
    (writeUtf8 buffer s).reported m = (utf8Bytes s).length := by
  have hlen : (overwrite buffer (utf8Bytes s ++ [0])).length = buffer.length :=
    length_overwrite (by simpa using Nat.succ_le_of_lt hlt)
  have hlast : (overwrite buffer (utf8Bytes s ++ [0])).getD (utf8Bytes s).length 0 = 0 := by
    rw [getD_overwrite buffer (by simp)]
    simp
  rw [writeUtf8_of_lt hw hlt, Utf8Written.reported, Utf8Written.lastByte]
  simp only [Int.toNat_natCast_add_one, Nat.add_sub_cancel, hlen, if_pos hlt, hlast, and_true]
  rw [if_pos (by omega)]
  omega

theorem reported_of_eq (m : Heap) {buffer : Bytes} (hw : WellFormed s = true)
    (heq : (utf8Bytes s).length = buffer.length) :
    (writeUtf8 buffer s).reported m = (dropNul (utf8Bytes s)).length := by
  rw [writeUtf8_of_eq hw heq, Utf8Written.reported, Utf8Written.lastByte]
  rcases (utf8Bytes s).eq_nil_or_concat with hnil | ⟨l, x, hl⟩
  · simp [hnil, dropNul]
  · by_cases hx : x = 0
    · simp [hl, hx, dropNul]
    · simp [hl, hx, dropNul]

/-! ### By the space that is left -/

theorem utf8Write_of_spare (m : Heap) (hw : WellFormed s = true)
    (hlt : (utf8Bytes s).length < room) :
    utf8Write m s room = ⟨utf8Bytes s ++ [0], (utf8Bytes s).length, s.length⟩ := by
  simp [utf8Write, hw, hlt, deflate_eq hw (Nat.le_of_lt hlt)]

theorem utf8Write_of_full (m : Heap) (hw : WellFormed s = true)
    (heq : (utf8Bytes s).length = room) :
    utf8Write m s room = ⟨utf8Bytes s, (dropNul (utf8Bytes s)).length, s.length⟩ := by
  obtain ⟨tail, hfits, -⟩ := utf8Write_of_fits m hw (Nat.le_of_eq heq)
  have hstored : (utf8Write m s room).stored = utf8Bytes s := by
    simp [utf8Write, hw, heq, deflate_eq hw (Nat.le_of_eq heq)]
  rw [if_neg (by omega)] at hfits
  rw [hfits] at hstored ⊢
  rw [show dropNul (utf8Bytes s) ++ tail = utf8Bytes s from hstored]

theorem utf8Write_of_over (m : Heap) (hw : WellFormed s = true)
    (hgt : room < (utf8Bytes s).length) :
    utf8Write m s room =
      ⟨deflate room s ++ List.replicate (room - (deflate room s).length) 0,
        if m.beyond ((utf8Bytes s).length - 1 - room) = 0 then (utf8Bytes s).length - 1
        else (utf8Bytes s).length, s.length⟩ := by
  have hpos : 0 < (utf8Bytes s).length := by omega
  simp only [utf8Write, if_pos hw, if_neg (Nat.lt_asymm hgt), if_neg (Nat.ne_of_gt hgt),
    if_neg (show ¬(utf8Bytes s).length - 1 < room by omega), hpos, true_and]

theorem utf8Write_of_not_wellFormed (m : Heap) (room : ℕ) (hw : ¬WellFormed s = true) :
    utf8Write m s room = ⟨deflate room s, -1, s.length⟩ := by
  simp only [utf8Write, if_neg hw]

/-- `Utf8Write` behind its checks is `WriteUtf8`, less a last byte that is zero. -/
theorem utf8Write_eq (m : Heap) (buffer : Bytes) (s : JSString) :
    overwrite buffer (utf8Write m s buffer.length).stored = (writeUtf8 buffer s).buffer ∧
      (utf8Write m s buffer.length).bytesWritten = (writeUtf8 buffer s).reported m := by
  by_cases hw : WellFormed s = true
  · rcases Nat.lt_trichotomy (utf8Bytes s).length buffer.length with hlt | heq | hgt
    · rw [utf8Write_of_spare m hw hlt, reported_of_lt m hw hlt, writeUtf8_of_lt hw hlt]
      exact ⟨rfl, rfl⟩
    · rw [utf8Write_of_full m hw heq, reported_of_eq m hw heq, writeUtf8_of_eq hw heq]
      refine ⟨?_, rfl⟩
      rw [overwrite, heq, List.drop_length, List.append_nil]
    · have hfull : (deflate buffer.length s ++
          List.replicate (buffer.length - (deflate buffer.length s).length) 0).length =
          buffer.length := by
        have := length_deflate_le buffer.length s
        rw [List.length_append, List.length_replicate]
        omega
      rw [utf8Write_of_over m hw hgt, writeUtf8_of_gt hw hgt]
      constructor
      · rw [overwrite, hfull, List.drop_length, List.append_nil]
      · simp only [Utf8Written.reported, Utf8Written.lastByte, hfull, Int.toNat_natCast,
          if_neg (show ¬(utf8Bytes s).length - 1 < buffer.length by omega)]
        have hpos : (0 : ℤ) < (utf8Bytes s).length := by omega
        simp only [hpos, true_and]
  · rw [utf8Write_of_not_wellFormed m _ hw, writeUtf8_of_not_wellFormed buffer hw]
    exact ⟨rfl, rfl⟩

end SpiderNode.Buffer
