import SpiderNode.Buffer.Native
import Mathlib.Algebra.Group.Nat.Defs

/-!
# What the encoders get right

For each encoding, the strings for which the encoder stores a prefix of whole characters and reports
it as such, and what `new Buffer` makes of them.
-/

namespace SpiderNode.Buffer

open Net (JsError PoolWrite PoolWriter World)

/-! ## Strings of the engine -/

/-- `JSString::MAX_LENGTH`: no string of the engine is longer. -/
def maxStringLength : ℕ := 2 ^ 28 - 1

/-- `js_NewString` -/
def jsNewString (s : JSString) : Except JsError JSString :=
  if s.length ≤ maxStringLength then .ok s else .error (.error "allocation size overflow")

/-! ## UTF-8 -/

theorem length_deflate_le (room : ℕ) (s : JSString) : (deflate room s).length ≤ room := by
  fun_induction deflate room s with
  | case1 | case2 | case3 | case5 | case7 | case8 => exact Nat.zero_le _
  | case4 => omega
  | case6 | case9 =>
    rw [List.length_append]
    omega

theorem deflate_eq {s : JSString} (hw : WellFormed s = true) :
    ∀ {room : ℕ}, (utf8Bytes s).length ≤ room → deflate room s = utf8Bytes s := by
  fun_induction WellFormed s with
  | case1 => intro room _; simp [deflate]
  | case2 u =>
    intro room hr
    have hu : (isHigh u || isLow u) = false := by simpa using hw
    simp only [utf8Bytes, hu, Bool.false_eq_true, if_false] at hr
    simp [deflate, utf8Bytes, hu, Nat.not_lt.mpr hr]
  | case3 u v rest hp ih =>
    intro room hr
    simp only [utf8Bytes, hp, if_true, List.length_append] at hr ⊢
    simp only [deflate, hp, if_true]
    rw [if_neg (by omega), ih hw (by omega)]
  | case4 u v rest hp ih =>
    intro room hr
    rw [Bool.and_eq_true, Bool.not_eq_true'] at hw
    simp only [utf8Bytes, hp, hw.1, Bool.false_eq_true, if_false, List.length_append] at hr ⊢
    simp only [deflate, hp, hw.1, Bool.false_eq_true, if_false]
    rw [if_neg (by omega), ih hw.2 (by omega)]

/-- A sequence of bytes without its last one, if that is zero. -/
def dropNul (b : Bytes) : Bytes := if b.getLast? = some 0 then b.dropLast else b

/-- A string that fits is stored whole, but for a final `NUL` that fills the space to the brim. -/
theorem utf8Write_of_fits (m : Heap) {s : JSString} {room : ℕ} (hw : WellFormed s = true)
    (hr : (utf8Bytes s).length ≤ room) :
    ∃ tail, utf8Write m s room =
        ⟨(if (utf8Bytes s).length < room then utf8Bytes s else dropNul (utf8Bytes s)) ++ tail,
          (if (utf8Bytes s).length < room then utf8Bytes s else dropNul (utf8Bytes s)).length,
          s.length⟩ ∧
      ((if (utf8Bytes s).length < room then utf8Bytes s else dropNul (utf8Bytes s)) ++ tail).length
        ≤ room := by
  simp only [utf8Write, hw, if_true, deflate_eq hw hr]
  generalize utf8Bytes s = b at hr ⊢
  by_cases hlt : b.length < room
  · refine ⟨[0], ?_, ?_⟩
    · simp [hlt]
    · simp only [hlt, if_true, List.length_append, List.length_singleton]
      omega
  · have heq : b.length = room := by omega
    rcases b.eq_nil_or_concat with rfl | ⟨l, x, rfl⟩
    · exact ⟨[], by simp_all [dropNul], by simp [dropNul]⟩
    · have hl : l.length + 1 = room := by simpa using heq
      simp only [List.length_append]
      by_cases hx : x = 0
      · refine ⟨[0], ?_, ?_⟩
        · simp [hx, dropNul, ← hl]
        · simp [hx, dropNul, ← hl]
      · refine ⟨[], ?_, ?_⟩
        · simp [hx, dropNul, ← hl]
        · simp [hx, dropNul, ← hl]

theorem newBuffer_utf8 (m : Heap) {s : JSString} {e : TextEncoding} (he : isUtf8 (some e) = true)
    (hw : WellFormed s = true) : newBuffer m s (.text e) = .ok (dropNul (utf8Bytes s)) := by
  have hlen : byteLength s (.text e) = some (utf8Bytes s).length := by
    cases e <;> simp_all [byteLength, isUtf8]
  have hwrite : ∀ room, write m (.text e) s (utf8Bytes s).length room =
      .ok (utf8Write m s (min room (utf8Bytes s).length)) := by
    cases e <;> simp_all [write, isUtf8]
  obtain ⟨tail, hu, -⟩ := utf8Write_of_fits m hw (Nat.le_refl _)
  simp only [newBuffer, hlen, hwrite]
  rw [Nat.min_eq_right (Nat.le_add_right _ _), hu]
  simp

/-- The bytes a string needs are reported even if there is no space for them. -/
theorem utf8Write_of_lt (m : Heap) {s : JSString} {room : ℕ} (hw : WellFormed s = true)
    (hr : room < (utf8Bytes s).length) (hm : m.beyond ((utf8Bytes s).length - 1 - room) ≠ 0) :
    (utf8Write m s room).charsWritten = s.length ∧
      (utf8Write m s room).bytesWritten = (utf8Bytes s).length := by
  have hlt : ¬(utf8Bytes s).length < room := by omega
  have hlast : ¬(utf8Bytes s).length - 1 < room := by omega
  simp only [utf8Write, hw, if_true, hlt, hlast, if_false, true_and]
  rw [if_neg fun h ↦ hm h.2]

/-! ## ASCII -/

/-- The byte a code unit comes back as, if it does. -/
def asciiByte (u : UInt16) : Option UInt8 :=
  if u.toNat < 0x100 ∨ 0x800 ≤ u.toNat ∧ u.toNat % 0x1000 < 0x100 then some u.toUInt8 else none

theorem twoByteChar_eq {k x y : ℕ} (hx : x < 0x40) (hy : y < 0x40) :
    twoByteChar (.ofNat (k * 0x40 + x)) (.ofNat (0x80 + y)) = x * 0x40 + y := by
  have hfirst : (UInt8.ofNat (k * 0x40 + x)).toNat % 0x40 = x := by
    rw [UInt8.toNat_ofNat']
    omega
  have hsecond : (UInt8.ofNat (0x80 + y)).toNat % 0x80 = y := by
    rw [UInt8.toNat_ofNat']
    omega
  rw [twoByteChar, hfirst, hsecond, ← Nat.shiftLeft_add_eq_or_of_lt hy, Nat.shiftLeft_eq]

theorem writeAscii_cons_ascii (m : Heap) (n : ℕ) {first : UInt8} (h : first.toNat ≤ 0x7F)
    (rest : Bytes) : writeAscii m (n + 1) (first :: rest) = first :: writeAscii m n rest := by
  cases rest <;> simp [writeAscii, Nat.not_lt.mpr h]

theorem writeAscii_cons_long (m : Heap) (n : ℕ) {first : UInt8} (h : 0xE0 ≤ first.toNat)
    (rest : Bytes) : writeAscii m (n + 1) (first :: rest) = writeAscii m (n + 1) rest := by
  have h₁ : 0x7F < first.toNat := by omega
  have h₂ : ¬first.toNat < 0xE0 := by omega
  cases rest with
  | nil => simp [writeAscii, h₁, h₂]
  | cons second rest => simp [writeAscii, h₁, h₂]

theorem writeAscii_cons_two (m : Heap) (n : ℕ) {first : UInt8} (h₁ : 0x7F < first.toNat)
    (h₂ : first.toNat < 0xE0) (second : UInt8) (rest : Bytes) :
    writeAscii m (n + 1) (first :: second :: rest) =
      if twoByteChar first second < 0x100 then
        .ofNat (twoByteChar first second) :: writeAscii m n rest
      else writeAscii m (n + 1) rest := by
  simp [writeAscii, h₁, h₂]

/-- Two bytes are read as the character that they encode. -/
theorem twoByteChar_of_two {v : ℕ} (h : v < 0x800) :
    twoByteChar (.ofNat (0xC0 + v / 0x40)) (.ofNat (0x80 + v % 0x40)) = v := by
  have heq := twoByteChar_eq (k := 3) (x := v / 0x40) (y := v % 0x40) (by omega) (by omega)
  rw [heq]
  omega

/-- The last two of three bytes: the upper half of the code unit is lost. -/
theorem twoByteChar_of_three (v : ℕ) :
    twoByteChar (.ofNat (0x80 + v / 0x40 % 0x40)) (.ofNat (0x80 + v % 0x40)) = v % 0x1000 := by
  have heq := twoByteChar_eq (k := 2) (x := v / 0x40 % 0x40) (y := v % 0x40) (by omega) (by omega)
  rw [heq]
  omega

/-- The first byte of a character tells how many there are. -/
theorem toNat_firstByte {k x : ℕ} (h : k + x < 0x100) : (UInt8.ofNat (k + x)).toNat = k + x := by
  rw [UInt8.toNat_ofNat', Nat.mod_eq_of_lt h]

/-- A character of the basic plane is written as its byte, if it has one, or dropped. -/
theorem writeAscii_codePointBytes (m : Heap) (n : ℕ) (u : UInt16) (rest : Bytes) :
    writeAscii m (n + 1) (codePointBytes u.toNat ++ rest) =
      match asciiByte u with
      | some b => b :: writeAscii m n rest
      | none => writeAscii m (n + 1) rest := by
  have hu : u.toNat < 0x10000 := u.toNat_lt
  by_cases h₁ : u.toNat < 0x80
  · have hb : asciiByte u = some u.toUInt8 := by rw [asciiByte, if_pos (by omega)]
    rw [codePointBytes, if_pos h₁, hb]
    refine writeAscii_cons_ascii m n ?_ rest
    rw [UInt8.toNat_ofNat']
    omega
  · by_cases h₂ : u.toNat < 0x800
    · have hfirst := toNat_firstByte (k := 0xC0) (x := u.toNat / 0x40) (by omega)
      rw [codePointBytes, if_neg h₁, if_pos h₂, List.cons_append, List.cons_append, List.nil_append,
        writeAscii_cons_two m n (by omega) (by omega), twoByteChar_of_two h₂]
      by_cases h256 : u.toNat < 0x100
      · rw [if_pos h256, asciiByte, if_pos (.inl h256)]
        rfl
      · rw [if_neg h256, asciiByte, if_neg (by omega)]
    -- of three bytes the first is not looked at, so that the upper half of the code unit is lost
    · have hfirst := toNat_firstByte (k := 0xE0) (x := u.toNat / 0x1000) (by omega)
      have hsecond := toNat_firstByte (k := 0x80) (x := u.toNat / 0x40 % 0x40) (by omega)
      rw [codePointBytes, if_neg h₁, if_neg h₂, if_pos hu]
      simp only [List.cons_append, List.nil_append]
      rw [writeAscii_cons_long m n (by omega), writeAscii_cons_two m n (by omega) (by omega),
        twoByteChar_of_three]
      by_cases h256 : u.toNat % 0x1000 < 0x100
      · have hbyte : UInt8.ofNat (u.toNat % 0x1000) = u.toUInt8 := by
          apply UInt8.toNat_inj.mp
          rw [UInt8.toNat_ofNat', UInt16.toNat_toUInt8]
          omega
        rw [if_pos h256, asciiByte, if_pos (.inr ⟨by omega, h256⟩), hbyte]
      · rw [if_neg h256, asciiByte, if_neg (by omega)]

/-- A string without surrogates comes back code unit by code unit. -/
theorem writeAscii_utf8Bytes (m : Heap) {s : JSString}
    (hs : ∀ u ∈ s, (isHigh u || isLow u) = false) :
    ∀ n, writeAscii m n (utf8Bytes s) = (s.filterMap asciiByte).take n := by
  induction s with
  | nil => intro n; simp [writeAscii]
  | cons u s ih =>
    have hu := hs u (by simp)
    have ih' := ih fun v hv ↦ hs v (by simp [hv])
    have hcons : utf8Bytes (u :: s) = codePointBytes u.toNat ++ utf8Bytes s := by
      cases s with
      | nil => simp [utf8Bytes, hu]
      | cons v s =>
        have hp : (isHigh u && isLow v) = false := by simp_all
        simp [utf8Bytes, hp, hu]
    intro n
    cases n with
    | zero =>
      generalize utf8Bytes (u :: s) = b
      cases b <;> simp [writeAscii]
    | succ n =>
      rw [hcons, writeAscii_codePointBytes]
      cases hb : asciiByte u with
      | none => simp only [ih', List.filterMap_cons, hb]
      | some b => simp only [ih', List.filterMap_cons, hb, List.take_succ_cons]

/-- Whatever the bytes are, each pair yields at most one. -/
theorem length_writeAscii_cons_le (m : Heap) {c : UInt8} (hc : 0x80 ≤ c.toNat) {bs : Bytes} {k : ℕ}
    (hnil : bs = [] → 1 ≤ k) (hle : ∀ d rest, bs = d :: rest → c.toNat < 0xE0 →
      ∀ n, (writeAscii m n rest).length + 1 ≤ k)
    (hlong : 0xE0 ≤ c.toNat → ∀ n, (writeAscii m n bs).length ≤ k) (n : ℕ) :
    (writeAscii m n (c :: bs)).length ≤ k := by
  cases n with
  | zero => simp [writeAscii]
  | succ n =>
    by_cases hlt : c.toNat < 0xE0
    · cases bs with
      | nil =>
        have := hnil rfl
        simp only [writeAscii]
        split_ifs <;> simp <;> omega
      | cons d rest =>
        rw [writeAscii_cons_two m n (by omega) hlt]
        have h := hle d rest rfl hlt
        split
        · exact h n
        · exact Nat.le_of_succ_le (h (n + 1))
    · rw [writeAscii_cons_long m n (by omega)]
      exact hlong (by omega) (n + 1)

/-- A byte that continues a character. -/
def IsContinuation (b : UInt8) : Prop := 0x80 ≤ b.toNat ∧ b.toNat < 0xC0

theorem isContinuation_ofNat {x : ℕ} (hx : x < 0x40) : IsContinuation (.ofNat (0x80 + x)) := by
  constructor <;> rw [UInt8.toNat_ofNat'] <;> omega

/-- What `WriteAscii` makes of `bs`, alone and behind an orphaned continuation byte, has at most as
many bytes as the `k` code units that `bs` encodes, counting the orphan as one. -/
def Bounded (m : Heap) (k : ℕ) (bs : Bytes) : Prop :=
  (∀ n, (writeAscii m n bs).length ≤ k) ∧
    ∀ c, IsContinuation c → ∀ n, (writeAscii m n (c :: bs)).length ≤ k + 1

theorem bounded_nil (m : Heap) : Bounded m 0 [] := by
  refine ⟨fun n ↦ by simp [writeAscii], fun c hc n ↦ ?_⟩
  exact length_writeAscii_cons_le m hc.1 (fun _ ↦ by simp) (by simp)
    (fun h ↦ absurd h (by have := hc.2; omega)) n

section Bounded

variable {m : Heap} {k : ℕ} {bs : Bytes}

/-- Two continuation bytes are taken for one character. -/
theorem Bounded.pair (h : Bounded m k bs) {b c : UInt8} (hb : IsContinuation b) (n : ℕ) :
    (writeAscii m n (b :: c :: bs)).length ≤ k + 1 := by
  refine length_writeAscii_cons_le m hb.1 (by simp) ?_ (fun hl ↦ absurd hl (by
    have := hb.2
    omega)) n
  rintro d rest heq - n'
  obtain ⟨-, rfl⟩ := List.cons.inj heq
  exact Nat.succ_le_succ (h.1 n')

theorem Bounded.one (h : Bounded m k bs) {a : UInt8} (ha : a.toNat < 0x80) :
    Bounded m (k + 1) (a :: bs) := by
  refine ⟨fun n ↦ ?_, fun c hc n ↦ Nat.le_succ_of_le (h.pair hc n)⟩
  cases n with
  | zero => simp [writeAscii]
  | succ n =>
    rw [writeAscii_cons_ascii m n (by omega)]
    exact Nat.succ_le_succ (h.1 n)

theorem Bounded.two (h : Bounded m k bs) {a b : UInt8} (ha : 0xC0 ≤ a.toNat) (ha' : a.toNat < 0xE0)
    (hb : IsContinuation b) : Bounded m (k + 1) (a :: b :: bs) := by
  constructor
  · refine length_writeAscii_cons_le m (by omega) (by simp) ?_ (fun hl ↦ absurd hl (by omega))
    rintro d rest heq - n
    obtain ⟨-, rfl⟩ := List.cons.inj heq
    exact Nat.succ_le_succ (h.1 n)
  · intro c hc
    refine length_writeAscii_cons_le m hc.1 (by simp) ?_ (fun hl ↦ absurd hl (by
      have := hc.2
      omega))
    rintro d rest heq - n
    obtain ⟨-, rfl⟩ := List.cons.inj heq
    exact Nat.succ_le_succ (h.2 b hb n)

theorem Bounded.three (h : Bounded m k bs) {a b c : UInt8} (ha : 0xE0 ≤ a.toNat)
    (hb : IsContinuation b) : Bounded m (k + 1) (a :: b :: c :: bs) := by
  constructor
  · exact length_writeAscii_cons_le m (by omega) (by simp) (fun _ _ _ hlt ↦ absurd hlt (by omega))
      fun _ n ↦ h.pair hb n
  · intro d hd
    refine length_writeAscii_cons_le m hd.1 (by simp) ?_ (fun hl ↦ absurd hl (by
      have := hd.2
      omega))
    rintro _ rest heq - n
    obtain ⟨-, rfl⟩ := List.cons.inj heq
    exact Nat.succ_le_succ (h.pair hb n)

theorem Bounded.four (h : Bounded m k bs) {a b c d : UInt8} (ha : 0xE0 ≤ a.toNat)
    (hb : IsContinuation b) (hd : IsContinuation d) :
    Bounded m (k + 2) (a :: b :: c :: d :: bs) := by
  have hpair : ∀ n, (writeAscii m n (b :: c :: d :: bs)).length ≤ k + 2 := by
    refine length_writeAscii_cons_le m hb.1 (by simp) ?_ (fun hl ↦ absurd hl (by
      have := hb.2
      omega))
    rintro _ rest heq - n
    obtain ⟨-, rfl⟩ := List.cons.inj heq
    exact Nat.succ_le_succ (h.2 d hd n)
  constructor
  · exact length_writeAscii_cons_le m (by omega) (by simp) (fun _ _ _ hlt ↦ absurd hlt (by omega))
      fun _ n ↦ hpair n
  · intro e he
    refine length_writeAscii_cons_le m he.1 (by simp) ?_ (fun hl ↦ absurd hl (by
      have := he.2
      omega))
    rintro _ rest heq - n
    obtain ⟨-, rfl⟩ := List.cons.inj heq
    exact Nat.succ_le_succ (hpair n)

theorem Bounded.codePoint (h : Bounded m k bs) {v : ℕ} (hv : v < 0x10000) :
    Bounded m (k + 1) (codePointBytes v ++ bs) := by
  unfold codePointBytes
  split_ifs with h₁ h₂
  · exact h.one (by rw [UInt8.toNat_ofNat']; omega)
  · exact h.two (by rw [UInt8.toNat_ofNat']; omega) (by rw [UInt8.toNat_ofNat']; omega)
      (isContinuation_ofNat (by omega))
  · exact h.three (by rw [UInt8.toNat_ofNat']; omega) (isContinuation_ofNat (by omega))

theorem Bounded.pairCodePoint (h : Bounded m k bs) {hi lo : UInt16} (hhi : isHigh hi = true)
    (hlo : isLow lo = true) : Bounded m (k + 2) (codePointBytes (pairCodePoint hi lo) ++ bs) := by
  simp only [isHigh, isLow, Bool.and_eq_true, decide_eq_true_eq, UInt16.le_iff_toNat_le] at hhi hlo
  have h₁ : hi.toNat ≤ 0xDBFF := hhi.2
  have h₂ : lo.toNat ≤ 0xDFFF := hlo.2
  have h₃ : 0x10000 ≤ SpiderNode.pairCodePoint hi lo := Nat.le_add_left _ _
  have h₄ : SpiderNode.pairCodePoint hi lo < 0x110000 := by
    rw [SpiderNode.pairCodePoint]
    omega
  rw [codePointBytes, if_neg (by omega), if_neg (by omega), if_neg (by omega)]
  exact h.four (by rw [UInt8.toNat_ofNat']; omega) (isContinuation_ofNat (by omega))
    (isContinuation_ofNat (by omega))

end Bounded

theorem bounded_utf8Bytes (m : Heap) {s : JSString} (hw : WellFormed s = true) :
    Bounded m s.length (utf8Bytes s) := by
  fun_induction WellFormed s with
  | case1 => simpa using bounded_nil m
  | case2 u =>
    have hu : (isHigh u || isLow u) = false := by simpa using hw
    simpa [utf8Bytes, hu] using (bounded_nil m).codePoint u.toNat_lt
  | case3 u v rest hp ih =>
    obtain ⟨hu, hv⟩ := Bool.and_eq_true _ _ ▸ hp
    rw [utf8Bytes, if_pos hp]
    exact (ih hw).pairCodePoint hu hv
  | case4 u v rest hp ih =>
    rw [Bool.and_eq_true, Bool.not_eq_true'] at hw
    rw [utf8Bytes, if_neg hp, if_neg (by simp [hw.1])]
    exact (ih hw.2).codePoint u.toNat_lt

/-! ## The lengths of the other encodings -/

theorem length_decodeDigits (l : List ℕ) : (decodeDigits l).length = 3 * l.length / 4 := by
  fun_induction decodeDigits l with
  | case1 a b c d rest ih =>
    simp only [List.length_cons, ih]
    omega
  | case2 => simp
  | case3 => simp
  | case4 l h₄ h₃ h₂ =>
    rcases l with _ | ⟨a, _ | ⟨b, _ | ⟨c, _ | ⟨d, rest⟩⟩⟩⟩
    · rfl
    · simp
    · exact absurd rfl (h₂ a b)
    · exact absurd rfl (h₃ a b c)
    · exact absurd rfl (h₄ a b c d rest)

theorem length_hexBytes {s : JSString} {b : Bytes} (h : hexBytes s = some b) :
    2 * b.length = s.length := by
  fun_induction hexBytes s generalizing b with
  | case1 => simp_all
  | case2 => cases h
  | case3 x y rest ih =>
    simp only [Option.bind_eq_bind, Option.bind_eq_some_iff] at h
    obtain ⟨byte, -, bytes, hbytes, hb⟩ := h
    obtain rfl : byte :: bytes = b := by simpa using hb
    have := ih hbytes
    simp only [List.length_cons]
    omega

/-! ## `new Buffer` -/

theorem newBuffer_ascii (m : Heap) {s : JSString} {b : Bytes}
    (h : newBuffer m s (.text .ascii) = .ok b) :
    WellFormed s = true ∧ b = writeAscii m s.length (utf8Bytes s) := by
  simp only [newBuffer, byteLength, write, asciiWrite] at h
  rw [Nat.min_eq_right (Nat.le_add_right _ _), Nat.min_self] at h
  by_cases hw : WellFormed s = true
  · simp only [hw, if_true, Int.toNat_natCast, List.take_left, Except.ok.injEq] at h
    exact ⟨hw, h.symm⟩
  · simp [hw] at h

theorem newBuffer_binary (m : Heap) {s : JSString} {b : Bytes}
    (h : newBuffer m s (.text .binary) = .ok b) :
    (∀ u ∈ s, u.toNat < 0x100) ∧ b = latin1Bytes s := by
  have htake : s.take (s.length + m.slack) = s := List.take_of_length_le (Nat.le_add_right _ _)
  simp only [newBuffer, byteLength, write, binaryWrite, htake] at h
  by_cases hb : ∀ u ∈ s, u.toNat < 0x100
  · rw [if_pos hb] at h
    have htake' : (latin1Bytes s).take s.length = latin1Bytes s :=
      List.take_of_length_le (by simp [latin1Bytes])
    simp only [Int.toNat_natCast, htake', Except.ok.injEq] at h
    exact ⟨hb, h.symm⟩
  · simp [hb] at h

/-- Where a character takes more or less than one byte, a buffer is longer or shorter than its
string. -/
theorem eq_nil_of_length_newBuffer (m : Heap) {s : JSString} {encoding : Encoding}
    (he : encoding = .base64 ∨ encoding = .ucs2 ∨ encoding = .hex) {b : Bytes}
    (h : newBuffer m s encoding = .ok b) (hlen : b.length = s.length) : s = [] := by
  rcases he with rfl | rfl | rfl
  · simp only [newBuffer] at h
    cases hl : byteLength s .base64 with
    | none => simp [hl] at h
    | some length =>
      simp only [hl, write, base64Write] at h
      by_cases hw : WellFormed s = true
      · simp only [hw, if_true] at h
        generalize hsrc : writeAscii m (s.length + 1) (utf8Bytes s) = src at h
        have hle : (src.filterMap unbase64).length ≤ s.length := by
          refine Nat.le_trans (List.length_filterMap_le _ _) ?_
          rw [← hsrc]
          exact (bounded_utf8Bytes m hw).1 _
        split_ifs at h
        simp only [Except.ok.injEq] at h
        have hout : b.length ≤ (decodeDigits (src.filterMap unbase64)).length := by
          rw [← h]
          simp only [List.length_take]
          omega
        -- four digits give three bytes, so that only no digits give as many bytes as there are
        cases hd : src.filterMap unbase64 with
        | nil =>
          rw [hd] at hout
          apply List.eq_nil_of_length_eq_zero
          simp only [decodeDigits, List.length_nil] at hout
          omega
        | cons x l =>
          rw [hd] at hout hle
          rw [length_decodeDigits] at hout
          simp only [List.length_cons] at hout hle
          omega
      · simp [hw] at h
  · have htake : s.take (min (2 * s.length + m.slack) (2 * s.length)) = s :=
      List.take_of_length_le (by omega)
    simp only [newBuffer, byteLength, write, ucs2Write, htake] at h
    rw [if_pos (Nat.le_add_right _ _)] at h
    simp only [Except.ok.injEq] at h
    -- two bytes for each code unit
    have htwo : (s.flatMap fun u : UInt16 ↦ [u.toUInt8, (u >>> 8).toUInt8]).length
        = 2 * s.length := by
      simp [List.length_flatMap, Nat.mul_comm]
    have : b.length = 2 * s.length := by
      rw [← h, List.length_take, htwo]
      omega
    exact List.eq_nil_of_length_eq_zero (by omega)
  · simp only [newBuffer, byteLength, write, hexWrite] at h
    cases hb : hexBytes s with
    | none => simp [hb] at h
    | some bytes =>
      -- one byte for two digits
      have htwo := length_hexBytes hb
      simp only [hb, Except.ok.injEq] at h
      have : b.length ≤ bytes.length := by
        rw [← h]
        simp only [List.length_take]
        omega
      exact List.eq_nil_of_length_eq_zero (by omega)

/-- Nothing is stored for an empty string. -/
theorem write_nil (m : Heap) (encoding : Encoding) (room : ℕ) (hroom : 0 < room) :
    ∃ tail chars, write m encoding [] room room = .ok ⟨tail, 0, chars⟩ ∧ tail.length ≤ room ∧
      (World.defaultsToUtf8 (some encoding) = true → chars = 0) := by
  have hascii : ∀ n, writeAscii m n [] = [] := fun n ↦ by simp [writeAscii]
  cases encoding with
  | text e =>
    cases e with
    | utf8 | utf8Dash =>
      refine ⟨[0], 0, ?_, hroom, fun _ ↦ rfl⟩
      simp [write, utf8Write, deflate, hroom]
    | ascii =>
      refine ⟨[], m.charsWritten, ?_, by simp, by simp [World.defaultsToUtf8]⟩
      simp [write, asciiWrite, hascii]
    | binary =>
      refine ⟨[], m.charsWritten, ?_, by simp, by simp [World.defaultsToUtf8]⟩
      simp [write, binaryWrite, latin1Bytes]
  | base64 =>
    refine ⟨[], m.charsWritten, ?_, by simp, by simp [World.defaultsToUtf8]⟩
    simp [write, base64Write, hascii, base64DecodedSize, decodeDigits]
  | ucs2 =>
    refine ⟨[], m.charsWritten, ?_, by simp, by simp [World.defaultsToUtf8]⟩
    simp [write, ucs2Write]
  | hex =>
    refine ⟨[], m.charsWritten, ?_, by simp, by simp [World.defaultsToUtf8]⟩
    simp [write, hexWrite, hexBytes]

end SpiderNode.Buffer
