import SpiderNode.Text.Characters
import Mathlib.Data.List.GetD

/-!
# The string decoder

`lib/string_decoder.js` decodes a sequence of buffers where a character may begin in one buffer and
end in a later one. It looks at the last three bytes of a buffer for the first byte of a character
that is not complete, and keeps that part in `charBuffer` until the other bytes arrive.

Buffers are the bytes they denote. What `toString` makes of them under an encoding other than UTF-8
is a parameter, since `write` passes it on; under UTF-8 it is `utf8Decode`.

## Why three bytes are enough

A first byte announces at most four bytes, so it is one of the last three if the character is not
complete. If a byte announces no more bytes than there are from it to the end, then its character is
complete (`leadLength_le`); so the scan stops at the right byte and only there.
-/

namespace SpiderNode

structure StringDecoder where
  encoding : JSString
  charBuffer : Bytes
  charReceived : ℕ
  charLength : ℕ
  deriving DecidableEq, Repr

namespace StringDecoder

/-- No other letters become those of `utf8`. -/
def toLowerCase (s : JSString) : JSString :=
  s.map fun u ↦ if 0x41 ≤ u ∧ u ≤ 0x5A then u + 0x20 else u

/-- `(encoding || 'utf8').toLowerCase().replace(/[-_]/, '')` -/
def normalize (encoding : Option JSString) : JSString :=
  let name := match encoding with
    | none | some [] => js "utf8"
    | some name => name
  (toLowerCase name).eraseP fun u ↦ u = 0x2D ∨ u = 0x5F

def create (encoding : Option JSString) : StringDecoder :=
  ⟨normalize encoding, List.replicate 4 0, 0, 0⟩

/-- `copy` of the whole source to a position of the target, as far as it has room. -/
def copy (target : Bytes) (targetStart : ℕ) (source : Bytes) : Bytes :=
  let n := min source.length (target.length - targetStart)
  target.take targetStart ++ source.take n ++ target.drop (targetStart + n)

/-- The length that a byte at distance `i` from the end announces, if it does not end there. -/
def announced (i : ℕ) (c : UInt8) : ℕ :=
  if i = 1 ∧ c.toNat >>> 5 = 0x06 then 2
  else if i ≤ 2 ∧ c.toNat >>> 4 = 0x0E then 3
  else if i ≤ 3 ∧ c.toNat >>> 3 = 0x1E then 4
  else 0

/-- `buffer[buffer.length - i]` -/
def fromEnd (buffer : Bytes) (i : ℕ) : UInt8 := buffer.getD (buffer.length - i) 0

/-- The loop over the last bytes, with the final values of `i` and `charLength`. -/
def scan (buffer : Bytes) : ℕ → ℕ × ℕ
  | 0 => (0, 0)
  | i + 1 =>
    let n := announced (i + 1) (fromEnd buffer (i + 1))
    if n = 0 then scan buffer i else (i + 1, n)

variable (d : StringDecoder)

/-- `write`, from where no character is pending. -/
def writeRest (charStr : JSString) (buffer : Bytes) : Option (JSString × StringDecoder) :=
  let (i, charLength) := scan buffer (if 3 ≤ buffer.length then 3 else buffer.length)
  if charLength = 0 then (utf8Decode buffer).map fun s ↦ (charStr ++ s, d)
  else
    let d := { d with
      charLength := charLength
      charBuffer := copy d.charBuffer 0 (buffer.drop (buffer.length - i))
      charReceived := i }
    if 0 < buffer.length - i then
      (utf8Decode (buffer.take (buffer.length - i))).map fun s ↦ (charStr ++ s, d)
    else some (charStr, d)

variable (toString : JSString → Bytes → Option JSString)

/-- `write`; `none` if it throws. -/
def write (buffer : Bytes) : Option (JSString × StringDecoder) :=
  if d.encoding ≠ js "utf8" then (toString d.encoding buffer).map fun s ↦ (s, d)
  else if d.charLength ≠ 0 then
    let i := if d.charLength - d.charReceived ≤ buffer.length then d.charLength - d.charReceived
      else buffer.length
    let d := { d with
      charBuffer := copy d.charBuffer d.charReceived (buffer.take i)
      charReceived := d.charReceived + i }
    if d.charReceived < d.charLength then some ([], d)
    else
      (utf8Decode (d.charBuffer.take d.charLength)).bind fun charStr ↦
        let d := { d with charReceived := 0, charLength := 0 }
        if i = buffer.length then some (charStr, d) else d.writeRest charStr (buffer.drop i)
  else d.writeRest [] buffer

/-- A call of `write` for each buffer, with all that they return. -/
def writes : StringDecoder → List Bytes → Option (JSString × StringDecoder)
  | d, [] => some ([], d)
  | d, buffer :: buffers =>
    (d.write toString buffer).bind fun (s, d) ↦ (writes d buffers).map fun (t, d) ↦ (s ++ t, d)

/-- The bytes of the character that is not complete. -/
def pending : Bytes := d.charBuffer.take d.charReceived

/-! ## The scan -/

variable {b b' c q t x r : Bytes} {s u : JSString} {i j k : ℕ}

theorem announced_eq {a : UInt8} (hi : 0 < i) (hi' : i ≤ 3) :
    announced i a = if i < leadLength a then leadLength a else 0 := by
  have ha := a.toNat_lt
  simp only [announced, leadLength, Nat.shiftRight_eq_div_pow]
  split_ifs <;> omega

theorem fromEnd_append_left (q : Bytes) (h : j ≤ t.length) :
    fromEnd (q ++ t) j = fromEnd t j := by
  rw [fromEnd, fromEnd, List.length_append, List.getD_append_right _ _ _ _ (by omega)]
  congr 1
  omega

theorem fromEnd_append_right (t : Bytes) (h : t.length < j) (h' : j ≤ q.length + t.length) :
    fromEnd (q ++ t) j = fromEnd q (j - t.length) := by
  rw [fromEnd, fromEnd, List.length_append, List.getD_append _ _ _ _ (by omega)]
  congr 1
  omega

/-- In whole characters, each byte is followed by what it announces. -/
theorem leadLength_le (h : IsText q s) (hj : 0 < j) (hj' : j ≤ q.length) :
    leadLength (fromEnd q j) ≤ j := by
  induction h with
  | nil => exact absurd hj' (Nat.not_le.mpr hj)
  | @cons c b u s hc hb ih =>
    rcases Nat.lt_or_ge b.length j with hlt | hge
    · rw [List.length_append] at hj'
      rw [fromEnd_append_right b hlt hj']
      obtain ⟨a, l, rfl, hlead, htail⟩ := hc.exists_cons
      by_cases hfirst : j - b.length = (a :: l).length
      · have hhead : fromEnd (a :: l) (j - b.length) = a := by
          rw [fromEnd, hfirst, Nat.sub_self]
          rfl
        rw [hhead, hlead, ← hfirst]
        exact Nat.sub_le ..
      · have hmem : fromEnd (a :: l) (j - b.length) ∈ l := by
          obtain ⟨k, hk⟩ : ∃ k, (a :: l).length - (j - b.length) = k + 1 :=
            Nat.exists_eq_succ_of_ne_zero (by omega)
          have hlt : k < l.length := by
            rw [List.length_cons] at hk
            omega
          rw [fromEnd, hk, List.getD_cons_succ, List.getD_eq_getElem _ _ hlt]
          exact List.getElem_mem hlt
        rw [htail _ hmem]
        exact Nat.zero_le _
    · rw [fromEnd_append_left c hge]
      exact ih hge

theorem scan_of_text (hx : IsText x s) (hi : i ≤ 3) (hi' : i ≤ x.length) : scan x i = (0, 0) := by
  induction i with
  | zero => rfl
  | succ i ih =>
    have hn : announced (i + 1) (fromEnd x (i + 1)) = 0 := by
      rw [announced_eq (Nat.succ_pos i) hi, if_neg]
      exact Nat.not_lt.mpr (leadLength_le hx (Nat.succ_pos i) hi')
    rw [scan, hn, if_pos rfl]
    exact ih (by omega) (by omega)

/-- The scan stops at the first byte of a character that is not complete. -/
theorem scan_of_append {a : UInt8} {l : Bytes} (hq : IsText q s)
    (hlt : (a :: l).length < leadLength a) (hi : i ≤ 3) (hi' : i ≤ q.length + (a :: l).length)
    (hle : (a :: l).length ≤ i) : scan (q ++ a :: l) i = ((a :: l).length, leadLength a) := by
  induction i with
  | zero => exact absurd hle (by simp)
  | succ i ih =>
    rw [scan, announced_eq (Nat.succ_pos i) hi]
    by_cases heq : (a :: l).length = i + 1
    · have hhead : fromEnd (q ++ a :: l) (i + 1) = a := by
        rw [← heq, fromEnd_append_left q (Nat.le_refl _), fromEnd, Nat.sub_self]
        rfl
      have hlt' : i + 1 < leadLength a := heq ▸ hlt
      rw [hhead, if_pos hlt', heq]
      exact if_neg (by omega)
    · have hbefore : leadLength (fromEnd (q ++ a :: l) (i + 1)) ≤ i + 1 := by
        rw [fromEnd_append_right _ (by omega) hi']
        have hj : i + 1 - (a :: l).length ≤ q.length := by omega
        exact Nat.le_trans (leadLength_le hq (by omega) hj) (Nat.sub_le ..)
      rw [if_neg (Nat.not_lt.mpr hbefore), if_pos rfl]
      exact ih (by omega) (by omega) (by omega)

/-! ## Cutting text -/

/-- The first part of a character that is not complete, with its length; or nothing. -/
def Incomplete (t : Bytes) (n : ℕ) : Prop :=
  t = [] ∧ n = 0 ∨ ∃ a l, t = a :: l ∧ n = leadLength a ∧ t.length < n

/-- The beginning of a text consists of whole characters and a part of the next one. -/
theorem exists_incomplete (h : IsText (x ++ r) s) :
    ∃ q t u n, x = q ++ t ∧ IsText q u ∧ Incomplete t n := by
  generalize hb : x ++ r = b at h
  induction h generalizing x with
  | nil =>
    obtain ⟨rfl, rfl⟩ := List.append_eq_nil_iff.mp hb
    exact ⟨[], [], [], 0, rfl, .nil, .inl ⟨rfl, rfl⟩⟩
  | @cons c b u s hc _ ih =>
    rcases List.append_eq_append_iff.mp hb with ⟨c', rfl, hr⟩ | ⟨x', rfl, hb'⟩
    · -- The cut lies in the first character, or behind it.
      rcases x with _ | ⟨a, l⟩
      · exact ⟨[], [], [], 0, rfl, .nil, .inl ⟨rfl, rfl⟩⟩
      · obtain ⟨a', l', heq, hlead, -⟩ := hc.exists_cons
        obtain rfl : a = a' := (List.cons.inj heq).1
        rcases c' with _ | ⟨y, c'⟩
        · rw [List.append_nil] at hc
          exact ⟨a :: l, [], u, 0, by rw [List.append_nil], hc.isText, .inl ⟨rfl, rfl⟩⟩
        · refine ⟨[], a :: l, [], _, rfl, .nil, .inr ⟨a, l, rfl, rfl, ?_⟩⟩
          rw [hlead, List.length_append]
          simp
    · obtain ⟨q, t, u', n, rfl, hq, ht⟩ := ih hb'.symm
      exact ⟨c ++ q, t, u ++ u', n, by rw [List.append_assoc], .cons hc hq, ht⟩

/-! ## The decoder -/

theorem length_copy {target source : Bytes} {k : ℕ} (h : k + source.length ≤ target.length) :
    (copy target k source).length = target.length := by
  simp only [copy, List.length_append, List.length_take, List.length_drop]
  omega

theorem take_copy {target source : Bytes} {k : ℕ} (h : k + source.length ≤ target.length) :
    (copy target k source).take (k + source.length) = target.take k ++ source := by
  have hn : min source.length (target.length - k) = source.length := by omega
  have hk : (target.take k ++ source).length = k + source.length := by
    rw [List.length_append, List.length_take]
    omega
  rw [copy, hn, List.take_length, ← hk]
  exact List.take_left' rfl

theorem leadLength_le_four (a : UInt8) : leadLength a ≤ 4 := by
  rw [leadLength]
  split_ifs <;> decide

/-- The decoder has got the first part `t` of a character. -/
structure Sound (d : StringDecoder) (t : Bytes) : Prop where
  encoding : d.encoding = js "utf8"
  room : d.charBuffer.length = 4
  pending_eq : d.pending = t
  received : d.charReceived = t.length
  incomplete : Incomplete t d.charLength

variable {d} {charStr : JSString}

theorem Sound.writeRest (hd : d.Sound []) (h : IsText (x ++ r) s) (charStr : JSString) :
    ∃ out d' t q, d.writeRest charStr x = some (charStr ++ out, d') ∧ d'.Sound t ∧ x = q ++ t ∧
      IsText q out := by
  obtain ⟨q, t, u, n, rfl, hq, ht⟩ := exists_incomplete h
  rw [StringDecoder.writeRest]
  rcases ht with ⟨rfl, -⟩ | ⟨a, l, rfl, rfl, hlt⟩
  -- no character is cut
  · have hscan :
        scan (q ++ []) (if 3 ≤ (q ++ []).length then 3 else (q ++ []).length) = (0, 0) := by
      rw [List.append_nil]
      exact scan_of_text hq (by split_ifs <;> omega) (by split_ifs <;> omega)
    rw [hscan, List.append_nil]
    dsimp only
    rw [if_pos rfl, hq.utf8Decode_eq]
    exact ⟨u, d, [], q, rfl, hd, (List.append_nil q).symm, hq⟩
  -- the bytes of the last character are put into the buffer
  · have hfour := leadLength_le_four a
    have hlen : (q ++ a :: l).length = q.length + (a :: l).length := List.length_append
    have hscan : scan (q ++ a :: l) (if 3 ≤ (q ++ a :: l).length then 3 else (q ++ a :: l).length) =
        ((a :: l).length, leadLength a) := by
      apply scan_of_append hq hlt <;> split_ifs <;> omega
    have hsub : (q ++ a :: l).length - (a :: l).length = q.length := by omega
    rw [hscan]
    dsimp only
    rw [if_neg (by omega), hsub, List.drop_left, List.take_left]
    have hroom : 0 + (a :: l).length ≤ d.charBuffer.length := by
      rw [hd.room]
      omega
    have hsound : Sound ⟨d.encoding, copy d.charBuffer 0 (a :: l), (a :: l).length, leadLength a⟩
        (a :: l) := by
      refine ⟨hd.encoding, (length_copy hroom).trans hd.room, ?_, rfl, .inr ⟨a, l, rfl, rfl, hlt⟩⟩
      simpa [pending] using take_copy hroom
    split_ifs with hpos
    · rw [hq.utf8Decode_eq]
      exact ⟨u, _, _, q, rfl, hsound, rfl, hq⟩
    · obtain rfl : q = [] := List.eq_nil_of_length_eq_zero (by omega)
      exact ⟨[], _, _, [], by rw [List.append_nil], hsound, rfl, .nil⟩

/-- The next bytes of the character are put behind those that have been received. -/
theorem Sound.take_copy (hd : d.Sound t) (hi : t.length + i ≤ 4) (hx : i ≤ x.length) :
    (copy d.charBuffer t.length (x.take i)).length = 4 ∧
      (copy d.charBuffer t.length (x.take i)).take (t.length + i) = t ++ x.take i := by
  have hlen : (x.take i).length = i := List.length_take_of_le hx
  have hroom : t.length + (x.take i).length ≤ d.charBuffer.length := by
    rw [hlen, hd.room]
    exact hi
  have htake : d.charBuffer.take t.length = t := by
    rw [← hd.received]
    exact hd.pending_eq
  refine ⟨(length_copy hroom).trans hd.room, ?_⟩
  have := StringDecoder.take_copy hroom
  rwa [hlen, htake] at this

/-- A call of `write` returns the characters that are complete, and keeps the rest. -/
theorem Sound.write (hd : d.Sound t) (h : IsText (t ++ (x ++ r)) s) :
    ∃ out d' t' q, d.write toString x = some (out, d') ∧ d'.Sound t' ∧ t ++ x = q ++ t' ∧
      IsText q out := by
  rw [StringDecoder.write, if_neg (not_not.mpr hd.encoding)]
  rcases hd.incomplete with ⟨rfl, hn⟩ | ⟨a, l, rfl, hn, hlt⟩
  · rw [if_neg (not_not.mpr hn)]
    exact hd.writeRest (x := x) h []
  · have hfour := leadLength_le_four a
    rw [if_pos (by omega), hd.received]
    dsimp only
    obtain ⟨m, hm⟩ : ∃ m, d.charLength - (a :: l).length = m := ⟨_, rfl⟩
    rw [hm]
    by_cases hle : m ≤ x.length
    · -- The character is complete.
      have hsum : (a :: l).length + m = d.charLength := by omega
      obtain ⟨hlen, htake⟩ := hd.take_copy (by omega) hle
      rw [hsum] at htake
      rw [if_pos hle, hsum, if_neg (Nat.lt_irrefl _), htake]
      have hsound : Sound ⟨d.encoding, copy d.charBuffer (a :: l).length (x.take m), 0, 0⟩ [] :=
        ⟨hd.encoding, hlen, rfl, rfl, .inl ⟨rfl, rfl⟩⟩
      have hcut : (a :: l) ++ (x ++ r) = ((a :: l) ++ x.take m) ++ (x.drop m ++ r) := by
        rw [List.append_assoc, ← List.append_assoc (x.take m), List.take_append_drop]
      -- the first byte says how long the character is
      obtain ⟨u, hu⟩ : ∃ u, IsCharacter ((a :: l) ++ x.take m) u := by
        obtain ⟨c, u, r', hu, hc, hlead⟩ := IsText.exists_character (b := l ++ (x ++ r)) h
        have hlen' : ((a :: l) ++ x.take m).length = c.length := by
          rw [List.length_append, List.length_take_of_le hle, hsum, hlead, hn]
        have hc' : ((a :: l) ++ x.take m) ++ (x.drop m ++ r) = c ++ r' := hcut.symm.trans hc
        rw [(List.append_inj hc' hlen').1]
        exact ⟨u, hu⟩
      obtain ⟨s', hs', -⟩ := hu.isText.cancel (hcut ▸ h)
      rw [hu.utf8Decode_eq]
      dsimp only [Option.bind_some]
      split_ifs with hall
      · refine ⟨u, _, [], (a :: l) ++ x, rfl, hsound, (List.append_nil _).symm, ?_⟩
        rw [hall, List.take_length] at hu
        exact hu.isText
      · obtain ⟨out, d', t, q, hwrite, ht, heq, hq⟩ := hsound.writeRest hs' u
        refine ⟨u ++ out, d', t, _, hwrite, ht, ?_, hu.isText.append hq⟩
        rw [List.append_assoc, ← heq, List.append_assoc, List.take_append_drop]
    -- the whole chunk lies within the character
    · obtain ⟨hlen, htake⟩ := hd.take_copy (x := x) (i := x.length) (by omega) (Nat.le_refl _)
      rw [if_neg hle, if_pos (by omega)]
      rw [List.take_length] at htake hlen ⊢
      refine ⟨[], _, (a :: l) ++ x, [], rfl, ⟨hd.encoding, hlen, htake, ?_, ?_⟩, rfl, .nil⟩
      · rw [List.length_append]
      · refine .inr ⟨a, l ++ x, rfl, hn, ?_⟩
        rw [List.length_append]
        change _ < d.charLength
        omega

theorem Sound.writes {chunks : List Bytes} (hd : d.Sound t)
    (h : IsText (t ++ (chunks.flatten ++ r)) s) :
    ∃ out d' t' q, d.writes toString chunks = some (out, d') ∧ d'.Sound t' ∧
      t ++ chunks.flatten = q ++ t' ∧ IsText q out := by
  induction chunks generalizing d t s with
  | nil => exact ⟨[], d, t, [], rfl, hd, List.append_nil t, .nil⟩
  | cons x chunks ih =>
    rw [List.flatten_cons, List.append_assoc] at h
    obtain ⟨out, d', t', q, hwrite, hd', heq, hq⟩ := hd.write toString h
    have hrest : t ++ (x ++ (chunks.flatten ++ r)) = q ++ (t' ++ (chunks.flatten ++ r)) := by
      rw [← List.append_assoc, heq, List.append_assoc]
    obtain ⟨s', hs', -⟩ := hq.cancel (hrest ▸ h)
    obtain ⟨out', d'', t'', q', hwrites, hd'', heq', hq'⟩ := ih hd' hs'
    refine ⟨out ++ out', d'', t'', q ++ q', ?_, hd'', ?_, hq.append hq'⟩
    · rw [StringDecoder.writes, hwrite, Option.bind_some]
      dsimp only
      rw [hwrites]
      rfl
    · rw [List.flatten_cons, ← List.append_assoc, heq, List.append_assoc, heq', List.append_assoc]

theorem sound_create {encoding : Option JSString} (h : normalize encoding = js "utf8") :
    (create encoding).Sound [] := ⟨h, rfl, rfl, rfl, .inl ⟨rfl, rfl⟩⟩

/-- What `write` returns for the parts of a text comes to the text, however it is cut. After each
call the decoder holds the bytes of the last character, if it is not complete, and nothing else. -/
theorem writes_chunks {encoding : Option JSString} {chunks : List Bytes} {rest : Bytes}
    (henc : normalize encoding = js "utf8") (h : utf8Decode (chunks.flatten ++ rest) = some s) :
    ∃ out d, (create encoding).writes toString chunks = some (out, d) ∧
      (rest = [] → out = s) ∧
      (d.charReceived < d.charLength ∧ d.charLength ≤ 4 ∨
        d.charReceived = 0 ∧ d.charLength = 0) ∧
      d.pending.length = d.charReceived ∧
      (∃ q, chunks.flatten = q ++ d.pending ∧ utf8Decode q = some out) ∧
      (d.pending ≠ [] → ∃ c u after, IsCharacter c u ∧ d.pending ++ rest = c ++ after ∧
        d.charLength = c.length) := by
  have hs := isText_of_utf8Decode h
  obtain ⟨out, d, t, q, hwrites, hd, heq, hq⟩ :=
    (sound_create henc).writes toString (r := rest) hs
  obtain ⟨s', hs', rfl⟩ : ∃ s', IsText (t ++ rest) s' ∧ s = out ++ s' := by
    apply hq.cancel
    rw [← List.append_assoc, ← heq]
    exact hs
  obtain rfl := hd.pending_eq
  refine ⟨out, d, hwrites, ?_, ?_, hd.received.symm, ⟨q, heq, hq.utf8Decode_eq⟩, ?_⟩
  · rintro rfl
    rw [List.append_nil] at hs'
    rcases hd.incomplete with ⟨hnil, -⟩ | ⟨a, l, hcons, hn, hlt⟩
    · rw [hnil] at hs'
      obtain rfl : s' = [] := by simpa [utf8Decode] using hs'.utf8Decode_eq.symm
      exact (List.append_nil out).symm
    · -- Nothing follows the last character, so it is complete.
      rw [hcons] at hs' hlt
      obtain ⟨c, u, r, -, hc, hlead⟩ := hs'.exists_character
      have hle : c.length ≤ (a :: l).length := by
        rw [hc, List.length_append]
        exact Nat.le_add_right ..
      omega
  · rcases hd.incomplete with ⟨hnil, hn⟩ | ⟨a, l, -, hn, hlt⟩
    · exact .inr ⟨by rw [hd.received, hnil]; rfl, hn⟩
    · have hfour := leadLength_le_four a
      exact .inl ⟨by rwa [hd.received], by rwa [hn]⟩
  · intro hne
    rcases hd.incomplete with ⟨hnil, -⟩ | ⟨a, l, hcons, hn, hlt⟩
    · exact absurd hnil hne
    · rw [hcons] at hs' ⊢
      obtain ⟨c, u, after, hu, hc, hlead⟩ := IsText.exists_character (b := l ++ rest) hs'
      exact ⟨c, u, after, hu, hc, hn.trans hlead.symm⟩

/-- A character of three bytes and one of four, of which the last is still to come. -/
theorem writes_chunks_cut :
    utf8Decode ([[0xE2], [], [0x82, 0xAC, 0xF0], [0x9F, 0x98]].flatten ++ [0x80]) =
        some [0x20AC, 0xD83D, 0xDE00] ∧
      ∃ out d, (create (some (js "UTF-8"))).writes (fun _ _ ↦ none)
          [[0xE2], [], [0x82, 0xAC, 0xF0], [0x9F, 0x98]] = some (out, d) ∧
        ([0x80] = ([] : Bytes) → out = [0x20AC, 0xD83D, 0xDE00]) ∧
        (d.charReceived < d.charLength ∧ d.charLength ≤ 4 ∨
          d.charReceived = 0 ∧ d.charLength = 0) ∧
        d.pending.length = d.charReceived ∧
        (∃ q, [[0xE2], [], [0x82, 0xAC, 0xF0], [0x9F, 0x98]].flatten = q ++ d.pending ∧
          utf8Decode q = some out) ∧
        (d.pending ≠ [] → ∃ c u after, IsCharacter c u ∧ d.pending ++ [0x80] = c ++ after ∧
          d.charLength = c.length) := by
  have h : utf8Decode ([[0xE2], [], [0x82, 0xAC, 0xF0], [0x9F, 0x98]].flatten ++ [0x80]) =
      some [0x20AC, 0xD83D, 0xDE00] := by decide
  exact ⟨h, writes_chunks (fun _ _ ↦ none) (by decide) h⟩

end StringDecoder

end SpiderNode
