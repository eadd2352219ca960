import SpiderNode.Buffer.Views

/-!
# Hexadecimal text

`hexWrite` reads two characters at a time with `parseInt` and stores the byte before it reads the
next two, and it throws when `parseInt` gives `NaN`. But `parseInt` takes a single digit in front of
anything else, and white space or a sign in front of a digit, so some pairs pass that are not two
digits; and when a pair does not pass, the bytes of the pairs before it have been stored already.

A call that throws leaves its changes, so a call returns its result or error together with the
memory.
-/

namespace SpiderNode.Buffer

open Net (JsError)

namespace SlowBuffer

/-- The loop of `hexWrite`; the next byte goes to index `i`. -/
def storePairs : JSString → ℕ → Bytes → Except JsError Unit × Bytes
  | a :: b :: rest, i, m =>
    (parseHexByte a b).elim (.error (.error "Invalid hex string"), m) fun byte ↦
      storePairs rest (i + 1) (m.set i byte)
  | _, _, m => (.ok ⟨⟩, m)

/-- `SlowBuffer.prototype.hexWrite` -/
def hexWrite (s : JSString) (offset : ℕ) (m : Bytes) : Except JsError ℕ × Bytes :=
  if s.length % 2 = 1 then (.error (.error "Invalid hex string"), m)
  else
    let (result, m) := storePairs s offset m
    (result.map fun _ ↦ s.length / 2, m)

/-- `SlowBuffer.prototype.hexSlice`; an end of zero counts as not given. -/
def hexSlice (m : Bytes) (start stop : ℕ) : JSString :=
  let stop := if stop = 0 ∨ m.length < stop then m.length else stop
  ((m.take stop).drop start).flatMap toHex

def isHexDigit (u : UInt16) : Bool := (hexDigit u).isSome

/-- A digit in lower case. -/
def lowerDigit (u : UInt16) : UInt16 := if 0x41 ≤ u ∧ u ≤ 0x46 then u + 0x20 else u

/-- The bytes of the pairs in front of the first one that does not pass. -/
def leadingBytes : JSString → Bytes
  | a :: b :: rest => (parseHexByte a b).elim [] fun byte ↦ byte :: leadingBytes rest
  | _ => []

/-- The memory with `b` from index `i` on. -/
def overwrite (m : Bytes) (i : ℕ) (b : Bytes) : Bytes := m.take i ++ b ++ m.drop (i + b.length)

variable {s : JSString} {m m' b : Bytes} {i offset : ℕ} {u v : UInt16} {d e : ℕ}

/-! ## Digits -/

theorem hexDigit_cases (h : hexDigit u = some d) :
    u.toNat = 0x30 + d ∧ d < 10 ∨ u.toNat = 0x37 + d ∧ 10 ≤ d ∧ d < 16 ∨
      u.toNat = 0x57 + d ∧ 10 ≤ d ∧ d < 16 := by
  unfold hexDigit at h
  simp only [UInt16.le_iff_toNat_le] at h
  split_ifs at h with h₁ h₂ h₃
  all_goals
    simp only [Option.some.injEq] at h
    simp at *
    omega

theorem hexDigit_hexUnit (h : d < 16) : hexDigit (hexUnit d) = some d := by
  revert h
  revert d
  decide

theorem hexUnit_of_hexDigit (h : hexDigit u = some d) : hexUnit d = lowerDigit u := by
  have hu : u = .ofNat u.toNat := UInt16.ofNat_toNat.symm
  have hdigit : ∀ d < 10, hexUnit d = lowerDigit (.ofNat (0x30 + d)) := by decide
  have hupper : ∀ d < 16, 10 ≤ d → hexUnit d = lowerDigit (.ofNat (0x37 + d)) := by decide
  have hlower : ∀ d < 16, 10 ≤ d → hexUnit d = lowerDigit (.ofNat (0x57 + d)) := by decide
  rcases hexDigit_cases h with ⟨hn, hd⟩ | ⟨hn, hd, hd'⟩ | ⟨hn, hd, hd'⟩
  · rw [hu, hn, hdigit d hd]
  · rw [hu, hn, hupper d hd' hd]
  · rw [hu, hn, hlower d hd' hd]

/-- Two digits pass, and give the byte they stand for. -/
theorem parseHexByte_of_digits (hu : hexDigit u = some d) (hv : hexDigit v = some e) :
    parseHexByte u v = some (.ofNat (16 * d + e)) := by
  have hspace : isSpace u = false := by
    have hu' := hexDigit_cases hu
    simp only [isSpace, Bool.or_eq_false_iff, Bool.and_eq_false_iff, decide_eq_false_iff_not,
      UInt16.le_iff_toNat_le, beq_eq_false_iff_ne, ne_eq, ← UInt16.toNat_inj]
    simp
    omega
  have hne : ∀ n : UInt16, n.toNat < 0x30 → u ≠ n := by
    rintro n hn rfl
    have := hexDigit_cases hu
    omega
  have hx : ¬(v = 0x78 ∨ v = 0x58) := by
    have := hexDigit_cases hv
    rintro (rfl | rfl)
    all_goals
      simp at this
      omega
  rw [parseHexByte, if_neg (by simp [hspace]), if_neg (hne _ (by decide)),
    if_neg (hne _ (by decide)), if_neg fun h ↦ hx h.2, hu, hv]
  rfl

theorem toHex_ofNat (hd : d < 16) (he : e < 16) :
    toHex (.ofNat (16 * d + e)) = [hexUnit d, hexUnit e] := by
  have hn : (UInt8.ofNat (16 * d + e)).toNat = 16 * d + e := by
    rw [UInt8.toNat_ofNat']
    omega
  rw [toHex, hn, show (16 * d + e) / 16 = d by omega, show (16 * d + e) % 16 = e by omega]

theorem lt_of_hexDigit (h : hexDigit u = some d) : d < 16 := by
  have := hexDigit_cases h
  omega

/-! ## Writing -/

theorem length_overwrite (h : i + b.length ≤ m.length) : (overwrite m i b).length = m.length := by
  simp only [overwrite, List.length_append, List.length_take, List.length_drop]
  omega

@[simp] theorem overwrite_nil : overwrite m i [] = m := by simp [overwrite]

theorem overwrite_set (byte : UInt8) (h : i + (b.length + 1) ≤ m.length) :
    overwrite (m.set i byte) (i + 1) b = overwrite m i (byte :: b) := by
  have htake : (m.set i byte).take (i + 1) = m.take i ++ [byte] := by
    rw [List.take_add_one, List.take_set_of_le (Nat.le_refl i), List.getElem?_set_self (by omega)]
    rfl
  rw [overwrite, overwrite, htake, List.drop_set_of_lt (by omega), List.length_cons,
    show i + 1 + b.length = i + (b.length + 1) by omega, List.append_assoc, List.append_assoc,
    List.append_assoc, List.singleton_append, List.cons_append]

/-- Overwriting changes nothing if the bytes are there already. -/
theorem overwrite_eq_self_iff : overwrite m i b = m ↔ (m.drop i).take b.length = b := by
  have hsplit : m = m.take i ++ ((m.drop i).take b.length ++ m.drop (i + b.length)) := by
    rw [← List.drop_drop, List.take_append_drop, List.take_append_drop]
  rw [overwrite, List.append_assoc]
  constructor
  · intro heq
    have hrest := List.append_cancel_left (heq.trans hsplit)
    exact (List.append_cancel_right hrest).symm
  · intro hb
    conv_rhs => rw [hsplit, hb]

theorem leadingBytes_cons (u v : UInt16) (s : JSString) :
    leadingBytes (u :: v :: s) =
      (parseHexByte u v).elim [] fun byte ↦ byte :: leadingBytes s := rfl

theorem storePairs_cons (u v : UInt16) (s : JSString) (i : ℕ) (m : Bytes) :
    storePairs (u :: v :: s) i m =
      (parseHexByte u v).elim (.error (.error "Invalid hex string"), m) fun byte ↦
        storePairs s (i + 1) (m.set i byte) := rfl

theorem hexBytes_cons (u v : UInt16) (s : JSString) :
    hexBytes (u :: v :: s) =
      (parseHexByte u v).bind fun byte ↦ (hexBytes s).map fun bytes ↦ byte :: bytes := by
  show (parseHexByte u v >>= fun byte ↦ hexBytes s >>= fun bytes ↦ pure (byte :: bytes)) = _
  rcases parseHexByte u v with _ | byte
  · rfl
  · cases hexBytes s <;> rfl

theorem length_leadingBytes_le : (leadingBytes s).length ≤ s.length / 2 := by
  induction s using hexBytes.induct with
  | case1 => exact Nat.zero_le _
  | case2 => exact Nat.zero_le _
  | case3 a b rest ih =>
    rw [leadingBytes_cons]
    rcases parseHexByte a b with _ | byte
    · exact Nat.zero_le _
    · simp only [Option.elim_some, List.length_cons]
      omega

/-- **The loop** stores the bytes of the pairs that pass, and throws where one does not. -/
theorem storePairs_eq (h : i + s.length / 2 ≤ m.length) (heven : s.length % 2 = 0) :
    storePairs s i m =
      (if (hexBytes s).isSome then .ok ⟨⟩ else .error (.error "Invalid hex string"),
        overwrite m i (leadingBytes s)) := by
  induction s using hexBytes.induct generalizing i m with
  | case1 =>
    show (Except.ok (), m) = (Except.ok (), overwrite m i [])
    rw [overwrite_nil]
  | case2 => simp at heven
  | case3 a b rest ih =>
    simp only [List.length_cons] at h heven
    rw [storePairs_cons, leadingBytes_cons, hexBytes_cons]
    rcases parseHexByte a b with _ | byte
    · simp
    · have hlen : i + ((leadingBytes rest).length + 1) ≤ m.length := by
        have := length_leadingBytes_le (s := rest)
        omega
      have hnext := ih (m := m.set i byte) (i := i + 1) (by rw [List.length_set]; omega) (by omega)
      simp only [Option.elim_some, hnext, overwrite_set byte hlen, Option.bind_some,
        Option.isSome_map]

theorem hexWrite_of_odd (h : s.length % 2 = 1) :
    hexWrite s offset m = (.error (.error "Invalid hex string"), m) := if_pos h

theorem hexWrite_of_even (heven : s.length % 2 = 0) (h : offset + s.length / 2 ≤ m.length) :
    hexWrite s offset m =
      (if (hexBytes s).isSome then .ok (s.length / 2) else .error (.error "Invalid hex string"),
        overwrite m offset (leadingBytes s)) := by
  rw [hexWrite, if_neg (by omega), storePairs_eq h heven]
  cases (hexBytes s).isSome <;> rfl

/-! ## Hexadecimal strings -/

/-- Digits in pairs are stored as the bytes they stand for. -/
theorem toHex_leadingBytes (heven : s.length % 2 = 0) (h : ∀ u ∈ s, isHexDigit u = true) :
    (hexBytes s).isSome = true ∧ (leadingBytes s).length = s.length / 2 ∧
      (leadingBytes s).flatMap toHex = s.map lowerDigit := by
  induction s using hexBytes.induct with
  | case1 => exact ⟨rfl, rfl, rfl⟩
  | case2 => simp at heven
  | case3 a b rest ih =>
    simp only [List.length_cons] at heven
    obtain ⟨hsome, hlen, hhex⟩ := ih (by omega) fun u hu ↦ h u (by simp [hu])
    obtain ⟨d, ha⟩ := Option.isSome_iff_exists.mp (h a (by simp))
    obtain ⟨e, hb⟩ := Option.isSome_iff_exists.mp (h b (by simp))
    obtain ⟨bytes, hbytes⟩ := Option.isSome_iff_exists.mp hsome
    rw [hexBytes_cons, leadingBytes_cons, parseHexByte_of_digits ha hb, hbytes]
    refine ⟨rfl, ?_, ?_⟩
    · simp only [Option.elim_some, List.length_cons, hlen]
      omega
    · simp only [Option.elim_some, List.flatMap_cons, hhex,
        toHex_ofNat (lt_of_hexDigit ha) (lt_of_hexDigit hb), hexUnit_of_hexDigit ha,
        hexUnit_of_hexDigit hb, List.map_cons, List.cons_append,
        List.nil_append]

theorem length_flatMap_toHex (b : Bytes) : (b.flatMap toHex).length = 2 * b.length := by
  induction b with
  | nil => rfl
  | cons x b ih =>
    rw [List.flatMap_cons, List.length_append, ih, List.length_cons]
    simp only [toHex, List.length_cons, List.length_nil]
    omega

/-- The text of bytes is read as these bytes. -/
theorem leadingBytes_toHex (b : Bytes) :
    (hexBytes (b.flatMap toHex)).isSome = true ∧ leadingBytes (b.flatMap toHex) = b := by
  induction b with
  | nil => exact ⟨rfl, rfl⟩
  | cons x b ih =>
    obtain ⟨hsome, hb⟩ := ih
    obtain ⟨bytes, hbytes⟩ := Option.isSome_iff_exists.mp hsome
    have hx := x.toNat_lt
    have hpair := parseHexByte_of_digits (hexDigit_hexUnit (show x.toNat / 16 < 16 by omega))
      (hexDigit_hexUnit (show x.toNat % 16 < 16 by omega))
    rw [show 16 * (x.toNat / 16) + x.toNat % 16 = x.toNat by omega, UInt8.ofNat_toNat] at hpair
    rw [List.flatMap_cons, toHex, List.cons_append, List.cons_append, List.nil_append,
      hexBytes_cons, leadingBytes_cons, hpair, hbytes]
    exact ⟨rfl, by rw [Option.elim_some, hb]⟩

/-- What a slice of the written range shows. -/
theorem hexSlice_overwrite (hb : offset + b.length ≤ m.length)
    (hzero : offset + b.length = 0 → m = []) :
    hexSlice (overwrite m offset b) offset (offset + b.length) = b.flatMap toHex := by
  have hlen := length_overwrite hb
  rw [hexSlice, hlen]
  split_ifs with h
  · rcases h with h | h
    · rw [hzero h]
      obtain rfl : b = [] := List.eq_nil_of_length_eq_zero (by omega)
      simp [overwrite]
    · omega
  · congr 1
    rw [overwrite, List.append_assoc, List.take_append, List.drop_append]
    simp only [List.length_take, Nat.min_eq_left (show offset ≤ m.length by omega)]
    rw [List.take_of_length_le (by rw [List.length_take]; omega),
      List.drop_of_length_le (by rw [List.length_take]; omega)]
    simp

/-! ## When the claimed behaviour is there -/

/-- `hexWrite` throws for exactly the strings that are not hexadecimal, leaves the memory alone when
it throws, and has otherwise stored what the string says. -/
structure Exact (s : JSString) (offset : ℕ) (m : Bytes) : Prop where
  throws : (∃ e, (hexWrite s offset m).1 = .error e) ↔
    s.length % 2 = 1 ∨ ∃ u ∈ s, isHexDigit u = false
  unchanged : (∃ e, (hexWrite s offset m).1 = .error e) → (hexWrite s offset m).2 = m
  stored : ∀ n, (hexWrite s offset m).1 = .ok n →
    hexSlice (hexWrite s offset m).2 offset (offset + s.length / 2) = s.map lowerDigit

/-- The string is hexadecimal, and not empty where the slice would have no end; or its length is
odd; or one of its pairs does not pass, and the bytes of those before it are in the memory
already. -/
def Harmless (s : JSString) (offset : ℕ) (m : Bytes) : Prop :=
  s.length % 2 = 1 ∨
    (∀ u ∈ s, isHexDigit u = true) ∧ (s = [] → offset = 0 → m = []) ∨
    hexBytes s = none ∧ (m.drop offset).take (leadingBytes s).length = leadingBytes s

theorem exact_iff (h : offset + s.length / 2 ≤ m.length) :
    Exact s offset m ↔ Harmless s offset m := by
  rcases Nat.mod_two_eq_zero_or_one s.length with heven | hodd
  · have hwrite := hexWrite_of_even heven h
    have hlead : offset + (leadingBytes s).length ≤ m.length := by
      have := length_leadingBytes_le (s := s)
      omega
    by_cases hhex : ∀ u ∈ s, isHexDigit u = true
    · obtain ⟨hsome, hlen, htext⟩ := toHex_leadingBytes heven hhex
      have hno : ¬∃ u ∈ s, isHexDigit u = false := by
        rintro ⟨u, hu, hf⟩
        rw [hhex u hu] at hf
        exact Bool.noConfusion hf
      rw [if_pos hsome] at hwrite
      constructor
      · intro he
        refine .inr (.inl ⟨hhex, fun hs ho ↦ ?_⟩)
        -- The whole memory is shown.
        have hstored := he.stored _ (by rw [hwrite])
        rw [hwrite, hs, ho] at hstored
        have hnil : m.flatMap toHex = [] := by
          have hnone : leadingBytes [] = [] := rfl
          rw [hnone] at hstored
          simpa [hexSlice] using hstored
        have htwo := length_flatMap_toHex m
        rw [hnil, List.length_nil] at htwo
        exact List.eq_nil_of_length_eq_zero (by omega)
      · rintro (hodd | ⟨-, hz⟩ | ⟨hnone, -⟩)
        · omega
        · refine ⟨?_, ?_, ?_⟩
          · rw [hwrite]
            simp [heven, hno]
          · rw [hwrite]
            simp
          · rintro n -
            rw [hwrite, ← hlen, hexSlice_overwrite hlead, htext]
            intro hzero
            exact hz (List.eq_nil_of_length_eq_zero (by omega)) (by omega)
        · rw [hnone] at hsome
          exact Bool.noConfusion hsome
    · have hbad : ∃ u ∈ s, isHexDigit u = false := by simpa using hhex
      rcases hb : hexBytes s with _ | bytes
      · rw [hb, if_neg (by simp)] at hwrite
        rw [Harmless, hb, ← overwrite_eq_self_iff]
        constructor
        · intro he
          have hsame := he.unchanged ⟨_, by rw [hwrite]⟩
          rw [hwrite] at hsame
          exact .inr (.inr ⟨rfl, hsame⟩)
        · rintro (hodd | ⟨hall, -⟩ | ⟨-, hsame⟩)
          · omega
          · exact absurd hall hhex
          · refine ⟨?_, ?_, ?_⟩
            · rw [hwrite]
              simp [hbad]
            · rw [hwrite]
              exact fun _ ↦ hsame
            · rw [hwrite]
              simp
      · rw [hb, if_pos (by rfl)] at hwrite
        constructor
        · intro he
          obtain ⟨e, herr⟩ := he.throws.mpr (.inr hbad)
          rw [hwrite] at herr
          cases herr
        · rintro (hodd | ⟨hall, -⟩ | ⟨hnone, -⟩)
          · omega
          · exact absurd hall hhex
          · rw [hb] at hnone
            cases hnone
  · refine ⟨fun _ ↦ .inl hodd, fun _ ↦ ?_⟩
    have hwrite := @hexWrite_of_odd s m offset hodd
    refine ⟨?_, ?_, ?_⟩
    · rw [hwrite]
      simp [hodd]
    · rw [hwrite]
      exact fun _ ↦ rfl
    · rw [hwrite]
      simp

/-- The text of a whole buffer, written to a buffer of the same length. -/
theorem hexWrite_hexSlice (b : Bytes) (h : m.length = b.length) :
    hexWrite (hexSlice b 0 0) 0 m = (.ok b.length, b) := by
  have htext : hexSlice b 0 0 = b.flatMap toHex := by
    rw [hexSlice, if_pos (.inl rfl), List.take_length, List.drop_zero]
  have hlen := length_flatMap_toHex b
  obtain ⟨hsome, hb⟩ := leadingBytes_toHex b
  rw [htext, hexWrite_of_even (by omega) (by omega), if_pos hsome, hb, hlen,
    Nat.mul_div_cancel_left _ (by omega), overwrite, List.take_zero, List.nil_append,
    List.drop_of_length_le (by omega), List.append_nil]

/-- **`hexWrite` is exact** for the strings it treats as digits, and for those it refuses without
leaving a trace; and what `hexSlice` shows can always be written back. -/
theorem hexWrite_exact_iff (s : JSString) (offset : ℕ) (m : Bytes)
    (h : offset + s.length / 2 ≤ m.length) :
    (Exact s offset m ↔ Harmless s offset m) ∧
      ∀ b m' : Bytes, m'.length = b.length → hexWrite (hexSlice b 0 0) 0 m' = (.ok b.length, b) :=
  ⟨exact_iff h, fun b _ hm ↦ hexWrite_hexSlice b hm⟩

/-- A pair of digits, in either case. -/
theorem hexWrite_exact_pair : Exact (js "aF") 1 [0, 0, 0] :=
  (hexWrite_exact_iff (js "aF") 1 [0, 0, 0] (by decide)).1.mpr (.inr (.inl (by decide)))

/-- `parseInt` stops in front of the second character. -/
theorem half_pair_written : ¬Exact (js "1g") 0 [0] := by
  intro h
  obtain ⟨e, he⟩ := h.throws.mpr (.inr ⟨0x67, by decide, by decide⟩)
  have hok : (hexWrite (js "1g") 0 [0]).1 = .ok 1 := by rfl
  rw [hok] at he
  cases he

end SlowBuffer

end SpiderNode.Buffer
