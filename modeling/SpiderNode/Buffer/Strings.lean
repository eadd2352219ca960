import SpiderNode.Buffer.Views
import SpiderNode.Text.Characters

/-!
# Buffers made of strings

`createTypedArray` of `lib/buffer.js` makes a buffer of a string in three steps: the array has the
size that `byteLength` gives, `write` fills it, and what `write` returns becomes the `length`. In
UTF-8 the string fills the array to the brim, so that there is no space for a terminator. A string
that ends in `NUL` is nevertheless taken to have been terminated, and loses that character.
-/

namespace SpiderNode.Buffer

open Net (JsError)

/-- `createTypedArray(string, 'utf8')`, with a new `ArrayBuffer` under the name `buffer`. -/
def createTypedArray (h : Heap) (m : Memory) (buffer : ℕ) (s : JSString) :
    Except JsError (View × Memory) :=
  match byteLength s (.text .utf8) with
  | none => .error (.error "invalid array length")
  | some length =>
    -- a new `ArrayBuffer` holds zeros
    let m : Memory := fun buffer' i ↦ if buffer' = buffer then 0 else m buffer' i
    let parent : View := ⟨buffer, 0, length, length, 0⟩
    match parent.write h m s 0 with
    | .error e => .error e
    | .ok (written, m) => .ok ({ parent with length := written.toNat }, m)

/-- The buffer has the length that `byteLength` gives, and its text is the string. -/
def Survives (h : Heap) (m : Memory) (buffer : ℕ) (s : JSString) : Prop :=
  ∃ v m', createTypedArray h m buffer s = .ok (v, m') ∧
    byteLength s (.text .utf8) = some v.length ∧ v.toString m' .utf8 0 v.length = .ok s

variable {s : JSString}

/-! ## The size of an encoding -/

theorem length_utf8Bytes_le (s : JSString) : (utf8Bytes s).length ≤ 4 * s.length := by
  fun_induction utf8Bytes s with
  | case1 => exact Nat.zero_le _
  | case2 => exact Nat.zero_le _
  | case3 u => exact length_codePointBytes_le _
  | case4 u v rest hp ih =>
    have := length_codePointBytes_le (pairCodePoint u v)
    simp only [List.length_append, List.length_cons]
    omega
  | case5 u v rest hp hu ih =>
    simp only [List.length_cons] at ih ⊢
    omega
  | case6 u v rest hp hu ih =>
    have := length_codePointBytes_le u.toNat
    simp only [List.length_append, List.length_cons] at ih ⊢
    omega

theorem length_utf8Bytes_pos (hw : WellFormed s = true) (hne : s ≠ []) :
    0 < (utf8Bytes s).length := by
  fun_induction WellFormed s with
  | case1 => exact absurd rfl hne
  | case2 u =>
    rw [utf8Bytes, if_neg (by simpa using hw)]
    exact length_codePointBytes_pos _
  | case3 u v rest hp ih =>
    have := length_codePointBytes_pos (pairCodePoint u v)
    rw [utf8Bytes, if_pos hp, List.length_append]
    omega
  | case4 u v rest hp ih =>
    rw [Bool.and_eq_true, Bool.not_eq_true'] at hw
    have := length_codePointBytes_pos u.toNat
    rw [utf8Bytes, if_neg hp, hw.1, if_neg Bool.false_ne_true, List.length_append]
    omega

/-! ## The last byte -/

/-- Only `NUL` ends in a byte that is zero. -/
theorem getLast?_codePointBytes (v : ℕ) : (codePointBytes v).getLast? = some 0 ↔ v = 0 := by
  have hcont : UInt8.ofNat (0x80 + v % 0x40) ≠ 0 := by
    intro h
    have := congrArg UInt8.toNat h
    rw [UInt8.toNat_ofNat', UInt8.toNat_zero] at this
    omega
  unfold codePointBytes
  split_ifs with h₁ h₂ h₃
  · rw [List.getLast?_singleton, Option.some_inj, ← UInt8.toNat_inj, UInt8.toNat_ofNat',
      UInt8.toNat_zero]
    omega
  · simp only [List.getLast?_cons_cons, List.getLast?_singleton, Option.some_inj, hcont, false_iff]
    omega
  · simp only [List.getLast?_cons_cons, List.getLast?_singleton, Option.some_inj, hcont, false_iff]
    omega
  · simp only [List.getLast?_cons_cons, List.getLast?_singleton, Option.some_inj, hcont, false_iff]
    omega

theorem getLast?_utf8Bytes (hw : WellFormed s = true) :
    (utf8Bytes s).getLast? = some 0 ↔ s.getLast? = some 0 := by
  fun_induction WellFormed s with
  | case1 => simp
  | case2 u =>
    rw [utf8Bytes, if_neg (by simpa using hw), getLast?_codePointBytes, List.getLast?_singleton,
      Option.some_inj, ← UInt16.toNat_inj, UInt16.toNat_zero]
  | case3 u v rest hp ih =>
    rw [utf8Bytes, if_pos hp]
    rcases rest with _ | ⟨w, rest⟩
    · -- neither a pair nor its second half is `NUL`
      have hv : v ≠ 0 := by
        rintro rfl
        rw [Bool.and_eq_true] at hp
        exact absurd hp.2 (by decide)
      have hpair : pairCodePoint u v ≠ 0 := by
        rw [pairCodePoint]
        omega
      simp [utf8Bytes, getLast?_codePointBytes, hpair, hv]
    · rw [List.getLast?_append_of_ne_nil _ (List.ne_nil_of_length_pos
        (length_utf8Bytes_pos hw (List.cons_ne_nil w rest))), ih hw]
      rfl
  | case4 u v rest hp ih =>
    rw [Bool.and_eq_true, Bool.not_eq_true'] at hw
    rw [utf8Bytes, if_neg hp, hw.1, if_neg Bool.false_ne_true,
      List.getLast?_append_of_ne_nil _ (List.ne_nil_of_length_pos
        (length_utf8Bytes_pos hw.2 (List.cons_ne_nil v rest))), ih hw.2]
    rfl

/-! ## The text of a buffer -/

theorem length_dropNul_le (b : Bytes) : (dropNul b).length ≤ b.length := by
  rw [dropNul]
  split_ifs
  · rw [List.length_dropLast]
    omega
  · exact Nat.le_refl _

theorem dropNul_eq_iff (b : Bytes) : (dropNul b).length = b.length ↔ b.getLast? ≠ some 0 := by
  rw [dropNul]
  split_ifs with h
  · have hpos : 0 < b.length := by
      rcases b with _ | ⟨x, b⟩
      · cases h
      · exact Nat.succ_pos _
    rw [List.length_dropLast]
    exact iff_of_false (by omega) (by simpa using h)
  · exact iff_of_true rfl h

/-- The bytes that were stored. -/
theorem Memory.read_store (m : Memory) (buffer : ℕ) (b tail : Bytes) :
    (m.store buffer 0 (b ++ tail)).read buffer 0 b.length = b := by
  apply List.ext_getElem
  · simp [read]
  · intro k hk hk'
    simp only [read, List.getElem_map, List.getElem_range]
    apply Memory.store_add
    rw [List.getElem?_append_left hk', List.getElem?_eq_getElem]

/-- The buffer holds the encoding, less a final `NUL`. -/
theorem createTypedArray_eq (h : Heap) (m : Memory) (buffer : ℕ) (hw : WellFormed s = true) :
    ∃ v m', createTypedArray h m buffer s = .ok (v, m') ∧
      v = ⟨buffer, 0, (utf8Bytes s).length, (dropNul (utf8Bytes s)).length, 0⟩ ∧
      m'.read buffer 0 (dropNul (utf8Bytes s)).length = dropNul (utf8Bytes s) := by
  have hlen : byteLength s (.text .utf8) = some (utf8Bytes s).length := by
    rw [byteLength, if_pos hw]
  have hcheck : ¬(0 < s.length ∧ (utf8Bytes s).length ≤ 0) := by
    rintro ⟨hpos, hle⟩
    have := length_utf8Bytes_pos hw (List.ne_nil_of_length_pos hpos)
    omega
  obtain ⟨tail, hstored, -⟩ := utf8Write_of_fits h hw (Nat.le_refl _)
  rw [if_neg (Nat.lt_irrefl _)] at hstored
  let zeros : Memory := fun buffer' i ↦ if buffer' = buffer then 0 else m buffer' i
  refine ⟨_, zeros.store buffer 0 _, ?_, rfl, zeros.read_store buffer _ tail⟩
  simp only [createTypedArray, hlen, View.write, View.nativeUtf8Write, Nat.zero_add, Nat.sub_zero,
    if_neg hcheck, Nat.zero_le, if_true, Nat.min_self, hstored, Int.toNat_natCast]
  rfl

/-- A string comes back from its buffer unless it ends in `NUL`. -/
theorem survives_iff (h : Heap) (m : Memory) (buffer : ℕ) (hw : WellFormed s = true)
    (hmax : s.length ≤ maxStringLength) : Survives h m buffer s ↔ s.getLast? ≠ some 0 := by
  obtain ⟨v, m', hv, rfl, hread⟩ := createTypedArray_eq h m buffer hw
  have hlen : byteLength s (.text .utf8) = some (utf8Bytes s).length := by
    rw [byteLength, if_pos hw]
  rw [ne_eq, ← getLast?_utf8Bytes hw, ← ne_eq, ← dropNul_eq_iff]
  constructor
  · rintro ⟨v', m'', hv', hbytes, -⟩
    obtain ⟨rfl, rfl⟩ := Prod.mk.inj (Except.ok.inj (hv.symm.trans hv'))
    rw [hlen] at hbytes
    exact (Option.some_inj.mp hbytes).symm
  · intro heq
    have hdrop : dropNul (utf8Bytes s) = utf8Bytes s := by
      rw [dropNul, if_neg ((dropNul_eq_iff _).mp heq)]
    rw [hdrop] at hv hread
    refine ⟨_, m', hv, hlen, ?_⟩
    have hlt : (utf8Bytes s).length < 2 ^ 31 := by
      have := length_utf8Bytes_le s
      rw [maxStringLength] at hmax
      omega
    simp only [View.toString, View.nativeSlice, Nat.zero_min, Nat.min_self, Nat.add_zero,
      Nat.sub_zero]
    rw [if_neg (by omega), if_neg (by omega), if_neg (by omega), hread, decode,
      utf8Decode_utf8Bytes hw]

/-- A string with characters of one, two and three bytes, and with a `NUL` that is not the last. -/
theorem survives_iff_letters :
    Survives ⟨fun _ ↦ 1, 0, 0, 0⟩ (fun _ _ ↦ 0) 0 [0x61, 0, 0xE9, 0x20AC] :=
  (survives_iff _ _ _ (by decide) (by decide)).mpr (by decide)

/-- The buffer of a single `NUL` is empty. -/
theorem nul_not_survives : ¬Survives ⟨fun _ ↦ 1, 0, 0, 0⟩ (fun _ _ ↦ 0) 0 [0] := by
  rintro ⟨v, m', hv, hlen, -⟩
  have hzero := congrArg (fun r ↦ r.toOption.map fun r ↦ r.1.length) hv
  have hone : some 1 = some v.length := hlen
  exact absurd (hone.trans hzero.symm) (by decide)

end SpiderNode.Buffer
