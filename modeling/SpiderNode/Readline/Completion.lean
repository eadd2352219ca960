import SpiderNode.Readline.Interface

/-!
# What completions share

When there are several completions, `_tabComplete` inserts what all of them begin with. It is found
by `commonPrefix`, which sorts the completions and compares the first with the last. This is enough
since the order is lexicographic: a text between two others begins with all that the two share
(`isPrefix_of_between`).
-/

namespace SpiderNode.Readline

/-! ## Lexicographic order -/

section

variable {α : Type*} [LT α] [LE α] [Std.IsLinearOrder α] [Std.LawfulOrderLT α] {p s t u : List α}

theorem isPrefix_of_between (hs : p <+: s) (hu : p <+: u) (hst : s ≤ t) (htu : t ≤ u) :
    p <+: t := by
  induction p generalizing s t u with
  | nil => exact List.nil_prefix
  | cons a p ih =>
    obtain ⟨s, rfl⟩ := hs
    obtain ⟨u, rfl⟩ := hu
    rcases t with _ | ⟨b, t⟩
    · exact absurd (List.le_nil.mp hst) (List.cons_ne_nil _ _)
    rw [List.cons_append, List.cons_le_cons_iff] at hst htu
    rcases hst with hab | ⟨rfl, hst⟩
    · rcases htu with hba | ⟨rfl, -⟩
      · exact absurd hba (Std.Asymm.asymm _ _ hab)
      · exact absurd hab (Std.Irrefl.irrefl _)
    · rcases htu with haa | ⟨-, htu⟩
      · exact absurd haa (Std.Irrefl.irrefl _)
      · exact List.cons_prefix_cons.mpr
          ⟨rfl, ih (List.prefix_append p s) (List.prefix_append p u) hst htu⟩

end

/-! ## Two texts -/

variable {p s t : JSString} {strs : List JSString}

theorem commonUnits_isPrefix_left (s t : JSString) : commonUnits s t <+: s := by
  induction s generalizing t with
  | nil => exact List.nil_prefix
  | cons u s ih =>
    rcases t with _ | ⟨v, t⟩
    · exact List.nil_prefix
    · rw [commonUnits]
      split_ifs with huv
      · exact List.cons_prefix_cons.mpr ⟨rfl, ih t⟩
      · exact List.nil_prefix

theorem commonUnits_isPrefix_right (s t : JSString) : commonUnits s t <+: t := by
  induction s generalizing t with
  | nil => exact List.nil_prefix
  | cons u s ih =>
    rcases t with _ | ⟨v, t⟩
    · exact List.nil_prefix
    · rw [commonUnits]
      split_ifs with huv
      · exact List.cons_prefix_cons.mpr ⟨huv, ih t⟩
      · exact List.nil_prefix

/-- What two texts begin with is in their common part. -/
theorem isPrefix_commonUnits (hs : p <+: s) (ht : p <+: t) : p <+: commonUnits s t := by
  induction p generalizing s t with
  | nil => exact List.nil_prefix
  | cons u p ih =>
    obtain ⟨s, rfl⟩ := hs
    obtain ⟨t, rfl⟩ := ht
    rw [List.cons_append, List.cons_append, commonUnits, if_pos rfl]
    exact List.cons_prefix_cons.mpr ⟨rfl, ih (List.prefix_append p s) (List.prefix_append p t)⟩

/-- The loop of `commonPrefix`: the first index where there is a difference ends the common part. -/
theorem commonUnits_eq (min max : JSString) :
    commonUnits min max = min.take
      (((List.range min.length).find? fun i ↦ min[i]? ≠ max[i]?).getD min.length) := by
  induction min generalizing max with
  | nil => rfl
  | cons u min ih =>
    rw [List.length_cons, List.range_succ_eq_map, List.find?_cons]
    rcases max with _ | ⟨v, max⟩
    · simp [commonUnits]
    by_cases huv : u = v
    · rw [commonUnits, if_pos huv, ih, List.find?_map]
      have hsucc : ((fun i ↦ decide ((u :: min)[i]? ≠ (v :: max)[i]?)) ∘ Nat.succ) =
          fun i ↦ decide (min[i]? ≠ max[i]?) := rfl
      rw [hsucc]
      rcases (List.range min.length).find? (fun i ↦ min[i]? ≠ max[i]?) with _ | i
      · simp [huv]
      · simp [huv]
    · simp [commonUnits, huv]

/-! ## All texts -/

/-- A text that comes before all others, and one that comes after them. -/
structure Extremes (strs : List JSString) (least greatest : JSString) : Prop where
  least_mem : least ∈ strs
  greatest_mem : greatest ∈ strs
  least_le : ∀ s ∈ strs, least ≤ s
  le_greatest : ∀ s ∈ strs, s ≤ greatest

/-- **`commonPrefix`** looks at both ends of the sorted texts. -/
theorem exists_extremes (hne : strs ≠ []) :
    ∃ least greatest, Extremes strs least greatest ∧
      commonPrefix strs = commonUnits least greatest := by
  have hsorted : (strs.mergeSort fun s t ↦ s ≤ t).Pairwise (· ≤ ·) :=
    List.pairwise_mergeSort' (· ≤ ·) strs
  have hmem (s : JSString) : s ∈ strs ↔ s ∈ strs.mergeSort fun s t ↦ s ≤ t :=
    List.mem_mergeSort.symm
  have hsort : (strs.mergeSort fun s t ↦ s ≤ t) ≠ [] := by
    rwa [← List.length_pos_iff, List.length_mergeSort, List.length_pos_iff]
  rw [commonPrefix]
  generalize (strs.mergeSort fun s t ↦ s ≤ t) = sorted at hsorted hmem hsort
  refine ⟨sorted.head hsort, sorted.getLast hsort, ⟨?_, ?_, fun s hs ↦ ?_, fun s hs ↦ ?_⟩, ?_⟩
  · exact (hmem _).mpr (List.head_mem hsort)
  · exact (hmem _).mpr (List.getLast_mem hsort)
  · exact hsorted.rel_head ((hmem s).mp hs)
  · exact hsorted.rel_getLast ((hmem s).mp hs)
  · rw [List.headD_eq_head?_getD, List.head?_eq_some_head hsort, List.getLastD_eq_getLast?,
      List.getLast?_eq_some_getLast hsort]
    rfl

namespace Extremes

variable {least greatest : JSString} (h : Extremes strs least greatest)
include h

theorem isPrefix_of_mem (hs : s ∈ strs) : commonUnits least greatest <+: s :=
  isPrefix_of_between (commonUnits_isPrefix_left least greatest)
    (commonUnits_isPrefix_right least greatest) (h.least_le s hs) (h.le_greatest s hs)

theorem isPrefix_of_forall (hp : ∀ s ∈ strs, p <+: s) : p <+: commonUnits least greatest :=
  isPrefix_commonUnits (hp least h.least_mem) (hp greatest h.greatest_mem)

end Extremes

/-- **`commonPrefix` is the longest common prefix**, and is found in the least and the greatest of
the texts. -/
theorem commonPrefix_longest (hne : strs ≠ []) :
    (∀ s ∈ strs, commonPrefix strs <+: s) ∧
      (∀ p : JSString, (commonPrefix strs).length < p.length → ∃ s ∈ strs, ¬p <+: s) ∧
      ∃ least ∈ strs, ∃ greatest ∈ strs, (∀ s ∈ strs, least ≤ s ∧ s ≤ greatest) ∧
        commonPrefix strs = commonUnits least greatest := by
  obtain ⟨least, greatest, h, heq⟩ := exists_extremes hne
  refine ⟨fun s hs ↦ ?_, fun p hlength ↦ ?_, least, h.least_mem, greatest, h.greatest_mem,
    fun s hs ↦ ⟨h.least_le s hs, h.le_greatest s hs⟩, heq⟩
  · rw [heq]
    exact h.isPrefix_of_mem hs
  · by_contra hall
    push Not at hall
    have hp := (h.isPrefix_of_forall hall).length_le
    rw [heq] at hlength
    exact absurd hlength (Nat.not_lt.mpr hp)

/-- One of these texts is a beginning of another. -/
theorem commonPrefix_longest_for :
    commonPrefix [js "format", js "for", js "foreach"] <+: js "for" ∧
      ∃ s ∈ [js "format", js "for", js "foreach"], ¬js "form" <+: s := by
  have h := commonPrefix_longest (List.cons_ne_nil (js "format") [js "for", js "foreach"])
  exact ⟨h.1 _ (List.mem_cons_of_mem _ List.mem_cons_self), js "for", by decide, by decide⟩

/-! ## What is inserted -/

theorem position_of_le {n length : ℕ} (h : n ≤ length) : position n length = n := by
  rw [position, if_neg (by omega), Int.toNat_natCast, Nat.min_eq_left h]

/-- `_tabComplete` completes the word to what all completions begin with, if they begin with the
word. -/
theorem append_slice_commonPrefix {word : JSString} (hne : strs ≠ [])
    (hword : ∀ s ∈ strs, word <+: s) :
    word ++ slice (commonPrefix strs) word.length (commonPrefix strs).length =
      commonPrefix strs := by
  obtain ⟨least, greatest, h, heq⟩ := exists_extremes hne
  obtain ⟨rest, hrest⟩ := h.isPrefix_of_forall hword
  rw [heq, ← hrest]
  have hlength : word.length ≤ (word ++ rest).length := (List.prefix_append word rest).length_le
  rw [slice, position_of_le hlength, position_of_le le_rfl, List.take_length, List.drop_left]

end SpiderNode.Readline
