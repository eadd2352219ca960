import Mathlib.Data.List.DropRight
import Mathlib.Data.List.Infix
import Mathlib.Tactic.Common

/-!
# Recognizing keywords

A keyword is matched letter by letter, without its case, and blanks may stand behind it. No keyword
is the beginning of another one, so a text that has left one of them for good has left them all:
it is `Lost`. What is behind a keyword and no blank loses the text as well.
-/

namespace Keywords

variable {α β : Type*} [DecidableEq α] {f : α → β} {blank : α} {ws : List (List β)} {w : List α}
  {x : List β} {b : α}

/-- The letters of a text without the blanks behind it. -/
def folded (f : α → β) (blank : α) (w : List α) : List β := (w.rdropWhile (· = blank)).map f

/-- No keyword is the beginning of another one. -/
def PrefixFree (ws : List (List β)) : Prop := ∀ x ∈ ws, ∀ y ∈ ws, x <+: y → x = y

instance [DecidableEq β] (ws : List (List β)) : Decidable (PrefixFree ws) :=
  inferInstanceAs (Decidable (∀ x ∈ ws, ∀ y ∈ ws, x <+: y → x = y))

/-- The text is no keyword, and none begins with it. -/
structure Lost (f : α → β) (blank : α) (ws : List (List β)) (w : List α) : Prop where
  not_mem : folded f blank w ∉ ws
  not_prefix : ∀ x ∈ ws, ¬w.map f <+: x

theorem folded_blank (w : List α) : folded f blank (w ++ [blank]) = folded f blank w := by
  rw [folded, List.rdropWhile_concat_pos _ _ _ (by simp), folded]

theorem folded_other (w : List α) (hb : b ≠ blank) :
    folded f blank (w ++ [b]) = (w ++ [b]).map f := by
  rw [folded, List.rdropWhile_concat_neg _ _ _ (by simpa using hb)]

theorem isPrefix_folded (f : α → β) (blank : α) (w : List α) : folded f blank w <+: w.map f :=
  (List.rdropWhile_prefix _ _).map f

/-- A text with which a keyword begins is not yet one. -/
theorem folded_not_mem (hws : PrefixFree ws) (hx : x ∈ ws) (hw : w.map f <+: x)
    (hlt : w.length < x.length) : folded f blank w ∉ ws := by
  intro hmem
  have hpre := (isPrefix_folded f blank w).trans hw
  have heq := hws _ hmem _ hx hpre
  have hle := (isPrefix_folded f blank w).length_le
  rw [heq, List.length_map] at hle
  omega

theorem lost_of_deviates (hw : folded f blank w ∉ ws)
    (hb : ∀ x ∈ ws, ¬(w ++ [b]).map f <+: x) : Lost f blank ws (w ++ [b]) := by
  refine ⟨fun hmem ↦ ?_, hb⟩
  rcases eq_or_ne b blank with rfl | hne
  · rw [folded_blank] at hmem
    exact hw hmem
  · rw [folded_other w hne] at hmem
    exact hb _ hmem (List.prefix_refl _)

theorem Lost.append (h : Lost f blank ws w) (b : α) : Lost f blank ws (w ++ [b]) := by
  refine lost_of_deviates h.not_mem fun x hx hpre ↦ h.not_prefix x hx ?_
  rw [List.map_append] at hpre
  exact (List.prefix_append _ _).trans hpre

/-- Behind a keyword. -/
theorem lost_of_found (hws : PrefixFree ws) (hw : folded f blank w ∈ ws) (hb : b ≠ blank) :
    Lost f blank ws (w ++ [b]) := by
  have hpre : ∀ x ∈ ws, ¬(w ++ [b]).map f <+: x := by
    intro x hx hle
    have hfold := isPrefix_folded f blank w
    have heq := hws _ hw _ hx (hfold.trans
      ((List.map_append ▸ List.prefix_append _ _ : w.map f <+: (w ++ [b]).map f).trans hle))
    have hlen := hle.length_le
    rw [← heq] at hlen
    have hlen' := hfold.length_le
    rw [List.length_map] at hlen hlen'
    rw [List.length_append, List.length_singleton] at hlen
    omega
  refine ⟨fun hmem ↦ ?_, hpre⟩
  rw [folded_other w hb] at hmem
  exact hpre _ hmem (List.prefix_refl _)

/-! ## In the middle of a keyword -/

variable {n : ℕ}

omit [DecidableEq α] in
theorem prefix_of_map_eq_take (hw : w.map f = x.take n) : w.map f <+: x :=
  hw ▸ List.take_prefix _ _

omit [DecidableEq α] in
/-- One letter more. -/
theorem map_append_eq_take (hw : w.map f = x.take n) (hb : x[n]? = some (f b)) :
    (w ++ [b]).map f = x.take (n + 1) := by
  rw [List.map_append, hw, List.take_add_one, hb]
  rfl

/-- The last letter. -/
theorem folded_of_complete (hw : (w ++ [b]).map f = x) (hx : f blank ∉ x) :
    folded f blank (w ++ [b]) = x := by
  have hb : b ≠ blank := by
    rintro rfl
    exact hx (hw ▸ by simp)
  rw [folded_other w hb, hw]

/-- A letter with which none of the keywords goes on that are left. -/
theorem lost_of_mismatch (hws : PrefixFree ws) (hx : x ∈ ws) (hw : w.map f = x.take n)
    (hn : n < x.length) (hb : ∀ y ∈ ws, x.take n <+: y → y[n]? ≠ some (f b)) :
    Lost f blank ws (w ++ [b]) := by
  have hlen : w.length = n := by
    have h := congrArg List.length hw
    rw [List.length_map, List.length_take] at h
    omega
  refine lost_of_deviates (folded_not_mem hws hx (prefix_of_map_eq_take hw) (hlen ▸ hn))
    fun y hy hpre ↦ ?_
  rw [List.map_append] at hpre
  refine hb y hy (hw ▸ (List.prefix_append _ _).trans hpre) ?_
  obtain ⟨t, rfl⟩ := hpre
  simp [hlen]

end Keywords
