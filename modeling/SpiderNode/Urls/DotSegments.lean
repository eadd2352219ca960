import SpiderNode.Trees.Walk
import Mathlib.Data.List.Infix

/-!
# Dot segments

How RFC 3986 takes the segments `.` and `..` out of a path (section 5.2.4): from an input buffer to
an output buffer, in which a segment that `..` undoes is looked for. A path that begins with a slash
is a walk in a tree, and `removeDotSegments_text` says that what is left is where the walk from the
root ends, with a slash behind it if the last segment was one of the two.

The texts are over any alphabet with a slash and a dot.
-/

namespace SpiderNode.DotSegments

open Trees

variable {α : Type*} [DecidableEq α] (slash dot : α)

/-! ## The algorithm -/

/-- A text up to its last slash. -/
def upToLast (s : List α) : List α := (s.reverse.dropWhile (· ≠ slash)).reverse

/-- Step 2C removes the last segment and the slash in front of it, if any. -/
def removeLast (output : List α) : List α := (upToLast slash output).dropLast

/-- The loop of step 2. -/
def loop (input output : List α) : List α :=
  match input with
  | [] => output
  | a :: s =>
    if [dot, dot, slash] <+: a :: s then loop (s.drop 2) output
    else if [dot, slash] <+: a :: s then loop (s.drop 1) output
    else if [slash, dot, slash] <+: a :: s then loop (s.drop 1) output
    else if a :: s = [slash, dot] then loop [slash] output
    else if [slash, dot, dot, slash] <+: a :: s then loop (s.drop 2) (removeLast slash output)
    else if a :: s = [slash, dot, dot] then loop [slash] (removeLast slash output)
    else if a :: s = [dot] ∨ a :: s = [dot, dot] then output
    else loop (s.dropWhile (· ≠ slash)) (output ++ a :: s.takeWhile (· ≠ slash))
termination_by input.length
decreasing_by
  · exact Nat.lt_succ_of_le (List.drop_suffix 2 s).length_le
  · exact Nat.lt_succ_of_le (List.drop_suffix 1 s).length_le
  · exact Nat.lt_succ_of_le (List.drop_suffix 1 s).length_le
  · rw [‹a :: s = [slash, dot]›]
    exact Nat.lt_succ_self 1
  · exact Nat.lt_succ_of_le (List.drop_suffix 2 s).length_le
  · rw [‹a :: s = [slash, dot, dot]›]
    exact Nat.lt_succ_of_lt (Nat.lt_succ_self 1)
  · exact Nat.lt_succ_of_le (List.dropWhile_suffix _).length_le

def removeDotSegments (path : List α) : List α := loop slash dot path []

/-- Section 5.2.3: the reference takes the place of the last segment of the base. -/
def merge (base reference : List α) : List α :=
  if reference.head? = some slash then reference else upToLast slash base ++ reference

/-! ## Texts of segments -/

/-- Each segment with a slash in front of it. -/
def text (segments : List (List α)) : List α := segments.flatMap (slash :: ·)

omit [DecidableEq α] in
theorem text_append (l l' : List (List α)) : text slash (l ++ l') = text slash l ++ text slash l' :=
  List.flatMap_append

omit [DecidableEq α] in
theorem text_concat (l : List (List α)) (q : List α) :
    text slash (l ++ [q]) = text slash l ++ slash :: q := by
  rw [text_append, text, text, List.flatMap_singleton]

omit [DecidableEq α] in
theorem text_eq_intercalate {l : List (List α)} (h : l ≠ []) :
    text slash l = slash :: [slash].intercalate l := by
  induction l with
  | nil => exact absurd rfl h
  | cons q l ih =>
    rcases l with _ | ⟨q', l⟩
    · simp [text]
    · rw [List.intercalate_cons_of_ne_nil (List.cons_ne_nil _ _), text, List.flatMap_cons, ← text,
        ih (List.cons_ne_nil _ _)]
      simp

theorem text_splitOn (s : List α) : text slash (s.splitOn slash) = slash :: s := by
  rw [text_eq_intercalate slash (List.splitOn_ne_nil _ _), List.intercalate_splitOn]

variable {slash dot} {s t q r : List α}

theorem upToLast_append (s : List α) (ht : slash ∉ t) :
    upToLast slash (s ++ slash :: t) = s ++ [slash] := by
  have hall : ∀ a ∈ t.reverse, decide (a ≠ slash) = true := fun a ha ↦
    decide_eq_true fun heq ↦ ht (heq ▸ List.mem_reverse.mp ha)
  rw [upToLast, List.reverse_append, List.reverse_cons, List.append_assoc,
    List.dropWhile_append_of_pos hall, List.singleton_append,
    List.dropWhile_cons_of_neg (by simp), List.reverse_cons, List.reverse_reverse]

theorem removeLast_text {place : List (List α)} (h : ∀ q ∈ place, slash ∉ q) :
    removeLast slash (text slash place) = text slash place.dropLast := by
  rcases List.eq_nil_or_concat place with rfl | ⟨place, q, rfl⟩
  · rfl
  · rw [List.concat_eq_append] at h ⊢
    rw [text_concat, removeLast, upToLast_append _ (h q (by simp)), List.dropLast_concat,
      List.dropLast_concat]

/-- The reference takes the place of the last segment. -/
theorem merge_text {base : List (List α)} {last : List α} (hlast : slash ∉ last)
    (hr : r.head? ≠ some slash) :
    merge slash (text slash (base ++ [last])) r = text slash (base ++ r.splitOn slash) := by
  rw [merge, if_neg hr, text_concat, upToLast_append _ hlast, text_append, text_splitOn,
    List.append_assoc]
  rfl

/-! ## What is left -/

/-- The step that a segment stands for. -/
def step (dot : α) (q : List α) : Step (List α) :=
  if q = [dot] then .stay else if q = [dot, dot] then .up else .down q

/-- Behind one of the two segments there is a slash. -/
def trailing (dot : α) (q : List α) : List (List α) :=
  if q = [dot] ∨ q = [dot, dot] then [[]] else []

variable {place : List (List α)}

theorem act_step_dot : (step dot [dot]).net.act place = place := by
  rw [step, if_pos rfl, Step.net, Net.act_one]

theorem act_step_dots : (step dot [dot, dot]).net.act place = place.dropLast := by
  rw [step, if_neg (by simp), if_pos rfl, List.dropLast_eq_take]
  exact List.append_nil _

theorem act_step_name (h : ¬(q = [dot] ∨ q = [dot, dot])) :
    (step dot q).net.act place = place ++ [q] := by
  rw [not_or] at h
  rw [step, if_neg h.1, if_neg h.2]
  show place.take (place.length - 0) ++ [q] = place ++ [q]
  rw [Nat.sub_zero, List.take_length]

theorem notMem_act_step (h : ∀ q ∈ place, slash ∉ q) (hq : slash ∉ q) :
    ∀ q' ∈ (step dot q).net.act place, slash ∉ q' := by
  intro q' hq'
  rcases List.mem_append.mp hq' with hq' | hq'
  · exact h q' (List.mem_of_mem_take hq')
  · rw [step] at hq'
    split_ifs at hq'
    · exact absurd hq' List.not_mem_nil
    · exact absurd hq' List.not_mem_nil
    · rwa [List.mem_singleton.mp hq']

/-- The rest of a text behind a segment. -/
theorem takeWhile_segment (hq : slash ∉ q) (hr : ∀ a ∈ r.head?, a = slash) :
    (q ++ r).takeWhile (· ≠ slash) = q ∧ (q ++ r).dropWhile (· ≠ slash) = r := by
  have hall : ∀ a ∈ q, decide (a ≠ slash) = true := fun a ha ↦
    decide_eq_true fun heq ↦ hq (heq ▸ ha)
  rw [List.takeWhile_append_of_pos hall, List.dropWhile_append_of_pos hall]
  rcases r with _ | ⟨a, r⟩
  · exact ⟨List.append_nil q, rfl⟩
  · obtain rfl := hr a rfl
    rw [List.takeWhile_cons_of_neg (by simp), List.dropWhile_cons_of_neg (by simp)]
    exact ⟨List.append_nil q, rfl⟩

theorem segment_eq (hq : slash ∉ q) (hr : ∀ a ∈ r.head?, a = slash) (ht : slash ∉ t)
    (hs : ∀ a ∈ s.head?, a = slash) (h : q ++ r = t ++ s) : q = t := by
  rw [← (takeWhile_segment hq hr).1, h, (takeWhile_segment ht hs).1]

omit [DecidableEq α] in
theorem not_prefix_slash (hdot : dot ≠ slash) (s : List α) :
    ¬[dot, dot, slash] <+: slash :: s ∧ ¬[dot, slash] <+: slash :: s :=
  ⟨fun h ↦ hdot (List.cons_prefix_cons.mp h).1, fun h ↦ hdot (List.cons_prefix_cons.mp h).1⟩

/-- A segment that is none of the two is moved. -/
theorem loop_name (hdot : dot ≠ slash) (hq : slash ∉ q) (hname : ¬(q = [dot] ∨ q = [dot, dot]))
    (hr : ∀ a ∈ r.head?, a = slash) (out : List α) :
    loop slash dot (slash :: (q ++ r)) out = loop slash dot r (out ++ slash :: q) := by
  obtain ⟨hone, htwo⟩ := not_or.mp hname
  have hmem (l : List α) (hl : ∀ a ∈ l, a = dot) : slash ∉ l := fun h ↦ hdot (hl _ h).symm
  have hne {l s : List α} (hl : ∀ a ∈ l, a = dot) (hs : ∀ a ∈ s.head?, a = slash)
      (h : slash :: (q ++ r) = slash :: (l ++ s)) : q = l :=
    segment_eq hq hr (hmem l hl) hs (List.cons.inj h).2
  have hstay : ¬[slash, dot, slash] <+: slash :: (q ++ r) := by
    rintro ⟨s, hs⟩
    exact hone (hne (l := [dot]) (s := slash :: s) (by simp) (by simp) hs.symm)
  have hup : ¬[slash, dot, dot, slash] <+: slash :: (q ++ r) := by
    rintro ⟨s, hs⟩
    exact htwo (hne (l := [dot, dot]) (s := slash :: s) (by simp) (by simp) hs.symm)
  have hstayLast : slash :: (q ++ r) ≠ [slash, dot] := fun h ↦
    hone (hne (l := [dot]) (s := []) (by simp) (by simp) h)
  have hupLast : slash :: (q ++ r) ≠ [slash, dot, dot] := fun h ↦
    htwo (hne (l := [dot, dot]) (s := []) (by simp) (by simp) h)
  have hdots : ¬(slash :: (q ++ r) = [dot] ∨ slash :: (q ++ r) = [dot, dot]) := by
    rintro (h | h)
    · exact hdot (List.cons.inj h).1.symm
    · exact hdot (List.cons.inj h).1.symm
  rw [loop, if_neg (not_prefix_slash hdot _).1, if_neg (not_prefix_slash hdot _).2, if_neg hstay,
    if_neg hstayLast, if_neg hup, if_neg hupLast, if_neg hdots, (takeWhile_segment hq hr).1,
    (takeWhile_segment hq hr).2]

theorem loop_slash (hdot : dot ≠ slash) (out : List α) :
    loop slash dot [slash] out = out ++ [slash] := by
  have h := loop_name (q := []) (r := []) hdot (by simp) (by simp) (by simp) out
  rw [List.append_nil] at h
  rw [h, loop]

/-- A segment that another one follows. -/
theorem loop_segment (hdot : dot ≠ slash) (hplace : ∀ q ∈ place, slash ∉ q) (hq : slash ∉ q)
    (r : List α) :
    loop slash dot (slash :: (q ++ slash :: r)) (text slash place) =
      loop slash dot (slash :: r) (text slash ((step dot q).net.act place)) := by
  by_cases hdots : q = [dot] ∨ q = [dot, dot]
  · rcases hdots with rfl | rfl
    · rw [act_step_dot]
      show loop slash dot (slash :: dot :: slash :: r) _ = _
      rw [loop, if_neg (not_prefix_slash hdot _).1, if_neg (not_prefix_slash hdot _).2,
        if_pos (by simp)]
      rfl
    · rw [act_step_dots, ← removeLast_text hplace]
      show loop slash dot (slash :: dot :: dot :: slash :: r) _ = _
      rw [loop, if_neg (not_prefix_slash hdot _).1, if_neg (not_prefix_slash hdot _).2,
        if_neg (by simp [hdot.symm]), if_neg (by simp), if_pos (by simp)]
      rfl
  · rw [act_step_name hdots, text_concat]
    exact loop_name hdot hq hdots (by simp) _

/-- The last segment. -/
theorem loop_last (hdot : dot ≠ slash) (hplace : ∀ q ∈ place, slash ∉ q) (hq : slash ∉ q) :
    loop slash dot (slash :: q) (text slash place) =
      text slash ((step dot q).net.act place ++ trailing dot q) := by
  rw [trailing]
  split_ifs with hdots
  · rw [text_concat]
    rcases hdots with rfl | rfl
    · rw [act_step_dot, loop, if_neg (not_prefix_slash hdot _).1,
        if_neg (not_prefix_slash hdot _).2, if_neg (by simp), if_pos rfl, loop_slash hdot]
    · rw [act_step_dots, ← removeLast_text hplace, loop, if_neg (not_prefix_slash hdot _).1,
        if_neg (not_prefix_slash hdot _).2, if_neg (by simp [hdot.symm]), if_neg (by simp),
        if_neg (by simp), if_pos rfl, loop_slash hdot]
  · rw [act_step_name hdots, List.append_nil, text_concat]
    have h := loop_name (r := []) hdot hq hdots (by simp) (text slash place)
    rw [List.append_nil] at h
    rw [h, loop]

theorem loop_text (hdot : dot ≠ slash) {l : List (List α)} (hl : ∀ q ∈ l, slash ∉ q)
    (hplace : ∀ q ∈ place, slash ∉ q) (hq : slash ∉ q) :
    loop slash dot (text slash (l ++ [q])) (text slash place) =
      text slash ((net ((l ++ [q]).map (step dot))).act place ++ trailing dot q) := by
  induction l generalizing place with
  | nil =>
    have h := loop_last hdot hplace hq
    simpa [text, net] using h
  | cons p l ih =>
    obtain ⟨hp, hl⟩ := List.forall_mem_cons.mp hl
    have hne : l ++ [q] ≠ [] := by simp
    have htext : text slash (l ++ [q]) = slash :: [slash].intercalate (l ++ [q]) :=
      text_eq_intercalate slash hne
    rw [List.cons_append, List.map_cons, net_cons, Net.act_mul, ← ih hl (notMem_act_step hplace hp),
      htext, ← loop_segment hdot hplace hp, ← htext]
    rfl

/-- **What is left of a path** that begins with a slash: the place where its walk from the root
ends. -/
theorem removeDotSegments_text (hdot : dot ≠ slash) {l : List (List α)} (hl : ∀ q ∈ l, slash ∉ q)
    (hq : slash ∉ q) :
    removeDotSegments slash dot (text slash (l ++ [q])) =
      text slash ((net ((l ++ [q]).map (step dot))).downs ++ trailing dot q) := by
  rw [← Net.act_nil]
  have hplace : ∀ q ∈ ([] : List (List α)), slash ∉ q := by simp
  exact loop_text hdot hl hplace hq

end SpiderNode.DotSegments
