import SpiderNode.Links.Ring

/-!
# Doubly linked chains

A chain is a list that ends with null in both directions: `next` leads from the first node, which a
variable refers to, through all of them. A node is put in front, and taken out anywhere with
`Links.remove`; a node without links is in no chain.

As for rings, `Doubly` carries the proofs: a node that is taken out concerns its neighbours only.
-/

open Function (update)

namespace Links

section Paths

variable {α : Type*} {h h' : Links α} {x y : α} {o : Option α} {l : List α}

/-- From a pointer on, `next` leads through the nodes of a list to null. -/
def Follows (h : Links α) : Option α → List α → Prop
  | o, [] => o = none
  | o, x :: l => o = some x ∧ Follows h (h.next x) l

/-- The list whose first node is `head` has the elements `l`, each once. -/
structure Chain (h : Links α) (head : Option α) (l : List α) : Prop where
  nodup : l.Nodup
  path : h.Follows head l
  prev_head : ∀ x, head = some x → h.prev x = none

/-- The node has no links. -/
def Free (h : Links α) (x : α) : Prop := h.next x = none ∧ h.prev x = none

theorem Follows.eq_head? (hf : h.Follows o l) : o = l.head? := by
  match l, hf with
  | [], hf => exact hf
  | _ :: _, hf => exact hf.1

theorem Follows.congr (hf : h.Follows o l) (hnext : ∀ u ∈ l, h'.next u = h.next u) :
    h'.Follows o l := by
  induction l generalizing o with
  | nil => exact hf
  | cons x l ih =>
    refine ⟨hf.1, ?_⟩
    rw [hnext x (List.mem_cons_self ..)]
    exact ih hf.2 fun u hu ↦ hnext u (List.mem_cons_of_mem x hu)

theorem Follows.next_mem (hf : h.Follows o l) (hx : x ∈ l) (hy : h.next x = some y) : y ∈ l := by
  induction l generalizing o with
  | nil => cases hx
  | cons z l ih =>
    rcases List.mem_cons.mp hx with rfl | hx
    · have hhead := hf.2.eq_head?
      rw [hy] at hhead
      exact List.mem_cons_of_mem x (List.mem_of_head? hhead.symm)
    · exact List.mem_cons_of_mem z (ih hf.2 hx)

theorem Follows.next_eq {l₁ l₂ : List α} (hf : h.Follows o (l₁ ++ x :: l₂)) :
    h.next x = l₂.head? := by
  induction l₁ generalizing o with
  | nil => exact hf.2.eq_head?
  | cons y l₁ ih => exact ih hf.2

/-- An element that is not the first one comes behind another. -/
theorem Follows.exists_prev (hf : h.Follows o l) (hx : x ∈ l) (hne : o ≠ some x) :
    ∃ u ∈ l, h.next u = some x := by
  induction l generalizing o with
  | nil => cases hx
  | cons z l ih =>
    rcases List.mem_cons.mp hx with rfl | hx
    · exact absurd hf.1 hne
    · by_cases hz : h.next z = some x
      · exact ⟨z, List.mem_cons_self .., hz⟩
      · obtain ⟨u, hu, hux⟩ := ih hf.2 hx hz
        exact ⟨u, List.mem_cons_of_mem z hu, hux⟩

/-- An element has a neighbour, unless it is the only one. -/
theorem Chain.linked_iff (hc : h.Chain o l) (hd : h.Doubly) (hx : x ∈ l) :
    (h.prev x ≠ none ∨ h.next x ≠ none) ↔ l.length ≠ 1 := by
  match l, hc, hx with
  | [z], hc, hx =>
    have hnext : h.next z = none := hc.path.2
    rw [List.mem_singleton.mp hx, hc.prev_head z hc.path.1, hnext]
    simp
  | z :: w :: l, hc, hx =>
    refine iff_of_true ?_ (by simp)
    by_cases hz : x = z
    · subst hz
      exact .inr (by rw [hc.path.2.1]; nofun)
    · have hne : o ≠ some x := fun heq ↦ hz (Option.some.inj (heq.symm.trans hc.path.1))
      obtain ⟨u, -, hu⟩ := hc.path.exists_prev hx hne
      exact .inl (by rw [(hd u x).mp hu]; nofun)

end Paths

variable {α : Type*} [DecidableEq α] {h : Links α} {x y : α} {o : Option α} {l : List α}

/-- A node is put in front of the list. -/
def push (h : Links α) (head : Option α) (x : α) : Links α :=
  let h := h.setNext x head
  let h :=
    match head with
    | some y => h.setPrev y (some x)
    | none => h
  h.setPrev x none

theorem next_push (h : Links α) (o : Option α) (x y : α) :
    (h.push o x).next y = if y = x then o else h.next y := by
  rcases o with _ | z <;> exact Function.update_apply ..

theorem prev_push (h : Links α) (o : Option α) (x y : α) :
    (h.push o x).prev y = if y = x then none else if o = some y then some x else h.prev y := by
  rcases o with _ | z
  · simp [push, setPrev, setNext, Function.update_apply]
  · simp [push, setPrev, setNext, Function.update_apply, eq_comm]

theorem Doubly.push (hd : h.Doubly) (hx : h.Free x) (ho : ∀ y, o = some y → h.prev y = none)
    (hne : o ≠ some x) : (h.push o x).Doubly := by
  intro u v
  rw [next_push, prev_push]
  have huv := hd u v
  have hux := hd u x
  have hxv := hd x v
  have hov := ho v
  unfold Free at hx
  grind

/-- The node comes first. -/
theorem Chain.push (hc : h.Chain o l) (hx : x ∉ l) : (h.push o x).Chain (some x) (x :: l) := by
  refine ⟨List.nodup_cons.mpr ⟨hx, hc.nodup⟩, ⟨rfl, ?_⟩, fun y hy ↦ ?_⟩
  · rw [next_push, if_pos rfl]
    refine hc.path.congr fun u hu ↦ ?_
    have hne : u ≠ x := fun heq ↦ hx (heq ▸ hu)
    rw [next_push, if_neg hne]
  · obtain rfl := Option.some.inj hy
    rw [prev_push, if_pos rfl]

theorem Free.push (hy : h.Free y) (hyx : y ≠ x) (ho : o ≠ some y) : (h.push o x).Free y := by
  rw [Free, next_push, prev_push, if_neg hyx, if_neg hyx, if_neg ho]
  exact hy

theorem next_remove_of_ne (hd : h.Doubly) (hy : y ≠ x) (hnext : h.next y ≠ some x) :
    (h.remove x).next y = h.next y := by
  rw [next_remove, if_neg hy, if_neg (mt (hd y x).mpr hnext)]

/-- The node is passed over. -/
theorem Follows.remove (hd : h.Doubly) (hf : h.Follows o l) (hnodup : l.Nodup) (hx : x ∈ l) :
    (h.remove x).Follows (if o = some x then h.next x else o) (l.erase x) := by
  induction l generalizing o with
  | nil => cases hx
  | cons z l ih =>
    obtain ⟨ho, hf⟩ := hf
    obtain ⟨hz, hnodup⟩ := List.nodup_cons.mp hnodup
    by_cases hzx : z = x
    · subst hzx
      rw [if_pos ho, List.erase_cons_head]
      refine hf.congr fun u hu ↦ next_remove_of_ne hd (fun heq ↦ hz (heq ▸ hu)) fun hnext ↦ ?_
      exact hz (hf.next_mem hu hnext)
    · have hne : o ≠ some x := fun heq ↦ hzx (Option.some.inj (ho.symm.trans heq))
      have hmem : x ∈ l := (List.mem_cons.mp hx).resolve_left (Ne.symm hzx)
      rw [if_neg hne, List.erase_cons_tail (by simpa using hzx)]
      refine ⟨ho, ?_⟩
      have hnext : (h.remove x).next z = if h.next z = some x then h.next x else h.next z := by
        rw [next_remove, if_neg hzx]
        exact if_congr (hd z x).symm rfl rfl
      rw [hnext]
      exact ih hf hnodup hmem

theorem Chain.remove (hd : h.Doubly) (hc : h.Chain o l) (hx : x ∈ l) :
    (h.remove x).Chain (if o = some x then h.next x else o) (l.erase x) := by
  refine ⟨hc.nodup.erase x, hc.path.remove hd hc.nodup hx, fun y hy ↦ ?_⟩
  rw [prev_remove]
  have hhead := hc.prev_head
  have hxy := hd x y
  grind

theorem Free.remove (hd : h.Doubly) (hy : h.Free y) : (h.remove x).Free y := by
  have hxy := hd x y
  have hyx := hd y x
  unfold Free at hy ⊢
  rw [next_remove, prev_remove]
  grind

/-- Nothing happens to a node without links. -/
theorem remove_of_free (hx : h.Free x) : h.remove x = h := by
  obtain ⟨hnext, hprev⟩ := hx
  rw [remove_eq, hnext, hprev]
  simp only [Option.elim_none]
  rw [← hnext, Function.update_eq_self, hnext, ← hprev, Function.update_eq_self]

end Links
