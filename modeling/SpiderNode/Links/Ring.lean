import Mathlib.Data.List.Nodup
import Mathlib.Logic.Function.Basic
import Mathlib.Tactic.Common

/-!
# Doubly linked rings

Nodes with two pointers each, `next` and `prev`, which may be null. A list is a ring that goes
through a node of its own, the head; the oldest element is `prev` of the head, the newest is `next`
of it. The operations write pointers one after the other, with the tests for null that a program
makes.

Two facts carry the proofs. `Doubly` says that `next` and `prev` are inverse to each other, all over
the memory; so a node that is taken out of a ring, or put into one, only concerns its neighbours.
`Path` follows the `prev` pointers, and `Ring` is a path from a node back to itself.
-/

open Function (update)

/-- The pointers of all nodes. -/
structure Links (α : Type*) where
  next : α → Option α
  prev : α → Option α

namespace Links

/-! ## Rings -/

section Paths

variable {α : Type*}

/-- The two pointers are inverse to each other. -/
def Doubly (h : Links α) : Prop := ∀ x y, h.next x = some y ↔ h.prev y = some x

/-- The node is in no list: it has no links, or is linked to itself. -/
def Alone (h : Links α) (x : α) : Prop :=
  h.next x = none ∧ h.prev x = none ∨ h.next x = some x ∧ h.prev x = some x

variable {h : Links α} {x y z s : α} {l : List α}

/-- From `x` the pointers `prev` lead through the nodes of a list to `z`. -/
def Path (h : Links α) (x : α) : List α → α → Prop
  | [], z => h.prev x = some z
  | y :: l, z => h.prev x = some y ∧ Path h y l z

/-- The list with head `s` has the elements `l`, from the oldest to the newest. -/
structure Ring (h : Links α) (s : α) (l : List α) : Prop where
  nodup : (s :: l).Nodup
  path : h.Path s l s

theorem path_append {l₁ l₂ : List α} :
    h.Path x (l₁ ++ y :: l₂) z ↔ h.Path x l₁ y ∧ h.Path y l₂ z := by
  induction l₁ generalizing x with
  | nil => rfl
  | cons w l₁ ih => rw [List.cons_append, Path, Path, ih, and_assoc]

/-- A path depends on the nodes that it leaves. -/
theorem Path.congr {h' : Links α} (hp : h.Path x l z)
    (hprev : ∀ u ∈ x :: l, h'.prev u = h.prev u) : h'.Path x l z := by
  induction l generalizing x with
  | nil => exact (hprev x (List.mem_singleton_self x)).trans hp
  | cons y l ih =>
    refine ⟨(hprev x (List.mem_cons_self ..)).trans hp.1, ih hp.2 fun u hu ↦ ?_⟩
    exact hprev u (List.mem_cons_of_mem x hu)

/-- Each pointer on a path leads to a node of the path. -/
theorem Path.prev_mem (hp : h.Path x l z) {u : α} (hu : u ∈ x :: l) :
    ∃ v ∈ l ++ [z], h.prev u = some v := by
  induction l generalizing x with
  | nil =>
    rw [List.mem_singleton.mp hu]
    exact ⟨z, List.mem_singleton_self z, hp⟩
  | cons y l ih =>
    rcases List.mem_cons.mp hu with rfl | hu
    · exact ⟨y, List.mem_cons_self .., hp.1⟩
    · obtain ⟨v, hv, he⟩ := ih hp.2 hu
      exact ⟨v, List.mem_cons_of_mem y hv, he⟩

theorem Path.exists_last (hp : h.Path x l z) : ∃ y ∈ x :: l, h.prev y = some z := by
  induction l generalizing x with
  | nil => exact ⟨x, List.mem_singleton_self x, hp⟩
  | cons w l ih =>
    obtain ⟨y, hy, he⟩ := ih hp.2
    exact ⟨y, List.mem_cons_of_mem x hy, he⟩

theorem Ring.exists_next (hd : h.Doubly) (hr : h.Ring s l) : ∃ y, h.next s = some y := by
  obtain ⟨y, -, hy⟩ := hr.path.exists_last
  exact ⟨y, (hd s y).mpr hy⟩

/-- An element is linked to another node. -/
theorem Ring.next_of_mem (hd : h.Doubly) (hr : h.Ring s l) (hx : x ∈ l) :
    ∃ y ≠ x, h.next x = some y := by
  obtain ⟨l₁, l₂, rfl⟩ := List.append_of_mem hx
  obtain ⟨y, hy, hprev⟩ := (path_append.mp hr.path).1.exists_last
  refine ⟨y, ?_, (hd x y).mpr hprev⟩
  rintro rfl
  have hnodup : ((s :: l₁) ++ y :: l₂).Nodup := hr.nodup
  exact (List.nodup_append.mp hnodup).2.2 y hy y (List.mem_cons_self ..) rfl

end Paths

variable {α : Type*} [DecidableEq α]

/-! ## Operations -/

def setNext (h : Links α) (x : α) (y : Option α) : Links α := { h with next := update h.next x y }

def setPrev (h : Links α) (x : α) (y : Option α) : Links α := { h with prev := update h.prev x y }

/-- The node is linked to itself. -/
def init (h : Links α) (x : α) : Links α := (h.setNext x (some x)).setPrev x (some x)

/-- The oldest element of a list. -/
def peek (h : Links α) (s : α) : Option α := if h.prev s = some s then none else h.prev s

/-- A node is taken out of its list. -/
def remove (h : Links α) (x : α) : Links α :=
  let h :=
    match h.next x with
    | some y => h.setPrev y (h.prev x)
    | none => h
  let h :=
    match h.prev x with
    | some y => h.setNext y (h.next x)
    | none => h
  (h.setNext x none).setPrev x none

/-- A node is put between a head and its newest element, or `none` if the head has no links. -/
def attach (h : Links α) (s x : α) : Option (Links α) :=
  let h := h.setNext x (h.next s)
  match h.next s with
  | some y => some (((h.setPrev y (some x)).setPrev x (some s)).setNext s (some x))
  | none => none

/-- A node is taken out of its list and becomes the newest element of another. -/
def append (h : Links α) (s x : α) : Option (Links α) := (h.remove x).attach s x

/-- The oldest element of a list is taken out, or `none` if the head has no links. -/
def shift (h : Links α) (s : α) : Option (Links α × α) :=
  (h.prev s).map fun first ↦ (h.remove first, first)

def isEmpty (h : Links α) (s : α) : Bool := h.next s = some s

variable {h : Links α} {x y z s : α} {l : List α}

/-- The assignments of `remove` do not disturb each other. -/
theorem remove_eq (h : Links α) (x : α) :
    h.remove x =
      { next := update ((h.prev x).elim h.next fun y ↦ update h.next y (h.next x)) x none
        prev := update ((h.next x).elim h.prev fun y ↦ update h.prev y (h.prev x)) x none } := by
  rcases hn : h.next x with _ | y
  · simp only [remove, hn]
    rcases hp : h.prev x with _ | z
    · rfl
    · simp only [setNext, setPrev]
      rfl
  · have hprev : (h.setPrev y (h.prev x)).prev x = h.prev x := by
      by_cases hx : x = y
      · rw [← hx]
        exact Function.update_self ..
      · exact Function.update_of_ne hx ..
    simp only [remove, hn, hprev]
    rcases hp : h.prev x with _ | z
    · rfl
    · simp only [setNext, setPrev, hn]
      rfl

theorem prev_remove (h : Links α) (x y : α) :
    (h.remove x).prev y =
      if y = x then none else if h.next x = some y then h.prev x else h.prev y := by
  rw [remove_eq]
  rcases hn : h.next x with _ | z
  · simp only [Option.elim_none, Function.update_apply, reduceCtorEq, if_false]
  · simp only [Option.elim_some, Function.update_apply, Option.some.injEq, eq_comm]

theorem next_remove (h : Links α) (x y : α) :
    (h.remove x).next y =
      if y = x then none else if h.prev x = some y then h.next x else h.next y := by
  rw [remove_eq]
  rcases hn : h.prev x with _ | z
  · simp only [Option.elim_none, Function.update_apply, reduceCtorEq, if_false]
  · simp only [Option.elim_some, Function.update_apply, Option.some.injEq, eq_comm]

theorem Doubly.remove (hd : h.Doubly) (x : α) : (h.remove x).Doubly := by
  intro u v
  rw [next_remove, prev_remove]
  have hux := hd u x
  have hxv := hd x v
  have huv := hd u v
  have hxx := hd x x
  grind

theorem Doubly.init (hd : h.Doubly) (hx : h.Alone x) : (h.init x).Doubly := by
  intro u v
  have huv := hd u v
  have hux := hd u x
  have hxv := hd x v
  unfold Alone at hx
  simp only [Links.init, setNext, setPrev, Function.update_apply]
  grind

/-! ## Taking a node out -/

theorem prev_remove_of_ne (hd : h.Doubly) (hy : y ≠ x) (hprev : h.prev y ≠ some x) :
    (h.remove x).prev y = h.prev y := by
  rw [prev_remove, if_neg hy, if_neg (mt (hd x y).mp hprev)]

theorem Path.remove_of_not_mem (hd : h.Doubly) (hp : h.Path y l z) (hx : x ∉ y :: l)
    (hz : x ≠ z) : (h.remove x).Path y l z := by
  refine hp.congr fun u hu ↦ prev_remove_of_ne hd (fun he ↦ hx (he ▸ hu)) ?_
  obtain ⟨v, hv, he⟩ := hp.prev_mem hu
  rw [he]
  rintro hvx
  obtain rfl := Option.some.inj hvx
  rcases List.mem_append.mp hv with hv | hv
  · exact hx (List.mem_cons_of_mem y hv)
  · exact hz (List.mem_singleton.mp hv)

/-- The neighbours of the node are joined. -/
theorem Path.remove {l₁ l₂ : List α} (hd : h.Doubly) (hp : h.Path y (l₁ ++ x :: l₂) z)
    (h₁ : x ∉ y :: l₁) (h₂ : x ∉ l₂) (hz : x ≠ z) : (h.remove x).Path y (l₁ ++ l₂) z := by
  induction l₁ generalizing y with
  | nil =>
    obtain ⟨hy, hp⟩ := hp
    have hyx : y ≠ x := fun he ↦ h₁ (he ▸ List.mem_singleton_self y)
    have hprev : (h.remove x).prev y = h.prev x := by
      rw [prev_remove, if_neg hyx, if_pos ((hd x y).mpr hy)]
    rcases l₂ with _ | ⟨w, l₂⟩
    · exact hprev.trans hp
    · exact ⟨hprev.trans hp.1, hp.2.remove_of_not_mem hd h₂ hz⟩
  | cons w l₁ ih =>
    obtain ⟨hy, hp⟩ := hp
    have hyx : y ≠ x := fun he ↦ h₁ (he ▸ List.mem_cons_self ..)
    have hw : h.prev y ≠ some x := by
      rw [hy]
      exact fun he ↦ h₁ (Option.some.inj he ▸ List.mem_cons_of_mem y (List.mem_cons_self ..))
    refine ⟨(prev_remove_of_ne hd hyx hw).trans hy, ih hp ?_⟩
    exact fun hm ↦ h₁ (List.mem_cons_of_mem y hm)

theorem Ring.remove_of_not_mem (hd : h.Doubly) (hr : h.Ring s l) (hx : x ∉ s :: l) :
    (h.remove x).Ring s l :=
  ⟨hr.nodup, hr.path.remove_of_not_mem hd hx fun he ↦ hx (he ▸ List.mem_cons_self ..)⟩

/-- The elements of a list without one. -/
theorem Ring.remove (hd : h.Doubly) (hr : h.Ring s l) (hxs : x ≠ s) :
    (h.remove x).Ring s (l.erase x) := by
  by_cases hx : x ∈ l
  swap
  · rw [List.erase_of_not_mem hx]
    refine hr.remove_of_not_mem hd fun hm ↦ ?_
    rcases List.mem_cons.mp hm with rfl | hm
    · exact hxs rfl
    · exact hx hm
  obtain ⟨l₁, l₂, rfl⟩ := List.append_of_mem hx
  obtain ⟨-, h₂, hdis⟩ := List.nodup_append.mp (List.nodup_cons.mp hr.nodup).2
  have hx₁ : x ∉ l₁ := fun hm ↦ hdis x hm x (List.mem_cons_self ..) rfl
  have herase : (l₁ ++ x :: l₂).erase x = l₁ ++ l₂ := by
    rw [List.erase_append_right _ hx₁, List.erase_cons_head]
  constructor
  · exact hr.nodup.sublist (List.erase_sublist.cons_cons s)
  · rw [herase]
    refine hr.path.remove hd (fun hm ↦ ?_) (List.nodup_cons.mp h₂).1 hxs
    rcases List.mem_cons.mp hm with rfl | hm
    · exact hxs rfl
    · exact hx₁ hm

theorem alone_remove_self (h : Links α) (x : α) :
    (h.remove x).next x = none ∧ (h.remove x).prev x = none := by
  rw [next_remove, prev_remove, if_pos rfl, if_pos rfl]
  exact ⟨rfl, rfl⟩

/-- A node that is in no list can be taken out again. -/
theorem remove_remove (h : Links α) (x : α) : (h.remove x).remove x = h.remove x := by
  obtain ⟨hnext, hprev⟩ := alone_remove_self h x
  have hn : update (h.remove x).next x none = (h.remove x).next := by
    rw [← hnext, Function.update_eq_self]
  have hp : update (h.remove x).prev x none = (h.remove x).prev := by
    rw [← hprev, Function.update_eq_self]
  rw [remove_eq (h.remove x), hnext, hprev, Option.elim_none, Option.elim_none, hn, hp]

theorem Alone.remove (hd : h.Doubly) (hy : h.Alone y) (hne : y ≠ x) : (h.remove x).Alone y := by
  have hxy := hd x y
  have hyx := hd y x
  unfold Alone at hy ⊢
  rw [next_remove, prev_remove]
  grind

/-! ## Putting a node in -/

section Attach

variable {h' : Links α} (hs : h.next s = some y) (hxs : x ≠ s) (ha : h.attach s x = some h')
include hs hxs ha

theorem prev_attach (u : α) :
    h'.prev u = if u = x then some s else if u = y then some x else h.prev u := by
  have hnext : (h.setNext x (h.next s)).next s = some y :=
    (Function.update_of_ne hxs.symm ..).trans hs
  simp only [attach, hnext] at ha
  obtain rfl := Option.some.inj ha
  simp only [setNext, setPrev, Function.update_apply]

theorem next_attach (u : α) :
    h'.next u = if u = s then some x else if u = x then some y else h.next u := by
  have hnext : (h.setNext x (h.next s)).next s = some y :=
    (Function.update_of_ne hxs.symm ..).trans hs
  simp only [attach, hnext] at ha
  obtain rfl := Option.some.inj ha
  simp only [setNext, setPrev, Function.update_apply, hs]

variable (hd : h.Doubly)
include hd

theorem Doubly.attach (hx : h.next x = none) (hx' : h.prev x = none) : h'.Doubly := by
  intro u v
  rw [next_attach hs hxs ha, prev_attach hs hxs ha]
  have hsy := hd s y
  have huv := hd u v
  have hux := hd u x
  have hxv := hd x v
  have hsv := hd s v
  have huy := hd u y
  grind

theorem Alone.attach {u : α} (hu : h.Alone u) (hus : u ≠ s) (hux : u ≠ x) : h'.Alone u := by
  have hsy := hd s y
  unfold Alone at hu ⊢
  rw [next_attach hs hxs ha, prev_attach hs hxs ha]
  grind

theorem Path.attach_of_ne {w : α} (hp : h.Path w l z) (hx : x ∉ w :: l) (hl : s ∉ l) (hz : s ≠ z) :
    h'.Path w l z := by
  refine hp.congr fun u hu ↦ ?_
  have hux : u ≠ x := fun he ↦ hx (he ▸ hu)
  have huy : u ≠ y := by
    rintro rfl
    obtain ⟨v, hv, he⟩ := hp.prev_mem hu
    rw [(hd s u).mp hs] at he
    obtain rfl := Option.some.inj he
    rcases List.mem_append.mp hv with hv | hv
    · exact hl hv
    · exact hz (List.mem_singleton.mp hv)
  rw [prev_attach hs hxs ha, if_neg hux, if_neg huy]

/-- The node comes last on the path back to the head. -/
theorem Path.attach {w : α} (hp : h.Path w l s) (hx : x ∉ w :: l) (hl : s ∉ l) :
    h'.Path w (l ++ [x]) s := by
  induction l generalizing w with
  | nil =>
    have hwx : w ≠ x := fun he ↦ hx (he ▸ List.mem_singleton_self w)
    have hwy : w = y := Option.some.inj (((hd s w).mpr hp).symm.trans hs)
    constructor
    · rw [prev_attach hs hxs ha, if_neg hwx, if_pos hwy]
    · rw [Path, prev_attach hs hxs ha, if_pos rfl]
  | cons v l ih =>
    obtain ⟨hv, hp⟩ := hp
    have hwx : w ≠ x := fun he ↦ hx (he ▸ List.mem_cons_self ..)
    have hwy : w ≠ y := by
      rintro rfl
      rw [(hd s w).mp hs] at hv
      exact hl (Option.some.inj hv ▸ List.mem_cons_self ..)
    refine ⟨?_, ih hp (fun hm ↦ hx (List.mem_cons_of_mem w hm))
      fun hm ↦ hl (List.mem_cons_of_mem v hm)⟩
    rw [prev_attach hs hxs ha, if_neg hwx, if_neg hwy]
    exact hv

end Attach

section Append

variable {h' : Links α} (hd : h.Doubly) (hr : h.Ring s l) (hxs : x ≠ s)
include hd hr hxs

theorem exists_append : ∃ h', h.append s x = some h' := by
  obtain ⟨y, hy⟩ := (hr.remove hd hxs).exists_next (hd.remove x)
  have hnext : ((h.remove x).setNext x ((h.remove x).next s)).next s = some y :=
    (Function.update_of_ne hxs.symm ..).trans hy
  simp only [append, attach, hnext]
  exact ⟨_, rfl⟩

variable (ha : h.append s x = some h')
include ha

theorem Doubly.append : h'.Doubly := by
  obtain ⟨y, hy⟩ := (hr.remove hd hxs).exists_next (hd.remove x)
  obtain ⟨hx, hx'⟩ := alone_remove_self h x
  exact Doubly.attach hy hxs ha (hd.remove x) hx hx'

/-- The node is the newest element. -/
theorem Ring.append : h'.Ring s (l.erase x ++ [x]) := by
  have hr' := hr.remove hd hxs
  obtain ⟨y, hy⟩ := hr'.exists_next (hd.remove x)
  obtain ⟨hs, hl⟩ := List.nodup_cons.mp hr'.nodup
  have hx : x ∉ l.erase x := (List.nodup_cons.mp hr.nodup).2.not_mem_erase
  constructor
  · refine List.nodup_cons.mpr ⟨fun hm ↦ ?_, ?_⟩
    · rcases List.mem_append.mp hm with hm | hm
      · exact hs hm
      · exact hxs (List.mem_singleton.mp hm).symm
    · refine List.nodup_append.mpr ⟨hl, List.nodup_singleton x, fun u hu v hv he ↦ ?_⟩
      rw [List.mem_singleton.mp hv] at he
      exact hx (he ▸ hu)
  · refine Path.attach hy hxs ha (hd.remove x) hr'.path (fun hm ↦ ?_) hs
    rcases List.mem_cons.mp hm with he | hm
    · exact hxs he
    · exact hx hm

/-- Other lists stay as they are. -/
theorem Ring.append_of_ne {s' : α} {l' : List α} (hr' : h.Ring s' l') (hs : s ∉ s' :: l')
    (hx : x ∉ s' :: l') : h'.Ring s' l' := by
  obtain ⟨y, hy⟩ := (hr.remove hd hxs).exists_next (hd.remove x)
  refine ⟨hr'.nodup, Path.attach_of_ne hy hxs ha (hd.remove x) (hr'.remove_of_not_mem hd hx).path
    hx (fun hm ↦ hs (List.mem_cons_of_mem s' hm)) fun he ↦ hs (he ▸ List.mem_cons_self ..)⟩

/-- From another list the node is taken out. -/
theorem Ring.append_erase {s' : α} {l' : List α} (hr' : h.Ring s' l') (hs : s ∉ s' :: l')
    (hx : x ≠ s') : h'.Ring s' (l'.erase x) := by
  have hmem : x ∉ s' :: l'.erase x := by
    rintro (_ | ⟨_, hm⟩)
    · exact hx rfl
    · exact (List.nodup_cons.mp hr'.nodup).2.not_mem_erase hm
  have hs' : s ∉ s' :: l'.erase x :=
    fun hm ↦ hs ((List.erase_sublist.cons_cons s').subset hm)
  have happend : (h.remove x).append s x = some h' := by rw [Links.append, remove_remove, ← ha]; rfl
  exact (hr.remove hd hxs).append_of_ne (hd.remove x) hxs happend (hr'.remove hd hx) hs' hmem

theorem Alone.append {u : α} (hu : h.Alone u) (hus : u ≠ s) (hux : u ≠ x) : h'.Alone u := by
  obtain ⟨y, hy⟩ := (hr.remove hd hxs).exists_next (hd.remove x)
  exact Alone.attach hy hxs ha (hd.remove x) (hu.remove hd hux) hus hux

end Append

/-! ## Nodes that are linked to themselves -/

theorem ring_init (h : Links α) (x : α) : (h.init x).Ring x [] :=
  ⟨List.nodup_singleton x, Function.update_self ..⟩

theorem alone_init (h : Links α) (x : α) : (h.init x).Alone x :=
  Or.inr ⟨Function.update_self .., Function.update_self ..⟩

theorem Ring.init_of_not_mem (hr : h.Ring s l) (hx : x ∉ s :: l) : (h.init x).Ring s l := by
  refine ⟨hr.nodup, hr.path.congr fun u hu ↦ ?_⟩
  have hne : u ≠ x := fun he ↦ hx (he ▸ hu)
  exact Function.update_of_ne hne ..

theorem Alone.init_of_ne (hy : h.Alone y) (hne : y ≠ x) : (h.init x).Alone y := by
  have hnext : (h.init x).next y = h.next y := Function.update_of_ne hne ..
  have hprev : (h.init x).prev y = h.prev y := Function.update_of_ne hne ..
  rw [Alone, hnext, hprev]
  exact hy

/-! ## Looking at a list -/

theorem Ring.peek_eq (hr : h.Ring s l) : h.peek s = l.head? := by
  rcases l with _ | ⟨y, l⟩
  · have hs : h.prev s = some s := hr.path
    exact if_pos hs
  · have hy : h.prev s = some y := hr.path.1
    have hne : y ≠ s := fun he ↦ (List.nodup_cons.mp hr.nodup).1 (he ▸ List.mem_cons_self ..)
    rw [peek, hy, if_neg fun he ↦ hne (Option.some.inj he)]
    rfl

theorem Ring.shift_eq (hr : h.Ring s (y :: l)) : h.shift s = some (h.remove y, y) := by
  rw [shift, hr.path.1]
  rfl

theorem Ring.isEmpty_iff (hd : h.Doubly) (hr : h.Ring s l) : h.isEmpty s = true ↔ l = [] := by
  rw [isEmpty, decide_eq_true_iff, hd]
  rcases l with _ | ⟨y, l⟩
  · exact iff_of_true hr.path rfl
  · have hy : h.prev s = some y := hr.path.1
    have hne : y ≠ s := fun he ↦ (List.nodup_cons.mp hr.nodup).1 (he ▸ List.mem_cons_self ..)
    exact iff_of_false (fun he ↦ hne (Option.some.inj (hy.symm.trans he))) nofun

end Links
