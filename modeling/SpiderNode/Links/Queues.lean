import SpiderNode.Links.Ring
import Mathlib.Data.List.Induction

/-!
# Queues in linked rings

Several lists share one memory: some of its nodes are heads, and the others are items. Such a memory
stands for a queue at each head. No item is in two queues, and none is in a queue twice; the type
`Queues` says so.

`Holds` relates a memory to queues. Each operation on the pointers keeps it, and does to the queues
what it is meant to do: `Holds.append`, `Holds.remove` and `Holds.shift`.
-/

open Function (update)

/-- What is linked. -/
inductive Queues.Node (L I : Type*) where
  | head (l : L)
  | item (i : I)
  deriving DecidableEq, Repr

/-- A queue for each head. -/
@[ext]
structure Queues (L I : Type*) where
  /-- The items, from the oldest to the newest. -/
  items : L → List I
  nodup : ∀ l, (items l).Nodup
  disjoint : ∀ {l l' i}, i ∈ items l → i ∈ items l' → l = l'

namespace Queues

variable {L I : Type*}

def empty : Queues L I where
  items _ := []
  nodup _ := List.nodup_nil
  disjoint h := absurd h List.not_mem_nil

/-- The oldest item leaves a queue. -/
def shift [DecidableEq L] (q : Queues L I) (l : L) : Queues L I where
  items := update q.items l (q.items l).tail
  nodup l' := by
    rcases eq_or_ne l' l with rfl | hne
    · rw [Function.update_self]
      exact (q.nodup l').sublist (List.tail_sublist _)
    · rw [Function.update_of_ne hne]
      exact q.nodup l'
  disjoint {l₁ l₂ j} h h' := by
    have hmem (k : L) (hj : j ∈ update q.items l (q.items l).tail k) : j ∈ q.items k := by
      rcases eq_or_ne k l with rfl | hne
      · rw [Function.update_self] at hj
        exact List.mem_of_mem_tail hj
      · rwa [Function.update_of_ne hne] at hj
    exact q.disjoint (hmem l₁ h) (hmem l₂ h')

variable [DecidableEq I] (q : Queues L I)

/-- An item leaves its queue. -/
def remove (i : I) : Queues L I where
  items l := (q.items l).erase i
  nodup l := (q.nodup l).erase i
  disjoint h h' := q.disjoint (List.mem_of_mem_erase h) (List.mem_of_mem_erase h')

variable {q} {l l' : L} {i j : I}

theorem not_mem_remove : i ∉ (q.remove i).items l := (q.nodup l).not_mem_erase

variable [DecidableEq L]

theorem mem_or_of_mem_update
    (h : j ∈ update (q.remove i).items l ((q.remove i).items l ++ [i]) l') :
    j ∈ (q.remove i).items l' ∨ j = i ∧ l' = l := by
  rcases eq_or_ne l' l with rfl | hne
  · rw [Function.update_self, List.mem_append, List.mem_singleton] at h
    exact h.imp_right fun hj ↦ ⟨hj, rfl⟩
  · rw [Function.update_of_ne hne] at h
    exact .inl h

variable (q l i)

/-- An item leaves its queue and comes to the end of another. -/
def append : Queues L I where
  items := update (q.remove i).items l ((q.remove i).items l ++ [i])
  nodup l' := by
    rcases eq_or_ne l' l with rfl | hne
    · rw [Function.update_self]
      exact List.nodup_append.mpr ⟨(q.remove i).nodup l', List.nodup_singleton i,
        fun j hj j' hj' heq ↦ not_mem_remove (List.mem_singleton.mp hj' ▸ heq ▸ hj)⟩
    · rw [Function.update_of_ne hne]
      exact (q.remove i).nodup l'
  disjoint h h' := by
    rcases mem_or_of_mem_update h with h | ⟨rfl, rfl⟩
    · rcases mem_or_of_mem_update h' with h' | ⟨rfl, -⟩
      · exact (q.remove i).disjoint h h'
      · exact absurd h not_mem_remove
    · rcases mem_or_of_mem_update h' with h' | ⟨-, rfl⟩
      · exact absurd h' not_mem_remove
      · rfl

variable {q l i}

@[simp] theorem items_append_self :
    (q.append l i).items l = (q.items l).erase i ++ [i] := Function.update_self ..

theorem items_append_of_ne (h : l' ≠ l) : (q.append l i).items l' = (q.items l').erase i :=
  Function.update_of_ne h ..

theorem mem_append_self : i ∈ (q.append l i).items l := by simp

/-- The other items stay. -/
theorem mem_append_of_ne (hne : j ≠ i) (hj : j ∈ q.items l') : j ∈ (q.append l i).items l' := by
  have hmem : j ∈ (q.items l').erase i := (List.mem_erase_of_ne hne).mpr hj
  rcases eq_or_ne l' l with rfl | hl
  · rw [items_append_self]
    exact List.mem_append_left _ hmem
  · rwa [items_append_of_ne hl]

/-- The oldest item is in no other queue, so it might as well be removed. -/
theorem shift_eq_remove {rest : List I} (h : q.items l = i :: rest) :
    q.shift l = q.remove i := by
  have hitems : (q.shift l).items = (q.remove i).items := by
    funext l'
    rcases eq_or_ne l' l with rfl | hne
    · have hshift : (q.shift l').items l' = (q.items l').tail := Function.update_self ..
      have hremove : (q.remove i).items l' = (q.items l').erase i := rfl
      rw [hshift, hremove, h, List.tail_cons, List.erase_cons_head]
    · have hmem : i ∉ q.items l' := fun hi ↦ hne (q.disjoint hi (h ▸ List.mem_cons_self))
      exact (Function.update_of_ne hne ..).trans (List.erase_of_not_mem hmem).symm
  exact Queues.ext hitems

end Queues

namespace Links

open Queues (Node)

variable {L I : Type*}

/-- The pointers are those of the queues: from each head there is one ring, through the items of its
queue. -/
structure Holds (h : Links (Node L I)) (q : Queues L I) : Prop where
  doubly : h.Doubly
  ring : ∀ l, h.Ring (.head l) ((q.items l).map .item)
  alone : ∀ {i}, (∀ l, i ∉ q.items l) → h.Alone (.item i)

/-! ## At first -/

def SelfLinked {α : Type*} (h : Links α) (x : α) : Prop := h.next x = some x ∧ h.prev x = some x

/-- Lists are empty at first. -/
theorem holds_empty {h : Links (Node L I)} (hself : ∀ x, h.SelfLinked x) : h.Holds .empty where
  doubly x y := by
    rw [(hself x).1, (hself y).2]
    exact eq_comm
  ring l := ⟨List.nodup_singleton _, (hself (.head l)).2⟩
  alone {i} _ := .inr (hself (.item i))

section

variable {α : Type*} [DecidableEq α] {h : Links α} {x : α}

theorem SelfLinked.init (hx : h.SelfLinked x) (y : α) : (h.init y).SelfLinked x := by
  rcases eq_or_ne x y with rfl | hne
  · exact ⟨Function.update_self .., Function.update_self ..⟩
  · exact ⟨(Function.update_of_ne hne ..).trans hx.1, (Function.update_of_ne hne ..).trans hx.2⟩

/-- Nodes can be initialized in any order, and more than once. -/
theorem selfLinked_foldl_init {nodes : List α} (h : Links α) (hx : x ∈ nodes) :
    (nodes.foldl init h).SelfLinked x := by
  induction nodes using List.reverseRecOn with
  | nil => exact absurd hx List.not_mem_nil
  | append_singleton nodes y ih =>
    rw [List.foldl_append, List.foldl_cons, List.foldl_nil]
    rcases eq_or_ne x y with rfl | hne
    · exact ⟨Function.update_self .., Function.update_self ..⟩
    · have hmem : x ∈ nodes := by simpa [hne] using hx
      exact (ih hmem).init y

end

/-! ## Operations -/

section

variable {h : Links (Node L I)} {q : Queues L I} {l l' : L} {i : I}

theorem item_injective : Function.Injective (Node.item : I → Node L I) :=
  fun _ _ heq ↦ Node.item.inj heq

theorem item_ne_head : Node.item i ≠ Node.head l := nofun

theorem head_not_mem {items : List I} (hne : l ≠ l') :
    (.head l : Node L I) ∉ .head l' :: items.map Node.item := by
  simp [hne]

variable [DecidableEq L] [DecidableEq I]

theorem map_erase_item (items : List I) (i : I) :
    ((items.erase i).map Node.item : List (Node L I)) = (items.map Node.item).erase (.item i) :=
  List.map_erase item_injective items

namespace Holds

variable (hh : h.Holds q)
include hh

theorem remove (i : I) : (h.remove (.item i)).Holds (q.remove i) where
  doubly := hh.doubly.remove _
  ring l := by
    rw [Queues.remove, map_erase_item]
    exact (hh.ring l).remove hh.doubly item_ne_head
  alone {j} hj := by
    rcases eq_or_ne j i with rfl | hne
    · exact .inl (alone_remove_self h _)
    · have hfree : ∀ l, j ∉ q.items l := fun l hm ↦ hj l ((List.mem_erase_of_ne hne).mpr hm)
      exact (hh.alone hfree).remove hh.doubly (item_injective.ne hne)

/-- The item may have been in any list before, or in none. -/
theorem append (l : L) (i : I) :
    ∃ h', h.append (.head l) (.item i) = some h' ∧ h'.Holds (q.append l i) := by
  obtain ⟨h', ha⟩ := exists_append hh.doubly (hh.ring l) item_ne_head
  refine ⟨h', ha, hh.doubly.append (hh.ring l) item_ne_head ha, fun l' ↦ ?_, fun {j} hj ↦ ?_⟩
  · rcases eq_or_ne l' l with rfl | hl
    · rw [Queues.items_append_self, List.map_append, map_erase_item]
      exact (hh.ring l').append hh.doubly item_ne_head ha
    · rw [Queues.items_append_of_ne hl, map_erase_item]
      exact (hh.ring l).append_erase hh.doubly item_ne_head ha (hh.ring l') (head_not_mem hl.symm)
        item_ne_head
  · have hji : j ≠ i := by
      rintro rfl
      exact hj l Queues.mem_append_self
    have hfree : ∀ l', j ∉ q.items l' := fun l' hm ↦ hj l' (Queues.mem_append_of_ne hji hm)
    exact (hh.alone hfree).append hh.doubly (hh.ring l) item_ne_head ha item_ne_head
      (item_injective.ne hji)

theorem shift {rest : List I} (hl : q.items l = i :: rest) :
    ∃ h', h.shift (.head l) = some (h', .item i) ∧ h'.Holds (q.shift l) := by
  have hring := hh.ring l
  rw [hl, List.map_cons] at hring
  refine ⟨_, hring.shift_eq, ?_⟩
  rw [Queues.shift_eq_remove hl]
  exact hh.remove i

theorem peek_eq (l : L) : h.peek (.head l) = (q.items l).head?.map .item := by
  rw [(hh.ring l).peek_eq, List.head?_map]

theorem isEmpty_eq (l : L) : h.isEmpty (.head l) = (q.items l).isEmpty := by
  rw [Bool.eq_iff_iff, (hh.ring l).isEmpty_iff hh.doubly, List.map_eq_nil_iff, List.isEmpty_iff]

end Holds

end

end Links
