import SpiderNode.Links.Queues
import SpiderNode.Machine.Calls

/-!
# The module of linked lists

`lib/_linklist.js` as an object: its state is the memory with all `_idleNext` and `_idlePrev`, and
its calls are those of the module. A call that throws has no answer. Heads and items are the members
of two arbitrary types, and all of them have been initialized.

What it should do is said by a second object, whose state are queues. It may be called in any way,
but must not be asked for the first item of an empty queue. `linkList_answers` says that the module
answers as the queues do, and that its pointers are those of the queues at any time.
-/

namespace SpiderNode.LinkList

open Queues (Node)
open Machine (calls Simulates)

variable {L I : Type*}

inductive Call (L I : Type*) where
  | append (list : L) (item : I)
  | remove (item : I)
  | peek (list : L)
  | shift (list : L)
  | isEmpty (list : L)

inductive Result (L I : Type*) where
  | undefined
  /-- A node, or null. -/
  | node (x : Option (Node L I))
  | bool (b : Bool)
  deriving DecidableEq, Repr

variable [DecidableEq L] [DecidableEq I]

/-- A call of the module. -/
def answer (h : Links (Node L I)) : Call L I → Option (Links (Node L I) × Result L I)
  | .append list item => (h.append (.head list) (.item item)).map fun h ↦ (h, .undefined)
  | .remove item => some (h.remove (.item item), .undefined)
  | .peek list => some (h, .node (h.peek (.head list)))
  | .shift list => (h.shift (.head list)).map fun (h, first) ↦ (h, .node (some first))
  | .isEmpty list => some (h, .bool (h.isEmpty (.head list)))

/-- What it should answer. -/
def expected (q : Queues L I) : Call L I → Option (Queues L I × Result L I)
  | .append list item => some (q.append list item, .undefined)
  | .remove item => some (q.remove item, .undefined)
  | .peek list => some (q, .node ((q.items list).head?.map .item))
  | .shift list =>
    match q.items list with
    | first :: _ => some (q.shift list, .node (some (.item first)))
    | [] => none
  | .isEmpty list => some (q, .bool (q.items list).isEmpty)

/-- **One call.** -/
theorem simulates : Simulates Links.Holds (answer (L := L) (I := I)) expected := by
  intro h q c q' r hh hq
  cases c with
  | append list item =>
    obtain ⟨rfl, rfl⟩ := Prod.mk.inj (Option.some.inj hq)
    obtain ⟨h', ha, hh'⟩ := hh.append list item
    exact ⟨h', congrArg (Option.map _) ha, hh'⟩
  | remove item =>
    obtain ⟨rfl, rfl⟩ := Prod.mk.inj (Option.some.inj hq)
    exact ⟨_, rfl, hh.remove item⟩
  | peek list =>
    obtain ⟨rfl, rfl⟩ := Prod.mk.inj (Option.some.inj hq)
    exact ⟨h, by rw [answer, hh.peek_eq], hh⟩
  | shift list =>
    rcases hl : q.items list with _ | ⟨first, rest⟩
    · simp only [expected, hl, reduceCtorEq] at hq
    · simp only [expected, hl] at hq
      obtain ⟨rfl, rfl⟩ := Prod.mk.inj (Option.some.inj hq)
      obtain ⟨h', hs, hh'⟩ := hh.shift hl
      exact ⟨h', congrArg (Option.map _) hs, hh'⟩
  | isEmpty list =>
    obtain ⟨rfl, rfl⟩ := Prod.mk.inj (Option.some.inj hq)
    exact ⟨h, by rw [answer, hh.isEmpty_eq], hh⟩

/-- Once all nodes are initialized, whatever their pointers were, the queues are empty. -/
theorem holds_init {nodes : List (Node L I)} (h : Links (Node L I)) (hall : ∀ x, x ∈ nodes) :
    (nodes.foldl Links.init h).Holds .empty :=
  Links.holds_empty fun x ↦ Links.selfLinked_foldl_init h (hall x)

/-- `peek` finds nothing in a list if and only if `isEmpty` says so. -/
theorem peek_eq_none_iff {h : Links (Node L I)} {q : Queues L I} (hh : h.Holds q) (list : L) :
    h.peek (.head list) = none ↔ h.isEmpty (.head list) = true := by
  rw [hh.peek_eq, hh.isEmpty_eq, Option.map_eq_none_iff, List.head?_eq_none_iff, List.isEmpty_iff]

/-- **Linked lists are queues.** After any calls that could be made of the queues, each answer is
that of the queues, and the pointers are those of the queues. -/
theorem linkList_answers {h : Links (Node L I)} (hinit : ∀ x, h.SelfLinked x) (cs : List (Call L I))
    {q : Queues L I} {results : List (Result L I)}
    (hcalls : calls expected .empty cs = some (q, results)) :
    ∃ h', calls answer h cs = some (h', results) ∧ h'.Doubly ∧
      (∀ list, h'.Ring (.head list) ((q.items list).map .item)) ∧
      (∀ item, (∀ list, item ∉ q.items list) → h'.Alone (.item item)) ∧
      (∀ list list' item, item ∈ q.items list → item ∈ q.items list' → list = list') ∧
      ∀ list, h'.peek (.head list) = none ↔ h'.isEmpty (.head list) = true := by
  obtain ⟨h', hcalls, hh⟩ := simulates.calls (Links.holds_empty hinit) hcalls
  exact ⟨h', hcalls, hh.doubly, hh.ring, fun _ ↦ hh.alone, fun _ _ _ ↦ q.disjoint,
    peek_eq_none_iff hh⟩

/-- One item is in a list before another, moves to a second list and is found there; the other is
shifted, and then removed again. -/
theorem linkList_answers_moved :
    ∃ h', calls answer (⟨some, some⟩ : Links (Node ℕ ℕ))
        [.append 0 7, .append 0 8, .append 1 7, .shift 0, .remove 8, .isEmpty 0, .peek 1] =
          some (h', [.undefined, .undefined, .undefined, .node (some (.item 8)), .undefined,
            .bool true, .node (some (.item 7))]) ∧
      h'.Ring (.head 1) [.item 7] ∧ h'.Ring (.head 0) [] := by
  obtain ⟨h', hcalls, -, hring, -⟩ :=
    linkList_answers (h := (⟨some, some⟩ : Links (Node ℕ ℕ))) (fun _ ↦ ⟨rfl, rfl⟩)
      [.append 0 7, .append 0 8, .append 1 7, .shift 0, .remove 8, .isEmpty 0, .peek 1] rfl
  exact ⟨h', hcalls, hring 1, hring 0⟩

end SpiderNode.LinkList
