import SpiderNode.Events.Emitter
import Mathlib.Order.Nat

/-!
# Listeners that are called once

`once` adds a function that removes itself before it calls the listener. While a program runs, such
a function can be in four places: among the listeners of its event, with an `addListener` that is
still emitting `newListener`, in the copies of arrays that calls of `emit` go through, and among the
calls that were made. `AtMost` counts it in all of them.

The function removes itself from the object, and not from the copies. So the count goes wrong in one
place only: where an event is emitted again while a copy holds the function and has not come to it.
`Apart` excludes this.
-/

namespace SpiderNode.Events

/-- What a property holds. -/
def Slot.elems : Slot → List Elem
  | absent | null => []
  | one e => [e]
  | many l => l

namespace Emitter

open Function (update)

variable {a b : Emitter} {n : ℕ} {e x : Elem} {name type : JSString}
  {after : Option (JSString × Elem)}

/-! ## Slots -/

theorem count_push_le (s : Slot) (e x : Elem) :
    (s.push x).elems.count e ≤ s.elems.count e + [x].count e := by
  rcases s with _ | _ | y | l
  · exact Nat.le_add_left ..
  · exact Nat.le_add_left ..
  · rw [Slot.push]
    split_ifs
    · change [y, x].count e ≤ [y].count e + [x].count e
      rw [← List.count_append]
      rfl
    · exact Nat.le_add_left ..
  · exact (List.count_append ..).le

theorem count_remove_le {s s' : Slot} (e : Elem) (h : s.remove x = some s') :
    s'.elems.count e ≤ s.elems.count e := by
  rcases s with _ | _ | y | l
  · cases h
  · cases h
  · rw [Slot.remove] at h
    split_ifs at h
    obtain rfl := Option.some.inj h
    exact Nat.zero_le _
  · rw [Slot.remove] at h
    split_ifs at h
    · obtain rfl := Option.some.inj h
      exact Nat.zero_le _
    · obtain rfl := Option.some.inj h
      exact List.erase_sublist.count_le e

/-- A function that is there once is gone after it was removed. -/
theorem count_remove_self {s : Slot} (hs : s.elems.count e ≤ 1) :
    ((s.remove e).getD s).elems.count e = 0 := by
  rcases s with _ | _ | y | l
  · rfl
  · rfl
  · rw [Slot.remove]
    split_ifs with hy
    · rfl
    · exact List.count_eq_zero.mpr fun hm ↦ hy (List.mem_singleton.mp hm).symm
  · rw [Slot.remove]
    split_ifs with hm hnil
    · rfl
    · have hcount : (l.erase e).count e = l.count e - 1 := List.count_erase_self
      change (l.erase e).count e = 0
      rw [hcount]
      exact Nat.sub_eq_zero_of_le hs
    · exact List.count_eq_zero.mpr hm

theorem count_toArray_le (s : Slot) (e : Elem) : s.toArray.count e ≤ s.elems.count e := by
  rcases s with _ | _ | y | l
  · exact le_rfl
  · exact le_rfl
  · rw [Slot.toArray]
    split_ifs
    · exact le_rfl
    · exact Nat.zero_le _
  · exact le_rfl

theorem not_mem_inherited (he : e.isListener = true) : e ∉ (inherited type).elems := by
  unfold inherited
  split_ifs
  · rintro (_ | ⟨_, h⟩)
    · cases he
    · cases h
  · rintro (_ | ⟨_, h⟩)
    · cases he
    · cases h
  · exact List.not_mem_nil

theorem count_value_le (he : e.isListener = true) :
    (a.value type).elems.count e ≤ (a.own type).elems.count e := by
  have hslot : (a.slot type).elems.count e ≤ (a.own type).elems.count e := by
    unfold slot
    split
    · rw [List.count_eq_zero.mpr (not_mem_inherited he)]
      exact Nat.zero_le _
    · exact le_rfl
  rw [value]
  split_ifs
  · exact hslot
  · exact Nat.zero_le _

/-! ## Where a function is -/

section Projections

variable (a : Emitter) (l : List Frame) (s : Slot) (id : ℕ)

@[simp] theorem stack_setStack : (a.setStack l).stack = l := rfl
@[simp] theorem own_setStack : (a.setStack l).own = a.own := rfl
@[simp] theorem calls_setStack : (a.setStack l).calls = a.calls := rfl
@[simp] theorem stack_record : (a.record id e).stack = a.stack := rfl
@[simp] theorem own_record : (a.record id e).own = a.own := rfl
@[simp] theorem calls_record : (a.record id e).calls = a.calls ++ [e] := rfl
@[simp] theorem stack_setOwn : (a.setOwn type s).stack = a.stack := rfl
@[simp] theorem calls_setOwn : (a.setOwn type s).calls = a.calls := rfl
@[simp] theorem own_setOwn_self : (a.setOwn type s).own type = s := Function.update_self ..

theorem own_setOwn_of_ne {t : JSString} (ht : t ≠ type) : (a.setOwn type s).own t = a.own t :=
  Function.update_of_ne ht ..

theorem removeListener_setStack :
    (a.setStack l).removeListener type e = (a.removeListener type e).setStack l := by
  have hvalue : (a.setStack l).value type = a.value type := rfl
  rw [removeListener, removeListener, hvalue]
  rcases (a.value type).remove e with _ | s <;> rfl

theorem removeListener_record :
    (a.record id x).removeListener type e = (a.removeListener type e).record id x := by
  have hvalue : (a.record id x).value type = a.value type := rfl
  rw [removeListener, removeListener, hvalue]
  rcases (a.value type).remove e with _ | s <;> rfl

end Projections

/-- A function that is a listener once is none after it was removed. -/
theorem count_own_removeListener (hhas : e ∈ (a.own type).elems → a.hasEvents = true)
    (he : e.isListener = true) (hcount : (a.own type).elems.count e ≤ 1) :
    ((a.removeListener type e).own type).elems.count e = 0 := by
  have hremove : ((a.removeListener type e).own type) =
      ((a.value type).remove e).getD (a.own type) := by
    unfold removeListener
    split
    · rename_i s hs
      rw [hs]
      exact Function.update_self ..
    · rename_i hs
      rw [hs]
      rfl
  rw [hremove]
  by_cases hmem : e ∈ (a.own type).elems
  · have hvalue : a.value type = a.own type := by
      rw [value, if_pos (hhas hmem), slot]
      split
      · rename_i habsent
        rw [habsent] at hmem
        cases hmem
      · rfl
    rw [hvalue]
    exact count_remove_self hcount
  · rcases hs : (a.value type).remove e with _ | s
    · exact List.count_eq_zero.mpr hmem
    · have hle := (count_remove_le e hs).trans (count_value_le he)
      rw [List.count_eq_zero.mpr hmem] at hle
      exact Nat.le_zero.mp hle

/-- The functions that calls of `emit` have still to call. -/
def queued (l : List Frame) : List Elem := l.flatMap Frame.pending

/-- What calls of `addListener` have still to add. -/
def waiting (after : Option (JSString × Elem)) (l : List Frame) : List (JSString × Elem) :=
  after.toList ++ l.filterMap Frame.after

theorem waiting_cons (f : Frame) (l : List Frame) :
    waiting none (f :: l) = waiting f.after l := by
  unfold waiting
  rcases hf : f.after with _ | p
  · rw [List.filterMap_cons_none hf]
  · rw [List.filterMap_cons_some hf]
    rfl

/-- The function `e` is called at most `n` times. It is a listener of `name` alone; it will not be
one again after it was called, and no copy that holds it is made then. -/
structure AtMost (n : ℕ) (e : Elem) (name : JSString) (a : Emitter)
    (after : Option (JSString × Elem)) : Prop where
  isListener : e.isListener = true
  bound : n = 0 ∨ n = 1 ∧ ∃ w < a.wrappers, e = .wrapper w ∧ (a.wrapped w).1 = name
  own_eq : ∀ type, e ∈ (a.own type).elems → type = name ∧ a.hasEvents = true
  waiting_eq : ∀ p ∈ waiting after a.stack, p.2 = e → p.1 = name ∧ a.hasEvents = true
  visible : ((waiting after a.stack).map Prod.snd).count e + (a.own name).elems.count e +
    a.calls.count e ≤ n
  pending : ((waiting after a.stack).map Prod.snd).count e + (queued a.stack).count e +
    a.calls.count e ≤ n

namespace AtMost

/-- A property is replaced. -/
theorem setOwn (h : AtMost n e name a after) {s : Slot}
    (hs : s.elems.count e ≤ (a.own type).elems.count e) :
    AtMost n e name (a.setOwn type s) after := by
  have hle (t : JSString) :
      ((a.setOwn type s).own t).elems.count e ≤ (a.own t).elems.count e := by
    by_cases ht : t = type
    · rw [ht, own_setOwn_self]
      exact hs
    · rw [own_setOwn_of_ne _ _ ht]
  refine { h with own_eq := fun t ht ↦ h.own_eq t ?_, visible := ?_ }
  · exact List.count_pos_iff.mp ((List.count_pos_iff.mpr ht).trans_le (hle t))
  · have hv := h.visible
    have hn := hle name
    rw [stack_setOwn, calls_setOwn]
    omega

theorem log (h : AtMost n e name a after) (op : ListOp) : AtMost n e name (a.log op) after :=
  { h with }

theorem create (h : AtMost n e name a after) : AtMost n e name a.create after :=
  { h with
    own_eq := fun type ht ↦ ⟨(h.own_eq type ht).1, rfl⟩
    waiting_eq := fun p hp he ↦ ⟨(h.waiting_eq p hp he).1, rfl⟩ }

theorem removeListener (h : AtMost n e name a after) :
    AtMost n e name (a.removeListener type x) after := by
  unfold Emitter.removeListener
  split
  · rename_i s hs
    exact (h.setOwn ((count_remove_le e hs).trans (count_value_le h.isListener))).log _
  · exact h.log _

theorem removeAllListeners (h : AtMost n e name a after)
    (hb : a.removeAllListeners type = .ok b) : AtMost n e name b after := by
  unfold Emitter.removeAllListeners at hb
  split_ifs at hb
  · obtain rfl := Except.ok.inj hb
    exact (h.setOwn (Nat.zero_le _)).log _
  · obtain rfl := Except.ok.inj hb
    exact h.log _

theorem askListeners (h : AtMost n e name a after) (hb : a.askListeners type = .ok b) :
    AtMost n e name b after := by
  unfold Emitter.askListeners at hb
  split_ifs at hb
  obtain rfl := Except.ok.inj hb
  have hset : AtMost n e name (a.create.setOwn type (.many (a.create.value type).toArray)) after :=
    h.create.setOwn ((count_toArray_le _ e).trans (count_value_le h.isListener))
  exact { hset with }

/-- A number is no listener. -/
theorem setMaxListeners (h : AtMost n e name a after) (k : ℤ) :
    AtMost n e name (a.setMaxListeners k) after := by
  refine h.create.setOwn ?_
  have hzero : (Slot.one (.number k)).elems.count e = 0 := by
    refine List.count_eq_zero.mpr fun hm ↦ ?_
    have hl := h.isListener
    rw [List.mem_singleton.mp hm] at hl
    cases hl
  rw [hzero]
  exact Nat.zero_le _

/-- `addListener` comes to its end. -/
theorem append (h : AtMost n e name a (some (type, x))) (hb : a.append type x = .ok b) :
    AtMost n e name b none := by
  unfold Emitter.append at hb
  split_ifs at hb
  obtain rfl := Except.ok.inj hb
  have hx : x = e → type = name ∧ a.hasEvents = true := h.waiting_eq _ (List.mem_cons_self ..)
  have hcount : ((a.value type).push x).elems.count e ≤
      (a.own type).elems.count e + [x].count e :=
    (count_push_le ..).trans (Nat.add_le_add_right (count_value_le h.isListener) _)
  -- what was waiting to be added is now in the list
  have hwait : ((waiting (some (type, x)) a.stack).map Prod.snd).count e =
      [x].count e + ((waiting none a.stack).map Prod.snd).count e := by
    rw [← List.count_append]
    rfl
  have hv := h.visible
  have hp := h.pending
  rw [hwait] at hv hp
  have hset : AtMost n e name (a.setOwn type ((a.value type).push x)) none := by
    refine { h with own_eq := ?_, waiting_eq := ?_, visible := ?_, pending := ?_ }
    · intro t ht
      by_cases htype : t = type
      · rw [htype, own_setOwn_self] at ht
        rw [htype]
        by_cases hxe : x = e
        · exact hx hxe
        · rw [List.count_singleton, if_neg (by simpa using hxe)] at hcount
          exact h.own_eq type (List.count_pos_iff.mp ((List.count_pos_iff.mpr ht).trans_le hcount))
      · rw [own_setOwn_of_ne _ _ htype] at ht
        exact h.own_eq t ht
    · exact fun p hp ↦ h.waiting_eq p (List.mem_cons_of_mem _ hp)
    · rw [stack_setOwn, calls_setOwn]
      by_cases hname : name = type
      · rw [hname] at hv ⊢
        rw [own_setOwn_self]
        omega
      · rw [own_setOwn_of_ne _ _ hname]
        omega
    · rw [stack_setOwn, calls_setOwn]
      omega
  exact hset.log _

theorem finish (h : AtMost n e name a after) {id : ℕ} {r : Bool}
    (hb : a.finish id r after = .ok b) : AtMost n e name b none := by
  rcases after with _ | ⟨t, y⟩
  · obtain rfl := Except.ok.inj hb
    exact { h with }
  · exact h.append hb

/-- An `addListener` is given up, since `emit` has thrown. -/
theorem drop (h : AtMost n e name a after) : AtMost n e name a none := by
  have hsub : (waiting none a.stack).Sublist (waiting after a.stack) :=
    List.sublist_append_right ..
  have hle := (hsub.map Prod.snd).count_le e
  have hv := h.visible
  have hp := h.pending
  exact { h with
    waiting_eq := fun p hp ↦ h.waiting_eq p (hsub.subset hp)
    visible := by omega
    pending := by omega }

variable {f : Frame} {stack : List Frame}

theorem queued_cons (f : Frame) (stack : List Frame) (e : Elem) :
    (queued (f :: stack)).count e = f.pending.count e + (queued stack).count e := by
  rw [queued, List.flatMap_cons, List.count_append]
  rfl

/-- A frame is left. -/
theorem pop (h : AtMost n e name (a.setStack (f :: stack)) none) :
    AtMost n e name (a.setStack stack) f.after := by
  have hw := h.waiting_eq
  have hv := h.visible
  have hp := h.pending
  rw [stack_setStack, waiting_cons] at hw hv hp
  rw [queued_cons] at hp
  refine { h with waiting_eq := hw, visible := hv, pending := ?_ }
  rw [stack_setStack]
  rw [calls_setStack] at hp ⊢
  omega

/-- A frame calls a function. -/
theorem record {rest : List Elem} (h : AtMost n e name (a.setStack (f :: stack)) none)
    (hf : f.pending = x :: rest) (hx : x = e → (a.own name).elems.count e = 0) :
    AtMost n e name ((a.setStack ({ f with pending := rest } :: stack)).record f.id x) none := by
  have hcalls : (a.calls ++ [x]).count e = a.calls.count e + [x].count e := List.count_append ..
  have hrest : (x :: rest).count e = [x].count e + rest.count e := by
    rw [← List.count_append]
    rfl
  have hw := h.waiting_eq
  have hv := h.visible
  have hp := h.pending
  rw [stack_setStack, waiting_cons, calls_setStack] at hv hp
  rw [stack_setStack, waiting_cons] at hw
  rw [own_setStack] at hv
  rw [queued_cons, hf, hrest] at hp
  refine { h with waiting_eq := ?_, visible := ?_, pending := ?_ }
  · rw [stack_record, stack_setStack, waiting_cons]
    exact hw
  · rw [stack_record, stack_setStack, waiting_cons, own_record, own_setStack, calls_record,
      calls_setStack, hcalls]
    dsimp only
    by_cases hxe : x = e
    · have hzero := hx hxe
      omega
    · rw [List.count_singleton, if_neg (by simpa using hxe)]
      exact hv
  · rw [stack_record, stack_setStack, waiting_cons, queued_cons, calls_record, calls_setStack,
      hcalls]
    dsimp only
    omega

/-- The call of a function. If it is the one that is counted, it has removed itself. -/
theorem call {rest : List Elem} (h : AtMost n e name (a.setStack (f :: stack)) none)
    (hf : f.pending = x :: rest) :
    AtMost n e name ((a.setStack ({ f with pending := rest } :: stack)).call f.id x) none := by
  -- what is pending can be called
  have hbound (hx : x = e) : ∃ w, e = .wrapper w ∧ (a.wrapped w).1 = name ∧
      (a.own name).elems.count e ≤ 1 := by
    obtain hn | ⟨hn, w, -, he, hname⟩ := h.bound
    · have hp := h.pending
      rw [stack_setStack, queued_cons, hf, hx, List.count_cons_self] at hp
      omega
    · have hv := h.visible
      rw [own_setStack] at hv
      exact ⟨w, he, hname, by omega⟩
  unfold Emitter.call
  split
  · rename_i v
    rw [removeListener_record, removeListener_setStack]
    have hremove : AtMost n e name ((a.removeListener (a.wrapped v).1 (.wrapper v)).setStack
        (f :: stack)) none := by
      rw [← removeListener_setStack]
      exact h.removeListener
    refine hremove.record hf fun hx ↦ ?_
    obtain ⟨w, he, hname, hle⟩ := hbound hx
    obtain rfl : v = w := Elem.wrapper.inj (hx.trans he)
    rw [hname, hx]
    exact count_own_removeListener (fun hm ↦ (h.own_eq name hm).2) h.isListener hle
  · rename_i hnot
    refine h.record hf fun hx ↦ ?_
    obtain ⟨w, he, -⟩ := hbound hx
    exact absurd (hx.trans he) (hnot w)

/-- A frame goes on. -/
theorem proceed (h : AtMost n e name (a.setStack (f :: stack)) none)
    (hb : a.proceed f stack = .ok b) : AtMost n e name b none := by
  unfold Emitter.proceed at hb
  split at hb
  · exact h.pop.finish hb
  · rename_i hcons
    split_ifs at hb
    · obtain rfl := Except.ok.inj hb
      exact h.call hcons
    · obtain rfl := Except.ok.inj hb
      exact h.pop.drop

/-- A call of `emit` makes a copy, unless one that holds the function is waiting. -/
theorem emit (h : AtMost n e name a after)
    (hapart : e ∈ (a.own type).elems → e ∉ queued a.stack) (hb : a.emit type after = .ok b) :
    AtMost n e name b none := by
  have hbegin : AtMost n e name (a.begin type) after := { h with }
  unfold Emitter.emit at hb
  split_ifs at hb
  · obtain rfl := Except.ok.inj hb
    exact hbegin.drop
  split at hb
  · exact hbegin.finish hb
  rename_i l hl
  -- the copy holds the function as often as the list does
  have hcount : l.count e ≤ (a.own type).elems.count e := by
    refine le_trans ?_ (count_value_le h.isListener)
    unfold handlers at hl
    rcases hv : a.value type with _ | _ | y | l'
    · rw [hv] at hl
      cases hl
    · rw [hv] at hl
      cases hl
    · rw [hv] at hl
      dsimp only at hl
      split_ifs at hl
      rw [← Option.some.inj hl]
      exact le_rfl
    · rw [hv] at hl
      rw [← Option.some.inj hl]
      exact le_rfl
  have hpush :
      AtMost n e name ((a.begin type).setStack (⟨a.emitted, l, after⟩ :: a.stack)) none := by
    have hv := h.visible
    have hp := h.pending
    refine { h with waiting_eq := ?_, visible := ?_, pending := ?_ }
    · rw [stack_setStack, waiting_cons]
      exact h.waiting_eq
    · rw [stack_setStack, waiting_cons]
      exact hv
    · rw [stack_setStack, waiting_cons, queued_cons]
      change ((waiting after a.stack).map Prod.snd).count e +
        (l.count e + (queued a.stack).count e) + a.calls.count e ≤ n
      -- either no copy that is waiting holds the function, or this one does not
      by_cases hmem : e ∈ (a.own type).elems
      · obtain ⟨rfl, -⟩ := h.own_eq type hmem
        have hzero := List.count_eq_zero.mpr (hapart hmem)
        omega
      · have hzero := List.count_eq_zero.mpr hmem
        omega
  exact hpush.proceed hb

/-- Another function is about to be added. -/
theorem add_of_ne (h : AtMost n e name a none) (hx : x ≠ e) :
    AtMost n e name a (some (type, x)) := by
  have hwait : waiting (some (type, x)) a.stack = (type, x) :: waiting none a.stack := rfl
  have hv := h.visible
  have hp := h.pending
  refine { h with waiting_eq := fun p hmem he ↦ ?_, visible := ?_, pending := ?_ }
  · rw [hwait] at hmem
    rcases List.mem_cons.mp hmem with rfl | hmem
    · exact absurd he hx
    · exact h.waiting_eq p hmem he
  · rw [hwait, List.map_cons, List.count_cons_of_ne hx]
    exact hv
  · rw [hwait, List.map_cons, List.count_cons_of_ne hx]
    exact hp

theorem addListener (h : AtMost n e name a.create (some (type, x)))
    (hapart : e ∈ (a.own (js "newListener")).elems → e ∉ queued a.stack)
    (hb : a.addListener type x = .ok b) : AtMost n e name b none := h.emit hapart hb

theorem not_mem_own (h : AtMost 0 e name a after) : e ∉ (a.own type).elems := by
  intro hmem
  obtain ⟨rfl, -⟩ := h.own_eq type hmem
  have hpos := List.count_pos_iff.mpr hmem
  have hv := h.visible
  omega

theorem not_mem_calls (h : AtMost 0 e name a after) : e ∉ a.calls := by
  intro hmem
  have hpos := List.count_pos_iff.mpr hmem
  have hv := h.visible
  omega

theorem wrap (h : AtMost n e name a after) (type : JSString) (f : ℕ) :
    AtMost n e name (a.wrap type f) after := by
  refine { h with bound := ?_ }
  obtain hn | ⟨hn, w, hlt, he, hname⟩ := h.bound
  · exact Or.inl hn
  · refine Or.inr ⟨hn, w, Nat.lt_succ_of_lt hlt, he, ?_⟩
    have hw : (a.wrap type f).wrapped w = a.wrapped w := Function.update_of_ne hlt.ne ..
    rw [hw, hname]

/-- A new function is about to be added by `once`. -/
theorem register (h : AtMost 0 (.wrapper a.wrappers) name a none) (type : JSString) (f : ℕ) :
    AtMost 1 (.wrapper a.wrappers) type (a.wrap type f).create
      (some (type, .wrapper a.wrappers)) := by
  have hself : (a.wrap type f).wrapped a.wrappers = (type, f) := Function.update_self ..
  have hwait : ((waiting (some (type, .wrapper a.wrappers)) a.stack).map Prod.snd).count
      (.wrapper a.wrappers) =
        ((waiting none a.stack).map Prod.snd).count (.wrapper a.wrappers) + 1 :=
    List.count_cons_self
  have hown := List.count_eq_zero.mpr (h.not_mem_own : _ ∉ (a.own type).elems)
  have hp := h.pending
  constructor
  · rfl
  · exact Or.inr ⟨rfl, a.wrappers, Nat.lt_succ_self _, rfl, congrArg Prod.fst hself⟩
  · exact fun t ht ↦ absurd ht h.not_mem_own
  · intro p hmem he
    refine ⟨?_, rfl⟩
    rcases List.mem_cons.mp hmem with rfl | hmem
    · rfl
    · have hm : .wrapper a.wrappers ∈ (waiting none a.stack).map Prod.snd :=
        he ▸ List.mem_map_of_mem hmem
      have hpos := List.count_pos_iff.mpr hm
      omega
  · change ((waiting _ a.stack).map Prod.snd).count _ + (a.own type).elems.count _ +
      a.calls.count _ ≤ 1
    rw [hwait, hown]
    omega
  · change ((waiting _ a.stack).map Prod.snd).count _ + (queued a.stack).count _ +
      a.calls.count _ ≤ 1
    rw [hwait]
    omega

end AtMost

/-! ## Steps -/

/-- The functions that were passed to `on` and `once` are the same. -/
def Keeps (a b : Emitter) : Prop :=
  b.ons = a.ons ∧ b.wrapped = a.wrapped ∧ b.wrappers = a.wrappers

namespace Keeps

theorem refl (a : Emitter) : Keeps a a := ⟨rfl, rfl, rfl⟩

theorem removeListener : Keeps a (a.removeListener type x) := by
  unfold Emitter.removeListener
  split <;> exact refl _

theorem finish {id : ℕ} {r : Bool} (hb : a.finish id r after = .ok b) : Keeps a b := by
  rcases after with _ | ⟨t, y⟩
  · obtain rfl := Except.ok.inj hb
    exact refl _
  · rw [Emitter.finish, append] at hb
    split_ifs at hb
    obtain rfl := Except.ok.inj hb
    exact refl _

theorem proceed {f : Frame} {stack : List Frame} (hb : a.proceed f stack = .ok b) : Keeps a b := by
  unfold Emitter.proceed at hb
  split at hb
  · have hfinish : Keeps (a.setStack stack) b := finish hb
    exact hfinish
  · split_ifs at hb
    · obtain rfl := Except.ok.inj hb
      unfold call
      split
      · exact removeListener
      · exact refl _
    · obtain rfl := Except.ok.inj hb
      exact refl _

theorem emit (hb : a.emit type after = .ok b) : Keeps a b := by
  unfold Emitter.emit at hb
  split_ifs at hb
  · obtain rfl := Except.ok.inj hb
    exact refl _
  · split at hb
    · have hfinish : Keeps (a.begin type) b := finish hb
      exact hfinish
    · have hproceed : Keeps (a.begin type) b := proceed hb
      exact hproceed

end Keeps

/-- The state with the function that an event brings in. -/
def note (a : Emitter) : EmitterEvent → Emitter
  | .on _ x => a.noteOn x
  | .once type f => a.wrap type f
  | _ => a

theorem Keeps.step {ev : EmitterEvent} (hb : a.step ev = .ok b) : Keeps (a.note ev) b := by
  cases ev with
  | on type x =>
    rw [Emitter.step, addListener] at hb
    have hemit : Keeps (a.noteOn x).create b := emit hb
    exact hemit
  | once type f =>
    rw [Emitter.step, addListener] at hb
    have hemit : Keeps (a.wrap type f).create b := emit hb
    exact hemit
  | emit type => exact emit hb
  | removeListener type x =>
    obtain rfl := Except.ok.inj hb
    exact removeListener
  | removeAllListeners type =>
    rw [Emitter.step, Emitter.removeAllListeners] at hb
    split_ifs at hb <;> obtain rfl := Except.ok.inj hb <;> exact refl _
  | listeners type =>
    rw [Emitter.step, askListeners] at hb
    split_ifs at hb
    obtain rfl := Except.ok.inj hb
    exact refl _
  | setMaxListeners k =>
    obtain rfl := Except.ok.inj hb
    exact refl _
  | returns =>
    rw [Emitter.step] at hb
    split at hb
    · exact proceed hb
    · obtain rfl := Except.ok.inj hb
      exact refl _
  | throws =>
    obtain rfl := Except.ok.inj hb
    exact refl _

/-- The function that an event adds. -/
def adds (a : Emitter) : EmitterEvent → Option Elem
  | .on _ x => some x
  | .once _ _ => some (.wrapper a.wrappers)
  | _ => none

/-- The event that is emitted. -/
def emits : EmitterEvent → Option JSString
  | .on _ _ | .once _ _ => some (js "newListener")
  | .emit type => some type
  | _ => none

/-- One step, which does not add the function. -/
theorem AtMost.step (h : AtMost n e name a none) {ev : EmitterEvent} (hadds : a.adds ev ≠ some e)
    (hapart : ∀ t, emits ev = some t → e ∈ (a.own t).elems → e ∉ queued a.stack)
    (hb : a.step ev = .ok b) : AtMost n e name b none := by
  cases ev with
  | on type x =>
    have hx : x ≠ e := fun hx ↦ hadds (congrArg some hx)
    have hnote : AtMost n e name (a.noteOn x) none := { h with }
    exact (hnote.create.add_of_ne hx).addListener (hapart _ rfl) hb
  | once type f =>
    have hx : .wrapper a.wrappers ≠ e := fun hx ↦ hadds (congrArg some hx)
    exact ((h.wrap type f).create.add_of_ne hx).addListener (hapart _ rfl) hb
  | emit type => exact h.emit (hapart type rfl) hb
  | removeListener type x =>
    obtain rfl := Except.ok.inj hb
    exact h.removeListener
  | removeAllListeners type => exact h.removeAllListeners hb
  | listeners type => exact h.askListeners hb
  | setMaxListeners k =>
    obtain rfl := Except.ok.inj hb
    exact h.setMaxListeners k
  | returns =>
    rw [Emitter.step] at hb
    split at hb
    · rename_i f stack hstack
      refine AtMost.proceed ?_ hb
      rw [← hstack]
      exact { h with }
    · obtain rfl := Except.ok.inj hb
      exact h
  | throws =>
    obtain rfl := Except.ok.inj hb
    -- the frame that throws is dropped, with what it still had to call
    rcases hstack : a.stack with _ | ⟨f, stack⟩
    · change AtMost n e name (a.setStack []) none
      rw [← hstack]
      exact { h with }
    · have hset : AtMost n e name (a.setStack (f :: stack)) none := by
        rw [← hstack]
        exact { h with }
      exact hset.pop.drop

/-! ## Runs -/

/-- Where an event is emitted, no copy that a call of `emit` goes through still holds a function
that `once` has made of `f` and that would be called. -/
def Apart (f : ℕ) (a : Emitter) (ev : EmitterEvent) : Prop :=
  ∀ type ∈ emits ev, ∀ w < a.wrappers, (a.wrapped w).2 = f →
    .wrapper w ∈ (a.own type).elems → .wrapper w ∉ queued a.stack

instance (f : ℕ) (a : Emitter) (ev : EmitterEvent) : Decidable (Apart f a ev) :=
  inferInstanceAs (Decidable (∀ type ∈ emits ev, ∀ w < a.wrappers, (a.wrapped w).2 = f →
    .wrapper w ∈ (a.own type).elems → .wrapper w ∉ queued a.stack))

/-- Where `f` and what `once` has made of it can be. -/
structure Counted (f : ℕ) (a : Emitter) : Prop where
  fn : .fn f ∉ a.ons → AtMost 0 (.fn f) [] a none
  new : ∀ w, a.wrappers ≤ w → AtMost 0 (.wrapper w) [] a none
  wrapper : ∀ w < a.wrappers, (a.wrapped w).2 = f → .wrapper w ∉ a.ons →
    AtMost 1 (.wrapper w) (a.wrapped w).1 a none

theorem atMost_init (he : e.isListener = true) : AtMost 0 e name init none where
  isListener := he
  bound := Or.inl rfl
  own_eq _ h := by cases h
  waiting_eq _ h := by cases h
  visible := le_rfl
  pending := le_rfl

theorem counted_init (f : ℕ) : Counted f init where
  fn _ := atMost_init rfl
  new _ _ := atMost_init rfl
  wrapper _ h := absurd h (Nat.not_lt_zero _)

/-- A function that is nowhere is not copied. -/
theorem AtMost.step_zero (h : AtMost 0 e name a none) {ev : EmitterEvent}
    (hadds : a.adds ev ≠ some e) (hb : a.step ev = .ok b) : AtMost 0 e name b none :=
  h.step hadds (fun _ _ hm ↦ absurd hm h.not_mem_own) hb

/-- A function that was not passed to `on` was not added, unless it is new. -/
theorem adds_ne_of_not_mem {ev : EmitterEvent} (hb : a.step ev = .ok b) (hx : x ∉ b.ons)
    (hne : x ≠ .wrapper a.wrappers) : x ∉ a.ons ∧ a.adds ev ≠ some x := by
  rw [(Keeps.step hb).1] at hx
  cases ev with
  | on type y =>
    have hx' : x ∉ a.ons ++ [y] := hx
    refine ⟨fun h ↦ hx' (List.mem_append_left _ h), fun h ↦ hx' ?_⟩
    rw [Option.some.inj h]
    exact List.mem_append_right _ (List.mem_singleton_self x)
  | once type f => exact ⟨hx, fun h ↦ hne (Option.some.inj h).symm⟩
  | _ => exact ⟨hx, nofun⟩

/-- What `once` will make later was not added. -/
theorem adds_ne_of_le {ev : EmitterEvent} {w : ℕ} (hg : a.Allows ev) (hb : a.step ev = .ok b)
    (hw : b.wrappers ≤ w) : a.wrappers ≤ w ∧ a.adds ev ≠ some (.wrapper w) := by
  rw [(Keeps.step hb).2.2] at hw
  cases ev with
  | on type y =>
    refine ⟨hw, fun h ↦ ?_⟩
    have hy : a.has y = true := hg
    rw [Option.some.inj h, has, decide_eq_true_iff] at hy
    exact absurd hw (Nat.not_le.mpr hy)
  | once type f =>
    have hlt : a.wrappers < w := hw
    refine ⟨hlt.le, fun h ↦ hlt.ne ?_⟩
    exact Elem.wrapper.inj (Option.some.inj h)
  | _ => exact ⟨hw, nofun⟩

theorem wrapped_of_lt {ev : EmitterEvent} {w : ℕ} (hb : a.step ev = .ok b) (hw : w < a.wrappers) :
    b.wrapped w = a.wrapped w := by
  rw [(Keeps.step hb).2.1]
  cases ev with
  | once type f => exact Function.update_of_ne hw.ne ..
  | _ => rfl

/-- Only `once` makes a function. -/
theorem exists_once {ev : EmitterEvent} {w : ℕ} (hb : a.step ev = .ok b) (hw : w < b.wrappers)
    (hnot : ¬w < a.wrappers) : ∃ type f, ev = .once type f ∧ w = a.wrappers := by
  rw [(Keeps.step hb).2.2] at hw
  cases ev with
  | once type f =>
    have hlt : w < a.wrappers + 1 := hw
    exact ⟨type, f, rfl, Nat.le_antisymm (Nat.le_of_lt_succ hlt) (Nat.not_lt.mp hnot)⟩
  | _ => exact absurd hw hnot

theorem Counted.step {f : ℕ} (h : Counted f a) {ev : EmitterEvent} (hg : a.Allows ev)
    (hp : Apart f a ev) (hb : a.step ev = .ok b) : Counted f b := by
  constructor
  · intro hf
    obtain ⟨hf', hadds⟩ := adds_ne_of_not_mem hb hf nofun
    exact (h.fn hf').step_zero hadds hb
  · intro w hw
    obtain ⟨hw', hadds⟩ := adds_ne_of_le hg hb hw
    exact (h.new w hw').step_zero hadds hb
  · intro w hw hf hons
    by_cases hlt : w < a.wrappers
    · rw [wrapped_of_lt hb hlt] at hf ⊢
      have hne : Elem.wrapper w ≠ .wrapper a.wrappers := fun he ↦ hlt.ne (Elem.wrapper.inj he)
      obtain ⟨hons', hadds⟩ := adds_ne_of_not_mem hb hons hne
      exact (h.wrapper w hlt hf hons').step hadds (fun t ht ↦ hp t ht w hlt hf) hb
    · -- the step is the `once` that makes the function
      obtain ⟨type, g, rfl, rfl⟩ := exists_once hb hw hlt
      have hself : (a.wrap type g).wrapped a.wrappers = (type, g) := Function.update_self ..
      have hname : (b.wrapped a.wrappers).1 = type := by
        rw [(Keeps.step hb).2.1]
        exact congrArg Prod.fst hself
      have hnew := h.new a.wrappers le_rfl
      rw [hname]
      exact (hnew.register type g).addListener (fun hm ↦ absurd hm hnew.not_mem_own) hb

/-- Calling the function calls `f`. -/
def invokes (f : ℕ) (a : Emitter) : Elem → Bool
  | .fn g => g = f
  | .wrapper w => (a.wrapped w).2 = f
  | _ => false

/-- Neither `f` nor a function that calls it was passed to `on`, and `f` was passed to `once` a
single time. -/
def RegisteredOnce (f : ℕ) (a : Emitter) : Prop :=
  (∀ x ∈ a.ons, a.invokes f x = false) ∧
    ∀ v < a.wrappers, ∀ w < a.wrappers, (a.wrapped v).2 = f → (a.wrapped w).2 = f → v = w

instance (f : ℕ) (a : Emitter) : Decidable (RegisteredOnce f a) :=
  inferInstanceAs (Decidable ((∀ x ∈ a.ons, a.invokes f x = false) ∧
    ∀ v < a.wrappers, ∀ w < a.wrappers, (a.wrapped v).2 = f → (a.wrapped w).2 = f → v = w))

theorem counted_of_apart {f : ℕ} (h : (machine.restrict (Apart f)).Reaches init a) :
    Counted f a := by
  refine h.invariant (counted_init f) ?_
  intro b c ev hb hg hc
  exact hb.step hg.1 hg.2 hc

/-- What `once` adds is called at most once, unless its event is emitted again while a call of
`emit` has still to call it. -/
theorem called_at_most_once {f : ℕ} (h : (machine.restrict (Apart f)).Reaches init a)
    (hf : RegisteredOnce f a) : a.calls.countP (a.invokes f) ≤ 1 := by
  have hc := counted_of_apart h
  obtain ⟨hons, hunique⟩ := hf
  -- what was called is a function that `once` has made
  have hcalled (x : Elem) (hx : x ∈ a.calls) (hinvokes : a.invokes f x = true) :
      ∃ w < a.wrappers, x = .wrapper w ∧ (a.wrapped w).2 = f := by
    cases x with
    | fn g =>
      obtain rfl : g = f := of_decide_eq_true hinvokes
      have hnot : .fn g ∉ a.ons := fun hm ↦ absurd (hons _ hm) (by rw [hinvokes]; decide)
      exact absurd hx (hc.fn hnot).not_mem_calls
    | wrapper w =>
      by_cases hw : w < a.wrappers
      · exact ⟨w, hw, rfl, of_decide_eq_true hinvokes⟩
      · exact absurd hx (hc.new w (Nat.not_lt.mp hw)).not_mem_calls
    | builtin _ | number _ | object => cases hinvokes
  by_cases hex : ∃ x ∈ a.calls, a.invokes f x = true
  · obtain ⟨x, hx, hinvokes⟩ := hex
    obtain ⟨w, hw, rfl, hwf⟩ := hcalled x hx hinvokes
    have hnot : .wrapper w ∉ a.ons := fun hm ↦ absurd (hons _ hm) (by rw [hinvokes]; decide)
    have hp := (hc.wrapper w hw hwf hnot).pending
    have hle : a.calls.countP (a.invokes f) ≤ a.calls.count (.wrapper w) := by
      refine List.countP_mono_left fun y hy hyf ↦ ?_
      obtain ⟨v, hv, rfl, hvf⟩ := hcalled y hy hyf
      rw [hunique v hv w hw hvf hwf]
      exact beq_self_eq_true _
    omega
  · have hzero : a.calls.countP (a.invokes f) = 0 :=
      List.countP_eq_zero.mpr fun x hx hxf ↦ hex ⟨x, hx, hxf⟩
    omega

/-- The listener emits the event again. -/
theorem called_at_most_once_again :
    ∃ a, (machine.restrict (Apart 1)).run init [.on (js "x") (.fn 0), .once (js "x") 1,
      .emit (js "x"), .returns, .emit (js "x"), .returns, .returns] = some a ∧
        RegisteredOnce 1 a ∧ a.calls.countP (a.invokes 1) ≤ 1 := by
  have hrun : ((machine.restrict (Apart 1)).run init [.on (js "x") (.fn 0), .once (js "x") 1,
      .emit (js "x"), .returns, .emit (js "x"), .returns, .returns]).map
        (fun a ↦ decide (RegisteredOnce 1 a)) = some true := by decide
  obtain ⟨a, ha, heq⟩ := Option.map_eq_some_iff.mp hrun
  have hsingle := of_decide_eq_true heq
  exact ⟨a, ha, hsingle, called_at_most_once (Machine.reaches_of_run ha) hsingle⟩

/-- Another listener emits the event again, before the one that `once` has added is called. Both
calls of `emit` have copied it. -/
theorem once_called_twice :
    ¬∀ f a, machine.Reaches init a → RegisteredOnce f a → a.calls.countP (a.invokes f) ≤ 1 := by
  intro hall
  have hrun : (machine.run init [.on (js "x") (.fn 0), .once (js "x") 1, .emit (js "x"),
      .emit (js "x"), .returns, .returns, .returns]).map
        (fun a ↦ (decide (RegisteredOnce 1 a), a.calls.countP (a.invokes 1))) =
          some (true, 2) := by decide
  obtain ⟨a, ha, heq⟩ := Option.map_eq_some_iff.mp hrun
  obtain ⟨hsingle, hcount⟩ := Prod.mk.inj heq
  have hle := hall 1 a (Machine.reaches_of_run ha) (of_decide_eq_true hsingle)
  omega

end Emitter

end SpiderNode.Events
