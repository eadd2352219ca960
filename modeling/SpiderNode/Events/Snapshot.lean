import SpiderNode.Events.Emitter
import Mathlib.Data.List.Nodup

/-!
# Emitters as maps to lists

`Denotes` says that the properties of `_events` stand for the lists that the operations come to.
It survives any nesting of calls, because each operation finishes before the next begins; the frames
of `emit` work on copies. `Snapshots` says what a frame does with its copy.

Both rest on the name of the event. A name that every object has is taken for a listener as long as
`_events` has no property of its own for it, and `maxListeners` is two things at once. In addition,
`removeAllListeners` takes the empty name for none, and `emit` returns `true` for an empty array,
which is what `listeners` leaves behind when there is no listener.
-/

namespace SpiderNode.Events.Emitter

open Function (update)

variable {P : JSString → Prop} {a b : Emitter} {type : JSString} {e : Elem}

/-! ## Lists and slots -/

theorem listOf_concat (ops : List ListOp) (op : ListOp) :
    listOf (ops ++ [op]) = (listOf ops).apply op := List.foldl_concat ..

/-- The list that a slot stands for. -/
def denote : Slot → List Elem
  | .absent | .null => []
  | .one e => if e.isListener then [e] else []
  | .many l => l

theorem denote_inherited (type : JSString) : denote (inherited type) = [] := by
  unfold inherited
  split_ifs <;> rfl

/-- The names that are not only names of events. -/
def Special (type : JSString) : Prop := type ∈ objectPrototype ∨ type = js "maxListeners"

instance (type : JSString) : Decidable (Special type) :=
  inferInstanceAs (Decidable (type ∈ objectPrototype ∨ type = js "maxListeners"))

theorem special_of_inherited (h : inherited type = .one e) : Special type := by
  unfold inherited at h
  split_ifs at h with h₁ h₂
  · left
    rw [h₁]
    decide
  · exact Or.inl h₂

theorem slot_of_own_ne (h : a.own type ≠ .absent) : a.slot type = a.own type := by
  unfold slot
  split
  · rename_i h'
    exact absurd h' h
  · rfl

theorem slot_of_own_eq (h : a.own type = .absent) : a.slot type = inherited type := by
  rw [slot, h]

/-- The object stands for the lists of the names in `P`. -/
structure Denotes (P : JSString → Prop) (a : Emitter) : Prop where
  denote_slot : ∀ type, P type → denote (a.slot type) = a.listeners type
  isListener_of_mem : ∀ type, P type → ∀ l, a.slot type = .many l → ∀ e ∈ l, e.isListener = true
  special : ∀ type e, a.slot type = .one e → e.isListener = false → Special type
  own_of_not : a.hasEvents = false → ∀ type, a.own type = .absent

theorem Denotes.denote_value (h : Denotes P a) (hP : P type) :
    denote (a.value type) = a.listeners type := by
  by_cases he : a.hasEvents = true
  · rw [value, if_pos he, h.denote_slot type hP]
  · rw [value, if_neg he, ← h.denote_slot type hP,
      slot_of_own_eq (h.own_of_not (by simpa using he) type),
      denote_inherited]
    rfl

/-- One property changes, and the list of the same name with it. -/
theorem Denotes.update (h : Denotes P a) {s : Slot} (hown : b.own = update a.own type s)
    (hb : b.hasEvents = true) (hlist : ∀ t ≠ type, b.listeners t = a.listeners t)
    (hdenote : P type → denote s = b.listeners type)
    (hmany : P type → ∀ l, s = .many l → ∀ e ∈ l, e.isListener = true)
    (hone : ∀ e, s = .one e → e.isListener = false → Special type) : Denotes P b := by
  have hne {t : JSString} (ht : t ≠ type) : b.slot t = a.slot t := by
    rw [slot, hown, Function.update_of_ne ht, slot]
  have hself : b.own type = s := by rw [hown, Function.update_self]
  -- a property that is deleted lets the inherited one through
  have hslot : b.slot type = s ∨ s = .absent ∧ b.slot type = inherited type := by
    by_cases hs : s = .absent
    · exact Or.inr ⟨hs, slot_of_own_eq (hself.trans hs)⟩
    · exact Or.inl ((slot_of_own_ne (by rwa [hself])).trans hself)
  constructor
  · intro t hP
    by_cases ht : t = type
    · rw [ht] at hP ⊢
      rcases hslot with hs | ⟨rfl, hs⟩
      · rw [hs, hdenote hP]
      · rw [hs, denote_inherited, ← hdenote hP]
        rfl
    · rw [hne ht, hlist t ht, h.denote_slot t hP]
  · intro t hP l hl
    by_cases ht : t = type
    · rw [ht] at hP hl
      rcases hslot with hs | ⟨-, hs⟩
      · exact hmany hP l (hs.symm.trans hl)
      · have hi := denote_inherited type
        rw [← hs, hl] at hi
        rw [show l = [] from hi]
        exact fun _ h ↦ by cases h
    · exact h.isListener_of_mem t hP l ((hne ht).symm.trans hl)
  · intro t e he hnot
    by_cases ht : t = type
    · rw [ht] at he ⊢
      rcases hslot with hs | ⟨-, hs⟩
      · exact hone e (hs.symm.trans he) hnot
      · exact special_of_inherited (hs.symm.trans he)
    · exact h.special t e ((hne ht).symm.trans he) hnot
  · intro hf
    rw [hb] at hf
    cases hf

/-! ## Operations -/

/-- A property that `addListener` and `listeners` take for a listener, though it is none. -/
def Foreign (a : Emitter) (type : JSString) : Prop :=
  ∃ e, a.value type = .one e ∧ e.truthy = true ∧ e.isListener = false

theorem truthy_of_isListener (h : e.isListener = true) : e.truthy = true := by
  cases e <;> first | rfl | cases h

theorem listeners_log (a : Emitter) (op : ListOp) (t : JSString) :
    (a.log op).listeners t = (listOf a.ops).apply op t := by
  rw [listeners, log, listOf_concat]

@[simp] theorem apply_add_self (m : Lists) (type : JSString) (e : Elem) :
    m.apply (.add type e) type = m type ++ [e] := Function.update_self ..

@[simp] theorem apply_remove_self (m : Lists) (type : JSString) (e : Elem) :
    m.apply (.remove type e) type = (m type).erase e := Function.update_self ..

@[simp] theorem apply_removeAll_self (m : Lists) (type : JSString) :
    m.apply (.removeAll type) type = [] := Function.update_self ..

theorem apply_add_of_ne {t : JSString} (h : t ≠ type) (m : Lists) (e : Elem) :
    m.apply (.add type e) t = m t := Function.update_of_ne h ..

theorem apply_remove_of_ne {t : JSString} (h : t ≠ type) (m : Lists) (e : Elem) :
    m.apply (.remove type e) t = m t := Function.update_of_ne h ..

theorem apply_removeAll_of_ne {t : JSString} (h : t ≠ type) (m : Lists) :
    m.apply (.removeAll type) t = m t := Function.update_of_ne h ..

/-- A listener is added at the end of the list. -/
theorem push_spec {s : Slot} (he : e.isListener = true)
    (hmany : ∀ l, s = .many l → ∀ x ∈ l, x.isListener = true)
    (hone : ∀ x, s = .one x → x.truthy = true → x.isListener = true) :
    denote (s.push e) = denote s ++ [e] ∧
      ∀ l, s.push e = .many l → ∀ x ∈ l, x.isListener = true := by
  cases s with
  | absent | null => simp [Slot.push, denote, he]
  | one y =>
    by_cases hy : y.truthy = true
    · simp [Slot.push, denote, hy, he, hone y rfl hy]
    · have hnot : y.isListener ≠ true := fun h ↦ hy (truthy_of_isListener h)
      simp [Slot.push, denote, hy, he, hnot]
  | many l =>
    have hl := hmany l rfl
    simp only [Slot.push, denote, Slot.many.injEq, forall_eq', List.mem_append, List.mem_singleton,
      true_and]
    rintro x (hx | rfl)
    · exact hl x hx
    · exact he

theorem eq_of_push_eq_one {s : Slot} {x : Elem} (h : s.push e = .one x) : x = e := by
  rcases s with _ | _ | y | l
  · exact (Slot.one.inj h).symm
  · exact (Slot.one.inj h).symm
  · rw [Slot.push] at h
    split_ifs at h
    exact (Slot.one.inj h).symm
  · cases h

theorem not_mem_of_remove_eq_none {s : Slot} (h : s.remove e = none) :
    e ∉ denote s := by
  cases s with
  | absent | null => exact List.not_mem_nil
  | one y =>
    have hne : y ≠ e := by
      intro hy
      rw [Slot.remove, if_pos hy] at h
      cases h
    simp only [denote]
    split_ifs
    · exact fun hm ↦ hne (List.mem_singleton.mp hm).symm
    · exact List.not_mem_nil
  | many l =>
    intro (hm : e ∈ l)
    rw [Slot.remove, if_pos hm] at h
    cases h

/-- A listener is removed from the list. -/
theorem remove_spec {s s' : Slot} (he : e.isListener = true) (h : s.remove e = some s') :
    denote s' = (denote s).erase e ∧ (∀ l, s' = .many l → ∃ l', s = .many l' ∧ l ⊆ l') ∧
      ∀ x, s' ≠ .one x := by
  cases s with
  | absent | null => cases h
  | one y =>
    rw [Slot.remove] at h
    split_ifs at h with hy
    obtain rfl := Option.some.inj h
    simp [denote, hy, he]
  | many l =>
    rw [Slot.remove] at h
    split_ifs at h with hm hnil
    · obtain rfl := Option.some.inj h
      simp [denote, hnil]
    · obtain rfl := Option.some.inj h
      refine ⟨rfl, fun l' hl ↦ ⟨l, rfl, ?_⟩, nofun⟩
      rw [← Slot.many.inj hl]
      exact List.erase_subset

theorem denote_of_not_truthy {s : Slot} (h : s.truthy ≠ true) : denote s = [] := by
  cases s with
  | absent | null => rfl
  | one y =>
    have hnot : y.isListener ≠ true := fun hy ↦ h (truthy_of_isListener hy)
    exact if_neg hnot
  | many l => exact absurd rfl h

theorem toArray_eq {s : Slot} (hone : ∀ x, s = .one x → x.truthy = true → x.isListener = true) :
    s.toArray = denote s := by
  cases s with
  | absent | null | many l => rfl
  | one y =>
    by_cases hy : y.truthy = true
    · simp [Slot.toArray, denote, hy, hone y rfl hy]
    · rw [denote_of_not_truthy (s := .one y) hy, Slot.toArray, if_neg hy]

namespace Denotes

/-- All that is in a list is a listener. -/
theorem isListener_of_mem_listeners (h : Denotes P a) (hP : P type) (he : e ∈ a.listeners type) :
    e.isListener = true := by
  rw [← h.denote_slot type hP] at he
  rcases hs : a.slot type with _ | _ | x | l
  · rw [hs] at he
    cases he
  · rw [hs] at he
    cases he
  · rw [hs, denote] at he
    split_ifs at he with hx
    · rwa [List.mem_singleton.mp he]
    · cases he
  · rw [hs] at he
    exact h.isListener_of_mem type hP l hs e he

theorem create (h : Denotes P a) : Denotes P a.create := { h with own_of_not := fun h ↦ by cases h }

/-- An operation that changes neither the object nor a list. -/
theorem log (h : Denotes P a) {op : ListOp}
    (hlist : ∀ t, P t → (listOf a.ops).apply op t = a.listeners t) : Denotes P (a.log op) := by
  refine { h with denote_slot := fun t hP ↦ ?_ }
  rw [listeners_log, hlist t hP]
  exact h.denote_slot t hP

theorem append (h : Denotes P a) (hhas : a.hasEvents = true) (hf : P type → ¬Foreign a type)
    (he : e.isListener = true) (hb : a.append type e = .ok b) : Denotes P b := by
  unfold Emitter.append at hb
  split_ifs at hb
  obtain rfl := Except.ok.inj hb
  have hvalue : a.value type = a.slot type := if_pos hhas
  have hpush (hP : P type) := push_spec he
    (fun l hl ↦ h.isListener_of_mem type hP l (hvalue.symm.trans hl)) fun x hx ht ↦ by
      by_contra hnot
      exact hf hP ⟨x, hx, ht, by simpa using hnot⟩
  refine h.update rfl hhas (fun t ht ↦ ?_) (fun hP ↦ ?_) (fun hP ↦ (hpush hP).2) fun x hx hnot ↦ ?_
  · rw [listeners_log, apply_add_of_ne ht]
    rfl
  · rw [(hpush hP).1, h.denote_value hP, listeners_log, apply_add_self]
    rfl
  · rw [eq_of_push_eq_one hx, he] at hnot
    cases hnot

theorem removeListener (h : Denotes P a) (he : e.isListener = true) :
    Denotes P (a.removeListener type e) := by
  unfold Emitter.removeListener
  rcases hr : (a.value type).remove e with _ | s
  · -- the listener is not there
    refine h.log fun t hP ↦ ?_
    by_cases ht : t = type
    · have hmem := not_mem_of_remove_eq_none hr
      rw [ht] at hP ⊢
      rw [h.denote_value hP] at hmem
      rw [apply_remove_self, ← Emitter.listeners, List.erase_of_not_mem hmem]
    · rw [apply_remove_of_ne ht]
      rfl
  · have hhas : a.hasEvents = true := by
      by_contra hnot
      rw [value, if_neg hnot] at hr
      cases hr
    have hvalue : a.value type = a.slot type := if_pos hhas
    obtain ⟨hdenote, hmany, hone⟩ := remove_spec he hr
    refine h.update rfl hhas (fun t ht ↦ ?_) (fun hP ↦ ?_) (fun hP l hl x hx ↦ ?_)
      fun x hx ↦ absurd hx (hone x)
    · rw [listeners_log, apply_remove_of_ne ht]
      rfl
    · rw [hdenote, h.denote_value hP, listeners_log, apply_remove_self]
      rfl
    · obtain ⟨l', hl', hsub⟩ := hmany l hl
      exact h.isListener_of_mem type hP l' (hvalue.symm.trans hl') x (hsub hx)

theorem removeAllListeners (h : Denotes P a) (hempty : type = [] → a.listeners [] = [])
    (hb : a.removeAllListeners type = .ok b) : Denotes P b := by
  unfold Emitter.removeAllListeners at hb
  split_ifs at hb with ht hp
  · obtain rfl := Except.ok.inj hb
    have hhas : a.hasEvents = true := by
      by_contra hnot
      rw [value, if_neg hnot] at ht
      exact absurd ht.2 (by decide)
    refine h.update rfl hhas (fun t ht ↦ ?_) (fun _ ↦ ?_) nofun nofun
    · rw [listeners_log, apply_removeAll_of_ne ht]
      rfl
    · rw [listeners_log, apply_removeAll_self]
      rfl
  · -- there is nothing to remove
    obtain rfl := Except.ok.inj hb
    have hnil (hP : P type) : a.listeners type = [] := by
      by_cases hz : type = []
      · rw [hz]
        exact hempty hz
      · rw [← h.denote_value hP]
        have hfalse : (a.value type).truthy ≠ true := fun h ↦ ht ⟨hz, h⟩
        exact denote_of_not_truthy hfalse
    refine h.log fun t hP ↦ ?_
    by_cases he : t = type
    · rw [he] at hP ⊢
      rw [apply_removeAll_self, hnil hP]
    · rw [apply_removeAll_of_ne he]
      rfl

theorem askListeners (h : Denotes P a) (hf : P type → ¬Foreign a.create type)
    (hb : a.askListeners type = .ok b) :
    Denotes P b ∧
      (P type → b.answers = a.answers ++ [(a.listeners type, a.listeners type)]) := by
  unfold Emitter.askListeners at hb
  split_ifs at hb
  obtain rfl := Except.ok.inj hb
  have hc := h.create
  have hvalue : a.create.value type = a.create.slot type := if_pos rfl
  have harray (hP : P type) : (a.create.value type).toArray = a.listeners type := by
    rw [toArray_eq fun x hx ht ↦ ?_, hc.denote_value hP]
    · rfl
    · by_contra hnot
      exact hf hP ⟨x, hx, ht, by simpa using hnot⟩
  refine ⟨hc.update rfl rfl (fun _ _ ↦ rfl) harray ?_ nofun, fun hP ↦ ?_⟩
  · intro hP l hl x hx
    rw [← Slot.many.inj hl, harray hP] at hx
    exact h.isListener_of_mem_listeners hP hx
  · rw [harray hP]
    rfl

theorem setMaxListeners (h : Denotes P a)
    (hl : P (js "maxListeners") → a.listeners (js "maxListeners") = []) (n : ℤ) :
    Denotes P (a.setMaxListeners n) :=
  h.create.update rfl rfl (fun _ _ ↦ rfl) (fun hP ↦ (hl hP).symm) nofun fun _ _ _ ↦ Or.inr rfl

end Denotes

/-! ## Snapshots -/

/-- Each call of `emit` with a name in `P` goes through the list of its event as it was at the
moment of the call. -/
structure Snapshots (P : JSString → Prop) (a : Emitter) : Prop where
  id_lt : ∀ f ∈ a.stack, f.id < a.emitted
  nodup : (a.stack.map Frame.id).Nodup
  called_append : ∀ f ∈ a.stack, P (a.emission f.id).type →
    (a.emission f.id).called ++ f.pending = (a.emission f.id).expected
  called_eq : ∀ id < a.emitted, P (a.emission id).type → (∀ f ∈ a.stack, f.id ≠ id) →
    (a.emission id).called = (a.emission id).expected
  isListener_pending : ∀ f ∈ a.stack, P (a.emission f.id).type →
    ∀ e ∈ f.pending, e.isListener = true
  isListener_after : ∀ f ∈ a.stack, ∀ type e, f.after = some (type, e) → e.isListener = true
  hasEvents_of_mem : ∀ f ∈ a.stack, a.hasEvents = true

namespace Snapshots

/-- Only frames and calls matter. -/
theorem of_eq (h : Snapshots P a) (hstack : b.stack = a.stack) (hemitted : b.emitted = a.emitted)
    (hemission : b.emission = a.emission) (hhas : a.hasEvents = true → b.hasEvents = true) :
    Snapshots P b where
  id_lt := hstack ▸ hemitted ▸ h.id_lt
  nodup := hstack ▸ h.nodup
  called_append := hstack ▸ hemission ▸ h.called_append
  called_eq := hstack ▸ hemitted ▸ hemission ▸ h.called_eq
  isListener_pending := hstack ▸ hemission ▸ h.isListener_pending
  isListener_after := hstack ▸ h.isListener_after
  hasEvents_of_mem := hstack ▸ fun f hf ↦ hhas (h.hasEvents_of_mem f hf)

variable {f : Frame} {stack : List Frame}

/-- A frame that has called all its listeners is dropped. -/
theorem pop (h : Snapshots P (a.setStack (f :: stack)))
    (hf : P (a.emission f.id).type → f.pending = []) : Snapshots P (a.setStack stack) where
  id_lt g hg := h.id_lt g (List.mem_cons_of_mem f hg)
  nodup := (List.nodup_cons.mp h.nodup).2
  called_append g hg := h.called_append g (List.mem_cons_of_mem f hg)
  called_eq id hid hP hnot := by
    by_cases he : id = f.id
    · rw [he] at hP ⊢
      have hf' := h.called_append f (List.mem_cons_self ..) hP
      rwa [hf hP, List.append_nil] at hf'
    · refine h.called_eq id hid hP fun g hg ↦ ?_
      rcases List.mem_cons.mp hg with rfl | hg
      · exact Ne.symm he
      · exact hnot g hg
  isListener_pending g hg := h.isListener_pending g (List.mem_cons_of_mem f hg)
  isListener_after g hg := h.isListener_after g (List.mem_cons_of_mem f hg)
  hasEvents_of_mem g hg := h.hasEvents_of_mem g (List.mem_cons_of_mem f hg)

/-- What an emission has returned does not matter. -/
theorem setReturned (h : Snapshots P a) (id : ℕ) (r : Option Bool) :
    Snapshots P (a.setEmission id { a.emission id with returned := r }) := by
  have hcalled (i : ℕ) :
      ((a.setEmission id { a.emission id with returned := r }).emission i).type =
        (a.emission i).type ∧
      ((a.setEmission id { a.emission id with returned := r }).emission i).called =
        (a.emission i).called ∧
      ((a.setEmission id { a.emission id with returned := r }).emission i).expected =
        (a.emission i).expected := by
    by_cases hi : i = id
    · simp [hi, setEmission]
    · simp [hi, setEmission]
  refine { h with
    called_append := fun f hf hP ↦ ?_
    called_eq := fun i hi hP hnot ↦ ?_
    isListener_pending := fun f hf hP ↦ ?_ }
  · rw [(hcalled f.id).1] at hP
    rw [(hcalled f.id).2.1, (hcalled f.id).2.2]
    exact h.called_append f hf hP
  · rw [(hcalled i).1] at hP
    rw [(hcalled i).2.1, (hcalled i).2.2]
    exact h.called_eq i hi hP hnot
  · rw [(hcalled f.id).1] at hP
    exact h.isListener_pending f hf hP

/-- A frame calls its next listener. -/
theorem record {rest : List Elem} (h : Snapshots P (a.setStack (f :: stack)))
    (hf : f.pending = e :: rest) :
    Snapshots P ((a.setStack ({ f with pending := rest } :: stack)).record f.id e) := by
  have hself : ((a.setStack ({ f with pending := rest } :: stack)).record f.id e).emission f.id =
      { a.emission f.id with called := (a.emission f.id).called ++ [e] } :=
    Function.update_self ..
  have hne {i : ℕ} (hi : i ≠ f.id) :
      ((a.setStack ({ f with pending := rest } :: stack)).record f.id e).emission i =
        a.emission i := Function.update_of_ne hi ..
  have hnot : ∀ g ∈ stack, g.id ≠ f.id := by
    intro g hg he
    exact (List.nodup_cons.mp h.nodup).1 (he ▸ List.mem_map_of_mem hg)
  constructor
  · intro g hg
    rcases List.mem_cons.mp hg with rfl | hg
    · exact h.id_lt f (List.mem_cons_self ..)
    · exact h.id_lt g (List.mem_cons_of_mem f hg)
  · exact h.nodup
  · intro g hg hP
    rcases List.mem_cons.mp hg with rfl | hg
    · rw [hself] at hP ⊢
      have hf' := h.called_append f (List.mem_cons_self ..) hP
      rw [hf] at hf'
      rw [List.append_assoc]
      exact hf'
    · rw [hne (hnot g hg)] at hP ⊢
      exact h.called_append g (List.mem_cons_of_mem f hg) hP
  · intro i hi hP hi'
    have hif : i ≠ f.id := fun he ↦ hi' _ (List.mem_cons_self ..) he.symm
    rw [hne hif] at hP ⊢
    refine h.called_eq i hi hP fun g hg ↦ ?_
    rcases List.mem_cons.mp hg with rfl | hg
    · exact Ne.symm hif
    · exact hi' g (List.mem_cons_of_mem _ hg)
  · intro g hg hP x hx
    rcases List.mem_cons.mp hg with rfl | hg
    · rw [hself] at hP
      exact h.isListener_pending f (List.mem_cons_self ..) hP x (hf ▸ List.mem_cons_of_mem e hx)
    · rw [hne (hnot g hg)] at hP
      exact h.isListener_pending g (List.mem_cons_of_mem f hg) hP x hx
  · intro g hg
    rcases List.mem_cons.mp hg with rfl | hg
    · exact h.isListener_after f (List.mem_cons_self ..)
    · exact h.isListener_after g (List.mem_cons_of_mem f hg)
  · exact fun _ _ ↦ h.hasEvents_of_mem f (List.mem_cons_self ..)

/-- A call of `emit` begins with the list of its event. -/
theorem begin (h : Snapshots P a) (hhas : a.hasEvents = true) {l : List Elem}
    (hl : P type → l = a.listeners type ∧ ∀ e ∈ l, e.isListener = true)
    {after : Option (JSString × Elem)}
    (hafter : ∀ t e, after = some (t, e) → e.isListener = true) :
    Snapshots P ((a.begin type).setStack (⟨a.emitted, l, after⟩ :: a.stack)) := by
  have hself : (a.begin type).emission a.emitted = ⟨type, a.listeners type, [], none⟩ :=
    Function.update_self ..
  have hne {i : ℕ} (hi : i ≠ a.emitted) : (a.begin type).emission i = a.emission i :=
    Function.update_of_ne hi ..
  -- the number of the new call is not that of one that is under way
  have hlt (g : Frame) (hg : g ∈ a.stack) : g.id ≠ a.emitted := Nat.ne_of_lt (h.id_lt g hg)
  constructor
  · intro g hg
    rcases List.mem_cons.mp hg with rfl | hg
    · exact Nat.lt_succ_self _
    · exact Nat.lt_succ_of_lt (h.id_lt g hg)
  · refine List.nodup_cons.mpr ⟨fun hm ↦ ?_, h.nodup⟩
    obtain ⟨g, hg, he⟩ := List.mem_map.mp hm
    exact hlt g hg he
  · intro g hg hP
    change P ((a.begin type).emission g.id).type at hP
    change ((a.begin type).emission g.id).called ++ _ = ((a.begin type).emission g.id).expected
    rcases List.mem_cons.mp hg with rfl | hg
    · rw [hself] at hP ⊢
      exact (hl hP).1
    · rw [hne (hlt g hg)] at hP ⊢
      exact h.called_append g hg hP
  · intro i hi hP hnot
    have hi' : i ≠ a.emitted := fun he ↦ hnot _ (List.mem_cons_self ..) he.symm
    change P ((a.begin type).emission i).type at hP
    change ((a.begin type).emission i).called = ((a.begin type).emission i).expected
    rw [hne hi'] at hP ⊢
    exact h.called_eq i (Nat.lt_of_le_of_ne (Nat.le_of_lt_succ hi) hi') hP fun g hg ↦
      hnot g (List.mem_cons_of_mem _ hg)
  · intro g hg hP
    change P ((a.begin type).emission g.id).type at hP
    rcases List.mem_cons.mp hg with rfl | hg
    · rw [hself] at hP
      exact (hl hP).2
    · rw [hne (hlt g hg)] at hP
      exact h.isListener_pending g hg hP
  · intro g hg
    rcases List.mem_cons.mp hg with rfl | hg
    · exact hafter
    · exact h.isListener_after g hg
  · exact fun _ _ ↦ hhas

/-- A call of `emit` that finds nothing is over. -/
theorem begin_of_nil (h : Snapshots P a) (hl : P type → a.listeners type = []) :
    Snapshots P (a.begin type) := by
  have hne {i : ℕ} (hi : i ≠ a.emitted) : (a.begin type).emission i = a.emission i :=
    Function.update_of_ne hi ..
  refine { h with id_lt := ?_, called_append := ?_, called_eq := ?_, isListener_pending := ?_ }
  · exact fun g hg ↦ Nat.lt_succ_of_lt (h.id_lt g hg)
  · intro g hg hP
    rw [hne (Nat.ne_of_lt (h.id_lt g hg))] at hP ⊢
    exact h.called_append g hg hP
  · intro i hi hP hnot
    by_cases he : i = a.emitted
    · have hself : (a.begin type).emission i = ⟨type, a.listeners type, [], none⟩ := by
        rw [he]
        exact Function.update_self ..
      rw [hself] at hP ⊢
      exact (hl hP).symm
    · rw [hne he] at hP ⊢
      exact h.called_eq i (Nat.lt_of_le_of_ne (Nat.le_of_lt_succ hi) he) hP hnot
  · intro g hg hP
    rw [hne (Nat.ne_of_lt (h.id_lt g hg))] at hP
    exact h.isListener_pending g hg hP

end Snapshots

/-! ## Steps -/

/-- The object and the frames are in order. -/
structure Faithful (P : JSString → Prop) (a : Emitter) : Prop where
  denotes : Denotes P a
  snapshots : Snapshots P a

theorem Denotes.finish (h : Denotes P a) {after : Option (JSString × Elem)} {id : ℕ} {r : Bool}
    (hhas : after ≠ none → a.hasEvents = true)
    (hafter : ∀ t e, after = some (t, e) → e.isListener = true ∧ (P t → ¬Foreign a t))
    (hb : a.finish id r after = .ok b) : Denotes P b := by
  rcases after with _ | ⟨t, e⟩
  · obtain rfl := Except.ok.inj hb
    exact { h with }
  · obtain ⟨he, hf⟩ := hafter t e rfl
    exact h.append (hhas nofun) hf he hb

theorem Snapshots.finish (h : Snapshots P a) {after : Option (JSString × Elem)} {id : ℕ}
    {r : Bool} (hb : a.finish id r after = .ok b) : Snapshots P b := by
  rcases after with _ | ⟨t, e⟩
  · obtain rfl := Except.ok.inj hb
    exact h.setReturned id _
  · rw [Emitter.finish, append] at hb
    split_ifs at hb
    obtain rfl := Except.ok.inj hb
    exact h.of_eq rfl rfl rfl fun h ↦ h

theorem Snapshots.removeListener (h : Snapshots P a) : Snapshots P (a.removeListener type e) := by
  unfold Emitter.removeListener
  split <;> exact h.of_eq rfl rfl rfl id

/-- A frame goes on. -/
theorem proceed_faithful {f : Frame} {stack : List Frame} (hd : Denotes P a)
    (hs : Snapshots P (a.setStack (f :: stack)))
    (hf : f.pending = [] → ∀ t e, f.after = some (t, e) → P t → ¬Foreign a t)
    (hb : a.proceed f stack = .ok b) : Faithful P b := by
  have hd' : Denotes P (a.setStack stack) := { hd with }
  have hmem : f ∈ (a.setStack (f :: stack)).stack := List.mem_cons_self ..
  unfold proceed at hb
  split at hb
  · rename_i hnil
    refine ⟨hd'.finish (fun _ ↦ hs.hasEvents_of_mem f hmem) (fun t e he ↦ ?_) hb,
      (hs.pop fun _ ↦ hnil).finish hb⟩
    exact ⟨hs.isListener_after f hmem t e he, hf hnil t e he⟩
  · rename_i e rest hcons
    split_ifs at hb with hfun
    · obtain rfl := Except.ok.inj hb
      have hrecord := hs.record hcons
      have hd' : Denotes P ((a.setStack ({ f with pending := rest } :: stack)).record f.id e) :=
        { hd with }
      unfold call
      split
      · exact ⟨hd'.removeListener rfl, hrecord.removeListener⟩
      · exact ⟨hd', hrecord⟩
    · obtain rfl := Except.ok.inj hb
      refine ⟨hd', hs.pop fun hP ↦ ?_⟩
      -- with a name in `P`, all that is pending is a function
      have he := hs.isListener_pending f hmem hP e (hcons ▸ List.mem_cons_self ..)
      exfalso
      cases e <;> first | exact hfun rfl | cases he

theorem denote_of_handlers_eq_none (h : a.handlers type = none) : denote (a.value type) = [] := by
  unfold handlers at h
  rcases hv : a.value type with _ | _ | e | l
  · rfl
  · rfl
  · rw [hv] at h
    have hnot : e.isListener ≠ true := by
      intro he
      have hfun : e.isFunction = true := by cases e <;> first | rfl | cases he
      dsimp only at h
      rw [if_pos hfun] at h
      cases h
    exact if_neg hnot
  · rw [hv] at h
    cases h

theorem denote_of_handlers {l : List Elem}
    (hbuiltin : ∀ e, a.value type = .one e → e.isFunction = true → e.isListener = true)
    (h : a.handlers type = some l) : denote (a.value type) = l := by
  unfold handlers at h
  rcases hv : a.value type with _ | _ | e | l'
  · rw [hv] at h
    cases h
  · rw [hv] at h
    cases h
  · rw [hv] at h
    dsimp only at h
    split_ifs at h with hfun
    rw [← Option.some.inj h]
    exact if_pos (hbuiltin e hv hfun)
  · rw [hv] at h
    exact Option.some.inj h

theorem emit_faithful (h : Faithful P a) {after : Option (JSString × Elem)}
    (hbuiltin : P type → ∀ e, a.value type = .one e → e.isFunction = true → e.isListener = true)
    (hafter : ∀ t e, after = some (t, e) → e.isListener = true ∧ (P t → ¬Foreign a t))
    (hhas : after ≠ none → a.hasEvents = true) (hb : a.emit type after = .ok b) :
    Faithful P b := by
  obtain ⟨hd, hs⟩ := h
  have hd' : Denotes P (a.begin type) := { hd with }
  unfold emit at hb
  split_ifs at hb with hu
  · -- there is no listener, or an empty array
    obtain rfl := Except.ok.inj hb
    refine ⟨hd', hs.begin_of_nil fun hP ↦ ?_⟩
    rw [← hd.denote_value hP]
    rw [unhandled, Bool.and_eq_true, Bool.or_eq_true, Bool.not_eq_true', decide_eq_true_eq] at hu
    rcases hu.2 with hv | hv
    · exact denote_of_not_truthy (by rw [hv]; decide)
    · rw [of_decide_eq_true hv]
      rfl
  · split at hb
    · rename_i hnone
      have hnil (hP : P type) : a.listeners type = [] :=
        hd.denote_value hP ▸ denote_of_handlers_eq_none hnone
      exact ⟨hd'.finish hhas hafter hb, (hs.begin_of_nil hnil).finish hb⟩
    · rename_i l hl
      have hlist (hP : P type) : l = a.listeners type :=
        (denote_of_handlers (hbuiltin hP) hl).symm.trans (hd.denote_value hP)
      have hhas' : a.hasEvents = true := by
        by_contra hnot
        rw [handlers, value, if_neg hnot] at hl
        cases hl
      refine proceed_faithful hd' (hs.begin hhas' (fun hP ↦ ⟨hlist hP, fun e he ↦ ?_⟩)
        fun t e he ↦ (hafter t e he).1) (fun _ t e he ↦ ?_) hb
      · rw [hlist hP] at he
        exact hd.isListener_of_mem_listeners hP he
      · exact (hafter t e he).2

/-! ## Runs -/

/-- The names in `P` are only used where they name an event and nothing else: `addListener` and
`listeners` do not meet a property that is not a listener, and `emit` does not meet a function that
is none; `removeAllListeners` is not called with the empty name to remove something;
`setMaxListeners` does not replace listeners. No listener throws. -/
def Regular (P : JSString → Prop) (a : Emitter) : EmitterEvent → Prop
  | .on type _ | .once type _ | .listeners type => P type → ¬Foreign a.create type
  | .emit type => P type → ∀ e, a.value type = .one e → e.isFunction = true → e.isListener = true
  | .removeAllListeners type => type ≠ js "__proto__" ∧ (type = [] → a.listeners [] = [])
  | .setMaxListeners _ => P (js "maxListeners") → a.listeners (js "maxListeners") = []
  | .returns => ∀ f stack, a.stack = f :: stack → f.pending = [] →
      ∀ t e, f.after = some (t, e) → P t → ¬Foreign a t
  | .throws => False
  | .removeListener _ _ => True

theorem not_special_newListener : ¬Special (js "newListener") := by decide

/-- A name that is not special only has listeners. -/
theorem Denotes.isListener_of_value (h : Denotes P a) (ht : ¬Special type)
    (he : a.value type = .one e) : e.isListener = true := by
  by_contra hnot
  rw [value] at he
  split_ifs at he
  exact ht (h.special type e he (by simpa using hnot))

theorem Faithful.create (h : Faithful P a) : Faithful P a.create :=
  ⟨h.denotes.create, h.snapshots.of_eq rfl rfl rfl fun _ ↦ rfl⟩

theorem addListener_faithful (h : Faithful P a) (he : e.isListener = true)
    (hf : P type → ¬Foreign a.create type) (hb : a.addListener type e = .ok b) : Faithful P b := by
  have hc := h.create
  refine emit_faithful hc (fun _ x hx _ ↦ ?_) (fun t x hx ↦ ?_) (fun _ ↦ rfl) hb
  · exact hc.denotes.isListener_of_value not_special_newListener hx
  · obtain ⟨rfl, rfl⟩ := Prod.mk.inj (Option.some.inj hx)
    exact ⟨he, hf⟩

theorem isListener_of_has (h : a.has e = true) : e.isListener = true := by
  cases e <;> first | rfl | cases h

theorem Faithful.noteOn (h : Faithful P a) (e : Elem) : Faithful P (a.noteOn e) :=
  ⟨{ h.denotes with }, { h.snapshots with }⟩

theorem Faithful.wrap (h : Faithful P a) (type : JSString) (f : ℕ) : Faithful P (a.wrap type f) :=
  ⟨{ h.denotes with }, { h.snapshots with }⟩

theorem Faithful.step (h : Faithful P a) {ev : EmitterEvent} (hg : a.Allows ev)
    (hr : Regular P a ev) (hb : a.step ev = .ok b) : Faithful P b := by
  cases ev with
  | on type e => exact addListener_faithful (h.noteOn e) (isListener_of_has hg) hr hb
  | once type f => exact addListener_faithful (h.wrap type f) rfl hr hb
  | removeListener type e =>
    obtain rfl := Except.ok.inj hb
    exact ⟨h.denotes.removeListener (isListener_of_has hg), h.snapshots.removeListener⟩
  | removeAllListeners type =>
    refine ⟨h.denotes.removeAllListeners hr.2 hb, ?_⟩
    rw [Emitter.step, Emitter.removeAllListeners] at hb
    split_ifs at hb <;> obtain rfl := Except.ok.inj hb <;> exact { h.snapshots with }
  | listeners type =>
    refine ⟨(h.denotes.askListeners hr hb).1, ?_⟩
    rw [Emitter.step, Emitter.askListeners] at hb
    split_ifs at hb
    obtain rfl := Except.ok.inj hb
    exact h.snapshots.of_eq rfl rfl rfl fun _ ↦ rfl
  | setMaxListeners n =>
    obtain rfl := Except.ok.inj hb
    exact ⟨h.denotes.setMaxListeners hr n, h.snapshots.of_eq rfl rfl rfl fun _ ↦ rfl⟩
  | emit type =>
    refine emit_faithful h hr (fun t e he ↦ ?_) (fun h ↦ absurd rfl h) hb
    cases he
  | returns =>
    rw [Emitter.step] at hb
    split at hb
    · rename_i f stack hstack
      refine proceed_faithful h.denotes ?_ (hr f stack hstack) hb
      exact h.snapshots.of_eq hstack.symm rfl rfl fun h ↦ h
    · rename_i hstack
      exact absurd hstack hg
  | throws => exact hr.elim

/-! ## What is returned -/

/-- `emit` returns whether there were listeners, and `listeners` returns them. -/
structure Returned (a : Emitter) : Prop where
  returned_iff : ∀ id r, (a.emission id).returned = some r →
    (r = true ↔ (a.emission id).expected ≠ [])
  /-- A call under way whose result is looked at has listeners. -/
  expected_ne : ∀ f ∈ a.stack, f.after = none → (a.emission f.id).expected ≠ []
  answers_eq : ∀ p ∈ a.answers, p.2 = p.1

namespace Returned

/-- An emission is not looked at, or its record stays as it is. -/
theorem of_eq (h : Returned a) (hstack : ∀ f ∈ b.stack, f.after = none →
      ∃ g ∈ a.stack, g.after = none ∧ g.id = f.id)
    (hemission : ∀ id, (b.emission id).returned = (a.emission id).returned ∧
      (b.emission id).expected = (a.emission id).expected)
    (hanswers : b.answers = a.answers) : Returned b where
  returned_iff id r hr := by
    rw [(hemission id).2]
    exact h.returned_iff id r ((hemission id).1.symm.trans hr)
  expected_ne f hf hafter := by
    obtain ⟨g, hg, hgafter, hid⟩ := hstack f hf hafter
    rw [(hemission f.id).2, ← hid]
    exact h.expected_ne g hg hgafter
  answers_eq := hanswers ▸ h.answers_eq

theorem finish (h : Returned a) {id : ℕ} {r : Bool} {after : Option (JSString × Elem)}
    (hr : after = none → (r = true ↔ (a.emission id).expected ≠ []))
    (hb : a.finish id r after = .ok b) : Returned b := by
  rcases after with _ | ⟨t, e⟩
  · obtain rfl := Except.ok.inj hb
    have hself : (a.setEmission id { a.emission id with returned := some r }).emission id =
        { a.emission id with returned := some r } := Function.update_self ..
    have hne {i : ℕ} (hi : i ≠ id) :
        (a.setEmission id { a.emission id with returned := some r }).emission i = a.emission i :=
      Function.update_of_ne hi ..
    refine { h with returned_iff := fun i r' hr' ↦ ?_, expected_ne := fun f hf hafter ↦ ?_ }
    · by_cases hi : i = id
      · rw [hi, hself] at hr' ⊢
        rw [← Option.some.inj hr']
        exact hr rfl
      · rw [hne hi] at hr' ⊢
        exact h.returned_iff i r' hr'
    · by_cases hi : f.id = id
      · have hexp := h.expected_ne f hf hafter
        rw [hi] at hexp ⊢
        rwa [hself]
      · rw [hne hi]
        exact h.expected_ne f hf hafter
  · rw [Emitter.finish, append] at hb
    split_ifs at hb
    obtain rfl := Except.ok.inj hb
    exact { h with }

theorem removeListener (h : Returned a) : Returned (a.removeListener type e) := by
  unfold Emitter.removeListener
  split <;> exact { h with }

theorem proceed {f : Frame} {stack : List Frame} (h : Returned (a.setStack (f :: stack)))
    (hb : a.proceed f stack = .ok b) : Returned b := by
  have hpop : Returned (a.setStack stack) :=
    { h with expected_ne := fun g hg ↦ h.expected_ne g (List.mem_cons_of_mem f hg) }
  unfold Emitter.proceed at hb
  split at hb
  · refine hpop.finish (fun hafter ↦ ?_) hb
    exact iff_of_true rfl (h.expected_ne f (List.mem_cons_self ..) hafter)
  · rename_i e rest hcons
    split_ifs at hb
    · obtain rfl := Except.ok.inj hb
      have hrecord :
          Returned ((a.setStack ({ f with pending := rest } :: stack)).record f.id e) := by
        refine h.of_eq (fun g hg hafter ↦ ?_) (fun i ↦ ?_) rfl
        · rcases List.mem_cons.mp hg with rfl | hg
          · exact ⟨f, List.mem_cons_self .., hafter, rfl⟩
          · exact ⟨g, List.mem_cons_of_mem f hg, hafter, rfl⟩
        · by_cases hi : i = f.id
          · simp [hi, record, setEmission, setStack]
          · simp [hi, record, setEmission, setStack]
      unfold call
      split
      · exact hrecord.removeListener
      · exact hrecord
    · obtain rfl := Except.ok.inj hb
      exact hpop

theorem begin (h : Returned a) (hid : ∀ f ∈ a.stack, f.id < a.emitted) :
    Returned (a.begin type) := by
  have hself : (a.begin type).emission a.emitted = ⟨type, a.listeners type, [], none⟩ :=
    Function.update_self ..
  have hne {i : ℕ} (hi : i ≠ a.emitted) : (a.begin type).emission i = a.emission i :=
    Function.update_of_ne hi ..
  refine { h with returned_iff := fun i r hr ↦ ?_, expected_ne := fun f hf hafter ↦ ?_ }
  · by_cases hi : i = a.emitted
    · rw [hi, hself] at hr
      cases hr
    · rw [hne hi] at hr ⊢
      exact h.returned_iff i r hr
  · rw [hne (Nat.ne_of_lt (hid f hf))]
    exact h.expected_ne f hf hafter

theorem emit (h : Returned a) (hf : Faithful (fun _ ↦ True) a) {after : Option (JSString × Elem)}
    (hbuiltin : ∀ e, a.value type = .one e → e.isFunction = true → e.isListener = true)
    (hempty : after = none → a.value type ≠ .many []) (hb : a.emit type after = .ok b) :
    Returned b := by
  have hself : ((a.begin type).emission a.emitted).expected = a.listeners type := by
    have heq : (a.begin type).emission a.emitted = ⟨type, a.listeners type, [], none⟩ :=
      Function.update_self ..
    rw [heq]
  have hbegin : Returned (a.begin type) := h.begin hf.snapshots.id_lt
  have hdenote : denote (a.value type) = a.listeners type := hf.denotes.denote_value trivial
  unfold Emitter.emit at hb
  split_ifs at hb
  · obtain rfl := Except.ok.inj hb
    exact hbegin
  · split at hb
    · rename_i hnone
      refine hbegin.finish (fun _ ↦ ?_) hb
      rw [hself, ← hdenote, denote_of_handlers_eq_none hnone]
      decide
    · rename_i l hl
      have hpush : Returned ((a.begin type).setStack (⟨a.emitted, l, after⟩ :: a.stack)) → _ :=
        fun h ↦ h.proceed hb
      refine hpush { hbegin with expected_ne := fun f hmem hafter ↦ ?_ }
      rcases List.mem_cons.mp hmem with rfl | hmem
      · -- a value that has handlers is not an empty array
        change ((a.begin type).emission a.emitted).expected ≠ []
        rw [hself, ← hdenote]
        intro hnil
        have hv := hempty hafter
        rcases hvalue : a.value type with _ | _ | e | l'
        · rw [handlers, hvalue] at hl
          cases hl
        · rw [handlers, hvalue] at hl
          cases hl
        · have heq := denote_of_handlers hbuiltin hl
          rw [hnil] at heq
          rw [handlers, hvalue] at hl
          dsimp only at hl
          split_ifs at hl
          rw [← heq] at hl
          cases hl
        · rw [hvalue] at hnil hv
          exact hv (congrArg Slot.many hnil)
      · exact hbegin.expected_ne f hmem hafter

theorem addListener (h : Returned a) (hf : Faithful (fun _ ↦ True) a)
    (hb : a.addListener type e = .ok b) : Returned b := by
  have hc : Returned a.create := { h with }
  unfold Emitter.addListener at hb
  refine hc.emit hf.create (fun x hx _ ↦ ?_) (fun h ↦ ?_) hb
  · exact hf.create.denotes.isListener_of_value not_special_newListener hx
  · cases h

end Returned

/-- A regular step, where `emit` does not meet an empty array. -/
def Clean (a : Emitter) (ev : EmitterEvent) : Prop :=
  Regular (fun _ ↦ True) a ev ∧ ∀ type, ev = .emit type → a.value type ≠ .many []

theorem Returned.step (h : Returned a) (hf : Faithful (fun _ ↦ True) a) {ev : EmitterEvent}
    (hc : Clean a ev) (hb : a.step ev = .ok b) : Returned b := by
  obtain ⟨hr, hempty⟩ := hc
  cases ev with
  | on type e =>
    have hret : Returned (a.noteOn e) := { h with }
    exact hret.addListener (hf.noteOn e) hb
  | once type f =>
    have hret : Returned (a.wrap type f) := { h with }
    exact hret.addListener (hf.wrap type f) hb
  | removeListener type e =>
    obtain rfl := Except.ok.inj hb
    exact h.removeListener
  | removeAllListeners type =>
    rw [Emitter.step, Emitter.removeAllListeners] at hb
    split_ifs at hb <;> obtain rfl := Except.ok.inj hb <;> exact { h with }
  | listeners type =>
    obtain ⟨-, hanswers⟩ := hf.denotes.askListeners hr hb
    rw [Emitter.step, Emitter.askListeners] at hb
    split_ifs at hb
    obtain rfl := Except.ok.inj hb
    refine { h with answers_eq := fun p hp ↦ ?_ }
    rw [hanswers trivial] at hp
    rcases List.mem_append.mp hp with hp | hp
    · exact h.answers_eq p hp
    · rw [List.mem_singleton.mp hp]
  | setMaxListeners n =>
    obtain rfl := Except.ok.inj hb
    exact { h with }
  | emit type => exact h.emit hf (hr trivial) (fun _ ↦ hempty type rfl) hb
  | returns =>
    rw [Emitter.step] at hb
    split at hb
    · rename_i f stack hstack
      refine Returned.proceed { h with expected_ne := ?_ } hb
      exact fun g hg ↦ h.expected_ne g (hstack ▸ hg)
    · obtain rfl := Except.ok.inj hb
      exact h
  | throws => exact hr.elim

instance (p : Elem → Prop) [DecidablePred p] : ∀ s : Slot, Decidable (∃ e, s = .one e ∧ p e)
  | .one e => decidable_of_iff (p e) (by simp)
  | .absent | .null | .many _ => isFalse (by simp)

instance (a : Emitter) (type : JSString) : Decidable (Foreign a type) :=
  inferInstanceAs (Decidable (∃ e, a.value type = .one e ∧ e.truthy = true ∧ e.isListener = false))

/-- `Clean`, as it is checked. -/
def isClean (a : Emitter) : EmitterEvent → Bool
  | .on type _ | .once type _ | .listeners type => ¬Foreign a.create type
  | .emit type => a.value type ≠ .many [] ∧
      ¬∃ e, a.value type = .one e ∧ e.isFunction = true ∧ e.isListener = false
  | .removeAllListeners type => type ≠ js "__proto__" ∧ (type = [] → a.listeners [] = [])
  | .setMaxListeners _ => a.listeners (js "maxListeners") = []
  | .returns =>
    match a.stack with
    | ⟨_, [], some (t, _)⟩ :: _ => ¬Foreign a t
    | _ => true
  | .throws => false
  | .removeListener _ _ => true

theorem isClean_iff {ev : EmitterEvent} : isClean a ev = true ↔ Clean a ev := by
  cases ev with
  | on type e | once type f | listeners type | setMaxListeners n | removeListener type e
  | throws => simp [isClean, Clean, Regular]
  | removeAllListeners type => simp [isClean, Clean, Regular, imp_iff_not_or]
  | emit type =>
    simp only [isClean, Clean, Regular, decide_eq_true_eq, not_exists, not_and,
      Bool.not_eq_false, EmitterEvent.emit.injEq, forall_true_left, forall_eq']
    exact and_comm
  | returns =>
    simp only [isClean, Clean, Regular]
    rcases a.stack with _ | ⟨⟨id, _ | ⟨e, rest⟩, _ | ⟨t, x⟩⟩, stack⟩ <;> simp

instance (a : Emitter) (ev : EmitterEvent) : Decidable (Clean a ev) :=
  decidable_of_iff _ isClean_iff

/-- The prototype of `_events` is left alone, and no listener throws. -/
def Ordinary : EmitterEvent → Prop
  | .on type _ | .once type _ | .removeAllListeners type | .listeners type => type ≠ js "__proto__"
  | .throws => False
  | _ => True

instance : ∀ ev : EmitterEvent, Decidable (Ordinary ev)
  | .on type _ | .once type _ | .removeAllListeners type | .listeners type =>
    inferInstanceAs (Decidable (type ≠ js "__proto__"))
  | .throws => inferInstanceAs (Decidable False)
  | .removeListener _ _ | .setMaxListeners _ | .emit _ | .returns =>
    inferInstanceAs (Decidable True)

/-- An ordinary step that does not remove the listeners of the empty name with
`removeAllListeners`. -/
def Plain (a : Emitter) (ev : EmitterEvent) : Prop :=
  Ordinary ev ∧ (ev = .removeAllListeners [] → a.listeners [] = [])

instance (a : Emitter) (ev : EmitterEvent) : Decidable (Plain a ev) :=
  inferInstanceAs (Decidable (Ordinary ev ∧ (ev = .removeAllListeners [] → a.listeners [] = [])))

end SpiderNode.Events.Emitter
