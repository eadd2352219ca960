import SpiderNode.Handles.Weak
import Mathlib.Data.List.Forall2
import Mathlib.Data.List.Perm.Subperm

/-!
# Wrapped objects

An `ObjectWrap` of `src/node_object_wrap.h` has a persistent handle to the object that it wraps. The
handle is weak as long as nothing counts on the object (`refs_` is zero), and a root otherwise.

After marking, the garbage collector goes through the weak handles (`CheckForWeakHandles`). A handle
whose object is about to be finalized is near death; its callback deletes the `ObjectWrap`, which
takes the handle off the list and disposes of it. A second loop deletes what the callbacks leave.

The callback is `WeakCallback` for all handles here, with the `ObjectWrap` for its context. A
counter does not get as far as the greatest `int`.
-/

namespace SpiderNode.Handles

open Function (update)

/-- The `ObjectWrap`s by their addresses, with the handle scopes and the persistent references. -/
structure Wrappers (α : Type*) where
  scopes : Run α
  persistents : Persistents ℕ α
  /-- Those that have not been deleted. -/
  objects : List ℕ
  /-- `handle_` -/
  handle : ℕ → Option ℕ
  /-- `refs_` -/
  refs : ℕ → ℕ
  /-- Those that `WeakCallback` has deleted. -/
  collected : List ℕ

namespace Wrappers

variable {α : Type*}

def init (value : Slot → α) (value' : ℕ → α) : Wrappers α :=
  ⟨.init value, .init value', [], fun _ ↦ none, fun _ ↦ 0, []⟩

/-- `ObjectWrap()` -/
def construct (w : ℕ) (s : Wrappers α) : Wrappers α :=
  { s with objects := w :: s.objects, handle := update s.handle w none, refs := update s.refs w 0 }

/-- `MakeWeak` -/
def makeWeak (w r : ℕ) (s : Wrappers α) : Except Fault (Wrappers α) :=
  (s.persistents.makeWeak w r).map fun p ↦ { s with persistents := p }

/-- `Wrap`, of an object `v`; the new handle is at `r`. -/
def wrap (w : ℕ) (v : α) (r : ℕ) (s : Wrappers α) : Except Fault (Wrappers α) :=
  if s.handle w ≠ none then .error .assertion
  else
    makeWeak w r { s with
      persistents := s.persistents.globalize v r
      handle := update s.handle w (some r) }

/-- `Ref` -/
def ref (w : ℕ) (s : Wrappers α) : Except Fault (Wrappers α) :=
  match s.handle w with
  | none => .error .assertion
  | some r =>
    let s := { s with refs := update s.refs w (s.refs w + 1) }
    (s.persistents.clearWeak true r).map fun p ↦ { s with persistents := p }

/-- `Unref` -/
def unref (w : ℕ) (s : Wrappers α) : Except Fault (Wrappers α) :=
  match s.handle w with
  | none => .error .assertion
  | some r =>
    if s.persistents.isWeak r then .error .assertion
    else if ¬s.refs w > 0 then .error .assertion
    else
      let s := { s with refs := update s.refs w (s.refs w - 1) }
      if s.refs w = 0 then s.makeWeak w r else .ok s

/-- `~ObjectWrap`, and `delete`. The internal field of the object is not looked at any more. -/
def destroy (w : ℕ) (s : Wrappers α) : Except Fault (Wrappers α) :=
  match s.handle w with
  | none => .ok { s with objects := s.objects.erase w }
  | some r =>
    if r ∉ s.persistents.alive then .error .deleted
    else if s.persistents.isNearDeath r = false then .error .assertion
    else
      match s.persistents.clearWeak true r with
      | .error e => .error e
      | .ok p =>
        match p.dispose (s.scopes.isLocalReference r) r with
        | .error e => .error e
        | .ok p =>
          .ok { s with
            persistents := p
            handle := update s.handle w none
            objects := s.objects.erase w }

section Collector

variable [DecidableEq α]

/-- `value == obj->handle_`, which compares the objects. -/
def SameObject (s : Wrappers α) (value : ℕ) : Option ℕ → Prop
  | none => False
  | some r => s.persistents.value value = s.persistents.value r

instance (s : Wrappers α) (value : ℕ) : DecidablePred (s.SameObject value)
  | none => inferInstanceAs (Decidable False)
  | some _ => inferInstanceAs (Decidable (_ = _))

/-- `WeakCallback` -/
def weakCallback (value data : ℕ) (s : Wrappers α) : Except Fault (Wrappers α) :=
  if data ∉ s.objects then .error .deleted
  else if ¬s.SameObject value (s.handle data) then .error .assertion
  else if s.refs data ≠ 0 then .error .assertion
  else if s.persistents.isNearDeath value = false then .error .assertion
  else (s.destroy data).map fun s ↦ { s with collected := s.collected ++ [data] }

/-- `ref->isNearDeath = ...` -/
def setNearDeath (r : ℕ) (b : Bool) (s : Wrappers α) : Wrappers α :=
  { s with persistents :=
    { s.persistents with isNearDeath := update s.persistents.isNearDeath r b } }

/-- The first loop of `CheckForWeakHandles`, for at most `n` references; `dying` are the objects
that are about to be finalized. -/
def checkFrom (dying : α → Bool) : ℕ → Option ℕ → Wrappers α → Except Fault (Wrappers α)
  | _, none, s => .ok s
  | 0, some _, _ => .error .endless
  | n + 1, some r, s =>
    if r ∉ s.persistents.alive then .error .deleted
    else
      let near := dying (s.persistents.value r)
      let s := s.setNearDeath r near
      let next := s.persistents.links.next r
      match near, s.persistents.callback r with
      | true, some w =>
        match s.weakCallback r w with
        | .ok s => checkFrom dying n next s
        | .error e => .error e
      | _, _ => checkFrom dying n next s

/-- The second loop. -/
def deleteFrom : ℕ → Option ℕ → Wrappers α → Except Fault (Wrappers α)
  | _, none, s => .ok s
  | 0, some _, _ => .error .endless
  | n + 1, some r, s =>
    if r ∉ s.persistents.alive then .error .deleted
    else
      let next := s.persistents.links.next r
      if s.persistents.isNearDeath r then
        match s.persistents.destroy r with
        | .ok p => deleteFrom n next { s with persistents := p }
        | .error e => .error e
      else deleteFrom n next s

/-- `CheckForWeakHandles` -/
def checkForWeakHandles (dying : α → Bool) (s : Wrappers α) : Except Fault (Wrappers α) :=
  match checkFrom dying s.persistents.alive.length s.persistents.weakPtrs s with
  | .ok s => deleteFrom s.persistents.alive.length s.persistents.weakPtrs s
  | .error e => .error e

inductive Event (α : Type*) where
  | scope (e : Run.Event α)
  | construct (w : ℕ)
  | wrap (w : ℕ) (v : α) (r : ℕ)
  | ref (w : ℕ)
  | unref (w : ℕ)
  | collect (dying : α → Bool)

/-- An object is wrapped once. What is a root, or is reached from one, is not about to be
finalized. -/
def Can (s : Wrappers α) : Event α → Prop
  | .scope e => s.scopes.Can e
  | .construct w => w ∉ s.objects
  | .wrap w _ r => w ∈ s.objects ∧ s.handle w = none ∧ r ∉ s.persistents.alive
  | .ref w => w ∈ s.objects ∧ s.handle w ≠ none
  | .unref w => w ∈ s.objects ∧ s.handle w ≠ none ∧ 0 < s.refs w
  | .collect dying => ∀ w ∈ s.objects, ∀ r, s.handle w = some r →
      dying (s.persistents.value r) = true → s.refs w = 0

def happen (s : Wrappers α) : Event α → Except Fault (Wrappers α)
  | .scope e => (s.scopes.happen e).map fun t ↦ { s with scopes := t }
  | .construct w => .ok (s.construct w)
  | .wrap w v r => s.wrap w v r
  | .ref w => s.ref w
  | .unref w => s.unref w
  | .collect dying => s.checkForWeakHandles dying

def machine : Machine (Wrappers α) (Event α) Fault := ⟨Can, happen⟩

instance (s : Wrappers α) : DecidablePred (machine.guard s)
  | .scope e => inferInstanceAs (Decidable (Run.machine.guard s.scopes e))
  | .construct w => inferInstanceAs (Decidable (w ∉ s.objects))
  | .wrap .. | .ref _ | .unref _ => inferInstanceAs (Decidable (_ ∧ _))
  | .collect dying =>
    decidable_of_iff (∀ w ∈ s.objects, ∀ r ∈ s.handle w,
      dying (s.persistents.value r) = true → s.refs w = 0) .rfl

end Collector

/-! ## The list of weak handles and the counters -/

/-- The invariant: the list of weak handles is `weak`, and these are the handles of the objects that
nothing counts on. -/
structure Kept (s : Wrappers α) (weak : List ℕ) : Prop where
  scopes : s.scopes.Sound s.scopes.opened
  holds : s.persistents.Holds weak
  handles : ∀ w ∈ s.objects, ∀ r, s.handle w = some r →
    r ∈ s.persistents.alive ∧ s.persistents.callback r = some w ∧ (r ∈ weak ↔ s.refs w = 0)
  owners : ∀ r ∈ weak, ∃ w ∈ s.objects, s.handle w = some r
  empty : ∀ w ∈ s.objects, s.handle w = none → s.refs w = 0
  objects : s.objects.Nodup

variable {s : Wrappers α} {weak weak' : List ℕ} {p : Persistents ℕ α} {v w r n : ℕ}

/-- Two objects have two handles. -/
theorem Kept.handle_inj (h : s.Kept weak) (hv : v ∈ s.objects) (hw : w ∈ s.objects)
    (hv' : s.handle v = some r) (hw' : s.handle w = some r) : v = w :=
  Option.some.inj ((h.handles v hv r hv').2.1.symm.trans (h.handles w hw r hw').2.1)

theorem kept_init (value : Slot → α) (value' : ℕ → α) : (init value value').Kept [] :=
  ⟨Scopes.sound_init value, Persistents.holds_init value', nofun, nofun, nofun, .nil⟩

theorem Kept.construct (h : s.Kept weak) (hw : w ∉ s.objects) : (s.construct w).Kept weak := by
  have hne {v : ℕ} (hv : v ∈ s.objects) : v ≠ w := fun heq ↦ hw (heq ▸ hv)
  refine ⟨h.scopes, h.holds, fun v hv r hr ↦ ?_, fun r hr ↦ ?_, fun v hv hr ↦ ?_,
    List.nodup_cons.mpr ⟨hw, h.objects⟩⟩
  · rw [Wrappers.construct] at hr ⊢
    dsimp only at hr ⊢
    rcases List.mem_cons.mp hv with rfl | hv
    · rw [Function.update_self] at hr
      cases hr
    · rw [Function.update_of_ne (hne hv)] at hr ⊢
      exact h.handles v hv r hr
  · obtain ⟨v, hv, hvr⟩ := h.owners r hr
    exact ⟨v, List.mem_cons_of_mem w hv, (Function.update_of_ne (hne hv) ..).trans hvr⟩
  · rw [Wrappers.construct] at hr ⊢
    dsimp only at hr ⊢
    rcases List.mem_cons.mp hv with rfl | hv
    · exact Function.update_self ..
    · rw [Function.update_of_ne (hne hv)] at hr ⊢
      exact h.empty v hv hr

theorem Kept.wrap (h : s.Kept weak) (hw : w ∈ s.objects) (hnone : s.handle w = none)
    (hr : r ∉ s.persistents.alive) (v : α) :
    ∃ t, s.wrap w v r = .ok t ∧ t.Kept (r :: weak) := by
  have hweak : r ∉ weak := fun hmem ↦ hr (h.holds.alive r hmem)
  obtain ⟨p, hp, hholds, -, halive, hcallback⟩ := (h.holds.globalize hr v).makeWeak
    (List.mem_cons_self ..) hweak w
  refine ⟨{ s with persistents := p, handle := update s.handle w (some r) }, ?_, h.scopes, hholds,
    fun x hx y hy ↦ ?_, fun y hy ↦ ?_, fun x hx hy ↦ ?_, h.objects⟩
  · rw [Wrappers.wrap, if_neg (not_not_intro hnone), Wrappers.makeWeak, hp]
    rfl
  · dsimp only at hy ⊢
    rw [halive, hcallback, Persistents.globalize]
    by_cases hxw : x = w
    · subst hxw
      rw [Function.update_self] at hy
      obtain rfl := Option.some.inj hy
      exact ⟨List.mem_cons_self .., Function.update_self ..,
        iff_of_true (List.mem_cons_self ..) (h.empty x hx hnone)⟩
    · rw [Function.update_of_ne hxw] at hy
      obtain ⟨hmem, hback, hiff⟩ := h.handles x hx y hy
      have hne : y ≠ r := fun heq ↦ hr (heq ▸ hmem)
      refine ⟨List.mem_cons_of_mem r hmem, ?_, ?_⟩
      · rw [Function.update_of_ne hne]
        exact (Function.update_of_ne hne ..).trans hback
      · rw [List.mem_cons, or_iff_right hne, hiff]
  · rcases List.mem_cons.mp hy with rfl | hy
    · exact ⟨w, hw, Function.update_self ..⟩
    · obtain ⟨x, hx, hxy⟩ := h.owners y hy
      have hne : x ≠ w := by
        rintro rfl
        cases hnone.symm.trans hxy
      exact ⟨x, hx, (Function.update_of_ne hne ..).trans hxy⟩
  · by_cases hxw : x = w
    · exact hxw ▸ h.empty w hw hnone
    · exact h.empty x hx ((Function.update_of_ne hxw ..).symm.trans hy)

/-- A counter changes, and the list with it. -/
theorem Kept.recount (h : s.Kept weak) (hw : w ∈ s.objects) (hr : s.handle w = some r)
    (hp : p.Holds weak') (halive : p.alive = s.persistents.alive)
    (hcallback : p.callback = s.persistents.callback) (hsame : ∀ x ≠ r, x ∈ weak' ↔ x ∈ weak)
    (hn : r ∈ weak' ↔ n = 0) :
    Kept { s with persistents := p, refs := update s.refs w n } weak' := by
  refine ⟨h.scopes, hp, fun x hx y hy ↦ ?_, fun y hy ↦ ?_, fun x hx hy ↦ ?_, h.objects⟩
  · obtain ⟨hmem, hback, hiff⟩ := h.handles x hx y hy
    dsimp only
    rw [halive, hcallback]
    refine ⟨hmem, hback, ?_⟩
    by_cases hxw : x = w
    · subst hxw
      obtain rfl := Option.some.inj (hy.symm.trans hr)
      rw [Function.update_self, hn]
    · have hne : y ≠ r := fun heq ↦ hxw (h.handle_inj hx hw hy (heq ▸ hr))
      rw [Function.update_of_ne hxw, hsame y hne, hiff]
  · by_cases hyr : y = r
    · exact ⟨w, hw, hyr ▸ hr⟩
    · exact h.owners y ((hsame y hyr).mp hy)
  · have hxw : x ≠ w := by
      rintro rfl
      cases hr.symm.trans hy
    exact (Function.update_of_ne hxw ..).trans (h.empty x hx hy)

theorem Kept.ref (h : s.Kept weak) (hw : w ∈ s.objects) (hr : s.handle w = some r) :
    ∃ t, s.ref w = .ok t ∧ t.Kept (weak.erase r) := by
  obtain ⟨p, hp, hholds, -, halive, hcallback⟩ := h.holds.clearWeak r
  refine ⟨{ s with persistents := p, refs := update s.refs w (s.refs w + 1) }, ?_,
    h.recount hw hr hholds halive hcallback (fun x hx ↦ List.mem_erase_of_ne hx) ?_⟩
  · rw [Wrappers.ref, hr]
    dsimp only
    rw [hp]
    rfl
  · exact iff_of_false h.holds.chain.nodup.not_mem_erase (Nat.succ_ne_zero _)

theorem Kept.unref (h : s.Kept weak) (hw : w ∈ s.objects) (hr : s.handle w = some r)
    (hpos : 0 < s.refs w) : ∃ t, s.unref w = .ok t ∧ ∃ weak', t.Kept weak' := by
  obtain ⟨hmem, hback, hiff⟩ := h.handles w hw r hr
  have hweak : r ∉ weak := fun hmem ↦ Nat.ne_of_gt hpos (hiff.mp hmem)
  have hnot : ¬s.persistents.isWeak r = true := fun his ↦
    hweak ((h.holds.isWeak_iff r).mp his).1
  rw [Wrappers.unref, hr]
  dsimp only
  have hupdate : update s.refs w (s.refs w - 1) w = s.refs w - 1 := Function.update_self ..
  rw [if_neg hnot, if_neg (not_not_intro hpos)]
  split_ifs with hzero <;> rw [hupdate] at hzero
  · obtain ⟨p, hp, hholds, -, halive, hcallback⟩ := h.holds.makeWeak hmem hweak w
    have hsame : p.callback = s.persistents.callback := by
      rw [hcallback, ← hback, Function.update_eq_self]
    refine ⟨{ s with persistents := p, refs := update s.refs w (s.refs w - 1) }, ?_, r :: weak,
      h.recount hw hr hholds halive hsame (fun x hx ↦ ?_) ?_⟩
    · rw [Wrappers.makeWeak, hp]
      rfl
    · rw [List.mem_cons, or_iff_right hx]
    · exact iff_of_true (List.mem_cons_self ..) hzero
  · exact ⟨_, rfl, weak, h.recount hw hr h.holds rfl rfl (fun x _ ↦ .rfl)
      (iff_of_false hweak hzero)⟩

/-- The handles in the list are those of the objects that nothing counts on, the roots those of the
others; the list is well-formed. -/
structure Agrees (s : Wrappers α) : Prop where
  chain : ∃ l, s.persistents.links.Chain s.persistents.weakPtrs l ∧
    (∀ r ∈ l, ∃ w ∈ s.objects, s.handle w = some r) ∧
    ∀ w ∈ s.objects, ∀ r, s.handle w = some r → (r ∈ l ↔ s.refs w = 0)
  doubly : s.persistents.links.Doubly
  roots : ∀ w ∈ s.objects, ∀ r, s.handle w = some r → (r ∈ s.persistents.roots ↔ 0 < s.refs w)

theorem Kept.agrees (h : s.Kept weak) : s.Agrees := by
  refine ⟨⟨weak, h.holds.chain, h.owners, fun w hw r hr ↦ (h.handles w hw r hr).2.2⟩,
    h.holds.doubly, fun w hw r hr ↦ ?_⟩
  obtain ⟨hmem, -, hiff⟩ := h.handles w hw r hr
  rw [h.holds.rooted r hmem, hiff, Nat.pos_iff_ne_zero]

/-! ## A collection -/

theorem Kept.setNearDeath (h : s.Kept weak) (r : ℕ) (b : Bool) : (s.setNearDeath r b).Kept weak :=
  ⟨h.scopes, ⟨⟨h.holds.chain, h.holds.doubly, h.holds.alive, h.holds.free⟩, h.holds.nodup,
    h.holds.roots, h.holds.rooted⟩, h.handles, h.owners, h.empty, h.objects⟩

/-- The second loop finds nothing to delete. -/
theorem deleteFrom_eq {kept rest : List ℕ} (h : s.Kept (kept ++ rest))
    (hnear : ∀ r ∈ rest, s.persistents.isNearDeath r = false) (hn : rest.length ≤ n) :
    deleteFrom n rest.head? s = .ok s := by
  induction rest generalizing kept n with
  | nil => cases n <;> rfl
  | cons r rest ih =>
    match n, hn with
    | n + 1, hn =>
      have halive := h.holds.alive r (by simp)
      have hnext := h.holds.chain.path.next_eq
      have hfalse := hnear r (List.mem_cons_self ..)
      have hsplit : kept ++ r :: rest = kept ++ [r] ++ rest := by simp
      rw [hsplit] at h
      rw [List.head?_cons, deleteFrom, if_neg (not_not_intro halive)]
      dsimp only
      rw [hfalse, if_neg Bool.false_ne_true, hnext]
      exact ih h (fun x hx ↦ hnear x (List.mem_cons_of_mem r hx)) (Nat.le_of_succ_le_succ hn)

variable [DecidableEq α]

/-- The callback of a weak handle deletes its object and the handle. -/
theorem Kept.weakCallback (h : s.Kept weak) (hr : r ∈ weak) (hw : w ∈ s.objects)
    (hwr : s.handle w = some r) (hnear : s.persistents.isNearDeath r = true) :
    ∃ t, s.weakCallback r w = .ok t ∧ t.Kept (weak.erase r) ∧ s.persistents.Same t.persistents ∧
      t.objects = s.objects.erase w ∧ t.handle = update s.handle w none ∧ t.refs = s.refs ∧
      t.collected = s.collected ++ [w] := by
  obtain ⟨hmem, -, hiff⟩ := h.handles w hw r hwr
  obtain ⟨p, hp, hholds, hsame, halive, hcallback⟩ := h.holds.clearWeak r
  have hlocal := h.scopes.isLocalReference_eq r
  obtain ⟨q, hq, hholds', hsame', halive', hcallback'⟩ := hholds.dispose (r := r)
    (b := HandleScope.allBlocks s.scopes.scopes != []) fun _ ↦
      h.holds.chain.nodup.not_mem_erase
  rw [← hlocal] at hq
  have hnot : r ∉ weak.erase r := h.holds.chain.nodup.not_mem_erase
  rw [List.erase_of_not_mem hnot] at hholds'
  let t : Wrappers α := { s with
    persistents := q
    handle := update s.handle w none
    objects := s.objects.erase w
    collected := s.collected ++ [w] }
  have hdestroy : s.destroy w = .ok { t with collected := s.collected } := by
    rw [Wrappers.destroy, hwr]
    dsimp only
    rw [if_neg (not_not_intro hmem), if_neg (by rw [hnear]; exact Bool.false_ne_true.symm), hp]
    dsimp only
    rw [hq]
  refine ⟨t, ?_, ⟨h.scopes, hholds', fun x hx y hy ↦ ?_, fun y hy ↦ ?_, fun x hx hy ↦ ?_,
    h.objects.erase w⟩,
    ⟨hsame'.value.trans hsame.value, hsame'.isNearDeath.trans hsame.isNearDeath⟩, rfl, rfl, rfl,
    rfl⟩
  · have hobject : s.SameObject r (s.handle w) := by
      rw [hwr]
      rfl
    rw [Wrappers.weakCallback, if_neg (not_not_intro hw), if_neg (not_not_intro hobject),
      if_neg (not_not_intro (hiff.mp hr)), if_neg (by rw [hnear]; exact Bool.false_ne_true.symm),
      hdestroy]
    rfl
  · obtain ⟨hxw, hx⟩ := h.objects.mem_erase_iff.mp hx
    have hy : s.handle x = some y := (Function.update_of_ne hxw ..).symm.trans hy
    obtain ⟨hmem, hback, hiff⟩ := h.handles x hx y hy
    have hne : y ≠ r := fun heq ↦ hxw (h.handle_inj hx hw hy (heq ▸ hwr))
    refine ⟨?_, ?_, (List.mem_erase_of_ne hne).trans hiff⟩
    · rw [halive', halive]
      exact (List.mem_erase_of_ne hne).mpr hmem
    · rw [hcallback', hcallback, hback]
  · obtain ⟨hyr, hy⟩ := h.holds.chain.nodup.mem_erase_iff.mp hy
    obtain ⟨x, hx, hxy⟩ := h.owners y hy
    have hxw : x ≠ w := by
      rintro rfl
      exact hyr (Option.some.inj (hxy.symm.trans hwr))
    exact ⟨x, (List.mem_erase_of_ne hxw).mpr hx, (Function.update_of_ne hxw ..).trans hxy⟩
  · obtain ⟨hxw, hx⟩ := h.objects.mem_erase_iff.mp hx
    exact h.empty x hx ((Function.update_of_ne hxw ..).symm.trans hy)

theorem checkFrom_living {dying : α → Bool} (halive : r ∈ s.persistents.alive)
    (hd : dying (s.persistents.value r) = false) :
    checkFrom dying (n + 1) (some r) s =
      checkFrom dying n (s.persistents.links.next r) (s.setNearDeath r false) := by
  rw [checkFrom, if_neg (not_not_intro halive)]
  dsimp only
  rw [hd]
  rfl

theorem checkFrom_dying {dying : α → Bool} {t : Wrappers α} (halive : r ∈ s.persistents.alive)
    (hd : dying (s.persistents.value r) = true) (hback : s.persistents.callback r = some w)
    (ht : (s.setNearDeath r true).weakCallback r w = .ok t) :
    checkFrom dying (n + 1) (some r) s =
      checkFrom dying n (s.persistents.links.next r) t := by
  have hback' : (s.setNearDeath r true).persistents.callback r = some w := hback
  rw [checkFrom, if_neg (not_not_intro halive)]
  dsimp only
  rw [hd, hback']
  dsimp only
  rw [ht]
  rfl

/-- The first loop: the handles of dying objects are gone, and these objects deleted, each once. -/
theorem checkFrom_eq (dying : α → Bool) {kept rest : List ℕ} (h : s.Kept (kept ++ rest))
    (hkept : ∀ r ∈ kept, s.persistents.isNearDeath r = false) (hn : rest.length ≤ n) :
    ∃ t l, checkFrom dying n rest.head? s = .ok t ∧
      t.Kept (kept ++ rest.filter fun r ↦ !dying (s.persistents.value r)) ∧
      (∀ r ∈ kept ++ rest.filter fun r ↦ !dying (s.persistents.value r),
        t.persistents.isNearDeath r = false) ∧
      t.collected = s.collected ++ l ∧
      List.Forall₂ (fun w r ↦ w ∈ s.objects ∧ s.handle w = some r) l
        (rest.filter fun r ↦ dying (s.persistents.value r)) ∧
      ∀ w, w ∈ t.objects ↔ w ∈ s.objects ∧ w ∉ l := by
  induction rest generalizing kept s n with
  | nil =>
    refine ⟨s, [], by cases n <;> rfl, h, ?_, (List.append_nil _).symm, .nil, by simp⟩
    simpa using hkept
  | cons r rest ih =>
    match n, hn with
    | n + 1, hn =>
      have hmem : r ∈ kept ++ r :: rest := by simp
      have halive := h.holds.alive r hmem
      have hnext := h.holds.chain.path.next_eq
      have hr : r ∉ kept := fun hr ↦
        (List.nodup_append.mp h.holds.chain.nodup).2.2 r hr r (List.mem_cons_self ..) rfl
      have hset (b : Bool) : ∀ x ∈ kept,
          (s.setNearDeath r b).persistents.isNearDeath x = false := fun x hx ↦ by
        have hne : x ≠ r := fun heq ↦ hr (heq ▸ hx)
        exact (Function.update_of_ne hne ..).trans (hkept x hx)
      rw [List.head?_cons]
      cases hd : dying (s.persistents.value r) with
      | true =>
        obtain ⟨w, hw, hwr⟩ := h.owners r hmem
        obtain ⟨-, hback, -⟩ := h.handles w hw r hwr
        obtain ⟨t, ht, hkeptT, hsame, hobjects, hhandle, -, hcollected⟩ :=
          (h.setNearDeath r true).weakCallback hmem hw hwr (Function.update_self ..)
        have herase : (kept ++ r :: rest).erase r = kept ++ rest := by
          rw [List.erase_append_right _ hr, List.erase_cons_head]
        have hvalue : t.persistents.value = s.persistents.value := hsame.value
        have hobjects : t.objects = s.objects.erase w := hobjects
        obtain ⟨u, l, hu, hkeptU, hnear, hcollectedU, hall, hobjectsU⟩ := ih (s := t) (n := n)
          (herase ▸ hkeptT) (fun x hx ↦ hsame.isNearDeath ▸ hset true x hx)
          (Nat.le_of_succ_le_succ hn)
        rw [hvalue] at hkeptU hnear hall
        rw [checkFrom_dying halive hd hback ht, hnext]
        rw [List.filter_cons_of_neg (by simp [hd]), List.filter_cons_of_pos (by simp [hd])]
        refine ⟨u, w :: l, hu, hkeptU, hnear, ?_, .cons ⟨hw, hwr⟩ (hall.imp fun x y hxy ↦ ?_),
          fun x ↦ ?_⟩
        · rw [hcollectedU, hcollected, List.append_assoc]
          rfl
        · rw [hhandle, hobjects] at hxy
          obtain ⟨hxw, hx⟩ := h.objects.mem_erase_iff.mp hxy.1
          exact ⟨hx, (Function.update_of_ne hxw ..).symm.trans hxy.2⟩
        · rw [hobjectsU, hobjects, h.objects.mem_erase_iff, List.mem_cons, not_or]
          tauto
      | false =>
        have hkept' : ∀ x ∈ kept ++ [r],
            (s.setNearDeath r false).persistents.isNearDeath x = false := by
          intro x hx
          rcases List.mem_append.mp hx with hx | hx
          · exact hset false x hx
          · rw [List.mem_singleton.mp hx]
            exact Function.update_self ..
        have hsplit (l : List ℕ) : kept ++ r :: l = kept ++ [r] ++ l := by simp
        have hkept'' := h.setNearDeath r false
        rw [hsplit] at hkept''
        obtain ⟨u, l, hu, hkeptU, hnear, hrest⟩ := ih hkept'' hkept' (Nat.le_of_succ_le_succ hn)
        rw [checkFrom_living halive hd, hnext]
        rw [List.filter_cons_of_pos (by simp [hd]), List.filter_cons_of_neg (by simp [hd]), hsplit]
        exact ⟨u, l, hu, hkeptU, hnear, hrest⟩

/-- What a collection deletes: the objects of which the handle is near death, each once. -/
def Collects (s t : Wrappers α) (dying : α → Bool) : Prop :=
  ∃ l, t.collected = s.collected ++ l ∧ l.Nodup ∧
    (∀ w, w ∈ l ↔ w ∈ s.objects ∧ ∃ r, s.handle w = some r ∧
      dying (s.persistents.value r) = true) ∧
    ∀ w, w ∈ t.objects ↔ w ∈ s.objects ∧ w ∉ l

theorem Kept.collect (h : s.Kept weak) {dying : α → Bool} (hcan : s.Can (.collect dying)) :
    ∃ t, s.checkForWeakHandles dying = .ok t ∧ (∃ weak', t.Kept weak') ∧ s.Collects t dying := by
  have hlength {s : Wrappers α} {weak : List ℕ} (h : s.Kept weak) :
      weak.length ≤ s.persistents.alive.length :=
    (List.subperm_of_subset h.holds.chain.nodup h.holds.alive).length_le
  have hnil : s.Kept ([] ++ weak) := h
  obtain ⟨t, l, ht, hkept, hnear, hcollected, hall, hobjects⟩ :=
    checkFrom_eq dying hnil (fun r hr ↦ absurd hr List.not_mem_nil) (hlength h)
  rw [List.nil_append] at hkept hnear
  rw [← h.holds.chain.path.eq_head?] at ht
  have hnil' : t.Kept ([] ++ weak.filter fun r ↦ !dying (s.persistents.value r)) := hkept
  have hdelete := deleteFrom_eq hnil' hnear (hlength hkept)
  rw [← hkept.holds.chain.path.eq_head?] at hdelete
  obtain ⟨hobject, hall⟩ := (List.forall₂_and_left _ _).mp hall
  have hmap : l.map s.handle =
      (weak.filter fun r ↦ dying (s.persistents.value r)).map some := by
    rw [← List.forall₂_eq_eq_eq, List.forall₂_map_left_iff, List.forall₂_map_right_iff]
    exact hall
  refine ⟨t, by rw [checkForWeakHandles, ht]; exact hdelete, ⟨_, hkept⟩, l, hcollected, ?_, ?_,
    hobjects⟩
  · refine List.Nodup.of_map s.handle (hmap ▸ ?_)
    exact (h.holds.chain.nodup.filter _).map fun _ _ ↦ Option.some.inj
  · intro w
    constructor
    · intro hw
      have hmem := List.mem_map_of_mem (f := s.handle) hw
      rw [hmap] at hmem
      obtain ⟨r, hr, heq⟩ := List.mem_map.mp hmem
      exact ⟨hobject w hw, r, heq.symm, (List.mem_filter.mp hr).2⟩
    · rintro ⟨hw, r, hwr, hd⟩
      have hr := (h.handles w hw r hwr).2.2.mpr (hcan w hw r hwr hd)
      have hmem : some r ∈ l.map s.handle := by
        rw [hmap]
        exact List.mem_map_of_mem (List.mem_filter.mpr ⟨hr, hd⟩)
      obtain ⟨v, hv, hvr⟩ := List.mem_map.mp hmem
      exact h.handle_inj (hobject v hv) hw hvr hwr ▸ hv

/-- Each event succeeds. -/
theorem Kept.happen (h : s.Kept weak) {e : Event α} (hcan : s.Can e) :
    ∃ t, s.happen e = .ok t ∧ (∃ weak', t.Kept weak') ∧
      ∀ dying, e = .collect dying → s.Collects t dying := by
  cases e with
  | scope e =>
    obtain ⟨t, ht, hsound, -⟩ := Run.happen_of_can h.scopes hcan
    exact ⟨{ s with scopes := t }, congrArg (Except.map _) ht, ⟨weak, hsound, h.holds, h.handles,
      h.owners, h.empty, h.objects⟩, nofun⟩
  | construct w => exact ⟨_, rfl, ⟨weak, h.construct hcan⟩, nofun⟩
  | wrap w v r =>
    obtain ⟨t, ht, hkept⟩ := h.wrap hcan.1 hcan.2.1 hcan.2.2 v
    exact ⟨t, ht, ⟨_, hkept⟩, nofun⟩
  | ref w =>
    obtain ⟨r, hr⟩ := Option.ne_none_iff_exists'.mp hcan.2
    obtain ⟨t, ht, hkept⟩ := h.ref hcan.1 hr
    exact ⟨t, ht, ⟨_, hkept⟩, nofun⟩
  | unref w =>
    obtain ⟨r, hr⟩ := Option.ne_none_iff_exists'.mp hcan.2.1
    obtain ⟨t, ht, hkept⟩ := h.unref hcan.1 hr hcan.2.2
    exact ⟨t, ht, hkept, nofun⟩
  | collect dying =>
    obtain ⟨t, ht, hkept, hcollects⟩ := h.collect hcan
    refine ⟨t, ht, hkept, ?_⟩
    rintro _ ⟨⟩
    exact hcollects

/-- The counters and the list agree, whatever happens; each event succeeds, and a collection deletes
the objects that are near death. -/
theorem agrees_always {value : Slot → α} {value' : ℕ → α}
    (h : machine.Reaches (init value value') s) : s.Agrees ∧
    ∀ e, machine.guard s e → ∃ t, machine.step s e = .ok t ∧
      ∀ dying, e = .collect dying → s.Collects t dying := by
  have hkept : ∃ weak, s.Kept weak := by
    refine h.invariant (p := fun s : Wrappers α ↦ ∃ weak, s.Kept weak)
      ⟨[], kept_init value value'⟩ ?_
    intro s t e ⟨weak, hs⟩ hg ht
    obtain ⟨u, hu, hkept, -⟩ := hs.happen hg
    obtain rfl := Except.ok.inj (hu.symm.trans ht)
    exact hkept
  obtain ⟨weak, hkept⟩ := hkept
  refine ⟨hkept.agrees, fun e hg ↦ ?_⟩
  obtain ⟨t, ht, -, hcollects⟩ := hkept.happen hg
  exact ⟨t, ht, hcollects⟩

/-- Of three wrapped objects, one is counted on and one of the others dies. -/
theorem agrees_always_three : ∃ s : Wrappers ℕ,
    machine.Reaches (init (fun _ ↦ 0) fun _ ↦ 0) s ∧ s.Agrees ∧ s.collected = [1] ∧
      s.objects = [3, 2] ∧ s.persistents.weakPtrs = some 32 ∧ s.persistents.roots = [48] := by
  have hrun := Machine.reaches_of_run (M := machine) (s := init (fun _ ↦ 0) fun _ ↦ 0)
    (l := [.construct 1, .wrap 1 10 16, .construct 2, .wrap 2 20 32, .construct 3, .wrap 3 30 48,
      .ref 3, .ref 3, .unref 3, .collect (· == 10)]) rfl
  exact ⟨_, hrun, (agrees_always hrun).1, rfl, rfl, rfl, rfl⟩

end Wrappers

end SpiderNode.Handles
