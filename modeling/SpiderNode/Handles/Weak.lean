import SpiderNode.Handles.Local
import SpiderNode.Links.Chain

/-!
# Weak handles

A `PersistentGCReference` of `deps/mozjs/js/src/v8api/handles.cpp` is a root by itself. `MakeWeak`
takes it off the roots and puts it in front of a list, `weakPtrs`; `ClearWeak` does the reverse. The
two pointers of the list also tell whether a reference is weak (`IsWeak`).

`Dispose` deletes a reference. Its destructor takes it off the list, but `Dispose` calls it only for
what is not a local reference (see `Scopes.isLocalReference`).

Each use of a reference that has been deleted is a fault. What `new_` makes is at a new address, or
at one where a reference has been deleted.
-/

namespace SpiderNode.Handles

open Function (update)

/-- The memory of all `PersistentGCReference`s. A callback goes with its context. -/
structure Persistents (κ α : Type*) where
  /-- Those that have not been deleted. -/
  alive : List ℕ
  value : ℕ → α
  callback : ℕ → Option κ
  isNearDeath : ℕ → Bool
  links : Links ℕ
  weakPtrs : Option ℕ
  roots : List ℕ

namespace Persistents

variable {κ α : Type*}

def init (value : ℕ → α) : Persistents κ α :=
  ⟨[], value, fun _ ↦ none, fun _ ↦ false, ⟨fun _ ↦ none, fun _ ↦ none⟩, none, []⟩

/-- A pointer is null, or to a reference that has not been deleted. -/
def Alive (s : Persistents κ α) (p : Option ℕ) : Prop := ∀ r, p = some r → r ∈ s.alive

instance (s : Persistents κ α) : DecidablePred s.Alive
  | none => isTrue nofun
  | some r =>
    decidable_of_iff (r ∈ s.alive) ⟨fun h _ heq ↦ Option.some.inj heq ▸ h, fun h ↦ h r rfl⟩

/-- `GCReference::Globalize`, which makes a reference `r`. It does not set `isNearDeath`. -/
def globalize (v : α) (r : ℕ) (s : Persistents κ α) : Persistents κ α :=
  { s with
    alive := r :: s.alive
    value := update s.value r v
    callback := update s.callback r none
    links := (s.links.setPrev r none).setNext r none
    roots := s.roots.insert r }

def isWeak (s : Persistents κ α) (r : ℕ) : Bool :=
  s.links.prev r ≠ none ∨ s.links.next r ≠ none

def makeWeak (callback : κ) (this : ℕ) (s : Persistents κ α) : Except Fault (Persistents κ α) :=
  if s.Alive s.weakPtrs then
    .ok { s with
      callback := update s.callback this (some callback)
      links := s.links.push s.weakPtrs this
      weakPtrs := some this
      roots := s.roots.erase this }
  else .error .deleted

def clearWeak (reroot : Bool) (this : ℕ) (s : Persistents κ α) :
    Except Fault (Persistents κ α) :=
  if s.Alive (s.links.next this) ∧ s.Alive (s.links.prev this) then
    if s.weakPtrs = some this ∧ s.links.prev this ≠ none then .error .assertion
    else
      .ok { s with
        links := s.links.remove this
        weakPtrs := if s.weakPtrs = some this then s.links.next this else s.weakPtrs
        roots := if reroot then s.roots.insert this else s.roots }
  else .error .deleted

/-- `delete_` -/
def delete (this : ℕ) (s : Persistents κ α) : Persistents κ α :=
  { s with alive := s.alive.erase this }

/-- `~PersistentGCReference`, and `delete_`. -/
def destroy (this : ℕ) (s : Persistents κ α) : Except Fault (Persistents κ α) :=
  match s.clearWeak false this with
  | .ok s => .ok (s.delete this)
  | .error e => .error e

/-- `GCReference::Dispose`, given what `IsLocalReference` returns. -/
def dispose (isLocal : Option Bool) (this : ℕ) (s : Persistents κ α) :
    Except Fault (Persistents κ α) :=
  let s := { s with roots := s.roots.erase this }
  match isLocal with
  | none => .error .nullPointer
  | some true => .ok (s.delete this)
  | some false => s.destroy this

/-! ## What the functions do -/

/-- The list has these references, which have not been deleted; all others have no links. -/
structure Strung (s : Persistents κ α) (weak : List ℕ) : Prop where
  chain : s.links.Chain s.weakPtrs weak
  doubly : s.links.Doubly
  alive : ∀ r ∈ weak, r ∈ s.alive
  free : ∀ r ∉ weak, s.links.Free r

/-- Besides, the others are roots, as long as they are not deleted. -/
structure Holds (s : Persistents κ α) (weak : List ℕ) : Prop extends s.Strung weak where
  nodup : s.alive.Nodup
  roots : s.roots.Nodup
  rooted : ∀ r ∈ s.alive, r ∈ s.roots ↔ r ∉ weak

/-- All but the links, the list and the roots has stayed as it was. -/
structure Same (s t : Persistents κ α) : Prop where
  value : t.value = s.value
  isNearDeath : t.isNearDeath = s.isNearDeath

variable {s t : Persistents κ α} {weak : List ℕ} {r : ℕ}

theorem holds_init (value : ℕ → α) : (init value : Persistents κ α).Holds [] :=
  ⟨⟨⟨.nil, rfl, nofun⟩, fun _ _ ↦ iff_of_false nofun nofun, nofun, fun _ _ ↦ ⟨rfl, rfl⟩⟩, .nil,
    .nil, nofun⟩

/-- `IsWeak` misses a reference that is alone in the list. -/
theorem Strung.isWeak_iff (h : s.Strung weak) (r : ℕ) :
    s.isWeak r = true ↔ r ∈ weak ∧ weak.length ≠ 1 := by
  rw [isWeak, decide_eq_true_iff]
  by_cases hr : r ∈ weak
  · rw [h.chain.linked_iff h.doubly hr]
    exact (and_iff_right hr).symm
  · obtain ⟨hnext, hprev⟩ := h.free r hr
    simp [hnext, hprev, hr]

theorem Strung.weakPtrs_ne (h : s.Strung weak) (hr : r ∉ weak) : s.weakPtrs ≠ some r := by
  intro heq
  have hhead := h.chain.path.eq_head?
  rw [heq] at hhead
  exact hr (List.mem_of_head? hhead.symm)

/-- A pointer to a reference of the list, from any other. -/
theorem Strung.alive_next (h : s.Strung weak) (r : ℕ) : s.Alive (s.links.next r) := by
  intro y hy
  by_cases hr : r ∈ weak
  · exact h.alive y (h.chain.path.next_mem hr hy)
  · cases (h.free r hr).1.symm.trans hy

theorem Strung.alive_prev (h : s.Strung weak) (r : ℕ) : s.Alive (s.links.prev r) := by
  intro y hy
  by_cases hmem : y ∈ weak
  · exact h.alive y hmem
  · cases (h.free y hmem).1.symm.trans ((h.doubly y r).mpr hy)

theorem Holds.globalize (h : s.Holds weak) (hr : r ∉ s.alive) (v : α) :
    (s.globalize v r).Holds weak := by
  have hweak : r ∉ weak := fun hmem ↦ hr (h.alive r hmem)
  obtain ⟨hnext, hprev⟩ := h.free r hweak
  have hlinks : (s.globalize v r).links = s.links := by
    rw [Persistents.globalize, Links.setNext, Links.setPrev, ← hnext, Function.update_eq_self,
      hnext, ← hprev, Function.update_eq_self]
  refine ⟨⟨?_, ?_, fun x hx ↦ List.mem_cons_of_mem r (h.alive x hx), ?_⟩,
    List.nodup_cons.mpr ⟨hr, h.nodup⟩, h.roots.insert, fun x hx ↦ ?_⟩
  · rw [hlinks]
    exact h.chain
  · rw [hlinks]
    exact h.doubly
  · rw [hlinks]
    exact h.free
  · rw [Persistents.globalize, List.mem_insert_iff]
    rcases List.mem_cons.mp hx with rfl | hx
    · exact iff_of_true (.inl rfl) hweak
    · have hne : x ≠ r := fun heq ↦ hr (heq ▸ hx)
      rw [or_iff_right hne, h.rooted x hx]

theorem Holds.makeWeak (h : s.Holds weak) (hr : r ∈ s.alive) (hweak : r ∉ weak) (callback : κ) :
    ∃ t, s.makeWeak callback r = .ok t ∧ t.Holds (r :: weak) ∧ s.Same t ∧ t.alive = s.alive ∧
      t.callback = update s.callback r (some callback) := by
  have halive : s.Alive s.weakPtrs := fun y hy ↦
    h.alive y (by_contra fun hmem ↦ h.weakPtrs_ne hmem hy)
  refine ⟨_, if_pos halive, ⟨⟨h.chain.push hweak, ?_, ?_, ?_⟩, h.nodup, h.roots.erase r, ?_⟩,
    ⟨rfl, rfl⟩, rfl, rfl⟩
  · exact h.doubly.push (h.free r hweak) h.chain.prev_head (h.weakPtrs_ne hweak)
  · intro x hx
    rcases List.mem_cons.mp hx with rfl | hx
    · exact hr
    · exact h.alive x hx
  · intro x hx
    obtain ⟨hne, hx⟩ := not_or.mp (mt List.mem_cons.mpr hx)
    exact (h.free x hx).push hne (h.weakPtrs_ne hx)
  · intro x hx
    rw [h.roots.mem_erase_iff, h.rooted x hx, List.mem_cons, not_or]

/-- A reference is taken off the list, if it is there. -/
theorem Strung.clearWeak (h : s.Strung weak) (reroot : Bool) (r : ℕ) :
    ∃ t, s.clearWeak reroot r = .ok t ∧ t.Strung (weak.erase r) ∧ s.Same t ∧ t.alive = s.alive ∧
      t.callback = s.callback ∧ t.roots = if reroot then s.roots.insert r else s.roots := by
  have hassert : ¬(s.weakPtrs = some r ∧ s.links.prev r ≠ none) := fun hne ↦
    hne.2 (h.chain.prev_head r hne.1)
  refine ⟨_, (if_pos ⟨h.alive_next r, h.alive_prev r⟩).trans (if_neg hassert), ?_, ⟨rfl, rfl⟩, rfl,
    rfl, rfl⟩
  by_cases hr : r ∈ weak
  · refine ⟨h.chain.remove h.doubly hr, h.doubly.remove r,
      fun x hx ↦ h.alive x (List.mem_of_mem_erase hx), fun x hx ↦ ?_⟩
    by_cases hx' : x = r
    · exact hx' ▸ s.links.alone_remove_self r
    · exact (h.free x fun hmem ↦ hx ((List.mem_erase_of_ne hx').mpr hmem)).remove h.doubly
  · have hsame := Links.remove_of_free (h.free r hr)
    rw [hsame, if_neg (h.weakPtrs_ne hr), List.erase_of_not_mem hr]
    exact ⟨h.chain, h.doubly, h.alive, h.free⟩

theorem Holds.clearWeak (h : s.Holds weak) (r : ℕ) :
    ∃ t, s.clearWeak true r = .ok t ∧ t.Holds (weak.erase r) ∧ s.Same t ∧ t.alive = s.alive ∧
      t.callback = s.callback := by
  obtain ⟨t, ht, hstrung, hsame, halive, hcallback, hroots⟩ := h.toStrung.clearWeak true r
  refine ⟨t, ht, ⟨hstrung, halive ▸ h.nodup, ?_, fun x hx ↦ ?_⟩, hsame, halive, hcallback⟩
  · rw [hroots]
    exact h.roots.insert
  · rw [hroots, if_pos rfl, List.mem_insert_iff, h.rooted x (halive ▸ hx),
      h.chain.nodup.mem_erase_iff]
    by_cases hx' : x = r <;> simp [hx']

/-- A reference is deleted that is not in the list, or with its destructor. -/
theorem Holds.dispose (h : s.Holds weak) {b : Bool} (hlocal : b = true → r ∉ weak) :
    ∃ t, s.dispose (some b) r = .ok t ∧ t.Holds (weak.erase r) ∧ s.Same t ∧
      t.alive = s.alive.erase r ∧ t.callback = s.callback := by
  let u : Persistents κ α := { s with roots := s.roots.erase r }
  have hu : u.Strung weak := ⟨h.chain, h.doubly, h.alive, h.free⟩
  have hholds {t : Persistents κ α} (ht : t.Strung (weak.erase r)) (halive : t.alive = s.alive)
      (hroots : t.roots = s.roots.erase r) : (t.delete r).Holds (weak.erase r) := by
    refine ⟨⟨ht.chain, ht.doubly, fun x hx ↦ ?_, ht.free⟩, ?_, ?_, fun x hx ↦ ?_⟩
    · obtain ⟨hne, -⟩ := h.chain.nodup.mem_erase_iff.mp hx
      exact (List.mem_erase_of_ne hne).mpr (ht.alive x hx)
    · rw [Persistents.delete, halive]
      exact h.nodup.erase r
    · rw [Persistents.delete, hroots]
      exact h.roots.erase r
    · rw [Persistents.delete, halive] at hx
      obtain ⟨hne, hx⟩ := h.nodup.mem_erase_iff.mp hx
      rw [Persistents.delete, hroots, List.mem_erase_of_ne hne, h.rooted x hx,
        List.mem_erase_of_ne hne]
  cases b with
  | true =>
    have hr := hlocal rfl
    refine ⟨u.delete r, rfl, hholds ?_ rfl rfl, ⟨rfl, rfl⟩, rfl, rfl⟩
    rwa [List.erase_of_not_mem hr]
  | false =>
    obtain ⟨t, ht, hstrung, hsame, halive, hcallback, hroots⟩ := hu.clearWeak false r
    refine ⟨t.delete r, ?_, hholds hstrung halive hroots, ⟨hsame.value, hsame.isNearDeath⟩, ?_,
      hcallback⟩
    · rw [Persistents.dispose, Persistents.destroy, ht]
    · rw [Persistents.delete, halive]

end Persistents

/-! ## Runs -/

/-- The handle scopes, the persistent references, and those of the latter which are weak. -/
structure HandleState (κ α : Type*) where
  scopes : Run α
  refs : Persistents κ α
  weak : List ℕ

namespace HandleState

variable {κ α : Type*}

def init (value : Slot → α) (value' : ℕ → α) : HandleState κ α := ⟨.init value, .init value', []⟩

inductive Event (κ α : Type*) where
  /-- What handle scopes do. -/
  | scope (e : Run.Event α)
  /-- `Persistent::New`, of a reference that has a value; the new one is at `r`. -/
  | new (v : α) (r : ℕ)
  | makeWeak (callback : κ) (r : ℕ)
  | clearWeak (r : ℕ)
  | dispose (r : ℕ)

def Can (s : HandleState κ α) : Event κ α → Prop
  | .scope e => s.scopes.Can e
  | .new _ r => r ∉ s.refs.alive
  | .makeWeak _ r | .clearWeak r | .dispose r => r ∈ s.refs.alive

def happen (s : HandleState κ α) : Event κ α → Except Fault (HandleState κ α)
  | .scope e => (s.scopes.happen e).map fun t ↦ { s with scopes := t }
  | .new v r => .ok { s with refs := s.refs.globalize v r }
  | .makeWeak callback r =>
    (s.refs.makeWeak callback r).map fun t ↦ { s with refs := t, weak := s.weak.insert r }
  | .clearWeak r =>
    (s.refs.clearWeak true r).map fun t ↦ { s with refs := t, weak := s.weak.erase r }
  | .dispose r =>
    (s.refs.dispose (s.scopes.isLocalReference r) r).map fun t ↦
      { s with refs := t, weak := s.weak.erase r }

def machine : Machine (HandleState κ α) (Event κ α) Fault := ⟨Can, happen⟩

instance [DecidableEq α] (s : HandleState κ α) : DecidablePred (machine.guard s)
  | .scope e => inferInstanceAs (Decidable (Run.machine.guard s.scopes e))
  | .new _ r => inferInstanceAs (Decidable (r ∉ s.refs.alive))
  | .makeWeak _ r | .clearWeak r | .dispose r => inferInstanceAs (Decidable (r ∈ s.refs.alive))

/-- The list has the weak references, each once, and none that has been deleted; its pointers are
inverse to each other. -/
structure WellFormed (s : HandleState κ α) : Prop where
  chain : ∃ l, s.refs.links.Chain s.refs.weakPtrs l ∧ l.Perm s.weak
  doubly : s.refs.links.Doubly
  alive : ∀ r ∈ s.weak, r ∈ s.refs.alive

/-- `IsWeak` is right about each reference that has not been deleted. -/
def TellsWeak (s : HandleState κ α) : Prop :=
  ∀ r ∈ s.refs.alive, s.refs.isWeak r = true ↔ r ∈ s.weak

/-- `MakeWeak` is for references that are not weak. A weak one is disposed of while no open scope
has made a handle. -/
def Calm (s : HandleState κ α) : Event κ α → Prop
  | .makeWeak _ r => r ∉ s.weak
  | .dispose r => r ∈ s.weak → HandleScope.allBlocks s.scopes.scopes = []
  | _ => True

instance (s : HandleState κ α) : DecidablePred s.Calm
  | .makeWeak _ r => inferInstanceAs (Decidable (r ∉ s.weak))
  | .dispose r => inferInstanceAs (Decidable (r ∈ s.weak → _ = []))
  | .scope _ | .new .. | .clearWeak _ => inferInstanceAs (Decidable True)

/-- The invariant. -/
structure Kept (s : HandleState κ α) : Prop where
  scopes : s.scopes.Sound s.scopes.opened
  refs : s.refs.Holds s.weak

variable {s : HandleState κ α}

theorem Kept.happen (h : s.Kept) {e : Event κ α} (hcan : s.Can e) (hcalm : s.Calm e) :
    ∃ t, s.happen e = .ok t ∧ t.Kept := by
  cases e with
  | scope e =>
    obtain ⟨t, ht, hsound, -⟩ := Run.happen_of_can h.scopes hcan
    exact ⟨{ s with scopes := t }, congrArg (Except.map _) ht, hsound, h.refs⟩
  | new v r => exact ⟨_, rfl, h.scopes, h.refs.globalize hcan v⟩
  | makeWeak callback r =>
    obtain ⟨t, ht, hholds, -⟩ := h.refs.makeWeak hcan hcalm callback
    refine ⟨_, congrArg (Except.map _) ht, h.scopes, ?_⟩
    rw [List.insert_of_not_mem hcalm]
    exact hholds
  | clearWeak r =>
    obtain ⟨t, ht, hholds, -⟩ := h.refs.clearWeak r
    exact ⟨_, congrArg (Except.map _) ht, h.scopes, hholds⟩
  | dispose r =>
    have hlocal := h.scopes.isLocalReference_eq r
    obtain ⟨t, ht, hholds, -⟩ := h.refs.dispose (r := r)
      (b := HandleScope.allBlocks s.scopes.scopes != []) fun hne hmem ↦ by
        simp [hcalm hmem] at hne
    rw [← hlocal] at ht
    exact ⟨{ s with refs := t, weak := s.weak.erase r }, congrArg (Except.map _) ht, h.scopes,
      hholds⟩

/-- The list is well-formed, as long as only references that are not weak are made weak, and no weak
one is disposed of while there are blocks; `IsWeak` is right unless there is just one. -/
theorem wellFormed_of_calm {value : Slot → α} {value' : ℕ → α}
    (h : (machine.restrict Calm).Reaches (init (κ := κ) value value') s) :
    s.WellFormed ∧ (s.TellsWeak ↔ s.weak.length ≠ 1) := by
  have hkept : s.Kept := by
    refine h.invariant ⟨Scopes.sound_init value, Persistents.holds_init value'⟩ ?_
    intro s t e hs hg ht
    obtain ⟨u, hu, hkept⟩ := hs.happen hg.1 hg.2
    obtain rfl := Except.ok.inj (hu.symm.trans ht)
    exact hkept
  refine ⟨⟨⟨s.weak, hkept.refs.chain, .refl _⟩, hkept.refs.doubly, hkept.refs.alive⟩, ?_⟩
  constructor
  · intro htells hone
    obtain ⟨r, hr⟩ := List.length_eq_one_iff.mp hone
    have hmem : r ∈ s.weak := hr ▸ List.mem_singleton_self r
    have hweak := (htells r (hkept.refs.alive r hmem)).mpr hmem
    exact ((hkept.refs.isWeak_iff r).mp hweak).2 hone
  · intro hne r _
    exact (hkept.refs.isWeak_iff r).trans (and_iff_left hne)

/-- Three weak references, of which the middle one and then the first are disposed of. -/
theorem wellFormed_of_calm_three : ∃ s : HandleState Unit ℕ,
    (machine.restrict Calm).Reaches (init (fun _ ↦ 0) fun _ ↦ 0) s ∧ s.WellFormed ∧
      s.weak = [16] ∧ ¬s.TellsWeak := by
  have hrun := Machine.reaches_of_run (M := machine.restrict Calm)
    (s := init (κ := Unit) (fun _ ↦ 0) fun _ ↦ 0)
    (l := [.new 1 16, .new 2 32, .new 3 48, .makeWeak () 16, .makeWeak () 32, .makeWeak () 48,
      .scope (.construct 8), .dispose 32, .clearWeak 48, .clearWeak 48, .dispose 48]) rfl
  obtain ⟨hwell, htells⟩ := wellFormed_of_calm hrun
  exact ⟨_, hrun, hwell, rfl, fun h ↦ htells.mp h rfl⟩

/-- A reference that is made weak twice follows itself. -/
theorem made_weak_twice : ¬∀ s : HandleState Unit ℕ,
    machine.Reaches (init (fun _ ↦ 0) fun _ ↦ 0) s → s.WellFormed ∧ s.TellsWeak := by
  intro hall
  have hrun := Machine.reaches_of_run (M := machine)
    (s := init (κ := Unit) (fun _ ↦ 0) fun _ ↦ 0)
    (l := [.new 1 16, .makeWeak () 16, .makeWeak () 16]) rfl
  obtain ⟨l, hchain, hperm⟩ := (hall _ hrun).1.chain
  obtain rfl := List.perm_singleton.mp hperm
  cases hchain.path.2

end HandleState

end SpiderNode.Handles
