import SpiderNode.Handles.Container
import SpiderNode.Machine.Runs
import Mathlib.Data.List.Perm.Basic
import Mathlib.Logic.Function.Basic

/-!
# Handle scopes

`HandleScope` of `deps/mozjs/js/src/v8api/handles.cpp` keeps the slots of local handles in a
container, and its slots are roots of the garbage collector as long as the scope is open. The scopes
are linked from `sCurrent` on, the innermost open one. `Close` copies a handle into the enclosing
scope; the object of the scope is destroyed later.

Beside the code, a run carries what the scopes are for: the slots of each scope that exists, or
nothing if it has been closed (`Opened`).

`V8::Dispose` is not called in these runs; behind it the destructor does nothing.
-/

namespace SpiderNode.Handles

open Function (update)

/-! ## Roots -/

/-- The roots of the engine, and the slots. All calls that add or remove a root are kept. -/
structure Heap (α : Type*) where
  roots : List Slot
  value : Slot → α
  rooted : List Slot
  unrooted : List Slot

namespace Heap

variable {α : Type*}

/-- `JS_AddValueRoot` -/
def root (x : Slot) (m : Heap α) : Heap α :=
  { m with roots := m.roots.insert x, rooted := m.rooted ++ [x] }

/-- `JS_RemoveValueRoot` -/
def unroot (x : Slot) (m : Heap α) : Heap α :=
  { m with roots := m.roots.erase x, unrooted := m.unrooted ++ [x] }

def setValue (x : Slot) (v : α) (m : Heap α) : Heap α := { m with value := update m.value x v }

/-- `GCOps` -/
def gcOps : SlotOps (Heap α) := ⟨root, unroot⟩

end Heap

/-- What a handle refers to: a slot, or a reference elsewhere, which has a value. -/
inductive Reference (α : Type*) where
  | slot (x : Slot)
  | elsewhere (v : α)

/-- `ref->native()` -/
def Heap.native {α : Type*} (m : Heap α) : Reference α → α
  | .slot x => m.value x
  | .elsewhere v => v

/-! ## Scopes -/

/-- A `HandleScope` at an address. -/
structure HandleScope where
  address : ℕ
  mGCReferences : Option Container
  mPrevious : Option ℕ

namespace HandleScope

/-- The object that a pointer points to. -/
def find (scopes : List HandleScope) (a : ℕ) : Option HandleScope :=
  scopes.find? (·.address = a)

/-- An assignment to a field of the object that a pointer points to. -/
def modify (a : ℕ) (f : HandleScope → HandleScope) (scopes : List HandleScope) : List HandleScope :=
  scopes.map fun sc ↦ if sc.address = a then f sc else sc

def setContainer (c : Option Container) (sc : HandleScope) : HandleScope :=
  { sc with mGCReferences := c }

/-- The blocks of a scope. -/
def blocks (sc : HandleScope) : List SlotBlock := (sc.mGCReferences.map Container.blocks).getD []

/-- The innermost scope that is open. -/
def innermost (scopes : List HandleScope) : Option ℕ :=
  (scopes.find? fun sc ↦ sc.mGCReferences.isSome).map address

end HandleScope

inductive Fault where
  | nullPointer
  | assertion
  /-- Memory is used that has been deleted. -/
  | deleted
  /-- A loop does not end. -/
  | endless
  deriving DecidableEq

/-- The scopes that exist, the innermost first, and `sCurrent`. -/
structure Scopes (α : Type*) where
  scopes : List HandleScope
  sCurrent : Option ℕ
  heap : Heap α
  /-- The blocks made so far have lower numbers. -/
  made : ℕ

namespace Scopes

variable {α : Type*}

def init (value : Slot → α) : Scopes α := ⟨[], none, ⟨[], value, [], []⟩, 0⟩

/-- `HandleScope()` -/
def construct (a : ℕ) (s : Scopes α) : Scopes α :=
  { s with scopes := ⟨a, some .new, s.sCurrent⟩ :: s.scopes, sCurrent := some a }

/-- `CreateHandle`; a block that is made has an address. -/
def createHandle (v : α) (address : ℕ) (s : Scopes α) : Except Fault (Slot × Scopes α) :=
  match s.sCurrent with
  | none => .error .nullPointer
  | some a =>
    match (HandleScope.find s.scopes a).bind (·.mGCReferences) with
    | none => .error .nullPointer
    | some c =>
      let (ref, c, heap) := c.allocate Heap.gcOps ⟨s.made, address⟩ s.heap
      .ok (ref, { s with
        scopes := HandleScope.modify a (.setContainer (some c)) s.scopes
        heap := heap.setValue ref v
        made := s.made + 1 })

/-- `Destroy` -/
def destroy (this : HandleScope) (s : Scopes α) : Scopes α :=
  if s.sCurrent = some this.address then
    { s with
      sCurrent := this.mPrevious
      heap :=
        match this.mGCReferences with
        | some c => c.destroy Heap.gcOps s.heap
        | none => s.heap
      scopes := HandleScope.modify this.address (.setContainer none) s.scopes }
  else s

/-- `InternalClose` -/
def internalClose (this : HandleScope) (ref : Reference α) (address : ℕ) (s : Scopes α) :
    Except Fault (Slot × Scopes α) :=
  if this.mPrevious = none then .error .assertion
  else if this.mGCReferences.isNone then .error .assertion
  else if s.sCurrent ≠ some this.address then .error .assertion
  else (s.destroy this).createHandle (s.heap.native ref) address

/-- The loop of `IsLocalReference`, for at most `n` scopes. -/
def isLocalFrom (scopes : List HandleScope) : ℕ → Option ℕ → ℕ → Option Bool
  | _, none, _ => some false
  | 0, some _, _ => none
  | n + 1, some current, ref => do
    let sc ← HandleScope.find scopes current
    let container ← sc.mGCReferences
    if Container.containsSlot container.blocks ref then return true
    isLocalFrom scopes n sc.mPrevious ref

/-- `IsLocalReference`; `none` if it does not return. -/
def isLocalReference (s : Scopes α) (ref : ℕ) : Option Bool :=
  isLocalFrom s.scopes s.scopes.length s.sCurrent ref

end Scopes

/-! ## What the scopes are for -/

/-- The slots of each scope that exists, the innermost first; of a scope that has been closed,
nothing. -/
abbrev Opened := List (Option (List Slot))

namespace Opened

def slots (o : Opened) : List Slot := o.flatMap (·.getD [])

/-- A slot for the innermost open scope. -/
def add (x : Slot) : Opened → Opened
  | [] => []
  | none :: o => none :: add x o
  | some l :: o => some (x :: l) :: o

def close : Opened → Opened
  | [] => []
  | none :: o => none :: close o
  | some _ :: o => none :: o

/-- How many scopes are open. -/
def count (o : Opened) : ℕ := o.countP (·.isSome)

end Opened

/-- A state in a run: besides the scopes, what they are for, and the handle returned last. -/
structure Run (α : Type*) extends Scopes α where
  opened : Opened
  returned : Option Slot

namespace Run

variable {α : Type*}

def init (value : Slot → α) : Run α := ⟨.init value, [], none⟩

inductive Event (α : Type*) where
  | construct (a : ℕ)
  | createHandle (v : α) (address : ℕ)
  /-- `Close` of the innermost open scope. -/
  | close (ref : Reference α) (address : ℕ)
  /-- The destructor of the innermost scope. -/
  | destruct

/-- A reference that has not been deleted. -/
def Valid (s : Run α) : Reference α → Prop
  | .slot x => x ∈ s.opened.slots
  | .elsewhere _ => True

instance [DecidableEq α] (s : Run α) : DecidablePred s.Valid
  | .slot x => inferInstanceAs (Decidable (x ∈ s.opened.slots))
  | .elsewhere _ => inferInstanceAs (Decidable True)

/-- Scopes are nested. A handle is created in an open scope, and a scope is closed within another
open one. -/
def Can (s : Run α) : Event α → Prop
  | .construct a => a ∉ s.scopes.map HandleScope.address
  | .createHandle .. => 1 ≤ s.opened.count
  | .close ref _ => 2 ≤ s.opened.count ∧ s.Valid ref
  | .destruct => s.scopes ≠ []

def happen (s : Run α) : Event α → Except Fault (Run α)
  | .construct a => .ok ⟨s.toScopes.construct a, some [] :: s.opened, s.returned⟩
  | .createHandle v address =>
    match s.toScopes.createHandle v address with
    | .ok (x, t) => .ok ⟨t, s.opened.add x, some x⟩
    | .error e => .error e
  | .close ref address =>
    match s.sCurrent.bind (HandleScope.find s.scopes) with
    | none => .error .nullPointer
    | some this =>
      match s.toScopes.internalClose this ref address with
      | .ok (x, t) => .ok ⟨t, s.opened.close.add x, some x⟩
      | .error e => .error e
  | .destruct =>
    match s.scopes with
    | [] => .error .nullPointer
    | this :: _ =>
      let t := s.toScopes.destroy this
      .ok ⟨{ t with scopes := t.scopes.tail }, s.opened.tail, s.returned⟩

def machine : Machine (Run α) (Event α) Fault := ⟨Can, happen⟩

instance (s : Run α) : Decidable (s.scopes ≠ []) :=
  decidable_of_iff (s.scopes.isEmpty = false) (by simp)

instance [DecidableEq α] (s : Run α) : DecidablePred (machine.guard s)
  | .construct a => inferInstanceAs (Decidable (a ∉ s.scopes.map HandleScope.address))
  | .createHandle .. => inferInstanceAs (Decidable (1 ≤ s.opened.count))
  | .close ref _ => inferInstanceAs (Decidable (2 ≤ s.opened.count ∧ s.Valid ref))
  | .destruct => inferInstanceAs (Decidable (s.scopes ≠ []))

end Run

/-! ## Scopes and their slots -/

namespace HandleScope

variable {ss rest closed : List HandleScope} {sc : HandleScope} {o o' : Opened} {c : Container}

/-- The scope of which these are the slots, in front of others. -/
def Holds (sc : HandleScope) (rest : List HandleScope) : Option (List Slot) → Prop
  | none => sc.mGCReferences = none
  | some l => sc.mPrevious = innermost rest ∧ ∃ c, sc.mGCReferences = some c ∧ c.slots = l

/-- The scopes are linked as they are nested, and have these slots. -/
def Linked : List HandleScope → Opened → Prop
  | [], [] => True
  | sc :: rest, l :: o => sc.address ∉ rest.map address ∧ sc.Holds rest l ∧ Linked rest o
  | _, _ => False

def allBlocks (ss : List HandleScope) : List SlotBlock := ss.flatMap blocks

theorem Linked.length_eq (h : Linked ss o) : ss.length = o.length := by
  induction ss generalizing o with
  | nil =>
    match o, h with
    | [], _ => rfl
  | cons sc rest ih =>
    match o, h with
    | _ :: o, h => rw [List.length_cons, List.length_cons, ih h.2.2]

/-- What is behind closed scopes can be exchanged, if the objects stay where they are. -/
theorem Linked.exchange {t u : List HandleScope} (h : Linked (closed ++ t)
      (List.replicate closed.length none ++ o)) (ht : Linked u o')
    (haddress : u.map address = t.map address) :
    Linked (closed ++ u) (List.replicate closed.length none ++ o') := by
  induction closed with
  | nil => exact ht
  | cons sc closed ih =>
    obtain ⟨hnotMem, hholds, hrest⟩ := h
    have hsame : (closed ++ u).map address = (closed ++ t).map address := by
      rw [List.map_append, haddress, List.map_append]
    exact ⟨fun hmem ↦ hnotMem (hsame ▸ hmem), hholds, ih hrest⟩

/-- There are closed scopes in front of the innermost open one. -/
theorem Linked.split (h : Linked ss o) (hpos : 1 ≤ o.count) :
    ∃ closed sc c rest o', ss = closed ++ sc :: rest ∧
      o = List.replicate closed.length none ++ some c.slots :: o' ∧
      (∀ x ∈ closed, x.mGCReferences = none ∧ x.address ∉ (sc :: rest).map address) ∧
      sc.mGCReferences = some c ∧ sc.mPrevious = innermost rest ∧
      sc.address ∉ rest.map address ∧ Linked rest o' := by
  induction ss generalizing o with
  | nil =>
    match o, h with
    | [], _ => cases hpos
  | cons x ss ih =>
    match o, h with
    | some l :: o, ⟨hnotMem, ⟨hprevious, c, hc, hslots⟩, hrest⟩ =>
      exact ⟨[], x, c, ss, o, rfl, by rw [hslots]; rfl, nofun, hc, hprevious, hnotMem, hrest⟩
    | none :: o, ⟨hnotMem, hnone, hrest⟩ =>
      have hpos' : 1 ≤ Opened.count o := by simpa [Opened.count] using hpos
      obtain ⟨closed, sc, c, rest, o', rfl, rfl, hclosed, h'⟩ := ih hrest hpos'
      refine ⟨x :: closed, sc, c, rest, o', rfl, rfl, fun y hy ↦ ?_, h'⟩
      rcases List.mem_cons.mp hy with rfl | hy
      · refine ⟨hnone, fun hmem ↦ hnotMem ?_⟩
        rw [List.map_append]
        exact List.mem_append_right _ hmem
      · exact hclosed y hy

section Innermost

variable (hclosed : ∀ x ∈ closed, x.mGCReferences = none ∧ x.address ∉ (sc :: rest).map address)

include hclosed

theorem innermost_append : innermost (closed ++ sc :: rest) = innermost (sc :: rest) := by
  have hnone : closed.find? (fun sc ↦ sc.mGCReferences.isSome) = none := by
    rw [List.find?_eq_none]
    intro x hx
    simp [(hclosed x hx).1]
  rw [innermost, List.find?_append, hnone, Option.none_or]
  rfl

theorem find_append : find (closed ++ sc :: rest) sc.address = some sc := by
  have hnone : closed.find? (fun x ↦ decide (x.address = sc.address)) = none := by
    rw [List.find?_eq_none]
    intro x hx heq
    exact (hclosed x hx).2 (of_decide_eq_true heq ▸ List.mem_map_of_mem (List.mem_cons_self ..))
  rw [find, List.find?_append, hnone, Option.none_or, List.find?_cons_of_pos (by simp)]

theorem modify_append (hnotMem : sc.address ∉ rest.map address) (f : HandleScope → HandleScope) :
    modify sc.address f (closed ++ sc :: rest) = closed ++ f sc :: rest := by
  have hsame {l : List HandleScope} (hl : sc.address ∉ l.map address) :
      l.map (fun x ↦ if x.address = sc.address then f x else x) = l := by
    conv_rhs => rw [← List.map_id l]
    refine List.map_congr_left fun x hx ↦ if_neg fun heq ↦ hl ?_
    exact heq ▸ List.mem_map_of_mem hx
  have hfront : sc.address ∉ closed.map address := by
    intro hmem
    obtain ⟨x, hx, heq⟩ := List.mem_map.mp hmem
    exact (hclosed x hx).2 (heq ▸ List.mem_map_of_mem (List.mem_cons_self ..))
  rw [modify, List.map_append, hsame hfront, List.map_cons, if_pos rfl, hsame hnotMem]

theorem allBlocks_append : allBlocks (closed ++ sc :: rest) = sc.blocks ++ allBlocks rest := by
  have hnone : closed.flatMap blocks = [] := by
    rw [List.flatMap_eq_nil_iff]
    intro x hx
    simp [blocks, (hclosed x hx).1]
  rw [allBlocks, List.flatMap_append, hnone, List.nil_append, List.flatMap_cons]
  rfl

end Innermost

end HandleScope

namespace Opened

variable {o : Opened} {n : ℕ} {l : List Slot}

theorem slots_replicate (n : ℕ) (o : Opened) :
    slots (List.replicate n none ++ o) = slots o := by
  have hnil : (List.replicate n (none : Option (List Slot))).flatMap (·.getD []) = [] := by
    rw [List.flatMap_eq_nil_iff]
    intro x hx
    rw [List.eq_of_mem_replicate hx]
    rfl
  rw [slots, List.flatMap_append, hnil, List.nil_append]
  rfl

@[simp] theorem slots_some (l : List Slot) (o : Opened) : slots (some l :: o) = l ++ slots o :=
  List.flatMap_cons

@[simp] theorem slots_none (o : Opened) : slots (none :: o) = slots o := rfl

theorem add_replicate (n : ℕ) (x : Slot) (l : List Slot) (o : Opened) :
    add x (List.replicate n none ++ some l :: o) = List.replicate n none ++ some (x :: l) :: o := by
  induction n with
  | zero => rfl
  | succ n ih =>
    rw [List.replicate_succ, List.cons_append, add, ih]
    rfl

theorem close_replicate (n : ℕ) (l : List Slot) (o : Opened) :
    close (List.replicate n none ++ some l :: o) = List.replicate n none ++ none :: o := by
  induction n with
  | zero => rfl
  | succ n ih =>
    rw [List.replicate_succ, List.cons_append, close, ih]
    rfl

theorem count_close (o : Opened) : count (close o) = count o - 1 := by
  induction o with
  | nil => rfl
  | cons l o ih =>
    match l with
    | none => simpa [count, close] using ih
    | some l => simp [count, close]

end Opened

namespace Heap

variable {α : Type*} {m : Heap α} {l r : List Slot}

/-- Roots are removed one after the other. -/
theorem foldl_unroot (l : List Slot) (m : Heap α) :
    (l.foldl (fun m x ↦ gcOps.onRemoveSlot x m) m).unrooted = m.unrooted ++ l ∧
      (l.foldl (fun m x ↦ gcOps.onRemoveSlot x m) m).rooted = m.rooted ∧
      (l.foldl (fun m x ↦ gcOps.onRemoveSlot x m) m).value = m.value := by
  induction l generalizing m with
  | nil => exact ⟨(List.append_nil _).symm, rfl, rfl⟩
  | cons x l ih =>
    obtain ⟨hunrooted, hrooted, hvalue⟩ := ih (m.unroot x)
    refine ⟨hunrooted.trans ?_, hrooted, hvalue⟩
    rw [unroot, List.append_assoc]
    rfl

theorem roots_foldl_unroot (h : m.roots.Perm (l ++ r)) :
    (l.foldl (fun m x ↦ gcOps.onRemoveSlot x m) m).roots.Perm r := by
  induction l generalizing m with
  | nil => exact h
  | cons x l ih =>
    refine ih (m := m.unroot x) ((h.erase x).trans ?_)
    rw [List.cons_append, List.erase_cons_head]

end Heap

namespace Scopes

open HandleScope (Linked innermost allBlocks)

variable {α : Type*} {s : Scopes α} {o : Opened} {this : HandleScope}

/-- The invariant: the roots are the slots of the open scopes, which were made roots once each and
have not been unmade since. -/
structure Sound (s : Scopes α) (o : Opened) : Prop where
  linked : Linked s.scopes o
  current : s.sCurrent = innermost s.scopes
  blocks : (allBlocks s.scopes).Nodup
  made : ∀ b ∈ allBlocks s.scopes, b.serial < s.made
  old : ∀ x ∈ s.heap.unrooted, x.block.serial < s.made ∧ x.block ∉ allBlocks s.scopes
  roots : s.heap.roots.Perm o.slots
  rooted : (o.slots ++ s.heap.unrooted).Perm s.heap.rooted
  nodup : s.heap.rooted.Nodup

theorem block_mem_of_mem_slots {ss : List HandleScope} (h : Linked ss o) {x : Slot}
    (hx : x ∈ o.slots) : x.block ∈ allBlocks ss := by
  induction ss generalizing o with
  | nil =>
    match o, h with
    | [], _ => cases hx
  | cons sc ss ih =>
    rw [allBlocks, List.flatMap_cons]
    match o, h with
    | none :: o, ⟨_, _, hrest⟩ => exact List.mem_append_right _ (ih hrest hx)
    | some l :: o, ⟨_, ⟨_, c, hc, hslots⟩, hrest⟩ =>
      rw [Opened.slots_some] at hx
      rcases List.mem_append.mp hx with hx | hx
      · refine List.mem_append_left _ ?_
        rw [HandleScope.blocks, hc]
        exact Container.block_mem_of_mem_slots (hslots ▸ hx)
      · exact List.mem_append_right _ (ih hrest hx)

theorem sound_init (value : Slot → α) : Sound (init value) [] :=
  ⟨trivial, rfl, .nil, nofun, nofun, .nil, .nil, .nil⟩

theorem Sound.construct (h : Sound s o) {a : ℕ} (ha : a ∉ s.scopes.map HandleScope.address) :
    Sound (s.construct a) (some [] :: o) where
  linked := ⟨ha, ⟨h.current, .new, rfl, rfl⟩, h.linked⟩
  current := rfl
  blocks := h.blocks
  made := h.made
  old := h.old
  roots := h.roots
  rooted := h.rooted
  nodup := h.nodup

/-- A handle is created in the innermost open scope. -/
theorem Sound.createHandle (h : Sound s o) (hpos : 1 ≤ o.count) (v : α) (address : ℕ) :
    ∃ x t, s.createHandle v address = .ok (x, t) ∧ Sound t (o.add x) ∧
      t.heap.value = update s.heap.value x v ∧ x ∉ o.slots ∧
      ∃ sc ∈ t.scopes, s.sCurrent = some sc.address ∧
        ∃ c, sc.mGCReferences = some c ∧ x ∈ c.slots := by
  obtain ⟨closed, sc, c, rest, o', hss, rfl, hclosed, hc, hprevious, hnotMem, hrest⟩ :=
    h.linked.split hpos
  have hblocks : allBlocks s.scopes = c.blocks ++ allBlocks rest := by
    rw [hss, HandleScope.allBlocks_append hclosed, HandleScope.blocks, hc]
    rfl
  have hcurrent : s.sCurrent = some sc.address := by
    rw [h.current, hss, HandleScope.innermost_append hclosed, innermost,
      List.find?_cons_of_pos (by rw [hc]; rfl)]
    rfl
  have hnodup := h.blocks
  rw [hblocks] at hnodup
  have hfresh : (⟨s.made, address⟩ : SlotBlock) ∉ allBlocks s.scopes := fun hmem ↦
    Nat.lt_irrefl _ (h.made _ hmem)
  obtain ⟨x, c', hallocate, hslots, hx, hblock⟩ := @Container.allocate_eq _ Heap.gcOps
    ⟨s.made, address⟩ c s.heap (List.nodup_append.mp hnodup).1 fun hmem ↦
      hfresh (hblocks ▸ List.mem_append_left _ hmem)
  -- the slot is of a block that is new, or the newest of its scope; so it is no other slot
  have hnotRest : x.block ∉ allBlocks rest := by
    rcases hblock with ⟨hx, -⟩ | ⟨hx, -⟩
    · exact fun hmem ↦ hfresh (hblocks ▸ List.mem_append_right _ (hx ▸ hmem))
    · exact fun hmem ↦ (List.nodup_append.mp hnodup).2.2 _ hx _ hmem rfl
  have hnotUnrooted : x ∉ s.heap.unrooted := by
    intro hmem
    obtain ⟨hlt, hnot⟩ := h.old x hmem
    rcases hblock with ⟨hx, -⟩ | ⟨hx, -⟩
    · exact Nat.lt_irrefl _ (hx ▸ hlt)
    · exact hnot (hblocks ▸ List.mem_append_left _ hx)
  have hnotOpened : x ∉ Opened.slots (List.replicate closed.length none ++ some c.slots :: o') := by
    rw [Opened.slots_replicate, Opened.slots_some]
    intro hmem
    rcases List.mem_append.mp hmem with hmem | hmem
    · exact hx hmem
    · exact hnotRest (block_mem_of_mem_slots hrest hmem)
  have hblocks' : c'.blocks ++ allBlocks rest = allBlocks s.scopes ∨
      c'.blocks ++ allBlocks rest = ⟨s.made, address⟩ :: allBlocks s.scopes := by
    rw [hblocks]
    rcases hblock with ⟨-, heq⟩ | ⟨-, heq⟩
    · exact .inr (by rw [heq, List.cons_append])
    · exact .inl (by rw [heq])
  let sc' := sc.setContainer (some c')
  let t : Scopes α := ⟨closed ++ sc' :: rest, s.sCurrent, (s.heap.root x).setValue x v, s.made + 1⟩
  have hcreate : s.createHandle v address = .ok (x, t) := by
    rw [Scopes.createHandle, hcurrent]
    dsimp only
    rw [hss, HandleScope.find_append hclosed, Option.bind_some, hc]
    dsimp only
    rw [hallocate, HandleScope.modify_append hclosed hnotMem]
    simp only [t, hcurrent]
    rfl
  have happend : allBlocks (closed ++ sc' :: rest) = sc'.blocks ++ allBlocks rest :=
    HandleScope.allBlocks_append hclosed
  have hblocksT : allBlocks t.scopes = c'.blocks ++ allBlocks rest := happend
  have hinner : innermost (closed ++ sc' :: rest) = innermost (sc' :: rest) :=
    HandleScope.innermost_append hclosed
  have hroot : (s.heap.root x).roots = x :: s.heap.roots :=
    List.insert_of_not_mem fun hmem ↦ hnotOpened (h.roots.subset hmem)
  have hadd : Opened.slots (Opened.add x (List.replicate closed.length none ++
      some c.slots :: o')) = x :: Opened.slots (List.replicate closed.length none ++
        some c.slots :: o') := by
    rw [Opened.add_replicate, Opened.slots_replicate, Opened.slots_replicate, Opened.slots_some,
      Opened.slots_some, List.cons_append]
  refine ⟨x, t, hcreate, ⟨?_, ?_, ?_, ?_, ?_, ?_, ?_, ?_⟩, rfl, hnotOpened, sc',
    List.mem_append_right _ (List.mem_cons_self ..), hcurrent, c', rfl,
    by rw [hslots]; exact List.mem_cons_self ..⟩
  · have hlinked := h.linked
    rw [hss] at hlinked
    rw [Opened.add_replicate, ← hslots]
    exact hlinked.exchange (u := sc' :: rest) ⟨hnotMem, ⟨hprevious, c', rfl, rfl⟩, hrest⟩ rfl
  · exact hcurrent.trans hinner.symm
  · rw [hblocksT]
    rcases hblocks' with heq | heq
    · exact heq ▸ h.blocks
    · exact heq ▸ List.nodup_cons.mpr ⟨hfresh, h.blocks⟩
  · intro b hb
    rw [hblocksT] at hb
    rcases hblocks' with heq | heq
    · exact Nat.lt_succ_of_lt (h.made b (heq ▸ hb))
    · rcases List.mem_cons.mp (heq ▸ hb) with rfl | hb
      · exact Nat.lt_succ_self _
      · exact Nat.lt_succ_of_lt (h.made b hb)
  · intro y hy
    obtain ⟨hlt, hnot⟩ := h.old y hy
    refine ⟨Nat.lt_succ_of_lt hlt, fun hmem ↦ ?_⟩
    rw [hblocksT] at hmem
    rcases hblocks' with heq | heq
    · exact hnot (heq ▸ hmem)
    · rcases List.mem_cons.mp (heq ▸ hmem) with hmem | hmem
      · rw [hmem] at hlt
        exact Nat.lt_irrefl _ hlt
      · exact hnot hmem
  · rw [hadd]
    exact hroot ▸ h.roots.cons x
  · rw [hadd]
    exact (h.rooted.cons x).trans (List.perm_append_singleton x _).symm
  · have hnotRooted : x ∉ s.heap.rooted := fun hmem ↦
      (List.mem_append.mp (h.rooted.symm.subset hmem)).elim hnotOpened hnotUnrooted
    exact (List.perm_append_singleton x _).nodup_iff.mpr
      (List.nodup_cons.mpr ⟨hnotRooted, h.nodup⟩)

/-- The innermost open scope gives its slots back. -/
theorem Sound.destroy (h : Sound s o) (hpos : 1 ≤ o.count) :
    ∃ this, s.sCurrent.bind (HandleScope.find s.scopes) = some this ∧
      this.mGCReferences.isSome ∧ s.sCurrent = some this.address ∧
      Sound (s.destroy this) o.close ∧ (s.destroy this).heap.value = s.heap.value ∧
      (s.destroy this).sCurrent = this.mPrevious ∧ (s.scopes.head? = some this ∨
        ∃ sc, s.scopes.head? = some sc ∧ sc.mGCReferences = none) := by
  obtain ⟨closed, sc, c, rest, o', hss, rfl, hclosed, hc, hprevious, hnotMem, hrest⟩ :=
    h.linked.split hpos
  have hcurrent : s.sCurrent = some sc.address := by
    rw [h.current, hss, HandleScope.innermost_append hclosed, innermost,
      List.find?_cons_of_pos (by rw [hc]; rfl)]
    rfl
  have hblocks : allBlocks s.scopes = c.blocks ++ allBlocks rest := by
    rw [hss, HandleScope.allBlocks_append hclosed, HandleScope.blocks, hc]
    rfl
  let sc' := sc.setContainer none
  let t : Scopes α := ⟨closed ++ sc' :: rest, sc.mPrevious, c.destroy Heap.gcOps s.heap, s.made⟩
  have hdestroy : s.destroy sc = t := by
    rw [Scopes.destroy, if_pos hcurrent, hc, hss, HandleScope.modify_append hclosed hnotMem]
  have happend : allBlocks (closed ++ sc' :: rest) = sc'.blocks ++ allBlocks rest :=
    HandleScope.allBlocks_append hclosed
  have hblocksT : allBlocks t.scopes = allBlocks rest := happend
  have hinner : innermost (closed ++ sc' :: rest) = innermost (sc' :: rest) :=
    HandleScope.innermost_append hclosed
  have hheap : t.heap = c.slots.foldl (fun m x ↦ Heap.gcOps.onRemoveSlot x m) s.heap :=
    c.destroy_eq s.heap
  obtain ⟨hunrooted, hrooted, hvalue⟩ := Heap.foldl_unroot c.slots s.heap
  rw [← hheap] at hunrooted hrooted hvalue
  have hslots := Opened.slots_replicate closed.length (some c.slots :: o')
  rw [Opened.slots_some] at hslots
  have hclose : Opened.slots (Opened.close (List.replicate closed.length none ++
      some c.slots :: o')) = Opened.slots o' := by
    rw [Opened.close_replicate, Opened.slots_replicate, Opened.slots_none]
  have hsound : Sound t (Opened.close (List.replicate closed.length none ++
      some c.slots :: o')) := by
    refine ⟨?_, ?_, ?_, ?_, ?_, ?_, ?_, ?_⟩
    · have hlinked := h.linked
      rw [hss] at hlinked
      rw [Opened.close_replicate]
      exact hlinked.exchange (u := sc' :: rest) ⟨hnotMem, rfl, hrest⟩ rfl
    · refine hprevious.trans ?_
      rw [hinner, innermost, innermost,
        List.find?_cons_of_neg (by simp [sc', HandleScope.setContainer])]
    · rw [hblocksT]
      exact (List.nodup_append.mp (hblocks ▸ h.blocks)).2.1
    · intro b hb
      exact h.made b (hblocks ▸ List.mem_append_right _ (hblocksT ▸ hb))
    · intro x hx
      rw [hblocksT]
      rcases List.mem_append.mp (hunrooted ▸ hx) with hx | hx
      · obtain ⟨hlt, hnot⟩ := h.old x hx
        exact ⟨hlt, fun hmem ↦ hnot (hblocks ▸ List.mem_append_right _ hmem)⟩
      · have hblock := Container.block_mem_of_mem_slots hx
        refine ⟨h.made _ (hblocks ▸ List.mem_append_left _ hblock), fun hmem ↦ ?_⟩
        exact (List.nodup_append.mp (hblocks ▸ h.blocks)).2.2 _ hblock _ hmem rfl
    · rw [hclose, hheap]
      exact Heap.roots_foldl_unroot (hslots ▸ h.roots)
    · rw [hclose, hunrooted, hrooted]
      refine List.Perm.trans ?_ (hslots ▸ h.rooted)
      rw [← List.append_assoc]
      refine List.perm_append_comm.trans ?_
      rw [← List.append_assoc]
    · exact hrooted ▸ h.nodup
  refine ⟨sc, ?_, by rw [hc]; rfl, hcurrent, hdestroy ▸ hsound, by rw [hdestroy, hvalue],
    by rw [hdestroy], ?_⟩
  · rw [hcurrent, Option.bind_some, hss, HandleScope.find_append hclosed]
  · match closed, hss, hclosed with
    | [], hss, _ => exact .inl (by rw [hss]; rfl)
    | x :: closed, hss, hclosed =>
      exact .inr ⟨x, by rw [hss]; rfl, (hclosed x (List.mem_cons_self ..)).1⟩

/-- The object of a closed scope is destroyed. -/
theorem Sound.tail {o : Opened} (h : Sound s (none :: o)) :
    Sound { s with scopes := s.scopes.tail } o := by
  have hlinked := h.linked
  rcases hss : s.scopes with _ | ⟨sc, rest⟩
  · rw [hss] at hlinked
    exact hlinked.elim
  · rw [hss] at hlinked
    obtain ⟨-, hnone, hrest⟩ := hlinked
    have hnone : sc.mGCReferences = none := hnone
    have hblocks : allBlocks s.scopes = allBlocks rest := by
      rw [hss, allBlocks, List.flatMap_cons, HandleScope.blocks, hnone]
      rfl
    have hcurrent : innermost s.scopes = innermost rest := by
      rw [hss, innermost, List.find?_cons_of_neg (by simp [hnone])]
      rfl
    exact ⟨hrest, h.current.trans hcurrent, hblocks ▸ h.blocks, hblocks ▸ h.made, hblocks ▸ h.old,
      h.roots, h.rooted, h.nodup⟩

/-- The destructor of the innermost scope does nothing if the scope has been closed. -/
theorem Sound.destruct {l : Option (List Slot)} {o : Opened} {sc : HandleScope}
    {rest : List HandleScope} (h : Sound s (l :: o)) (hss : s.scopes = sc :: rest) :
    Sound { s.destroy sc with scopes := (s.destroy sc).scopes.tail } o := by
  have hlinked := h.linked
  rw [hss] at hlinked
  obtain ⟨hnotMem, hholds, -⟩ := hlinked
  match l, hholds with
  | none, hnone =>
    have hnone : sc.mGCReferences = none := hnone
    have hne : s.sCurrent ≠ some sc.address := by
      rw [h.current, hss, innermost, List.find?_cons_of_neg (by simp [hnone])]
      intro heq
      obtain ⟨x, hx, haddress⟩ := Option.map_eq_some_iff.mp heq
      exact hnotMem (haddress ▸ List.mem_map_of_mem (List.mem_of_find?_eq_some hx))
    rw [Scopes.destroy, if_neg hne]
    exact h.tail
  | some l, ⟨_, c, hc, _⟩ =>
    obtain ⟨this, -, -, -, hsound, -, -, hhead⟩ := h.destroy (by simp [Opened.count])
    rw [hss] at hhead
    rcases hhead with hthis | ⟨x, hx, hnone⟩
    · obtain rfl := Option.some.inj hthis
      exact hsound.tail
    · obtain rfl := Option.some.inj hx
      cases hc.symm.trans hnone

end Scopes

namespace Run

open Scopes (Sound)

variable {α : Type*} {s : Run α} {value : Slot → α}

/-- What `Close` returns: a handle of the enclosing scope, with the value of the one it got. -/
def Returns (s t : Run α) : Event α → Prop
  | .close ref _ => ∃ x this, s.sCurrent.bind (HandleScope.find s.scopes) = some this ∧
      t.returned = some x ∧ t.heap.value x = s.heap.native ref ∧
      ∃ sc ∈ t.scopes, this.mPrevious = some sc.address ∧
        ∃ c, sc.mGCReferences = some c ∧ x ∈ c.slots
  | _ => True

/-- Each event succeeds. -/
theorem happen_of_can (h : Sound s.toScopes s.opened) {e : Event α} (hcan : s.Can e) :
    ∃ t, s.happen e = .ok t ∧ Sound t.toScopes t.opened ∧ s.Returns t e := by
  cases e with
  | construct a => exact ⟨_, rfl, h.construct hcan, trivial⟩
  | createHandle v address =>
    obtain ⟨x, t, ht, hsound, -⟩ := h.createHandle hcan v address
    exact ⟨⟨t, s.opened.add x, some x⟩, by rw [happen, ht], hsound, trivial⟩
  | close ref address =>
    obtain ⟨htwo, -⟩ := hcan
    obtain ⟨this, hthis, hopen, hcurrent, hsound, hvalue, hprevious, -⟩ :=
      h.destroy (Nat.le_of_succ_le htwo)
    have hcount : 1 ≤ s.opened.close.count := by
      rw [Opened.count_close]
      exact Nat.le_sub_one_of_lt htwo
    obtain ⟨x, t, ht, hsound', hvalue', -, sc, hsc, haddress, hc⟩ :=
      hsound.createHandle hcount (s.heap.native ref) address
    have hne : this.mPrevious ≠ none := by
      rw [← hprevious, haddress]
      nofun
    refine ⟨⟨t, s.opened.close.add x, some x⟩, ?_, hsound', x, this, hthis, rfl, ?_, sc, hsc,
      hprevious ▸ haddress, hc⟩
    · rw [happen, hthis]
      dsimp only
      rw [Scopes.internalClose, if_neg hne, if_neg (by simp [Option.isSome_iff_ne_none.mp hopen]),
        if_neg (not_not_intro hcurrent), ht]
    · rw [hvalue', Function.update_self]
  | destruct =>
    obtain ⟨sc, rest, hss⟩ := List.exists_cons_of_ne_nil hcan
    have hlinked := h.linked
    rw [hss] at hlinked
    match ho : s.opened, hlinked with
    | l :: o, _ =>
      rw [ho] at h
      refine ⟨_, by rw [happen, hss], ?_, trivial⟩
      rw [ho]
      exact h.destruct hss

theorem sound_of_reaches (h : machine.Reaches (init value) s) : s.Sound s.opened := by
  refine h.invariant (p := fun s : Run α ↦ s.Sound s.opened) (Scopes.sound_init value) ?_
  intro s t e hs hg ht
  obtain ⟨u, hu, hsound, -⟩ := happen_of_can hs hg
  obtain rfl := Except.ok.inj (hu.symm.trans ht)
  exact hsound

/-- The roots are exactly the slots of the scopes that are open; each slot was made a root once, and
unmade once if it is of a scope that is not open any more. -/
structure Rooted (s : Run α) : Prop where
  roots : ∀ x, x ∈ s.heap.roots ↔ x ∈ s.opened.slots
  once : (s.opened.slots ++ s.heap.unrooted).Perm s.heap.rooted
  nodup : s.heap.rooted.Nodup

/-- Scopes root the slots of the handles that live, and no assertion of theirs fails. -/
theorem roots_live (h : machine.Reaches (init value) s) : s.Rooted ∧
    ∀ e, machine.guard s e → ∃ t, machine.step s e = .ok t ∧ s.Returns t e := by
  have hsound := sound_of_reaches h
  refine ⟨⟨fun x ↦ hsound.roots.mem_iff, hsound.rooted, hsound.nodup⟩, fun e hg ↦ ?_⟩
  obtain ⟨t, ht, -, hreturns⟩ := happen_of_can hsound hg
  exact ⟨t, ht, hreturns⟩

/-- Seventeen handles in a scope, of which the fourth is the value of the scope. -/
theorem roots_live_two_blocks : ∃ s : Run ℕ, machine.Reaches (init fun _ ↦ 0) s ∧ s.Rooted ∧
    s.heap.roots = [⟨⟨17, 4096⟩, 0⟩] ∧ s.heap.value ⟨⟨17, 4096⟩, 0⟩ = 3 := by
  have hrun : (machine.run (init fun _ ↦ 0) ([.construct 64, .construct 32] ++
      (List.range 17).map (.createHandle · 4096) ++
        [.close (.slot ⟨⟨0, 4096⟩, 3⟩) 4096, .destruct])).map
          (fun s : Run ℕ ↦ (s.heap.roots, s.heap.value ⟨⟨17, 4096⟩, 0⟩)) =
        some ([⟨⟨17, 4096⟩, 0⟩], 3) := by decide +kernel
  obtain ⟨s, hs, heq⟩ := Option.map_eq_some_iff.mp hrun
  obtain ⟨hroots, hvalue⟩ := Prod.mk.inj heq
  have hreach := Machine.reaches_of_run hs
  exact ⟨s, hreach, (roots_live hreach).1, hroots, hvalue⟩

end Run

end SpiderNode.Handles
