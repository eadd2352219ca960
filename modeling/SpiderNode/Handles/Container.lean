import Mathlib.Algebra.Group.Nat.Defs
import Mathlib.Data.List.Basic
import Mathlib.Data.List.Nodup
import Mathlib.Tactic.Common

/-!
# Containers of slots

`ReferenceContainer` of `deps/mozjs/js/src/v8api/handles.cpp` hands out slots of blocks of sixteen.
The blocks are linked, the newest first, and only the newest is partly used. What is done with a
slot when it is handed out and when it is given back depends on `SlotOps`.

A block has an address, where `new_` has put it. The memory of a block that was deleted may become
that of another one; blocks are told apart by their number.
-/

namespace SpiderNode.Handles

/-- `kBlockSize` -/
def blockSize : ℕ := 16

/-- `sizeof(Slot)`: a slot is a `jsval`. -/
def slotSize : ℕ := 8

/-- `SlotBlock`, the `serial`th one that has been made. -/
structure SlotBlock where
  serial : ℕ
  address : ℕ
  deriving DecidableEq

/-- `&elements[i]` -/
def SlotBlock.element (b : SlotBlock) (i : ℕ) : ℕ := b.address + slotSize * i

structure Slot where
  block : SlotBlock
  index : ℕ
  deriving DecidableEq

/-- `SlotOps`, which change a state. -/
structure SlotOps (σ : Type*) where
  onNewSlot : Slot → σ → σ
  onRemoveSlot : Slot → σ → σ

/-- `ReferenceContainer`: the blocks from `mBlock` on, and `mUsedThisBlock`. -/
structure Container where
  blocks : List SlotBlock
  used : ℕ

namespace Container

variable {σ : Type*} (ops : SlotOps σ)

/-- `ReferenceContainer()` -/
def new : Container := ⟨[], 0⟩

/-- The block of the next slot, which is `fresh` if one has to be made. -/
def withRoom (fresh : SlotBlock) (c : Container) : SlotBlock × Container :=
  match c.blocks with
  | [] => (fresh, ⟨[fresh], 0⟩)
  | b :: blocks => if c.used = blockSize then (fresh, ⟨fresh :: b :: blocks, 0⟩) else (b, c)

def allocate (fresh : SlotBlock) (c : Container) (m : σ) : Slot × Container × σ :=
  let (b, c) := c.withRoom fresh
  let slot : Slot := ⟨b, c.used⟩
  (slot, { c with used := c.used + 1 }, ops.onNewSlot slot m)

/-- `while (mUsedThisBlock--)`, with what becomes of the counter: behind the last test it is the
greatest `size_t`. -/
def removeSlots (b : SlotBlock) (used : ℕ) (m : σ) : ℕ × σ :=
  match used with
  | 0 => (2 ^ 64 - 1, m)
  | n + 1 => removeSlots b n (ops.onRemoveSlot ⟨b, n⟩ m)

def deallocateBlock (c : Container) (m : σ) : Container × σ :=
  match c.blocks with
  | [] => (c, m)
  | b :: next =>
    let (_, m) := removeSlots ops b c.used m
    (⟨next, blockSize⟩, m)

/-- `while (mBlock) deallocateBlock()` -/
def destroyFrom : List SlotBlock → ℕ → σ → σ
  | [], _, m => m
  | b :: next, used, m =>
    let (c, m) := deallocateBlock ops ⟨b :: next, used⟩ m
    destroyFrom next c.used m

/-- `~ReferenceContainer()` -/
def destroy (c : Container) (m : σ) : σ := destroyFrom ops c.blocks c.used m

/-- The loop of `containsSlot`, with the comparisons that it makes. -/
def containsSlot : List SlotBlock → ℕ → Bool
  | [], _ => false
  | b :: next, slot =>
    if slot ≥ b.element 0 ∨ slot ≤ b.element (blockSize - 1) then true else containsSlot next slot

/-! ## The slots of a container -/

/-- The first `n` slots of a block, the last of them first. -/
def slotsOf (b : SlotBlock) (n : ℕ) : List Slot := (List.range n).reverse.map (Slot.mk b)

/-- The slots that have been handed out, the newest first. -/
def slots (c : Container) : List Slot :=
  match c.blocks with
  | [] => []
  | b :: next => slotsOf b c.used ++ next.flatMap (slotsOf · blockSize)

variable {ops} {b fresh : SlotBlock} {c : Container} {m : σ}

@[simp] theorem slotsOf_zero (b : SlotBlock) : slotsOf b 0 = [] := rfl

theorem slotsOf_succ (b : SlotBlock) (n : ℕ) : slotsOf b (n + 1) = ⟨b, n⟩ :: slotsOf b n := by
  rw [slotsOf, List.range_succ, List.reverse_concat]
  rfl

@[simp] theorem slots_new : new.slots = [] := rfl

theorem block_mem_of_mem_slots {x : Slot} (hx : x ∈ c.slots) : x.block ∈ c.blocks := by
  have hof {b : SlotBlock} {n : ℕ} (h : x ∈ slotsOf b n) : x.block = b := by
    obtain ⟨i, -, rfl⟩ := List.mem_map.mp h
    rfl
  match hc : c.blocks with
  | [] =>
    rw [slots, hc] at hx
    cases hx
  | b :: next =>
    rw [slots, hc] at hx
    rcases List.mem_append.mp hx with hx | hx
    · rw [hof hx]
      exact List.mem_cons_self ..
    · obtain ⟨b', hb', hx⟩ := List.mem_flatMap.mp hx
      rw [hof hx]
      exact List.mem_cons_of_mem b hb'

theorem removeSlots_eq (b : SlotBlock) (n : ℕ) (m : σ) :
    (removeSlots ops b n m).2 = (slotsOf b n).foldl (fun m x ↦ ops.onRemoveSlot x m) m := by
  induction n generalizing m with
  | zero => rfl
  | succ n ih => rw [removeSlots, ih, slotsOf_succ, List.foldl_cons]

/-- The destructor gives each slot back, the newest first. -/
theorem destroy_eq (c : Container) (m : σ) :
    c.destroy ops m = c.slots.foldl (fun m x ↦ ops.onRemoveSlot x m) m := by
  have hfull (blocks : List SlotBlock) (m : σ) : destroyFrom ops blocks blockSize m =
      (blocks.flatMap (slotsOf · blockSize)).foldl (fun m x ↦ ops.onRemoveSlot x m) m := by
    induction blocks generalizing m with
    | nil => rfl
    | cons b next ih =>
      rw [destroyFrom, List.flatMap_cons, List.foldl_append, ← removeSlots_eq]
      exact ih _
  match hc : c.blocks with
  | [] => rw [destroy, slots, hc, destroyFrom, List.foldl_nil]
  | b :: next =>
    rw [destroy, slots, hc, destroyFrom, List.foldl_append, ← removeSlots_eq]
    exact hfull next _

theorem notMem_slotsOf (b : SlotBlock) (n : ℕ) : ⟨b, n⟩ ∉ slotsOf b n := by
  intro h
  obtain ⟨i, hi, heq⟩ := List.mem_map.mp h
  have hlt : i < n := List.mem_range.mp (List.mem_reverse.mp hi)
  exact Nat.ne_of_lt hlt (Slot.mk.inj heq).2

/-- A slot that is handed out becomes the newest one. It is of the newest block, and was not handed
out before. -/
theorem allocate_eq (fresh : SlotBlock) (c : Container) (m : σ) (hnodup : c.blocks.Nodup)
    (hfresh : fresh ∉ c.blocks) :
    ∃ x c', c.allocate ops fresh m = (x, c', ops.onNewSlot x m) ∧ c'.slots = x :: c.slots ∧
      x ∉ c.slots ∧ (x.block = fresh ∧ c'.blocks = fresh :: c.blocks ∨
        x.block ∈ c.blocks ∧ c'.blocks = c.blocks) := by
  obtain ⟨blocks, used⟩ := c
  match blocks with
  | [] => exact ⟨_, _, rfl, rfl, List.not_mem_nil, .inl ⟨rfl, rfl⟩⟩
  | b :: next =>
    rw [allocate, withRoom]
    dsimp only
    split_ifs with hfull
    · subst hfull
      exact ⟨_, _, rfl, rfl, fun hx ↦ hfresh (block_mem_of_mem_slots hx), .inl ⟨rfl, rfl⟩⟩
    · refine ⟨_, _, rfl, ?_, ?_, .inr ⟨List.mem_cons_self .., rfl⟩⟩
      · simp only [slots, slotsOf_succ, List.cons_append]
      · intro hx
        rcases List.mem_append.mp hx with hx | hx
        · exact notMem_slotsOf b used hx
        · obtain ⟨b', hb', hx⟩ := List.mem_flatMap.mp hx
          obtain ⟨i, -, heq⟩ := List.mem_map.mp hx
          have hb : b' = b := (Slot.mk.inj heq).1
          exact (List.nodup_cons.mp hnodup).1 (hb ▸ hb')

/-- Any address at all is at one side of a bound of any block. -/
theorem containsSlot_iff (blocks : List SlotBlock) (slot : ℕ) :
    containsSlot blocks slot = true ↔ blocks ≠ [] := by
  match blocks with
  | [] => simp [containsSlot]
  | b :: next =>
    have hone : slot ≥ b.element 0 ∨ slot ≤ b.element (blockSize - 1) := by
      simp only [SlotBlock.element, slotSize, blockSize]
      omega
    simp [containsSlot, hone]

end Container

end SpiderNode.Handles
