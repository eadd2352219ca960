import SpiderNode.Handles.Scopes

/-!
# Local references

`GCReference::Dispose` deletes a reference for what it is: a `PersistentGCReference` has a
destructor, which takes it off the list of weak handles. What it is, `IsLocalReference` has to find
out from its address, which it compares with the bounds of each block.

An address is at one side of any bound; so all references are local once there is a block.
-/

namespace SpiderNode.Handles

/-- How `Dispose` deletes a reference: only one that is taken for persistent has its destructor
called. -/
inductive Deleted where
  | gcReference
  | persistentGCReference
  deriving DecidableEq

namespace Scopes

open HandleScope (Linked innermost allBlocks)

variable {α : Type*} {s : Scopes α} {o : Opened} {ref : ℕ}

/-- `delete_` of `GCReference::Dispose` -/
def disposed (s : Scopes α) (ref : ℕ) : Option Deleted :=
  (s.isLocalReference ref).map fun isLocal ↦
    if isLocal then .gcReference else .persistentGCReference

/-- The address is that of a slot in a block of a scope that is open. -/
def InSlots (s : Scopes α) (ref : ℕ) : Prop :=
  ∃ sc ∈ s.scopes, ∃ b ∈ sc.blocks, ∃ i < blockSize, ref = b.element i

/-- `IsLocalReference` tells whether an address is that of a slot, and `Dispose` deletes what is
persistent as such. -/
def TellsApart (s : Scopes α) (ref : ℕ) : Prop :=
  (s.isLocalReference ref = some true ↔ s.InSlots ref) ∧
    (¬s.InSlots ref → s.disposed ref = some .persistentGCReference)

/-- The loop goes through the open scopes; it finds any reference in the first block it meets. -/
theorem isLocalFrom_eq {pre ss : List HandleScope} (h : Linked ss o)
    (hpre : ∀ x ∈ pre, x.address ∉ ss.map HandleScope.address) {n : ℕ} (hn : ss.length ≤ n) :
    isLocalFrom (pre ++ ss) n (innermost ss) ref = some (allBlocks ss != []) := by
  induction ss generalizing pre o n with
  | nil => cases n <;> rfl
  | cons sc rest ih =>
    have hpre' : ∀ x ∈ pre ++ [sc], x.address ∉ rest.map HandleScope.address := by
      intro x hx
      rcases List.mem_append.mp hx with hx | hx
      · exact fun hmem ↦ hpre x hx (List.mem_cons_of_mem _ hmem)
      · rw [List.mem_singleton.mp hx]
        rcases o with _ | ⟨x, o⟩
        · exact h.elim
        · exact h.1
    have hsplit : pre ++ sc :: rest = pre ++ [sc] ++ rest := by simp
    rcases o with _ | ⟨_ | l, o⟩
    · exact h.elim
    · obtain ⟨-, hnone, hrest⟩ := h
      have hnone : sc.mGCReferences = none := hnone
      have hinner : innermost (sc :: rest) = innermost rest := by
        rw [innermost, List.find?_cons_of_neg (by simp [hnone])]
        rfl
      have hblocks : allBlocks (sc :: rest) = allBlocks rest := by
        rw [allBlocks, List.flatMap_cons, HandleScope.blocks, hnone]
        rfl
      rw [hinner, hblocks, hsplit]
      exact ih hrest hpre' (Nat.le_of_succ_le hn)
    · obtain ⟨-, ⟨hprevious, c, hc, -⟩, hrest⟩ := h
      have hinner : innermost (sc :: rest) = some sc.address := by
        rw [innermost, List.find?_cons_of_pos (by rw [hc]; rfl)]
        rfl
      have hfind : HandleScope.find (pre ++ sc :: rest) sc.address = some sc := by
        have hnone : pre.find? (fun x ↦ decide (x.address = sc.address)) = none := by
          rw [List.find?_eq_none]
          intro x hx heq
          exact hpre x hx (of_decide_eq_true heq ▸ List.mem_map_of_mem (List.mem_cons_self ..))
        rw [HandleScope.find, List.find?_append, hnone, Option.none_or,
          List.find?_cons_of_pos (by simp)]
      obtain ⟨n, rfl⟩ := Nat.exists_eq_add_one.mpr (Nat.lt_of_lt_of_le (Nat.succ_pos _) hn)
      have hblocks : allBlocks (sc :: rest) = c.blocks ++ allBlocks rest := by
        rw [allBlocks, List.flatMap_cons, HandleScope.blocks, hc]
        rfl
      rw [hinner, isLocalFrom, hfind, Option.bind_eq_bind, Option.bind_some, hc,
        Option.bind_eq_bind, Option.bind_some, hblocks]
      by_cases hempty : c.blocks = []
      · have hcontains : Container.containsSlot c.blocks ref = false := by rw [hempty]; rfl
        rw [hcontains, if_neg Bool.false_ne_true, hprevious, hempty, List.nil_append, hsplit]
        exact ih hrest hpre' (Nat.le_of_succ_le_succ hn)
      · rw [if_pos ((Container.containsSlot_iff c.blocks ref).mpr hempty)]
        simp [hempty]

theorem Sound.isLocalReference_eq (h : Sound s o) (ref : ℕ) :
    s.isLocalReference ref = some (allBlocks s.scopes != []) := by
  rw [Scopes.isLocalReference, h.current]
  have heq : isLocalFrom ([] ++ s.scopes) s.scopes.length (innermost s.scopes) ref =
      some (allBlocks s.scopes != []) :=
    isLocalFrom_eq h.linked (fun x hx ↦ absurd hx List.not_mem_nil) (Nat.le_refl _)
  exact heq

end Scopes

namespace Run

variable {α : Type*} {s : Run α} {value : Slot → α}

/-- References are told apart if no open scope has made a handle, and otherwise only slots are. -/
theorem tellsApart_iff (h : machine.Reaches (init value) s) (ref : ℕ) :
    s.TellsApart ref ↔ HandleScope.allBlocks s.scopes = [] ∨ s.InSlots ref := by
  have hlocal := (sound_of_reaches h).isLocalReference_eq ref
  rw [Scopes.TellsApart, Scopes.disposed, hlocal]
  by_cases hempty : HandleScope.allBlocks s.scopes = []
  · have hnot : ¬s.InSlots ref := by
      rintro ⟨sc, hsc, b, hb, -⟩
      have hmem : b ∈ HandleScope.allBlocks s.scopes := List.mem_flatMap.mpr ⟨sc, hsc, hb⟩
      rw [hempty] at hmem
      cases hmem
    simp [hempty, hnot]
  · simp [hempty]

/-- A slot and another address, and an address when there are no handles. -/
theorem tellsApart_iff_first : ∃ s t : Run ℕ, machine.Reaches (init fun _ ↦ 0) s ∧
    machine.Reaches (init fun _ ↦ 0) t ∧ s.TellsApart 64 ∧ t.TellsApart (4096 + 8) := by
  have hs := Machine.reaches_of_run (M := machine) (s := init fun _ ↦ 0) (l := [.construct 32]) rfl
  have ht := Machine.reaches_of_run (M := machine) (s := init fun _ ↦ 0)
    (l := [.construct 32, .createHandle 5 4096]) rfl
  exact ⟨_, _, hs, ht, (tellsApart_iff hs 64).mpr (.inl rfl), (tellsApart_iff ht _).mpr
    (.inr ⟨_, List.mem_singleton_self _, _, List.mem_singleton_self _, 1, by decide, rfl⟩)⟩

/-- With one handle in one scope any address is that of a local reference. -/
theorem persistent_taken_for_local :
    ¬∀ s : Run ℕ, machine.Reaches (init fun _ ↦ 0) s → ∀ ref, s.TellsApart ref := by
  intro hall
  have hrun := Machine.reaches_of_run (M := machine) (s := init fun _ ↦ 0)
    (l := [.construct 32, .createHandle 5 4096]) rfl
  obtain ⟨sc, hsc, b, hb, i, -, heq⟩ := (hall _ hrun 64).1.mp rfl
  obtain rfl := List.mem_singleton.mp hsc
  obtain rfl := List.mem_singleton.mp hb
  exact absurd heq (by simp only [SlotBlock.element, slotSize]; omega)

end Run

end SpiderNode.Handles
