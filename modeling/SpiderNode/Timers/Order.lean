import SpiderNode.Timers.Idle
import Mathlib.Data.List.Basic

/-!
# The order of idle lists

`Kept` gives the items of each list, in the order in which the callback meets them: the ring of the
list goes through them, they have its timeout, and they are sorted by the time when they were last
active. All other items are in no ring.

An item is removed and appended, never moved within a list; so the order is kept, whatever handlers
do while a callback is in its loop. When the loop stops at a first item that is young, all others
are.
-/

namespace SpiderNode.Timers

open Function (update)

variable {c : ℚ → List ℕ} {a : Timers} {i : ℕ} {m : ℚ}

theorem item_injective : Function.Injective Node.item := fun _ _ h ↦ Node.item.inj h

/-! ## Lists of items -/

/-- The lists without an item. -/
def removed (c : ℚ → List ℕ) (i : ℕ) : ℚ → List ℕ := fun m ↦ (c m).erase i

/-- The lists after an item was active. -/
def touched (c : ℚ → List ℕ) (m : ℚ) (i : ℕ) : ℚ → List ℕ := update c m ((c m).erase i ++ [i])

theorem touched_self (c : ℚ → List ℕ) (m : ℚ) (i : ℕ) : touched c m i m = (c m).erase i ++ [i] :=
  Function.update_self ..

theorem touched_of_ne {k : ℚ} (hk : k ≠ m) : touched c m i k = c k := Function.update_of_ne hk ..

/-- The lists after a call of `active`. -/
def activated (a : Timers) (c : ℚ → List ℕ) (i : ℕ) : ℚ → List ℕ :=
  match a.idleTimeout i with
  | some m =>
    if 0 ≤ m ∧ (a.lists m = true ∨ a.links.next (.item i) = some (.item i)) then touched c m i
    else c
  | none => c

/-- The lists after a call of `setTimeout`. -/
def scheduled (c : ℚ → List ℕ) (i : ℕ) (after : Option ℚ) : ℚ → List ℕ :=
  if after.any (· ≤ 0) then c
  else
    match after with
    | some m => touched c m i
    | none => c

/-- The lists after one turn of the loop. -/
def turned (a : Timers) (c : ℚ → List ℕ) (m : ℚ) (now : ℤ) : ℚ → List ℕ :=
  match c m with
  | first :: _ =>
    if ((now - a.idleStart first : ℤ) : ℚ) + 1 < m then c else removed c first
  | [] => c

/-- What an event does to the lists. -/
def contents (a : Timers) (c : ℚ → List ℕ) : TimerEvent → ℚ → List ℕ
  | .enroll i _ | .unenroll i => removed c i
  | .active i => activated a c i
  | .setTimeout i after => scheduled c i after
  | .clearTimeout i => if a.callback i || a.onTimeout i then removed c i else c
  | .next =>
    match a.phase with
    | .looping m now => turned a c m now
    | _ => c
  | _ => c

/-- The list whose callback is running. -/
def Phase.msecs : Phase → Option ℚ
  | .idle => none
  | .looping msecs _ | .handling msecs _ => some msecs

/-- The items of the lists, from the oldest to the newest. -/
structure Kept (c : ℚ → List ℕ) (a : Timers) : Prop where
  doubly : a.links.Doubly
  ring : ∀ m, a.lists m = true → a.links.Ring (.list m) ((c m).map .item)
  alone_list : ∀ m, a.lists m = false → a.links.Alone (.list m)
  alone : ∀ i, (∀ m, i ∉ c m) → a.links.Alone (.item i)
  lists : ∀ m, c m ≠ [] → a.lists m = true
  timeout : ∀ m, ∀ i ∈ c m, a.idleTimeout i = some m
  sorted : ∀ m, (c m).Pairwise (a.idleStart · ≤ a.idleStart ·)
  start_le : ∀ m, ∀ i ∈ c m, a.idleStart i ≤ a.clock
  running : ∀ m ∈ a.phase.msecs, a.lists m = true

theorem lists_arm (a : Timers) (m : ℚ) : (a.arm m).lists m = true := by
  have hnew : (if a.lists m then a else a.newList m).lists m = true := by
    split_ifs with hm
    · exact hm
    · exact Function.update_self ..
  unfold arm
  dsimp only
  split_ifs at hnew ⊢ <;> exact hnew

theorem items_arm (a : Timers) (m : ℚ) : (a.arm m).idleTimeout = a.idleTimeout ∧
    (a.arm m).idleStart = a.idleStart ∧ (a.arm m).clock = a.clock := by
  unfold arm
  dsimp only
  split_ifs <;> exact ⟨rfl, rfl, rfl⟩

theorem start_of_eq (h : a.idleStart i = a.clock) : a.start i = a := by
  have hself : update a.idleStart i a.clock = a.idleStart := by
    rw [← h]
    exact Function.update_eq_self ..
  rw [start, hself]

/-- A new item goes to the list of its timeout. -/
theorem activated_newItem {after : Option ℚ} (h : ¬after.any (· ≤ 0) = true) :
    activated (a.newItem i after) c i = scheduled c i after := by
  have htimeout : (a.newItem i after).idleTimeout i = after := Function.update_self ..
  have hnext : (a.newItem i after).links.next (.item i) = some (.item i) :=
    Function.update_self ..
  rw [activated, htimeout]
  unfold scheduled
  rw [if_neg h]
  rcases after with _ | m
  · rfl
  · have hm : 0 ≤ m := by
      have hpos : ¬m ≤ 0 := by simpa using h
      exact Rat.le_of_lt (Rat.not_le.mp hpos)
    exact if_pos ⟨hm, Or.inr hnext⟩

theorem kept_init (clock : ℤ) : Kept (fun _ ↦ []) (init clock) where
  doubly _ _ := iff_of_false nofun nofun
  ring _ h := by cases h
  alone_list _ _ := Or.inl ⟨rfl, rfl⟩
  alone _ _ := Or.inl ⟨rfl, rfl⟩
  lists _ h := absurd rfl h
  timeout _ _ h := by cases h
  sorted _ := List.Pairwise.nil
  start_le _ _ h := by cases h
  running _ h := by cases h

namespace Kept

/-! ## Single assignments -/

theorem lists_of_mem (h : Kept c a) (hi : i ∈ c m) : a.lists m = true :=
  h.lists m (List.ne_nil_of_mem hi)

theorem nodup (h : Kept c a) (m : ℚ) : (c m).Nodup := by
  by_cases hm : a.lists m = true
  · exact List.Nodup.of_map _ (List.nodup_cons.mp (h.ring m hm).nodup).2
  · rw [show c m = [] from not_not.mp fun hne ↦ hm (h.lists m hne)]
    exact List.nodup_nil

theorem eq_nil_of_lists (h : Kept c a) (hm : a.lists m = false) : c m = [] := by
  by_contra hne
  rw [h.lists m hne] at hm
  cases hm

/-- An item is in the list of its timeout, if in any. -/
theorem not_mem_of_ne (h : Kept c a) {k : ℚ} (hi : a.idleTimeout i = some m) (hk : k ≠ m) :
    i ∉ c k := by
  intro hmem
  rw [h.timeout k i hmem] at hi
  exact hk (Option.some.inj hi)

theorem not_mem_of_next (h : Kept c a) (hi : ∀ y ≠ Node.item i, a.links.next (.item i) ≠ some y)
    (m : ℚ) : i ∉ c m := by
  intro hmem
  obtain ⟨y, hy, hnext⟩ := (h.ring m (h.lists_of_mem hmem)).next_of_mem h.doubly
    (List.mem_map_of_mem hmem)
  exact hi y hy hnext

theorem isEmpty_iff (h : Kept c a) (hm : a.lists m = true) :
    a.links.isEmpty (.list m) = true ↔ c m = [] := by
  rw [(h.ring m hm).isEmpty_iff h.doubly, List.map_eq_nil_iff]

theorem peek_eq (h : Kept c a) (hm : a.lists m = true) :
    a.links.peek (.list m) = (c m).head?.map .item := by
  rw [(h.ring m hm).peek_eq, List.head?_map]

/-- An item is taken out of its list, if it is in one. -/
theorem remove (h : Kept c a) (i : ℕ) :
    Kept (removed c i) (a.setLinks (a.links.remove (.item i))) := by
  refine { h with
    doubly := h.doubly.remove _
    ring := fun m hm ↦ ?_
    alone_list := fun m hm ↦ (h.alone_list m hm).remove h.doubly nofun
    alone := fun j hj ↦ ?_
    lists := fun m hne ↦ h.lists m fun he ↦ hne (by rw [removed, he]; rfl)
    timeout := fun m j hj ↦ h.timeout m j (List.mem_of_mem_erase hj)
    sorted := fun m ↦ (h.sorted m).sublist List.erase_sublist
    start_le := fun m j hj ↦ h.start_le m j (List.mem_of_mem_erase hj) }
  · have hring := (h.ring m hm).remove h.doubly (x := .item i) nofun
    rwa [← List.map_erase item_injective] at hring
  · by_cases hji : j = i
    · rw [hji]
      exact Or.inl (Links.alone_remove_self ..)
    · refine (h.alone j fun m hm ↦ hj m ?_).remove h.doubly fun he ↦ hji (Node.item.inj he)
      exact (List.mem_erase_of_ne hji).mpr hm

theorem setIdleTimeout (h : Kept c a) (hi : ∀ m, i ∉ c m) (msecs : Option ℚ) :
    Kept c (a.setIdleTimeout i msecs) := by
  refine { h with timeout := fun m j hj ↦ ?_ }
  have hji : j ≠ i := fun he ↦ hi m (he ▸ hj)
  exact (Function.update_of_ne hji ..).trans (h.timeout m j hj)

theorem initItem (h : Kept c a) (hi : ∀ m, i ∉ c m) :
    Kept c (a.setLinks (a.links.init (.item i))) := by
  refine { h with
    doubly := h.doubly.init (h.alone i hi)
    ring := fun m hm ↦ (h.ring m hm).init_of_not_mem ?_
    alone_list := fun m hm ↦ (h.alone_list m hm).init_of_ne nofun
    alone := fun j hj ↦ ?_ }
  · intro hmem
    rcases List.mem_cons.mp hmem with he | hmem
    · cases he
    · exact hi m ((List.mem_map_of_injective item_injective).mp hmem)
  · by_cases hji : j = i
    · rw [hji]
      exact Links.alone_init ..
    · exact (h.alone j hj).init_of_ne fun he ↦ hji (Node.item.inj he)

theorem start (h : Kept c a) (hi : ∀ m, i ∉ c m) : Kept c (a.start i) := by
  have hstart {m : ℚ} {j : ℕ} (hj : j ∈ c m) : (a.start i).idleStart j = a.idleStart j := by
    have hji : j ≠ i := fun he ↦ hi m (he ▸ hj)
    exact Function.update_of_ne hji ..
  refine { h with sorted := fun m ↦ ?_, start_le := fun m j hj ↦ ?_ }
  · refine (h.sorted m).imp_of_mem fun hj hk hle ↦ ?_
    rw [hstart hj, hstart hk]
    exact hle
  · rw [hstart hj]
    exact h.start_le m j hj

/-- A list is made. -/
theorem newList (h : Kept c a) (hm : a.lists m = false) : Kept c (a.newList m) := by
  have hself : (a.newList m).lists m = true := Function.update_self ..
  have hne {k : ℚ} (hk : k ≠ m) : (a.newList m).lists k = a.lists k := Function.update_of_ne hk ..
  have hlist {k : ℚ} (hk : k ≠ m) : Node.list k ≠ .list m := fun he ↦ hk (Node.list.inj he)
  have hlists {k : ℚ} (hk : a.lists k = true) : (a.newList m).lists k = true := by
    by_cases hkm : k = m
    · rw [hkm]
      exact hself
    · rw [hne hkm]
      exact hk
  refine { h with
    doubly := h.doubly.init (h.alone_list m hm)
    ring := fun k hk ↦ ?_
    alone_list := fun k hk ↦ ?_
    alone := fun j hj ↦ (h.alone j hj).init_of_ne nofun
    lists := fun k hk ↦ hlists (h.lists k hk)
    running := fun k hk ↦ hlists (h.running k hk) }
  · by_cases hkm : k = m
    · rw [hkm, h.eq_nil_of_lists hm]
      exact Links.ring_init ..
    · refine (h.ring k (hne hkm ▸ hk)).init_of_not_mem fun hmem ↦ ?_
      rcases List.mem_cons.mp hmem with he | hmem
      · exact hlist hkm he.symm
      · obtain ⟨j, -, he⟩ := List.mem_map.mp hmem
        cases he
  · have hkm : k ≠ m := by
      rintro rfl
      rw [hself] at hk
      cases hk
    exact (h.alone_list k (hne hkm ▸ hk)).init_of_ne (hlist hkm)

/-! ## Calls -/

theorem mem_touched_self (h : Kept c a) {j : ℕ} :
    j ∈ touched c m i m ↔ j ∈ c m ∧ j ≠ i ∨ j = i := by
  rw [touched_self, List.mem_append, List.mem_singleton, (h.nodup m).mem_erase_iff, and_comm]

theorem append_eq (h : Kept c a) (hm : a.lists m = true) :
    ∃ h', a.links.append (.list m) (.item i) = some h' ∧
      (a.start i).append m i = (a.start i).setLinks h' := by
  obtain ⟨h', ha⟩ := Links.exists_append (x := .item i) h.doubly (h.ring m hm) nofun
  refine ⟨h', ha, ?_⟩
  have hlinks : (if (a.start i).lists m then (a.start i).links.append (.list m) (.item i)
      else none) = some h' := (if_pos hm).trans ha
  rw [append, hlinks]

section Touch

variable (h : Kept c a) (hm : a.lists m = true) (hi : a.idleTimeout i = some m)
include h hm hi

/-- The pointers after an item was put at the end of the list of its timeout. -/
theorem ring_touched {h' : Links Node} (ha : a.links.append (.list m) (.item i) = some h') {k : ℚ}
    (hk : a.lists k = true) : h'.Ring (.list k) ((touched c m i k).map .item) := by
  have hitem : Node.item i ≠ .list m := nofun
  by_cases hkm : k = m
  · rw [hkm, touched_self, List.map_append, List.map_erase item_injective]
    exact Links.Ring.append h.doubly (h.ring m hm) hitem ha
  · rw [touched_of_ne hkm]
    refine Links.Ring.append_of_ne h.doubly (h.ring m hm) hitem ha (h.ring k hk) ?_ ?_
    · intro hmem
      rcases List.mem_cons.mp hmem with he | hmem
      · exact hkm (Node.list.inj he).symm
      · obtain ⟨j, -, he⟩ := List.mem_map.mp hmem
        cases he
    · intro hmem
      rcases List.mem_cons.mp hmem with he | hmem
      · cases he
      · exact h.not_mem_of_ne hi hkm ((List.mem_map_of_injective item_injective).mp hmem)

omit hm in
/-- Those who were in the lists started before now. -/
theorem sorted_touched (k : ℚ) :
    (touched c m i k).Pairwise ((a.start i).idleStart · ≤ (a.start i).idleStart ·) := by
  have hself : (a.start i).idleStart i = a.clock := Function.update_self ..
  have hstart {j : ℕ} (hj : j ≠ i) : (a.start i).idleStart j = a.idleStart j :=
    Function.update_of_ne hj ..
  by_cases hkm : k = m
  · have herase {j : ℕ} (hj : j ∈ (c m).erase i) : j ∈ c m ∧ j ≠ i :=
      ((h.nodup m).mem_erase_iff.mp hj).symm
    rw [hkm, touched_self]
    refine List.pairwise_append.mpr ⟨?_, List.pairwise_singleton .., fun j hj x hx ↦ ?_⟩
    · refine ((h.sorted m).sublist List.erase_sublist).imp_of_mem fun hj hj' hle ↦ ?_
      rw [hstart (herase hj).2, hstart (herase hj').2]
      exact hle
    · rw [List.mem_singleton.mp hx, hself, hstart (herase hj).2]
      exact h.start_le m j (herase hj).1
  · rw [touched_of_ne hkm]
    have hne {j : ℕ} (hj : j ∈ c k) : j ≠ i := fun he ↦ h.not_mem_of_ne hi hkm (he ▸ hj)
    refine (h.sorted k).imp_of_mem fun hj hj' hle ↦ ?_
    rw [hstart (hne hj), hstart (hne hj')]
    exact hle

omit hm in
/-- Nobody but the item itself has come in. -/
theorem mem_of_mem_touched {j : ℕ} {k : ℚ} (hj : j ∈ touched c m i k) :
    j ∈ c k ∧ j ≠ i ∨ j = i ∧ k = m := by
  by_cases hkm : k = m
  · rw [hkm, h.mem_touched_self] at hj
    rw [hkm]
    exact hj.imp_right fun he ↦ ⟨he, rfl⟩
  · rw [touched_of_ne hkm] at hj
    exact Or.inl ⟨hj, fun he ↦ h.not_mem_of_ne hi hkm (he ▸ hj)⟩

/-- An item that is active now comes last in the list of its timeout. -/
theorem touch : Kept (touched c m i) ((a.start i).append m i) := by
  obtain ⟨h', ha, heq⟩ := h.append_eq (i := i) hm
  have hitem : Node.item i ≠ .list m := nofun
  rw [heq]
  refine ⟨Links.Doubly.append h.doubly (h.ring m hm) hitem ha,
    fun k hk ↦ h.ring_touched hm hi ha hk, fun k hk ↦ ?_, fun j hj ↦ ?_, fun k hk ↦ ?_,
    fun k j hj ↦ ?_, h.sorted_touched hi, fun k j hj ↦ ?_, h.running⟩
  · have hkm : k ≠ m := by
      rintro rfl
      exact absurd (hm.symm.trans hk) nofun
    exact Links.Alone.append h.doubly (h.ring m hm) hitem ha (h.alone_list k hk)
      (fun he ↦ hkm (Node.list.inj he)) nofun
  -- an item in no list after the step was in none before, and is not the new one
  · have hji : j ≠ i := fun he ↦ hj m (h.mem_touched_self.mpr (Or.inr he))
    refine Links.Alone.append h.doubly (h.ring m hm) hitem ha (h.alone j fun k hk ↦ hj k ?_) nofun
      fun he ↦ hji (Node.item.inj he)
    by_cases hkm : k = m
    · rw [hkm] at hk ⊢
      exact h.mem_touched_self.mpr (Or.inl ⟨hk, hji⟩)
    · rwa [touched_of_ne hkm]
  · by_cases hkm : k = m
    · rw [hkm]
      exact hm
    · rw [touched_of_ne hkm] at hk
      exact h.lists k hk
  · rcases h.mem_of_mem_touched hi hj with ⟨hj, -⟩ | ⟨rfl, rfl⟩
    · exact h.timeout k j hj
    · exact hi
  · rcases h.mem_of_mem_touched hi hj with ⟨hj, hji⟩ | ⟨rfl, rfl⟩
    · have hstart : (a.start i).idleStart j = a.idleStart j := Function.update_of_ne hji ..
      exact Int.le_trans (Int.le_of_eq hstart) (h.start_le k j hj)
    · have hself : (a.start j).idleStart j = a.clock := Function.update_self ..
      exact Int.le_of_eq hself

end Touch

theorem removed_eq_of_not_mem (hi : ∀ m, i ∉ c m) : removed c i = c := by
  funext m
  exact List.erase_of_not_mem (hi m)

theorem not_mem_removed (h : Kept c a) (i : ℕ) (m : ℚ) : i ∉ removed c i m :=
  (h.nodup m).not_mem_erase

theorem unenroll (h : Kept c a) (i : ℕ) : Kept (removed c i) (a.unenroll i) := by
  have hremove := h.remove i
  unfold Timers.unenroll
  dsimp only
  split
  · split_ifs
    · exact { hremove with }
    · exact hremove
  · exact hremove

theorem enroll (h : Kept c a) (i : ℕ) (msecs : ℚ) : Kept (removed c i) (a.enroll i msecs) := by
  have hout : Kept (removed c i) (if (a.links.next (.item i)).isSome then a.unenroll i else a) := by
    split_ifs with hnext
    · exact h.unenroll i
    · -- an item without links is in no list
      rw [removed_eq_of_not_mem]
      · exact h
      · exact h.not_mem_of_next fun y _ hy ↦ hnext (hy ▸ rfl)
  have hi := h.not_mem_removed i
  exact (hout.setIdleTimeout hi (some msecs)).initItem hi

theorem arm (h : Kept c a) (m : ℚ) : Kept c (a.arm m) := by
  have hnew : Kept c (if a.lists m then a else a.newList m) := by
    split_ifs with hm
    · exact h
    · exact h.newList (by simpa using hm)
  unfold Timers.arm
  dsimp only
  split_ifs at hnew ⊢
  · exact { hnew with }
  · exact hnew
  · exact { hnew with }
  · exact hnew

theorem insert (h : Kept c a) (hm : 0 ≤ m) (hout : ∀ k, i ∉ c k) :
    Kept (touched c m i) (a.insert i m) := by
  have hset : Kept c ((a.start i).setIdleTimeout i (some m)) :=
    (h.start hout).setIdleTimeout hout (some m)
  obtain ⟨htimeout, hstart, hclock⟩ := items_arm ((a.start i).setIdleTimeout i (some m)) m
  have hnow : (((a.start i).setIdleTimeout i (some m)).arm m).start i =
      ((a.start i).setIdleTimeout i (some m)).arm m := by
    apply start_of_eq
    rw [hstart, hclock]
    exact Function.update_self ..
  unfold Timers.insert
  dsimp only
  rw [if_neg (Rat.not_lt.mpr hm), ← hnow]
  refine (hset.arm m).touch (lists_arm ..) ?_
  rw [htimeout]
  exact Function.update_self ..

theorem active (h : Kept c a) (i : ℕ) : Kept (activated a c i) (a.active i) := by
  unfold Timers.active activated
  rcases hi : a.idleTimeout i with _ | m
  · exact h
  dsimp only
  by_cases hm : 0 ≤ m
  swap
  · rw [if_neg hm, if_neg fun hand ↦ hm hand.1]
    exact h
  rw [if_pos hm]
  -- an item linked to itself is in no list, and goes through `insert`
  by_cases hself : a.links.next (.item i) = some (.item i)
  · rw [if_pos hself, if_pos ⟨hm, Or.inr hself⟩]
    refine h.insert hm (h.not_mem_of_next fun y hy hnext ↦ hy ?_)
    exact Option.some.inj (hnext.symm.trans hself)
  rw [if_neg hself]
  by_cases hlist : a.lists m = true
  · rw [if_pos ⟨hm, Or.inl hlist⟩]
    exact h.touch hlist hi
  · -- there is no list, and the item was in none
    rw [if_neg fun hand ↦ hand.2.elim hlist hself]
    have hout : ∀ k, i ∉ c k := by
      intro k hk
      obtain rfl : k = m := Option.some.inj ((h.timeout k i hk).symm.trans hi)
      exact hlist (h.lists_of_mem hk)
    have hremove := (h.start hout).remove i
    rw [removed_eq_of_not_mem hout] at hremove
    have happend : (a.start i).append m i =
        { (a.start i).setLinks (a.links.remove (.item i)) with threw := true } := by
      have hnone : (if (a.start i).lists m then (a.start i).links.append (.list m) (.item i)
          else none) = none := if_neg hlist
      rw [append, hnone]
      rfl
    rw [happend]
    exact { hremove with }

theorem newItem (h : Kept c a) (hi : a.idleTimeout i = none) (after : Option ℚ) :
    Kept c (a.newItem i after) := by
  have hout (m : ℚ) : i ∉ c m := fun hm ↦ absurd ((h.timeout m i hm).symm.trans hi) nofun
  exact { (h.setIdleTimeout hout after).initItem hout with }

theorem setTimeout (h : Kept c a) {after : Option ℚ} (hi : a.idleTimeout i = none) :
    Kept (scheduled c i after) (a.setTimeout i after) := by
  unfold Timers.setTimeout
  split_ifs with hzero
  · unfold scheduled
    rw [if_pos hzero]
    exact { h with }
  · rw [← activated_newItem hzero]
    exact (h.newItem hi after).active i

theorem clearTimeout (h : Kept c a) (i : ℕ) :
    Kept (if a.callback i || a.onTimeout i then removed c i else c) (a.clearTimeout i) := by
  unfold Timers.clearTimeout
  split_ifs
  · have hset : Kept c ((a.setCallback i false).setHandler i false) := { h with }
    exact { hset.unenroll i with }
  · exact h

/-- One turn of the loop takes the first item, or leaves the lists as they are. -/
theorem turn (h : Kept c a) {now : ℤ} (hm : a.lists m = true) :
    Kept (turned a c m now) (a.turn m now) := by
  unfold Timers.turn turned
  rw [h.peek_eq hm]
  rcases c m with _ | ⟨first, l⟩
  · exact { h with running := fun k hk ↦ by cases hk }
  · dsimp only [List.head?_cons, Option.map_some]
    split_ifs
    · exact { h with running := fun k hk ↦ by cases hk }
    · exact { h.remove first with running := fun k hk ↦ Option.some.inj hk ▸ hm }
    · exact h.remove first

/-- The lists after a step. -/
theorem step (h : Kept c a) {ev : TimerEvent} (hg : a.Allows ev) :
    Kept (contents a c ev) (a.step ev) := by
  cases ev with
  | tick d =>
    refine { h with start_le := fun m i hi ↦ Int.le_trans (h.start_le m i hi) ?_ }
    exact Int.le_add_of_nonneg_right (Int.natCast_nonneg d)
  | assign i b => exact { h with }
  | enroll i msecs => exact h.enroll i msecs
  | unenroll i => exact h.unenroll i
  | active i => exact h.active i
  | setTimeout i after => exact h.setTimeout hg.2.2
  | clearTimeout i => exact h.clearTimeout i
  | fire msecs => exact { h with running := fun k hk ↦ Option.some.inj hk ▸ hg.2.1 }
  | expire i =>
    unfold Timers.step Timers.expire
    dsimp only
    split_ifs <;> exact { h with }
  | next =>
    -- outside the loop of a list, `next` does nothing
    rcases hphase : a.phase with _ | ⟨m, now⟩ | ⟨m, now⟩
    · rw [contents, Timers.step, hphase]
      exact h
    · rw [contents, Timers.step, hphase]
      refine h.turn (h.running m ?_)
      rw [hphase]
      rfl
    · rw [contents, Timers.step, hphase]
      exact h
  | returns =>
    rcases hphase : a.phase with _ | ⟨m, now⟩ | ⟨m, now⟩
    · rw [Timers.step, hphase]
      exact h
    · rw [Timers.step, hphase]
      exact h
    · rw [Timers.step, hphase]
      refine { h with running := fun k hk ↦ h.running k ?_ }
      rw [hphase]
      exact hk
  | throws => exact { h with running := fun k hk ↦ by cases hk }

end Kept

/-! ## Timeouts -/

/-- All timeouts of items, and of lists, have a property. -/
structure Bounded (p : ℚ → Prop) (a : Timers) : Prop where
  timeout : ∀ i, ∀ m ∈ a.idleTimeout i, p m
  lists : ∀ m, a.lists m = true → p m

/-- The timeouts that an event brings in have a property. -/
def Gives (p : ℚ → Prop) : TimerEvent → Prop
  | .enroll _ msecs => p msecs
  | .setTimeout _ after => ∀ m ∈ after, m ≤ 0 ∨ p m
  | _ => True

namespace Bounded

variable {p : ℚ → Prop}

theorem init (p : ℚ → Prop) (clock : ℤ) : Bounded p (init clock) where
  timeout _ _ h := by cases h
  lists _ h := by cases h

theorem setIdleTimeout (h : Bounded p a) {msecs : Option ℚ} (hp : ∀ m ∈ msecs, p m) :
    Bounded p (a.setIdleTimeout i msecs) := by
  refine { h with timeout := fun j k hk ↦ ?_ }
  by_cases hj : j = i
  · have hself : (a.setIdleTimeout i msecs).idleTimeout j = msecs := by
      rw [hj]
      exact Function.update_self ..
    exact hp k (hself ▸ hk)
  · have hne : (a.setIdleTimeout i msecs).idleTimeout j = a.idleTimeout j :=
      Function.update_of_ne hj ..
    exact h.timeout j k (hne ▸ hk)

theorem newList (h : Bounded p a) (hm : p m) : Bounded p (a.newList m) := by
  refine { h with lists := fun k hk ↦ ?_ }
  by_cases hkm : k = m
  · rw [hkm]
    exact hm
  · have hne : (a.newList m).lists k = a.lists k := Function.update_of_ne hkm ..
    exact h.lists k (hne ▸ hk)

theorem append (h : Bounded p a) : Bounded p (a.append m i) := by
  unfold Timers.append
  split <;> exact { h with }

theorem unenroll (h : Bounded p a) : Bounded p (a.unenroll i) := by
  unfold Timers.unenroll
  dsimp only
  split
  · split_ifs <;> exact { h with }
  · exact { h with }

theorem arm (h : Bounded p a) (hm : p m) : Bounded p (a.arm m) := by
  have hnew := h.newList hm
  unfold Timers.arm
  dsimp only
  split_ifs
  · exact { h with }
  · exact h
  · exact { hnew with }
  · exact hnew

theorem insert (h : Bounded p a) (hm : p m) : Bounded p (a.insert i m) := by
  have hstart : Bounded p (a.start i) := { h with }
  have hset : Bounded p ((a.start i).setIdleTimeout i (some m)) :=
    hstart.setIdleTimeout fun k hk ↦ Option.some.inj hk ▸ hm
  unfold Timers.insert
  dsimp only
  split_ifs
  · exact hset
  · exact (hset.arm hm).append

theorem active (h : Bounded p a) : Bounded p (a.active i) := by
  unfold Timers.active
  split
  · rename_i m hm
    split_ifs
    · exact h.insert (h.timeout i m hm)
    · have hstart : Bounded p (a.start i) := { h with }
      exact hstart.append
    · exact h
  · exact h

theorem setTimeout (h : Bounded p a) {after : Option ℚ} (hp : ∀ m ∈ after, m ≤ 0 ∨ p m) :
    Bounded p (a.setTimeout i after) := by
  unfold Timers.setTimeout
  split_ifs with hzero
  · exact { h with }
  · have hset : Bounded p (a.setIdleTimeout i after) := by
      refine h.setIdleTimeout fun m hm ↦ (hp m hm).resolve_left fun hle ↦ hzero ?_
      rw [hm]
      exact decide_eq_true hle
    have hnew : Bounded p (a.newItem i after) := { hset with }
    exact hnew.active

theorem clearTimeout (h : Bounded p a) : Bounded p (a.clearTimeout i) := by
  unfold Timers.clearTimeout
  split_ifs
  · have hset : Bounded p ((a.setCallback i false).setHandler i false) := { h with }
    have hout : Bounded p (((a.setCallback i false).setHandler i false).unenroll i) := hset.unenroll
    exact { hout with }
  · exact h

theorem turn (h : Bounded p a) {now : ℤ} : Bounded p (a.turn m now) := by
  unfold Timers.turn
  split
  · exact { h with }
  · dsimp only
    split_ifs <;> exact { h with }
  · exact { h with }

theorem step (h : Bounded p a) {ev : TimerEvent} (hp : Gives p ev) : Bounded p (a.step ev) := by
  cases ev with
  | enroll i msecs =>
    have hout : Bounded p (if (a.links.next (.item i)).isSome then a.unenroll i else a) := by
      split_ifs
      · exact h.unenroll
      · exact h
    exact { hout.setIdleTimeout (i := i) fun k hk ↦ Option.some.inj hk ▸ hp with }
  | unenroll i => exact h.unenroll
  | active i => exact h.active
  | setTimeout i after => exact h.setTimeout hp
  | clearTimeout i => exact h.clearTimeout
  | expire i =>
    rw [Timers.step, expire]
    split_ifs <;> exact { h with }
  | next =>
    rw [Timers.step]
    split
    · exact h.turn
    · exact h
  | returns =>
    rw [Timers.step]
    split
    · exact { h with }
    · exact h
  | tick d | assign i b | fire msecs | throws => exact { h with }

end Bounded

/-! ## Calls of functions -/

/-- No function was called, and those of the items are the same. -/
structure Quiet (a b : Timers) : Prop where
  onTimeout : b.onTimeout = a.onTimeout
  callback : b.callback = a.callback
  made : b.made = a.made
  timeouts : b.timeouts = a.timeouts
  expired : b.expired = a.expired

namespace Quiet

theorem refl (a : Timers) : Quiet a a := ⟨rfl, rfl, rfl, rfl, rfl⟩

theorem append (a : Timers) (m : ℚ) (i : ℕ) : Quiet a (a.append m i) := by
  unfold Timers.append
  split <;> exact { refl a with }

theorem unenroll (a : Timers) (i : ℕ) : Quiet a (a.unenroll i) := by
  unfold Timers.unenroll
  dsimp only
  split
  · split_ifs <;> exact { refl a with }
  · exact { refl a with }

theorem arm (a : Timers) (m : ℚ) : Quiet a (a.arm m) := by
  unfold Timers.arm
  dsimp only
  split_ifs <;> exact { refl a with }

theorem trans {b d : Timers} (h : Quiet a b) (h' : Quiet b d) : Quiet a d where
  onTimeout := h'.onTimeout.trans h.onTimeout
  callback := h'.callback.trans h.callback
  made := h'.made.trans h.made
  timeouts := h'.timeouts.trans h.timeouts
  expired := h'.expired.trans h.expired

theorem insert (a : Timers) (i : ℕ) (m : ℚ) : Quiet a (a.insert i m) := by
  unfold Timers.insert
  dsimp only
  split_ifs
  · exact { refl a with }
  · have hset : Quiet a ((a.start i).setIdleTimeout i (some m)) := { refl a with }
    exact (hset.trans (arm ..)).trans (append ..)

theorem active (a : Timers) (i : ℕ) : Quiet a (a.active i) := by
  unfold Timers.active
  split
  · split_ifs
    · exact insert ..
    · have hstart : Quiet a (a.start i) := { refl a with }
      exact hstart.trans (append ..)
    · exact refl a
  · exact refl a

theorem enroll (a : Timers) (i : ℕ) (msecs : ℚ) : Quiet a (a.enroll i msecs) := by
  have hout : Quiet a (if (a.links.next (.item i)).isSome then a.unenroll i else a) := by
    split_ifs
    · exact unenroll ..
    · exact refl a
  exact { hout with }

end Quiet

/-- A timeout that was called was due. -/
def Due (x : Timeout) : Prop := x.msecs ≤ ((x.now - x.idleStart : ℤ) : ℚ) + 1

/-- A turn of the loop calls a handler or none. -/
theorem timeouts_turn {now : ℤ} : (a.turn m now).timeouts = a.timeouts ∨
    ∃ i, a.onTimeout i = true ∧ ¬((now - a.idleStart i : ℤ) : ℚ) + 1 < m ∧
      (a.turn m now).timeouts = a.timeouts ++ [⟨i, m, now, a.idleStart i⟩] := by
  unfold turn
  split
  · exact Or.inl rfl
  · rename_i first _
    dsimp only
    split_ifs with hyoung hfun
    · exact Or.inl rfl
    · exact Or.inr ⟨first, hfun, hyoung, rfl⟩
    · exact Or.inl rfl
  · exact Or.inl rfl

/-- Only the loop of a callback calls `_onTimeout`. -/
theorem timeouts_step {ev : TimerEvent} : (a.step ev).timeouts = a.timeouts ∨
    ∃ m now i, a.onTimeout i = true ∧ ¬((now - a.idleStart i : ℤ) : ℚ) + 1 < m ∧
      (a.step ev).timeouts = a.timeouts ++ [⟨i, m, now, a.idleStart i⟩] := by
  cases ev with
  | enroll i msecs => exact Or.inl (Quiet.enroll ..).timeouts
  | unenroll i => exact Or.inl (Quiet.unenroll ..).timeouts
  | active i => exact Or.inl (Quiet.active ..).timeouts
  | setTimeout i after =>
    left
    rw [Timers.step, setTimeout]
    split_ifs
    · rfl
    · exact (Quiet.active ..).timeouts
  | clearTimeout i =>
    left
    rw [Timers.step, clearTimeout]
    split_ifs
    · exact (Quiet.unenroll ..).timeouts
    · rfl
  | expire i =>
    left
    rw [Timers.step, expire]
    split_ifs <;> rfl
  | next =>
    rw [Timers.step]
    split
    · rename_i m now _
      obtain h | ⟨i, h⟩ := timeouts_turn (a := a) (m := m)
      · exact Or.inl h
      · exact Or.inr ⟨m, now, i, h⟩
    · exact Or.inl rfl
  | returns =>
    left
    rw [Timers.step]
    split <;> rfl
  | tick d | assign i b | fire msecs | throws => exact Or.inl rfl

/-! ## Runs -/

/-- A positive integer. -/
def Whole (m : ℚ) : Prop := 0 < m ∧ m.den = 1

instance (m : ℚ) : Decidable (Whole m) := inferInstanceAs (Decidable (0 < m ∧ m.den = 1))

/-- Timeouts are positive integers. -/
def Integral : TimerEvent → Prop
  | .enroll _ msecs => Whole msecs
  | .setTimeout _ after => ∀ m ∈ after, Whole m
  | _ => True

instance : ∀ ev, Decidable (Integral ev)
  | .enroll _ msecs => inferInstanceAs (Decidable (Whole msecs))
  | .setTimeout _ after => inferInstanceAs (Decidable (∀ m ∈ after, Whole m))
  | .tick _ | .assign _ _ | .unenroll _ | .active _ | .clearTimeout _ | .fire _ | .expire _ | .next
  | .returns | .throws => inferInstanceAs (Decidable True)

theorem Integral.gives {ev : TimerEvent} (h : Integral ev) : Gives Whole ev := by
  cases ev with
  | enroll i msecs => exact h
  | setTimeout i after => exact fun m hm ↦ Or.inr (h m hm)
  | _ => trivial

theorem kept_of_reaches {p : Timers → TimerEvent → Prop} {clock : ℤ}
    (h : (machine.restrict p).Reaches (init clock) a) : ∃ c, Kept c a := by
  refine h.invariant (p := fun a ↦ ∃ c, Kept c a) ⟨_, kept_init clock⟩ ?_
  rintro b _ ev ⟨c, hb⟩ hg hc
  obtain rfl := Except.ok.inj hc
  exact ⟨_, hb.step hg.1⟩

theorem bounded_of_integral {clock : ℤ}
    (h : (machine.restrict fun _ ev ↦ Integral ev).Reaches (init clock) a) : Bounded Whole a := by
  refine h.invariant (Bounded.init Whole clock) ?_
  intro b _ ev hb hg hc
  obtain rfl := Except.ok.inj hc
  exact hb.step hg.2.gives

theorem due_of_reaches {p : Timers → TimerEvent → Prop} {clock : ℤ}
    (h : (machine.restrict p).Reaches (init clock) a) : ∀ x ∈ a.timeouts, Due x := by
  refine h.invariant (p := fun a ↦ ∀ x ∈ a.timeouts, Due x) (fun _ hx ↦ by cases hx) ?_
  intro b _ ev hb _ hc x hx
  obtain rfl := Except.ok.inj hc
  obtain heq | ⟨m, now, i, -, hold, heq⟩ := timeouts_step (a := b)
  · exact hb x (heq ▸ hx)
  · rw [heq] at hx
    rcases List.mem_append.mp hx with hx | hx
    · exact hb x hx
    · rw [List.mem_singleton.mp hx]
      exact Rat.not_lt.mp hold

/-- Any call of `again` starts a watcher. -/
theorem Watcher.active_again (w : Watcher) (time : ℚ) : (w.again time).active = true := by
  unfold Watcher.again
  split_ifs with h
  · exact decide_eq_true (Int.ne_of_gt h)
  · exact decide_eq_true (Int.ne_of_gt w.interval_pos)

theorem integerValue_of_lt {k : ℤ} (h : 0 ≤ k) (hlt : k < 2147483648) : integerValue k = k := by
  have hdiv : (k : ℚ).num.tdiv (k : ℚ).den = k := Int.tdiv_one k
  rw [integerValue, hdiv]
  exact Int32.toInt_ofInt_of_le (by omega) (by omega)

/-- A watcher that is given an integer of 31 bits repeats at that interval. -/
theorem Watcher.interval_again (w : Watcher) {m : ℚ} {d : ℤ} (hm : m.den = 1)
    (hd : (d : ℚ) + 1 < m) (hlt : m - d < 2147483648) :
    ((w.again (m - d)).interval : ℚ) = m - d := by
  obtain ⟨k, rfl⟩ : ∃ k : ℤ, m = k := ⟨m.num, ((Rat.den_eq_one_iff m).mp hm).symm⟩
  have hsub : (k : ℚ) - d = ((k - d : ℤ) : ℚ) := (Rat.intCast_sub ..).symm
  have hpos : d + 1 < k := by
    have hcast : ((d + 1 : ℤ) : ℚ) < k := by
      rw [Rat.intCast_add]
      exact hd
    exact Rat.intCast_lt_intCast.mp hcast
  rw [hsub] at hlt ⊢
  have hvalue : integerValue ((k - d : ℤ) : ℚ) = k - d :=
    integerValue_of_lt (by omega) (Rat.intCast_lt_intCast.mp hlt)
  unfold Watcher.again
  rw [hvalue, dif_pos (by omega)]

/-- Where the loop ends, all items that are left are young. -/
theorem Kept.turn_idle (h : Kept c a) {now : ℤ} (hm : a.lists m = true) (hw : m.den = 1)
    (hphase : a.phase = .looping m now) (hidle : (a.turn m now).phase = .idle) :
    ∃ l : List ℕ, (a.turn m now).links.Ring (.list m) (l.map .item) ∧
      (∀ i ∈ l, ((now - (a.turn m now).idleStart i : ℤ) : ℚ) + 1 < m) ∧
      (l = [] → ((a.turn m now).watcher m).active = false) ∧
      ∀ i ∈ l.head?, ((a.turn m now).watcher m).active = true ∧
        (m - ((now - (a.turn m now).idleStart i : ℤ) : ℚ) < 2147483648 →
          (((a.turn m now).watcher m).interval : ℚ) =
            m - ((now - (a.turn m now).idleStart i : ℤ) : ℚ)) := by
  have hring := h.ring m hm
  have hsorted := h.sorted m
  have hpeek := h.peek_eq hm
  unfold Timers.turn at hidle ⊢
  -- the loop ends at an empty list, or at an item that is young
  rcases hc : c m with _ | ⟨first, l⟩
  · rw [hc] at hpeek hring
    rw [hpeek]
    have hstop : ((a.stop m).watcher m).active = false := by
      have hself : (a.stop m).watcher m = { a.watcher m with active := false } :=
        Function.update_self ..
      rw [hself]
    exact ⟨[], hring, nofun, fun _ ↦ hstop, nofun⟩
  · rw [hc] at hpeek hring hsorted
    rw [hpeek] at hidle ⊢
    dsimp only [List.head?_cons, Option.map_some] at hidle ⊢
    split_ifs at hidle ⊢ with hyoung hfun
    · have hself : (a.again m (m - ((now - a.idleStart first : ℤ) : ℚ))).watcher m =
          (a.watcher m).again (m - ((now - a.idleStart first : ℤ) : ℚ)) := Function.update_self ..
      have hactive := (a.watcher m).active_again (m - ((now - a.idleStart first : ℤ) : ℚ))
      have hinterval := (a.watcher m).interval_again hw hyoung
      rw [← hself] at hactive hinterval
      refine ⟨first :: l, hring, fun i hi ↦ ?_, nofun, fun i hi ↦ ?_⟩
      · -- the first item is the oldest
        have hle : a.idleStart first ≤ a.idleStart i := by
          rcases List.mem_cons.mp hi with rfl | hi
          · exact Int.le_refl _
          · exact List.rel_of_pairwise_cons hsorted hi
        have hcast : ((now - a.idleStart i : ℤ) : ℚ) ≤ ((now - a.idleStart first : ℤ) : ℚ) :=
          Rat.intCast_le_intCast.mpr (Int.sub_le_sub_left hle now)
        refine Rat.not_le.mp fun hold ↦ Rat.not_le.mpr hyoung ?_
        exact Rat.le_trans hold (Rat.add_le_add_right.mpr hcast)
      · obtain rfl := Option.some.inj hi
        exact ⟨hactive, hinterval⟩
    · cases hidle
    · exact absurd (hphase.symm.trans hidle) nofun

/-- Timeouts are called in order, and not early. The items of a list have its timeout and are sorted
by the time when they were last active. `_onTimeout` is called when it is due. Where a callback
returns, the items that are left are not due, and the watcher is started, and set for the first of
them if this is no longer than the watcher can wait. -/
theorem fires_in_order {clock : ℤ}
    (h : (machine.restrict fun _ ev ↦ Integral ev).Reaches (init clock) a) :
    (∀ m, a.lists m = true → ∃ l : List ℕ, a.links.Ring (.list m) (l.map .item) ∧
      (∀ i ∈ l, a.idleTimeout i = some m) ∧ l.Pairwise (a.idleStart · ≤ a.idleStart ·)) ∧
    (∀ x ∈ a.timeouts, Due x) ∧
    ∀ m now, a.phase = .looping m now → (a.step .next).phase = .idle →
      ∃ l : List ℕ, (a.step .next).links.Ring (.list m) (l.map .item) ∧
        (∀ i ∈ l, ((now - (a.step .next).idleStart i : ℤ) : ℚ) + 1 < m) ∧
        (l = [] → ((a.step .next).watcher m).active = false) ∧
        ∀ i ∈ l.head?, ((a.step .next).watcher m).active = true ∧
          (m - ((now - (a.step .next).idleStart i : ℤ) : ℚ) < 2147483648 →
            (((a.step .next).watcher m).interval : ℚ) =
              m - ((now - (a.step .next).idleStart i : ℤ) : ℚ)) := by
  obtain ⟨c, hc⟩ := kept_of_reaches h
  refine ⟨fun m hm ↦ ⟨c m, hc.ring m hm, hc.timeout m, hc.sorted m⟩, due_of_reaches h,
    fun m now hphase hidle ↦ ?_⟩
  have hstep : a.step .next = a.turn m now := by rw [step, hphase]
  have hm : a.lists m = true := by
    refine hc.running m ?_
    rw [hphase]
    rfl
  rw [hstep] at hidle ⊢
  exact hc.turn_idle hm ((bounded_of_integral h).lists m hm).2 hphase hidle

/-- One of two items is due, its handler makes it active again, and the callback waits for the
other. -/
theorem fires_in_order_two :
    ∃ a, (machine.restrict fun _ ev ↦ Integral ev).run (init 0) [.setTimeout 0 (some 10), .tick 3,
        .setTimeout 1 (some 10), .tick 7, .fire 10, .next, .active 0, .returns] = some a ∧
      a.phase = .looping 10 10 ∧ (a.step .next).phase = .idle ∧
      ∃ l : List ℕ, (a.step .next).links.Ring (.list 10) (l.map .item) ∧
        (∀ i ∈ l, ((10 - (a.step .next).idleStart i : ℤ) : ℚ) + 1 < 10) ∧
        ∀ i ∈ l.head?, 10 - ((10 - (a.step .next).idleStart i : ℤ) : ℚ) < 2147483648 →
          (((a.step .next).watcher 10).interval : ℚ) =
            10 - ((10 - (a.step .next).idleStart i : ℤ) : ℚ) := by
  have hrun : ((machine.restrict fun _ ev ↦ Integral ev).run (init 0)
      [.setTimeout 0 (some 10), .tick 3, .setTimeout 1 (some 10), .tick 7, .fire 10, .next,
        .active 0, .returns]).map (fun a ↦ (a.phase, (a.step .next).phase)) =
          some (.looping 10 10, .idle) := by decide +kernel
  obtain ⟨a, ha, heq⟩ := Option.map_eq_some_iff.mp hrun
  obtain ⟨hphase, hidle⟩ := Prod.mk.inj heq
  obtain ⟨l, hring, hyoung, -, hset⟩ :=
    (fires_in_order (Machine.reaches_of_run ha)).2.2 10 10 hphase hidle
  exact ⟨a, ha, hphase, hidle, l, hring, hyoung, fun i hi ↦ (hset i hi).2⟩

/-- A watcher is to wait for `2 ^ 32` milliseconds, and fires each second. -/
theorem fires_each_second :
    ¬∀ clock a, (machine.restrict fun _ ev ↦ Integral ev).Reaches (init clock) a →
      ∀ m now, a.phase = .looping m now → (a.step .next).phase = .idle →
        ∃ l : List ℕ, (a.step .next).links.Ring (.list m) (l.map .item) ∧
          ∀ i ∈ l.head?, (((a.step .next).watcher m).interval : ℚ) =
            m - ((now - (a.step .next).idleStart i : ℤ) : ℚ) := by
  intro hall
  have hrun : ((machine.restrict fun _ ev ↦ Integral ev).run (init 0)
      [.setTimeout 0 (some 4294967296), .tick 1000, .fire 4294967296]).map
        (fun a ↦ (a.phase, (a.step .next).phase, (a.step .next).links.peek (.list 4294967296),
          (a.step .next).idleStart 0, ((a.step .next).watcher 4294967296).interval)) =
            some (.looping 4294967296 1000, .idle, some (.item 0), 0, 1000) := by decide +kernel
  obtain ⟨a, ha, heq⟩ := Option.map_eq_some_iff.mp hrun
  simp only [Prod.mk.injEq] at heq
  obtain ⟨hphase, hidle, hpeek, hstart, hinterval⟩ := heq
  obtain ⟨l, hring, hset⟩ :=
    hall 0 a (Machine.reaches_of_run ha) 4294967296 1000 hphase hidle
  rw [hring.peek_eq, List.head?_map, Option.map_eq_some_iff] at hpeek
  obtain ⟨i, hi, hitem⟩ := hpeek
  obtain rfl := Node.item.inj hitem
  have hsame := hset 0 hi
  rw [hinterval, hstart] at hsame
  exact absurd hsame (by decide +kernel)

end SpiderNode.Timers
