import SpiderNode.Timers.Order

/-!
# Watchers of idle lists

`insert` starts the watcher of a list that was empty. `active` does not go through `insert` for an
item that is out of its list, since it timed out or was unenrolled: it appends the item as it
stands, to a list whose watcher may have been stopped, or that was never made. `Restarts` excludes
this; then each list that is not empty has its watcher started (`Armed`), also while callbacks run.
-/

namespace SpiderNode.Timers

open Function (update)

variable {c : ℚ → List ℕ} {a : Timers} {i : ℕ} {m : ℚ}

/-- Lists that are not empty have their watchers started. -/
def Armed (c : ℚ → List ℕ) (a : Timers) : Prop := ∀ m, c m ≠ [] → (a.watcher m).active = true

theorem watcher_append (a : Timers) (m : ℚ) (i : ℕ) : (a.append m i).watcher = a.watcher := by
  unfold append
  split <;> rfl

namespace Armed

theorem again (h : Armed c a) (m time : ℚ) :
    Armed c (a.again m time) ∧ ((a.again m time).watcher m).active = true := by
  have hself : (a.again m time).watcher m = (a.watcher m).again time := Function.update_self ..
  have hactive : ((a.again m time).watcher m).active = true := by
    rw [hself]
    exact Watcher.active_again ..
  refine ⟨fun k hk ↦ ?_, hactive⟩
  by_cases hkm : k = m
  · rw [hkm]
    exact hactive
  · have hne : (a.again m time).watcher k = a.watcher k := Function.update_of_ne hkm ..
    rw [hne]
    exact h k hk

theorem stop (h : Armed c a) (hm : c m = []) : Armed c (a.stop m) := by
  intro k hk
  have hkm : k ≠ m := fun he ↦ hk (he ▸ hm)
  have hne : (a.stop m).watcher k = a.watcher k := Function.update_of_ne hkm ..
  rw [hne]
  exact h k hk

theorem newList (h : Armed c a) (hm : c m = []) : Armed c (a.newList m) := by
  intro k hk
  have hkm : k ≠ m := fun he ↦ hk (he ▸ hm)
  have hne : (a.newList m).watcher k = a.watcher k := Function.update_of_ne hkm ..
  rw [hne]
  exact h k hk

theorem removed (h : Armed c a) (i : ℕ) : Armed (removed c i) a := by
  intro m hm
  refine h m fun he ↦ hm ?_
  rw [Timers.removed, he]
  rfl

theorem touched (h : Armed c a) (hm : (a.watcher m).active = true) : Armed (touched c m i) a := by
  intro k hk
  by_cases hkm : k = m
  · rw [hkm]
    exact hm
  · rw [touched_of_ne hkm] at hk
    exact h k hk

theorem unenroll (h : Armed c a) (hk : Kept c a) (i : ℕ) :
    Armed (Timers.removed c i) (a.unenroll i) := by
  have hremove := hk.remove i
  have harmed : Armed (Timers.removed c i) (a.setLinks (a.links.remove (.item i))) := h.removed i
  unfold Timers.unenroll
  dsimp only
  split
  · split_ifs with hempty
    · rw [Bool.and_eq_true] at hempty
      exact harmed.stop ((hremove.isEmpty_iff hempty.1).mp hempty.2)
    · exact harmed
  · exact harmed

theorem enroll (h : Armed c a) (hk : Kept c a) (i : ℕ) (msecs : ℚ) :
    Armed (Timers.removed c i) (a.enroll i msecs) := by
  have hout : Armed (Timers.removed c i)
      (if (a.links.next (.item i)).isSome then a.unenroll i else a) := by
    split_ifs
    · exact h.unenroll hk i
    · exact h.removed i
  exact hout

theorem arm (h : Armed c a) (hk : Kept c a) (m : ℚ) :
    Armed c (a.arm m) ∧ ((a.arm m).watcher m).active = true := by
  have hnew : Kept c (if a.lists m then a else a.newList m) ∧
      Armed c (if a.lists m then a else a.newList m) ∧
      (if a.lists m then a else a.newList m).lists m = true := by
    split_ifs with hlist
    · exact ⟨hk, h, hlist⟩
    · have hnone : a.lists m = false := by simpa using hlist
      exact ⟨hk.newList hnone, h.newList (hk.eq_nil_of_lists hnone), Function.update_self ..⟩
  unfold Timers.arm
  generalize (if a.lists m then a else a.newList m) = b at hnew
  obtain ⟨hkb, hb, hlist⟩ := hnew
  dsimp only
  split_ifs with hempty
  · exact hb.again ..
  · exact ⟨hb, hb m fun he ↦ hempty ((hkb.isEmpty_iff hlist).mpr he)⟩

theorem insert (h : Armed c a) (hk : Kept c a) (hm : 0 ≤ m) (hout : ∀ k, i ∉ c k) :
    Armed (Timers.touched c m i) (a.insert i m) := by
  have hset : Kept c ((a.start i).setIdleTimeout i (some m)) :=
    (hk.start hout).setIdleTimeout hout (some m)
  have harmed : Armed c ((a.start i).setIdleTimeout i (some m)) := h
  obtain ⟨harm, hactive⟩ := harmed.arm hset m
  unfold Timers.insert
  dsimp only
  rw [if_neg (Rat.not_lt.mpr hm)]
  intro k hk'
  rw [watcher_append]
  exact harm.touched hactive k hk'

end Armed

/-! ## Items that are active again -/

/-- `active` is not called with an item that is in no list, unless the list of its timeout has its
watcher started. -/
def Restarts (a : Timers) : TimerEvent → Prop
  | .active i => a.links.next (.item i) = none →
      ∀ m ∈ a.idleTimeout i, a.lists m = true ∧ (a.watcher m).active = true
  | _ => True

instance (a : Timers) : ∀ ev, Decidable (Restarts a ev)
  | .active i => inferInstanceAs (Decidable (a.links.next (.item i) = none →
      ∀ m ∈ a.idleTimeout i, a.lists m = true ∧ (a.watcher m).active = true))
  | .enroll _ _ | .setTimeout _ _ | .tick _ | .assign _ _ | .unenroll _ | .clearTimeout _ | .fire _
  | .expire _ | .next | .returns | .throws => inferInstanceAs (Decidable True)

/-- Where `active` appends an item, there is a list, and its watcher is started. -/
theorem Armed.lists_of_active (h : Armed c a) (hk : Kept c a) (hr : Restarts a (.active i))
    (hi : a.idleTimeout i = some m) (hself : a.links.next (.item i) ≠ some (.item i)) :
    a.lists m = true ∧ (a.watcher m).active = true := by
  by_cases hnext : a.links.next (.item i) = none
  · exact hr hnext m hi
  · -- an item that has links to others is in a list
    obtain ⟨k, hmem⟩ : ∃ k, i ∈ c k := by
      by_contra hout
      rcases hk.alone i fun k hmem ↦ hout ⟨k, hmem⟩ with ⟨hnone, -⟩ | ⟨hsome, -⟩
      · exact hnext hnone
      · exact hself hsome
    obtain rfl : k = m := Option.some.inj ((hk.timeout k i hmem).symm.trans hi)
    exact ⟨hk.lists_of_mem hmem, h k (List.ne_nil_of_mem hmem)⟩

/-- `append` does not throw if there is a list. -/
theorem Kept.threw_append (h : Kept c a) (hm : a.lists m = true) :
    (a.append m i).threw = a.threw := by
  obtain ⟨h', ha⟩ := Links.exists_append (x := .item i) h.doubly (h.ring m hm) nofun
  rw [append, if_pos hm, ha]
  rfl

theorem threw_arm (a : Timers) (m : ℚ) : (a.arm m).threw = a.threw := by
  unfold arm
  dsimp only
  split_ifs <;> rfl

theorem Kept.threw_insert (h : Kept c a) (hm : 0 ≤ m) (hout : ∀ k, i ∉ c k) :
    (a.insert i m).threw = a.threw := by
  have hset : Kept c ((a.start i).setIdleTimeout i (some m)) :=
    (h.start hout).setIdleTimeout hout (some m)
  unfold Timers.insert
  dsimp only
  rw [if_neg (Rat.not_lt.mpr hm), (hset.arm m).threw_append (lists_arm ..), threw_arm]
  rfl

theorem Armed.active (h : Armed c a) (hk : Kept c a) (hr : Restarts a (.active i)) :
    Armed (activated a c i) (a.active i) ∧ (a.active i).threw = a.threw := by
  unfold Timers.active activated
  rcases hi : a.idleTimeout i with _ | m
  · exact ⟨h, rfl⟩
  dsimp only
  by_cases hm : 0 ≤ m
  swap
  · rw [if_neg hm, if_neg fun hand ↦ hm hand.1]
    exact ⟨h, rfl⟩
  rw [if_pos hm]
  by_cases hself : a.links.next (.item i) = some (.item i)
  · rw [if_pos hself, if_pos ⟨hm, Or.inr hself⟩]
    have hout : ∀ k, i ∉ c k := hk.not_mem_of_next fun y hy hnext ↦
      hy (Option.some.inj (hnext.symm.trans hself))
    exact ⟨h.insert hk hm hout, hk.threw_insert hm hout⟩
  · obtain ⟨hlist, hactive⟩ := h.lists_of_active hk hr hi hself
    rw [if_neg hself, if_pos ⟨hm, Or.inl hlist⟩]
    obtain ⟨h', -, heq⟩ := hk.append_eq (i := i) hlist
    rw [heq]
    exact ⟨h.touched hactive, rfl⟩

theorem Armed.turn (h : Armed c a) (hk : Kept c a) {now : ℤ} (hm : a.lists m = true) :
    Armed (turned a c m now) (a.turn m now) := by
  unfold Timers.turn turned
  rw [hk.peek_eq hm]
  rcases hc : c m with _ | ⟨first, l⟩
  · exact h.stop hc
  · dsimp only [List.head?_cons, Option.map_some]
    split_ifs
    · exact (h.again ..).1
    · exact h.removed first
    · exact h.removed first

theorem threw_unenroll (a : Timers) (i : ℕ) : (a.unenroll i).threw = a.threw := by
  unfold unenroll
  dsimp only
  split
  · split_ifs <;> rfl
  · rfl

theorem threw_turn (a : Timers) (m : ℚ) (now : ℤ) : (a.turn m now).threw = a.threw := by
  unfold turn
  split
  · rfl
  · dsimp only
    split_ifs <;> rfl
  · rfl

theorem Armed.setTimeout (h : Armed c a) (hk : Kept c a) {after : Option ℚ}
    (hi : a.idleTimeout i = none) :
    Armed (scheduled c i after) (a.setTimeout i after) ∧
      (a.setTimeout i after).threw = a.threw := by
  unfold Timers.setTimeout
  split_ifs with hzero
  · unfold scheduled
    rw [if_pos hzero]
    exact ⟨h, rfl⟩
  · rw [← activated_newItem (a := a) hzero]
    have harmed : Armed c (a.newItem i after) := h
    have hnext : (a.newItem i after).links.next (.item i) = some (.item i) :=
      Function.update_self ..
    exact harmed.active (hk.newItem hi after) fun hnone ↦ absurd (hnext.symm.trans hnone) nofun

/-- A step keeps the lists armed, and does not throw. -/
theorem Armed.step (h : Armed c a) (hk : Kept c a) {ev : TimerEvent} (hg : a.Allows ev)
    (hr : Restarts a ev) :
    Armed (contents a c ev) (a.step ev) ∧ (a.step ev).threw = a.threw := by
  cases ev with
  | enroll i msecs =>
    refine ⟨h.enroll hk i msecs, ?_⟩
    have hout : (if (a.links.next (.item i)).isSome then a.unenroll i else a).threw = a.threw := by
      split_ifs
      · exact threw_unenroll ..
      · rfl
    exact hout
  | unenroll i => exact ⟨h.unenroll hk i, threw_unenroll ..⟩
  | active i => exact h.active hk hr
  | setTimeout i after => exact h.setTimeout hk hg.2.2
  | clearTimeout i =>
    rw [Timers.step, clearTimeout, contents]
    split_ifs
    · have hset : Kept c ((a.setCallback i false).setHandler i false) := { hk with }
      have harmed : Armed c ((a.setCallback i false).setHandler i false) := h
      exact ⟨harmed.unenroll hset i, threw_unenroll ..⟩
    · exact ⟨h, rfl⟩
  | expire i =>
    rw [Timers.step, expire]
    split_ifs <;> exact ⟨h, rfl⟩
  | next =>
    -- outside the loop of a list, `next` does nothing
    rcases hphase : a.phase with _ | ⟨m, now⟩ | ⟨m, now⟩
    · rw [contents, Timers.step, hphase]
      exact ⟨h, rfl⟩
    · rw [contents, Timers.step, hphase]
      refine ⟨h.turn hk (hk.running m ?_), threw_turn ..⟩
      rw [hphase]
      rfl
    · rw [contents, Timers.step, hphase]
      exact ⟨h, rfl⟩
  | returns =>
    rw [Timers.step]
    split <;> exact ⟨h, rfl⟩
  | tick d | assign i b | fire msecs | throws => exact ⟨h, rfl⟩

/-! ## Runs -/

/-- The lists of a state, with all that holds of them in a run. -/
structure Guarded (c : ℚ → List ℕ) (a : Timers) : Prop where
  kept : Kept c a
  armed : Armed c a
  threw : a.threw = false

theorem guarded_init (clock : ℤ) : Guarded (fun _ ↦ []) (init clock) :=
  ⟨kept_init clock, fun _ h ↦ absurd rfl h, rfl⟩

theorem Guarded.step (h : Guarded c a) {ev : TimerEvent} (hg : a.Allows ev) (hr : Restarts a ev) :
    Guarded (contents a c ev) (a.step ev) := by
  obtain ⟨harmed, hthrew⟩ := h.armed.step h.kept hg hr
  exact ⟨h.kept.step hg, harmed, hthrew.trans h.threw⟩

/-- Lists that are not empty have their watchers started and `active` does not throw, as long as no
item that has left its list is made active while the watcher is stopped. -/
theorem armed_of_restarts {clock : ℤ}
    (h : (machine.restrict fun a ev ↦ Integral ev ∧ Restarts a ev).Reaches (init clock) a) :
    (∀ m, a.lists m = true → a.links.isEmpty (.list m) = false → (a.watcher m).active = true) ∧
      a.threw = false := by
  have hinv : ∃ c, Guarded c a := by
    refine h.invariant (p := fun a ↦ ∃ c, Guarded c a) ⟨_, guarded_init clock⟩ ?_
    rintro b _ ev ⟨c, hb⟩ hg hc
    obtain rfl := Except.ok.inj hc
    exact ⟨_, hb.step hg.1 hg.2.2⟩
  obtain ⟨c, hc⟩ := hinv
  refine ⟨fun m hm hempty ↦ hc.armed m fun hnil ↦ ?_, hc.threw⟩
  rw [(hc.kept.isEmpty_iff hm).mpr hnil] at hempty
  cases hempty

/-- An item times out, is enrolled again by its handler, and is active. -/
theorem armed_of_restarts_again :
    ∃ a, (machine.restrict fun a ev ↦ Integral ev ∧ Restarts a ev).run (init 0) [.enroll 0 10,
        .assign 0 true, .active 0, .tick 10, .fire 10, .next, .enroll 0 5, .active 0, .returns,
        .next] = some a ∧
      a.lists 5 = true ∧ a.links.isEmpty (.list 5) = false ∧ (a.watcher 5).active = true := by
  have hrun : ((machine.restrict fun a ev ↦ Integral ev ∧ Restarts a ev).run (init 0)
      [.enroll 0 10, .assign 0 true, .active 0, .tick 10, .fire 10, .next, .enroll 0 5, .active 0,
        .returns, .next]).map (fun a ↦ (a.lists 5, a.links.isEmpty (.list 5))) =
          some (true, false) := by decide +kernel
  obtain ⟨a, ha, heq⟩ := Option.map_eq_some_iff.mp hrun
  obtain ⟨hlist, hempty⟩ := Prod.mk.inj heq
  exact ⟨a, ha, hlist, hempty,
    (armed_of_restarts (Machine.reaches_of_run ha)).1 5 hlist hempty⟩

/-- An item times out, and is active again. -/
theorem active_not_armed :
    ¬∀ clock a, (machine.restrict fun _ ev ↦ Integral ev).Reaches (init clock) a →
      a.phase = .idle →
        (∀ m, a.lists m = true → a.links.isEmpty (.list m) = false →
          (a.watcher m).active = true) ∧ a.threw = false := by
  intro hall
  have hrun : ((machine.restrict fun _ ev ↦ Integral ev).run (init 0)
      [.enroll 0 10, .active 0, .tick 10, .fire 10, .next, .next, .active 0]).map
        (fun a ↦ (a.phase, a.lists 10, a.links.isEmpty (.list 10), (a.watcher 10).active)) =
          some (.idle, true, false, false) := by decide +kernel
  obtain ⟨a, ha, heq⟩ := Option.map_eq_some_iff.mp hrun
  rw [Prod.mk.injEq, Prod.mk.injEq, Prod.mk.injEq] at heq
  obtain ⟨hphase, hlist, hempty, hstopped⟩ := heq
  have hactive := (hall 0 a (Machine.reaches_of_run ha) hphase).1 10 hlist hempty
  rw [hstopped] at hactive
  cases hactive

end SpiderNode.Timers
