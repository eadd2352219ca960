import SpiderNode.Timers.Armed

/-!
# Timers that are cleared

`clearTimeout` takes the function away from its timer, and the timer out of its list. The function
can only come back if the program puts it there, and `setTimeout` makes a new timer each time; so a
timer that was cleared is `Dead` from then on. The other timers of the list stay where they are, and
their watcher stays started; it is started whatever the delay is, since a watcher that is given no
positive integer repeats each second.
-/

namespace SpiderNode.Timers

open Function (update)

variable {a : Timers} {i t : ℕ} {m : ℚ}

/-- The events of a program that only uses `setTimeout` and `clearTimeout`. -/
def Scheduling : TimerEvent → Prop
  | .assign _ _ | .enroll _ _ | .unenroll _ | .active _ => False
  | _ => True

instance : ∀ ev, Decidable (Scheduling ev)
  | .assign _ _ | .enroll _ _ | .unenroll _ | .active _ => inferInstanceAs (Decidable False)
  | .setTimeout _ _ | .tick _ | .clearTimeout _ | .fire _ | .expire _ | .next | .returns
  | .throws => inferInstanceAs (Decidable True)

/-- How often the function of a timer was called. -/
def calls (t : ℕ) (a : Timers) : ℕ := (a.timeouts.map Timeout.item).count t + a.expired.count t

/-- A timer that has lost its function. -/
structure Dead (t : ℕ) (a : Timers) : Prop where
  made : a.made t = true
  onTimeout : a.onTimeout t = false
  callback : a.callback t = false

theorem Quiet.calls {b : Timers} (h : Quiet a b) : calls t b = calls t a := by
  rw [Timers.calls, Timers.calls, h.timeouts, h.expired]

theorem Quiet.dead {b : Timers} (h : Quiet a b) (hd : Dead t a) : Dead t b where
  made := (congrFun h.made t).trans hd.made
  onTimeout := (congrFun h.onTimeout t).trans hd.onTimeout
  callback := (congrFun h.callback t).trans hd.callback

theorem dead_clearTimeout (h : a.made t = true) : Dead t (a.clearTimeout t) := by
  unfold clearTimeout
  split_ifs with hfun
  · have hset : Dead t ((a.setCallback t false).setHandler t false) :=
      ⟨h, Function.update_self .., Function.update_self ..⟩
    exact { (Quiet.unenroll ((a.setCallback t false).setHandler t false) t).dead hset with }
  · rw [Bool.not_eq_true, Bool.or_eq_false_iff] at hfun
    exact ⟨h, hfun.2, hfun.1⟩

namespace Dead

/-- Another timer is made. -/
theorem setTimeout (h : Dead t a) (hi : i ≠ t) (after : Option ℚ) :
    Dead t (a.setTimeout i after) ∧ calls t (a.setTimeout i after) = calls t a := by
  have hne {β : Type} (f : ℕ → β) (v : β) : update f i v t = f t :=
    Function.update_of_ne hi.symm ..
  unfold Timers.setTimeout
  split_ifs
  · exact ⟨⟨(hne ..).trans h.made, h.onTimeout, (hne ..).trans h.callback⟩, rfl⟩
  · have hnew : Dead t (a.newItem i after) :=
      ⟨(hne ..).trans h.made, (hne ..).trans h.onTimeout, h.callback⟩
    have hquiet := Quiet.active (a.newItem i after) i
    exact ⟨hquiet.dead hnew, hquiet.calls⟩

theorem clearTimeout (h : Dead t a) (i : ℕ) :
    Dead t (a.clearTimeout i) ∧ calls t (a.clearTimeout i) = calls t a := by
  have hfalse {f : ℕ → Bool} (hf : f t = false) : update f i false t = false := by
    by_cases hi : t = i
    · rw [hi]
      exact Function.update_self ..
    · exact (Function.update_of_ne hi ..).trans hf
  unfold Timers.clearTimeout
  split_ifs
  · have hset : Dead t ((a.setCallback i false).setHandler i false) :=
      ⟨h.made, hfalse h.onTimeout, hfalse h.callback⟩
    have hquiet := Quiet.unenroll ((a.setCallback i false).setHandler i false) i
    exact ⟨{ hquiet.dead hset with }, hquiet.calls⟩
  · exact ⟨h, rfl⟩

theorem expire (h : Dead t a) (i : ℕ) :
    Dead t (a.expire i) ∧ calls t (a.expire i) = calls t a := by
  unfold Timers.expire
  dsimp only
  split_ifs with hfun
  · have hi : i ≠ t := by
      rintro rfl
      exact absurd (hfun.symm.trans h.callback) nofun
    refine ⟨{ h with }, ?_⟩
    rw [calls, calls]
    change _ + (a.expired ++ [i]).count t = _
    rw [List.count_append, List.count_singleton, if_neg (by simpa using hi), Nat.add_zero]
    rfl
  · exact ⟨{ h with }, rfl⟩

theorem turn (h : Dead t a) (m : ℚ) (now : ℤ) :
    Dead t (a.turn m now) ∧ calls t (a.turn m now) = calls t a := by
  unfold Timers.turn
  split
  · exact ⟨{ h with }, rfl⟩
  · rename_i first _
    dsimp only
    split_ifs with _ hfun
    · exact ⟨{ h with }, rfl⟩
    · have hi : first ≠ t := by
        rintro rfl
        exact absurd (hfun.symm.trans h.onTimeout) nofun
      refine ⟨{ h with }, ?_⟩
      rw [calls, calls, List.map_append, List.count_append]
      change _ + [first].count t + _ = _
      rw [List.count_singleton, if_neg (by simpa using hi), Nat.add_zero]
      rfl
    · exact ⟨{ h with }, rfl⟩
  · exact ⟨{ h with }, rfl⟩

/-- A timer that was cleared stays so, and is not called. -/
theorem step (h : Dead t a) {ev : TimerEvent} (hg : a.Allows ev) (hs : Scheduling ev) :
    Dead t (a.step ev) ∧ calls t (a.step ev) = calls t a := by
  cases ev with
  | setTimeout i after =>
    have hi : i ≠ t := by
      rintro rfl
      exact absurd (hg.2.1.symm.trans h.made) nofun
    exact h.setTimeout hi after
  | clearTimeout i => exact h.clearTimeout i
  | expire i => exact h.expire i
  | next =>
    rw [Timers.step]
    split
    · exact h.turn ..
    · exact ⟨h, rfl⟩
  | returns =>
    rw [Timers.step]
    split <;> exact ⟨{ h with }, rfl⟩
  | tick d | fire msecs | throws => exact ⟨{ h with }, rfl⟩
  | assign i b | enroll i msecs | unenroll i | active i => exact hs.elim

theorem calls_eq {b : Timers} (h : Dead t a)
    (hr : (machine.restrict fun _ ev ↦ Scheduling ev).Reaches a b) : calls t b = calls t a := by
  have hinv : Dead t b ∧ calls t b = calls t a := by
    refine hr.invariant (p := fun b ↦ Dead t b ∧ calls t b = calls t a) ⟨h, rfl⟩ ?_
    rintro b _ ev ⟨hb, hcalls⟩ hg hc
    obtain rfl := Except.ok.inj hc
    obtain ⟨hdead, hsame⟩ := hb.step hg.1 hg.2
    exact ⟨hdead, hsame.trans hcalls⟩
  exact hinv.2

end Dead

/-! ## Runs -/

/-- After `clearTimeout` the function of a timer is not called, the other timers of each list are
still there, and a list that is not empty has its watcher started. -/
def ClearsOnly (t : ℕ) (a : Timers) : Prop :=
  (∀ b, (machine.restrict fun _ ev ↦ Scheduling ev).Reaches (a.clearTimeout t) b →
    calls t b = calls t (a.clearTimeout t)) ∧
  ∀ m, a.lists m = true → ∃ l l' : List ℕ, a.links.Ring (.list m) (l.map .item) ∧
    (a.clearTimeout t).links.Ring (.list m) (l'.map .item) ∧ (∀ u ∈ l, u ≠ t → u ∈ l') ∧
    (l' ≠ [] → ((a.clearTimeout t).watcher m).active = true)

theorem guarded_of_scheduling {clock : ℤ}
    (h : (machine.restrict fun _ ev ↦ Scheduling ev).Reaches (init clock) a) :
    ∃ c, Guarded c a := by
  refine h.invariant (p := fun a ↦ ∃ c, Guarded c a) ⟨_, guarded_init clock⟩ ?_
  rintro b _ ev ⟨c, hb⟩ hg hc
  obtain rfl := Except.ok.inj hc
  refine ⟨_, hb.step hg.1 ?_⟩
  cases ev with
  | active i => exact hg.2.elim
  | _ => trivial

/-- A timer that was cleared does not fire, and the others do, whatever the delays are. -/
theorem cleared_never_fires {clock : ℤ}
    (h : (machine.restrict fun _ ev ↦ Scheduling ev).Reaches (init clock) a) (hout : a.Outside)
    (ht : a.made t = true) : ClearsOnly t a := by
  refine ⟨fun b hb ↦ (dead_clearTimeout ht).calls_eq hb, fun m hm ↦ ?_⟩
  obtain ⟨c, hc⟩ := guarded_of_scheduling h
  have hstep : Guarded (contents a c (.clearTimeout t)) (a.clearTimeout t) := hc.step hout trivial
  have hlists : (a.clearTimeout t).lists m = true := by
    unfold clearTimeout unenroll
    dsimp only
    split_ifs
    · split
      · split_ifs <;> exact hm
      · exact hm
    · exact hm
  refine ⟨c m, _, hc.kept.ring m hm, hstep.kept.ring m hlists, fun u hu hne ↦ ?_, hstep.armed m⟩
  rw [contents]
  split_ifs
  · exact (List.mem_erase_of_ne hne).mpr hu
  · exact hu

/-- A handler clears the timer behind it. -/
theorem cleared_never_fires_next :
    ∃ a, (machine.restrict fun _ ev ↦ Scheduling ev).run (init 0)
      [.setTimeout 0 (some (1 / 2)), .setTimeout 1 (some (1 / 2)), .setTimeout 2 (some (1 / 2)),
        .setTimeout 3 (some 0), .setTimeout 4 none, .tick 1, .fire (1 / 2), .next] = some a ∧
      a.phase = .handling (1 / 2) 1 ∧ ClearsOnly 1 a := by
  have hrun : ((machine.restrict fun _ ev ↦ Scheduling ev).run (init 0)
      [.setTimeout 0 (some (1 / 2)), .setTimeout 1 (some (1 / 2)), .setTimeout 2 (some (1 / 2)),
        .setTimeout 3 (some 0), .setTimeout 4 none, .tick 1, .fire (1 / 2), .next]).map
          (fun a ↦ (a.phase, a.made 1)) = some (.handling (1 / 2) 1, true) := by decide +kernel
  obtain ⟨a, ha, heq⟩ := Option.map_eq_some_iff.mp hrun
  obtain ⟨hphase, hmade⟩ := Prod.mk.inj heq
  refine ⟨a, ha, hphase, cleared_never_fires (Machine.reaches_of_run ha) (fun m now hp ↦ ?_) hmade⟩
  exact absurd (hphase.symm.trans hp) nofun

end SpiderNode.Timers
