import SpiderNode.Tls.SecurePair
import Mathlib.Data.List.Count
import Mathlib.Data.List.Perm.Basic

/-!
# The locks of a `SecurePair`

`_cycle` sets the lock of a stage before it calls the stage, and clears it when the stage returns.
Nothing clears it when an exception leaves the stage instead, so that the stage is never entered
again. `released_iff` says that this is the only way in which a lock can stay set.

The invariant counts: a lock is set if there is a call of `_cycle` in its stage, or if an exception
has left the stage, and there is only one of these.
-/

namespace SpiderNode.Tls

open Function (update)

namespace SecurePair

variable {κ : Type*} {s t : SecurePair κ} {depth : ℕ} {established : Bool} {below : List (Frame κ)}
  {p q : Place κ} {k : Stage}

/-- The stages that were entered and have not returned. -/
def stages (s : SecurePair κ) : List Stage := s.stack.filterMap Frame.stage ++ s.escaped

/-- Each of these has set its lock. -/
def Held (s : SecurePair κ) : Prop := ∀ k, s.stages.count k = if s.lock k then 1 else 0

/-- Nothing has happened to the locks. -/
structure Like (t s : SecurePair κ) : Prop where
  lock : t.lock = s.lock
  stack : t.stack = s.stack
  escaped : t.escaped = s.escaped

theorem Like.refl (s : SecurePair κ) : s.Like s := ⟨rfl, rfl, rfl⟩

theorem Held.of_like (h : s.Held) (ht : t.Like s) : t.Held := by
  intro k
  rw [stages, ht.stack, ht.escaped, ht.lock]
  exact h k

theorem like_setStream (s : SecurePair κ) (x : Side) (f : CryptoStream κ → CryptoStream κ) :
    (s.setStream x f).Like s := ⟨rfl, rfl, rfl⟩

theorem stages_unwind (s : SecurePair κ) : s.unwind.stages.Perm s.stages := by
  have hsplit : s.stack.filterMap Frame.stage =
      (s.stack.takeWhile (!·.running)).filterMap Frame.stage ++
        (s.stack.dropWhile (!·.running)).filterMap Frame.stage := by
    rw [← List.filterMap_append, List.takeWhile_append_dropWhile]
  change ((s.stack.dropWhile (!·.running)).filterMap Frame.stage ++
    ((s.stack.takeWhile (!·.running)).filterMap Frame.stage ++ s.escaped)).Perm _
  rw [stages, hsplit, ← List.append_assoc]
  exact List.perm_append_comm.append_right _

theorem Held.unwind (h : s.Held) : s.unwind.Held := fun k ↦
  ((stages_unwind s).count_eq k).trans (h k)

theorem Held.goto (h : s.Held) (hs : s.stack = .cycle depth established p :: below)
    (hq : q.stage = p.stage) : (s.goto depth established below q).Held := by
  have hstages : (s.goto depth established below q).stages = s.stages := by
    rw [stages, stages, hs]
    simp only [SecurePair.goto, List.filterMap_cons, Frame.stage, hq]
  intro k
  rw [hstages]
  exact h k

theorem stages_of_stage (hs : s.stack = .cycle depth established p :: below)
    (hp : p.stage = some k) :
    s.stages = k :: (below.filterMap Frame.stage ++ s.escaped) := by
  rw [stages, hs, List.filterMap_cons, Frame.stage, hp, List.cons_append]

theorem stage_after (k : Stage) : (k.after : Place κ).stage = none := by cases k <;> rfl

/-- A stage that returns clears its lock. -/
theorem Held.leave (h : s.Held) (hs : s.stack = .cycle depth established p :: below)
    (hp : p.stage = some k) : (s.leave depth established below k).Held := by
  have hstages : (s.leave depth established below k).stages =
      below.filterMap Frame.stage ++ s.escaped := by
    simp only [stages, SecurePair.leave, List.filterMap_cons, Frame.stage, stage_after]
  intro j
  have hj := h j
  rw [stages_of_stage hs hp, List.count_cons] at hj
  rw [hstages]
  change _ = if update s.lock k false j = true then 1 else 0
  by_cases hjk : j = k
  · subst hjk
    rw [Function.update_self]
    rw [beq_self_eq_true, if_pos rfl] at hj
    have hle : (if s.lock j = true then 1 else 0) ≤ 1 := by split_ifs <;> decide
    simp only [Bool.false_eq_true, if_false]
    omega
  · rw [Function.update_of_ne hjk]
    rwa [if_neg (by simpa using Ne.symm hjk), Nat.add_zero] at hj

/-- A stage that begins sets its lock. -/
theorem Held.enter (h : s.Held) (hs : s.stack = .cycle depth established p :: below)
    (hp : p.stage = none) (hlock : s.lock k = false) (hq : q.stage = some k) :
    Held (SecurePair.goto { s with lock := update s.lock k true } depth established below q) := by
  have hstages : s.stages = below.filterMap Frame.stage ++ s.escaped := by
    simp only [stages, hs, List.filterMap_cons, Frame.stage, hp]
  have hgoto : stages (SecurePair.goto { s with lock := update s.lock k true } depth established
      below q) = k :: s.stages := by
    rw [hstages]
    simp only [stages, SecurePair.goto, List.filterMap_cons, Frame.stage, hq, List.cons_append]
  intro j
  have hj := h j
  rw [hgoto, List.count_cons]
  change _ = if update s.lock k true j = true then 1 else 0
  by_cases hjk : j = k
  · subst hjk
    rw [Function.update_self, hj, hlock, beq_self_eq_true]
    simp
  · rw [Function.update_of_ne hjk, if_neg (by simpa using Ne.symm hjk), Nat.add_zero]
    exact hj

theorem Held.cycle (h : s.Held) (depth : ℕ) : (s.cycle depth).Held := by
  unfold SecurePair.cycle
  split_ifs
  · exact h
  · exact fun k ↦ h k
  · exact fun k ↦ h k

theorem Held.withSsl (h : s.Held) {f : Option SslError → SecurePair κ} (hf : ∀ e, (f e).Held) :
    (s.withSsl f).Held := by
  unfold SecurePair.withSsl
  split
  · exact hf _
  · exact Held.unwind fun k ↦ h k

theorem Held.destroy (h : s.Held) {next : SecurePair κ → SecurePair κ}
    (hnext : ∀ t : SecurePair κ, t.Like s → (next t).Held) : (s.destroy next).Held := by
  unfold SecurePair.destroy
  split_ifs
  · exact hnext s (.refl s)
  · exact h.withSsl fun _ ↦ hnext _ ⟨rfl, rfl, rfl⟩

theorem Held.setDone (h : s.Held) (x : Side) {next : SecurePair κ → SecurePair κ}
    (hnext : ∀ t : SecurePair κ, t.Like s → (next t).Held) : (s.setDone x next).Held := by
  unfold SecurePair.setDone
  dsimp only
  split_ifs
  · exact (h.of_like (like_setStream s x _)).destroy fun t ht ↦ hnext t
      ⟨ht.lock, ht.stack, ht.escaped⟩
  · exact hnext _ (like_setStream s x _)

/-- Behind `next` of the lemmas above: the stage returns. -/
theorem Held.leave_of_like (h : s.Held) (hs : s.stack = .cycle depth established p :: below)
    (hp : p.stage = some k) (t : SecurePair κ) (ht : t.Like s) :
    (t.leave depth established below k).Held :=
  (h.of_like ht).leave (ht.stack.trans hs) hp

theorem Held.error (h : s.Held) (hs : s.stack = .cycle depth established p :: below)
    (hp : p.stage = some k) (hq : q.stage = some k) :
    (s.error depth established below k q).Held := by
  unfold SecurePair.error
  split_ifs
  · exact h.destroy (h.leave_of_like hs hp)
  · refine h.withSsl fun e ↦ ?_
    have hclear : Held { s with ssl := some none } := fun k ↦ h k
    dsimp only
    split_ifs
    · exact hclear.destroy (hclear.leave_of_like hs hp)
    · exact hclear.goto hs (hq.trans hp.symm)

theorem Held.settle (h : s.Held) (hs : s.stack = .cycle depth established p :: below)
    (hp : p.stage = some k) (a : Answer) {error secure next : Place κ}
    (herror : error.stage = some k) (hsecure : secure.stage = some k)
    (hnext : next.stage = some k) :
    (s.settle depth established below a k error secure next).Held := by
  unfold SecurePair.settle maybeInitFinished
  split
  · exact h.error hs hp herror
  · split_ifs
    · exact Held.goto (s := { s with secureEstablished := true }) (fun k ↦ h k) hs
        (hsecure.trans hp.symm)
    · exact h.goto hs (hnext.trans hp.symm)

theorem Held.pullEof (h : s.Held) {x : Side} {havePending : Bool}
    (hs : s.stack = .cycle depth established p :: below) (hp : p.stage = some x.pull) :
    (s.pullEof depth established below x havePending).Held := by
  have hclosing (y : Side) (f : CryptoStream κ → CryptoStream κ) :
      (((s.setStream y f).goto depth established below
        (.pull x havePending .closing)).cycle 0).Held :=
    ((h.of_like (like_setStream s y f)).goto (q := .pull x havePending .closing) hs hp.symm).cycle 0
  cases x with
  | encrypted => exact hclosing _ _
  | cleartext => exact h.withSsl fun _ ↦ hclosing _ _

theorem Held.pullData (h : s.Held) {x : Side} {havePending : Bool}
    (hs : s.stack = .cycle depth established p :: below) (hp : p.stage = some x.pull) (a : Answer)
    (b : Bytes) (cb : Option κ) :
    (s.pullData depth established below a x havePending b cb).Held := by
  unfold SecurePair.pullData
  split
  · exact h.goto hs hp.symm
  · have hoffer : (s.offer a x b cb).Like s := ⟨rfl, rfl, rfl⟩
    exact h.withSsl fun _ ↦ (h.of_like hoffer).settle hs hp a rfl rfl rfl

theorem Held.pullLoop (h : s.Held) {x : Side} {havePending : Bool}
    (hs : s.stack = .cycle depth established p :: below) (hp : p.stage = some x.pull) (a : Answer) :
    (s.pullLoop depth established below a x havePending).Held := by
  unfold SecurePair.pullLoop
  split
  · split
    · exact h.goto hs hp.symm
    · exact h.leave hs hp
  · split
    · exact h.leave hs hp
    · have hshift : (s.shift x).Held := h.of_like (like_setStream s x _)
      dsimp only
      split
      · exact hshift.unwind
      · split
        · exact hshift.pullEof hs hp
        · exact hshift.pullData hs hp a _ _

theorem Held.pullAnswered (h : s.Held) {x : Side} {havePending : Bool}
    (hs : s.stack = .cycle depth established p :: below) (hp : p.stage = some x.pull) (tmp : Bytes)
    (cb : Option κ) (rv : ℤ) :
    (s.pullAnswered depth established below x havePending tmp cb rv).Held := by
  unfold SecurePair.pullAnswered
  split
  · exact (h.of_like (like_setStream s x _)).leave hs hp
  · split
    · exact (h.of_like (like_setStream s x _)).goto hs hp.symm
    · split
      · exact h.goto hs hp.symm
      · exact h.unwind

theorem Held.pushCounted (h : s.Held) {x : Side}
    (hs : s.stack = .cycle depth established p :: below) (hp : p.stage = some x.push) (a : Answer)
    (chunk : Bytes) (chunkBytes : ℤ) :
    (s.pushCounted depth established below a x chunk chunkBytes).Held := by
  unfold SecurePair.pushCounted pushNothing
  split
  · exact h.goto hs hp.symm
  · split
    · split
      · exact h.setDone x (h.leave_of_like hs hp)
      · exact h.leave hs hp
    · split
      · exact h.unwind
      · exact h.goto hs hp.symm

theorem stage_entrance (s : SecurePair κ) (k : Stage) : (s.entrance k).stage = some k := by
  cases k <;> rfl

/-- `_cycle` goes on. -/
theorem Held.goOn (h : s.Held) (hs : s.stack = .cycle depth established p :: below) (a : Answer) :
    (s.goOn depth established below a p).Held := by
  cases p with
  | before k =>
    simp only [SecurePair.goOn]
    split
    · exact h.goto hs (stage_after k)
    · rename_i hlock
      exact h.enter hs rfl ((Bool.not_eq_true _).mp hlock) (stage_entrance s k)
  | tail =>
    have hbelow : Held { s with stack := below } := by
      intro k
      have hk := h k
      rwa [stages, hs] at hk
    simp only [SecurePair.goOn, cycleTail]
    split
    · exact hbelow
    · split
      · exact hbelow.cycle _
      · exact hbelow
  | pull x havePending at' =>
    cases at' with
    | loop => exact h.pullLoop hs rfl a
    | answered tmp cb rv => exact h.pullAnswered hs rfl tmp cb rv
    | closing => exact h.setDone x (h.leave_of_like hs rfl)
    | secure | callback | drain | error => exact h
  | push x at' =>
    cases at' with
    | start =>
      simp only [SecurePair.goOn]
      split
      · exact h.leave hs rfl
      · exact h.goto hs rfl
    | loop =>
      simp only [SecurePair.goOn]
      split
      · exact h.goto hs rfl
      · exact h.leave hs rfl
    | read chunk =>
      have hanswer : (s.answer a).Like s := ⟨rfl, rfl, rfl⟩
      exact (h.of_like hanswer).settle hs rfl a rfl rfl rfl
    | counted chunk chunkBytes => exact h.pushCounted hs rfl a chunk chunkBytes
    | secure | data | error => exact h

theorem Held.behind (h : s.Held) (hs : s.stack = .cycle depth established p :: below) :
    (s.behind depth established below p).Held := by
  cases p with
  | before | tail => exact h
  | pull x havePending at' =>
    cases at' with
    | secure tmp cb rv => exact h.goto hs rfl
    | callback whole =>
      simp only [SecurePair.behind]
      split
      · exact h.goto hs rfl
      · exact Held.unwind (h.goto (q := .pull x havePending .loop) hs rfl)
    | drain | error => exact h.leave hs rfl
    | loop | answered | closing => exact h
  | push x at' =>
    cases at' with
    | secure chunk chunkBytes => exact h.goto hs rfl
    | data => exact h.goto hs rfl
    | error => exact h.leave hs rfl
    | start | loop | read | counted => exact h

theorem Held.fresh (h : s.Held) : s.fresh.Held := by
  unfold SecurePair.fresh
  split
  exacts [fun k ↦ h k, h]

theorem Held.lose (h : s.Held) (x : Side) (data : Data) (cb : Option κ) :
    (s.lose x data cb).Held := by
  unfold SecurePair.lose
  split
  · split
    · exact (h.of_like (like_setStream s x _)).unwind
    · exact h.unwind
  · exact h.unwind

theorem Held.write (h : s.Held) (x : Side) (data : Data) (cb : Option κ) :
    (s.write x data cb).Held := by
  unfold SecurePair.write
  split
  · exact h.lose x data cb
  · split
    · exact h.unwind
    · split
      · rename_i b _
        have henqueue : (s.fresh.enqueue x b cb).Held := h.fresh.of_like ⟨rfl, rfl, rfl⟩
        exact henqueue.cycle 0
      · exact h.unwind

theorem Held.finish (h : s.Held) (x : Side) : (s.finish x).Held :=
  Held.cycle (h.of_like (like_setStream s x _)) 0

theorem Held.throws (h : s.Held) : s.throws.Held := by
  unfold SecurePair.throws
  split
  · rename_i f below hs
    refine Held.unwind fun k ↦ ?_
    have hk := h k
    rw [stages, hs] at hk
    rw [← hk]
    refine List.Perm.count_eq ?_ k
    change (below.filterMap Frame.stage ++ (f.stage.toList ++ s.escaped)).Perm _
    cases hf : f.stage with
    | none => simp [hf]
    | some j => simp [hf]
  · exact h

/-- Each step keeps the count of the locks. -/
theorem Held.step (h : s.Held) (ev : Event κ) : (s.step ev).Held := by
  cases ev with
  | write x data cb => exact h.write x data cb
  | «end» x data =>
    simp only [SecurePair.step, SecurePair.end]
    split
    · exact h.fresh
    · split
      · have hend : Held { s.fresh with stack := .end x :: s.fresh.stack } := fun k ↦ h.fresh k
        exact hend.write x _ none
      · exact h.fresh.finish x
  | destroy => exact h.destroy fun t ht ↦ h.of_like ht
  | pause x => exact h.of_like (t := s.pause x) (like_setStream s x _)
  | resume x => exact Held.cycle (h.fresh.of_like (like_setStream s.fresh x _)) 0
  | start a =>
    have hfresh : Held { s.fresh with started := true } := fun k ↦ h.fresh k
    have hanswer : Held (answer { s.fresh with started := true } a) := fun k ↦ h.fresh k
    exact hfresh.withSsl fun _ ↦ hanswer.cycle 0
  | returns =>
    simp only [SecurePair.step]
    split
    · rename_i hs
      exact h.behind hs
    · exact h
  | throws => exact h.throws
  | go a =>
    simp only [SecurePair.step]
    split
    · rename_i hs
      exact h.goOn hs a
    · rename_i hs
      refine Held.finish (fun k ↦ ?_) _
      have hk := h k
      rwa [stages, hs] at hk
    · exact h

theorem held_of_reaches {isServer rejectUnauthorized : Bool}
    (h : (machine κ).Reaches (create isServer rejectUnauthorized) s) : s.Held := by
  refine h.invariant (p := Held) (fun k ↦ rfl) ?_
  rintro s t ev hs - ht
  obtain rfl := Except.ok.inj ht
  exact hs.step ev

/-- In every run: when no call of `_cycle` is on the stack, all locks are clear if and only if no
exception has left a stage. -/
theorem released_iff {isServer rejectUnauthorized : Bool}
    (h : (machine κ).Reaches (create isServer rejectUnauthorized) s)
    (hstack : ∀ f ∈ s.stack, ¬f.isCycle) :
    (∀ k, s.lock k = false) ↔ s.escaped = [] := by
  have hstages : s.stages = s.escaped := by
    refine List.append_left_eq_self.mpr (List.filterMap_eq_nil_iff.mpr fun f hf ↦ ?_)
    cases f with
    | cycle => exact absurd rfl (hstack _ hf)
    | «end» => rfl
  have hheld := held_of_reaches h
  simp only [Held, hstages] at hheld
  refine ⟨fun hlock ↦ List.eq_nil_iff_forall_not_mem.mpr fun k hk ↦ ?_, fun hnil k ↦ ?_⟩
  · have hcount := hheld k
    rw [hlock k, if_neg Bool.false_ne_true] at hcount
    exact List.count_eq_zero.mp hcount hk
  · have hcount := hheld k
    rw [hnil] at hcount
    by_contra hk
    rw [if_pos ((Bool.not_eq_false _).mp hk)] at hcount
    cases hcount

/-- A byte is written, and accepted. -/
theorem released_write : ∃ s : SecurePair ℕ, (s.stream .cleartext).accepted = [([1], none)] ∧
    ∀ k, s.lock k = false := by
  obtain ⟨s, hs, haccepted, hstack, hescaped⟩ : ∃ s ∈ (machine ℕ).run (create true true)
      (Event.write .cleartext (.ofBytes [1]) none ::
        (List.replicate 3 (Event.go (.number 0)) ++ List.replicate 3 (Event.go (.number 1)) ++
          Event.returns :: List.replicate 11 (Event.go (.number 0)))),
      (s.stream .cleartext).accepted = [([1], none)] ∧ s.stack = [] ∧ s.escaped = [] := by
    decide +kernel
  refine ⟨s, haccepted, (released_iff (Machine.reaches_of_run hs) fun f hf ↦ ?_).mpr hescaped⟩
  rw [hstack] at hf
  cases hf

/-- A listener of `'data'` throws. -/
theorem lock_stays : ∃ s : SecurePair ℕ, (machine ℕ).Reaches (create true true) s ∧ s.stack = [] ∧
    s.lock .cleartextPush = true := by
  obtain ⟨s, hs, hstays⟩ : ∃ s ∈ (machine ℕ).run (create true true)
      (.resume .cleartext :: (List.replicate 7 (Event.go (.number 0)) ++
        Event.go (.number 5) :: List.replicate 3 (Event.go (.number 0)) ++ [Event.throws])),
      s.stack = [] ∧ s.lock .cleartextPush = true := by decide +kernel
  exact ⟨s, Machine.reaches_of_run hs, hstays⟩

end SecurePair

end SpiderNode.Tls
