import SpiderNode.Tls.SecurePair

/-!
# A `SecurePair` that was destroyed

`_destroy` sets `_ssl` to `null`, and it can be called while any other method of the pair is at
work. Most uses of `_ssl` look whether it is there, or follow such a look with nothing in between.
One does not: the callback of `nextTick` in the constructor calls `_ssl.start()`. If the pair is
destroyed before that tick, this is a `TypeError`. `no_fault_of_calm` says that it is the only one.
-/

namespace SpiderNode.Tls.SecurePair

open Function (update)

variable {κ : Type*} {s t : SecurePair κ}

/-- There was no `TypeError`, and a pair that is not destroyed has its connection. -/
structure Sound (s : SecurePair κ) : Prop where
  fault : s.fault = false
  alive : s.done = false → s.ssl ≠ none

theorem Sound.of_eq (h : s.Sound) (hfault : t.fault = s.fault) (hdone : t.done = s.done)
    (hssl : t.ssl = s.ssl) : t.Sound := by
  refine ⟨hfault.trans h.fault, ?_⟩
  rw [hdone, hssl]
  exact h.alive

theorem Sound.unwind (h : s.Sound) : s.unwind.Sound := h.of_eq rfl rfl rfl

theorem Sound.setStream (h : s.Sound) (x : Side) (f : CryptoStream κ → CryptoStream κ) :
    (s.setStream x f).Sound := h.of_eq rfl rfl rfl

theorem Sound.cycle (h : s.Sound) (depth : ℕ) : (s.cycle depth).Sound := by
  unfold SecurePair.cycle
  split
  exacts [h, h.of_eq rfl rfl rfl]

theorem Sound.withSsl {f : Option SslError → SecurePair κ} (hssl : s.ssl ≠ none)
    (hf : ∀ e, s.ssl = some e → (f e).Sound) : (s.withSsl f).Sound := by
  unfold SecurePair.withSsl
  split
  · rename_i e he
    exact hf e he
  · rename_i hnone
    exact absurd hnone hssl

/-- `_destroy` sets `_ssl` to `null` only once. -/
theorem Sound.destroy (h : s.Sound) {next : SecurePair κ → SecurePair κ}
    (hnext : ∀ t : SecurePair κ, t.Sound → (next t).Sound) : (s.destroy next).Sound := by
  unfold SecurePair.destroy
  split
  · exact hnext s h
  · rename_i hdone
    refine Sound.withSsl (h.alive ((Bool.not_eq_true _).mp hdone)) fun e _ ↦ hnext _ ⟨h.fault, ?_⟩
    rintro ⟨⟩

theorem Sound.setDone (h : s.Sound) (x : Side) {next : SecurePair κ → SecurePair κ}
    (hnext : ∀ t : SecurePair κ, t.Sound → (next t).Sound) : (s.setDone x next).Sound := by
  unfold SecurePair.setDone
  dsimp only
  split
  · exact (h.setStream x _).destroy hnext
  · exact hnext _ (h.setStream x _)

variable {depth : ℕ} {established : Bool} {below : List (Frame κ)}

theorem Sound.goto (h : s.Sound) (p : Place κ) : (s.goto depth established below p).Sound :=
  h.of_eq rfl rfl rfl

theorem Sound.leave (h : s.Sound) (k : Stage) : (s.leave depth established below k).Sound :=
  h.of_eq rfl rfl rfl

theorem Sound.error (h : s.Sound) (hssl : s.ssl ≠ none) (k : Stage) (p : Place κ) :
    (s.error depth established below k p).Sound := by
  unfold SecurePair.error
  split
  · exact h.destroy fun t ht ↦ ht.leave k
  · refine Sound.withSsl hssl fun e _ ↦ ?_
    have hclear : Sound { s with ssl := some none } := ⟨h.fault, fun _ ↦ Option.some_ne_none _⟩
    dsimp only
    split
    · exact hclear.destroy fun t ht ↦ ht.leave k
    · exact hclear.goto p

/-- `_error` is only called when there is a connection, with an error. -/
theorem Sound.settle (h : s.Sound) (a : Answer) (k : Stage) (error secure next : Place κ) :
    (s.settle depth established below a k error secure next).Sound := by
  unfold SecurePair.settle
  split
  · rename_i hssl
    exact h.error (hssl ▸ Option.some_ne_none _) k error
  · unfold maybeInitFinished
    split
    · have hsecure : Sound { s with secureEstablished := true } := h.of_eq rfl rfl rfl
      exact hsecure.goto secure
    · exact h.goto next

theorem Sound.answer (h : s.Sound) (a : Answer) : (s.answer a).Sound := by
  refine ⟨h.fault, fun hdone hnone ↦ h.alive hdone ?_⟩
  exact Option.map_eq_none_iff.mp hnone

theorem Sound.pullEof (h : s.Sound) (hssl : s.ssl ≠ none) (x : Side) (havePending : Bool) :
    (s.pullEof depth established below x havePending).Sound := by
  cases x with
  | encrypted => exact ((h.setStream _ _).goto _).cycle 0
  | cleartext => exact Sound.withSsl hssl fun _ _ ↦ ((h.setStream _ _).goto _).cycle 0

theorem Sound.pullData (h : s.Sound) (hssl : s.ssl ≠ none) (a : Answer) (x : Side)
    (havePending : Bool) (b : Bytes) (cb : Option κ) :
    (s.pullData depth established below a x havePending b cb).Sound := by
  unfold SecurePair.pullData
  split
  · exact h.goto _
  · exact Sound.withSsl hssl fun _ _ ↦ ((h.answer a).setStream x _).settle a _ _ _ _

/-- No listener runs between the test of `_ssl` in the loop and its uses. -/
theorem Sound.pullLoop (h : s.Sound) (a : Answer) (x : Side) (havePending : Bool) :
    (s.pullLoop depth established below a x havePending).Sound := by
  unfold SecurePair.pullLoop
  split
  · split
    exacts [h.goto _, h.leave _]
  · split
    · exact h.leave _
    · rename_i hssl
      have hshift : (s.shift x).Sound := h.setStream x _
      dsimp only
      split
      · exact hshift.unwind
      · split
        · exact hshift.pullEof hssl x havePending
        · exact hshift.pullData hssl a x havePending _ _

theorem Sound.pullAnswered (h : s.Sound) (x : Side) (havePending : Bool) (tmp : Bytes)
    (cb : Option κ) (rv : ℤ) :
    (s.pullAnswered depth established below x havePending tmp cb rv).Sound := by
  unfold SecurePair.pullAnswered
  split
  · exact (h.setStream x _).leave _
  · split
    · exact (h.setStream x _).goto _
    · split
      exacts [h.goto _, h.unwind]

theorem Sound.pushCounted (h : s.Sound) (a : Answer) (x : Side) (chunk : Bytes) (chunkBytes : ℤ) :
    (s.pushCounted depth established below a x chunk chunkBytes).Sound := by
  unfold SecurePair.pushCounted pushNothing
  split
  · exact h.goto _
  · split
    · split
      · exact h.setDone x fun t ht ↦ ht.leave _
      · exact h.leave _
    · split
      exacts [h.unwind, h.goto _]

theorem Sound.goOn (h : s.Sound) (a : Answer) (p : Place κ) :
    (s.goOn depth established below a p).Sound := by
  cases p with
  | before k =>
    simp only [SecurePair.goOn]
    split
    · exact h.goto _
    · have hlock : Sound { s with lock := update s.lock k true } := h.of_eq rfl rfl rfl
      exact hlock.goto _
  | tail =>
    have hbelow : Sound { s with stack := below } := h.of_eq rfl rfl rfl
    simp only [SecurePair.goOn, cycleTail]
    split
    · exact hbelow
    · split
      exacts [hbelow.cycle _, hbelow]
  | pull x havePending at' =>
    cases at' with
    | loop => exact h.pullLoop a x havePending
    | answered tmp cb rv => exact h.pullAnswered x havePending tmp cb rv
    | closing => exact h.setDone x fun t ht ↦ ht.leave _
    | secure | callback | drain | error => exact h
  | push x at' =>
    cases at' with
    | start =>
      simp only [SecurePair.goOn]
      split
      exacts [h.leave _, h.goto _]
    | loop =>
      simp only [SecurePair.goOn]
      split
      exacts [h.goto _, h.leave _]
    | read chunk => exact (h.answer a).settle a _ _ _ _
    | counted chunk chunkBytes => exact h.pushCounted a x chunk chunkBytes
    | secure | data | error => exact h

theorem Sound.behind (h : s.Sound) (p : Place κ) :
    (s.behind depth established below p).Sound := by
  unfold SecurePair.behind
  split
  · exact h.goto _
  · split
    exacts [h.goto _, (h.goto _).unwind]
  · exact h.leave _
  · exact h.leave _
  · exact h.goto _
  · exact h.goto _
  · exact h.leave _
  · exact h

theorem Sound.fresh (h : s.Sound) : s.fresh.Sound := by
  unfold SecurePair.fresh
  split
  exacts [h.of_eq rfl rfl rfl, h]

theorem Sound.lose (h : s.Sound) (x : Side) (data : Data) (cb : Option κ) :
    (s.lose x data cb).Sound := by
  unfold SecurePair.lose
  split
  · split
    exacts [(h.setStream x _).unwind, h.unwind]
  · exact h.unwind

theorem Sound.write (h : s.Sound) (x : Side) (data : Data) (cb : Option κ) :
    (s.write x data cb).Sound := by
  unfold SecurePair.write
  split
  · exact h.lose x data cb
  · split
    · exact h.unwind
    · split
      · rename_i b _
        have henqueue : (s.fresh.enqueue x b cb).Sound := h.fresh.of_eq rfl rfl rfl
        exact henqueue.cycle 0
      · exact h.unwind

theorem done_fresh (s : SecurePair κ) : s.fresh.done = s.done := by
  unfold SecurePair.fresh
  split
  exacts [rfl, rfl]

/-- The deferred start finds the pair not yet destroyed. -/
def StartsAlive (s : SecurePair κ) : Event κ → Prop
  | .start _ => s.done = false
  | _ => True

instance : DecidablePred s.StartsAlive
  | .start _ => inferInstanceAs (Decidable (s.done = false))
  | .write .. | .end .. | .destroy | .pause _ | .resume _ | .returns | .throws | .go _ =>
    .isTrue trivial

theorem Sound.step (h : s.Sound) {ev : Event κ} (hev : s.StartsAlive ev) : (s.step ev).Sound := by
  cases ev with
  | write x data cb => exact h.write x data cb
  | «end» x data =>
    simp only [SecurePair.step, SecurePair.end]
    split
    · exact h.fresh
    · split
      · have hend : Sound { s.fresh with stack := .end x :: s.fresh.stack } :=
          h.fresh.of_eq rfl rfl rfl
        exact hend.write x _ none
      · exact (h.fresh.setStream x _).cycle 0
  | destroy => exact h.destroy fun t ht ↦ ht
  | pause x => exact h.of_eq rfl rfl rfl
  | resume x => exact (h.fresh.setStream x _).cycle 0
  | start a =>
    have hfresh : Sound { s.fresh with started := true } := h.fresh.of_eq rfl rfl rfl
    have hdone : s.fresh.done = false := (done_fresh s).trans hev
    exact Sound.withSsl (h.fresh.alive hdone) fun _ _ ↦ (hfresh.answer a).cycle 0
  | returns =>
    simp only [SecurePair.step]
    split
    exacts [h.behind _, h]
  | throws =>
    simp only [SecurePair.step, SecurePair.throws]
    split
    exacts [Sound.unwind (h.of_eq rfl rfl rfl), h]
  | go a =>
    simp only [SecurePair.step]
    split
    · exact h.goOn a _
    · rename_i x below _
      have hbelow : Sound { s with stack := below } := h.of_eq rfl rfl rfl
      exact (hbelow.setStream x _).cycle 0
    · exact h

/-- In every run in which the pair is not destroyed before its deferred start, no method of `null`
is called. -/
theorem no_fault_of_calm {isServer rejectUnauthorized : Bool}
    (h : ((machine κ).restrict StartsAlive).Reaches (create isServer rejectUnauthorized) s) :
    s.fault = false := by
  have hsound : s.Sound := by
    refine h.invariant (p := Sound) ⟨rfl, fun _ ↦ Option.some_ne_none _⟩ ?_
    rintro s t ev hs ⟨-, hev⟩ ht
    obtain rfl := Except.ok.inj ht
    exact hs.step hev
  exact hsound.fault

/-- A pair that is started, and then destroyed by a listener of `'data'`. -/
theorem no_fault_of_calm_data : ∃ s : SecurePair ℕ, s.fault = false ∧ s.ssl = none := by
  have hrun := Machine.reaches_of_run (M := (machine ℕ).restrict StartsAlive)
    (s := create true true)
    (l := .start (.number 0) :: (List.replicate 7 (Event.go (.number 0)) ++
      Event.go (.number 5) :: List.replicate 3 (Event.go (.number 0)) ++
        [Event.destroy, Event.returns, Event.go (.number 0)])) rfl
  exact ⟨_, no_fault_of_calm hrun, rfl⟩

/-- The pair is destroyed before its deferred start. -/
theorem start_faults : ∃ s : SecurePair ℕ, (machine ℕ).Reaches (create true true) s ∧
    s.fault = true :=
  ⟨_, Machine.reaches_of_run (l := [.destroy, .start (.number 0)]) rfl, rfl⟩

end SpiderNode.Tls.SecurePair
