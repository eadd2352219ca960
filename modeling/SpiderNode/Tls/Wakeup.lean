import SpiderNode.Tls.Queues

/-!
# Data that waits in a `SecurePair`

When `write` finds the stage of its stream locked, it leaves the data in `_pending`. In most places
this is enough: the `_pull` that has the lock goes on with its loop. But behind the loop `_pull`
emits `'drain'`, and does not look at `_pending` again. `_cycle` has `_writeCalled` for this, which
should make it run once more; but `write` sets it before it calls `_cycle`, which clears it.

So a pair does not strand data if no stream is written to while its own `_pull` runs the listeners
of `'drain'`, and no cleartext without a text makes a stage throw. What has been written then is
offered, or the last offer was refused, or some call `Will` offer it.
-/

namespace SpiderNode.Tls

open Function (update)

namespace Frame

variable {κ : Type*}

/-- The stream whose `_pull` runs the listeners of `'drain'`. -/
def draining : Frame κ → Option Side
  | cycle _ _ (.pull x _ .drain) => some x
  | _ => none

/-- The stream whose `_pull` is in its loop. -/
def pulling : Frame κ → Option Side
  | cycle _ _ (.pull _ _ .drain) => none
  | cycle _ _ (.pull x _ _) => some x
  | _ => none

/-- The stage of `_pull` is still to come. -/
def ahead (x : Side) : Frame κ → Prop
  | cycle _ _ (.before .encryptedPull) => True
  | cycle _ _ (.before .cleartextPull) | cycle _ _ (.pull .encrypted _ _) => x = .cleartext
  | _ => False

/-- The answer to what `_pull` has offered. -/
def answer (x : Side) : Frame κ → Option Bool
  | cycle _ _ (.pull y _ (.secure _ _ rv)) | cycle _ _ (.pull y _ (.answered _ _ rv)) =>
    if y = x then some (decide (0 < rv)) else none
  | _ => none

variable {f : Frame κ} {x : Side}

theorem stage_of_draining (h : f.draining = some x) : f.stage = some x.pull := by
  revert h
  rcases f with ⟨_, _, _ | ⟨y, _, _⟩ | _ | _⟩ | _
  case cycle.pull p =>
    cases p with
    | drain => exact congrArg (Option.map Side.pull)
    | _ => exact nofun
  all_goals exact nofun

theorem stage_of_pulling (h : f.pulling = some x) : f.stage = some x.pull := by
  revert h
  rcases f with ⟨_, _, _ | ⟨y, _, _⟩ | _ | _⟩ | _
  case cycle.pull p =>
    cases p with
    | drain => exact nofun
    | _ => exact congrArg (Option.map Side.pull)
  all_goals exact nofun

theorem stage_of_answer {r : Bool} (h : r ∈ f.answer x) : f.stage = some x.pull := by
  revert h
  rcases f with ⟨_, _, _ | ⟨y, _, _⟩ | _ | _⟩ | _
  case cycle.pull p =>
    cases p with
    | secure | answered =>
      intro h
      simp only [answer] at h
      split at h
      · rename_i hy
        exact congrArg (fun y ↦ some (Side.pull y)) hy
      · cases h
    | _ => exact nofun
  all_goals exact nofun

/-- A call in the stage of `_pull` is in its loop or behind it. -/
theorem pulling_or_draining (h : f.stage = some x.pull) :
    f.pulling = some x ∨ f.draining = some x := by
  rcases f with ⟨_, _, _ | ⟨y, _, p⟩ | ⟨y, p⟩ | _⟩ | _
  case cycle.pull =>
    obtain rfl := Side.pull_injective (Option.some.inj h)
    cases p with
    | drain => exact .inr rfl
    | _ => exact .inl rfl
  case cycle.push => exact absurd (Option.some.inj h).symm (Side.pull_ne_push x y)
  all_goals cases h

end Frame

namespace SecurePair

variable {κ : Type*} {s t : SecurePair κ} {depth : ℕ} {established : Bool} {below : List (Frame κ)}
  {p q : Place κ} {f g : Frame κ} {x y : Side} {ev : Event κ}

/-- No stream is written to while its own `_pull` runs the listeners of `'drain'`. -/
def Awaited (s : SecurePair κ) : Event κ → Prop
  | .write x _ _ => ∀ f ∈ s.stack, f.draining ≠ some x
  | _ => True

def Calm (s : SecurePair κ) (ev : Event κ) : Prop := s.Plain ev ∧ s.Awaited ev

/-- A call will look at `_pending`. -/
def Will (s : SecurePair κ) (x : Side) : Prop :=
  ∃ f ∈ s.stack, f.pulling = some x ∨ s.lock x.pull = false ∧ f.ahead x

/-- What has been written is offered. -/
structure Awake (s : SecurePair κ) (x : Side) : Prop where
  wakes : (s.stream x).pending = [] ∨ (s.stream x).attempt = some false ∨ s.Will x
  drained : ∀ f ∈ s.stack, f.draining = some x → (s.stream x).pending = []
  attempt : ∀ f ∈ s.stack, ∀ r ∈ f.answer x, (s.stream x).attempt = some r

/-! ## A frame goes on -/

/-- The frame on top changes, and is no farther from the loop than before. -/
theorem Awake.goto (h : s.Awake x) (hs : s.stack = f :: below) (ht : t.stack = g :: below)
    (hpending : (t.stream x).pending = (s.stream x).pending)
    (hattempt : (t.stream x).attempt = (s.stream x).attempt)
    (hlock : t.lock x.pull = s.lock x.pull)
    (hpulling : f.pulling = some x → g.pulling = some x)
    (hahead : s.lock x.pull = false → f.ahead x → g.ahead x)
    (hdraining : g.draining = some x → f.draining = some x)
    (hanswer : ∀ r ∈ g.answer x, r ∈ f.answer x) : t.Awake x := by
  have hbelow {e : Frame κ} (he : e ∈ below) : e ∈ s.stack := hs ▸ List.mem_cons_of_mem _ he
  have htop : f ∈ s.stack := hs ▸ List.mem_cons_self
  refine ⟨?_, ?_, ?_⟩
  · rw [hpending, hattempt]
    refine h.wakes.imp_right (Or.imp_right ?_)
    rintro ⟨e, he, hwill⟩
    rw [hs] at he
    rw [Will, ht, hlock]
    obtain rfl | he := List.mem_cons.mp he
    · exact ⟨g, List.mem_cons_self, hwill.imp hpulling fun hc ↦ ⟨hc.1, hahead hc.1 hc.2⟩⟩
    · exact ⟨e, List.mem_cons_of_mem _ he, hwill⟩
  · rw [hpending, ht]
    rintro e (_ | ⟨_, he⟩)
    · exact fun hg ↦ h.drained f htop (hdraining hg)
    · exact h.drained e (hbelow he)
  · rw [hattempt, ht]
    rintro e (_ | ⟨_, he⟩)
    · exact fun r hr ↦ h.attempt f htop r (hanswer r hr)
    · exact h.attempt e (hbelow he)

/-- The frame on top is in the loop of the stream, and alone there. -/
theorem awake_of_pulling (hbelow : ∀ f ∈ below, f.stage ≠ some x.pull) (ht : t.stack = g :: below)
    (hg : g.pulling = some x) (hanswer : ∀ r ∈ g.answer x, (t.stream x).attempt = some r) :
    t.Awake x := by
  refine ⟨.inr (.inr ⟨g, ht ▸ List.mem_cons_self, .inl hg⟩), ?_, ?_⟩
  · rw [ht]
    rintro e (_ | ⟨_, he⟩) hdraining
    · rcases g with ⟨_, _, _ | ⟨_, _, _⟩ | _ | _⟩ | _
      case cycle.pull p =>
        cases p with
        | drain => cases hg
        | _ => cases hdraining
      all_goals cases hg
    · exact absurd (Frame.stage_of_draining hdraining) (hbelow e he)
  · rw [ht]
    rintro e (_ | ⟨_, he⟩) r hr
    · exact hanswer r hr
    · exact absurd (Frame.stage_of_answer hr) (hbelow e he)

/-- `_pull` has returned, and no other call of it is there. -/
theorem awake_of_left (hbelow : ∀ f ∈ below, f.stage ≠ some x.pull) (ht : t.stack = g :: below)
    (hg : g.stage ≠ some x.pull)
    (hwakes : (t.stream x).pending = [] ∨ (t.stream x).attempt = some false) : t.Awake x := by
  have hstack : ∀ f ∈ t.stack, f.stage ≠ some x.pull := by
    rw [ht]
    rintro e (_ | ⟨_, he⟩)
    exacts [hg, hbelow e he]
  exact ⟨hwakes.imp_right .inl, fun f hf hdraining ↦
    absurd (Frame.stage_of_draining hdraining) (hstack f hf), fun f hf r hr ↦
    absurd (Frame.stage_of_answer hr) (hstack f hf)⟩

/-- A stage of `_pull` of the other stream goes on. -/
theorem Awake.pull_other (h : s.Awake x) (hxy : x ≠ y) {havePending havePending' : Bool}
    {p q : PullAt κ} (hs : s.stack = .cycle depth established (.pull y havePending p) :: below)
    (hstream : t.stream x = s.stream x) (hlock : t.lock x.pull = s.lock x.pull) :
    (t.goto depth established below (.pull y havePending' q)).Awake x := by
  have hnone (b : Bool) (p : PullAt κ) :
      (Frame.cycle depth established (.pull y b p)).pulling ≠ some x ∧
        (Frame.cycle depth established (.pull y b p)).draining ≠ some x ∧
          (Frame.cycle depth established (.pull y b p)).answer x = none := by
    have hy : some y ≠ some x := fun hy ↦ hxy (Option.some.inj hy).symm
    cases p with
    | secure | answered => exact ⟨hy, nofun, if_neg fun hc ↦ hxy hc.symm⟩
    | drain => exact ⟨nofun, hy, rfl⟩
    | _ => exact ⟨hy, nofun, rfl⟩
  refine h.goto hs rfl (congrArg _ hstream) (congrArg _ hstream) hlock
    (fun hf ↦ absurd hf (hnone havePending p).1) ?_
    (fun hg ↦ absurd hg (hnone havePending' q).2.1) fun r hr ↦ ?_
  · cases y <;> exact fun _ ↦ id
  · rw [(hnone havePending' q).2.2] at hr
    cases hr

/-- A stage returns that is not the one of `_pull`. -/
theorem Awake.leave_other {k : Stage} (h : s.Awake x) (hk : k ≠ x.pull)
    (hs : s.stack = .cycle depth established p :: below) (hp : p.stage = some k)
    (hstream : t.stream x = s.stream x) (hlock : t.lock x.pull = s.lock x.pull) :
    (t.leave depth established below k).Awake x := by
  have hstage : (Frame.cycle depth established p).stage ≠ some x.pull :=
    fun hc ↦ hk (Option.some.inj (hp.symm.trans hc))
  refine h.goto hs rfl (congrArg _ hstream) (congrArg _ hstream)
    ((Function.update_of_ne (Ne.symm hk) ..).trans hlock)
    (fun hf ↦ absurd (Frame.stage_of_pulling hf) hstage) ?_ ?_ ?_
  · cases p with
    | pull y _ _ =>
      obtain rfl := Option.some.inj hp
      cases y with
      | encrypted => exact fun _ ↦ id
      | cleartext => exact fun _ ↦ nofun
    | before | tail => cases hp
    | push => exact fun _ ↦ nofun
  · cases k <;> exact nofun
  · cases k <;> exact nofun

/-! ## Calls of `_cycle` -/

/-- A call of `_cycle` looks at `_pending` if the stage is not locked; and if it is, then some other
call does, or has just emptied it. -/
theorem awake_cycle (hdone : t.done = false) (hescaped : t.escaped = []) (hheld : t.Held)
    (hdrained : ∀ f ∈ t.stack, f.draining = some x → (t.stream x).pending = [])
    (hattempt : ∀ f ∈ t.stack, ∀ r ∈ f.answer x, (t.stream x).attempt = some r) (n : ℕ) :
    (t.cycle n).Awake x := by
  have hcycle : (t.cycle n).stack =
      .cycle n t.secureEstablished (.before .encryptedPull) :: t.stack ∧
      (t.cycle n).stream = t.stream ∧ (t.cycle n).lock = t.lock := by
    unfold SecurePair.cycle
    rw [if_neg (hdone ▸ Bool.false_ne_true)]
    exact ⟨rfl, rfl, rfl⟩
  obtain ⟨hstack, hstream, hlock⟩ := hcycle
  refine ⟨?_, ?_, ?_⟩
  · rw [hstream, Will, hstack, hlock]
    cases hpull : t.lock x.pull with
    | false => exact .inr (.inr ⟨_, List.mem_cons_self, .inr ⟨rfl, trivial⟩⟩)
    | true =>
      have hmem : x.pull ∈ t.stages := by
        have hcount := hheld x.pull
        rw [hpull, if_pos rfl] at hcount
        exact List.count_pos_iff.mp (hcount ▸ Nat.one_pos)
      rw [stages, hescaped, List.append_nil] at hmem
      obtain ⟨f, hf, hstage⟩ := List.mem_filterMap.mp hmem
      obtain hpulling | hdraining := Frame.pulling_or_draining hstage
      · exact .inr (.inr ⟨f, List.mem_cons_of_mem _ hf, .inl hpulling⟩)
      · exact .inl (hdrained f hf hdraining)
  · rw [hstream, hstack]
    rintro f (_ | ⟨_, hf⟩)
    · rintro ⟨⟩
    · exact hdrained f hf
  · rw [hstream, hstack]
    rintro f (_ | ⟨_, hf⟩)
    · rintro _ ⟨⟩
    · exact hattempt f hf

theorem fresh_stack (s : SecurePair κ) : s.fresh.stack = s.stack := by
  unfold fresh
  split
  exacts [rfl, rfl]

theorem fresh_pending (s : SecurePair κ) (x : Side) :
    (s.fresh.stream x).pending = (s.stream x).pending := by
  unfold fresh
  split
  exacts [rfl, rfl]

/-- The answers are those of the calls that are there. -/
theorem Awake.attempt_fresh (h : s.Awake x) :
    ∀ f ∈ s.fresh.stack, ∀ r ∈ f.answer x, (s.fresh.stream x).attempt = some r := by
  unfold SecurePair.fresh
  split
  · rename_i hs
    intro f hf
    rw [show _ = [] from hs] at hf
    cases hf
  · exact h.attempt

/-- The program calls the pair, which does something to the streams and calls `_cycle`. -/
theorem Awake.call (h : s.Awake x) (hquiet : s.Quiet) (hheld : s.Held)
    (hdone : t.done = s.fresh.done) (hlike : t.Like s.fresh)
    (hpending : (∀ f ∈ s.stack, f.draining ≠ some x) ∨
      (t.stream x).pending = (s.stream x).pending)
    (hattempt : (t.stream x).attempt = (s.fresh.stream x).attempt) : (t.cycle 0).Awake x := by
  refine awake_cycle (hdone.trans hquiet.fresh.done) (hlike.escaped.trans hquiet.fresh.escaped)
    (hheld.fresh.of_like hlike) ?_ ?_ 0
  · rw [hlike.stack, fresh_stack]
    intro f hf hdraining
    obtain hnone | hsame := hpending
    · exact absurd hdraining (hnone f hf)
    · exact hsame.trans (h.drained f hf hdraining)
  · rw [hlike.stack, hattempt]
    exact h.attempt_fresh

/-! ## Moves -/

theorem Awake.of_same (h : s.Awake x) (hstack : t.stack = s.stack) (hlock : t.lock = s.lock)
    (hpending : (t.stream x).pending = (s.stream x).pending)
    (hattempt : (t.stream x).attempt = (s.stream x).attempt) : t.Awake x := by
  refine ⟨?_, ?_, ?_⟩
  · rw [hpending, hattempt, Will, hstack, hlock]
    exact h.wakes
  · rw [hpending, hstack]
    exact h.drained
  · rw [hattempt, hstack]
    exact h.attempt

/-- A change of other fields of a stream. -/
theorem setStream_same (s : SecurePair κ) (x y : Side) {f : CryptoStream κ → CryptoStream κ}
    (hf : ∀ c, (f c).pending = c.pending ∧ (f c).attempt = c.attempt) :
    ((s.setStream y f).stream x).pending = (s.stream x).pending ∧
      ((s.setStream y f).stream x).attempt = (s.stream x).attempt := by
  by_cases hxy : x = y
  · subst hxy
    rw [setStream_self]
    exact hf _
  · rw [setStream_ne hxy]
    exact ⟨rfl, rfl⟩

/-- A frame that does not matter returns. -/
theorem Awake.pop (h : s.Awake x) (hs : s.stack = f :: below) (hpulling : f.pulling ≠ some x)
    (hahead : ¬f.ahead x) : Awake { s with stack := below } x := by
  have hbelow {e : Frame κ} (he : e ∈ below) : e ∈ s.stack := hs ▸ List.mem_cons_of_mem _ he
  refine ⟨h.wakes.imp_right (Or.imp_right ?_), fun e he ↦ h.drained e (hbelow he),
    fun e he ↦ h.attempt e (hbelow he)⟩
  rintro ⟨e, he, hwill⟩
  rw [hs] at he
  obtain rfl | he := List.mem_cons.mp he
  · exact absurd hwill (not_or.mpr ⟨hpulling, fun hc ↦ hahead hc.2⟩)
  · exact ⟨e, he, hwill⟩

theorem Awake.enter {k : Stage} (h : s.Awake x) (hheld : s.Held)
    (hs : s.stack = .cycle depth established (.before k) :: below) (hlock : s.lock k = false) :
    (SecurePair.goto { s with lock := update s.lock k true } depth established below
      (s.entrance k)).Awake x := by
  by_cases hk : k = x.pull
  · have hbelow : ∀ f ∈ below, f.stage ≠ some x.pull := by
      intro f hf hstage
      have hcount := hheld x.pull
      rw [← hk, hlock, if_neg Bool.false_ne_true] at hcount
      refine List.count_eq_zero.mp hcount
        (List.mem_append_left _ (List.mem_filterMap.mpr ⟨f, ?_, ?_⟩))
      exacts [hs ▸ List.mem_cons_of_mem _ hf, hstage.trans (congrArg some hk.symm)]
    subst hk
    refine awake_of_pulling hbelow rfl ?_ ?_
    · cases x <;> rfl
    · cases x <;> exact nofun
  · refine h.goto hs rfl rfl rfl (Function.update_of_ne (Ne.symm hk) ..) nofun ?_ ?_ ?_
    · cases k with
      | encryptedPull =>
        cases x with
        | encrypted => exact absurd rfl hk
        | cleartext => exact fun _ _ ↦ rfl
      | cleartextPull =>
        rintro - rfl
        exact absurd rfl hk
      | _ => exact fun _ ↦ nofun
    · cases k <;> exact nofun
    · cases k <;> exact nofun

theorem Awake.skip {k : Stage} (h : s.Awake x)
    (hs : s.stack = .cycle depth established (.before k) :: below) (hlock : s.lock k = true) :
    (s.goto depth established below k.after).Awake x := by
  refine h.goto hs rfl rfl rfl rfl nofun ?_ ?_ ?_
  · cases k with
    | encryptedPull =>
      cases x with
      | encrypted => exact fun hpull ↦ absurd (hpull.symm.trans hlock) Bool.false_ne_true
      | cleartext => exact fun _ _ ↦ rfl
    | cleartextPull =>
      rintro hpull rfl
      exact absurd (hpull.symm.trans hlock) Bool.false_ne_true
    | _ => exact fun _ ↦ nofun
  · cases k <;> exact nofun
  · cases k <;> exact nofun

/-- A stage returns. -/
theorem Awake.leave {k : Stage} (h : s.Awake x) (hheld : s.Held)
    (hs : s.stack = .cycle depth established p :: below) (hp : p.stage = some k)
    (hpending : k = x.pull → (s.stream x).pending = []) :
    (s.leave depth established below k).Awake x := by
  by_cases hk : k = x.pull
  · subst hk
    exact awake_of_left (hheld.alone hs hp) rfl (by cases x <;> exact nofun) (.inl (hpending rfl))
  · exact h.leave_other hk hs hp rfl rfl

theorem Move.awake (h : s.Awake x) (hquiet : s.Quiet) (hheld : s.Held) (hcalm : s.Calm ev)
    (hm : s.Move ev t) : t.Awake x := by
  cases hm with
  | pause y =>
    obtain ⟨hpending, hattempt⟩ := setStream_same s x y
      (f := fun c ↦ { c with writeState := false }) fun _ ↦ ⟨rfl, rfl⟩
    exact h.of_same rfl rfl hpending hattempt
  | unmade => exact h
  | @write y data b cb hev _ =>
    subst hev
    by_cases hxy : x = y
    · subst hxy
      have hstream : (s.fresh.enqueue x b cb).stream x = _ := setStream_self _ x _
      exact h.call hquiet hheld rfl ⟨rfl, rfl, rfl⟩ (.inl hcalm.2) (by rw [hstream])
    · have hstream : (s.fresh.enqueue y b cb).stream x = s.fresh.stream x := setStream_ne hxy _
      exact h.call hquiet hheld rfl ⟨rfl, rfl, rfl⟩ (.inr (hstream ▸ fresh_pending s x))
        (by rw [hstream])
  | resume y =>
    obtain ⟨hpending, hattempt⟩ := setStream_same s.fresh x y
      (f := fun c ↦ { c with writeState := true }) fun _ ↦ ⟨rfl, rfl⟩
    exact h.call hquiet hheld rfl ⟨rfl, rfl, rfl⟩ (.inr (hpending.trans (fresh_pending s x)))
      hattempt
  | start ht =>
    refine h.call hquiet hheld ht.done ⟨ht.lock, ht.stack, ht.escaped⟩ (.inr ?_) ?_
    · rw [ht.stream]
      exact fresh_pending s x
    · rw [ht.stream]
  | skip hs hlock => exact h.skip hs hlock
  | enter hs hlock => exact h.enter hheld hs hlock
  | @drain _ _ y below hs hpending =>
    by_cases hxy : x = y
    · subst hxy
      refine ⟨.inl hpending, fun _ _ _ ↦ hpending, ?_⟩
      rintro f (_ | ⟨_, hf⟩)
      exacts [nofun, h.attempt f (hs ▸ List.mem_cons_of_mem _ hf)]
    · exact h.pull_other hxy hs rfl rfl
  | leave hs hstage hpull =>
    refine h.leave hheld hs hstage fun hk ↦ ?_
    obtain ⟨_, rfl⟩ | ⟨hpending, -⟩ := hpull x hk
    · exact h.drained _ (hs ▸ List.mem_cons_self) rfl
    · exact hpending
  | @empty _ _ y _ _ _ hs =>
    by_cases hxy : x = y
    · subst hxy
      exact awake_of_pulling (hheld.alone hs rfl) rfl rfl nofun
    · exact h.pull_other hxy hs (setStream_ne hxy _) rfl
  | @offer t _ _ y _ _ b _ a p hs _ _ _ _ ht hp =>
    by_cases hxy : x = y
    · subst hxy
      have hattempt : (t.stream x).attempt = some (decide (0 < a.rv)) := by
        rw [ht.stream]
        exact congrArg CryptoStream.attempt (setStream_self _ x _)
      refine awake_of_pulling (hheld.alone hs rfl) rfl ?_ fun r hr ↦ hattempt.trans ?_
      · obtain rfl | rfl := hp <;> rfl
      · obtain rfl | rfl := hp <;> exact (if_pos rfl).symm.trans hr
    · have hshift : (s.shift y).stream x = s.stream x := setStream_ne hxy _
      have hstream : t.stream x = s.stream x :=
        (congrFun ht.stream x).trans ((setStream_ne hxy _).trans hshift)
      exact h.pull_other hxy hs hstream (congrFun ht.lock _)
  | @refused _ _ y _ b cb rv _ hs hrv =>
    by_cases hxy : x = y
    · subst hxy
      have hattempt : (s.stream x).attempt = some false := by
        refine h.attempt _ (hs ▸ List.mem_cons_self) false ?_
        rw [← decide_eq_false (Int.not_lt.mpr hrv)]
        exact if_pos rfl
      have hunshift : (s.unshift x b cb).stream x = _ := setStream_self s x _
      refine awake_of_left (hheld.alone hs rfl) rfl (by cases x <;> exact nofun) (.inr ?_)
      exact (congrArg CryptoStream.attempt hunshift).trans hattempt
    · exact h.leave_other (fun hc ↦ hxy (Side.pull_injective hc).symm) hs rfl (setStream_ne hxy _)
        rfl
  | @called _ _ y _ _ _ _ _ hs =>
    by_cases hxy : x = y
    · subst hxy
      exact awake_of_pulling (hheld.alone hs rfl) rfl rfl nofun
    · exact h.pull_other hxy hs (setStream_ne hxy _) rfl
  | @accepted _ _ y _ _ _ _ hs =>
    by_cases hxy : x = y
    · subst hxy
      exact awake_of_pulling (hheld.alone hs rfl) rfl rfl nofun
    · exact h.pull_other hxy hs rfl rfl
  | inside hs ht _ hpq =>
    refine h.goto hs rfl (congrArg _ (congrFun ht.stream x)) (congrArg _ (congrFun ht.stream x))
      (congrFun ht.lock _) ?_ ?_ ?_ ?_
    all_goals
      obtain ⟨y, _, _, rfl, rfl⟩ | ⟨y, _, _, _, _, rfl, rfl⟩ | ⟨y, _, rfl, rfl⟩ := hpq
    all_goals first | exact id | (cases y <;> exact fun _ ↦ id)
  | finish hs => exact h.pop hs nofun id
  | @again _ _ below hs =>
    have hbelow := h.pop hs nofun id
    have hheld' : Held { s with stack := below } := fun k ↦ by
      have hk := hheld k
      rwa [stages, hs] at hk
    exact awake_cycle (t := { s with stack := below }) hquiet.done hquiet.escaped hheld'
      hbelow.drained hbelow.attempt _

theorem awake_of_calm {isServer rejectUnauthorized : Bool}
    (h : ((machine κ).restrict Calm).Reaches (create isServer rejectUnauthorized) s) (x : Side) :
    s.Awake x := by
  refine h.invariant_of (p := fun s ↦ s.Awake x) (q := fun s ↦ s.Quiet ∧ s.Held)
    (fun h ↦ ⟨quiet_of_plain (h.restrict_mono And.left), held_of_reaches h.of_restrict⟩)
    ⟨.inl rfl, nofun, nofun⟩ ?_
  rintro s t ev ⟨hquiet, hheld⟩ hs ⟨hallows, hcalm⟩ ht
  obtain rfl := Except.ok.inj ht
  exact (hquiet.move hallows hcalm.1).awake hs hquiet hheld hcalm

/-- In every run without errors and ends in which all cleartext has a text and no stream is written
to while its own `_pull` runs the listeners of `'drain'`: when the outermost call of `_cycle` has
returned, nothing is pending or the last offer in it was refused. -/
theorem offered_of_calm {isServer rejectUnauthorized : Bool}
    (h : ((machine κ).restrict Calm).Reaches (create isServer rejectUnauthorized) s)
    (hstack : s.stack = []) (x : Side) :
    (s.stream x).pending = [] ∨ (s.stream x).attempt = some false := by
  obtain hpending | hattempt | ⟨f, hf, -⟩ := (awake_of_calm h x).wakes
  · exact .inl hpending
  · exact .inr hattempt
  · rw [hstack] at hf
    cases hf

instance (s : SecurePair κ) : DecidablePred s.Awaited
  | .write x _ _ => inferInstanceAs (Decidable (∀ f ∈ s.stack, f.draining ≠ some x))
  | .end .. | .destroy | .pause _ | .resume _ | .start _ | .returns | .throws | .go _ =>
    isTrue trivial

instance (s : SecurePair κ) : DecidablePred s.Calm := fun ev ↦
  inferInstanceAs (Decidable (s.Plain ev ∧ s.Awaited ev))

/-- A listener of `'drain'` writes to the other stream. -/
theorem offered_of_calm_write : ∃ s : SecurePair ℕ,
    (s.stream .encrypted).written = [([2], none)] ∧ (s.stream .encrypted).pending = [] := by
  obtain ⟨s, hs, hwritten, hstack, hattempt⟩ :
      ∃ s ∈ ((machine ℕ).restrict Calm).run (create true true)
        (Event.write .cleartext (.ofBytes [1]) none ::
          (List.replicate 3 (Event.go (.number 0)) ++ List.replicate 3 (Event.go (.number 1)) ++
            Event.write .encrypted (.ofBytes [2]) none :: List.replicate 4 (Event.go (.number 1)) ++
              Event.returns :: List.replicate 12 (Event.go (.number 0)) ++
                Event.returns :: List.replicate 11 (Event.go (.number 0)))),
        (s.stream .encrypted).written = [([2], none)] ∧ s.stack = [] ∧
          (s.stream .encrypted).attempt ≠ some false := by decide +kernel
  exact ⟨s, hwritten,
    (offered_of_calm (Machine.reaches_of_run hs) hstack .encrypted).resolve_right hattempt⟩

/-- A listener of `'drain'` writes to its own stream. The connection has accepted all that it was
offered, and is not offered this. -/
theorem strands_data : ∃ s : SecurePair ℕ,
    ((machine ℕ).restrict Plain).Reaches (create true true) s ∧ s.stack = [] ∧
      (s.stream .cleartext).pending = [.data [2]] ∧
      (s.stream .cleartext).attempt = some true := by
  obtain ⟨s, hs, hstays⟩ : ∃ s ∈ ((machine ℕ).restrict Plain).run (create true true)
      (Event.write .cleartext (.ofBytes [1]) none ::
        (List.replicate 3 (Event.go (.number 0)) ++ List.replicate 3 (Event.go (.number 1)) ++
          Event.write .cleartext (.ofBytes [2]) none :: List.replicate 14 (Event.go (.number 0)) ++
            Event.returns :: List.replicate 11 (Event.go (.number 0)))),
      s.stack = [] ∧ (s.stream .cleartext).pending = [.data [2]] ∧
        (s.stream .cleartext).attempt = some true := by decide +kernel
  exact ⟨s, Machine.reaches_of_run hs, hstays⟩

end SecurePair

end SpiderNode.Tls
