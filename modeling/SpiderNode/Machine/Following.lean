import SpiderNode.Machine.Scanner

/-!
# Consumers that follow others

A consumer that may refuse what it is told, or that minds how a text is cut, is not lawful. A
simpler one that does the same on the input in question can be, if it gives up where it would not do
the same. `Consumer.Follows` is that `g` does what `k` does, up to where it has the state `none`.

`execute_follows` is that a scanner does not tell the two apart unless `g` gives up. What `g` takes
to its end, `k` takes to its end (`feed_of_follows`).
-/

namespace Scanner

variable {β C D E R σ τ : Type*}

/-- `g` does what `k` does in the state that stands for its own, or gives up for good. -/
structure Consumer.Follows (g : Consumer β D E (Option τ)) (k : Consumer β D E σ) (f : τ → σ) :
    Prop where
  data_none (d : D) (x : List β) : (g.data d x none).1 = none
  body_none (x : List β) : (g.body x none).1 = none
  notify_none (e : E) : (g.notify e none).1 = none
  data (d : D) (x : List β) {t t' : τ} : (g.data d x (some t)).1 = some t' →
    k.data d x (f t) = (f t', (g.data d x (some t)).2)
  body (x : List β) {t t' : τ} : (g.body x (some t)).1 = some t' → (k.body x (f t)).1 = f t'
  notify (e : E) {t t' : τ} : (g.notify e (some t)).1 = some t' →
    k.notify e (f t) = (f t', (g.notify e (some t)).2)

/-! ## Other states of the user -/

/-- The frame with another state of the user. -/
def Frame.mapUser (f : σ → τ) (x : Frame D σ) : Frame D τ := ⟨x.marks, x.p, f x.user⟩

namespace Pass

def mapUser (f : σ → τ) : Pass C D R σ → Pass C D R τ
  | .ok c x => .ok c (x.mapUser f)
  | .stopped r c x => .stopped r c (x.mapUser f)

def user : Pass C D R σ → σ
  | .ok _ x | .stopped _ _ x => x.user

end Pass

namespace Outcome

def mapUser (f : σ → τ) : Outcome C R σ → Outcome C R τ
  | .ok c user => .ok c (f user)
  | .stopped r c p user => .stopped r c p (f user)

def user : Outcome C R σ → σ
  | .ok _ user | .stopped _ _ _ user => user

end Outcome

theorem Outcome.mapUser_some_injective :
    Function.Injective (mapUser (C := C) (R := R) (some : τ → Option τ)) := by
  rintro (⟨c, t⟩ | ⟨r, c, p, t⟩) (⟨c', t'⟩ | ⟨r', c', p', t'⟩) h <;> cases h <;> rfl

theorem user_outcome (q : Pass C D R σ) : q.outcome.user = q.user := by
  cases q <;> rfl

theorem outcome_mapUser (f : σ → τ) (q : Pass C D R σ) :
    (q.mapUser f).outcome = q.outcome.mapUser f := by
  cases q <;> rfl

/-! ## Runs -/

variable [DecidableEq D] {g : Consumer β D E (Option τ)} {k : Consumer β D E σ} {f : τ → σ}

/-- A consumer that has given up takes nothing. -/
theorem Code.run_none (h : g.Follows k f) (input : List β) (code : Code C D E R)
    {x : Frame D (Option τ)} (hx : x.user = none) : (code.run g input x).user = none := by
  induction code generalizing x with
  | next c => exact hx
  | stop r c => exact hx
  | mark d rest ih => exact ih (x := { x with marks := Function.update x.marks d (some x.p) }) hx
  | callback d rest ih =>
    rw [Code.run]
    split
    · exact ih 0 hx
    · refine ih _ ?_
      simp only [hx, h.data_none]
  | body n rest ih =>
    rw [Code.run]
    refine ih ?_
    simp only [hx, h.body_none]
  | notify e rest ih =>
    rw [Code.run]
    refine ih _ ?_
    simp only [hx, h.notify_none]

/-- **A step.** `g` has given up, or `k` has been told the same. -/
theorem Code.run_follows (h : g.Follows k f) (input : List β) (code : Code C D E R)
    (x : Frame D τ) :
    (code.run g input (x.mapUser some)).user = none ∨
      ∃ q : Pass C D R τ, code.run g input (x.mapUser some) = q.mapUser some ∧
        code.run k input (x.mapUser f) = q.mapUser f := by
  induction code generalizing x with
  | next c => exact .inr ⟨.ok c { x with p := x.p + 1 }, rfl, rfl⟩
  | stop r c => exact .inr ⟨.stopped r c x, rfl, rfl⟩
  | mark d rest ih => exact ih { x with marks := Function.update x.marks d (some x.p) }
  | callback d rest ih =>
    simp only [Code.run, Frame.mapUser]
    rcases x.marks d with _ | m
    · exact ih 0 x
    rcases hd : (g.data d (slice input m x.p) (some x.user)).1 with _ | t
    · exact .inl (Code.run_none h input _ hd)
    · simp only [hd, h.data d _ hd]
      exact ih _ ⟨Function.update x.marks d none, x.p, t⟩
  | body n rest ih =>
    simp only [Code.run, Frame.mapUser]
    rcases hb : (g.body (slice input x.p (x.p + n)) (some x.user)).1 with _ | t
    · exact .inl (Code.run_none h input _ rfl)
    · rw [h.body _ hb]
      exact ih ⟨x.marks, x.p + n - 1, t⟩
  | notify e rest ih =>
    simp only [Code.run, Frame.mapUser]
    rcases hn : (g.notify e (some x.user)).1 with _ | t
    · exact .inl (Code.run_none h input _ rfl)
    · simp only [h.notify e hn]
      exact ih _ ⟨x.marks, x.p, t⟩

variable (M : Scanner β C D E R)

theorem loop_none (h : g.Follows k f) (input : List β) (n : ℕ) (c : C) {x : Frame D (Option τ)}
    (hx : x.user = none) : (M.loop g input n c x).user = none := by
  induction n generalizing c x with
  | zero => exact hx
  | succ n ih =>
    rw [loop]
    split
    · have hrun := (M.step c input[x.p] (input.length - x.p)).run_none h input hx
      generalize (M.step c input[x.p] (input.length - x.p)).run g input x = q at hrun ⊢
      rcases q with ⟨c', y⟩ | ⟨r, c', y⟩
      · exact ih c' hrun
      · exact hrun
    · exact hx

theorem loop_follows (h : g.Follows k f) (input : List β) (n : ℕ) (c : C) (x : Frame D τ) :
    (M.loop g input n c (x.mapUser some)).user = none ∨
      ∃ q : Pass C D R τ, M.loop g input n c (x.mapUser some) = q.mapUser some ∧
        M.loop k input n c (x.mapUser f) = q.mapUser f := by
  induction n generalizing c x with
  | zero => exact .inr ⟨.ok c x, rfl, rfl⟩
  | succ n ih =>
    rw [loop, loop]
    by_cases hlt : x.p < input.length
    · have hrun := (M.step c input[x.p] (input.length - x.p)).run_follows h input x
      have hsome : (x.mapUser (some : τ → Option τ)).p = x.p := rfl
      have hf : (x.mapUser f).p = x.p := rfl
      simp only [dif_pos hlt, hsome, hf]
      generalize (M.step c input[x.p] (input.length - x.p)).run g input (x.mapUser some) = q
        at hrun ⊢
      generalize (M.step c input[x.p] (input.length - x.p)).run k input (x.mapUser f) = q' at hrun ⊢
      rcases hrun with hnone | ⟨q, rfl, rfl⟩
      · rcases q with ⟨c', y⟩ | ⟨r, c', y⟩
        · exact .inl (loop_none M h input n c' hnone)
        · exact .inl hnone
      · rcases q with ⟨c', y⟩ | ⟨r, c', y⟩
        · exact ih c' y
        · exact .inr ⟨.stopped r c' y, rfl, rfl⟩
    · have hsome : ¬(x.mapUser (some : τ → Option τ)).p < input.length := hlt
      have hf : ¬(x.mapUser f).p < input.length := hlt
      rw [dif_neg hsome, dif_neg hf]
      exact .inr ⟨.ok c x, rfl, rfl⟩

theorem execute_none (h : g.Follows k f) (input : List β) (c : C) :
    (M.execute g input c none).user = none := by
  have hloop := loop_none M h input input.length c (x := M.start c none) rfl
  rw [execute]
  generalize M.loop g input input.length c (M.start c none) = q at hloop ⊢
  rcases q with ⟨c', x⟩ | ⟨r, c', x⟩
  · rw [user_outcome]
    exact (M.flush c').run_none h input hloop
  · exact hloop

/-- **A chunk.** `g` gives up, or `k` is told the same. -/
theorem execute_follows (h : g.Follows k f) (input : List β) (c : C) (t : τ) :
    (M.execute g input c (some t)).user = none ∨
      ∃ o : Outcome C R τ, M.execute g input c (some t) = o.mapUser some ∧
        M.execute k input c (f t) = o.mapUser f := by
  have hloop := loop_follows M h input input.length c (M.start c t)
  have hsome : (M.start c t).mapUser some = M.start c (some t) := rfl
  have hf : (M.start c t).mapUser f = M.start c (f t) := rfl
  rw [hsome, hf] at hloop
  rw [execute, execute]
  generalize M.loop g input input.length c (M.start c (some t)) = q at hloop ⊢
  generalize M.loop k input input.length c (M.start c (f t)) = q' at hloop ⊢
  rcases hloop with hnone | ⟨q, rfl, rfl⟩
  · rcases q with ⟨c', x⟩ | ⟨r, c', x⟩
    · left
      rw [user_outcome]
      exact (M.flush c').run_none h input hnone
    · exact .inl hnone
  · rcases q with ⟨c', x⟩ | ⟨r, c', x⟩
    · simp only [Pass.mapUser]
      rcases (M.flush c').run_follows h input x with hnone | ⟨q, hg, hk⟩
      · left
        rw [user_outcome]
        exact hnone
      · rw [hg, hk, outcome_mapUser, outcome_mapUser]
        exact .inr ⟨q.outcome, rfl, rfl⟩
    · exact .inr ⟨.stopped r c' x.p x.user, rfl, rfl⟩

variable {M}

/-- A chunk in which `g` does not give up. -/
theorem execute_of_follows (h : g.Follows k f) {input : List β} {c : C} {t : τ}
    {o : Outcome C R τ} (ho : M.execute g input c (some t) = o.mapUser some) :
    M.execute k input c (f t) = o.mapUser f := by
  rcases execute_follows M h input c t with hnone | ⟨o', hg, hk⟩
  · rw [ho] at hnone
    cases o <;> cases hnone
  · obtain rfl := Outcome.mapUser_some_injective (ho.symm.trans hg)
    exact hk

/-! ## Chunks -/

theorem feed_none (h : g.Follows k f) (chunks : List (List β)) (c : C) :
    (M.feed g chunks c none).user = none := by
  induction chunks generalizing c with
  | nil => rfl
  | cons x xs ih =>
    have hx := execute_none M h x c
    rw [feed]
    generalize M.execute g x c none = o at hx ⊢
    rcases o with ⟨c', u⟩ | ⟨r, c', p, u⟩
    · obtain rfl : u = none := hx
      have hrest := ih c'
      rw [Outcome.andThen]
      generalize M.feed g xs c' none = o at hrest ⊢
      rcases o with ⟨c'', u⟩ | ⟨r, c'', p, u⟩ <;> exact hrest
    · exact hx

/-- Where `g` has not given up in the end, it has not before. -/
theorem exists_feed_of_append (h : g.Follows k f) {xs ys : List (List β)} {c c' : C} {t t' : τ}
    (hfeed : M.feed g (xs ++ ys) c (some t) = .ok c' (some t')) :
    ∃ c₁ t₁, M.feed g xs c (some t) = .ok c₁ (some t₁) ∧
      M.feed g ys c₁ (some t₁) = .ok c' (some t') := by
  obtain ⟨c₁, u₁, hxs, hys⟩ := feed_append_eq_ok.mp hfeed
  rcases u₁ with _ | t₁
  · have hnone := feed_none (M := M) h ys c₁
    rw [hys] at hnone
    cases hnone
  · exact ⟨c₁, t₁, hxs, hys⟩

/-- The first of several chunks. -/
theorem exists_execute_of_feed (h : g.Follows k f) {x : List β} {xs : List (List β)} {c c' : C}
    {t t' : τ} (hfeed : M.feed g (x :: xs) c (some t) = .ok c' (some t')) :
    ∃ c₁ t₁, M.execute g x c (some t) = .ok c₁ (some t₁) ∧
      M.feed g xs c₁ (some t₁) = .ok c' (some t') := by
  obtain ⟨c₁, t₁, hx, hxs⟩ := exists_feed_of_append h (List.singleton_append ▸ hfeed)
  exact ⟨c₁, t₁, feed_singleton_eq_ok.mp hx, hxs⟩

/-- **Chunks** that `g` takes to their end. -/
theorem feed_of_follows (h : g.Follows k f) {chunks : List (List β)} {c c' : C} {t t' : τ}
    (hfeed : M.feed g chunks c (some t) = .ok c' (some t')) :
    M.feed k chunks c (f t) = .ok c' (f t') := by
  induction chunks generalizing c t with
  | nil =>
    cases hfeed
    rfl
  | cons x xs ih =>
    obtain ⟨c₁, t₁, hx, hxs⟩ := exists_execute_of_feed h hfeed
    exact feed_cons_eq_ok.mpr ⟨c₁, f t₁, execute_of_follows (o := .ok c₁ t₁) h hx, ih hxs⟩

end Scanner
