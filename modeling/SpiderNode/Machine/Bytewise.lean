import SpiderNode.Machine.Chunking

/-!
# Scanners byte by byte

`read` is what a scanner does with one byte: the next control state, and what the consumer is told.
A text that is open is told byte by byte, and where it ends there is an empty last part of it.

`execute_eq_reads` is that a chunk amounts to the sequence of its bytes, for a lawful scanner and a
lawful consumer whose answers are known. What a scanner does with an input is then a matter of
`reads`, which knows neither chunks nor marks.
-/

namespace Scanner

variable {β C D E R σ : Type*}

/-- What a consumer is told. -/
inductive Event (β D E : Type*) where
  | data (d : D) (x : List β)
  | body (x : List β)
  | notify (e : E)
  deriving DecidableEq

def Consumer.tell (k : Consumer β D E σ) (u : σ) : Event β D E → σ
  | .data d x => (k.data d x u).1
  | .body x => (k.body x u).1
  | .notify e => (k.notify e u).1

/-- What is told, in order. -/
def Consumer.play (k : Consumer β D E σ) (es : List (Event β D E)) (u : σ) : σ :=
  es.foldl k.tell u

/-- The answers of a consumer to notifications. -/
def Consumer.Answers (k : Consumer β D E σ) (answer : E → ℤ) : Prop :=
  ∀ e u, (k.notify e u).2 = answer e

theorem Consumer.play_append (k : Consumer β D E σ) (es es' : List (Event β D E)) (u : σ) :
    k.play (es ++ es') u = k.play es' (k.play es u) := List.foldl_append

theorem Consumer.play_cons (k : Consumer β D E σ) (e : Event β D E) (es : List (Event β D E))
    (u : σ) : k.play (e :: es) u = k.play es (k.tell u e) := rfl

/-! ## Results -/

/-- A control state, and what has been told; or the reason to stop. -/
abbrev Told (β C D E R : Type*) := Except R (C × List (Event β D E))

namespace Told

/-- Tell something before. -/
def after (es : List (Event β D E)) : Told β C D E R → Told β C D E R
  | .ok (c, es') => .ok (c, es ++ es')
  | .error r => .error r

/-- Go on in the control state. -/
def andThen (t : Told β C D E R) (f : C → Told β C D E R) : Told β C D E R :=
  match t with
  | .ok (c, es) => after es (f c)
  | .error r => .error r

theorem after_nil (t : Told β C D E R) : t.after [] = t := by
  rcases t with r | ⟨c, es⟩ <;> rfl

theorem after_after (es es' : List (Event β D E)) (t : Told β C D E R) :
    (t.after es').after es = t.after (es ++ es') := by
  rcases t with r | ⟨c, es''⟩
  · rfl
  · simp [after]

theorem andThen_assoc (t : Told β C D E R) (f g : C → Told β C D E R) :
    (t.andThen f).andThen g = t.andThen fun c ↦ (f c).andThen g := by
  rcases t with r | ⟨c, es⟩
  · rfl
  · simp only [andThen]
    rcases f c with r | ⟨c', es'⟩
    · rfl
    · exact (after_after _ _ _).symm

end Told

variable {k : Consumer β D E σ}

/-- How a part of a chunk of one byte is related to what is told. -/
def Pass.Tells (opens : C → Finset D) (k : Consumer β D E σ) (u : σ) :
    Pass C D R σ → Told β C D E R → Prop
  | .ok c f, .ok (c', es) => c = c' ∧ f.p = 1 ∧ f.Opens (opens c) ∧
      (∀ d m, f.marks d = some m → m = 0) ∧ f.user = k.play es u
  | .stopped r _ _, .error r' => r = r'
  | _, _ => False

theorem Pass.Tells.after {opens : C → Finset D} {u : σ} {p : Pass C D R σ} {t : Told β C D E R}
    {es : List (Event β D E)} (h : p.Tells opens k (k.play es u) t) :
    p.Tells opens k u (t.after es) := by
  rcases p with ⟨c, f⟩ | ⟨r, c, f⟩ <;> rcases t with r' | ⟨c', es'⟩
  · exact h
  · obtain ⟨hc, hp, ho, hm, hu⟩ := h
    exact ⟨hc, hp, ho, hm, by rw [hu, Consumer.play_append]⟩
  · exact h
  · exact h

variable [DecidableEq D] (M : Scanner β C D E R) (answer : E → ℤ)

/-- A step on a chunk of one byte, with the texts in `S` open. -/
def Code.byte (b : β) : Code C D E R → Finset D → Told β C D E R
  | .next c, _ => .ok (c, [])
  | .stop r _, _ => .error r
  | .mark d rest, S => rest.byte b (insert d S)
  | .callback d rest, S =>
    ((rest 0).byte b (S.erase d)).after (if d ∈ S then [.data d []] else [])
  | .body _ rest, S => (rest.byte b S).after [.body [b]]
  | .notify e rest, S => ((rest (answer e)).byte b S).after [.notify e]

/-- The texts that go on in the next byte. -/
def rest (b : β) (c : C) : List (Event β D E) :=
  (M.order.filter (· ∈ M.opens c)).map fun d ↦ .data d [b]

/-- One byte. -/
def read (c : C) (b : β) : Told β C D E R :=
  ((M.step c b 1).byte answer b (M.opens c)).andThen fun c' ↦ .ok (c', M.rest b c')

/-- Bytes one after the other. -/
def reads : List β → C → Told β C D E R
  | [], c => .ok (c, [])
  | b :: bs, c => (M.read answer c b).andThen (reads bs)

theorem reads_append (a b : List β) (c : C) :
    M.reads answer (a ++ b) c = (M.reads answer a c).andThen (M.reads answer b) := by
  induction a generalizing c with
  | nil => exact (Told.after_nil _).symm
  | cons x a ih =>
    rw [List.cons_append, reads, reads, Told.andThen_assoc]
    congr 1
    funext c'
    exact ih c'

/-! ## A chunk amounts to its bytes -/

variable {M answer} {Q : R → Prop} {beside : D → D → Prop}

/-- The marks of a chunk of one byte. -/
def Frame.AtStart (f : Frame D σ) (S : Finset D) : Prop :=
  f.p = 0 ∧ f.Opens S ∧ ∀ d m, f.marks d = some m → m = 0

theorem Frame.AtStart.mark {f : Frame D σ} {S : Finset D} (h : f.AtStart S) (d : D) :
    Frame.AtStart { f with marks := Function.update f.marks d (some f.p) } (insert d S) := by
  obtain ⟨hp, ho, hm⟩ := h
  refine ⟨hp, ho.mark d f.p, fun d' m hd' ↦ ?_⟩
  replace hd' : Function.update f.marks d (some f.p) d' = some m := hd'
  rcases eq_or_ne d' d with rfl | hne
  · rw [Function.update_self, hp] at hd'
    exact (Option.some.inj hd').symm
  · rw [Function.update_of_ne hne] at hd'
    exact hm d' m hd'

theorem Frame.AtStart.erase {f : Frame D σ} {S : Finset D} (h : f.AtStart S) (d : D) (u : σ) :
    Frame.AtStart ⟨Function.update f.marks d none, f.p, u⟩ (S.erase d) := by
  obtain ⟨hp, ho, hm⟩ := h
  refine ⟨hp, ho.erase d u, fun d' m hd' ↦ ?_⟩
  replace hd' : Function.update f.marks d none d' = some m := hd'
  rcases eq_or_ne d' d with rfl | hne
  · rw [Function.update_self] at hd'
    cases hd'
  · rw [Function.update_of_ne hne] at hd'
    exact hm d' m hd'

theorem Code.tells (hk : k.Lawful beside) (ha : k.Answers answer) {code : Code C D E R}
    {S : Finset D} (hm : code.Marked M.opens Q beside S) (hfit : code.Fits 1) (b : β)
    {f : Frame D σ} (hf : f.AtStart S) :
    (code.run k [b] f).Tells M.opens k f.user (code.byte answer b S) := by
  induction code generalizing f S with
  | next c =>
    obtain rfl : S = M.opens c := hm
    obtain ⟨hp, ho, hz⟩ := hf
    exact ⟨rfl, by rw [hp], ho, hz, rfl⟩
  | stop r c => rfl
  | mark d rest ih => exact ih hm.2 hfit (hf.mark d)
  | callback d rest ih =>
    obtain ⟨hp, ho, hz⟩ := hf
    rcases hd : f.marks d with _ | m
    · have hnot : d ∉ S := fun h ↦ (ho d).mpr h hd
      simp only [Code.run, hd, Code.byte, if_neg hnot, Told.after_nil]
      exact ih 0 hm.2 (hfit 0) ⟨hp, ho.erase_of_eq_none hd, hz⟩
    · have hmem : d ∈ S := (ho d).mp (by simp [hd])
      have hslice : slice [b] m f.p = [] := by simp [slice, hp]
      simp only [Code.run, hd, hk.quiet, Code.byte, if_pos hmem]
      refine Pass.Tells.after ?_
      have hstart := Frame.AtStart.erase ⟨hp, ho, hz⟩ d (k.data d [] f.user).1
      rw [hslice]
      exact ih 0 hm.2 (hfit 0) hstart
  | body l rest ih =>
    obtain ⟨hl, hle, hfit⟩ := hfit
    obtain ⟨rfl, hm⟩ := hm
    obtain ⟨hp, ho, hz⟩ := hf
    obtain rfl : l = 1 := by omega
    have hslice : slice [b] f.p (f.p + 1) = [b] := by simp [slice, hp]
    simp only [Code.run, Code.byte, hslice]
    refine Pass.Tells.after ?_
    exact ih (f := ⟨f.marks, f.p + 1 - 1, (k.body [b] f.user).1⟩) hm hfit ⟨by simp [hp], ho, hz⟩
  | notify e rest ih =>
    obtain ⟨rfl, hm⟩ := hm
    simp only [Code.run, Code.byte, ha e]
    refine Pass.Tells.after ?_
    exact ih _ (f := ⟨f.marks, f.p, (k.notify e f.user).1⟩) (hm _) (hfit _) hf

/-- Texts of one byte each. -/
theorem deliver_eq_play {t : D → Option (List β)} {S : Finset D} {b : β}
    (ht : ∀ d, t d = if d ∈ S then some [b] else none) (ds : List D) (u : σ) :
    deliver k t ds u = k.play ((ds.filter (· ∈ S)).map fun d ↦ .data d [b]) u := by
  induction ds generalizing u with
  | nil => rfl
  | cons d ds ih =>
    rw [deliver, ih, ht d]
    by_cases hd : d ∈ S
    · rw [if_pos hd, List.filter_cons_of_pos (by simpa using hd)]
      rfl
    · rw [if_neg hd, List.filter_cons_of_neg (by simpa using hd)]
      rfl

/-- An outcome that amounts to what is told. -/
def Outcome.Tells (k : Consumer β D E σ) (u : σ) : Outcome C R σ → Told β C D E R → Prop
  | .ok c user, .ok (c', es) => c = c' ∧ user = k.play es u
  | .stopped r _ _ _, .error r' => r = r'
  | _, _ => False

/-- **One byte.** -/
theorem execute_singleton (h : M.Lawful Q beside) (hk : k.Lawful beside) (ha : k.Answers answer)
    (b : β) (c : C) (u : σ) : (M.execute k [b] c u).Tells k u (M.read answer c b) := by
  have hstart : (M.start c u).AtStart (M.opens c) := by
    refine ⟨rfl, start_opens c u, fun d m hm ↦ ?_⟩
    simp only [start] at hm
    split_ifs at hm
    exact (Option.some.inj hm).symm
  have htells := Code.tells hk ha (h.marked c b 1) (h.fits c b Nat.one_pos) b hstart
  have hpos : (M.start c u).p < [b].length := Nat.one_pos
  rw [execute, List.length_singleton, loop, dif_pos hpos]
  have hs : M.step c [b][(M.start c u).p] ([b].length - (M.start c u).p) = M.step c b 1 := rfl
  rw [hs, read]
  rcases hrun : (M.step c b 1).run k [b] (M.start c u) with ⟨c', f⟩ | ⟨r, c', f⟩ <;>
    rw [hrun] at htells <;>
    rcases hbyte : (M.step c b 1).byte answer b (M.opens c) with r' | ⟨c'', es⟩ <;>
    rw [hbyte] at htells
  · exact htells.elim
  · obtain ⟨rfl, hp, ho, hz, hu⟩ := htells
    have ht : ∀ d, (f.marks d).map (slice [b] · f.p) =
        if d ∈ M.opens c' then some [b] else none := by
      intro d
      rcases hd : f.marks d with _ | m
      · rw [if_neg fun hm ↦ (ho d).mpr hm hd]
        rfl
      · rw [if_pos ((ho d).mp (by simp [hd])), hz d m hd, hp]
        rfl
    simp only [loop]
    rw [run_flush h hk, deliver_eq_play ht, hu]
    refine ⟨rfl, ?_⟩
    rw [Consumer.play_append]
    rfl
  · exact htells
  · exact htells.elim

/-- **A chunk** amounts to its bytes. -/
theorem execute_tells (h : M.Lawful Q beside) (hk : k.Lawful beside) (ha : k.Answers answer)
    {bs : List β} (hne : bs ≠ []) (c : C) (u : σ) :
    (M.execute k bs c u).Tells k u (M.reads answer bs c) := by
  induction bs generalizing c u with
  | nil => exact absurd rfl hne
  | cons b bs ih =>
    rcases eq_or_ne bs [] with rfl | hbs
    · have hone := execute_singleton h hk ha b c u
      rw [reads]
      generalize M.read answer c b = t at hone ⊢
      rcases t with r | ⟨c', es⟩
      · exact hone
      · simpa [Told.andThen, Told.after, reads] using hone
    · have hone := execute_singleton h hk ha b c u
      have hsame := same_execute_append h hk (List.cons_ne_nil b []) hbs c u
      rw [List.singleton_append] at hsame
      rw [reads]
      generalize M.read answer c b = t at hone ⊢
      generalize M.execute k [b] c u = o at hone hsame
      rcases t with r | ⟨c', es⟩ <;> rcases o with ⟨c'', u'⟩ | ⟨r', c'', p, u'⟩
      · exact hone.elim
      · obtain rfl : r' = r := hone
        generalize M.execute k (b :: bs) c u = w at hsame ⊢
        rcases hsame with _ | ⟨_, _, _, _⟩
        rfl
      · obtain ⟨rfl, rfl⟩ := hone
        have hrest := ih hbs c'' (k.play es u)
        rw [Outcome.andThen] at hsame
        simp only [Told.andThen]
        generalize M.execute k (b :: bs) c u = w at hsame ⊢
        generalize M.execute k bs c'' (k.play es u) = o at hrest hsame
        generalize M.reads answer bs c'' = t at hrest ⊢
        rcases o with ⟨c₂, u₂⟩ | ⟨r₂, c₂, p₂, u₂⟩ <;> rcases t with r₁ | ⟨c₁, es₁⟩
        · exact hrest.elim
        · obtain ⟨rfl, rfl⟩ := hrest
          rcases hsame with _ | _
          exact ⟨rfl, (Consumer.play_append _ _ _ _).symm⟩
        · rcases hsame with _ | _
          exact hrest
        · exact hrest.elim
      · exact hone.elim

/-- A chunk that is read to its end. -/
theorem execute_of_reads (h : M.Lawful Q beside) (hk : k.Lawful beside) (ha : k.Answers answer)
    {bs : List β} (hne : bs ≠ []) {c c' : C} {es : List (Event β D E)}
    (hr : M.reads answer bs c = .ok (c', es)) (u : σ) :
    M.execute k bs c u = .ok c' (k.play es u) := by
  have ht := execute_tells h hk ha hne c u
  rw [hr] at ht
  rcases hrun : M.execute k bs c u with ⟨c'', u'⟩ | ⟨r, c'', p, u'⟩ <;> rw [hrun] at ht
  · obtain ⟨rfl, rfl⟩ := ht
    rfl
  · exact ht.elim

end Scanner
