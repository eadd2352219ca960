import SpiderNode.Machine.Bytewise

/-!
# Triples for scanners

`Reads` is a triple: in a control state with `P`, the bytes are read up to one with `Q`, and a
consumer is told `es`, in whatever parts. Triples are put together by `Reads.append`, and
`Reads.texts` is the rule for the bytes of a text.

By `feed_of_reads` a triple says what becomes of an input in any chunks.
-/

namespace Scanner

variable {β C D E R σ : Type*}

/-! ## The same for a consumer -/

section Consumer

variable {k : Consumer β D E σ} {beside : D → D → Prop}

/-- The same text in several kinds. -/
def texts (ds : List D) (x : List β) : List (Event β D E) := ds.map fun d ↦ .data d x

theorem play_texts_comm (hk : k.Lawful beside) {d : D} {ds : List D} (h : ∀ d' ∈ ds, beside d d')
    (x y : List β) (u : σ) :
    k.play (texts ds y) (k.data d x u).1 = (k.data d x (k.play (texts ds y) u)).1 := by
  induction ds generalizing u with
  | nil => rfl
  | cons d' ds ih =>
    have hd := hk.data_comm y x u (h d' (by simp))
    rw [texts, List.map_cons, k.play_cons, k.play_cons]
    change k.play (texts ds y) (k.data d' y (k.data d x u).1).1 = _
    rw [← hk.data_comm x y u (h d' (by simp))]
    exact ih (fun d'' hd ↦ h d'' (by simp [hd])) _

/-- Texts in two parts. -/
theorem play_texts_append (hk : k.Lawful beside) {ds : List D} (h : ds.Pairwise beside)
    {x : List β} (hx : x ≠ []) (y : List β) (u : σ) :
    k.play (texts ds x ++ texts ds y) u = k.play (texts ds (x ++ y)) u := by
  induction ds generalizing u with
  | nil => rfl
  | cons d ds ih =>
    obtain ⟨hd, hds⟩ := List.pairwise_cons.mp h
    rw [k.play_append]
    change k.play (texts ds y) (k.data d y (k.play (texts ds x) (k.data d x u).1)).1 =
      k.play (texts ds (x ++ y)) (k.data d (x ++ y) u).1
    rw [← play_texts_comm hk hd, ← hk.data_append d y u hx, ← k.play_append]
    exact ih hds _

/-- The end of a text. -/
theorem play_data_nil (hk : k.Lawful beside) (d : D) {x : List β} (hx : x ≠ []) (u : σ) :
    k.play [.data d x, .data d []] u = k.play [.data d x] u := by
  have h := hk.data_append d [] u hx
  rw [List.append_nil] at h
  exact h.symm

/-- A body in several parts. -/
def parts (x : List β) : List (Event β D E) := if x = [] then [] else [.body x]

theorem play_parts_append (hk : k.Lawful beside) (x y : List β) (u : σ) :
    k.play (parts x ++ parts y) u = k.play (parts (x ++ y)) u := by
  rcases eq_or_ne x [] with rfl | hx
  · rfl
  rcases eq_or_ne y [] with rfl | hy
  · simp [parts]
  · rw [parts, parts, parts, if_neg hx, if_neg hy, if_neg (by simp [hx])]
    exact (hk.body_append y u hx).symm

end Consumer

/-! ## Triples -/

variable [DecidableEq D]

/-- In a control state with `P`, the bytes are read up to one with `Q`, and the consumer is told
`es`. -/
def Reads (M : Scanner β C D E R) (k : Consumer β D E σ) (answer : E → ℤ) (P : C → Prop)
    (bs : List β) (Q : C → Prop) (es : List (Event β D E)) : Prop :=
  ∀ c, P c → ∃ c' es', M.reads answer bs c = .ok (c', es') ∧ Q c' ∧ ∀ u, k.play es' u = k.play es u

variable {M : Scanner β C D E R} {k : Consumer β D E σ} {answer : E → ℤ} {beside : D → D → Prop}
  {P P' Q Q' S : C → Prop} {a b bs : List β} {es es' : List (Event β D E)}

namespace Reads

theorem nil (h : ∀ c, P c → Q c) : M.Reads k answer P [] Q [] :=
  fun c hc ↦ ⟨c, [], rfl, h c hc, fun _ ↦ rfl⟩

theorem append (h : M.Reads k answer P a Q es) (h' : M.Reads k answer Q b S es') :
    M.Reads k answer P (a ++ b) S (es ++ es') := by
  intro c hc
  obtain ⟨c₁, es₁, hr₁, hq, hu₁⟩ := h c hc
  obtain ⟨c₂, es₂, hr₂, hs, hu₂⟩ := h' c₁ hq
  refine ⟨c₂, es₁ ++ es₂, ?_, hs, fun u ↦ ?_⟩
  · rw [reads_append, hr₁, Told.andThen, hr₂]
    rfl
  · rw [k.play_append, k.play_append, hu₁, hu₂]

theorem of_read {x : β} (h : ∀ c, P c → ∃ c' es', M.read answer c x = .ok (c', es') ∧ Q c' ∧
    ∀ u, k.play es' u = k.play es u) : M.Reads k answer P [x] Q es := by
  intro c hc
  obtain ⟨c', es', hr, hq, hu⟩ := h c hc
  refine ⟨c', es', ?_, hq, hu⟩
  rw [reads, hr, Told.andThen, reads, Told.after, List.append_nil]

theorem mono (h : M.Reads k answer P bs Q es) (hp : ∀ c, P' c → P c) (hq : ∀ c, Q c → Q' c) :
    M.Reads k answer P' bs Q' es := by
  intro c hc
  obtain ⟨c', es', hr, hc', hu⟩ := h c (hp c hc)
  exact ⟨c', es', hr, hq c' hc', hu⟩

/-- Told in other parts. -/
theorem told (h : M.Reads k answer P bs Q es) (he : ∀ u, k.play es u = k.play es' u) :
    M.Reads k answer P bs Q es' := by
  intro c hc
  obtain ⟨c', es', hr, hc', hu⟩ := h c hc
  exact ⟨c', es', hr, hc', fun u ↦ (hu u).trans (he u)⟩

/-- Bytes of which none is told anything about. `P` knows the bytes to come. -/
theorem silent {P : List β → C → Prop} (h : ∀ x xs c, P (x :: xs) c →
    ∃ c', M.read answer c x = .ok (c', []) ∧ P xs c') (bs : List β) :
    M.Reads k answer (P bs) bs (P []) [] := by
  induction bs with
  | nil => exact nil fun c hc ↦ hc
  | cons x xs ih =>
    have hfirst : M.Reads k answer (P (x :: xs)) [x] (P xs) [] := by
      refine of_read fun c hc ↦ ?_
      obtain ⟨c', hr, hc'⟩ := h x xs c hc
      exact ⟨c', [], hr, hc', fun _ ↦ rfl⟩
    exact hfirst.append ih

/-- The bytes of texts. `P` knows the bytes to come. -/
theorem texts (hk : k.Lawful beside) {ds : List D} (hds : ds.Pairwise beside)
    {P : List β → C → Prop} (h : ∀ x xs c, P (x :: xs) c →
      ∃ c', M.read answer c x = .ok (c', Scanner.texts ds [x]) ∧ P xs c') (hne : bs ≠ []) :
    M.Reads k answer (P bs) bs (P []) (Scanner.texts ds bs) := by
  induction bs with
  | nil => exact absurd rfl hne
  | cons x xs ih =>
    have hfirst : M.Reads k answer (P (x :: xs)) [x] (P xs) (Scanner.texts ds [x]) := by
      refine of_read fun c hc ↦ ?_
      obtain ⟨c', hr, hc'⟩ := h x xs c hc
      exact ⟨c', _, hr, hc', fun _ ↦ rfl⟩
    rcases eq_or_ne xs [] with rfl | hxs
    · exact hfirst
    · exact (hfirst.append (ih hxs)).told (play_texts_append hk hds (List.cons_ne_nil x []) xs)

/-- The bytes of a body. -/
theorem parts (hk : k.Lawful beside) {P : List β → C → Prop} (h : ∀ x xs c, P (x :: xs) c →
    ∃ c', M.read answer c x = .ok (c', [.body [x]]) ∧ P xs c') (bs : List β) :
    M.Reads k answer (P bs) bs (P []) (Scanner.parts bs) := by
  induction bs with
  | nil => exact nil fun c hc ↦ hc
  | cons x xs ih =>
    have hfirst : M.Reads k answer (P (x :: xs)) [x] (P xs) (Scanner.parts [x]) := by
      refine of_read fun c hc ↦ ?_
      obtain ⟨c', hr, hc'⟩ := h x xs c hc
      exact ⟨c', _, hr, hc', fun _ ↦ rfl⟩
    exact (hfirst.append ih).told (play_parts_append hk [x] xs)

end Reads

/-- An input that is read to its end, in any chunks. -/
theorem feed_of_reads {q : R → Prop} (h : M.Lawful q beside) (hk : k.Lawful beside)
    (ha : k.Answers answer) (hr : M.Reads k answer P bs Q es) {chunks : List (List β)}
    (hall : ∀ x ∈ chunks, x ≠ []) (hbs : chunks.flatten = bs) {c : C} (hc : P c) (u : σ) :
    ∃ c', M.feed k chunks c u = .ok c' (k.play es u) ∧ Q c' := by
  obtain ⟨c', es', hreads, hq, hu⟩ := hr c hc
  refine ⟨c', ?_, hq⟩
  rcases eq_or_ne chunks [] with rfl | hne
  · obtain rfl : [] = bs := hbs
    obtain ⟨rfl, rfl⟩ := Prod.mk.inj (Except.ok.inj hreads)
    rw [← hu]
    rfl
  have hbs' : bs ≠ [] := by
    obtain ⟨x, xs, rfl⟩ := List.exists_cons_of_ne_nil hne
    rw [← hbs]
    simp [hall x (by simp)]
  have hone := execute_of_reads h hk ha hbs' hreads u
  have hsame := same_feed h hk hne hall c u
  rw [hbs, hone] at hsame
  rw [← hu]
  generalize M.feed k chunks c u = o at hsame ⊢
  rcases hsame with _ | _
  rfl

end Scanner
