import Mathlib.Data.Finset.Basic
import Mathlib.Tactic.Common
import Mathlib.Tactic.TypeStar

/-!
# Scanners of chunked input

A `Scanner` reads its input in chunks, byte by byte, and copies nothing. Where a text begins it
leaves a mark; where the text ends it hands the bytes from the mark up to there to a `Consumer`. A
text may begin in one chunk and end in another, so at the end of a chunk every text that is open is
handed over as far as it goes, and the next chunk begins with marks for the texts that its control
state says are open.

What one step does is a `Code`. The consumer answers a call by a number, on which the scanner may
stop.

Nothing here says that the result is independent of the chunks; the laws of a scanner and of a
consumer that it takes are `Scanner.Lawful` and `Consumer.Lawful`.
-/

namespace Scanner

/-- What is done about one byte, for control states `C`, kinds of texts `D`, notifications `E` and
reasons to stop `R`. -/
inductive Code (C D E R : Type*) where
  /-- Go on with the next byte. -/
  | next (c : C)
  /-- Stop at this byte. -/
  | stop (r : R) (c : C)
  /-- A text begins here. -/
  | mark (d : D) (rest : Code C D E R)
  /-- A text ends here, if one is marked. -/
  | callback (d : D) (rest : ℤ → Code C D E R)
  /-- Hand over `n` bytes from here on, and stand on the last of them. -/
  | body (n : ℕ) (rest : Code C D E R)
  | notify (e : E) (rest : ℤ → Code C D E R)

/-- The callbacks, on a state of the user; each returns a number. -/
structure Consumer (β D E σ : Type*) where
  data : D → List β → σ → σ × ℤ
  body : List β → σ → σ × ℤ
  notify : E → σ → σ × ℤ

/-- Where a scanner stands in a chunk. -/
structure Frame (D σ : Type*) where
  marks : D → Option ℕ
  p : ℕ
  user : σ

/-- How a part of a chunk ends. -/
inductive Pass (C D R σ : Type*) where
  | ok (c : C) (f : Frame D σ)
  | stopped (r : R) (c : C) (f : Frame D σ)

/-- How a chunk ends: as a whole, or at a byte of it. -/
inductive Outcome (C R σ : Type*) where
  | ok (c : C) (user : σ)
  | stopped (r : R) (c : C) (p : ℕ) (user : σ)
  deriving DecidableEq

end Scanner

/-- A scanner of bytes `β`. The length that a step is given is that of the chunk from the byte
on. -/
structure Scanner (β C D E R : Type*) where
  step : C → β → ℕ → Scanner.Code C D E R
  /-- The texts that are open in a control state. -/
  opens : C → Finset D
  /-- The order in which open texts are handed over at the end of a chunk. -/
  order : List D
  /-- The reason to stop if the consumer refuses such a text. -/
  refused : R

namespace Scanner

variable {β C D E R σ : Type*} [DecidableEq D]

/-- The bytes from `m` up to `p`. -/
def slice (input : List β) (m p : ℕ) : List β := (input.drop m).take (p - m)

def Code.run (k : Consumer β D E σ) (input : List β) :
    Code C D E R → Frame D σ → Pass C D R σ
  | .next c, f => .ok c { f with p := f.p + 1 }
  | .stop r c, f => .stopped r c f
  | .mark d rest, f => rest.run k input { f with marks := Function.update f.marks d (some f.p) }
  | .callback d rest, f =>
    match f.marks d with
    | none => (rest 0).run k input f
    | some m =>
      let a := k.data d (slice input m f.p) f.user
      (rest a.2).run k input { f with marks := Function.update f.marks d none, user := a.1 }
  | .body n rest, f =>
    rest.run k input
      { f with p := f.p + n - 1, user := (k.body (slice input f.p (f.p + n)) f.user).1 }
  | .notify e rest, f =>
    let a := k.notify e f.user
    (rest a.2).run k input { f with user := a.1 }

def Pass.outcome : Pass C D R σ → Outcome C R σ
  | .ok c f => .ok c f.user
  | .stopped r c f => .stopped r c f.p f.user

variable (M : Scanner β C D E R)

/-- The steps of a chunk; there are at most as many as there are bytes. -/
def loop (k : Consumer β D E σ) (input : List β) : ℕ → C → Frame D σ → Pass C D R σ
  | 0, c, f => .ok c f
  | n + 1, c, f =>
    if h : f.p < input.length then
      match (M.step c input[f.p] (input.length - f.p)).run k input f with
      | .ok c' f' => loop k input n c' f'
      | .stopped r c' f' => .stopped r c' f'
    else .ok c f

/-- The end of a chunk. -/
def flush (c : C) : Code C D E R :=
  M.order.foldr (fun d rest ↦ .callback d fun r ↦ if r = 0 then rest else .stop M.refused c)
    (.next c)

/-- The beginning of a chunk. -/
def start (c : C) (user : σ) : Frame D σ :=
  ⟨fun d ↦ if d ∈ M.opens c then some 0 else none, 0, user⟩

/-- One chunk. -/
def execute (k : Consumer β D E σ) (input : List β) (c : C) (user : σ) : Outcome C R σ :=
  match M.loop k input input.length c (M.start c user) with
  | .ok c' f => ((M.flush c').run k input f).outcome
  | .stopped r c' f => .stopped r c' f.p f.user

/-- The outcome of a chunk with `n` bytes in front of it. -/
def Outcome.add (n : ℕ) : Outcome C R σ → Outcome C R σ
  | .ok c user => .ok c user
  | .stopped r c p user => .stopped r c (n + p) user

/-- Go on after a chunk of `n` bytes. -/
def Outcome.andThen (n : ℕ) (f : C → σ → Outcome C R σ) : Outcome C R σ → Outcome C R σ
  | .ok c user => (f c user).add n
  | .stopped r c p user => .stopped r c p user

/-- Chunks one after the other, up to where the scanner stops. -/
def feed (k : Consumer β D E σ) : List (List β) → C → σ → Outcome C R σ
  | [], c, user => .ok c user
  | x :: xs, c, user => (M.execute k x c user).andThen x.length (feed k xs)

section

variable {M}

theorem feed_cons_eq_ok {k : Consumer β D E σ} {x : List β} {xs : List (List β)} {c c' : C}
    {u u' : σ} : M.feed k (x :: xs) c u = .ok c' u' ↔
      ∃ c₁ u₁, M.execute k x c u = .ok c₁ u₁ ∧ M.feed k xs c₁ u₁ = .ok c' u' := by
  rw [feed]
  rcases M.execute k x c u with ⟨c₁, u₁⟩ | ⟨r, c₁, p, u₁⟩
  · have hadd : (M.feed k xs c₁ u₁).add x.length = .ok c' u' ↔ M.feed k xs c₁ u₁ = .ok c' u' := by
      rcases M.feed k xs c₁ u₁ with ⟨c₂, u₂⟩ | ⟨r, c₂, p, u₂⟩ <;> simp [Outcome.add]
    simp [Outcome.andThen, hadd]
  · simp [Outcome.andThen]

theorem feed_singleton_eq_ok {k : Consumer β D E σ} {x : List β} {c c' : C} {u u' : σ} :
    M.feed k [x] c u = .ok c' u' ↔ M.execute k x c u = .ok c' u' := by
  rw [feed_cons_eq_ok]
  constructor
  · rintro ⟨c₁, u₁, hx, hnil⟩
    cases hnil
    exact hx
  · exact fun hx ↦ ⟨c', u', hx, rfl⟩

/-- Chunks in front of others. -/
theorem feed_append_eq_ok {k : Consumer β D E σ} {xs ys : List (List β)} {c c' : C} {u u' : σ} :
    M.feed k (xs ++ ys) c u = .ok c' u' ↔
      ∃ c₁ u₁, M.feed k xs c u = .ok c₁ u₁ ∧ M.feed k ys c₁ u₁ = .ok c' u' := by
  induction xs generalizing c u with
  | nil => simp [feed]
  | cons x xs ih =>
    rw [List.cons_append, feed_cons_eq_ok]
    constructor
    · rintro ⟨c₁, u₁, hx, hrest⟩
      obtain ⟨c₂, u₂, hxs, hys⟩ := ih.mp hrest
      exact ⟨c₂, u₂, feed_cons_eq_ok.mpr ⟨c₁, u₁, hx, hxs⟩, hys⟩
    · rintro ⟨c₂, u₂, hxs, hys⟩
      obtain ⟨c₁, u₁, hx, hxs⟩ := feed_cons_eq_ok.mp hxs
      exact ⟨c₁, u₁, hx, ih.mpr ⟨c₂, u₂, hxs, hys⟩⟩

end

/-! ## Laws -/

/-- With the texts in `S` open, the code leaves open what its next control state says, and hands
over nothing else in the middle of a text. Where it stops for a reason in `Q`, no text is open. Two
texts that are open together are in `beside`. -/
def Code.Marked (opens : C → Finset D) (Q : R → Prop) (beside : D → D → Prop) :
    Code C D E R → Finset D → Prop
  | .next c, S => S = opens c
  | .stop r _, S => Q r → S = ∅
  | .mark d rest, S => d ∉ S ∧ rest.Marked opens Q beside (insert d S)
  | .callback d rest, S =>
    (∀ d' ∈ S, d' ≠ d → beside d d') ∧ (rest 0).Marked opens Q beside (S.erase d)
  | .body _ rest, S => S = ∅ ∧ rest.Marked opens Q beside S
  | .notify _ rest, S => S = ∅ ∧ ∀ r, (rest r).Marked opens Q beside S

/-- The code reads no further than `n` bytes, and goes forward. -/
def Code.Fits : Code C D E R → ℕ → Prop
  | .next _, _ | .stop _ _, _ => True
  | .mark _ rest, n => rest.Fits n
  | .callback _ rest, n | .notify _ rest, n => ∀ r, (rest r).Fits n
  | .body l rest, n => 0 < l ∧ l ≤ n ∧ rest.Fits (n - (l - 1))

/-- The laws of a scanner. By the last one, a step depends on the length of the chunk only in how
much of a body it hands over. -/
structure Lawful (Q : R → Prop) (beside : D → D → Prop) : Prop where
  marked (c : C) (b : β) (n : ℕ) : (M.step c b n).Marked M.opens Q beside (M.opens c)
  fits (c : C) (b : β) {n : ℕ} : 0 < n → (M.step c b n).Fits n
  beside_of_opens {c : C} {d d' : D} : d ∈ M.opens c → d' ∈ M.opens c → d' ≠ d → beside d d'
  mem_order (d : D) : d ∈ M.order
  nodup : M.order.Nodup
  clips (c : C) (b : β) {m n : ℕ} : 0 < m → 0 < n →
    M.step c b (m + n) = M.step c b m ∨
      ∃ c', M.step c b m = .body m (.next c') ∧ ∀ b', ∃ l rest, 0 < l ∧
        M.step c' b' n = .body l rest ∧ M.step c b (m + n) = .body (m + l) rest

/-- The laws of a consumer: it takes all texts, does not see how they are cut, and not in which
order it gets two that are open together. -/
structure Consumer.Lawful (k : Consumer β D E σ) (beside : D → D → Prop) : Prop where
  quiet (d : D) (x : List β) (u : σ) : (k.data d x u).2 = 0
  data_append (d : D) {x : List β} (y : List β) (u : σ) : x ≠ [] →
    (k.data d (x ++ y) u).1 = (k.data d y (k.data d x u).1).1
  data_comm {d d' : D} (x y : List β) (u : σ) : beside d d' →
    (k.data d x (k.data d' y u).1).1 = (k.data d' y (k.data d x u).1).1
  body_append {x : List β} (y : List β) (u : σ) : x ≠ [] →
    (k.body (x ++ y) u).1 = (k.body y (k.body x u).1).1

/-- Outcomes with the same control state, and with the same state of the user unless the scanner
stopped for a reason that is not in `Q`. -/
inductive Outcome.Same (Q : R → Prop) : Outcome C R σ → Outcome C R σ → Prop
  | ok (c : C) (user : σ) : Same Q (.ok c user) (.ok c user)
  | stopped (r : R) (c : C) (p : ℕ) {user user' : σ} : (Q r → user = user') →
    Same Q (.stopped r c p user) (.stopped r c p user')

/-! ## Invariants -/

/-- Whatever the consumer answers, the code goes on in a control state with `P`, or stops with
`Q`. -/
def Code.Ends (P : C → Prop) (Q : R → C → Prop) : Code C D E R → Prop
  | .next c => P c
  | .stop r c => Q r c
  | .mark _ rest | .body _ rest => rest.Ends P Q
  | .callback _ rest | .notify _ rest => ∀ r, (rest r).Ends P Q

def Pass.Ends (P : C → Prop) (Q : R → C → Prop) : Pass C D R σ → Prop
  | .ok c _ => P c
  | .stopped r c _ => Q r c

def Outcome.Ends (P : C → Prop) (Q : R → C → Prop) : Outcome C R σ → Prop
  | .ok c _ => P c
  | .stopped r c _ _ => Q r c

variable {M} {k : Consumer β D E σ} {P : C → Prop} {Q : R → C → Prop}

theorem Code.Ends.run {code : Code C D E R} (h : code.Ends P Q) (input : List β)
    (f : Frame D σ) : (code.run k input f).Ends P Q := by
  induction code generalizing f with
  | next c => exact h
  | stop r c => exact h
  | mark d rest ih => exact ih h _
  | callback d rest ih =>
    rcases hd : f.marks d with _ | m
    · simp only [Code.run, hd]
      exact ih 0 (h 0) f
    · simp only [Code.run, hd]
      exact ih _ (h _) _
  | body l rest ih => exact ih h _
  | notify e rest ih => exact ih _ (h _) _

/-- What every step keeps, every chunk keeps. -/
theorem execute_ends (hstep : ∀ c b n, P c → (M.step c b n).Ends P Q)
    (hrefused : ∀ c, P c → Q M.refused c) (input : List β) {c : C} (hc : P c) (u : σ) :
    (M.execute k input c u).Ends P Q := by
  have hloop : ∀ n c f, P c → (M.loop k input n c f).Ends P Q := by
    intro n
    induction n with
    | zero => exact fun _ _ hc ↦ hc
    | succ n ih =>
      intro c f hc
      rw [loop]
      split_ifs with hp
      · have hs := (hstep c input[f.p] (input.length - f.p) hc).run (k := k) input f
        rcases hrun : (M.step c input[f.p] (input.length - f.p)).run k input f with
          ⟨c', f'⟩ | ⟨r, c', f'⟩ <;> rw [hrun] at hs
        · exact ih c' f' hs
        · exact hs
      · exact hc
  have hflush : ∀ c, P c → (M.flush c).Ends P Q := by
    intro c hc
    rw [flush]
    induction M.order with
    | nil => exact hc
    | cons d ds ih =>
      intro r
      rcases eq_or_ne r 0 with hr | hr
      · simpa only [if_pos hr] using ih
      · simp only [if_neg hr]
        exact hrefused c hc
  have hl := hloop input.length c (M.start c u) hc
  rw [execute]
  rcases hrun : M.loop k input input.length c (M.start c u) with ⟨c', f⟩ | ⟨r, c', f⟩ <;>
    rw [hrun] at hl
  · have hf := (hflush c' hl).run (k := k) input f
    simp only
    rcases hend : (M.flush c').run k input f with ⟨c'', g⟩ | ⟨r, c'', g⟩ <;> rw [hend] at hf <;>
      exact hf
  · exact hl

end Scanner
