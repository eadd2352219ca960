import Mathlib.Tactic.Common
import Mathlib.Tactic.TypeStar

/-!
# Machines driven by events

A `Machine` has a partial step function: an event can happen in a state where its guard holds, and
it leads to a next state or to a failure. What fails, fails for good; a run ends there.

A property of all runs is proved by an invariant. `Reaches.invariant` is the rule for it, and
`Reaches.invariant_of` the same with an invariant that is known already. A condition that every
step of a run has to meet is a machine with a stronger guard: `Machine.restrict`.

`run` is the executable side. It shows that a state is reached by giving the events.
-/

/-- A machine with states `σ`, events `ε` and failures `φ`. -/
structure Machine (σ ε φ : Type*) where
  /-- The event can happen in the state. -/
  guard : σ → ε → Prop
  step : σ → ε → Except φ σ

namespace Machine

/-- A computation in two parts succeeds if both do. -/
theorem exists_of_bind_eq_ok {α β ε : Type*} {x : Except ε α} {f : α → Except ε β} {y : β}
    (h : x.bind f = .ok y) : ∃ z, x = .ok z ∧ f z = .ok y := by
  rcases x with e | z
  · cases h
  · exact ⟨z, rfl, h⟩

variable {σ ε φ : Type*} (M : Machine σ ε φ)

/-- The machine of which all steps meet a condition. -/
def restrict (p : σ → ε → Prop) : Machine σ ε φ := ⟨fun s e ↦ M.guard s e ∧ p s e, M.step⟩

instance (p : σ → ε → Prop) [∀ s e, Decidable (M.guard s e)] [∀ s e, Decidable (p s e)] (s : σ)
    (e : ε) : Decidable ((M.restrict p).guard s e) :=
  inferInstanceAs (Decidable (M.guard s e ∧ p s e))

/-- The states that runs from `s₀` reach. -/
inductive Reaches (s₀ : σ) : σ → Prop
  | init : Reaches s₀ s₀
  | step {s t : σ} {e : ε} (hs : Reaches s₀ s) (hg : M.guard s e) (ht : M.step s e = .ok t) :
      Reaches s₀ t

/-- The state after a list of events, if they can happen one after the other. -/
def run [∀ s e, Decidable (M.guard s e)] (s : σ) : List ε → Option σ
  | [] => some s
  | e :: es =>
    if M.guard s e then
      match M.step s e with
      | .ok t => run t es
      | .error _ => none
    else none

variable {M} {s₀ s t : σ}

namespace Reaches

/-- What holds at first and is kept by each step holds in each state that is reached. -/
theorem invariant {p : σ → Prop} (h₀ : p s₀)
    (hstep : ∀ {s t : σ} {e : ε}, p s → M.guard s e → M.step s e = .ok t → p t)
    (h : M.Reaches s₀ s) : p s := by
  induction h with
  | init => exact h₀
  | step _ hg ht ih => exact hstep ih hg ht

/-- An invariant may be used to prove the next one. -/
theorem invariant_of {p q : σ → Prop} (hq : ∀ {s : σ}, M.Reaches s₀ s → q s) (h₀ : p s₀)
    (hstep : ∀ {s t : σ} {e : ε}, q s → p s → M.guard s e → M.step s e = .ok t → p t)
    (h : M.Reaches s₀ s) : p s := by
  induction h with
  | init => exact h₀
  | step hs hg ht ih => exact hstep (hq hs) ih hg ht

theorem trans (h : M.Reaches s₀ s) (h' : M.Reaches s t) : M.Reaches s₀ t := by
  induction h' with
  | init => exact h
  | step _ hg ht ih => exact ih.step hg ht

theorem of_restrict {p : σ → ε → Prop} (h : (M.restrict p).Reaches s₀ s) : M.Reaches s₀ s := by
  induction h with
  | init => exact .init
  | step _ hg ht ih => exact ih.step hg.1 ht

theorem restrict_mono {p q : σ → ε → Prop} (hpq : ∀ {s : σ} {e : ε}, p s e → q s e)
    (h : (M.restrict p).Reaches s₀ s) : (M.restrict q).Reaches s₀ s := by
  induction h with
  | init => exact .init
  | step _ hg ht ih => exact ih.step ⟨hg.1, hpq hg.2⟩ ht

end Reaches

theorem reaches_of_run [∀ s e, Decidable (M.guard s e)] {l : List ε} (h : M.run s l = some t) :
    M.Reaches s t := by
  induction l generalizing s with
  | nil =>
    obtain rfl := Option.some.inj h
    exact .init
  | cons e es ih =>
    unfold run at h
    split_ifs at h with hg
    split at h
    · rename_i u hu
      exact (Reaches.init.step hg hu).trans (ih h)
    · cases h

end Machine
