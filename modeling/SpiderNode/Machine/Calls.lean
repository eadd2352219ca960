import Mathlib.Tactic.Common
import Mathlib.Tactic.TypeStar

/-!
# Objects that are called

An object has a state, and answers a call by a result and a next state; some calls it must not get.
`calls` is a sequence of calls with what they return.

One object simulates another if it gives the same answers. `Simulates.calls` is the rule for it: the
answer to one call, from related states to related states, is enough.
-/

namespace Machine

variable {σ τ γ ρ : Type*}

/-- Calls one after the other. -/
def calls (f : σ → γ → Option (σ × ρ)) (s : σ) : List γ → Option (σ × List ρ)
  | [] => some (s, [])
  | c :: cs =>
    match f s c with
    | some (t, r) => (calls f t cs).map fun (u, rs) ↦ (u, r :: rs)
    | none => none

/-- The first object answers each call that the second answers, in the same way. -/
def Simulates (R : σ → τ → Prop) (f : σ → γ → Option (σ × ρ)) (g : τ → γ → Option (τ × ρ)) : Prop :=
  ∀ ⦃s t c t' r⦄, R s t → g t c = some (t', r) → ∃ s', f s c = some (s', r) ∧ R s' t'

variable {R : σ → τ → Prop} {f : σ → γ → Option (σ × ρ)} {g : τ → γ → Option (τ × ρ)} {s : σ}
  {t t' : τ} {c : γ} {cs : List γ} {r : ρ} {rs : List ρ}

theorem calls_cons_of_eq_some (h : g t c = some (t', r)) :
    calls g t (c :: cs) = (calls g t' cs).map fun (u, rs) ↦ (u, r :: rs) := by
  rw [calls, h]

/-- **Simulation** of single calls is simulation of all sequences of calls. -/
theorem Simulates.calls (h : Simulates R f g) (hR : R s t)
    (hcalls : calls g t cs = some (t', rs)) : ∃ s', calls f s cs = some (s', rs) ∧ R s' t' := by
  induction cs generalizing s t rs with
  | nil =>
    obtain ⟨rfl, rfl⟩ := Prod.mk.inj (Option.some.inj hcalls)
    exact ⟨s, rfl, hR⟩
  | cons c cs ih =>
    rcases hc : g t c with _ | ⟨u, r⟩
    · rw [Machine.calls, hc] at hcalls
      exact absurd hcalls (Option.some_ne_none _).symm
    · rw [calls_cons_of_eq_some hc] at hcalls
      obtain ⟨⟨u', rs'⟩, hrest, heq⟩ := Option.map_eq_some_iff.mp hcalls
      obtain ⟨rfl, rfl⟩ := Prod.mk.inj heq
      obtain ⟨s₁, hs₁, hR₁⟩ := h hR hc
      obtain ⟨s', hs', hR'⟩ := ih hR₁ hrest
      refine ⟨s', ?_, hR'⟩
      rw [calls_cons_of_eq_some hs₁, hs']
      rfl

end Machine
