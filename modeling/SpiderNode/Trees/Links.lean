import Mathlib.Data.List.Induction
import Mathlib.Data.Nat.Init
import SpiderNode.Trees.Walk

/-!
# Trees with links

What stands at a place may be a link. A walk that comes to a link goes on from there, or from the
root, with the steps of its target in front of its own. `Resolves` says where it leads to.

A walk can be replaced by its net effect before it is walked. A step up then takes back a step down,
where the walk itself leaves the place that it has come to; if the step down was to a link, that may
be another place. If no link is taken back, nothing is changed, and the same links are met
(`Resolves.shortest`, `Resolves.from_root`).
-/

namespace SpiderNode.Trees

variable {α κ : Type*}

/-- What stands at a place. -/
inductive Node (κ : Type*) where
  | inner
  | leaf
  | link (l : κ)
  deriving DecidableEq

/-- Where a link leads to. -/
structure Target (α : Type*) where
  absolute : Bool
  steps : List (Step α)

/-- Where the walk of a target begins, for a link that stands in `d`. -/
def Target.start (t : Target α) (d : List α) : List α := if t.absolute then [] else d

/-- A tree with links. What stands below something stands below an inner node. -/
structure LinkTree (α κ : Type*) where
  node : List α → Option (Node κ)
  target : κ → Target α
  root : node [] = some .inner
  parent : ∀ d a, node (d ++ [a]) ≠ none → node d = some .inner

variable (tree : LinkTree α κ)

/-- A walk from one place to another, and the links that it meets, with where they stand. -/
inductive Resolves : List α → List (Step α) → List (List α × κ) → List α → Prop
  | done (d : List α) : Resolves d [] [] d
  | stay {d steps met r} (hd : tree.node d = some .inner) (hrest : Resolves d steps met r) :
      Resolves d (.stay :: steps) met r
  | up {d steps met r} (hd : tree.node d = some .inner) (hrest : Resolves d.dropLast steps met r) :
      Resolves d (.up :: steps) met r
  | down {d a x steps met r} (hnode : tree.node (d ++ [a]) = some x) (hx : ∀ l, x ≠ .link l)
      (hrest : Resolves (d ++ [a]) steps met r) : Resolves d (.down a :: steps) met r
  | link {d a l steps met r} (hnode : tree.node (d ++ [a]) = some (.link l))
      (hrest : Resolves ((tree.target l).start d) ((tree.target l).steps ++ steps) met r) :
      Resolves d (.down a :: steps) ((d, l) :: met) r

/-- No step up takes back a step down to a link. -/
def Plain (d : List α) (steps : List (Step α)) : Prop :=
  ∀ before a between behind, steps = before ++ .down a :: (between ++ .up :: behind) →
    net between = 1 → ∀ met e, Resolves tree d before met e →
    ∀ l, tree.node (e ++ [a]) ≠ some (.link l)

variable {tree} {d e r r' l : List α} {a : α} {steps steps' : List (Step α)}
  {met met' : List (List α × κ)} {x : Net α} {n : ℕ}

namespace Resolves

/-! ## One walk and another -/

theorem append (h : Resolves tree d steps met e) (h' : Resolves tree e steps' met' r) :
    Resolves tree d (steps ++ steps') (met ++ met') r := by
  induction h with
  | done => exact h'
  | stay hd _ ih => exact .stay hd (ih h')
  | up hd _ ih => exact .up hd (ih h')
  | down hnode hx _ ih => exact .down hnode hx (ih h')
  | link hnode _ ih =>
    have hrest := ih h'
    rw [List.append_assoc] at hrest
    exact .link hnode hrest

/-- A walk is cut in front of its first step or behind it. -/
theorem exists_of_append_cons {s : Step α} {rest : List (Step α)}
    (h : Resolves tree d (s :: rest) met r)
    (htail : ∀ steps, steps ++ steps' = rest → ∃ met₁ e met₂,
      Resolves tree d (s :: steps) met₁ e ∧ Resolves tree e steps' met₂ r ∧ met = met₁ ++ met₂)
    (hall : steps ++ steps' = s :: rest) :
    ∃ met₁ e met₂, Resolves tree d steps met₁ e ∧ Resolves tree e steps' met₂ r ∧
      met = met₁ ++ met₂ := by
  rcases steps with _ | ⟨s', steps⟩
  · obtain rfl : steps' = s :: rest := hall
    exact ⟨[], d, met, .done d, h, rfl⟩
  · obtain ⟨rfl, hrest⟩ := List.cons.inj hall
    exact htail steps hrest

theorem exists_of_append (h : Resolves tree d (steps ++ steps') met r) :
    ∃ met₁ e met₂, Resolves tree d steps met₁ e ∧ Resolves tree e steps' met₂ r ∧
      met = met₁ ++ met₂ := by
  generalize hall : steps ++ steps' = all at h
  induction h generalizing steps with
  | done d =>
    obtain ⟨rfl, rfl⟩ := List.append_eq_nil_iff.mp hall
    exact ⟨[], d, [], .done d, .done d, rfl⟩
  | stay hd hrest ih =>
    refine exists_of_append_cons (.stay hd hrest) (fun steps htail ↦ ?_) hall
    obtain ⟨met₁, e, met₂, h₁, h₂, hmet⟩ := ih htail
    exact ⟨met₁, e, met₂, .stay hd h₁, h₂, hmet⟩
  | up hd hrest ih =>
    refine exists_of_append_cons (.up hd hrest) (fun steps htail ↦ ?_) hall
    obtain ⟨met₁, e, met₂, h₁, h₂, hmet⟩ := ih htail
    exact ⟨met₁, e, met₂, .up hd h₁, h₂, hmet⟩
  | down hnode hx hrest ih =>
    refine exists_of_append_cons (.down hnode hx hrest) (fun steps htail ↦ ?_) hall
    obtain ⟨met₁, e, met₂, h₁, h₂, hmet⟩ := ih htail
    exact ⟨met₁, e, met₂, .down hnode hx h₁, h₂, hmet⟩
  | @link d _ l _ _ _ hnode hrest ih =>
    refine exists_of_append_cons (.link hnode hrest) (fun steps htail ↦ ?_) hall
    subst htail
    obtain ⟨met₁, e, met₂, h₁, h₂, rfl⟩ := ih (List.append_assoc ..)
    exact ⟨(d, l) :: met₁, e, met₂, .link hnode h₁, h₂, rfl⟩

theorem down_inv (hnode : ∀ l, tree.node (d ++ [a]) ≠ some (.link l))
    (h : Resolves tree d (.down a :: steps) met r) : Resolves tree (d ++ [a]) steps met r := by
  cases h with
  | down _ _ hrest => exact hrest
  | link hlink _ => exact absurd hlink (hnode _)

theorem link_inv {k : κ} (hnode : tree.node (d ++ [a]) = some (.link k))
    (h : Resolves tree d (.down a :: steps) met r) :
    ∃ met', met = (d, k) :: met' ∧
      Resolves tree ((tree.target k).start d) ((tree.target k).steps ++ steps) met' r := by
  cases h with
  | down hother hx _ =>
    rw [hnode] at hother
    exact absurd (Option.some.inj hother).symm (hx k)
  | link hlink hrest =>
    rw [hnode] at hlink
    cases hlink
    exact ⟨_, rfl, hrest⟩

theorem unique (h : Resolves tree d steps met r) (h' : Resolves tree d steps met' r') :
    met = met' ∧ r = r' := by
  induction h generalizing met' r' with
  | done =>
    cases h'
    exact ⟨rfl, rfl⟩
  | stay _ _ ih =>
    cases h' with
    | stay _ hrest => exact ih hrest
  | up _ _ ih =>
    cases h' with
    | up _ hrest => exact ih hrest
  | down hnode hx _ ih =>
    refine ih (h'.down_inv fun l hl ↦ ?_)
    rw [hnode] at hl
    exact hx l (Option.some.inj hl)
  | link hnode _ ih =>
    obtain ⟨met₁, rfl, hrest⟩ := h'.link_inv hnode
    obtain ⟨rfl, rfl⟩ := ih hrest
    exact ⟨rfl, rfl⟩

end Resolves

/-! ## Places -/

/-- There is something at a place, and it is no link. -/
def IsPlace (tree : LinkTree α κ) (d : List α) : Prop :=
  ∃ x, tree.node d = some x ∧ ∀ l, x ≠ .link l

theorem isPlace_of_inner (h : tree.node d = some .inner) : IsPlace tree d :=
  ⟨.inner, h, fun l hl ↦ by cases hl⟩

theorem isPlace_dropLast (h : IsPlace tree d) : IsPlace tree d.dropLast := by
  rcases d.eq_nil_or_concat' with rfl | ⟨d, a, rfl⟩
  · exact h
  · obtain ⟨x, hx, -⟩ := h
    rw [List.dropLast_concat]
    exact isPlace_of_inner (tree.parent d a (hx ▸ Option.some_ne_none x))

theorem isPlace_take (h : IsPlace tree d) (n : ℕ) : IsPlace tree (d.take n) := by
  induction d using List.reverseRecOn with
  | nil => rwa [List.take_nil]
  | append_singleton d a ih =>
    rcases Nat.lt_or_ge d.length n with hlt | hle
    · rwa [List.take_of_length_le (List.length_append.trans_le hlt)]
    · rw [List.take_append_of_le_length hle]
      refine ih ?_
      have hparent := isPlace_dropLast h
      rwa [List.dropLast_concat] at hparent

theorem isPlace_start (h : IsPlace tree d) (t : Target α) : IsPlace tree (t.start d) := by
  rw [Target.start]
  split_ifs
  · exact isPlace_of_inner tree.root
  · exact h

namespace Resolves

/-- A walk leads to no link. -/
theorem isPlace (h : Resolves tree d steps met r) (hd : IsPlace tree d) : IsPlace tree r := by
  induction h with
  | done => exact hd
  | stay _ _ ih => exact ih hd
  | up _ _ ih => exact ih (isPlace_dropLast hd)
  | down hnode hx _ ih => exact ih ⟨_, hnode, hx⟩
  | link hnode _ ih =>
    have hparent := tree.parent _ _ (hnode ▸ Option.some_ne_none _)
    exact ih (isPlace_start (isPlace_of_inner hparent) _)

/-- A place is reached from the root, and no link is met. -/
theorem of_isPlace (h : IsPlace tree d) : Resolves tree [] (d.map .down) [] d := by
  induction d using List.reverseRecOn with
  | nil => exact .done []
  | append_singleton d a ih =>
    obtain ⟨x, hnode, hx⟩ := h
    have hparent := tree.parent d a (hnode ▸ Option.some_ne_none x)
    have hlast : Resolves tree d [.down a] [] (d ++ [a]) := .down hnode hx (.done _)
    rw [List.map_append]
    exact (ih (isPlace_of_inner hparent)).append hlast

end Resolves

/-! ## Net effects -/

/-- Where the last step down of a net effect has been made. -/
theorem exists_of_downs_net (h : (net steps).downs = l ++ [a]) :
    ∃ before between, steps = before ++ .down a :: between ∧ net between = 1 ∧
      net before = ⟨(net steps).ups, l⟩ := by
  induction hlength : steps.length using Nat.strong_induction_on generalizing steps l a with
  | _ length ih =>
  rcases steps.eq_nil_or_concat' with rfl | ⟨steps, s, rfl⟩
  · exact absurd h.symm (by simp)
  have hlt : steps.length < length := by
    rw [← hlength, List.length_append]
    exact Nat.lt_succ_self _
  have hnet : net (steps ++ [s]) = net steps * s.net := by
    rw [net_append, net_cons, net_nil, mul_one]
  rw [hnet] at h ⊢
  cases s with
  | stay =>
    rw [Step.net, mul_one] at h ⊢
    obtain ⟨before, between, rfl, hbetween, hbefore⟩ := ih _ hlt h rfl
    refine ⟨before, between ++ [.stay], by simp, ?_, hbefore⟩
    rw [net_append, hbetween]
    rfl
  | down b =>
    have hdowns : (net steps).downs ++ [b] = l ++ [a] := by simpa [Step.net] using h
    obtain ⟨hl, hb⟩ := List.append_inj' hdowns rfl
    obtain rfl := List.singleton_inj.mp hb
    refine ⟨steps, [], rfl, rfl, ?_⟩
    ext1
    · simp [Step.net]
    · exact hl
  | up =>
    have hdowns : (net steps).downs.dropLast = l ++ [a] := by
      simpa [Step.net, List.dropLast_eq_take] using h
    rcases (net steps).downs.eq_nil_or_concat' with hnil | ⟨l', b, hl'⟩
    · rw [hnil] at hdowns
      exact absurd hdowns.symm (by simp)
    rw [hl', List.dropLast_concat] at hdowns
    subst hdowns
    have hups : (net steps * Step.up.net).ups = (net steps).ups := by
      rw [Net.ups_mul, hl']
      simp [Step.net]
    -- the step up takes back the step down to `b`, so the one to `a` is the last before that
    obtain ⟨before, between, rfl, hbetween, hbefore⟩ := ih _ hlt hl' rfl
    have hlt' : before.length < length := by
      rw [List.length_append] at hlt
      omega
    have hdowns := congrArg Net.downs hbefore
    obtain ⟨before', between', rfl, hbetween', hbefore'⟩ := ih _ hlt' hdowns rfl
    refine ⟨before', between' ++ .down b :: between ++ [.up], by simp, ?_, ?_⟩
    · rw [net_append, net_append, hbetween', net_cons, hbetween]
      rfl
    · rw [hbefore', hbefore, hups]

/-- The shortest walk with a net effect. -/
def Net.shortest (x : Net α) : List (Step α) := List.replicate x.ups .up ++ x.downs.map .down

theorem Net.shortest_eq_concat (h : x.downs = l ++ [a]) :
    x.shortest = (⟨x.ups, l⟩ : Net α).shortest ++ [.down a] := by
  simp [Net.shortest, h]

theorem Net.shortest_mul_down (x : Net α) (a : α) :
    (x * (Step.down a).net).shortest = x.shortest ++ [.down a] := by
  simp [Net.shortest, Step.net]

theorem Net.shortest_mul_up (h : x.downs = []) :
    (x * Step.up.net).shortest = x.shortest ++ [.up] := by
  simp [Net.shortest, Step.net, h, List.replicate_succ']

theorem Net.mul_up_of_concat (h : x.downs = l ++ [a]) : x * Step.up.net = ⟨x.ups, l⟩ := by
  ext1
  · simp [Step.net, h]
  · simp [Step.net, h]

theorem Plain.of_append (h : Plain tree d (steps ++ steps')) : Plain tree d steps := by
  intro before a between behind hsplit
  refine h before a between (behind ++ steps') ?_
  rw [hsplit]
  simp

/-- What only goes down takes nothing back. -/
theorem Plain.append_downs (h : Plain tree d steps) (l : List α) :
    Plain tree d (steps ++ l.map .down) := by
  induction l using List.reverseRecOn with
  | nil => rwa [List.map_nil, List.append_nil]
  | append_singleton l b ih =>
    intro before a between behind hsplit
    rw [List.map_append, ← List.append_assoc] at hsplit
    rcases behind.eq_nil_or_concat' with rfl | ⟨behind, s, rfl⟩
    · have hlast : steps ++ l.map .down ++ [.down b] =
          before ++ .down a :: between ++ [.up] := by simpa using hsplit
      cases (List.append_inj' hlast rfl).2
    · have hlast : steps ++ l.map .down ++ [.down b] =
          before ++ .down a :: (between ++ .up :: behind) ++ [s] := by simpa using hsplit
      exact ih before a between behind (List.append_inj' hlast rfl).1

theorem plain_shortest (x : Net α) : Plain tree d x.shortest := by
  refine Plain.append_downs (fun before a between behind hsplit ↦ ?_) x.downs
  have hmem : Step.down a ∈ List.replicate x.ups Step.up := by
    rw [hsplit]
    exact List.mem_append_right _ List.mem_cons_self
  cases List.eq_of_mem_replicate hmem

namespace Resolves

/-- **A walk and its net effect** lead to the same place and meet the same links. -/
theorem shortest (h : Resolves tree d steps met r) (hplain : Plain tree d steps) :
    Resolves tree d (net steps).shortest met r := by
  induction hlength : steps.length using Nat.strong_induction_on generalizing steps met r with
  | _ length ih =>
  rcases steps.eq_nil_or_concat' with rfl | ⟨steps, s, rfl⟩
  · exact h
  have hlt : steps.length < length := by
    rw [← hlength, List.length_append]
    exact Nat.lt_succ_self _
  have hnet : net (steps ++ [s]) = net steps * s.net := by
    rw [net_append, net_cons, net_nil, mul_one]
  obtain ⟨met₁, e, met₂, hfront, hlast, rfl⟩ := h.exists_of_append
  have hshort := ih _ hlt hfront hplain.of_append rfl
  rw [hnet]
  cases s with
  | stay =>
    cases hlast with
    | stay _ hdone =>
      cases hdone
      rw [List.append_nil, Step.net, mul_one]
      exact hshort
  | down a =>
    rw [Net.shortest_mul_down]
    exact hshort.append hlast
  | up =>
    rcases hdowns : (net steps).downs.eq_nil_or_concat' with hnil | ⟨l, a, hl⟩
    · rw [Net.shortest_mul_up hnil]
      exact hshort.append hlast
    · obtain ⟨before, between, rfl, hbetween, hbefore⟩ := exists_of_downs_net hl
      -- the step up takes back the step down to `a`, which is no link
      obtain ⟨met₃, e', met₄, hfront', hdown, rfl⟩ := hfront.exists_of_append
      have hnode := hplain before a between [] (by simp) hbetween met₃ e' hfront'
      have hlt' : before.length < length := by
        rw [List.length_append] at hlt
        omega
      have hshort' := ih _ hlt' hfront' hplain.of_append.of_append rfl
      rw [hbefore] at hshort'
      rw [Net.shortest_eq_concat hl] at hshort
      obtain ⟨met₅, e₅, met₆, hfront₅, hdown₅, hmet⟩ := hshort.exists_of_append
      obtain ⟨rfl, rfl⟩ := hfront₅.unique hshort'
      have hend := hdown₅.down_inv hnode
      rw [Net.mul_up_of_concat hl]
      cases hend
      cases hlast with
      | up _ hdone =>
        cases hdone
        rw [hmet, List.dropLast_concat, List.append_nil, List.append_nil]
        exact hshort'

theorem of_ups (h : Resolves tree d (List.replicate n .up ++ steps) met r) :
    Resolves tree (d.take (d.length - n)) steps met r := by
  induction n generalizing d with
  | zero => simpa using h
  | succ n ih =>
    rw [List.replicate_succ, List.cons_append] at h
    cases h with
    | up _ hrest =>
      have hrest' := ih hrest
      rw [List.dropLast_eq_take, List.length_take, List.take_take] at hrest'
      convert hrest' using 2
      omega

/-- **A walk from a place** can be replaced by one from the root that only goes down. -/
theorem from_root (h : Resolves tree d (steps ++ l.map .down) met r) (hd : IsPlace tree d)
    (hplain : Plain tree d steps) :
    Resolves tree [] (((net steps).act d ++ l).map .down) met r := by
  have hnet : net (steps ++ l.map .down) = ⟨(net steps).ups, (net steps).downs ++ l⟩ := by
    rw [net_append, net_map_down]
    ext1 <;> simp
  have hshort := h.shortest (hplain.append_downs l)
  rw [hnet, Net.shortest] at hshort
  have hroot := (of_isPlace (isPlace_take hd (d.length - (net steps).ups))).append (of_ups hshort)
  rwa [← List.map_append, ← List.append_assoc] at hroot

end Resolves

end SpiderNode.Trees
