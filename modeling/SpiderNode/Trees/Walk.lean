import Mathlib.Algebra.BigOperators.Group.List.Basic

/-!
# Walks in a tree

A step of a walk stays where it is, goes up to the parent, or goes down to the child with some name.
A place is the list of the names from the root to it. Whatever a walk does, its net effect is to go
some steps up and then some steps down; net effects compose, and make a monoid.

Going up from the root stays at the root. That is the only thing that is lost when a walk begins
somewhere: `act_mul` says that places do not tell a walk from its net effect, nor one walk after
another from their product.
-/

namespace SpiderNode.Trees

variable {α : Type*}

/-- A step of a walk. -/
inductive Step (α : Type*) where
  | stay
  | up
  | down (a : α)

/-- The net effect of a walk: so many steps up, and then these steps down. -/
@[ext]
structure Net (α : Type*) where
  ups : ℕ
  downs : List α
  deriving DecidableEq, Repr

namespace Net

instance : One (Net α) := ⟨⟨0, []⟩⟩

/-- The steps down of the first are undone by the steps up of the second. -/
instance : Mul (Net α) :=
  ⟨fun x y ↦ ⟨x.ups + (y.ups - x.downs.length),
    x.downs.take (x.downs.length - y.ups) ++ y.downs⟩⟩

@[simp] theorem ups_one : (1 : Net α).ups = 0 := rfl

@[simp] theorem downs_one : (1 : Net α).downs = [] := rfl

@[simp] theorem ups_mul (x y : Net α) : (x * y).ups = x.ups + (y.ups - x.downs.length) := rfl

@[simp] theorem downs_mul (x y : Net α) :
    (x * y).downs = x.downs.take (x.downs.length - y.ups) ++ y.downs := rfl

instance : Monoid (Net α) where
  one_mul x := by ext1 <;> simp
  mul_one x := by ext1 <;> simp
  mul_assoc x y z := by
    ext1
    · simp only [ups_mul, downs_mul, List.length_append, List.length_take]
      omega
    · simp only [ups_mul, downs_mul, List.length_append, List.length_take, List.take_append,
        List.take_take, List.append_assoc]
      have hx : min (x.downs.length - y.ups + y.downs.length - z.ups) (x.downs.length - y.ups) =
          x.downs.length - (y.ups + (z.ups - y.downs.length)) := by omega
      have hy : x.downs.length - y.ups + y.downs.length - z.ups - (x.downs.length - y.ups) =
          y.downs.length - z.ups := by omega
      rw [Nat.min_eq_left (Nat.sub_le ..), hx, hy]

/-- Where a place is left. -/
def act (x : Net α) (place : List α) : List α :=
  place.take (place.length - x.ups) ++ x.downs

@[simp] theorem act_one (place : List α) : (1 : Net α).act place = place := by simp [act]

/-- A place is the walk from the root to it. -/
theorem act_eq (x : Net α) (place : List α) : x.act place = ((⟨0, place⟩ : Net α) * x).downs := rfl

/-- **One walk after another** is their product. -/
theorem act_mul (x y : Net α) (place : List α) : (x * y).act place = y.act (x.act place) := by
  rw [act_eq, act_eq, act_eq, ← mul_assoc]
  rfl

/-- From the root, the steps up are lost. -/
@[simp] theorem act_nil (x : Net α) : x.act [] = x.downs := by simp [act]

end Net

/-- What one step does. -/
def Step.net : Step α → Net α
  | stay => 1
  | up => ⟨1, []⟩
  | down a => ⟨0, [a]⟩

/-- What a walk does. -/
def net (steps : List (Step α)) : Net α := (steps.map Step.net).prod

@[simp] theorem net_nil : net ([] : List (Step α)) = 1 := rfl

@[simp] theorem net_cons (s : Step α) (steps : List (Step α)) :
    net (s :: steps) = s.net * net steps := List.prod_cons

theorem net_append (steps steps' : List (Step α)) :
    net (steps ++ steps') = net steps * net steps' := by
  rw [net, List.map_append, List.prod_append, ← net, ← net]

theorem net_replicate_up (n : ℕ) : net (List.replicate n (Step.up : Step α)) = ⟨n, []⟩ := by
  induction n with
  | zero => rfl
  | succ n ih =>
    rw [List.replicate_succ, net_cons, ih]
    ext1
    · simp [Step.net, Nat.add_comm]
    · simp [Step.net]

theorem net_map_down (l : List α) : net (l.map Step.down) = ⟨0, l⟩ := by
  induction l with
  | nil => rfl
  | cons a l ih =>
    rw [List.map_cons, net_cons, ih]
    ext1 <;> simp [Step.net]

/-- The shortest walk with a net effect. -/
theorem net_shortest (x : Net α) :
    net (List.replicate x.ups Step.up ++ x.downs.map Step.down) = x := by
  rw [net_append, net_replicate_up, net_map_down]
  ext1 <;> simp

/-- What a walk goes down to was named by one of its steps. -/
theorem mem_downs_net {steps : List (Step α)} {a : α} (h : a ∈ (net steps).downs) :
    Step.down a ∈ steps := by
  induction steps with
  | nil => exact absurd h List.not_mem_nil
  | cons s steps ih =>
    rw [net_cons, Net.downs_mul, List.mem_append] at h
    rcases h with h | h
    · cases s with
      | stay => exact absurd (List.mem_of_mem_take h) List.not_mem_nil
      | up => exact absurd (List.mem_of_mem_take h) List.not_mem_nil
      | down b =>
        obtain rfl : a = b := List.mem_singleton.mp (List.mem_of_mem_take h)
        exact List.mem_cons_self
    · exact List.mem_cons_of_mem _ (ih h)

/-! ## From one place to another -/

/-- The length of the longest beginning that two places share. -/
def common [DecidableEq α] : List α → List α → ℕ
  | a :: l, b :: l' => if a = b then common l l' + 1 else 0
  | _, _ => 0

section

variable [DecidableEq α]

theorem common_le_left (l l' : List α) : common l l' ≤ l.length := by
  fun_induction common l l' with
  | case1 => simpa
  | case2 => exact Nat.zero_le _
  | case3 => exact Nat.zero_le _

theorem take_common (l l' : List α) : l.take (common l l') = l'.take (common l l') := by
  fun_induction common l l' with
  | case1 a l l' ih => simpa
  | case2 => simp
  | case3 => simp

theorem common_le_right (l l' : List α) : common l l' ≤ l'.length := by
  fun_induction common l l' with
  | case1 => simpa
  | case2 => exact Nat.zero_le _
  | case3 => exact Nat.zero_le _

/-- Every beginning that they share is at most so long. -/
theorem le_common {l l' : List α} {n : ℕ} (h : l.take n = l'.take n) (hl : n ≤ l.length)
    (hl' : n ≤ l'.length) : n ≤ common l l' := by
  induction n generalizing l l' with
  | zero => exact Nat.zero_le _
  | succ n ih =>
    obtain ⟨a, l, rfl⟩ := List.exists_cons_of_length_pos (Nat.lt_of_lt_of_le n.succ_pos hl)
    obtain ⟨b, l', rfl⟩ := List.exists_cons_of_length_pos (Nat.lt_of_lt_of_le n.succ_pos hl')
    rw [List.take_succ_cons, List.take_succ_cons] at h
    obtain ⟨rfl, hrest⟩ := List.cons.inj h
    rw [common, if_pos rfl]
    exact Nat.succ_le_succ (ih hrest (Nat.le_of_succ_le_succ hl) (Nat.le_of_succ_le_succ hl'))

theorem common_ne_zero_iff {l l' : List α} :
    common l l' ≠ 0 ↔ ∃ a, l.head? = some a ∧ l'.head? = some a := by
  rcases l with _ | ⟨a, l⟩
  · simp [common]
  · rcases l' with _ | ⟨b, l'⟩
    · simp [common]
    · by_cases h : a = b
      · simp [common, h]
      · simp [common, h, eq_comm]

/-- Up to where the ways part, and down from there. -/
def between (l l' : List α) : Net α := ⟨l.length - common l l', l'.drop (common l l')⟩

/-- **The way from one place to another** leads there. -/
theorem act_between (l l' : List α) : (between l l').act l = l' := by
  have hle := common_le_left l l'
  rw [Net.act, between, show l.length - (l.length - common l l') = common l l' by omega,
    take_common, List.take_append_drop]

end

end SpiderNode.Trees
