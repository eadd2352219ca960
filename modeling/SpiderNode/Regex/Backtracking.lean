import Mathlib.Data.List.Infix

/-!
# Backtracking patterns

A pattern can read the beginning of a text in several ways and prefers some of them to others. It is
here the list of these ways, the preferred ones first, each with what it captures and with the text
it leaves. A sequence of patterns takes up the ways of the first one by one, so it goes back to the
next of them when the rest of the pattern cannot go on.

There are two questions about a pattern: in which ways it can read a text, which the lemmas
`mem_...` answer, and which of them it takes. For the latter `exec_bind_eq_some` says that a greedy
repetition takes the longest way with which the rest can go on.
-/

namespace SpiderNode.Regex

variable {α β γ : Type}

/-- The ways to read the beginning of a text. -/
def Pattern (α β : Type) := List α → List (β × List α)

namespace Pattern

instance : Monad (Pattern α) where
  pure b := fun s ↦ [(b, s)]
  bind m f := fun s ↦ (m s).flatMap fun r ↦ f r.1 r.2

/-- A character of a class. -/
def one (p : α → Bool) : Pattern α α
  | a :: s => if p a then [(a, s)] else []
  | [] => []

/-- `[p]*` -/
def star (p : α → Bool) : Pattern α (List α)
  | a :: s =>
    if p a then (star p s).map (fun r ↦ (a :: r.1, r.2)) ++ [([], a :: s)] else [([], a :: s)]
  | [] => [([], [])]

/-- `[p]*?` -/
def starLazy (p : α → Bool) : Pattern α (List α)
  | a :: s =>
    if p a then ([], a :: s) :: (starLazy p s).map fun r ↦ (a :: r.1, r.2) else [([], a :: s)]
  | [] => [([], [])]

/-- `[p]+` -/
def plus (p : α → Bool) : Pattern α (List α) := do
  let a ← one p
  let l ← star p
  return a :: l

/-- `[p]+?` -/
def plusLazy (p : α → Bool) : Pattern α (List α) := do
  let a ← one p
  let l ← starLazy p
  return a :: l

/-- `(m)?` -/
def opt (m : Pattern α β) : Pattern α (Option β) := fun s ↦
  (m s).map (fun r ↦ (some r.1, r.2)) ++ [(none, s)]

/-- `m|m'` -/
def orElse (m m' : Pattern α β) : Pattern α β := fun s ↦ m s ++ m' s

/-- `$` -/
def atEnd : Pattern α Unit
  | [] => [((), [])]
  | _ :: _ => []

/-- `(?!$)` -/
def notAtEnd : Pattern α Unit
  | [] => []
  | a :: s => [((), a :: s)]

/-- What the preferred way captures. -/
def exec (m : Pattern α β) (s : List α) : Option β := (m s).head?.map Prod.fst

/-- What is captured at the first place where the pattern can read. -/
def search (m : Pattern α β) (s : List α) : Option β := s.tails.findSome? m.exec

variable {m m' : Pattern α β} {f : β → Pattern α γ} {p : α → Bool} {s r : List α} {b : β} {c : γ}
  {a : α} {l : List α}

/-! ## The ways there are -/

@[simp] theorem mem_pure {b' : β} : (b, r) ∈ (pure b' : Pattern α β) s ↔ b = b' ∧ r = s := by
  show (b, r) ∈ [(b', s)] ↔ _
  simp

theorem mem_bind :
    (c, r) ∈ (m >>= f) s ↔ ∃ b r', (b, r') ∈ m s ∧ (c, r) ∈ f b r' := by
  show (c, r) ∈ (m s).flatMap (fun r ↦ f r.1 r.2) ↔ _
  simp

theorem mem_one : (a, r) ∈ one p s ↔ s = a :: r ∧ p a = true := by
  rcases s with _ | ⟨a', s⟩
  · simp [one]
  · rw [one]
    by_cases h : p a' = true
    · rw [if_pos h, List.mem_singleton, Prod.mk.injEq, List.cons.injEq]
      constructor
      · rintro ⟨rfl, rfl⟩
        exact ⟨⟨rfl, rfl⟩, h⟩
      · rintro ⟨⟨rfl, rfl⟩, -⟩
        exact ⟨rfl, rfl⟩
    · rw [if_neg h, List.cons.injEq]
      constructor
      · exact fun hmem ↦ absurd hmem List.not_mem_nil
      · rintro ⟨⟨rfl, rfl⟩, ha⟩
        exact absurd ha h

theorem mem_star : (l, r) ∈ star p s ↔ s = l ++ r ∧ ∀ a ∈ l, p a = true := by
  induction s generalizing l with
  | nil =>
    rw [star, List.mem_singleton, Prod.mk.injEq]
    constructor
    · rintro ⟨rfl, rfl⟩
      exact ⟨rfl, by simp⟩
    · rintro ⟨h, -⟩
      exact List.append_eq_nil_iff.mp h.symm
  | cons a s ih =>
    rw [star]
    by_cases h : p a = true
    · rw [if_pos h, List.mem_append, List.mem_map, List.mem_singleton, Prod.mk.injEq]
      constructor
      · rintro (⟨⟨l', r'⟩, hmem, heq⟩ | ⟨rfl, rfl⟩)
        · obtain ⟨rfl, rfl⟩ := Prod.mk.inj heq
          obtain ⟨rfl, hl⟩ := ih.mp hmem
          exact ⟨rfl, List.forall_mem_cons.mpr ⟨h, hl⟩⟩
        · exact ⟨rfl, by simp⟩
      · rintro ⟨hs, hl⟩
        rcases l with _ | ⟨a', l⟩
        · exact .inr ⟨rfl, hs.symm⟩
        · obtain ⟨rfl, rfl⟩ := List.cons.inj hs
          exact .inl ⟨(l, r), ih.mpr ⟨rfl, (List.forall_mem_cons.mp hl).2⟩, rfl⟩
    · rw [if_neg h, List.mem_singleton, Prod.mk.injEq]
      constructor
      · rintro ⟨rfl, rfl⟩
        exact ⟨rfl, by simp⟩
      · rintro ⟨hs, hl⟩
        rcases l with _ | ⟨a', l⟩
        · exact ⟨rfl, hs.symm⟩
        · obtain ⟨rfl, rfl⟩ := List.cons.inj hs
          exact absurd (List.forall_mem_cons.mp hl).1 h

/-- A lazy repetition has the same ways. -/
theorem mem_starLazy : (l, r) ∈ starLazy p s ↔ s = l ++ r ∧ ∀ a ∈ l, p a = true := by
  rw [← mem_star]
  induction s generalizing l r with
  | nil => exact Iff.rfl
  | cons a s ih =>
    rw [starLazy, star]
    by_cases h : p a = true
    · rw [if_pos h, if_pos h, List.mem_cons, List.mem_append, List.mem_singleton, List.mem_map,
        List.mem_map, or_comm]
      exact or_congr_left (exists_congr fun x ↦ and_congr_left fun _ ↦ ih)
    · rw [if_neg h, if_neg h]

theorem mem_plus : (l, r) ∈ plus p s ↔ s = l ++ r ∧ l ≠ [] ∧ ∀ a ∈ l, p a = true := by
  rw [plus, mem_bind]
  constructor
  · rintro ⟨a, s', hone, hrest⟩
    obtain ⟨l', r', hstar, hpure⟩ := mem_bind.mp hrest
    obtain ⟨rfl, rfl⟩ := mem_pure.mp hpure
    obtain ⟨rfl, ha⟩ := mem_one.mp hone
    obtain ⟨rfl, hl⟩ := mem_star.mp hstar
    exact ⟨rfl, by simp, List.forall_mem_cons.mpr ⟨ha, hl⟩⟩
  · rintro ⟨rfl, hne, hl⟩
    obtain ⟨a, l, rfl⟩ := List.exists_cons_of_ne_nil hne
    obtain ⟨ha, hl⟩ := List.forall_mem_cons.mp hl
    exact ⟨a, l ++ r, mem_one.mpr ⟨rfl, ha⟩,
      mem_bind.mpr ⟨l, r, mem_star.mpr ⟨rfl, hl⟩, mem_pure.mpr ⟨rfl, rfl⟩⟩⟩

theorem mem_plusLazy : (l, r) ∈ plusLazy p s ↔ s = l ++ r ∧ l ≠ [] ∧ ∀ a ∈ l, p a = true := by
  rw [← mem_plus, plus, plusLazy, mem_bind, mem_bind]
  refine exists_congr fun a ↦ exists_congr fun s' ↦ and_congr_right fun _ ↦ ?_
  rw [mem_bind, mem_bind]
  refine exists_congr fun l' ↦ exists_congr fun r' ↦ and_congr_left fun _ ↦ ?_
  rw [mem_starLazy, mem_star]

theorem mem_opt {o : Option β} :
    (o, r) ∈ opt m s ↔ (∃ b, o = some b ∧ (b, r) ∈ m s) ∨ o = none ∧ r = s := by
  rw [opt, List.mem_append, List.mem_map, List.mem_singleton, Prod.mk.injEq]
  refine or_congr_left ?_
  constructor
  · rintro ⟨⟨b, r'⟩, hmem, heq⟩
    obtain ⟨rfl, rfl⟩ := Prod.mk.inj heq
    exact ⟨b, rfl, hmem⟩
  · rintro ⟨b, rfl, hmem⟩
    exact ⟨(b, r), hmem, rfl⟩

theorem mem_orElse : (b, r) ∈ orElse m m' s ↔ (b, r) ∈ m s ∨ (b, r) ∈ m' s := List.mem_append

theorem mem_atEnd {u : Unit} : (u, r) ∈ atEnd s ↔ s = [] ∧ r = [] := by
  rcases s with _ | ⟨a, s⟩
  · simp [atEnd]
  · simp [atEnd]

theorem mem_notAtEnd {u : Unit} : (u, r) ∈ notAtEnd s ↔ s ≠ [] ∧ r = s := by
  rcases s with _ | ⟨a, s⟩
  · simp [notAtEnd]
  · simp [notAtEnd]

/-! ## The way that is taken -/

theorem exec_eq_none_iff : exec m s = none ↔ ∀ b r, (b, r) ∉ m s := by
  rw [exec, Option.map_eq_none_iff, List.head?_eq_none_iff, List.eq_nil_iff_forall_not_mem]
  exact ⟨fun h b r ↦ h (b, r), fun h x ↦ h x.1 x.2⟩

theorem mem_of_exec (h : exec m s = some b) : ∃ r, (b, r) ∈ m s := by
  obtain ⟨x, hx, rfl⟩ := Option.map_eq_some_iff.mp h
  exact ⟨x.2, List.mem_of_mem_head? hx⟩

theorem exists_of_search (h : search m s = some b) : ∃ t, t <:+ s ∧ exec m t = some b := by
  obtain ⟨before, t, after, hsplit, hb, -⟩ := List.findSome?_eq_some_iff.mp h
  exact ⟨t, (List.mem_tails _ _).mp (hsplit ▸ by simp), hb⟩

theorem search_ne_none (h : ∃ t, t <:+ s ∧ exec m t ≠ none) : search m s ≠ none := by
  obtain ⟨t, ht, hne⟩ := h
  exact fun hnone ↦ hne (List.findSome?_eq_none_iff.mp hnone t ((List.mem_tails _ _).mpr ht))

theorem search_of_exec (h : exec m s = some b) : search m s = some b := by
  rcases s with _ | ⟨a, s⟩
  · exact (List.findSome?_singleton ..).trans h
  · rw [search, List.tails_cons, List.findSome?_cons, h]

theorem search_cons_of_exec_eq_none (h : exec m (a :: s) = none) :
    search m (a :: s) = search m s := by
  rw [search, List.tails_cons, List.findSome?_cons, h]
  rfl

theorem exec_bind (m : Pattern α β) (f : β → Pattern α γ) (s : List α) :
    exec (m >>= f) s = (m s).findSome? fun r ↦ exec (f r.1) r.2 := by
  show ((m s).flatMap fun r ↦ f r.1 r.2).head?.map Prod.fst = _
  rw [List.head?_flatMap, List.map_findSome?]
  rfl

theorem exec_bind_pure (m : Pattern α β) (g : β → γ) (s : List α) :
    exec (m >>= fun b ↦ pure (g b)) s = (exec m s).map g := by
  rw [exec_bind, exec]
  rcases m s with _ | ⟨x, l⟩
  · rfl
  · rfl

/-- A lazy repetition goes on when the rest cannot. -/
theorem exec_starLazy_bind_cons {f : List α → Pattern α γ} :
    exec (starLazy p >>= f) (a :: s) =
      (exec (f []) (a :: s)).or
        (if p a then exec (starLazy p >>= fun l ↦ f (a :: l)) s else none) := by
  rw [exec_bind, starLazy]
  split_ifs
  · rw [List.findSome?_cons, List.findSome?_map, exec_bind]
    rcases exec (f []) (a :: s) with _ | c
    · rfl
    · rfl
  · rw [List.findSome?_cons, List.findSome?_nil]
    rcases exec (f []) (a :: s) with _ | c
    · rfl
    · rfl

/-- **The first way** with which the rest can go on is taken. -/
theorem exec_bind_eq_some :
    exec (m >>= f) s = some c ↔
      ∃ before x after, m s = before ++ x :: after ∧ exec (f x.1) x.2 = some c ∧
        ∀ y ∈ before, exec (f y.1) y.2 = none := by
  rw [exec_bind, List.findSome?_eq_some_iff]

/-- The way that is taken comes before every other with which the rest can go on. -/
theorem exists_of_exec_bind {R : β × List α → β × List α → Prop} (hm : (m s).Pairwise R)
    (h : exec (m >>= f) s = some c) :
    ∃ x ∈ m s, exec (f x.1) x.2 = some c ∧
      ∀ y ∈ m s, exec (f y.1) y.2 ≠ none → y = x ∨ R x y := by
  obtain ⟨before, x, after, hsplit, hx, hbefore⟩ := exec_bind_eq_some.mp h
  rw [hsplit] at hm ⊢
  refine ⟨x, by simp, hx, fun y hy hne ↦ ?_⟩
  rcases List.mem_append.mp hy with hy | hy
  · exact absurd (hbefore y hy) hne
  · rcases List.mem_cons.mp hy with rfl | hy
    · exact .inl rfl
    · exact .inr ((List.pairwise_cons.mp (List.pairwise_append.mp hm).2.1).1 y hy)

theorem pairwise_bind {R : β × List α → β × List α → Prop} {S : γ × List α → γ × List α → Prop}
    (hm : (m s).Pairwise R) (hf : ∀ x ∈ m s, (f x.1 x.2).Pairwise S)
    (h : ∀ x ∈ m s, ∀ y ∈ m s, R x y → ∀ x' ∈ f x.1 x.2, ∀ y' ∈ f y.1 y.2, S x' y') :
    ((m >>= f) s).Pairwise S := by
  show ((m s).flatMap fun r ↦ f r.1 r.2).Pairwise S
  rw [List.pairwise_flatMap]
  exact ⟨hf, hm.imp_of_mem fun hx hy hxy x' hx' y' hy' ↦ h _ hx _ hy hxy x' hx' y' hy'⟩

theorem pairwise_one {R : α × List α → α × List α → Prop} (p : α → Bool) (s : List α) :
    (one p s).Pairwise R := by
  rcases s with _ | ⟨a, s⟩
  · exact List.Pairwise.nil
  · rw [one]
    split_ifs
    · exact List.pairwise_singleton _ _
    · exact List.Pairwise.nil

/-- A greedy repetition prefers the longer ways. -/
theorem pairwise_star (p : α → Bool) (s : List α) :
    (star p s).Pairwise fun x y ↦ y.1.length < x.1.length := by
  induction s with
  | nil => exact List.pairwise_singleton _ _
  | cons a s ih =>
    rw [star]
    split_ifs with h
    · rw [List.pairwise_append, List.pairwise_map]
      refine ⟨ih.imp fun hlt ↦ Nat.succ_lt_succ hlt, List.pairwise_singleton _ _, ?_⟩
      intro x hx y hy
      obtain ⟨x', -, rfl⟩ := List.mem_map.mp hx
      rw [List.mem_singleton.mp hy]
      exact Nat.succ_pos _
    · exact List.pairwise_singleton _ _

theorem plus_cons (p : α → Bool) (a : α) (s : List α) :
    plus p (a :: s) = if p a then (star p s).map fun r ↦ (a :: r.1, r.2) else [] := by
  show (one p (a :: s)).flatMap _ = _
  rw [one]
  split_ifs
  · show List.flatMap _ [(a, s)] = _
    rw [List.flatMap_singleton]
    show (star p s).flatMap (fun r ↦ [(a :: r.1, r.2)]) = _
    exact List.flatMap_pure_eq_map ..
  · rfl

/-- A repetition that cannot begin. -/
theorem star_of_head (h : ∀ a, s.head? = some a → p a = false) : star p s = [([], s)] := by
  rcases s with _ | ⟨a, s⟩
  · rfl
  · rw [star, if_neg (by simp [h a rfl])]

theorem pairwise_plus (p : α → Bool) (s : List α) :
    (plus p s).Pairwise fun x y ↦ y.1.length < x.1.length := by
  rcases s with _ | ⟨a, s⟩
  · exact List.Pairwise.nil
  · rw [plus_cons]
    split_ifs
    · rw [List.pairwise_map]
      exact (pairwise_star p s).imp fun hlt ↦ Nat.succ_lt_succ hlt
    · exact List.Pairwise.nil

/-- What it leaves is less. -/
theorem pairwise_plus_rest (p : α → Bool) (s : List α) :
    (plus p s).Pairwise fun x y ↦ x.2.length < y.2.length := by
  refine (pairwise_plus p s).imp_of_mem fun {x y} hx hy hlt ↦ ?_
  have hx' := congrArg List.length (mem_plus.mp hx).1
  have hy' := congrArg List.length (mem_plus.mp hy).1
  rw [List.length_append] at hx' hy'
  omega

end Pattern

end SpiderNode.Regex
