import SpiderNode.Exceptions.TryCatch
import SpiderNode.Machine.Runs
import Mathlib.Data.List.Nodup
import Mathlib.Order.Nat

/-!
# No exception is lost

What `TryCatch` scopes are for: an exception is reported by the scope in which it is raised, an
outer scope reports it only if it has been rethrown to it, and a scope that catches nothing leaves
behind what was pending when it was entered.

The code keeps to it in runs that are calm. The single pending exception is what goes wrong
otherwise: the destructor clears it whether or not it was there before the scope was entered
(`pending_exception_lost`).

The invariant `WellScoped` orders exceptions and scopes by the time they came into being. What a
scope has caught was raised after it was entered, and before the next scope inside of it was.
-/

namespace SpiderNode.Exceptions

open Handles (Fault)

variable {α : Type*}

/-! ## Runs -/

inductive Event (α : Type*) where
  | enterTry
  | leaveTry
  | enterBoundary
  | leaveBoundary
  | throwException (v : α)
  | fail (v : Option α)
  | reThrow (n : ℕ)
  | setCaptureMessage (n : ℕ) (value : Bool)

namespace Handlers

/-- Scopes are left from the innermost on, and only a `TryCatch` that has been entered is used. -/
def Nested (s : Handlers α) : Event α → Bool
  | .leaveTry => s.innermost.isSome
  | .leaveBoundary => !s.chain.isEmpty && s.innermost.isNone
  | .reThrow n | .setCaptureMessage n _ => s.catchers.any (·.number = n)
  | .enterTry | .enterBoundary | .throwException _ | .fail _ => true

variable (details : α → Option Details)

def happen (s : Handlers α) : Event α → Except Fault (Handlers α)
  | .enterTry => .ok s.enterTry
  | .leaveTry => s.leaveTry details
  | .enterBoundary => .ok s.enterBoundary
  | .leaveBoundary => s.leaveBoundary
  | .throwException v => .ok (s.throwException v)
  | .fail v => s.fail details v
  | .reThrow n => s.reThrow n
  | .setCaptureMessage n value => .ok (s.setCaptureMessage n value)

def machine : Machine (Handlers α) (Event α) Fault := ⟨fun s e ↦ s.Nested e, happen details⟩

instance (s : Handlers α) : DecidablePred ((machine details).guard s) := fun e ↦
  inferInstanceAs (Decidable (s.Nested e = true))

/-- An exception raised while a `TryCatch` is the innermost scope is reported by it, unless a later
one is. -/
def AllCaught (s : Handlers α) : Prop :=
  ∀ x ∈ s.raised, ∀ c ∈ s.catchers, x.scope = some c.number →
    ∃ y, c.mException = some y ∧ x.number ≤ y.number

/-- Each exception is reported by its own scope, and by no outer one to which it has not been
rethrown. -/
structure Reported (s : Handlers α) : Prop where
  caught : s.AllCaught
  own : ∀ c ∈ s.catchers, ∀ x n, c.mException = some x → x.scope = some n → c.number < n →
    (x, some c.number) ∈ s.rethrown

/-- When the innermost scope, a `TryCatch`, is left, what was pending when it was entered is pending
if it has not caught anything, and the next scope sees what it has rethrown. -/
structure LeftTo (c : Catcher α) (t : Handlers α) : Prop where
  kept : c.mException = none → t.pending = c.atEntry
  rethrown : c.mRethrown = true → ∃ x, c.atReThrow = some x ∧ t.pending = some x ∧
    ∀ d ∈ t.innermost, d.mException = some x

/-- No exception is lost by a step. -/
structure Scoping (s : Handlers α) (e : Event α) (t : Handlers α) : Prop where
  reported : t.Reported
  left : ∀ c ∈ s.innermost, e = .leaveTry → LeftTo c t

/-- The scope next to the innermost one, if it is a `TryCatch`. -/
def next (s : Handlers α) : Option (Catcher α) := s.chain.tail.head?.bind Link.catcher?

/-- A `TryCatch` is entered when nothing is pending; `ThrowException` is called in no `TryCatch`
directly, but in a boundary inside of it; and a `TryCatch` that is going to rethrow catches nothing
any more. -/
def Calm (s : Handlers α) : Event α → Prop
  | .enterTry => s.pending = none
  | .throwException _ => s.innermost = none
  | .fail _ => ∀ c ∈ s.innermost, c.mRethrown = false
  | .leaveTry => ∀ c ∈ s.innermost, c.mRethrown = true → ∀ d ∈ s.next, d.mRethrown = false
  | .enterBoundary | .leaveBoundary | .reThrow _ | .setCaptureMessage _ _ => True

instance (s : Handlers α) : DecidablePred s.Calm
  | .enterTry => inferInstanceAs (Decidable (s.pending = none))
  | .throwException _ => inferInstanceAs (Decidable (s.innermost = none))
  | .fail _ => inferInstanceAs (Decidable (∀ c ∈ s.innermost, c.mRethrown = false))
  | .leaveTry => inferInstanceAs (Decidable (∀ c ∈ s.innermost, c.mRethrown = true →
    ∀ d ∈ s.next, d.mRethrown = false))
  | .enterBoundary | .leaveBoundary | .reThrow _ | .setCaptureMessage _ _ => .isTrue trivial

end Handlers

/-! ## The invariant -/

variable {details : α → Option Details} {s t : Handlers α} {c d : Catcher α}
  {L : List (Catcher α)}

/-- A `TryCatch` after it has been entered with nothing pending. -/
structure Catcher.Fine (s : Handlers α) (c : Catcher α) : Prop where
  number_lt : c.number < s.entered
  raisedBefore_le : c.raisedBefore ≤ s.raised.length
  atEntry : c.atEntry = none
  since : ∀ x, c.mException = some x → c.raisedBefore ≤ x.number ∧ x.number < s.raised.length
  own : ∀ x n, c.mException = some x → x.scope = some n → c.number < n →
    (x, some c.number) ∈ s.rethrown
  rethrows : c.mRethrown = true → ∃ x, c.mException = some x ∧ c.atReThrow = some x ∧
    (x, c.outer) ∈ s.rethrown

/-- A `TryCatch` is inside of another one, which has not caught anything since. -/
structure Catcher.Inside (c d : Catcher α) : Prop where
  number_lt : d.number < c.number
  raisedBefore_le : d.raisedBefore ≤ c.raisedBefore
  before : ∀ x, d.mException = some x → x.number < c.raisedBefore

/-- Each `TryCatch` knows the next one outside of it. -/
def Linked : List (Catcher α) → Prop
  | [] => True
  | c :: rest => c.outer = rest.head?.map Catcher.number ∧ Linked rest

/-- The exception that is pending was raised when all scopes had been entered, in one of them or in
none, or has been rethrown to the innermost one. -/
structure Pends (s : Handlers α) (x : Raised α) : Prop where
  number_lt : x.number < s.raised.length
  after : ∀ c ∈ s.catchers, c.raisedBefore ≤ x.number
  latest : ∀ c ∈ s.catchers, ∀ y, c.mException = some y → y.number ≤ x.number
  scope : ∀ n, x.scope = some n → (∃ c ∈ s.catchers, c.number = n) ∨
    (x, s.catchers.head?.map Catcher.number) ∈ s.rethrown

structure WellScoped (s : Handlers α) : Prop where
  scopes : ∀ x ∈ s.raised, ∀ n, x.scope = some n → n < s.entered
  fine : ∀ c ∈ s.catchers, c.Fine s
  nested : s.catchers.Pairwise Catcher.Inside
  linked : Linked s.catchers
  pends : ∀ x, s.pending = some x → Pends s x

theorem Catcher.Fine.mono (h : c.Fine s) (hentered : s.entered ≤ t.entered)
    (hraised : s.raised.length ≤ t.raised.length) (hrethrown : s.rethrown ⊆ t.rethrown) :
    c.Fine t where
  number_lt := h.number_lt.trans_le hentered
  raisedBefore_le := h.raisedBefore_le.trans hraised
  atEntry := h.atEntry
  since x hx := ⟨(h.since x hx).1, (h.since x hx).2.trans_le hraised⟩
  own x n hx hn hlt := hrethrown (h.own x n hx hn hlt)
  rethrows hr := by
    obtain ⟨x, hx, hre, hmem⟩ := h.rethrows hr
    exact ⟨x, hx, hre, hrethrown hmem⟩

theorem linked_map {f : Catcher α → Catcher α} (hf : ∀ c, (f c).number = c.number ∧
    (f c).outer = c.outer) (h : Linked L) : Linked (L.map f) := by
  induction L with
  | nil => trivial
  | cons c L ih =>
    refine ⟨?_, ih h.2⟩
    rw [(hf c).2, h.1]
    cases L with
    | nil => rfl
    | cons d L => simp [(hf d).1]

/-- The numbers of scopes are different. -/
theorem WellScoped.eq_of_number_eq (h : WellScoped s) (hc : c ∈ s.catchers) (hd : d ∈ s.catchers)
    (hn : c.number = d.number) : c = d := by
  have hnodup : (s.catchers.map Catcher.number).Nodup :=
    List.pairwise_map.mpr (h.nested.imp fun hcd ↦ hcd.number_lt.ne')
  exact List.inj_on_of_nodup_map hnodup hc hd hn

namespace WellScoped

variable {v : α} {n : ℕ}

theorem init : WellScoped (Handlers.init : Handlers α) where
  scopes := by simp [Handlers.init]
  fine := by simp [Handlers.init, Handlers.catchers]
  nested := .nil
  linked := trivial
  pends := by simp [Handlers.init]

/-- Only the `TryCatch` scopes matter, not the boundaries between them. -/
theorem of_catchers_eq (h : WellScoped s) (hcatchers : t.catchers = s.catchers)
    (hpending : t.pending = s.pending) (hentered : t.entered = s.entered)
    (hraised : t.raised = s.raised) (hrethrown : t.rethrown = s.rethrown) : WellScoped t where
  scopes := by rw [hraised, hentered]; exact h.scopes
  fine c hc := (h.fine c (hcatchers ▸ hc)).mono hentered.ge
    (by rw [hraised]) (by rw [hrethrown]; exact List.Subset.refl _)
  nested := hcatchers ▸ h.nested
  linked := hcatchers ▸ h.linked
  pends x hx := by
    have hp := h.pends x (hpending ▸ hx)
    refine ⟨hraised ▸ hp.number_lt, hcatchers ▸ hp.after, hcatchers ▸ hp.latest, fun n hn ↦ ?_⟩
    rw [hcatchers, hrethrown]
    exact hp.scope n hn

/-- An exception that is raised was raised after all others. -/
theorem raise (h : WellScoped s) : WellScoped (s.raise v) where
  scopes x hx n hn := by
    rcases List.mem_cons.mp hx with rfl | hx
    · obtain ⟨c, hc, rfl⟩ := Option.map_eq_some_iff.mp hn
      exact (h.fine c (Handlers.mem_catchers_of_innermost hc)).number_lt
    · exact h.scopes x hx n hn
  fine c hc := (h.fine c hc).mono le_rfl (Nat.le_succ _) (List.Subset.refl _)
  nested := h.nested
  linked := h.linked
  pends x hx := by
    obtain rfl := Option.some.inj hx
    refine ⟨Nat.lt_succ_self _, fun c hc ↦ (h.fine c hc).raisedBefore_le,
      fun c hc y hy ↦ ((h.fine c hc).since y hy).2.le, fun n hn ↦ ?_⟩
    obtain ⟨c, hc, rfl⟩ := Option.map_eq_some_iff.mp hn
    exact .inl ⟨c, Handlers.mem_catchers_of_innermost hc, rfl⟩

/-- The innermost scope stores what is pending. -/
theorem store (h : WellScoped s) {x : Raised α} (hx : s.pending = some x) {rest : List (Link α)}
    (hchain : s.chain = .catcher c :: rest) {tc : TryCatch α} (htc : tc.mException = some x)
    (hr : tc.mRethrown = false) :
    WellScoped { s with chain := .catcher { c with toTryCatch := tc } :: rest } := by
  obtain ⟨hnumber, hafter, hlatest, hscope⟩ := h.pends x hx
  have hcatchers : s.catchers = c :: rest.filterMap Link.catcher? := by
    rw [Handlers.catchers, hchain]
    rfl
  have hfine := h.fine
  have hnested := h.nested
  have hlinked := h.linked
  rw [hcatchers] at hafter hlatest hscope hfine hnested hlinked
  rw [List.pairwise_cons] at hnested
  have hc := hfine c List.mem_cons_self
  -- the scope in which it was raised is this one, unless it has been rethrown to this one
  have hown : ∀ n, x.scope = some n → c.number < n → (x, some c.number) ∈ s.rethrown := by
    intro n hn hlt
    rcases hscope n hn with ⟨d, hd, rfl⟩ | hmem
    · rcases List.mem_cons.mp hd with rfl | hd
      · exact absurd hlt (lt_irrefl _)
      · exact absurd hlt (hnested.1 d hd).number_lt.asymm
    · exact hmem
  refine ⟨h.scopes, fun d hd ↦ ?_, List.pairwise_cons.mpr ⟨fun d hd ↦ ?_, hnested.2⟩, hlinked,
    fun y hy ↦ ?_⟩
  · rcases List.mem_cons.mp hd with rfl | hd
    · refine ⟨hc.number_lt, hc.raisedBefore_le, hc.atEntry, fun y hy ↦ ?_, fun y n hy hn hlt ↦ ?_,
        fun hre ↦ ?_⟩
      · obtain rfl : x = y := Option.some.inj (htc.symm.trans hy)
        exact ⟨hafter c List.mem_cons_self, hnumber⟩
      · obtain rfl : x = y := Option.some.inj (htc.symm.trans hy)
        exact hown n hn hlt
      · exact absurd (hr.symm.trans hre) (by simp)
    · exact (hfine d (List.mem_cons_of_mem c hd)).mono le_rfl le_rfl (List.Subset.refl _)
  · have hin := hnested.1 d hd
    exact ⟨hin.number_lt, hin.raisedBefore_le, hin.before⟩
  · obtain rfl : x = y := Option.some.inj (hx.symm.trans hy)
    refine ⟨hnumber, fun d hd ↦ ?_, fun d hd z hz ↦ ?_, fun n hn ↦ ?_⟩
    · rcases List.mem_cons.mp hd with rfl | hd
      · exact hafter c List.mem_cons_self
      · exact hafter d (List.mem_cons_of_mem c hd)
    · rcases List.mem_cons.mp hd with rfl | hd
      · obtain rfl : x = z := Option.some.inj (htc.symm.trans hz)
        exact le_rfl
      · exact hlatest d (List.mem_cons_of_mem c hd) z hz
    · rcases hscope n hn with ⟨d, hd, rfl⟩ | hmem
      · rcases List.mem_cons.mp hd with rfl | hd
        · exact .inl ⟨_, List.mem_cons_self, rfl⟩
        · exact .inl ⟨d, List.mem_cons_of_mem _ hd, rfl⟩
      · exact .inr hmem

/-- A `TryCatch` is entered when nothing is pending. -/
theorem enterTry (h : WellScoped s) (hnone : s.pending = none) : WellScoped s.enterTry where
  scopes x hx n hn := (h.scopes x hx n hn).trans (Nat.lt_succ_self _)
  fine c hc := by
    rcases List.mem_cons.mp hc with rfl | hc
    · exact ⟨Nat.lt_succ_self _, le_rfl, hnone, by simp [TryCatch.new], by simp [TryCatch.new],
        by simp [TryCatch.new]⟩
    · exact (h.fine c hc).mono (Nat.le_succ _) le_rfl (List.Subset.refl _)
  nested := by
    refine List.pairwise_cons.mpr ⟨fun d hd ↦ ?_, h.nested⟩
    have hfine := h.fine d hd
    exact ⟨hfine.number_lt, hfine.raisedBefore_le, fun y hy ↦ (hfine.since y hy).2⟩
  linked := ⟨rfl, h.linked⟩
  pends x hx := by
    have hx' : s.pending = some x := hx
    rw [hnone] at hx'
    cases hx'

/-- The innermost `TryCatch` is left; what it rethrows is pending then. -/
theorem leave (h : WellScoped s) {rest : List (Link α)} (hchain : s.chain = .catcher c :: rest)
    {x : Option (Raised α)}
    (hx : ∀ y, x = some y → c.mException = some y ∧ c.mRethrown = true) :
    WellScoped { s with chain := rest, pending := x } := by
  have hcatchers : s.catchers = c :: rest.filterMap Link.catcher? := by
    rw [Handlers.catchers, hchain]
    rfl
  have hfine := h.fine
  have hnested := h.nested
  have hlinked := h.linked
  rw [hcatchers] at hfine hnested hlinked
  rw [List.pairwise_cons] at hnested
  refine ⟨h.scopes, fun d hd ↦ (hfine d (List.mem_cons_of_mem c hd)).mono le_rfl le_rfl
    (List.Subset.refl _), hnested.2, hlinked.2, fun y hy ↦ ?_⟩
  obtain ⟨hy, hre⟩ := hx y hy
  have hc := hfine c List.mem_cons_self
  refine ⟨(hc.since y hy).2, fun d hd ↦ ?_, fun d hd z hz ↦ ?_, fun n hn ↦ .inr ?_⟩
  · exact (hnested.1 d hd).raisedBefore_le.trans (hc.since y hy).1
  · exact (((hnested.1 d hd).before z hz).trans_le (hc.since y hy).1).le
  · obtain ⟨z, hz, -, hmem⟩ := hc.rethrows hre
    obtain rfl : y = z := Option.some.inj (hy.symm.trans hz)
    rw [hlinked.1] at hmem
    exact hmem

/-- The `TryCatch` scopes are changed one by one, in what does not matter for the order. -/
theorem map (h : WellScoped s) {f : Catcher α → Catcher α}
    (hcatchers : t.catchers = s.catchers.map f)
    (hf : ∀ c, (f c).number = c.number ∧ (f c).outer = c.outer ∧
      (f c).raisedBefore = c.raisedBefore ∧ (f c).mException = c.mException)
    (hfine : ∀ c ∈ s.catchers, (f c).Fine t) (hpending : t.pending = s.pending)
    (hentered : t.entered = s.entered) (hraised : t.raised = s.raised)
    (hrethrown : s.rethrown ⊆ t.rethrown) : WellScoped t where
  scopes := by rw [hraised, hentered]; exact h.scopes
  fine c hc := by
    rw [hcatchers] at hc
    obtain ⟨d, hd, rfl⟩ := List.mem_map.mp hc
    exact hfine d hd
  nested := by
    rw [hcatchers]
    refine List.pairwise_map.mpr (h.nested.imp fun {c d} hcd ↦ ⟨?_, ?_, fun x hx ↦ ?_⟩)
    · rw [(hf c).1, (hf d).1]
      exact hcd.number_lt
    · rw [(hf c).2.2.1, (hf d).2.2.1]
      exact hcd.raisedBefore_le
    · rw [(hf c).2.2.1]
      exact hcd.before x ((hf d).2.2.2 ▸ hx)
  linked := by
    rw [hcatchers]
    exact linked_map (fun c ↦ ⟨(hf c).1, (hf c).2.1⟩) h.linked
  pends x hx := by
    have hp := h.pends x (hpending ▸ hx)
    have hhead : t.catchers.head?.map Catcher.number = s.catchers.head?.map Catcher.number := by
      rw [hcatchers]
      cases s.catchers with
      | nil => rfl
      | cons c L => simp [(hf c).1]
    refine ⟨hraised ▸ hp.number_lt, fun c hc ↦ ?_, fun c hc y hy ↦ ?_, fun n hn ↦ ?_⟩
    · rw [hcatchers] at hc
      obtain ⟨d, hd, rfl⟩ := List.mem_map.mp hc
      rw [(hf d).2.2.1]
      exact hp.after d hd
    · rw [hcatchers] at hc
      obtain ⟨d, hd, rfl⟩ := List.mem_map.mp hc
      exact hp.latest d hd y ((hf d).2.2.2 ▸ hy)
    · rw [hhead]
      rcases hp.scope n hn with ⟨c, hc, rfl⟩ | hmem
      · exact .inl ⟨f c, hcatchers ▸ List.mem_map_of_mem hc, (hf c).1⟩
      · exact .inr (hrethrown hmem)

theorem setCaptureMessage (h : WellScoped s) {value : Bool} :
    WellScoped (s.setCaptureMessage n value) := by
  refine h.map (Handlers.catchers_modify ..) (fun c ↦ ?_) (fun c hc ↦ ?_) rfl rfl rfl
    (List.Subset.refl _)
  · split_ifs <;> exact ⟨rfl, rfl, rfl, rfl⟩
  · have hfine := h.fine c hc
    split_ifs
    · exact ⟨hfine.number_lt, hfine.raisedBefore_le, hfine.atEntry, hfine.since, hfine.own,
        hfine.rethrows⟩
    · exact hfine.mono le_rfl le_rfl (List.Subset.refl _)

theorem reThrow (h : WellScoped s) (ht : s.reThrow n = .ok t) : WellScoped t := by
  rcases Handlers.reThrow_cases ht with rfl | ⟨c, x, hc, rfl, hx, rfl⟩
  · exact h
  · refine h.map (Handlers.catchers_modify ..) (fun d ↦ ?_) (fun d hd ↦ ?_) rfl rfl rfl
      (List.subset_cons_self ..)
    · split_ifs <;> exact ⟨rfl, rfl, rfl, rfl⟩
    · have hfine := (h.fine d hd).mono (t := { s.modify c.number Catcher.rethrow with
        rethrown := (x, c.outer) :: s.rethrown }) le_rfl le_rfl (List.subset_cons_self ..)
      split_ifs with hn
      · obtain rfl := h.eq_of_number_eq hd hc hn
        exact ⟨hfine.number_lt, hfine.raisedBefore_le, hfine.atEntry, hfine.since, hfine.own,
          fun _ ↦ ⟨x, hx, hx, List.mem_cons_self⟩⟩
      · exact hfine

end WellScoped

/-! ## What has been caught -/

/-- An exception that has just been raised is going to be reported by the innermost scope. -/
def CaughtNext (s : Handlers α) : Prop :=
  ∀ x ∈ s.raised, ∀ c ∈ s.catchers, x.scope = some c.number →
    (∃ y, c.mException = some y ∧ x.number ≤ y.number) ∨ s.innermost = some c ∧ s.pending = some x

theorem caughtNext_of_allCaught (h : s.AllCaught) : CaughtNext s :=
  fun x hx c hc hn ↦ .inl (h x hx c hc hn)

theorem caughtNext_raise (hs : WellScoped s) (h : s.AllCaught) (v : α) :
    CaughtNext (s.raise v) := by
  intro x hx c hc hn
  rcases List.mem_cons.mp hx with rfl | hx
  · obtain ⟨d, hd, hnumber⟩ := Option.map_eq_some_iff.mp hn
    obtain rfl := hs.eq_of_number_eq (Handlers.mem_catchers_of_innermost hd) hc hnumber
    exact .inr ⟨hd, rfl⟩
  · exact .inl (h x hx c hc hn)

/-- A scope is left, or a boundary is. -/
theorem allCaught_of_subset (h : s.AllCaught) (hraised : t.raised = s.raised)
    (hcatchers : t.catchers ⊆ s.catchers) : t.AllCaught :=
  fun x hx c hc hn ↦ h x (hraised ▸ hx) c (hcatchers hc) hn

theorem allCaught_modify (h : s.AllCaught) {f : Catcher α → Catcher α} {n : ℕ}
    (hf : ∀ c, (f c).number = c.number ∧ (f c).mException = c.mException)
    (hcatchers : t.catchers = (s.modify n f).catchers) (hraised : t.raised = s.raised) :
    t.AllCaught := by
  intro x hx c hc hn
  rw [hcatchers, Handlers.catchers_modify] at hc
  obtain ⟨d, hd, rfl⟩ := List.mem_map.mp hc
  have hd' : (if d.number = n then f d else d).number = d.number ∧
      (if d.number = n then f d else d).mException = d.mException := by
    split_ifs
    · exact hf d
    · exact ⟨rfl, rfl⟩
  rw [hd'.1] at hn
  rw [hd'.2]
  exact h x (hraised ▸ hx) d hd hn

theorem allCaught_enterTry (hs : WellScoped s) (h : s.AllCaught) : s.enterTry.AllCaught := by
  intro x hx c hc hn
  rcases List.mem_cons.mp hc with rfl | hc
  · exact absurd (hs.scopes x hx _ hn) (lt_irrefl _)
  · exact h x hx c hc hn

/-- `CheckForException` keeps the order, and an exception that has just been raised is reported. -/
theorem check (hs : WellScoped s) (h : CaughtNext s) (hr : ∀ c ∈ s.innermost, c.mRethrown = false)
    (ht : s.checkForException details = .ok t) :
    WellScoped t ∧ t.AllCaught ∧ t.pending = s.pending ∧
      (s.pending.isSome → ∀ c ∈ t.innermost, c.mException = s.pending) := by
  rcases Handlers.checkForException_cases ht with ⟨rfl, hnone⟩ | ⟨x, c, rest, hx, hchain, rfl⟩
  · refine ⟨hs, fun x hx c hc hn ↦ ?_, rfl, fun hsome c hc ↦ ?_⟩
    · rcases h x hx c hc hn with hcaught | ⟨hinner, hpending⟩
      · exact hcaught
      · rw [hinner, hpending] at hnone
        rcases hnone with hnone | hnone <;> cases hnone
    · rw [Option.mem_def.mp hc] at hnone
      rcases hnone with hnone | hnone
      · rw [hnone] at hsome
        cases hsome
      · cases hnone
  · have hinner : s.innermost = some c := by
      rw [Handlers.innermost, hchain]
      rfl
    have hcatchers : s.catchers = c :: rest.filterMap Link.catcher? := by
      rw [Handlers.catchers, hchain]
      rfl
    refine ⟨hs.store hx hchain TryCatch.mException_store
      (TryCatch.mRethrown_store.trans (hr c hinner)), fun y hy d hd hn ↦ ?_, rfl, fun _ d hd ↦ ?_⟩
    · have hmem : c ∈ s.catchers := Handlers.mem_catchers_of_innermost hinner
      rcases List.mem_cons.mp hd with rfl | hd
      · refine ⟨x, TryCatch.mException_store, ?_⟩
        rcases h y hy c hmem hn with ⟨z, hz, hle⟩ | ⟨-, hpending⟩
        · exact hle.trans ((hs.pends x hx).latest c hmem z hz)
        · rw [Option.some.inj (hpending.symm.trans hx)]
      · have hnested := hs.nested
        rw [hcatchers, List.pairwise_cons] at hnested
        rcases h y hy d (hcatchers ▸ List.mem_cons_of_mem c hd) hn with hcaught | ⟨hinner', -⟩
        · exact hcaught
        · obtain rfl : c = d := Option.some.inj (hinner.symm.trans hinner')
          exact absurd (hnested.1 c hd).number_lt (lt_irrefl _)
    · obtain rfl := Option.some.inj hd
      rw [hx]
      exact TryCatch.mException_store

/-! ## Runs that are calm -/

theorem catchers_tail {rest : List (Link α)} (h : s.chain = .catcher c :: rest)
    {x : Option (Raised α)} :
    ({ s with chain := rest, pending := x } : Handlers α).catchers ⊆ s.catchers := by
  rw [Handlers.catchers, Handlers.catchers, h]
  exact List.subset_cons_self c _

/-- What leaving a `TryCatch` calmly leads to. -/
theorem leaveTry_calm (hs : WellScoped s) (h : s.AllCaught) (hcalm : s.Calm .leaveTry)
    (ht : s.leaveTry details = .ok t) :
    WellScoped t ∧ t.AllCaught ∧ ∀ c ∈ s.innermost, Handlers.LeftTo c t := by
  obtain ⟨c, rest, hchain, ⟨hr, rfl⟩ | ⟨hr, x, hx, hcheck⟩⟩ := Handlers.leaveTry_cases ht
  · refine ⟨hs.leave hchain (by simp), allCaught_of_subset h rfl (catchers_tail hchain),
      fun d hd ↦ ?_⟩
    have hfine := hs.fine d (Handlers.mem_catchers_of_innermost hd)
    rw [Handlers.innermost, hchain] at hd
    obtain rfl : c = d := Option.some.inj hd
    exact ⟨fun _ ↦ hfine.atEntry.symm, fun hre ↦ absurd (hr.symm.trans hre) (by simp)⟩
  · have hleft : WellScoped { s with chain := rest, pending := some x } :=
      hs.leave hchain fun y hy ↦ by
        obtain rfl := Option.some.inj hy
        exact ⟨hx, hr⟩
    have hcaught := allCaught_of_subset (t := { s with chain := rest, pending := some x }) h rfl
      (catchers_tail hchain)
    obtain ⟨hw, hc, hpending, hinner⟩ := check hleft (caughtNext_of_allCaught hcaught)
      (fun d hd ↦ hcalm c (by rw [Handlers.innermost, hchain]; rfl) hr d
        (by rw [Handlers.next, hchain]; exact hd)) hcheck
    refine ⟨hw, hc, fun d hd ↦ ?_⟩
    have hfine := hs.fine d (Handlers.mem_catchers_of_innermost hd)
    rw [Handlers.innermost, hchain] at hd
    obtain rfl : c = d := Option.some.inj hd
    refine ⟨fun hnone ↦ absurd (hnone.symm.trans hx) (by simp), fun _ ↦ ?_⟩
    obtain ⟨y, hy, hre, -⟩ := hfine.rethrows hr
    obtain rfl : x = y := Option.some.inj (hx.symm.trans hy)
    exact ⟨x, hre, hpending, hinner rfl⟩

/-- A calm step keeps the order, and leaves nothing unreported. -/
theorem step_calm (hs : WellScoped s) (h : s.AllCaught) {e : Event α} (hcalm : s.Calm e)
    (ht : s.happen details e = .ok t) :
    WellScoped t ∧ t.AllCaught ∧ ∀ c ∈ s.innermost, e = .leaveTry → Handlers.LeftTo c t := by
  cases e with
  | enterTry =>
    obtain rfl := Except.ok.inj ht
    exact ⟨hs.enterTry hcalm, allCaught_enterTry hs h, fun _ _ he ↦ by cases he⟩
  | leaveTry =>
    obtain ⟨hw, hc, hleft⟩ := leaveTry_calm hs h hcalm ht
    exact ⟨hw, hc, fun c hc _ ↦ hleft c hc⟩
  | enterBoundary =>
    obtain rfl := Except.ok.inj ht
    exact ⟨hs.of_catchers_eq rfl rfl rfl rfl rfl, h, fun _ _ he ↦ by cases he⟩
  | leaveBoundary =>
    obtain ⟨rest, hchain, rfl⟩ := Handlers.leaveBoundary_eq ht
    have hcatchers : ({ s with chain := rest } : Handlers α).catchers = s.catchers := by
      rw [Handlers.catchers, Handlers.catchers, hchain]
      rfl
    exact ⟨hs.of_catchers_eq hcatchers rfl rfl rfl rfl,
      allCaught_of_subset h rfl (by rw [hcatchers]; exact List.Subset.refl _),
      fun _ _ he ↦ by cases he⟩
  | throwException v =>
    obtain rfl := Except.ok.inj ht
    refine ⟨hs.raise, fun x hx c hc hn ↦ ?_, fun _ _ he ↦ by cases he⟩
    rcases caughtNext_raise hs h v x hx c hc hn with hcaught | ⟨hinner, -⟩
    · exact hcaught
    · have hnone : s.innermost = none := hcalm
      cases hnone.symm.trans hinner
  | fail v =>
    cases v with
    | none =>
      obtain ⟨hw, hc, -⟩ := check hs (caughtNext_of_allCaught h) hcalm ht
      exact ⟨hw, hc, fun _ _ he ↦ by cases he⟩
    | some v =>
      obtain ⟨hw, hc, -⟩ := check hs.raise (caughtNext_raise hs h v) hcalm ht
      exact ⟨hw, hc, fun _ _ he ↦ by cases he⟩
  | reThrow n =>
    refine ⟨hs.reThrow ht, ?_, fun _ _ he ↦ by cases he⟩
    rcases Handlers.reThrow_cases ht with rfl | ⟨c, x, -, -, -, rfl⟩
    · exact h
    · exact allCaught_modify (f := Catcher.rethrow) h (fun _ ↦ ⟨rfl, rfl⟩) rfl rfl
  | setCaptureMessage n value =>
    obtain rfl := Except.ok.inj ht
    exact ⟨hs.setCaptureMessage, allCaught_modify (f := fun c ↦ { c with mCaptureMessage := value })
      h (fun _ ↦ ⟨rfl, rfl⟩) rfl rfl, fun _ _ he ↦ by cases he⟩

theorem wellScoped_of_calm
    (h : ((Handlers.machine details).restrict Handlers.Calm).Reaches .init s) :
    WellScoped s ∧ s.AllCaught := by
  refine h.invariant (p := fun s ↦ WellScoped s ∧ s.AllCaught) ⟨.init, ?_⟩ fun hs hg ht ↦ ?_
  · intro x hx
    cases hx
  · obtain ⟨hw, hc, -⟩ := step_calm hs.1 hs.2 hg.2 ht
    exact ⟨hw, hc⟩

/-- **No exception is lost.** Each step of a calm run keeps exceptions to their scopes. -/
theorem scoping_of_calm (h : ((Handlers.machine details).restrict Handlers.Calm).Reaches .init s)
    {e : Event α} (hcalm : s.Calm e) (ht : s.happen details e = .ok t) : s.Scoping e t := by
  obtain ⟨hs, hc⟩ := wellScoped_of_calm h
  obtain ⟨hw, hc, hleft⟩ := step_calm hs hc hcalm ht
  exact ⟨⟨hc, fun c hmem ↦ (hw.fine c hmem).own⟩, hleft⟩

/-- An exception is caught in the second of two scopes and rethrown. When this scope is left, the
first one has caught the exception, which is pending again. -/
theorem scoping_of_calm_rethrown : ∃ s t : Handlers Unit,
    ((Handlers.machine fun _ ↦ none).restrict Handlers.Calm).run .init
        [.enterTry, .enterTry, .fail (some ()), .reThrow 1] = some s ∧
      s.happen (fun _ ↦ none) .leaveTry = .ok t ∧ s.Scoping .leaveTry t ∧
      t.pending = some ⟨(), 0, some 1⟩ ∧
      t.catchers.map (fun c ↦ (c.number, c.mException)) = [(0, some ⟨(), 0, some 1⟩)] := by
  have hreach := Machine.reaches_of_run
    (M := (Handlers.machine fun _ : Unit ↦ none).restrict Handlers.Calm) (s := .init)
    (l := [.enterTry, .enterTry, .fail (some ()), .reThrow 1]) rfl
  exact ⟨_, _, rfl, rfl, scoping_of_calm hreach (by decide) rfl, rfl, rfl⟩

/-- What is pending when a `TryCatch` is entered has gone when it is left. -/
theorem pending_exception_lost : ¬∀ (s t : Handlers Unit) (e : Event Unit),
    (Handlers.machine fun _ ↦ none).Reaches .init s →
    (Handlers.machine fun _ ↦ none).guard s e → s.happen (fun _ ↦ none) e = .ok t →
    s.Scoping e t := by
  intro h
  have hreach := Machine.reaches_of_run (M := Handlers.machine fun _ : Unit ↦ none) (s := .init)
    (l := [.enterBoundary, .throwException (), .enterTry]) rfl
  have hkept := ((h _ _ .leaveTry hreach (by decide) rfl).left _ rfl rfl).kept rfl
  cases hkept

end SpiderNode.Exceptions
