import SpiderNode.Machine.Runs
import Mathlib.Data.List.Infix

/-!
# Ticks

`process.nextTick` of `src/node.js` keeps the callbacks in an array and asks `src/node.cc` for a
tick. `Tick` runs before and after each poll of the event loop; when it was asked for, it calls
`_tickCallback`, which calls the callbacks that are in the array at that time. They stay in the
array while they are called, and are removed together at the end, or up to the one that throws.

`_tickCallback` is cut into steps, since a callback may call `nextTick` again: `looping` where its
loop is about to test the index, `calling` where a callback runs. What a callback does, how often it
calls `nextTick` and whether it throws are up to the run. So is the code that runs outside: other
watchers, and the listeners to which an exception is reported.

## The invariant

A callback is in exactly one of two places: in the record `called`, or in the part of the array that
the loop has not reached. While the loop runs, the flag of `src/node.cc` is down as long as nothing
was added; so it tells whether the array is longer than the part that the loop is going to visit.
-/

namespace SpiderNode

namespace Ticks

/-- Which code is running. -/
inductive Phase where
  /-- Not `_tickCallback`. -/
  | idle
  /-- The loop of `_tickCallback`, with its variables. -/
  | looping (i l : ℕ)
  /-- A callback that the loop has called. -/
  | calling (i l : ℕ)
  deriving DecidableEq, Repr

end Ticks

/-- The state of `src/node.js` and `src/node.cc` that has to do with ticks, for callbacks in `α`. -/
structure Ticks (α : Type*) where
  nextTickQueue : List α
  needTickCb : Bool
  /-- `tick_spinner` is active and keeps the event loop from ending. -/
  tickSpinner : Bool
  phase : Ticks.Phase
  /-- The argument of each call of `nextTick`. -/
  added : List α
  /-- All calls of callbacks. -/
  called : List α
  deriving DecidableEq

namespace Ticks

variable {α : Type*}

def init : Ticks α := ⟨[], false, false, .idle, [], []⟩

variable (a : Ticks α)

/-- `NeedTickCallback` -/
def needTickCallback : Ticks α := { a with needTickCb := true, tickSpinner := true }

/-- `process.nextTick` -/
def nextTick (callback : α) : Ticks α :=
  needTickCallback
    { a with nextTickQueue := a.nextTickQueue ++ [callback], added := a.added ++ [callback] }

/-- `process._tickCallback`, up to its loop. -/
def tickCallback : Ticks α :=
  let l := a.nextTickQueue.length
  if l = 0 then a else { a with phase := .looping 0 l }

/-- The handler of `_tickCallback` for what the call at `i` throws. -/
def caught (i l : ℕ) : Ticks α :=
  let b := { a with nextTickQueue := a.nextTickQueue.drop (i + 1), phase := .idle }
  if i + 1 < l then b.needTickCallback else b

/-- One turn of the loop of `_tickCallback`, up to the call; after the last one, the code behind the
loop. -/
def turn (i l : ℕ) : Ticks α :=
  if i < l then
    match a.nextTickQueue[i]? with
    | some callback => { a with phase := .calling i l, called := a.called ++ [callback] }
    -- The value `undefined` cannot be called.
    | none => a.caught i l
  else { a with nextTickQueue := a.nextTickQueue.drop l, phase := .idle }

/-- `Tick` -/
def tick : Ticks α :=
  if a.needTickCb then tickCallback { a with needTickCb := false, tickSpinner := false } else a

/-- What can happen next. -/
inductive Event (α : Type*) where
  | nextTick (callback : α)
  | tick
  /-- The loop goes on. -/
  | next
  /-- The callback returns. -/
  | returns
  /-- The callback throws. -/
  | throws
  deriving DecidableEq

def Event.isTick : Event α → Bool
  | .tick => true
  | _ => false

/-- The event loop is not entered again from a callback, so it is not `Tick` that runs then. -/
def Allows : Event α → Prop
  | .nextTick _ => ∀ i l, a.phase ≠ .looping i l
  | .tick => a.phase = .idle
  | .next => ∃ i l, a.phase = .looping i l
  | .returns | .throws => ∃ i l, a.phase = .calling i l

instance : ∀ ev, Decidable (a.Allows ev)
  | .nextTick _ =>
    match h : a.phase with
    | .looping i l => isFalse fun hn ↦ hn i l h
    | .idle | .calling _ _ => isTrue fun i l hp ↦ by rw [h] at hp; cases hp
  | .tick => inferInstanceAs (Decidable (a.phase = .idle))
  | .next =>
    match h : a.phase with
    | .looping i l => isTrue ⟨i, l, h⟩
    | .idle | .calling _ _ => isFalse fun ⟨i, l, hp⟩ ↦ by rw [h] at hp; cases hp
  | .returns | .throws =>
    match h : a.phase with
    | .calling i l => isTrue ⟨i, l, h⟩
    | .idle | .looping _ _ => isFalse fun ⟨i, l, hp⟩ ↦ by rw [h] at hp; cases hp

def step : Event α → Ticks α
  | .nextTick callback => a.nextTick callback
  | .tick => a.tick
  | .next =>
    match a.phase with
    | .looping i l => a.turn i l
    | _ => a
  | .returns =>
    match a.phase with
    | .calling i l => { a with phase := .looping (i + 1) l }
    | _ => a
  | .throws =>
    match a.phase with
    | .calling i l => a.caught i l
    | _ => a

/-- No step fails. -/
def machine : Machine (Ticks α) (Event α) Empty := ⟨Allows, fun a ev ↦ .ok (a.step ev)⟩

instance (ev : Event α) : Decidable (machine.guard a ev) :=
  inferInstanceAs (Decidable (a.Allows ev))

/-! ## The invariant -/

/-- The callbacks that are to be called. -/
def pending : List α :=
  match a.phase with
  | .idle => a.nextTickQueue
  | .looping i _ => a.nextTickQueue.drop i
  | .calling i _ => a.nextTickQueue.drop (i + 1)

/-- The callbacks of which only the flag takes care. -/
def behind : List α :=
  match a.phase with
  | .idle => a.nextTickQueue
  | .looping _ l | .calling _ l => a.nextTickQueue.drop l

/-- The variables of the loop fit the array. -/
def Within : Prop :=
  match a.phase with
  | .idle => True
  | .looping i l => i ≤ l ∧ l ≤ a.nextTickQueue.length
  | .calling i l => i < l ∧ l ≤ a.nextTickQueue.length

structure Sound : Prop where
  accounted : a.called ++ a.pending = a.added
  within : a.Within
  needed : a.behind ≠ [] → a.needTickCb = true
  spinning : a.tickSpinner = a.needTickCb

/-- Whether the next step of `_tickCallback` calls a callback. -/
def imminent : ℕ :=
  match a.phase with
  | .looping i l => if i < l then 1 else 0
  | _ => 0

/-- The calls that are made by the time that `n` more ticks are over. -/
def promised (n : ℕ) : List α := a.called ++ a.pending.take (n + a.imminent)

variable {a} {b : Ticks α}

theorem sound_init : (init : Ticks α).Sound := ⟨rfl, trivial, fun h ↦ absurd rfl h, rfl⟩

/-- What `nextTick` adds comes last. -/
theorem pending_nextTick (h : a.Within) (callback : α) :
    (a.nextTick callback).pending = a.pending ++ [callback] := by
  obtain ⟨queue, need, spinner, phase, added, called⟩ := a
  rcases phase with _ | ⟨i, l⟩ | ⟨i, l⟩
  · rfl
  · exact List.drop_append_of_le_length (h.1.trans h.2)
  · exact List.drop_append_of_le_length (Nat.le_trans h.1 h.2)

namespace Sound

theorem nextTick (h : a.Sound) (callback : α) : (a.nextTick callback).Sound where
  accounted := by
    rw [pending_nextTick h.within, ← List.append_assoc]
    exact congrArg (· ++ [callback]) h.accounted
  within := by
    have hle : a.nextTickQueue.length ≤ (a.nextTick callback).nextTickQueue.length :=
      (List.sublist_append_left _ _).length_le
    have hw := h.within
    unfold Within at hw ⊢
    change match a.phase with | .idle => _ | .looping _ _ => _ | .calling _ _ => _
    split at hw
    · trivial
    · exact ⟨hw.1, hw.2.trans hle⟩
    · exact ⟨hw.1, hw.2.trans hle⟩
  needed _ := rfl
  spinning := rfl

theorem tick (h : a.Sound) (hp : a.phase = .idle) : a.tick.Sound := by
  obtain ⟨queue, need, spinner, phase, added, called⟩ := a
  obtain rfl : phase = .idle := hp
  rw [Ticks.tick]
  split_ifs with hneed
  · unfold tickCallback
    dsimp only
    split_ifs with hl
    · obtain rfl : queue = [] := List.eq_nil_of_length_eq_zero hl
      exact ⟨h.accounted, trivial, fun hne ↦ absurd rfl hne, rfl⟩
    · -- The loop is going to visit the whole array, so nothing is left to the flag.
      refine ⟨h.accounted, ⟨Nat.zero_le _, Nat.le_refl _⟩, fun hne ↦ ?_, rfl⟩
      exact absurd (List.drop_length (l := queue)) hne
  · exact h

theorem caught {i l : ℕ} (h : a.Sound) (hp : a.phase = .calling i l) : (a.caught i l).Sound := by
  obtain ⟨queue, need, spinner, phase, added, called⟩ := a
  obtain rfl : phase = .calling i l := hp
  rw [Ticks.caught]
  split_ifs with hl
  · exact ⟨h.accounted, trivial, fun _ ↦ rfl, rfl⟩
  · -- The last callback of the loop threw: what is left was added meanwhile.
    have hil : i + 1 = l := Nat.le_antisymm h.within.1 (Nat.not_lt.mp hl)
    subst hil
    exact ⟨h.accounted, trivial, h.needed, h.spinning⟩

theorem turn {i l : ℕ} (h : a.Sound) (hp : a.phase = .looping i l) : (a.turn i l).Sound := by
  obtain ⟨queue, need, spinner, phase, added, called⟩ := a
  obtain rfl : phase = .looping i l := hp
  obtain ⟨hil, hlq⟩ : i ≤ l ∧ l ≤ queue.length := h.within
  rw [Ticks.turn]
  split_ifs with hi
  · have hq : i < queue.length := Nat.lt_of_lt_of_le hi hlq
    rw [List.getElem?_eq_getElem hq]
    refine ⟨?_, ⟨hi, hlq⟩, h.needed, h.spinning⟩
    calc (called ++ [queue[i]]) ++ queue.drop (i + 1)
        = called ++ queue.drop i := by rw [List.append_assoc, List.drop_eq_getElem_cons hq]; rfl
      _ = added := h.accounted
  · have hil : i = l := Nat.le_antisymm hil (Nat.not_lt.mp hi)
    subst hil
    exact ⟨h.accounted, trivial, h.needed, h.spinning⟩

theorem returns {i l : ℕ} (h : a.Sound) (hp : a.phase = .calling i l) :
    Sound { a with phase := .looping (i + 1) l } := by
  obtain ⟨queue, need, spinner, phase, added, called⟩ := a
  obtain rfl : phase = .calling i l := hp
  exact ⟨h.accounted, h.within, h.needed, h.spinning⟩

theorem step {ev : Event α} (h : a.Sound) (hg : a.Allows ev) : (a.step ev).Sound := by
  cases ev with
  | nextTick callback => exact h.nextTick callback
  | tick => exact h.tick hg
  | next =>
    obtain ⟨i, l, hp⟩ := hg
    simpa only [Ticks.step, hp] using h.turn hp
  | returns =>
    obtain ⟨i, l, hp⟩ := hg
    simpa only [Ticks.step, hp] using h.returns hp
  | throws =>
    obtain ⟨i, l, hp⟩ := hg
    simpa only [Ticks.step, hp] using h.caught hp

/-- While no callback runs, the flag is up if there is something to call. -/
theorem needTickCb (h : a.Sound) (hp : a.phase = .idle) (hq : a.nextTickQueue ≠ []) :
    a.needTickCb = true := by
  apply h.needed
  rwa [behind, hp]

end Sound

theorem sound_of_reaches (h : machine.Reaches init a) : a.Sound := by
  refine h.invariant (p := Sound) sound_init ?_
  rintro b _ ev hb hg hc
  obtain rfl := Except.ok.inj hc
  exact hb.step hg

/-! ## Progress -/

theorem promised_prefix (hcalled : b.called = a.called) (hpending : a.pending <+: b.pending)
    {m n : ℕ} (h : m + a.imminent ≤ n + b.imminent) : a.promised m <+: b.promised n := by
  rw [promised, promised, hcalled]
  refine (List.prefix_append_right_inj _).mpr ?_
  exact (hpending.take _).trans (List.take_prefix_take_left h)

theorem promised_of_pending_eq_nil (h : a.pending = []) (n : ℕ) : a.promised n = a.called := by
  rw [promised, h, List.take_nil, List.append_nil]

/-- A tick that starts calls one more callback, if there is one. -/
theorem promised_tick (h : a.Sound) (hp : a.phase = .idle) (n : ℕ) :
    a.promised (n + 1) <+: a.tick.promised n := by
  obtain ⟨queue, need, spinner, phase, added, called⟩ := a
  obtain rfl : phase = .idle := hp
  by_cases hq : queue = []
  · subst hq
    rw [promised_of_pending_eq_nil rfl, tick]
    split_ifs <;> exact List.prefix_append _ _
  · obtain rfl : need = true := h.needTickCb rfl hq
    have hl : queue.length ≠ 0 := fun hl ↦ hq (List.eq_nil_of_length_eq_zero hl)
    have htick : tick ⟨queue, true, spinner, .idle, added, called⟩ =
        ⟨queue, false, false, .looping 0 queue.length, added, called⟩ := by
      simp [tick, tickCallback, hl]
    rw [htick]
    refine promised_prefix rfl (List.prefix_refl _) ?_
    simp [imminent, Nat.pos_of_ne_zero hl]

theorem promised_turn {i l : ℕ} (h : a.Sound) (hp : a.phase = .looping i l) (n : ℕ) :
    a.promised n <+: (a.turn i l).promised n := by
  obtain ⟨queue, need, spinner, phase, added, called⟩ := a
  obtain rfl : phase = .looping i l := hp
  obtain ⟨hil, hlq⟩ : i ≤ l ∧ l ≤ queue.length := h.within
  rw [turn]
  split_ifs with hi
  · have hq : i < queue.length := Nat.lt_of_lt_of_le hi hlq
    rw [List.getElem?_eq_getElem hq]
    have hdrop := List.drop_eq_getElem_cons hq
    simp only [promised, pending, imminent, if_pos hi, hdrop, List.take_succ_cons,
      List.append_assoc, List.singleton_append]
    exact List.prefix_refl _
  · have hil : i = l := Nat.le_antisymm hil (Nat.not_lt.mp hi)
    subst hil
    simp [promised, pending, imminent]

theorem promised_caught {i l : ℕ} (hp : a.phase = .calling i l) (n : ℕ) :
    a.promised n <+: (a.caught i l).promised n := by
  obtain ⟨queue, need, spinner, phase, added, called⟩ := a
  obtain rfl : phase = .calling i l := hp
  rw [caught]
  split_ifs <;> exact List.prefix_refl _

theorem promised_step {ev : Event α} (h : a.Sound) (hg : a.Allows ev) (n : ℕ) :
    a.promised (n + if ev.isTick then 1 else 0) <+: (a.step ev).promised n := by
  cases ev with
  | nextTick callback =>
    have hpending : a.pending <+: (a.nextTick callback).pending := by
      rw [pending_nextTick h.within]
      exact List.prefix_append _ _
    exact promised_prefix (a := a) (b := a.nextTick callback) rfl hpending (Nat.le_refl _)
  | tick => exact promised_tick h hg n
  | next =>
    obtain ⟨i, l, hp⟩ := hg
    simpa only [step, hp] using! promised_turn h hp n
  | returns =>
    obtain ⟨i, l, hp⟩ := hg
    simp only [step, hp]
    refine promised_prefix (a := a) (b := { a with phase := .looping (i + 1) l }) rfl ?_ ?_
    · simp [pending, hp]
    · simp [imminent, hp, Event.isTick]
  | throws =>
    obtain ⟨i, l, hp⟩ := hg
    simpa only [step, hp] using! promised_caught hp n

theorem promised_run {evs : List (Event α)} (h : a.Sound) (hrun : machine.run a evs = some b) :
    a.promised (evs.countP Event.isTick) <+: b.promised 0 := by
  induction evs generalizing a with
  | nil =>
    obtain rfl := Option.some.inj hrun
    exact List.prefix_refl _
  | cons ev evs ih =>
    rw [Machine.run] at hrun
    split_ifs at hrun with hg
    rw [List.countP_cons]
    exact (promised_step h hg _).trans (ih (h.step hg) hrun)

/-- The callbacks are called in the order in which `nextTick` got them, each of them once, and none
is passed over. The flag is up whenever some are left, and each tick calls at least one of them. -/
theorem called_once_in_order (h : machine.Reaches init a) :
    a.called ++ a.pending = a.added ∧
      (a.phase = .idle → a.nextTickQueue ≠ [] → a.needTickCb = true ∧ a.tickSpinner = true) ∧
      ∀ evs b, a.phase = .idle → machine.run a evs = some b → b.phase = .idle →
        a.called ++ a.nextTickQueue.take (evs.countP Event.isTick) <+: b.called := by
  have hs := sound_of_reaches h
  refine ⟨hs.accounted, fun hp hq ↦ ?_, fun evs b hp hrun hb ↦ ?_⟩
  · have hneed := hs.needTickCb hp hq
    exact ⟨hneed, hs.spinning.trans hneed⟩
  · simpa [promised, pending, imminent, hp, hb] using promised_run hs hrun

/-- The first of two callbacks adds a third one and throws. -/
theorem called_once_in_order_thrown :
    let a : Ticks ℕ := ⟨[2, 3], true, true, .idle, [1, 2, 3], [1]⟩
    machine.run init [.nextTick 1, .nextTick 2, .tick, .next, .nextTick 3, .throws] = some a ∧
      a.called ++ a.pending = a.added ∧
      (a.phase = .idle → a.nextTickQueue ≠ [] → a.needTickCb = true ∧ a.tickSpinner = true) ∧
      ∀ evs b, a.phase = .idle → machine.run a evs = some b → b.phase = .idle →
        a.called ++ a.nextTickQueue.take (evs.countP Event.isTick) <+: b.called := by
  intro a
  have hrun : machine.run init [.nextTick 1, .nextTick 2, .tick, .next, .nextTick 3, .throws] =
      some a := by decide
  exact ⟨hrun, called_once_in_order (Machine.reaches_of_run hrun)⟩

end Ticks

end SpiderNode
