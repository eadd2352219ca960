import SpiderNode.Machine.Runs
import Mathlib.Data.List.Basic
import Mathlib.Logic.Function.Basic

/-!
# Key presses of a terminal

`ReadStream` of `lib/tty_posix.js` reads data only for the listeners of `'keypress'`. It asks
`listeners('keypress')` once for their array and keeps it. Its own listener of `'data'`, `onData`,
looks into this array, and passes the data to `_emitKey` or takes itself off; `onNewListener` puts
`onData` back when there is a new listener of `'keypress'`.

Which array it is matters here. An emitter (`lib/events.js`) keeps one listener as a function, more
of them in an array, and deletes the property with the last one; so the properties refer to arrays,
which live in a memory. Two slips are in the code as it is: `onNewListener` is taken from
`'newlistener'`, though it is a listener of `'newListener'`, and the array that is kept is no longer
that of the emitter once it has been empty.

The warning about too many listeners is left out, and so is `removeAllListeners('keypress')`, which
makes the property `null`: the array that is kept has its listeners still, and data goes on to
`_emitKey` though nobody listens. While `_emitKey` runs, functions of the program run, which may add
and remove listeners of `'keypress'`.
-/

namespace SpiderNode.Tty

open Function (update)

/-! ## Emitters with a memory -/

/-- A property of `_events`. -/
inductive Slot (α : Type*) where
  | absent
  | one (h : α)
  | array (a : ℕ)

/-- The events that the stream deals with. -/
inductive Kind where
  | keypress
  | data
  | newListener
  | newlistener
  deriving DecidableEq

/-- An emitter, and the memory of its arrays, of which the first `made` have been made. -/
structure Emitter (α : Type*) where
  events : Kind → Slot α
  arrays : ℕ → List α
  made : ℕ

namespace Emitter

variable {α : Type*}

def new : Emitter α := ⟨fun _ ↦ .absent, fun _ ↦ [], 0⟩

def set (type : Kind) (slot : Slot α) (e : Emitter α) : Emitter α :=
  { e with events := update e.events type slot }

/-- A new array becomes the property. -/
def setArray (type : Kind) (l : List α) (e : Emitter α) : Emitter α :=
  ⟨update e.events type (.array e.made), update e.arrays e.made l, e.made + 1⟩

/-- What a property holds, or a copy of it. -/
def handlers (e : Emitter α) (type : Kind) : List α :=
  match e.events type with
  | .absent => []
  | .one h => [h]
  | .array a => e.arrays a

/-- `listeners`, which returns the array that the property refers to afterwards. -/
def listeners (type : Kind) (e : Emitter α) : ℕ × Emitter α :=
  match e.events type with
  | .absent => (e.made, e.setArray type [])
  | .one h => (e.made, e.setArray type [h])
  | .array a => (a, e)

/-- `addListener`, behind the `emit` of `'newListener'`. -/
def append (type : Kind) (h : α) (e : Emitter α) : Emitter α :=
  match e.events type with
  | .absent => e.set type (.one h)
  | .one x => e.setArray type [x, h]
  | .array a => { e with arrays := update e.arrays a (e.arrays a ++ [h]) }

variable [DecidableEq α]

def removeListener (type : Kind) (h : α) (e : Emitter α) : Emitter α :=
  match e.events type with
  | .absent => e
  | .one x => if x = h then e.set type .absent else e
  | .array a =>
    if h ∈ e.arrays a then
      let list := (e.arrays a).erase h
      let e := { e with arrays := update e.arrays a list }
      if list = [] then e.set type .absent else e
    else e

end Emitter

/-! ## The stream -/

/-- The functions that listen; those of the program are `φ`. -/
inductive Handler (φ : Type*) where
  | onData
  | onNewListener
  | user (f : φ)
  deriving DecidableEq

section Functions

variable {φ : Type*} [DecidableEq φ]

/-- `onNewListener`. For `'data'` it is called again, with no effect. -/
def onNewListener (event : Kind) (e : Emitter (Handler φ)) : Emitter (Handler φ) :=
  if event = .keypress then
    (e.append .data .onData).removeListener .newlistener .onNewListener
  else e

/-- `self.emit('newListener', type, listener)` -/
def emitNewListener (type : Kind) (e : Emitter (Handler φ)) : Emitter (Handler φ) :=
  (e.handlers .newListener).foldl
    (fun e h ↦ if h = .onNewListener then onNewListener type e else e) e

def addListener (type : Kind) (h : Handler φ) (e : Emitter (Handler φ)) : Emitter (Handler φ) :=
  (emitNewListener type e).append type h

/-- `onData`, given the array that is kept; whether it calls `_emitKey`. -/
def onData (keypressListeners : ℕ) (e : Emitter (Handler φ)) : Emitter (Handler φ) × Bool :=
  if e.arrays keypressListeners ≠ [] then (e, true)
  else (addListener .newlistener .onNewListener (e.removeListener .data .onData), false)

end Functions

/-- What has become of the data of an event: when it arrived, whether there was a listener of
`'keypress'`, and how many had been added till then; how often it was passed to `_emitKey`, and
whether listeners were added or removed meanwhile. -/
structure Passing where
  watched : Bool
  adds : ℕ
  passes : ℕ
  disturbed : Bool
  deriving DecidableEq

/-- The stream. `listening` are the functions that are still to be called for the data that has
arrived last; `passing` is `none` if there is no such function. -/
structure ReadStream (φ : Type*) where
  emitter : Emitter (Handler φ)
  keypressListeners : ℕ
  /-- The listeners of `'keypress'` that have been added so far. -/
  adds : ℕ
  passing : Option (Passing × List (Handler φ))
  /-- What was called last has called `_emitKey`. -/
  emitting : Bool
  finished : List Passing

namespace ReadStream

variable {φ : Type*}

/-- There is a listener of `'keypress'`. -/
def Watched (s : ReadStream φ) : Prop := s.emitter.handlers .keypress ≠ []

instance (s : ReadStream φ) : Decidable s.Watched :=
  decidable_of_iff (¬(s.emitter.handlers .keypress).isEmpty) (not_congr List.isEmpty_iff)

/-- A function of the program runs. -/
def Runs (s : ReadStream φ) : Prop := s.passing = none ∨ s.emitting = true

variable [DecidableEq φ]

def new : ReadStream φ :=
  let (keypressListeners, e) := Emitter.new.listeners .keypress
  ⟨addListener .newListener .onNewListener e, keypressListeners, 0, none, false, []⟩

/-- Listeners are added or removed while there is data. -/
def disturb (s : ReadStream φ) : ReadStream φ :=
  { s with passing := s.passing.map fun p ↦ ({ p.1 with disturbed := true }, p.2) }

/-- What is left to call is nothing: the data has been dealt with. -/
def settle (s : ReadStream φ) : ReadStream φ :=
  match s.passing with
  | some (p, []) => { s with passing := none, finished := s.finished ++ [p] }
  | _ => s

/-- A function that listens to `'data'` is called. -/
def call (p : Passing) (h : Handler φ) (rest : List (Handler φ)) (s : ReadStream φ) :
    ReadStream φ :=
  let (e, passed) :=
    if h = .onData then onData s.keypressListeners s.emitter else (s.emitter, false)
  { s with
    emitter := e
    passing := some ({ p with passes := p.passes + if passed then 1 else 0 }, rest)
    emitting := passed }

inductive Event (φ : Type*) where
  | add (f : φ)
  | remove (f : φ)
  | data
  /-- The next function is called for the data. -/
  | call

def Can (s : ReadStream φ) : Event φ → Prop
  | .add _ | .remove _ => s.Runs
  | .data => s.passing = none
  | .call => s.passing ≠ none

def happen (s : ReadStream φ) : Event φ → ReadStream φ
  | .add f =>
    { s.disturb with
      emitter := addListener .keypress (.user f) s.emitter
      adds := s.adds + 1 }
  | .remove f => { s.disturb with emitter := s.emitter.removeListener .keypress (.user f) }
  | .data =>
    settle { s with
      passing := some (⟨s.Watched, s.adds, 0, false⟩, s.emitter.handlers .data)
      emitting := false }
  | .call =>
    match s.passing with
    | some (p, h :: rest) => (s.call p h rest).settle
    | _ => s

def machine : Machine (ReadStream φ) (Event φ) Empty := ⟨Can, fun s e ↦ .ok (s.happen e)⟩

instance (s : ReadStream φ) : Decidable (s.passing = none) :=
  decidable_of_iff _ Option.isNone_iff_eq_none

instance (s : ReadStream φ) : DecidablePred ((machine (φ := φ)).guard s)
  | .add _ | .remove _ => inferInstanceAs (Decidable (s.passing = none ∨ s.emitting = true))
  | .data => inferInstanceAs (Decidable (s.passing = none))
  | .call => inferInstanceAs (Decidable (¬s.passing = none))

end ReadStream

/-- The data was passed on once, or not at all if there was no listener. -/
def Passing.Follows (p : Passing) : Prop := p.passes = if p.watched then 1 else 0

/-! ## The array that is kept -/

namespace Emitter

variable {α : Type*} {type : Kind} {h : α} {e e' : Emitter α}

/-- A property has changed, and the first array has not; the property is another one still. -/
structure Spares (type : Kind) (e e' : Emitter α) : Prop where
  other : ∀ u ≠ type, e'.events u = e.events u
  ne_zero : e'.events type ≠ .array 0
  arrays : e'.arrays 0 = e.arrays 0
  made : 0 < e'.made

theorem spares_append (hne : e.events type ≠ .array 0) (hmade : 0 < e.made) :
    Spares type e (e.append type h) := by
  rw [append]
  split
  · exact ⟨fun u hu ↦ Function.update_of_ne hu .., by simp [set], rfl, hmade⟩
  · refine ⟨fun u hu ↦ Function.update_of_ne hu .., ?_, Function.update_of_ne (by omega) ..,
      Nat.succ_pos _⟩
    simp only [setArray, Function.update_self]
    intro heq
    exact absurd (Slot.array.inj heq) (by omega)
  · rename_i a ha
    have ha₀ : 0 ≠ a := fun heq ↦ hne (heq ▸ ha)
    exact ⟨fun u hu ↦ rfl, hne, Function.update_of_ne ha₀ .., hmade⟩

theorem handlers_append (e : Emitter α) (type : Kind) (h : α) :
    (e.append type h).handlers type = e.handlers type ++ [h] := by
  rw [append]
  split
  · simp [handlers, set, *]
  · simp [handlers, setArray, *]
  · simp [handlers, *]

theorem append_array {a : ℕ} (ha : e.events type = .array a) :
    e.append type h = { e with arrays := update e.arrays a (e.arrays a ++ [h]) } := by
  rw [append, ha]

/-- What is done to an array does not concern the properties that do not refer to it. -/
theorem handlers_update {a : ℕ} (ha : e.events type ≠ .array a) (l : List α) :
    handlers { e with arrays := update e.arrays a l } type = e.handlers type := by
  rw [handlers, handlers]
  dsimp only
  split
  · rfl
  · rfl
  · rename_i b hb
    have hne : b ≠ a := fun heq ↦ ha (heq ▸ hb)
    exact Function.update_of_ne hne ..

variable [DecidableEq α]

theorem spares_removeListener (hne : e.events type ≠ .array 0) (hmade : 0 < e.made) :
    Spares type e (e.removeListener type h) := by
  have hself : Spares type e e := ⟨fun _ _ ↦ rfl, hne, rfl, hmade⟩
  have habsent (e' : Emitter α) (hevents : e'.events = e.events)
      (harrays : e'.arrays 0 = e.arrays 0) (hmade' : 0 < e'.made) :
      Spares type e (e'.set type .absent) := by
    refine ⟨fun u hu ↦ ?_, by simp [set], harrays, hmade'⟩
    exact (Function.update_of_ne hu ..).trans (congrFun hevents u)
  rw [removeListener]
  split
  · exact hself
  · split_ifs
    · exact habsent e rfl rfl hmade
    · exact hself
  · rename_i a ha
    have ha₀ : 0 ≠ a := fun heq ↦ hne (heq ▸ ha)
    have harrays : (update e.arrays a ((e.arrays a).erase h)) 0 = e.arrays 0 :=
      Function.update_of_ne ha₀ ..
    dsimp only
    split_ifs
    · exact habsent _ rfl harrays hmade
    · exact ⟨fun _ _ ↦ rfl, hne, harrays, hmade⟩
    · exact hself

end Emitter

section Arrays

variable {φ : Type*} [DecidableEq φ] {n : ℕ} {e e' : Emitter (Handler φ)} {f : φ}

/-- The array that is kept is that of the emitter, and `onData` listens once for each listener of
`'keypress'` that has been added. -/
structure Attached (n : ℕ) (e : Emitter (Handler φ)) : Prop where
  keypress : e.events .keypress = .array 0
  data : e.handlers .data = List.replicate n .onData
  data_ne : e.events .data ≠ .array 0
  newlistener : e.events .newlistener = .absent
  newListener : e.events .newListener = .one .onNewListener
  made : 0 < e.made
  empty_iff : e.arrays 0 = [] ↔ n = 0

/-- The array that is kept is empty, and nothing refers to it. -/
structure Detached (e : Emitter (Handler φ)) : Prop where
  empty : e.arrays 0 = []
  ne_zero : ∀ type, e.events type ≠ .array 0
  newListener : e.events .newListener = .one .onNewListener
  made : 0 < e.made

omit [DecidableEq φ] in
theorem Detached.of_spares {type : Kind} (h : Detached e) (hs : Emitter.Spares type e e')
    (htype : type ≠ .newListener) : Detached e' where
  empty := hs.arrays.trans h.empty
  ne_zero u := by
    by_cases hu : u = type
    · exact hu ▸ hs.ne_zero
    · rw [hs.other u hu]
      exact h.ne_zero u
  newListener := (hs.other _ htype.symm).trans h.newListener
  made := hs.made

theorem emitNewListener_eq (type : Kind) (h : e.events .newListener = .one .onNewListener) :
    emitNewListener type e = onNewListener type e := by
  simp [emitNewListener, Emitter.handlers, h]

theorem Detached.addListener {type : Kind} {h : Handler φ} (hd : Detached e)
    (htype : type ≠ .newListener) : Detached (addListener type h e) := by
  have hemit : Detached (emitNewListener type e) := by
    rw [emitNewListener_eq type hd.newListener, onNewListener]
    split_ifs
    · have happend := hd.of_spares (e.spares_append (h := .onData) (hd.ne_zero .data) hd.made)
        (by decide)
      exact happend.of_spares
        (Emitter.spares_removeListener (happend.ne_zero .newlistener) happend.made) (by decide)
    · exact hd
  exact hemit.of_spares (Emitter.spares_append (hemit.ne_zero type) hemit.made) htype

theorem Attached.addListener (h : Attached n e) :
    Attached (n + 1) (addListener .keypress (.user f) e) := by
  have hspares := e.spares_append (h := .onData) h.data_ne h.made
  have hnone : (e.append .data .onData).events .newlistener = .absent :=
    (hspares.other .newlistener (by decide)).trans h.newlistener
  have hemit : emitNewListener .keypress e = e.append .data .onData := by
    rw [emitNewListener_eq _ h.newListener, onNewListener, if_pos rfl, Emitter.removeListener,
      hnone]
  have hkeypress : (e.append .data .onData).events .keypress = .array 0 :=
    (hspares.other .keypress (by decide)).trans h.keypress
  have hdata : (e.append .data .onData).handlers .data = List.replicate (n + 1) .onData := by
    rw [Emitter.handlers_append, h.data, List.replicate_succ']
  rw [Tty.addListener, hemit, Emitter.append_array hkeypress]
  refine ⟨hkeypress, ?_, hspares.ne_zero, hnone,
    (hspares.other .newListener (by decide)).trans h.newListener, hspares.made, by simp⟩
  rw [Emitter.handlers_update hspares.ne_zero, hdata]

/-- The last listener takes the array with it. -/
theorem Attached.removeListener (h : Attached n e) :
    Attached n (e.removeListener .keypress (.user f)) ∨
      0 < n ∧ Detached (e.removeListener .keypress (.user f)) ∧
        (e.removeListener .keypress (.user f)).events .keypress = .absent := by
  rw [Emitter.removeListener, h.keypress]
  dsimp only
  split_ifs with hmem hempty
  · have hpos : 0 < n := by
      refine Nat.pos_of_ne_zero fun hn ↦ ?_
      rw [h.empty_iff.mpr hn] at hmem
      cases hmem
    refine .inr ⟨hpos, ⟨?_, ?_, ?_, h.made⟩, ?_⟩
    · simp [Emitter.set, hempty]
    · intro type
      cases type with
      | keypress => simp [Emitter.set]
      | data => exact h.data_ne
      | newListener => exact fun heq ↦ by cases h.newListener.symm.trans heq
      | newlistener => exact fun heq ↦ by cases h.newlistener.symm.trans heq
    · exact h.newListener
    · simp [Emitter.set]
  · refine .inl ⟨h.keypress, ?_, h.data_ne, h.newlistener, h.newListener, h.made, ?_⟩
    · rw [Emitter.handlers_update h.data_ne, h.data]
    · have hn : n ≠ 0 := by
        intro hn
        rw [h.empty_iff.mpr hn] at hmem
        cases hmem
      simp [hempty, hn]
  · exact .inl h

end Arrays

namespace ReadStream

variable {φ : Type*} {s : ReadStream φ} {p : Passing} {l : List (Handler φ)}

/-- The ways in which data goes that is being dealt with. -/
inductive Goes (s : ReadStream φ) (p : Passing) (l : List (Handler φ)) : Prop
  | lost (h : Detached s.emitter) (hp : p.passes = 0) (he : s.emitting = false)
      (ha : p.watched = true → 2 ≤ p.adds)
  | each (k : ℕ) (h : Attached s.adds s.emitter) (hne : s.adds ≠ 0) (hs : p.adds = s.adds)
      (hw : p.watched = true) (hl : l = List.replicate k .onData) (hk : p.passes + k = p.adds)
      (he : k = p.adds → s.emitting = false)
  | disturbed (hd : p.disturbed = true) (hw : p.watched = true) (ha : 2 ≤ p.adds)
      (hs : p.adds ≤ s.adds)

/-- What can be said of data that has been dealt with. -/
def Right (p : Passing) : Prop :=
  ((p.watched = true → p.adds = 1) → p.Follows) ∧
    (p.disturbed = false → (p.Follows ↔ (p.watched = true → p.adds = 1)))

theorem Goes.right (h : Goes s p []) : Right p := by
  cases h with
  | lost _ hp _ ha =>
    rcases hw : p.watched with _ | _
    · have hfollows : p.Follows := by rw [Passing.Follows, hp, hw]; rfl
      simp [Right, hfollows, hw]
    · have htwo := ha hw
      have hnot : ¬p.Follows := by rw [Passing.Follows, hp, hw]; simp
      have hne : p.adds ≠ 1 := by omega
      simp [Right, hnot, hw, hne]
  | each k _ _ _ hw hl hk =>
    obtain rfl : k = 0 := by simpa using congrArg List.length hl.symm
    have hfollows : p.Follows ↔ p.adds = 1 := by
      rw [Passing.Follows, hw, ← hk]
      rfl
    simp [Right, hfollows, hw]
  | disturbed hd hw ha =>
    have hne : p.adds ≠ 1 := by omega
    simp [Right, hd, hw, hne]

/-- The invariant, but for the data that is being dealt with. -/
structure Sound (s : ReadStream φ) : Prop where
  array : s.keypressListeners = 0
  emitter : Attached s.adds s.emitter ∨
    Detached s.emitter ∧ 1 ≤ s.adds ∧ (s.emitter.events .keypress ≠ .absent → 2 ≤ s.adds)
  finished : ∀ p ∈ s.finished, Right p

structure Kept (s : ReadStream φ) : Prop extends s.Sound where
  passing : ∀ p l, s.passing = some (p, l) → l ≠ [] ∧ s.Goes p l

theorem Sound.settle (h : s.Sound)
    (hp : ∀ p l, s.passing = some (p, l) → s.Goes p l ∨ l = [] ∧ Right p) : s.settle.Kept := by
  match hs : s.passing with
  | none =>
    rw [ReadStream.settle, hs]
    exact ⟨h, fun p l heq ↦ by cases hs.symm.trans heq⟩
  | some (p, []) =>
    have hright : Right p := (hp p [] hs).elim Goes.right And.right
    rw [ReadStream.settle, hs]
    refine ⟨⟨h.array, h.emitter, fun q hq ↦ ?_⟩, nofun⟩
    rcases List.mem_append.mp hq with hq | hq
    · exact h.finished q hq
    · rwa [List.mem_singleton.mp hq]
  | some (p, x :: l) =>
    rw [ReadStream.settle, hs]
    refine ⟨h, fun q l' heq ↦ ?_⟩
    cases hs.symm.trans heq
    exact ⟨List.cons_ne_nil _ _, (hp p _ hs).resolve_right fun hnil ↦ List.cons_ne_nil _ _ hnil.1⟩

/-- Listeners are added or removed only after data has been passed on, and not for the last time. -/
theorem Kept.disturb (h : s.Kept) (hruns : s.Runs) {p : Passing} {l : List (Handler φ)}
    (hp : s.disturb.passing = some (p, l)) :
    l ≠ [] ∧ p.disturbed = true ∧ p.watched = true ∧ 2 ≤ p.adds ∧ p.adds ≤ s.adds := by
  obtain ⟨⟨q, l'⟩, hq, heq⟩ := Option.map_eq_some_iff.mp hp
  cases heq
  obtain ⟨hne, hgoes⟩ := h.passing q l' hq
  have hemitting : s.emitting = true := hruns.resolve_left fun hnone ↦ by
    cases hq.symm.trans hnone
  refine ⟨hne, rfl, ?_⟩
  cases hgoes with
  | lost _ _ he => exact absurd (he.symm.trans hemitting) Bool.false_ne_true
  | each k _ _ hs hw hl hk he =>
    have hk₀ : k ≠ 0 := by
      rintro rfl
      exact hne hl
    have hlt : k ≠ q.adds := fun heq ↦ Bool.false_ne_true ((he heq).symm.trans hemitting)
    have htwo : 2 ≤ q.adds := by omega
    exact ⟨hw, htwo, Nat.le_of_eq hs⟩
  | disturbed hd hw ha hs => exact ⟨hw, ha, hs⟩

variable [DecidableEq φ]

theorem Kept.add (h : s.Kept) (hruns : s.Runs) (f : φ) : (s.happen (.add f)).Kept := by
  refine ⟨⟨h.array, ?_, h.finished⟩, fun p l hp ↦ ?_⟩
  · rcases h.emitter with hattached | ⟨hdetached, hpos, -⟩
    · exact .inl hattached.addListener
    · refine .inr ⟨hdetached.addListener (by decide), ?_, fun _ ↦ ?_⟩
      · exact Nat.le_add_left ..
      · exact Nat.succ_le_succ hpos
  · obtain ⟨hne, hd, hw, ha, hs⟩ := h.disturb hruns hp
    exact ⟨hne, .disturbed hd hw ha (Nat.le_succ_of_le hs)⟩

theorem Kept.remove (h : s.Kept) (hruns : s.Runs) (f : φ) : (s.happen (.remove f)).Kept := by
  refine ⟨⟨h.array, ?_, h.finished⟩, fun p l hp ↦ ?_⟩
  · rcases h.emitter with hattached | ⟨hdetached, hpos, htwo⟩
    · rcases hattached.removeListener (f := f) with hattached | ⟨hpos, hdetached, habsent⟩
      · exact .inl hattached
      · exact .inr ⟨hdetached, hpos, fun hne ↦ absurd habsent hne⟩
    · have hspares := Emitter.spares_removeListener (h := .user f) (hdetached.ne_zero .keypress)
        hdetached.made
      refine .inr ⟨hdetached.of_spares hspares (by decide), hpos, fun hne ↦ htwo fun habsent ↦ ?_⟩
      have hsame : s.emitter.removeListener .keypress (.user f) = s.emitter := by
        rw [Emitter.removeListener, habsent]
      exact hne ((congrArg (fun e ↦ e.events .keypress) hsame).trans habsent)
  · obtain ⟨hne, hd, hw, ha, hs⟩ := h.disturb hruns hp
    exact ⟨hne, .disturbed hd hw ha hs⟩

theorem Kept.data (h : s.Kept) : (s.happen .data).Kept := by
  refine Sound.settle ⟨h.array, h.emitter, h.finished⟩ fun p l hp ↦ ?_
  cases hp
  rcases h.emitter with hattached | ⟨hdetached, hpos, htwo⟩
  · have hhandlers : s.emitter.handlers .keypress = s.emitter.arrays 0 := by
      rw [Emitter.handlers, hattached.keypress]
    rcases Nat.eq_zero_or_pos s.adds with hzero | hpos
    · have hunwatched : ¬s.Watched := fun hw ↦
        hw (hhandlers.trans (hattached.empty_iff.mpr hzero))
      refine .inr ⟨hattached.data.trans (by rw [hzero]; rfl), ?_⟩
      simp [Right, Passing.Follows, hunwatched]
    · have hwatched : s.Watched := fun hempty ↦
        Nat.ne_of_gt hpos (hattached.empty_iff.mp (hhandlers.symm.trans hempty))
      exact .inl (.each s.adds hattached (Nat.ne_of_gt hpos) rfl (decide_eq_true hwatched)
        hattached.data (Nat.zero_add _) fun _ ↦ rfl)
  · refine .inl (.lost hdetached rfl rfl fun hw ↦ htwo fun habsent ↦ ?_)
    have hwatched : s.Watched := of_decide_eq_true hw
    exact hwatched (by rw [Emitter.handlers, habsent])

/-- `onData` takes itself off when the array that is kept is empty. -/
theorem Detached.onData {e : Emitter (Handler φ)} (h : Detached e) :
    ∃ e', onData 0 e = (e', false) ∧ Detached e' ∧ e'.events .keypress = e.events .keypress := by
  have hspares := Emitter.spares_removeListener (h := .onData) (h.ne_zero .data) h.made
  have hremoved := h.of_spares hspares (by decide)
  refine ⟨_, if_neg (not_not_intro h.empty), hremoved.addListener (by decide), ?_⟩
  have hemit : emitNewListener .newlistener (e.removeListener .data .onData) =
      e.removeListener .data .onData := by
    rw [emitNewListener_eq _ hremoved.newListener]
    rfl
  have happend := (e.removeListener .data .onData).spares_append (h := .onNewListener)
    (hremoved.ne_zero .newlistener) hremoved.made
  rw [addListener, hemit, happend.other _ (by decide), hspares.other _ (by decide)]

theorem call_of_detached {x : Handler φ} (h₀ : s.keypressListeners = 0) (h : Detached s.emitter) :
    ∃ e, s.call p x l = { s with emitter := e, passing := some (p, l), emitting := false } ∧
      Detached e ∧ e.events .keypress = s.emitter.events .keypress := by
  by_cases hx : x = .onData
  · obtain ⟨e, he, hdetached, hkeypress⟩ := Detached.onData h
    refine ⟨e, ?_, hdetached, hkeypress⟩
    rw [call, if_pos hx, h₀, he]
    rfl
  · refine ⟨s.emitter, ?_, h, rfl⟩
    rw [call, if_neg hx]
    rfl

theorem call_of_attached {x : Handler φ} (h₀ : s.keypressListeners = 0)
    (h : Attached s.adds s.emitter) (hne : s.adds ≠ 0) :
    s.call p x l = { s with
      passing := some ({ p with passes := p.passes + if x = .onData then 1 else 0 }, l)
      emitting := x = .onData } := by
  have harray : s.emitter.arrays 0 ≠ [] := fun hempty ↦ hne (h.empty_iff.mp hempty)
  by_cases hx : x = .onData
  · have hdata : onData 0 s.emitter = (s.emitter, true) := if_pos harray
    rw [call, if_pos hx, h₀, hdata]
    simp [hx]
  · rw [call, if_neg hx]
    simp [hx]

theorem Kept.call (h : s.Kept) {x : Handler φ} (hp : s.passing = some (p, x :: l)) :
    (s.call p x l).settle.Kept := by
  obtain ⟨-, hgoes⟩ := h.passing p _ hp
  rcases h.emitter with hattached | ⟨hdetached, hpos, htwo⟩
  · have hne : s.adds ≠ 0 := by
      cases hgoes with
      | lost hdetached => exact absurd hattached.keypress (hdetached.ne_zero .keypress)
      | each _ _ hne => exact hne
      | disturbed _ _ ha hs => omega
    rw [call_of_attached h.array hattached hne]
    refine Sound.settle ⟨h.array, .inl hattached, h.finished⟩ fun q l' hq ↦ .inl ?_
    cases hq
    cases hgoes with
    | lost hdetached => exact absurd hattached.keypress (hdetached.ne_zero .keypress)
    | each k _ _ hs hw hl hk he =>
      match k, hl with
      | k + 1, hl =>
        obtain ⟨rfl, rfl⟩ := List.cons.inj (hl.trans List.replicate_succ)
        have hlt : k ≠ p.adds := by omega
        exact .each k hattached hne hs hw rfl (by simp only [if_true]; omega) fun heq ↦
          absurd heq hlt
    | disturbed hd hw ha hs => exact .disturbed hd hw ha hs
  · obtain ⟨e, he, hdetached', hkeypress⟩ := call_of_detached (p := p) (l := l) (x := x) h.array
      hdetached
    rw [he]
    refine Sound.settle ⟨h.array, .inr ⟨hdetached', hpos, fun hne ↦ htwo (hkeypress ▸ hne)⟩,
      h.finished⟩ fun q l' hq ↦ .inl ?_
    cases hq
    cases hgoes with
    | lost _ hp _ ha => exact .lost hdetached' hp rfl ha
    | each _ hattached => exact absurd hattached.keypress (hdetached.ne_zero .keypress)
    | disturbed hd hw ha hs => exact .disturbed hd hw ha hs

theorem Kept.happen (h : s.Kept) {e : Event φ} (hcan : s.Can e) : (s.happen e).Kept := by
  cases e with
  | add f => exact h.add hcan f
  | remove f => exact h.remove hcan f
  | data => exact h.data
  | call =>
    rcases hs : s.passing with _ | ⟨p, _ | ⟨x, l⟩⟩
    · exact absurd hs hcan
    · exact absurd rfl (h.passing p [] hs).1
    · rw [ReadStream.happen, hs]
      exact h.call hs

theorem kept_new : (new : ReadStream φ).Kept := by
  refine ⟨⟨rfl, .inl ⟨rfl, rfl, nofun, rfl, rfl, Nat.one_pos, iff_of_true rfl rfl⟩, nofun⟩, nofun⟩

/-- Data is passed on as it should be, if no listener or just one had been added when it arrived, or
there is none; and only then, unless listeners are added or removed while it is passed on. -/
theorem follows_iff (h : machine.Reaches new s) (p : Passing) (hp : p ∈ s.finished) :
    ((p.watched = true → p.adds = 1) → p.Follows) ∧
      (p.disturbed = false → (p.Follows ↔ (p.watched = true → p.adds = 1))) := by
  have hkept : s.Kept := by
    refine h.invariant kept_new ?_
    intro s t e hs hg ht
    obtain rfl := Except.ok.inj ht
    exact hs.happen hg
  exact hkept.finished p hp

/-- Data for the first listener, which is then removed, and data for nobody. -/
theorem follows_iff_first :
    ∃ s : ReadStream ℕ, machine.Reaches new s ∧
      s.finished = [⟨true, 1, 1, false⟩, ⟨false, 1, 0, false⟩] ∧ ∀ p ∈ s.finished, p.Follows := by
  have hrun := Machine.reaches_of_run (M := machine) (s := (new : ReadStream ℕ))
    (l := [.add 0, .data, .call, .remove 0, .data, .call]) rfl
  refine ⟨_, hrun, rfl, fun p hp ↦ (follows_iff hrun p hp).1 ?_⟩
  rcases List.mem_cons.mp hp with rfl | hp
  · exact fun _ ↦ rfl
  · rw [List.mem_singleton.mp hp]
    exact fun h ↦ absurd h (by decide)

/-- The last listener is removed, and another one added: it gets nothing. -/
theorem added_again_gets_nothing :
    ¬∀ s : ReadStream ℕ, machine.Reaches new s → ∀ p ∈ s.finished, p.Follows := by
  intro hall
  have hrun := Machine.reaches_of_run (M := machine) (s := (new : ReadStream ℕ))
    (l := [.add 0, .remove 0, .add 0, .data, .call, .call]) rfl
  have hfollows := hall _ hrun ⟨true, 2, 0, false⟩ (List.mem_singleton_self _)
  exact absurd hfollows (by simp [Passing.Follows])

end ReadStream

end SpiderNode.Tty
