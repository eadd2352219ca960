import SpiderNode.Events.Emitter

/-!
# Signals

`process` is an event emitter. For the events that are names of signals, `src/node.js` wraps its
methods `on` and `removeListener`: behind the original method they start or stop the `SignalWatcher`
of the signal, whose callback emits the event. `once` calls `on`, and the function it makes calls
`removeListener`, so they end up in the wrapped methods. `removeAllListeners` is not wrapped.

## The wrapped methods as steps

A step of the emitter carries out at most one operation on listeners, and nothing behind it. So the
code that the wrapped methods have behind the original one runs when such a step is over: `settle`
looks up the operation that was carried out, if any. In particular it runs late where the original
`addListener` has first to call the listeners of `newListener`, and not at all where one of them
throws.

In a normal build the assertion of `removeListener` is left out (`wscript` defines it away). Its
condition is a watcher for the signal; without one the call of `stop` throws.

Which names are signals depends on the system: `constants` tells whether a name is a constant that
is not zero.
-/

namespace SpiderNode

open Function (update)
open Events

structure Process where
  emitter : Emitter
  /-- The properties of `signalWatchers`: whether the watcher is started. -/
  watchers : JSString → Option Bool

namespace Process

inductive Failure where
  /-- A method of `undefined` is called. -/
  | typeError
  /-- The prototype of `_events` is replaced. -/
  | prototype
  deriving DecidableEq, Repr

def init : Process := ⟨.init, fun _ ↦ none⟩

variable (constants : JSString → Bool)

def isSignal (type : JSString) : Bool := type.take 3 = js "SIG" && constants type

variable (a : Process)

/-- The watcher is made, started or stopped. -/
def setWatcher (type : JSString) (active : Bool) : Process :=
  { a with watchers := update a.watchers type (some active) }

/-- `this.listeners(type)`, with the process afterwards. -/
def listeners (type : JSString) : Except Failure (List Elem × Process) :=
  match a.emitter.askListeners type with
  | .ok e => .ok ((e.value type).toArray, { a with emitter := e })
  | .error _ => .error .prototype

/-- `process.on`, behind its call of `addListener`. -/
def behindOn (type : JSString) : Except Failure Process :=
  if isSignal constants type then
    match a.watchers type with
    | none => .ok (a.setWatcher type true)
    | some _ => (a.listeners type).map fun (l, b) ↦
        if l.length = 1 then b.setWatcher type true else b
  else .ok a

/-- `process.removeListener`, behind its call of `removeListener`. -/
def behindRemoveListener (type : JSString) : Except Failure Process :=
  if isSignal constants type then
    (a.listeners type).bind fun (l, b) ↦
      if l.length = 0 then
        match b.watchers type with
        | some _ => .ok (b.setWatcher type false)
        | none => .error .typeError
      else .ok b
  else .ok a

/-- What follows a step of the emitter that had carried out `n` operations before. -/
def settle (n : ℕ) : Except Failure Process :=
  match a.emitter.ops[n]? with
  | some (.add type _) => a.behindOn constants type
  | some (.remove type _) => a.behindRemoveListener constants type
  | _ => .ok a

/-- A call of a method of `process`, or the end of a listener. -/
def call (ev : EmitterEvent) : Except Failure Process :=
  match a.emitter.step ev with
  | .ok e => settle constants { a with emitter := e } a.emitter.ops.length
  | .error _ => .error .prototype

/-- What can happen next. -/
inductive Event where
  | call (ev : EmitterEvent)
  /-- A signal is delivered to its watcher. -/
  | signal (type : JSString)
  deriving DecidableEq, Repr

def Allows : Event → Prop
  | .call ev => a.emitter.Allows ev
  | .signal type => a.emitter.stack = [] ∧ a.watchers type = some true

instance : ∀ ev, Decidable (a.Allows ev)
  | .call ev => inferInstanceAs (Decidable (a.emitter.Allows ev))
  | .signal type =>
    inferInstanceAs (Decidable (a.emitter.stack = [] ∧ a.watchers type = some true))

def step : Event → Except Failure Process
  | .call ev => a.call constants ev
  -- The callback of the watcher.
  | .signal type => a.call constants (.emit type)

def machine : Machine Process Event Failure := ⟨Allows, step constants⟩

instance (ev : Event) : Decidable ((machine constants).guard a ev) :=
  inferInstanceAs (Decidable (a.Allows ev))

variable (type : JSString)

/-- The running code calls `on`, `once`, `removeListener` or `removeAllListeners` for the signal, or
the signal is delivered. -/
def About : Event → Prop
  | .call (.on t _) | .call (.once t _) | .call (.removeListener t _)
  | .call (.removeAllListeners t) | .signal t => t = type
  | .call .returns | .call .throws => True
  | .call _ => False

instance : ∀ ev, Decidable (About type ev)
  | .call (.on t _) | .call (.once t _) | .call (.removeListener t _)
  | .call (.removeAllListeners t) | .signal t => inferInstanceAs (Decidable (t = type))
  | .call .returns | .call .throws => inferInstanceAs (Decidable True)
  | .call (.listeners _) | .call (.setMaxListeners _) | .call (.emit _) =>
    inferInstanceAs (Decidable False)

/-- `removeListener` is called when there has been a listener before, and `removeAllListeners` when
there is none. -/
def Careful : Event → Prop
  | .call (.removeListener _ _) => (a.watchers type).isSome
  | .call (.removeAllListeners _) => (a.emitter.value type).toArray = []
  | _ => True

instance : ∀ ev, Decidable (a.Careful type ev)
  | .call (.removeListener _ _) => inferInstanceAs (Decidable ((a.watchers type).isSome = true))
  | .call (.removeAllListeners _) =>
    inferInstanceAs (Decidable ((a.emitter.value type).toArray = []))
  | .call (.on _ _) | .call (.once _ _) | .call (.listeners _) | .call (.setMaxListeners _)
  | .call (.emit _) | .call .returns | .call .throws | .signal _ =>
    inferInstanceAs (Decidable True)

variable {constants a type}

/-! ## Arrays of listeners -/

theorem toArray_push {e : Elem} (he : e.truthy = true) (s : Slot) :
    (s.push e).toArray = s.toArray ++ [e] := by
  rcases s with _ | _ | x | l
  · simp [Slot.push, Slot.toArray, he]
  · simp [Slot.push, Slot.toArray, he]
  · rw [Slot.push]
    split_ifs with hx <;> simp [Slot.toArray, he, hx]
  · rfl

theorem toArray_remove {e : Elem} (he : e.truthy = true) (s : Slot) :
    ((s.remove e).getD s).toArray = s.toArray.erase e := by
  rcases s with _ | _ | x | l
  · rfl
  · rfl
  · by_cases hx : x = e
    · subst hx
      simp [Slot.remove, Slot.toArray, he]
    · by_cases ht : x.truthy = true <;> simp [Slot.remove, Slot.toArray, hx, ht]
  · by_cases hl : e ∈ l
    · by_cases hnil : l.erase e = [] <;> simp [Slot.remove, Slot.toArray, hl, hnil]
    · simp [Slot.remove, Slot.toArray, hl, List.erase_of_not_mem hl]

/-- Functions are truthy. -/
theorem truthy_of_has {e : Emitter} {x : Elem} (h : e.has x = true) : x.truthy = true := by
  rcases x with f | w | name | n | _
  · rfl
  · rfl
  all_goals cases h

/-! ## The emitter -/

/-- The signals have names of their own. -/
theorem take_three_ne {t : JSString} (h : t.take 3 ≠ js "SIG") (hs : isSignal constants type) :
    type ≠ t := by
  rintro rfl
  rw [isSignal, Bool.and_eq_true, decide_eq_true_eq] at hs
  exact h hs.1

theorem inherited_of_isSignal (hs : isSignal constants type) : inherited type = .absent := by
  have hproto : ∀ t ∈ objectPrototype, t.take 3 ≠ js "SIG" := by decide
  have hmem : type ∉ objectPrototype := fun hmem ↦ take_three_ne (hproto type hmem) hs rfl
  rw [inherited, if_neg (take_three_ne (by decide) hs), if_neg hmem]

/-- What holds of the emitter while it is only used for one signal: in particular, `addListener`
calls no listener, and the functions that `once` makes remove themselves from that event. -/
structure Ground (type : JSString) (e : Emitter) : Prop where
  fresh : e.hasEvents = true ∨ e.own type = .absent
  unheard : e.own (js "newListener") = .absent
  plain : ∀ f ∈ e.stack, f.after = none
  wrapped : ∀ w, (e.wrapped w).1 = type ∨ (e.wrapped w).1 = []

/-- What a step of the emitter that adds no listener does to the listeners of the event. -/
inductive Effect (constants : JSString → Bool) (type : JSString) (e e' : Emitter) : Prop
  | remove (x : Elem) (hop : e'.ops[e.ops.length]? = some (.remove type x))
      (harray : (e'.own type).toArray = (e.own type).toArray.erase x)
  | none (hop : ∀ watchers, settle constants ⟨e', watchers⟩ e.ops.length = .ok ⟨e', watchers⟩)
      (harray : (e'.own type).toArray = (e.own type).toArray)

variable {e e' : Emitter}

theorem getElem?_log (e : Emitter) (op : ListOp) : (e.log op).ops[e.ops.length]? = some op := by
  simp [Emitter.log]

theorem settle_of_ops_eq (h : e'.ops = e.ops) (watchers : JSString → Option Bool) :
    settle constants ⟨e', watchers⟩ e.ops.length = .ok ⟨e', watchers⟩ := by
  simp [settle, h]

theorem Effect.of_eq {e₀ : Emitter} (h : Effect constants type e₀ e') (hops : e₀.ops = e.ops)
    (hown : e₀.own = e.own) : Effect constants type e e' := by
  rcases h with ⟨x, hop, harray⟩ | ⟨hop, harray⟩
  · exact .remove x (hops ▸ hop) (hown ▸ harray)
  · exact .none (hops ▸ hop) (hown ▸ harray)

namespace Ground

theorem value_eq (h : Ground type e) (hs : isSignal constants type) :
    e.value type = e.own type := by
  have hslot : e.slot type = e.own type := by
    rw [Emitter.slot]
    split
    · rename_i heq
      rw [inherited_of_isSignal hs, heq]
    · rfl
  rcases h.fresh with hf | hf
  · rw [Emitter.value, if_pos hf, hslot]
  · rw [Emitter.value, hslot, hf, ite_self]

theorem create (h : Ground type e) : Ground type e.create := { h with fresh := .inl rfl }

theorem setOwn (h : Ground type e) (hs : isSignal constants type) (hf : e.hasEvents = true)
    (s : Slot) : Ground type (e.setOwn type s) where
  fresh := .inl hf
  unheard := by
    change update e.own type s (js "newListener") = _
    rw [Function.update_of_ne (take_three_ne (by decide) hs).symm]
    exact h.unheard
  plain := h.plain
  wrapped := h.wrapped

theorem log (h : Ground type e) (op : ListOp) : Ground type (e.log op) := { h with }

theorem setStack (h : Ground type e) {l : List Frame} (hl : ∀ f ∈ l, f.after = none) :
    Ground type (e.setStack l) := { h with plain := hl }

/-- `addListener` finds no listener of `newListener`. -/
theorem addListener_eq (h : Ground type e) (t : JSString) (x : Elem) :
    e.addListener t x = (e.create.begin (js "newListener")).append t x := by
  have hinherited : inherited (js "newListener") = .absent := by decide
  have hvalue : e.create.value (js "newListener") = .absent := by
    have hown : e.create.own (js "newListener") = .absent := h.unheard
    rw [Emitter.value, Emitter.slot, hown]
    dsimp only
    rw [hinherited, ite_self]
  have herror : e.create.unhandled (js "newListener") = false := by
    rw [Emitter.unhandled, decide_eq_false (by decide), Bool.false_and]
  rw [Emitter.addListener, Emitter.emit, herror, Emitter.handlers, hvalue]
  rfl

theorem append (h : Ground type e) (hs : isSignal constants type) (hf : e.hasEvents = true)
    {x : Elem} (hx : x.truthy = true) : ∃ e', e.append type x = .ok e' ∧ Ground type e' ∧
      e'.ops[e.ops.length]? = some (.add type x) ∧
      (e'.own type).toArray = (e.own type).toArray ++ [x] := by
  refine ⟨_, if_neg (take_three_ne (by decide) hs), (h.setOwn hs hf _).log _,
    getElem?_log (e.setOwn type _) _, ?_⟩
  change (update e.own type _ type).toArray = _
  rw [Function.update_self, h.value_eq hs, toArray_push hx]

theorem addListener (h : Ground type e) (hs : isSignal constants type) {x : Elem}
    (hx : x.truthy = true) : ∃ e', e.addListener type x = .ok e' ∧ Ground type e' ∧
      e'.ops[e.ops.length]? = some (.add type x) ∧
      (e'.own type).toArray = (e.own type).toArray ++ [x] := by
  have hbegin : Ground type (e.create.begin (js "newListener")) := { h.create with }
  rw [h.addListener_eq]
  exact hbegin.append hs rfl hx

theorem removeListener (h : Ground type e) (hs : isSignal constants type) {x : Elem}
    (hx : x.truthy = true) : Ground type (e.removeListener type x) ∧
      (e.removeListener type x).ops[e.ops.length]? = some (.remove type x) ∧
      ((e.removeListener type x).own type).toArray = (e.own type).toArray.erase x := by
  have harray : ((((e.value type).remove x).getD (e.own type))).toArray =
      (e.own type).toArray.erase x := by rw [h.value_eq hs, toArray_remove hx]
  rw [Emitter.removeListener]
  split
  · rename_i s hsome
    have hf : e.hasEvents = true := by
      rcases h.fresh with hf | hf
      · exact hf
      · rw [h.value_eq hs, hf] at hsome
        cases hsome
    refine ⟨(h.setOwn hs hf s).log _, getElem?_log (e.setOwn type s) _, ?_⟩
    change (update e.own type s type).toArray = _
    rw [Function.update_self, ← harray, hsome, Option.getD_some]
  · rename_i hnone
    refine ⟨h.log _, getElem?_log e _, ?_⟩
    rw [← harray, hnone]
    rfl

/-- `removeAllListeners`, where there are none. -/
theorem removeAllListeners (h : Ground type e) (hs : isSignal constants type)
    (hnil : (e.value type).toArray = []) : ∃ e', e.removeAllListeners type = .ok e' ∧
      Ground type e' ∧ (∀ watchers,
        settle constants ⟨e', watchers⟩ e.ops.length = .ok ⟨e', watchers⟩) ∧
      (e'.own type).toArray = (e.own type).toArray ∧ e'.stack = e.stack := by
  have hsettle : ∀ (e' : Emitter) watchers, e'.ops = e.ops →
      settle constants ⟨e'.log (.removeAll type), watchers⟩ e.ops.length =
        .ok ⟨e'.log (.removeAll type), watchers⟩ := by
    intro e' watchers hops
    simp [settle, Emitter.log, hops]
  rw [Emitter.removeAllListeners]
  split_ifs with htruthy hproto
  · exact absurd hproto (take_three_ne (by decide) hs)
  · have hf : e.hasEvents = true := by
      rcases h.fresh with hf | hf
      · exact hf
      · rw [h.value_eq hs, hf] at htruthy
        cases htruthy.2
    refine ⟨_, rfl, (h.setOwn hs hf .null).log _, fun watchers ↦ hsettle _ watchers rfl, ?_, rfl⟩
    change (update e.own type .null type).toArray = _
    rw [Function.update_self, ← h.value_eq hs, hnil]
    rfl
  · exact ⟨_, rfl, h.log _, fun watchers ↦ hsettle _ watchers rfl, rfl, rfl⟩

/-- A function that has nothing to do with the signal removes itself. -/
theorem removeListener_nil (h : Ground type e) (hs : isSignal constants type) (x : Elem) :
    Ground type (e.removeListener [] x) ∧ Effect constants type e (e.removeListener [] x) := by
  have hne : type ≠ [] := take_three_ne (by decide) hs
  have hown : ∀ t ≠ [], (e.removeListener [] x).own t = e.own t := fun t ht ↦ by
    rw [Emitter.removeListener]
    split
    · exact Function.update_of_ne ht _ _
    · rfl
  have hsame : (e.removeListener [] x).hasEvents = e.hasEvents ∧
      (e.removeListener [] x).stack = e.stack ∧ (e.removeListener [] x).wrapped = e.wrapped ∧
      (e.removeListener [] x).ops = e.ops ++ [ListOp.remove [] x] := by
    rw [Emitter.removeListener]
    split <;> exact ⟨rfl, rfl, rfl, rfl⟩
  obtain ⟨hevents, hstack, hwrapped, hops⟩ := hsame
  refine ⟨⟨?_, ?_, ?_, ?_⟩, .none (fun watchers ↦ ?_) (by rw [hown type hne])⟩
  · rw [hevents, hown type hne]
    exact h.fresh
  · rw [hown _ (by decide)]
    exact h.unheard
  · rw [hstack]
    exact h.plain
  · rw [hwrapped]
    exact h.wrapped
  · have hno : isSignal constants [] = false := by
      rw [isSignal, decide_eq_false (by decide), Bool.false_and]
    simp [settle, hops, behindRemoveListener, hno]

/-- The frame on top goes on. -/
theorem proceed (h : Ground type e) (hs : isSignal constants type) {f : Frame} {stack : List Frame}
    (hf : f.after = none) (hstack : ∀ g ∈ stack, g.after = none) :
    ∃ e', e.proceed f stack = .ok e' ∧ Ground type e' ∧ Effect constants type e e' := by
  rw [Emitter.proceed]
  rcases f.pending with _ | ⟨x, rest⟩
  · rw [hf]
    have hground : Ground type ((e.setStack stack).setEmission f.id
        { (e.setStack stack).emission f.id with returned := some true }) :=
      { h.setStack hstack with }
    exact ⟨_, rfl, hground, .none (settle_of_ops_eq rfl) rfl⟩
  · dsimp only
    have hframe : ∀ g ∈ { f with pending := rest } :: stack, g.after = none := by
      rintro g (_ | ⟨_, hg⟩)
      · exact hf
      · exact hstack g hg
    have hrecord : Ground type ((e.setStack ({ f with pending := rest } :: stack)).record f.id x) :=
      { h.setStack hframe with }
    split_ifs with hx
    · rcases x with n | w | name | n | _
      · exact ⟨_, rfl, hrecord, .none (settle_of_ops_eq rfl) rfl⟩
      · refine ⟨_, rfl, ?_⟩
        rw [Emitter.call]
        change Ground type (Emitter.removeListener _ (e.wrapped w).1 _) ∧
          Effect constants type e (Emitter.removeListener _ (e.wrapped w).1 _)
        -- a wrapper that `once` has made removes itself, and the others are those of no event
        rcases h.wrapped w with hw | hw <;> rw [hw]
        · obtain ⟨hg, hop, harray⟩ := hrecord.removeListener hs (x := .wrapper w) rfl
          exact ⟨hg, .remove _ hop harray⟩
        · obtain ⟨hg, heff⟩ := hrecord.removeListener_nil hs (.wrapper w)
          exact ⟨hg, heff.of_eq rfl rfl⟩
      · exact ⟨_, rfl, hrecord, .none (settle_of_ops_eq rfl) rfl⟩
      · cases hx
      · cases hx
    · exact ⟨_, rfl, h.setStack hstack, .none (settle_of_ops_eq rfl) rfl⟩

theorem emit (h : Ground type e) (hs : isSignal constants type) :
    ∃ e', e.emit type none = .ok e' ∧ Ground type e' ∧ Effect constants type e e' := by
  have hbegin : Ground type (e.begin type) := { h with }
  have herror : e.unhandled type = false := by
    rw [Emitter.unhandled, decide_eq_false (take_three_ne (by decide) hs), Bool.false_and]
  rw [Emitter.emit, herror]
  rcases e.handlers type with _ | l
  · exact ⟨_, rfl, { hbegin with }, .none (settle_of_ops_eq rfl) rfl⟩
  · obtain ⟨e', he', hg, heff⟩ := hbegin.proceed hs (f := ⟨e.emitted, l, none⟩) rfl h.plain
    exact ⟨e', he', hg, heff.of_eq rfl rfl⟩

/-- `listeners` answers with the array, and leaves it in the property. -/
theorem listeners (h : Ground type e) (hs : isSignal constants type)
    (watchers : JSString → Option Bool) :
    ∃ e', Process.listeners ⟨e, watchers⟩ type = .ok ((e.own type).toArray, ⟨e', watchers⟩) ∧
      Ground type e' ∧ (e'.own type).toArray = (e.own type).toArray := by
  obtain ⟨e', hask⟩ : ∃ e', e' = { e.create.setOwn type (.many (e.create.value type).toArray) with
    answers := e.answers ++ [(e.listeners type, (e.create.value type).toArray)] } := ⟨_, rfl⟩
  have hok : e.askListeners type = .ok e' := by
    rw [hask]
    exact if_neg (take_three_ne (by decide) hs)
  have hg : Ground type e' := by
    rw [hask]
    exact { h.create.setOwn hs rfl _ with }
  have harray : (e'.own type).toArray = (e.own type).toArray := by
    rw [hask, h.create.value_eq hs]
    change (update e.own type _ type).toArray = _
    rw [Function.update_self]
    rfl
  refine ⟨e', ?_, hg, harray⟩
  rw [Process.listeners, hok]
  dsimp only
  rw [hg.value_eq hs, harray]

end Ground

/-! ## The process -/

/-- The invariant of the process while it is only used for one signal. -/
structure Attended (type : JSString) (a : Process) : Prop where
  ground : Ground type a.emitter
  watching : a.watchers type = some true ↔ (a.emitter.own type).toArray ≠ []
  running : a.emitter.stack ≠ [] → (a.watchers type).isSome

/-- The watcher has been started for an array that is not empty. -/
theorem Ground.attended_start (hg : Ground type e) (harray : (e.own type).toArray ≠ [])
    (watchers : JSString → Option Bool) :
    Attended type (setWatcher ⟨e, watchers⟩ type true) where
  ground := hg
  watching := by simp [setWatcher, harray]
  running _ := by simp [setWatcher]

namespace Attended

/-- A listener was added. -/
theorem settle_add (h : Attended type a) (hs : isSignal constants type) (hg : Ground type e')
    {x : Elem} (hop : e'.ops[a.emitter.ops.length]? = some (.add type x))
    (harray : (e'.own type).toArray = (a.emitter.own type).toArray ++ [x]) :
    ∃ b, settle constants ⟨e', a.watchers⟩ a.emitter.ops.length = .ok b ∧ Attended type b := by
  have hne : (e'.own type).toArray ≠ [] := by simp [harray]
  rw [settle, hop]
  dsimp only
  rw [behindOn, if_pos hs]
  rcases hw : a.watchers type with _ | active
  · exact ⟨_, rfl, hg.attended_start hne _⟩
  · obtain ⟨e'', hl, hg', harray'⟩ := hg.listeners hs a.watchers
    dsimp only
    rw [hl]
    refine ⟨_, rfl, ?_⟩
    dsimp only
    split_ifs with hone
    · exact hg'.attended_start (harray' ▸ hne) _
    · -- There was a listener before, so the watcher is started already.
      have hold : (a.emitter.own type).toArray ≠ [] := by
        intro hnil
        rw [harray, hnil] at hone
        exact hone rfl
      have htrue := h.watching.mpr hold
      exact ⟨hg', ⟨fun _ ↦ harray' ▸ hne, fun _ ↦ htrue⟩, fun _ ↦ Option.isSome_of_mem htrue⟩

/-- Nothing was done that the watcher would have to know. -/
theorem settle_none (h : Attended type a) (hg : Ground type e')
    (hop : ∀ watchers, settle constants ⟨e', watchers⟩ a.emitter.ops.length = .ok ⟨e', watchers⟩)
    (harray : (e'.own type).toArray = (a.emitter.own type).toArray)
    (hrunning : e'.stack ≠ [] → (a.watchers type).isSome) :
    ∃ b, settle constants ⟨e', a.watchers⟩ a.emitter.ops.length = .ok b ∧ Attended type b :=
  ⟨_, hop a.watchers, hg, by rw [harray]; exact h.watching, hrunning⟩

/-- A listener was removed, or nothing was done. -/
theorem settle_effect (h : Attended type a) (hs : isSignal constants type) (hg : Ground type e')
    (heff : Effect constants type a.emitter e') (hsome : (a.watchers type).isSome) :
    ∃ b, settle constants ⟨e', a.watchers⟩ a.emitter.ops.length = .ok b ∧ Attended type b := by
  rcases heff with ⟨x, hop, harray⟩ | ⟨hop, harray⟩
  · obtain ⟨active, hw⟩ := Option.isSome_iff_exists.mp hsome
    obtain ⟨e'', hl, hg', harray'⟩ := hg.listeners hs a.watchers
    rw [settle, hop]
    dsimp only
    rw [behindRemoveListener, if_pos hs, hl]
    dsimp only [Except.bind]
    split_ifs with hzero
    · rw [hw]
      have hnil : (e''.own type).toArray = [] := by
        rw [harray']
        exact List.eq_nil_of_length_eq_zero hzero
      exact ⟨_, rfl, hg', by simp [setWatcher, hnil], fun _ ↦ by simp [setWatcher]⟩
    · -- There is still a listener, and there was one before.
      have hne : (e'.own type).toArray ≠ [] := fun hnil ↦ hzero (by rw [hnil]; rfl)
      have hold : (a.emitter.own type).toArray ≠ [] := by
        intro hnil
        rw [harray, hnil] at hne
        exact hne rfl
      have htrue := h.watching.mpr hold
      exact ⟨_, rfl, hg', ⟨fun _ ↦ harray' ▸ hne, fun _ ↦ htrue⟩, fun _ ↦ hsome⟩
  · exact h.settle_none hg hop harray fun _ ↦ hsome

theorem call_on (h : Attended type a) (hs : isSignal constants type) {ev : EmitterEvent}
    (e₀ : Emitter) (hg : Ground type e₀) (hops : e₀.ops = a.emitter.ops)
    (hown : e₀.own = a.emitter.own) {x : Elem} (hx : x.truthy = true)
    (hev : a.emitter.step ev = e₀.addListener type x) :
    ∃ b, a.call constants ev = .ok b ∧ Attended type b := by
  obtain ⟨e', he', hg', hop, harray⟩ := hg.addListener hs hx
  rw [call, hev, he']
  exact h.settle_add hs hg' (hops ▸ hop) (hown ▸ harray)

theorem step (h : Attended type a) (hs : isSignal constants type) {ev : Event}
    (hallows : a.Allows ev) (habout : About type ev) (hcareful : a.Careful type ev) :
    ∃ b, a.step constants ev = .ok b ∧ Attended type b := by
  rcases ev with ev | t
  · cases ev with
    | on t x =>
      obtain rfl : t = type := habout
      exact h.call_on hs (a.emitter.noteOn x) { h.ground with } rfl rfl
        (truthy_of_has hallows) rfl
    | once t f =>
      obtain rfl : t = type := habout
      refine h.call_on hs (a.emitter.wrap t f) { h.ground with wrapped := fun w ↦ ?_ } rfl rfl
        rfl rfl
      -- the new wrapper is one of the signal, and the others are as before
      by_cases hw : w = a.emitter.wrappers
      · have hnew : (a.emitter.wrap t f).wrapped w = (t, f) := by
          rw [hw]
          exact Function.update_self ..
        rw [hnew]
        exact .inl rfl
      · have hold : (a.emitter.wrap t f).wrapped w = a.emitter.wrapped w :=
          Function.update_of_ne hw _ _
        rw [hold]
        exact h.ground.wrapped w
    | removeListener t x =>
      obtain rfl : t = type := habout
      obtain ⟨hg, hop, harray⟩ := h.ground.removeListener hs (truthy_of_has hallows)
      exact h.settle_effect hs hg (.remove x hop harray) hcareful
    | removeAllListeners t =>
      obtain rfl : t = type := habout
      obtain ⟨e', he', hg, hop, harray, hstack⟩ := h.ground.removeAllListeners hs hcareful
      rw [Process.step, call, Emitter.step, he']
      exact h.settle_none hg hop harray fun hne ↦ h.running (hstack ▸ hne)
    | returns =>
      have hsome := h.running hallows
      obtain ⟨f, stack, hstack⟩ := List.exists_cons_of_ne_nil hallows
      have hplain := h.ground.plain
      rw [hstack] at hplain
      obtain ⟨e', he', hg, heff⟩ := h.ground.proceed hs (hplain f (List.mem_cons_self ..))
        fun g hg ↦ hplain g (List.mem_cons_of_mem _ hg)
      rw [Process.step, call, Emitter.step, hstack]
      dsimp only
      rw [he']
      exact h.settle_effect hs hg heff hsome
    | throws =>
      have hground : Ground type (a.emitter.setStack a.emitter.stack.tail) :=
        h.ground.setStack fun f hf ↦ h.ground.plain f (List.mem_of_mem_tail hf)
      exact h.settle_none hground (settle_of_ops_eq rfl) rfl fun _ ↦ h.running hallows
    | listeners t | setMaxListeners n | emit t => exact habout.elim
  · obtain rfl : t = type := habout
    obtain ⟨e', he', hg, heff⟩ := h.ground.emit hs
    rw [Process.step, call, Emitter.step, he']
    exact h.settle_effect hs hg heff (by rw [hallows.2]; rfl)

end Attended

end Process

end SpiderNode
