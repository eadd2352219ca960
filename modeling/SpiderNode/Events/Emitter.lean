import SpiderNode.Machine.Runs
import SpiderNode.Text.Utf16
import Mathlib.Data.Int.Notation
import Mathlib.Logic.Function.Basic

/-!
# Event emitters

`lib/events.js` keeps the listeners of an event in a property of a plain object, `_events`: nothing
or `null` for none, the function itself for one, an array for more. The same object holds
`maxListeners`, and inherits what every object has.

A listener may call the emitter again while `emit` goes through its copy of the array. An `emit`
that is under way is a `Frame`, with the listeners it has still to call. The running code is the
listener that the frame on top has called last, or the program if there is no frame; it calls the
emitter (an event for each method), returns, or throws.

Beside the object, an emitter carries what it is compared with: the list of the operations on
listeners in the order in which they were carried out (`listOf` is what they come to), and for each
`emit` the list of its event at that moment.

The warning about too many listeners is left out. A function that `_events` inherits is taken to
leave the emitter alone. An assignment to `__proto__` gives the object another prototype; a run is
not followed beyond it.
-/

namespace SpiderNode.Events

open Function (update)

/-- What can stand for a listener in `_events`. -/
inductive Elem where
  /-- A function of the program. -/
  | fn (f : ℕ)
  /-- The function `g` that `once` makes. -/
  | wrapper (w : ℕ)
  /-- A function that the object inherits. -/
  | builtin (name : JSString)
  /-- What `setMaxListeners` has stored. -/
  | number (n : ℤ)
  /-- `Object.prototype` -/
  | object
  deriving DecidableEq, Repr

namespace Elem

def isFunction : Elem → Bool
  | fn _ | wrapper _ | builtin _ => true
  | number _ | object => false

/-- A function that was passed to the emitter. -/
def isListener : Elem → Bool
  | fn _ | wrapper _ => true
  | _ => false

def truthy : Elem → Bool
  | number n => n ≠ 0
  | _ => true

end Elem

/-- A property of `_events`. -/
inductive Slot where
  | absent
  | null
  | one (e : Elem)
  | many (l : List Elem)
  deriving DecidableEq, Repr

/-- `!_events[type]` does not hold. -/
def Slot.truthy : Slot → Bool
  | absent | null => false
  | one e => e.truthy
  | many _ => true

/-- The property with one more listener. -/
def Slot.push (s : Slot) (e : Elem) : Slot :=
  match s with
  | many l => many (l ++ [e])
  | one x => if x.truthy then many [x, e] else one e
  | _ => one e

/-- The property without a listener, or `none` if it stays as it is. -/
def Slot.remove (s : Slot) (e : Elem) : Option Slot :=
  match s with
  | many l => if e ∈ l then some (if l.erase e = [] then absent else many (l.erase e)) else none
  | one x => if x = e then some absent else none
  | _ => none

/-- The array that `listeners` makes of a property. -/
def Slot.toArray : Slot → List Elem
  | many l => l
  | one x => if x.truthy then [x] else []
  | _ => []

/-- The properties that `_events` inherits. -/
def inherited (type : JSString) : Slot :=
  if type = js "__proto__" then .one .object
  else if type ∈ objectPrototype then .one (.builtin type)
  else .absent

/-! ## Lists of listeners -/

/-- What is done to the listeners of an event. -/
inductive ListOp where
  | add (type : JSString) (e : Elem)
  | remove (type : JSString) (e : Elem)
  | removeAll (type : JSString)
  deriving DecidableEq, Repr

/-- A map from events to lists of listeners. -/
abbrev Lists := JSString → List Elem

def Lists.apply (m : Lists) : ListOp → Lists
  | .add type e => update m type (m type ++ [e])
  | .remove type e => update m type ((m type).erase e)
  | .removeAll type => update m type []

/-- The lists that a sequence of operations comes to. -/
def listOf (ops : List ListOp) : Lists := ops.foldl Lists.apply fun _ ↦ []

/-! ## Emitters -/

/-- A call of `emit`. -/
structure Emission where
  type : JSString
  /-- The listeners of the event at the moment of the call. -/
  expected : List Elem
  called : List Elem
  /-- What it has returned, unless `addListener` made the call. -/
  returned : Option Bool
  deriving DecidableEq, Repr

/-- A call of `emit` that is under way. -/
structure Frame where
  id : ℕ
  /-- What is left of `listeners`. -/
  pending : List Elem
  /-- The `addListener` that has emitted `newListener`. -/
  after : Option (JSString × Elem)
  deriving DecidableEq, Repr

structure Emitter where
  /-- `_events` exists. -/
  hasEvents : Bool
  own : JSString → Slot
  stack : List Frame
  /-- The event and the function of each `once`. -/
  wrapped : ℕ → JSString × ℕ
  wrappers : ℕ
  /-- The operations on listeners, in the order in which they were carried out. -/
  ops : List ListOp
  emission : ℕ → Emission
  emitted : ℕ
  /-- For each call of `listeners` the list it stands for and the array it returned. -/
  answers : List (List Elem × List Elem)
  /-- All calls of listeners. -/
  calls : List Elem
  /-- The functions that were passed to `on`. -/
  ons : List Elem

/-- The prototype of `_events` is replaced. -/
inductive EmitterFailure where
  | prototype
  deriving DecidableEq, Repr

namespace Emitter

def init : Emitter where
  hasEvents := false
  own _ := .absent
  stack := []
  wrapped _ := ([], 0)
  wrappers := 0
  ops := []
  emission _ := ⟨[], [], [], none⟩
  emitted := 0
  answers := []
  calls := []
  ons := []

variable (a : Emitter)

/-! ## `_events` -/

/-- The own property, or what the object inherits. -/
def slot (type : JSString) : Slot :=
  match a.own type with
  | .absent => inherited type
  | s => s

/-- `this._events && this._events[type]` -/
def value (type : JSString) : Slot := if a.hasEvents then a.slot type else .absent

/-- `if (!this._events) this._events = {}` -/
def create : Emitter := { a with hasEvents := true }

/-- `this._events[type] = …`, or its deletion. -/
def setOwn (type : JSString) (s : Slot) : Emitter := { a with own := update a.own type s }

def log (op : ListOp) : Emitter := { a with ops := a.ops ++ [op] }

/-- The listeners of an event, as the operations have left them. -/
def listeners (type : JSString) : List Elem := listOf a.ops type

/-- The end of `addListener`, behind its call of `emit`. -/
def append (type : JSString) (e : Elem) : Except EmitterFailure Emitter :=
  if type = js "__proto__" then .error .prototype
  else .ok ((a.setOwn type ((a.value type).push e)).log (.add type e))

/-- `removeListener`. The array that is spliced belongs to the object, since no array is
inherited. -/
def removeListener (type : JSString) (e : Elem) : Emitter :=
  (match (a.value type).remove e with
  | some s => a.setOwn type s
  | none => a).log (.remove type e)

/-- `removeAllListeners` -/
def removeAllListeners (type : JSString) : Except EmitterFailure Emitter :=
  if type ≠ [] ∧ (a.value type).truthy then
    if type = js "__proto__" then .error .prototype
    else .ok ((a.setOwn type .null).log (.removeAll type))
  else .ok (a.log (.removeAll type))

/-- `listeners` -/
def askListeners (type : JSString) : Except EmitterFailure Emitter :=
  let a := a.create
  if type = js "__proto__" then .error .prototype
  else .ok { a.setOwn type (.many (a.value type).toArray) with
    answers := a.answers ++ [(a.listeners type, (a.value type).toArray)] }

def setMaxListeners (n : ℤ) : Emitter := a.create.setOwn (js "maxListeners") (.one (.number n))

/-! ## `emit` -/

def setEmission (id : ℕ) (x : Emission) : Emitter := { a with emission := update a.emission id x }

def setStack (l : List Frame) : Emitter := { a with stack := l }

/-- `emit` has returned: to the program or a listener, or to the `addListener` that called it. -/
def finish (id : ℕ) (result : Bool) : Option (JSString × Elem) → Except EmitterFailure Emitter
  | none => .ok (a.setEmission id { a.emission id with returned := some result })
  | some (type, e) => a.append type e

/-- The record of a call. -/
def record (id : ℕ) (e : Elem) : Emitter :=
  { a.setEmission id { a.emission id with called := (a.emission id).called ++ [e] } with
    calls := a.calls ++ [e] }

/-- The call of a listener. A wrapper first removes itself. -/
def call (id : ℕ) (e : Elem) : Emitter :=
  match e with
  | .wrapper w => (a.record id e).removeListener (a.wrapped w).1 e
  | _ => a.record id e

/-- The frame on top goes on: it calls the next listener, or `emit` returns. What is not a function
cannot be called, and makes `emit` throw. -/
def proceed (f : Frame) (stack : List Frame) : Except EmitterFailure Emitter :=
  match f.pending with
  | [] => (a.setStack stack).finish f.id true f.after
  | e :: rest =>
    if e.isFunction then .ok ((a.setStack ({ f with pending := rest } :: stack)).call f.id e)
    else .ok (a.setStack stack)

/-- What `emit` finds: the listeners to call, or nothing. -/
def handlers (type : JSString) : Option (List Elem) :=
  match a.value type with
  | .many l => some l
  | .one e => if e.isFunction then some [e] else none
  | _ => none

/-- Whether `emit('error')` throws for want of a listener. -/
def unhandled (type : JSString) : Bool :=
  type = js "error" && (!(a.value type).truthy || a.value type = .many [])

/-- A call of `emit` begins. -/
def begin (type : JSString) : Emitter :=
  { a.setEmission a.emitted ⟨type, a.listeners type, [], none⟩ with emitted := a.emitted + 1 }

/-- `emit`, called by the program or by `addListener`. -/
def emit (type : JSString) (after : Option (JSString × Elem)) : Except EmitterFailure Emitter :=
  if a.unhandled type then .ok (a.begin type)
  else
    match a.handlers type with
    | none => (a.begin type).finish a.emitted false after
    | some l => (a.begin type).proceed ⟨a.emitted, l, after⟩ a.stack

/-- `addListener` -/
def addListener (type : JSString) (e : Elem) : Except EmitterFailure Emitter :=
  a.create.emit (js "newListener") (some (type, e))

/-- A function was passed to `on`. -/
def noteOn (e : Elem) : Emitter := { a with ons := a.ons ++ [e] }

/-- The emitter with a new function `g`. -/
def wrap (type : JSString) (f : ℕ) : Emitter :=
  { a with wrapped := update a.wrapped a.wrappers (type, f), wrappers := a.wrappers + 1 }

end Emitter

/-! ## Runs -/

/-- What the running code does. -/
inductive EmitterEvent where
  | on (type : JSString) (e : Elem)
  | once (type : JSString) (f : ℕ)
  | removeListener (type : JSString) (e : Elem)
  | removeAllListeners (type : JSString)
  | listeners (type : JSString)
  | setMaxListeners (n : ℤ)
  | emit (type : JSString)
  /-- The listener that is running returns. -/
  | returns
  /-- The listener that is running throws. -/
  | throws
  deriving DecidableEq, Repr

namespace Emitter

/-- The functions that the running code can have: those of the program, and those that `once` has
made, which `listeners` and `newListener` give away. -/
def has (a : Emitter) : Elem → Bool
  | .fn _ => true
  | .wrapper w => w < a.wrappers
  | _ => false

/-- Only a listener that is running can return. -/
def Allows (a : Emitter) : EmitterEvent → Prop
  | .on _ e | .removeListener _ e => a.has e = true
  | .returns | .throws => a.stack ≠ []
  | _ => True

instance : ∀ (a : Emitter) (e : EmitterEvent), Decidable (a.Allows e)
  | a, .on _ e | a, .removeListener _ e => inferInstanceAs (Decidable (a.has e = true))
  | a, .returns | a, .throws => inferInstanceAs (Decidable (a.stack ≠ []))
  | _, .once _ _ | _, .removeAllListeners _ | _, .listeners _ | _, .setMaxListeners _
  | _, .emit _ => inferInstanceAs (Decidable True)

def step (a : Emitter) : EmitterEvent → Except EmitterFailure Emitter
  | .on type e => (a.noteOn e).addListener type e
  | .once type f => (a.wrap type f).addListener type (.wrapper a.wrappers)
  | .removeListener type e => .ok (a.removeListener type e)
  | .removeAllListeners type => a.removeAllListeners type
  | .listeners type => a.askListeners type
  | .setMaxListeners n => .ok (a.setMaxListeners n)
  | .emit type => a.emit type none
  | .returns =>
    match a.stack with
    | f :: stack => a.proceed f stack
    | [] => .ok a
  | .throws => .ok (a.setStack a.stack.tail)

def machine : Machine Emitter EmitterEvent EmitterFailure := ⟨Allows, step⟩

instance (a : Emitter) (e : EmitterEvent) : Decidable (machine.guard a e) :=
  inferInstanceAs (Decidable (a.Allows e))

end Emitter

end SpiderNode.Events
