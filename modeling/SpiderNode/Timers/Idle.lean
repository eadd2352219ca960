import SpiderNode.Links.Ring
import SpiderNode.Machine.Runs
import Mathlib.Data.Rat.Defs

/-!
# Timers

`lib/timers.js` keeps all items with the same timeout in one list of `lib/_linklist.js`, with one
watcher for the list. An item goes to the new end of the list when it is active; the callback of the
watcher looks at the old end.

The callback calls handlers, which may call the module again. So it is cut into steps: `looping`
where its loop is about to look at the list, `handling` where a handler that it has called runs. The
code that runs outside a loop is arbitrary; each call that it makes is an event, and so is each
advance of the clock.

Times are numbers of milliseconds. A watcher takes them for 32-bit integers, repeats each second as
long as it is given no positive one, and goes on until it is stopped (`src/node_timer.cc`). It is
taken to fire at any time while it is started, since nothing here depends on when it does. A timer
with no delay has a watcher of its own, which fires once; its callback then runs like other code
outside of lists.

The assertions of the source and its debug output are left out.
-/

namespace SpiderNode

open Function (update)

namespace Timers

/-- What has the properties `_idleNext` and `_idlePrev`. -/
inductive Node where
  | item (i : ℕ)
  | list (msecs : ℚ)
  deriving DecidableEq, Repr

/-- Which code is running. -/
inductive Phase where
  /-- No callback of a list. -/
  | idle
  /-- The loop of a callback that has read `now` from the clock. -/
  | looping (msecs : ℚ) (now : ℤ)
  /-- A handler that the callback has called. -/
  | handling (msecs : ℚ) (now : ℤ)
  deriving DecidableEq, Repr

/-- A call of `_onTimeout`. -/
structure Timeout where
  item : ℕ
  msecs : ℚ
  now : ℤ
  idleStart : ℤ
  deriving DecidableEq, Repr

/-- The watcher of a list. -/
structure Watcher where
  active : Bool
  /-- The interval at which it repeats, in milliseconds. -/
  interval : ℤ
  interval_pos : 0 < interval
  deriving DecidableEq, Repr

/-- `Timer()` -/
def Watcher.new : Watcher := ⟨false, 1000, by decide⟩

/-- `IntegerValue`, which gives 32 bits. -/
def integerValue (time : ℚ) : ℤ := (Int32.ofInt (time.num.tdiv time.den)).toInt

/-- `Timer::Again`. A watcher that does not repeat would not be started. -/
def Watcher.again (w : Watcher) (time : ℚ) : Watcher :=
  if h : 0 < integerValue time then ⟨integerValue time ≠ 0, integerValue time, h⟩
  else ⟨w.interval ≠ 0, w.interval, w.interval_pos⟩

end Timers

structure Timers where
  clock : ℤ
  links : Links Timers.Node
  /-- `lists[msecs]` exists. -/
  lists : ℚ → Bool
  watcher : ℚ → Timers.Watcher
  idleStart : ℕ → ℤ
  idleTimeout : ℕ → Option ℚ
  /-- The item has an `_onTimeout`. -/
  onTimeout : ℕ → Bool
  /-- The item is a `Timer` that has a `callback`. -/
  callback : ℕ → Bool
  /-- The item is a `Timer` that is started. -/
  started : ℕ → Bool
  phase : Timers.Phase
  /-- The item was made by `setTimeout`. -/
  made : ℕ → Bool
  /-- All calls of `_onTimeout`. -/
  timeouts : List Timers.Timeout
  /-- All calls of a `callback`. -/
  expired : List ℕ
  /-- A call of `active` has thrown. -/
  threw : Bool

namespace Timers

def init (clock : ℤ) : Timers where
  clock := clock
  links := ⟨fun _ ↦ none, fun _ ↦ none⟩
  lists _ := false
  watcher _ := .new
  idleStart _ := 0
  idleTimeout _ := none
  onTimeout _ := false
  callback _ := false
  started _ := false
  phase := .idle
  made _ := false
  timeouts := []
  expired := []
  threw := false

variable (a : Timers)

/-! ## Assignments -/

def setLinks (h : Links Node) : Timers := { a with links := h }

def setPhase (p : Phase) : Timers := { a with phase := p }

/-- `item._idleStart = new Date()` -/
def start (i : ℕ) : Timers := { a with idleStart := update a.idleStart i a.clock }

def setIdleTimeout (i : ℕ) (msecs : Option ℚ) : Timers :=
  { a with idleTimeout := update a.idleTimeout i msecs }

def setHandler (i : ℕ) (h : Bool) : Timers := { a with onTimeout := update a.onTimeout i h }

def setCallback (i : ℕ) (h : Bool) : Timers := { a with callback := update a.callback i h }

def setStarted (i : ℕ) (s : Bool) : Timers := { a with started := update a.started i s }

/-- `list.again(…)` -/
def again (msecs time : ℚ) : Timers :=
  { a with watcher := update a.watcher msecs ((a.watcher msecs).again time) }

/-- `list.stop()` -/
def stop (msecs : ℚ) : Timers :=
  { a with watcher := update a.watcher msecs { a.watcher msecs with active := false } }

/-- `new Timer()`, which becomes `lists[msecs]`. -/
def newList (msecs : ℚ) : Timers :=
  { a.setLinks (a.links.init (.list msecs)) with
    lists := update a.lists msecs true
    watcher := update a.watcher msecs .new }

/-- `L.append(lists[msecs], item)`. It throws if there is no list, when the item is out of its old
list already. -/
def append (msecs : ℚ) (i : ℕ) : Timers :=
  match if a.lists msecs then a.links.append (.list msecs) (.item i) else none with
  | some h => a.setLinks h
  | none => { a.setLinks (a.links.remove (.item i)) with threw := true }

/-! ## The module -/

/-- The middle of `insert`: a list that does not exist is made, and the watcher of an empty list is
started. -/
def arm (msecs : ℚ) : Timers :=
  let a := if a.lists msecs then a else a.newList msecs
  if a.links.isEmpty (.list msecs) then a.again msecs msecs else a

def insert (i : ℕ) (msecs : ℚ) : Timers :=
  let a := (a.start i).setIdleTimeout i (some msecs)
  if msecs < 0 then a else (a.arm msecs).append msecs i

def unenroll (i : ℕ) : Timers :=
  let a := a.setLinks (a.links.remove (.item i))
  match a.idleTimeout i with
  | some msecs => if a.lists msecs && a.links.isEmpty (.list msecs) then a.stop msecs else a
  | none => a

def enroll (i : ℕ) (msecs : ℚ) : Timers :=
  let a := if (a.links.next (.item i)).isSome then a.unenroll i else a
  let a := a.setIdleTimeout i (some msecs)
  a.setLinks (a.links.init (.item i))

def active (i : ℕ) : Timers :=
  match a.idleTimeout i with
  | some msecs =>
    if 0 ≤ msecs then
      if a.links.next (.item i) = some (.item i) then a.insert i msecs
      else (a.start i).append msecs i
    else a
  | none => a

/-- The `Timer` that `setTimeout` makes for no delay. -/
def newTimer (i : ℕ) : Timers :=
  { a with
    made := update a.made i true
    callback := update a.callback i true
    started := update a.started i true }

/-- The object that `setTimeout` makes for other delays. -/
def newItem (i : ℕ) (after : Option ℚ) : Timers :=
  { a with
    made := update a.made i true
    idleTimeout := update a.idleTimeout i after
    onTimeout := update a.onTimeout i true
    links := a.links.init (.item i) }

/-- `setTimeout`. A delay that is no number is `none`. -/
def setTimeout (i : ℕ) (after : Option ℚ) : Timers :=
  if after.any (· ≤ 0) then a.newTimer i else (a.newItem i after).active i

/-- `clearTimeout`. An item that is no `Timer` is not started. -/
def clearTimeout (i : ℕ) : Timers :=
  if a.callback i || a.onTimeout i then
    (((a.setCallback i false).setHandler i false).unenroll i).setStarted i false
  else a

/-- One turn of the loop of a callback. -/
def turn (msecs : ℚ) (now : ℤ) : Timers :=
  match a.links.peek (.list msecs) with
  | none => (a.stop msecs).setPhase .idle
  | some (.item first) =>
    let diff : ℤ := now - a.idleStart first
    if (diff : ℚ) + 1 < msecs then (a.again msecs (msecs - diff)).setPhase .idle
    else
      let a := a.setLinks (a.links.remove (.item first))
      if a.onTimeout first then
        { a.setPhase (.handling msecs now) with
          timeouts := a.timeouts ++ [⟨first, msecs, now, a.idleStart first⟩] }
      else a
  | some (.list k) => a.setLinks (a.links.remove (.list k))

/-- The watcher of a `Timer` fires, and is stopped. -/
def expire (i : ℕ) : Timers :=
  let a := a.setStarted i false
  if a.callback i then { a with expired := a.expired ++ [i] } else a

/-! ## Runs -/

inductive TimerEvent where
  /-- The clock advances. -/
  | tick (d : ℕ)
  /-- The program sets `_onTimeout`. -/
  | assign (i : ℕ) (h : Bool)
  | enroll (i : ℕ) (msecs : ℚ)
  | unenroll (i : ℕ)
  | active (i : ℕ)
  | setTimeout (i : ℕ) (after : Option ℚ)
  | clearTimeout (i : ℕ)
  /-- The watcher of a list calls its callback. -/
  | fire (msecs : ℚ)
  /-- The watcher of a `Timer` calls its callback. -/
  | expire (i : ℕ)
  /-- The callback of a list goes on with its loop. -/
  | next
  /-- The handler that is running returns. -/
  | returns
  /-- The handler that is running throws. -/
  | throws
  deriving DecidableEq, Repr

/-- The running code is not the loop of a callback. -/
def Outside : Prop := ∀ msecs now, a.phase ≠ .looping msecs now

instance : Decidable a.Outside :=
  match h : a.phase with
  | .looping msecs now => isFalse fun hout ↦ hout msecs now h
  | .idle | .handling _ _ => isTrue fun _ _ hp ↦ by rw [h] at hp; cases hp

/-- `setTimeout` makes a new item. -/
def Allows : TimerEvent → Prop
  | .tick _ => True
  | .assign _ _ | .enroll _ _ | .unenroll _ | .active _ | .clearTimeout _ => a.Outside
  | .setTimeout i _ => a.Outside ∧ a.made i = false ∧ a.idleTimeout i = none
  | .fire msecs => a.phase = .idle ∧ a.lists msecs = true ∧ (a.watcher msecs).active = true
  | .expire i => a.phase = .idle ∧ a.started i = true
  | .next => ¬a.Outside
  | .returns | .throws => a.Outside ∧ a.phase ≠ .idle

instance : ∀ ev, Decidable (a.Allows ev)
  | .tick _ => inferInstanceAs (Decidable True)
  | .assign _ _ | .enroll _ _ | .unenroll _ | .active _ | .clearTimeout _ =>
    inferInstanceAs (Decidable a.Outside)
  | .setTimeout i _ =>
    inferInstanceAs (Decidable (a.Outside ∧ a.made i = false ∧ a.idleTimeout i = none))
  | .fire msecs => inferInstanceAs (Decidable
      (a.phase = .idle ∧ a.lists msecs = true ∧ (a.watcher msecs).active = true))
  | .expire i => inferInstanceAs (Decidable (a.phase = .idle ∧ a.started i = true))
  | .next => inferInstanceAs (Decidable (¬a.Outside))
  | .returns | .throws => inferInstanceAs (Decidable (a.Outside ∧ a.phase ≠ .idle))

def step : TimerEvent → Timers
  | .tick d => { a with clock := a.clock + d }
  | .assign i h => a.setHandler i h
  | .enroll i msecs => a.enroll i msecs
  | .unenroll i => a.unenroll i
  | .active i => a.active i
  | .setTimeout i after => a.setTimeout i after
  | .clearTimeout i => a.clearTimeout i
  | .fire msecs => a.setPhase (.looping msecs a.clock)
  | .expire i => a.expire i
  | .next =>
    match a.phase with
    | .looping msecs now => a.turn msecs now
    | _ => a
  | .returns =>
    match a.phase with
    | .handling msecs now => a.setPhase (.looping msecs now)
    | _ => a
  | .throws => a.setPhase .idle

/-- No step fails. -/
def machine : Machine Timers TimerEvent Empty := ⟨Allows, fun a ev ↦ .ok (a.step ev)⟩

instance (ev : TimerEvent) : Decidable (machine.guard a ev) :=
  inferInstanceAs (Decidable (a.Allows ev))

end Timers

end SpiderNode
