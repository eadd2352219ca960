import SpiderNode.Handles.Scopes
import SpiderNode.Text.Utf16
import Mathlib.Data.Int.Notation
import Mathlib.Data.List.Basic

/-!
# Exceptions and the scopes that catch them

`TryCatch` and `ApiExceptionBoundary` of `deps/mozjs/js/src/v8api/v8.cpp` form one chain from
`gExnChain` on, the innermost scope first. The engine has a single pending exception. Where the
engine has failed, `CheckForException` stores it in the innermost scope if that is a `TryCatch`; a
boundary leaves it to the engine. When a `TryCatch` is left, the pending exception is cleared, or is
the one it rethrows.

Beside the code, a run carries in which scope each exception was raised, and in each `TryCatch` what
was pending when it was entered and what it has rethrown.

The engine reads the properties of an exception without raising another one.
-/

namespace SpiderNode.Exceptions

open Handles (Fault)

/-- The properties of an exception that is an object. -/
structure Details where
  message : Option JSString
  fileName : Option JSString
  lineNumber : Option ℤ

variable {α : Type*}

/-- An exception, the number of those raised before, and the `TryCatch` that was the innermost scope
then, if any. -/
structure Raised (α : Type*) where
  value : α
  number : ℕ
  scope : Option ℕ

structure TryCatch (α : Type*) where
  mCaptureMessage : Bool
  mRethrown : Bool
  mException : Option (Raised α)
  mFilename : Option JSString
  mLineNo : ℤ
  mMessage : Option JSString

namespace TryCatch

/-- `TryCatch()` -/
def new : TryCatch α := ⟨true, false, none, none, 0, none⟩

/-- `HasCaught` -/
def hasCaught (tc : TryCatch α) : Bool := tc.mException.isSome

/-- The part of `CheckForException` that stores an exception. -/
def store (details : α → Option Details) (x : Raised α) (tc : TryCatch α) : TryCatch α :=
  let tc := { tc with mException := some x }
  match details x.value with
  | some d =>
    if tc.mCaptureMessage then
      { tc with
        mMessage := d.message.or tc.mMessage
        mFilename := d.fileName.or tc.mFilename
        mLineNo := d.lineNumber.getD tc.mLineNo }
    else tc
  | none => tc

variable {details : α → Option Details} {x : Raised α} {tc : TryCatch α}

@[simp] theorem mException_store : (tc.store details x).mException = some x := by
  unfold store
  split
  · dsimp only
    split_ifs <;> rfl
  · rfl

@[simp] theorem mRethrown_store : (tc.store details x).mRethrown = tc.mRethrown := by
  unfold store
  split
  · dsimp only
    split_ifs <;> rfl
  · rfl

end TryCatch

/-- A `TryCatch` in a run. -/
structure Catcher (α : Type*) extends TryCatch α where
  /-- The number of those entered before. -/
  number : ℕ
  /-- The number of the next one outside of it. -/
  outer : Option ℕ
  /-- The number of exceptions raised before it was entered. -/
  raisedBefore : ℕ
  /-- What was pending when it was entered. -/
  atEntry : Option (Raised α)
  /-- What it had caught when `ReThrow` was called. -/
  atReThrow : Option (Raised α)

/-- What it has caught is going to be rethrown. -/
def Catcher.rethrow (c : Catcher α) : Catcher α :=
  { c with mRethrown := true, atReThrow := c.mException }

/-- `ExceptionHandlerChain` -/
inductive Link (α : Type*) where
  | catcher (c : Catcher α)
  | boundary

namespace Link

def catcher? : Link α → Option (Catcher α)
  | .catcher c => some c
  | .boundary => none

def map (f : Catcher α → Catcher α) : Link α → Link α
  | .catcher c => .catcher (f c)
  | .boundary => .boundary

end Link

structure Handlers (α : Type*) where
  /-- From `gExnChain` on. -/
  chain : List (Link α)
  /-- The exception that is pending in the engine. -/
  pending : Option (Raised α)
  /-- How many `TryCatch` have been entered. -/
  entered : ℕ
  /-- All exceptions raised so far. -/
  raised : List (Raised α)
  /-- Those that have been rethrown, and to which `TryCatch`. -/
  rethrown : List (Raised α × Option ℕ)

namespace Handlers

def init : Handlers α := ⟨[], none, 0, [], []⟩

/-- The `TryCatch` scopes, the innermost first. -/
def catchers (s : Handlers α) : List (Catcher α) := s.chain.filterMap Link.catcher?

/-- The innermost scope, if it is a `TryCatch`. -/
def innermost (s : Handlers α) : Option (Catcher α) := s.chain.head?.bind Link.catcher?

/-! ## The operations -/

variable (details : α → Option Details)

/-- `CheckForException` -/
def checkForException (s : Handlers α) : Except Fault (Handlers α) :=
  match s.pending with
  | none => .ok s
  | some x =>
    match s.chain with
    | [] => .error .assertion
    | .boundary :: _ => .ok s
    | .catcher c :: rest =>
      .ok { s with chain := .catcher { c with toTryCatch := c.store details x } :: rest }

/-- An exception becomes pending: `JS_SetPendingException`. -/
def raise (v : α) (s : Handlers α) : Handlers α :=
  let x : Raised α := ⟨v, s.raised.length, s.innermost.map Catcher.number⟩
  { s with pending := some x, raised := x :: s.raised }

/-- `ThrowException` -/
def throwException (v : α) (s : Handlers α) : Handlers α := s.raise v

/-- A call of the engine fails, with an exception of its own or with what is pending, and
`CheckForException` is called. -/
def fail (v : Option α) (s : Handlers α) : Except Fault (Handlers α) :=
  match v with
  | some v => (s.raise v).checkForException details
  | none => s.checkForException details

/-- `TryCatch()` -/
def enterTry (s : Handlers α) : Handlers α :=
  { s with
    chain := .catcher ⟨.new, s.entered, s.catchers.head?.map Catcher.number, s.raised.length,
      s.pending, none⟩ :: s.chain
    entered := s.entered + 1 }

def modify (n : ℕ) (f : Catcher α → Catcher α) (s : Handlers α) : Handlers α :=
  { s with chain := s.chain.map (Link.map fun c ↦ if c.number = n then f c else c) }

/-- `ReThrow`, called of the `TryCatch` with a number. -/
def reThrow (n : ℕ) (s : Handlers α) : Except Fault (Handlers α) :=
  match s.catchers.find? (·.number = n) with
  | none => .error .nullPointer
  | some c =>
    match c.mException with
    | none => .ok s
    | some x =>
      if c.mRethrown then .error .assertion
      else .ok { s.modify n Catcher.rethrow with rethrown := (x, c.outer) :: s.rethrown }

/-- `SetCaptureMessage` -/
def setCaptureMessage (n : ℕ) (value : Bool) (s : Handlers α) : Handlers α :=
  s.modify n fun c ↦ { c with mCaptureMessage := value }

/-- `~TryCatch`. Only the last line of `Reset` outlives it. -/
def leaveTry (s : Handlers α) : Except Fault (Handlers α) :=
  match s.chain with
  | .catcher c :: rest =>
    let s := { s with chain := rest }
    if c.mRethrown then
      match c.mException with
      | some x => { s with pending := some x }.checkForException details
      | none => .error .nullPointer
    else .ok { s with pending := none }
  | _ => .error .assertion

/-- `ApiExceptionBoundary()` -/
def enterBoundary (s : Handlers α) : Handlers α := { s with chain := .boundary :: s.chain }

/-- `~ApiExceptionBoundary` -/
def leaveBoundary (s : Handlers α) : Except Fault (Handlers α) :=
  match s.chain with
  | .boundary :: rest => .ok { s with chain := rest }
  | _ => .error .assertion

variable {details} {s t : Handlers α}

/-! ## The scopes after an operation -/

theorem catchers_modify (n : ℕ) (f : Catcher α → Catcher α) (s : Handlers α) :
    (s.modify n f).catchers = s.catchers.map fun c ↦ if c.number = n then f c else c := by
  rw [catchers, catchers, modify, List.filterMap_map, List.map_filterMap]
  congr 1
  funext l
  cases l <;> rfl

@[simp] theorem catchers_enterBoundary : s.enterBoundary.catchers = s.catchers := rfl

/-- A `TryCatch` that is the innermost scope is the innermost `TryCatch`. -/
theorem catchers_of_innermost {c : Catcher α} (h : s.innermost = some c) :
    ∃ rest, s.chain = .catcher c :: rest ∧ s.catchers = c :: rest.filterMap Link.catcher? := by
  rw [innermost] at h
  rcases hchain : s.chain with _ | ⟨_ | _, rest⟩
  · rw [hchain] at h
    cases h
  · rw [hchain] at h
    obtain rfl := Option.some.inj h
    exact ⟨rest, rfl, by rw [catchers, hchain]; rfl⟩
  · rw [hchain] at h
    cases h

theorem mem_catchers_of_innermost {c : Catcher α} (h : s.innermost = some c) : c ∈ s.catchers := by
  obtain ⟨rest, -, hcatchers⟩ := catchers_of_innermost h
  rw [hcatchers]
  exact List.mem_cons_self

/-- What `CheckForException` does: nothing, unless an exception is pending and the innermost scope
is a `TryCatch`, which stores it. -/
theorem checkForException_cases (h : s.checkForException details = .ok t) :
    (t = s ∧ (s.pending = none ∨ s.innermost = none)) ∨
      ∃ x c rest, s.pending = some x ∧ s.chain = .catcher c :: rest ∧
        t = { s with chain := .catcher { c with toTryCatch := c.store details x } :: rest } := by
  unfold checkForException at h
  split at h
  · rename_i hnone
    exact .inl ⟨(Except.ok.inj h).symm, .inl hnone⟩
  · rename_i x hx
    split at h
    · cases h
    · rename_i rest hchain
      exact .inl ⟨(Except.ok.inj h).symm, .inr (by rw [innermost, hchain]; rfl)⟩
    · rename_i c rest hchain
      exact .inr ⟨x, c, rest, hx, hchain, (Except.ok.inj h).symm⟩

/-- What leaving a `TryCatch` does. -/
theorem leaveTry_cases (h : s.leaveTry details = .ok t) :
    ∃ c rest, s.chain = .catcher c :: rest ∧
      (c.mRethrown = false ∧ t = { s with chain := rest, pending := none } ∨
        c.mRethrown = true ∧ ∃ x, c.mException = some x ∧
          checkForException details { s with chain := rest, pending := some x } = .ok t) := by
  unfold leaveTry at h
  split at h
  · rename_i c rest hchain
    refine ⟨c, rest, hchain, ?_⟩
    cases hr : c.mRethrown with
    | false =>
      simp only [hr, Bool.false_eq_true, if_false] at h
      exact .inl ⟨rfl, (Except.ok.inj h).symm⟩
    | true =>
      simp only [hr, if_true] at h
      split at h
      · rename_i x hx
        exact .inr ⟨rfl, x, hx, h⟩
      · cases h
  · cases h

theorem leaveBoundary_eq (h : s.leaveBoundary = .ok t) :
    ∃ rest, s.chain = .boundary :: rest ∧ t = { s with chain := rest } := by
  unfold leaveBoundary at h
  split at h
  · rename_i rest hchain
    exact ⟨rest, hchain, (Except.ok.inj h).symm⟩
  · cases h

/-- What `ReThrow` does. -/
theorem reThrow_cases {n : ℕ} (h : s.reThrow n = .ok t) :
    t = s ∨ ∃ c x, c ∈ s.catchers ∧ c.number = n ∧ c.mException = some x ∧
      t = { s.modify n Catcher.rethrow with rethrown := (x, c.outer) :: s.rethrown } := by
  unfold reThrow at h
  split at h
  · cases h
  · rename_i c hc
    split at h
    · exact .inl (Except.ok.inj h).symm
    · rename_i x hx
      split_ifs at h
      refine .inr ⟨c, x, List.mem_of_find?_eq_some hc, ?_, hx, (Except.ok.inj h).symm⟩
      simpa using List.find?_some hc

end Handlers

end SpiderNode.Exceptions
