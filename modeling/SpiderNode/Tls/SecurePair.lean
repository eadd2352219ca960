import SpiderNode.Machine.Runs
import SpiderNode.Buffer.Views
import Mathlib.Data.Int.Notation
import Mathlib.Logic.Function.Basic

/-!
# `SecurePair`

A `SecurePair` of `lib/tls.js` has two streams, `cleartext` and `encrypted`, with a connection of
OpenSSL between them. What is written to a stream waits in `_pending` until `_pull` gets the
connection to accept it, and `_push` emits what the connection has for the stream. `_cycle` does
this for both of them in four stages, each under a lock.

The stages emit events and call callbacks, and the program that runs then may call the pair again;
so there can be many calls of `_cycle` at the same time. Here they are frames of a stack, with the
place each of them has come to. When the frame on top is at a place where listeners or a callback
run, the program has its turn: it calls a method, returns, or throws. Otherwise `_cycle` goes on,
with the answers of OpenSSL from the event.

The two methods that handle cleartext make a text of it for `debug`, whether or not that writes it.
Bytes that are not UTF-8 have no text, and `toString` throws.

A call in tail position takes the place of its caller. `setEncoding` is left out, and the listeners
of `_destroy`, which run in a later tick. No stream of a pair has `__destroyOnDrain`.
-/

namespace SpiderNode.Tls

open Function (update)
open Net (JsError)

inductive Side where
  | encrypted
  | cleartext
  deriving DecidableEq, Repr

/-- The stages of `_cycle`, each with its lock. -/
inductive Stage where
  | encryptedPull
  | cleartextPull
  | cleartextPush
  | encryptedPush
  deriving DecidableEq, Repr

namespace Side

def pull : Side → Stage
  | encrypted => .encryptedPull
  | cleartext => .cleartextPull

def push : Side → Stage
  | encrypted => .encryptedPush
  | cleartext => .cleartextPush

end Side

/-- What `write` is given: a string, with what `new Buffer` makes of it, or a buffer, with what the
memory holds. -/
inductive Data where
  | string (made : Except JsError Bytes)
  | buffer (v : Buffer.View) (m : Buffer.Memory)

namespace Data

/-- `data.toString()` returns. -/
def hasText : Data → Bool
  | string _ => true
  | buffer v m => (v.toString m .utf8 0 v.length).isOk

/-- The bytes of `data` once it is a buffer. -/
def toBuffer : Data → Except JsError Bytes
  | string made => made
  | buffer v m => .ok (m.read v.buffer v.start v.length)

/-- A new buffer of these bytes. -/
def ofBytes (b : Bytes) : Data := .buffer ⟨0, 0, b.length, b.length, 0⟩ fun _ i ↦ b.getD i 0

end Data

/-- An element of `_pending`. -/
inductive Entry where
  | data (b : Bytes)
  /-- `END_OF_FILE` -/
  | eof
  deriving DecidableEq, Repr

/-- What `_ssl.error` can be. -/
inductive SslError where
  /-- The message has `peer did not return a certificate`. -/
  | noCertificate
  | other
  deriving DecidableEq, Repr

/-- A place in `_pull`. -/
inductive PullAt (κ : Type*) where
  /-- It is about to test the condition of its loop. -/
  | loop
  /-- The listeners of `'secure'` run, behind `_puller`. -/
  | secure (tmp : Bytes) (cb : Option κ) (rv : ℤ)
  /-- Behind `_maybeInitFinished`. -/
  | answered (tmp : Bytes) (cb : Option κ) (rv : ℤ)
  /-- The callback runs; `whole` is what is asserted then. -/
  | callback (whole : Bool)
  /-- It has called `_cycle` for `END_OF_FILE`. -/
  | closing
  /-- The listeners of `'drain'` run. -/
  | drain
  /-- The listeners of `'error'` run. -/
  | error
  deriving DecidableEq, Repr

/-- A place in `_push`. -/
inductive PushAt where
  | start
  /-- It is about to test the condition of its loop. -/
  | loop
  /-- It is about to call `_pusher`; `chunk` is what was read. -/
  | read (chunk : Bytes)
  /-- The listeners of `'secure'` run, behind `_pusher`. -/
  | secure (chunk : Bytes) (chunkBytes : ℤ)
  /-- Behind `_maybeInitFinished`. -/
  | counted (chunk : Bytes) (chunkBytes : ℤ)
  /-- The listeners of `'data'` run, and `ondata`. -/
  | data
  /-- The listeners of `'error'` run. -/
  | error
  deriving DecidableEq, Repr

/-- A place in `_cycle`, and in the stage that runs. -/
inductive Place (κ : Type*) where
  | before (k : Stage)
  | pull (x : Side) (havePending : Bool) (p : PullAt κ)
  | push (x : Side) (p : PushAt)
  /-- Behind the stages. -/
  | tail
  deriving DecidableEq, Repr

/-- The place behind a stage. -/
def Stage.after {κ : Type*} : Stage → Place κ
  | encryptedPull => .before .cleartextPull
  | cleartextPull => .before .cleartextPush
  | cleartextPush => .before .encryptedPush
  | encryptedPush => .tail

namespace Place

variable {κ : Type*}

/-- The stage that runs. -/
def stage : Place κ → Option Stage
  | pull x _ _ => some x.pull
  | push x _ => some x.push
  | before _ | tail => none

/-- The program has its turn. -/
def running : Place κ → Bool
  | pull _ _ (.secure ..) | pull _ _ (.callback _) | pull _ _ .drain | pull _ _ .error => true
  | push _ (.secure ..) | push _ .data | push _ .error => true
  | _ => false

end Place

/-- A call that has not returned. -/
inductive Frame (κ : Type*) where
  /-- `_cycle`, with its variables. -/
  | cycle (depth : ℕ) (established : Bool) (p : Place κ)
  /-- `end`, which has called `write`. -/
  | «end» (x : Side)
  deriving DecidableEq, Repr

namespace Frame

variable {κ : Type*}

def stage : Frame κ → Option Stage
  | cycle _ _ p => p.stage
  | «end» _ => none

def running : Frame κ → Bool
  | cycle _ _ p => p.running
  | «end» _ => false

def isCycle : Frame κ → Bool
  | cycle .. => true
  | «end» _ => false

end Frame

/-- A `CryptoStream`, for callbacks in `κ`, and what has become of the writes. -/
structure CryptoStream (κ : Type*) where
  readable : Bool
  writable : Bool
  writeState : Bool
  pending : List Entry
  pendingCallbacks : List (Option κ)
  doneFlag : Bool
  destroyAfterPush : Bool
  /-- All calls of `write`, while the stream is writable. -/
  written : List (Bytes × Option κ)
  /-- The writes that the connection has accepted. -/
  accepted : List (Bytes × Option κ)
  /-- The calls of callbacks. -/
  called : List κ
  /-- Whether the connection has accepted the last buffer that it was offered, since the program has
  called the pair. -/
  attempt : Option Bool

structure SecurePair (κ : Type*) where
  isServer : Bool
  rejectUnauthorized : Bool
  /-- `_ssl` with its `error`, or `none` if it is `null`. -/
  ssl : Option (Option SslError)
  secureEstablished : Bool
  done : Bool
  writeCalled : Bool
  lock : Stage → Bool
  stream : Side → CryptoStream κ
  /-- The callback of `nextTick` in the constructor has run. -/
  started : Bool
  stack : List (Frame κ)
  /-- A method of `null` was called, which is a `TypeError`. -/
  fault : Bool
  /-- The stages that an exception has left. -/
  escaped : List Stage

/-- The answers of OpenSSL in a step. -/
structure Answer where
  /-- What `clearIn`, `encIn`, `clearOut` or `encOut` returns. -/
  rv : ℤ
  /-- What it assigns to `_ssl.error`. -/
  error : Option SslError
  initFinished : Bool
  /-- What `clearPending` or `encPending` returns. -/
  pendingBytes : ℕ
  /-- The bytes that `clearOut` or `encOut` stores. -/
  out : ℕ → UInt8

/-- An answer that is only a number. -/
def Answer.number (rv : ℤ) : Answer := ⟨rv, none, false, 0, fun _ ↦ 0⟩

namespace SecurePair

variable {κ : Type*}

def newStream : CryptoStream κ := ⟨true, true, true, [], [], false, false, [], [], [], none⟩

/-- The constructor. -/
def create (isServer rejectUnauthorized : Bool) : SecurePair κ where
  isServer := isServer
  rejectUnauthorized := rejectUnauthorized
  ssl := some none
  secureEstablished := false
  done := false
  writeCalled := false
  lock _ := false
  stream _ := newStream
  started := false
  stack := []
  fault := false
  escaped := []

variable (s : SecurePair κ)

def setStream (x : Side) (f : CryptoStream κ → CryptoStream κ) : SecurePair κ :=
  { s with stream := update s.stream x (f (s.stream x)) }

/-- An exception goes up to the program, which may catch it. -/
def unwind : SecurePair κ :=
  { s with
    stack := s.stack.dropWhile (!·.running)
    escaped := (s.stack.takeWhile (!·.running)).filterMap Frame.stage ++ s.escaped }

/-- A use of `_ssl` that does not look whether it is `null`. -/
def withSsl (f : Option SslError → SecurePair κ) : SecurePair κ :=
  match s.ssl with
  | some e => f e
  | none => unwind { s with fault := true }

/-- `_cycle` up to its first stage. -/
def cycle (depth : ℕ) : SecurePair κ :=
  if s.done then s
  else
    { s with
      writeCalled := if depth = 0 then false else s.writeCalled
      stack := .cycle depth s.secureEstablished (.before .encryptedPull) :: s.stack }

/-- `_destroy`, with what comes behind it. Its call of `_cycle` returns at once. -/
def destroy (next : SecurePair κ → SecurePair κ) : SecurePair κ :=
  if s.done then next s
  else s.withSsl fun _ ↦ next
    { s with
      done := true
      ssl := none
      stream := fun x ↦ { s.stream x with writable := false, readable := false } }

/-- `_done` of a stream, with what comes behind it. -/
def setDone (x : Side) (next : SecurePair κ → SecurePair κ) : SecurePair κ :=
  let s := s.setStream x fun c ↦ { c with doneFlag := true }
  if (s.stream .cleartext).doneFlag ∧ (s.stream .encrypted).doneFlag ∧ s.done = false then
    s.destroy next
  else next s

/-! ### Inside of `_cycle`

The frame on top is at a place of the call with these variables, and `below` are the other ones. -/

variable (depth : ℕ) (established : Bool) (below : List (Frame κ))

def goto (p : Place κ) : SecurePair κ := { s with stack := .cycle depth established p :: below }

/-- A stage returns. -/
def leave (k : Stage) : SecurePair κ :=
  { s with
    lock := update s.lock k false
    stack := .cycle depth established k.after :: below }

/-- `_error`, which is called in a stage, and the `return` behind it. -/
def error (k : Stage) (p : Place κ) : SecurePair κ :=
  if s.secureEstablished = false then s.destroy fun s ↦ s.leave depth established below k
  else s.withSsl fun e ↦
    let s := { s with ssl := some none }
    if s.isServer ∧ s.rejectUnauthorized ∧ e = some .noCertificate then
      s.destroy fun s ↦ s.leave depth established below k
    else s.goto depth established below p

/-- `_maybeInitFinished`, and on to the place behind it. -/
def maybeInitFinished (a : Answer) (secure next : Place κ) : SecurePair κ :=
  if s.ssl ≠ none ∧ s.secureEstablished = false ∧ a.initFinished then
    goto { s with secureEstablished := true } depth established below secure
  else s.goto depth established below next

/-- What follows the answer of `_puller` or `_pusher`: `_error` or `_maybeInitFinished`. -/
def settle (a : Answer) (k : Stage) (error secure next : Place κ) : SecurePair κ :=
  match s.ssl with
  | some (some _) => s.error depth established below k error
  | _ => s.maybeInitFinished depth established below a secure next

/-- The answer of the connection, which may have an error. -/
def answer (a : Answer) : SecurePair κ := { s with ssl := s.ssl.map fun e ↦ a.error <|> e }

/-- `_pull` takes the first element of `_pending`. -/
def shift (x : Side) : SecurePair κ :=
  s.setStream x fun c ↦
    { c with pending := c.pending.tail, pendingCallbacks := c.pendingCallbacks.tail }

/-- The branch of `_pull` for `END_OF_FILE`. -/
def pullEof (x : Side) (havePending : Bool) : SecurePair κ :=
  let closing (s : SecurePair κ) := s.goto depth established below (.pull x havePending .closing)
  match x with
  | .encrypted =>
    (closing (s.setStream .cleartext fun c ↦ { c with destroyAfterPush := true })).cycle 0
  | .cleartext => s.withSsl fun _ ↦
    (closing (s.setStream .encrypted fun c ↦ { c with destroyAfterPush := true })).cycle 0

/-- `_puller` returns. -/
def offer (a : Answer) (x : Side) (b : Bytes) (cb : Option κ) : SecurePair κ :=
  (s.answer a).setStream x fun c ↦
    { c with
      accepted := c.accepted ++ if 0 < a.rv then [(b, cb)] else []
      attempt := some (decide (0 < a.rv)) }

/-- The branch of `_pull` for a buffer, up to the answer of `_puller`. -/
def pullData (a : Answer) (x : Side) (havePending : Bool) (b : Bytes) (cb : Option κ) :
    SecurePair κ :=
  if b = [] then s.goto depth established below (.pull x havePending .loop)
  else s.withSsl fun _ ↦
    (s.offer a x b cb).settle depth established below a x.pull (.pull x havePending .error)
      (.pull x havePending (.secure b cb a.rv)) (.pull x havePending (.answered b cb a.rv))

/-- The loop of `_pull`, up to the answer of `_puller`. -/
def pullLoop (a : Answer) (x : Side) (havePending : Bool) : SecurePair κ :=
  match (s.stream x).pending with
  | [] =>
    if havePending then s.goto depth established below (.pull x havePending .drain)
    else s.leave depth established below x.pull
  | tmp :: _ =>
    if s.ssl = none then s.leave depth established below x.pull
    else
      let cb := (s.stream x).pendingCallbacks.head?.join
      let s := s.shift x
      if (s.stream x).pending.length ≠ (s.stream x).pendingCallbacks.length then s.unwind
      else match tmp with
      | .eof => s.pullEof depth established below x havePending
      | .data b => s.pullData depth established below a x havePending b cb

/-- `_pull` puts back what was not accepted. -/
def unshift (x : Side) (tmp : Bytes) (cb : Option κ) : SecurePair κ :=
  s.setStream x fun c ↦
    { c with pending := .data tmp :: c.pending, pendingCallbacks := cb :: c.pendingCallbacks }

/-- `_pull` behind `_maybeInitFinished`. -/
def pullAnswered (x : Side) (havePending : Bool) (tmp : Bytes) (cb : Option κ) (rv : ℤ) :
    SecurePair κ :=
  if rv ≤ 0 then (s.unshift x tmp cb).leave depth established below x.pull
  else match cb with
  | some f =>
    (s.setStream x fun c ↦ { c with called := c.called ++ [f] }).goto depth established below
      (.pull x havePending (.callback (rv = tmp.length)))
  | none =>
    if rv = tmp.length then s.goto depth established below (.pull x havePending .loop)
    else s.unwind

/-- What was read behind the answer of `_pusher`. -/
def addChunk (chunk : Bytes) (chunkBytes : ℤ) (out : ℕ → UInt8) : Bytes :=
  if 0 ≤ chunkBytes then chunk ++ (List.range chunkBytes.toNat).map out else chunk

/-- The branch of `_push` for no bytes. `_pendingBytes` is 0 if there is no connection. -/
def pushNothing (a : Answer) (x : Side) : SecurePair κ :=
  if (s.ssl = none ∨ a.pendingBytes = 0) ∧ (s.stream x).destroyAfterPush then
    s.setDone x fun s ↦ s.leave depth established below x.push
  else s.leave depth established below x.push

/-- `_push` behind `_maybeInitFinished`. The chunk is a slice that begins where the new `pool`
does. -/
def pushCounted (a : Answer) (x : Side) (chunk : Bytes) (chunkBytes : ℤ) : SecurePair κ :=
  if 0 < chunkBytes ∧ chunk.length < 4096 then
    s.goto depth established below (.push x (.read chunk))
  else if chunk = [] then s.pushNothing depth established below a x
  else if x = .cleartext ∧ (Data.ofBytes chunk).hasText = false then s.unwind
  else s.goto depth established below (.push x .data)

/-- `_cycle` behind its stages. -/
def cycleTail : SecurePair κ :=
  let s := { s with stack := below }
  if s.done then s
  else if established = false ∧ s.secureEstablished ∨ depth = 0 ∧ s.writeCalled then
    s.cycle (depth + 1)
  else s

/-- The place where a stage begins. -/
def entrance : Stage → Place κ
  | .encryptedPull => .pull .encrypted (s.stream .encrypted).pending.isEmpty.not .loop
  | .cleartextPull => .pull .cleartext (s.stream .cleartext).pending.isEmpty.not .loop
  | .cleartextPush => .push .cleartext .start
  | .encryptedPush => .push .encrypted .start

/-- `_cycle` goes on from a place where the program does not have its turn. -/
def goOn (a : Answer) : Place κ → SecurePair κ
  | .before k =>
    if s.lock k then s.goto depth established below k.after
    else goto { s with lock := update s.lock k true } depth established below (s.entrance k)
  | .pull x havePending .loop => s.pullLoop depth established below a x havePending
  | .pull x havePending (.answered tmp cb rv) =>
    s.pullAnswered depth established below x havePending tmp cb rv
  | .pull x _ .closing => s.setDone x fun s ↦ s.leave depth established below x.pull
  | .push x .start =>
    if x = .encrypted ∧ (s.stream x).writable = false then s.leave depth established below x.push
    else s.goto depth established below (.push x .loop)
  | .push x .loop =>
    if (s.stream x).writeState then s.goto depth established below (.push x (.read []))
    else s.leave depth established below x.push
  | .push x (.read chunk) =>
    -- `_pusher` looks whether there is a connection.
    let chunkBytes := if s.ssl = none then -1 else a.rv
    let chunk := addChunk chunk chunkBytes a.out
    (s.answer a).settle depth established below a x.push (.push x .error)
      (.push x (.secure chunk chunkBytes)) (.push x (.counted chunk chunkBytes))
  | .push x (.counted chunk chunkBytes) =>
    s.pushCounted depth established below a x chunk chunkBytes
  | .tail => s.cycleTail depth established below
  | _ => s

/-- The listeners or the callback return. -/
def behind : Place κ → SecurePair κ
  | .pull x havePending (.secure tmp cb rv) =>
    s.goto depth established below (.pull x havePending (.answered tmp cb rv))
  | .pull x havePending (.callback whole) =>
    if whole then s.goto depth established below (.pull x havePending .loop)
    -- `assert(rv === tmp.length)`
    else (s.goto depth established below (.pull x havePending .loop)).unwind
  | .pull x _ .drain | .pull x _ .error => s.leave depth established below x.pull
  | .push x (.secure chunk chunkBytes) =>
    s.goto depth established below (.push x (.counted chunk chunkBytes))
  | .push x .data => s.goto depth established below (.push x .loop)
  | .push x .error => s.leave depth established below x.push
  | _ => s

/-! ### The methods -/

/-- The attempts are those since the program has called the pair. -/
def fresh : SecurePair κ :=
  if s.stack = [] then { s with stream := fun x ↦ { s.stream x with attempt := none } } else s

/-- `write` puts the data into `_pending`. -/
def enqueue (x : Side) (data : Bytes) (cb : Option κ) : SecurePair κ :=
  setStream { s with writeCalled := true } x fun c ↦
    { c with
      pending := c.pending ++ [.data data]
      pendingCallbacks := c.pendingCallbacks ++ [cb]
      written := c.written ++ [(data, cb)] }

/-- A call of `write` that throws before it puts the data into `_pending`. -/
def lose (x : Side) (data : Data) (cb : Option κ) : SecurePair κ :=
  match data.toBuffer with
  | .ok b =>
    if (s.stream x).writable then
      unwind (s.setStream x fun c ↦ { c with written := c.written ++ [(b, cb)] })
    else s.unwind
  | .error _ => s.unwind

/-- `write`, which throws if there is no text of cleartext, or no buffer of a string, or if the
stream is not writable. -/
def write (x : Side) (data : Data) (cb : Option κ) : SecurePair κ :=
  if x = .cleartext ∧ data.hasText = false then s.lose x data cb
  else if (s.stream x).writable = false then s.unwind
  else match data.toBuffer with
  | .ok b => (s.fresh.enqueue x b cb).cycle 0
  | .error _ => s.unwind

/-- `end` behind the call of `write`. -/
def finish (x : Side) : SecurePair κ :=
  (s.setStream x fun c ↦
    { c with
      pending := c.pending ++ [.eof]
      pendingCallbacks := c.pendingCallbacks ++ [none]
      writable := false }).cycle 0

/-- `end` -/
def «end» (x : Side) (data : Option Data) : SecurePair κ :=
  if (s.stream x).writable = false ∨ s.done then s
  else match data with
  | some d => write { s with stack := .end x :: s.stack } x d none
  | none => s.finish x

def pause (x : Side) : SecurePair κ := s.setStream x fun c ↦ { c with writeState := false }

def resume (x : Side) : SecurePair κ :=
  (s.setStream x fun c ↦ { c with writeState := true }).cycle 0

/-- The callback of `nextTick` in the constructor. -/
def start (a : Answer) : SecurePair κ :=
  withSsl { s with started := true } fun _ ↦ (answer { s with started := true } a).cycle 0

/-- A listener or a callback throws. -/
def throws : SecurePair κ :=
  match s.stack with
  | f :: below => unwind { s with stack := below, escaped := f.stage.toList ++ s.escaped }
  | [] => s

inductive Event (κ : Type*) where
  | write (x : Side) (data : Data) (cb : Option κ)
  | «end» (x : Side) (data : Option Data)
  | destroy
  | pause (x : Side)
  | resume (x : Side)
  | start (a : Answer)
  | returns
  | throws
  | go (a : Answer)

/-- The program has its turn. -/
def Free : Prop := ∀ f ∈ s.stack.head?, f.running = true

def Allows : Event κ → Prop
  | .write .. | .end .. | .destroy | .pause _ | .resume _ => s.Free
  | .start _ => s.stack = [] ∧ s.started = false
  | .returns | .throws => s.Free ∧ s.stack ≠ []
  | .go _ => ¬s.Free

instance : Decidable s.Free :=
  inferInstanceAs (Decidable (∀ f ∈ s.stack.head?, f.running = true))

instance : DecidablePred s.Allows
  | .write .. | .end .. | .destroy | .pause _ | .resume _ => inferInstanceAs (Decidable s.Free)
  | .start _ => decidable_of_iff (s.stack.isEmpty = true ∧ s.started = false)
    (and_congr_left' List.isEmpty_iff)
  | .returns | .throws => decidable_of_iff (s.Free ∧ s.stack.isEmpty = false)
    (and_congr_right' List.isEmpty_eq_false_iff)
  | .go _ => inferInstanceAs (Decidable (¬s.Free))

def step : Event κ → SecurePair κ
  | .write x data cb => s.write x data cb
  | .end x data => s.fresh.end x data
  | .destroy => s.destroy id
  | .pause x => s.pause x
  | .resume x => s.fresh.resume x
  | .start a => s.fresh.start a
  | .returns =>
    match s.stack with
    | .cycle depth established p :: below => s.behind depth established below p
    | _ => s
  | .throws => s.throws
  | .go a =>
    match s.stack with
    | .cycle depth established p :: below => s.goOn depth established below a p
    | .end x :: below => finish { s with stack := below } x
    | [] => s

def machine (κ : Type*) : Machine (SecurePair κ) (Event κ) Empty :=
  ⟨Allows, fun s ev ↦ .ok (s.step ev)⟩

instance (s : SecurePair κ) (ev : Event κ) : Decidable ((machine κ).guard s ev) :=
  inferInstanceAs (Decidable (s.Allows ev))

end SecurePair

end SpiderNode.Tls
