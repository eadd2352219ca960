import SpiderNode.Machine.Runs
import Mathlib.Data.List.Nodup
import Mathlib.Data.List.Range
import Mathlib.Data.Prod.Basic
import Mathlib.Logic.Function.Basic

/-!
# The agent

An `Agent` of `lib/http.js` keeps requests for one host in a queue, and hands them to at most
`maxSockets` connections. The same request is tracked in three places: its `_queue`, its
`connection`, and the `_httpMessage` of a socket.

The handlers of the agent call user code and each other: `_cycle` calls itself and
`_establishNewConnection`, which calls `_cycle` again, and each `emit` and each `_flush` may run
listeners that append or abort requests. So a handler is cut where it calls out. What is left of it
is a `Task` on a stack, and `resume` goes on with the task on top. Events of the sockets come from
the event loop, when the stack is empty; calls of the user come at any time.

Each `assert` of the source is a `Failure` of its own.
-/

namespace SpiderNode.Http

open Function (update)

/-- The assertions of the agent and its requests. -/
inductive Failure where
  /-- `assert(!this.connection)` in `abort` -/
  | abortConnection
  /-- `assert(!socket._httpMessage)` in `assignSocket` -/
  | assignMessage
  /-- `assert(socket._httpMessage == this)` in `detachSocket` -/
  | detachMessage
  /-- `assert(!socket.writable)` when a response ends -/
  | endWritable
  /-- `assert(!socket._httpMessage)` when a response ends -/
  | endMessage
  /-- `assert(first._queue === this.queue)`, in `_cycle` or when a socket fails -/
  | queueOwner
  /-- `assert(this.sockets.length < this.maxSockets)` in `_establishNewConnection` -/
  | establishCount
  /-- `assert(socket._httpMessage)` in `_establishNewConnection` -/
  | establishMessage
  /-- `assert(0)` when a socket fails -/
  | noRequest
  deriving DecidableEq, Repr

/-- An assertion of `abort`, `detachSocket` or the `'end'` listener of a response. -/
def Failure.isTracking : Failure → Bool
  | abortConnection | detachMessage | endWritable | endMessage => true
  | _ => false

/-- A `ClientRequest`, as far as the agent is concerned. -/
structure ClientRequest where
  /-- `_queue` is set. -/
  queued : Bool
  connection : Option ℕ
  /-- `_hadError` -/
  hadError : Bool
  /-- `res` is set. -/
  res : Bool
  deriving DecidableEq, Repr

/-- A socket, with the listener on its response. -/
structure AgentSocket where
  /-- `_httpMessage` -/
  httpMessage : Option ℕ
  /-- `_httpConnecting` -/
  httpConnecting : Bool
  writable : Bool
  readable : Bool
  /-- The request whose response is coming in, with its `'end'` listener. -/
  incoming : Option ℕ
  deriving DecidableEq, Repr

/-- What is left to do of a handler. -/
inductive Task where
  /-- A call of `_cycle`. -/
  | cycle
  /-- `_establishNewConnection` behind its call of `_cycle`. -/
  | established (s : ℕ)
  /-- The `'error'` listener of a socket, behind `req.emit('error', err)`. -/
  | failed (s r : ℕ)
  /-- The `'close'` listener of a socket, behind what it emits. -/
  | closed (s : ℕ)
  deriving DecidableEq, Repr

/-- An agent with all requests and sockets there ever were. -/
structure Agent where
  maxSockets : ℕ
  queue : List ℕ
  sockets : List ℕ
  request : ℕ → ClientRequest
  socket : ℕ → AgentSocket
  /-- The number of requests that were appended. -/
  requests : ℕ
  /-- The number of sockets that were made. -/
  created : ℕ
  stack : List Task
  /-- The requests that were given a socket, in that order. -/
  assigned : List ℕ
  /-- The requests that emitted `'error'`, in that order. -/
  errors : List ℕ

namespace Agent

def init (maxSockets : ℕ) : Agent where
  maxSockets := maxSockets
  queue := []
  sockets := []
  request _ := ⟨false, none, false, false⟩
  socket _ := ⟨none, false, false, false, none⟩
  requests := 0
  created := 0
  stack := []
  assigned := []
  errors := []

/-! ## Records -/

variable (a : Agent)

def setRequest (r : ℕ) (q : ClientRequest) : Agent := { a with request := update a.request r q }

def setSocket (s : ℕ) (k : AgentSocket) : Agent := { a with socket := update a.socket s k }

def push (t : Task) : Agent := { a with stack := t :: a.stack }

def setQueue (q : List ℕ) : Agent := { a with queue := q }

def setStack (l : List Task) : Agent := { a with stack := l }

/-- `request.emit('error', …)` -/
def emitError (r : ℕ) : Agent := { a with errors := a.errors ++ [r] }

@[simp] theorem socket_setSocket_self (s : ℕ) (k : AgentSocket) : (a.setSocket s k).socket s = k :=
  Function.update_self ..

theorem socket_setSocket_of_ne {s s' : ℕ} (h : s' ≠ s) (k : AgentSocket) :
    (a.setSocket s k).socket s' = a.socket s' := Function.update_of_ne h ..

/-- An update of a socket that leaves its message in place. -/
theorem httpMessage_setSocket {s : ℕ} {k : AgentSocket}
    (hk : k.httpMessage = (a.socket s).httpMessage) (s' : ℕ) :
    ((a.setSocket s k).socket s').httpMessage = (a.socket s').httpMessage := by
  by_cases hs : s' = s
  · rw [hs, socket_setSocket_self, hk]
  · rw [socket_setSocket_of_ne _ hs]

@[simp] theorem request_setRequest_self (r : ℕ) (q : ClientRequest) :
    (a.setRequest r q).request r = q :=
  Function.update_self ..

theorem request_setRequest_of_ne {r r' : ℕ} (h : r' ≠ r) (q : ClientRequest) :
    (a.setRequest r q).request r' = a.request r' := Function.update_of_ne h ..

/-! ## Sockets and requests -/

/-- `destroy` -/
def destroy (s : ℕ) : Agent :=
  a.setSocket s { a.socket s with writable := false, readable := false }

theorem httpMessage_destroy (s s' : ℕ) :
    ((a.destroy s).socket s').httpMessage = (a.socket s').httpMessage := by
  apply httpMessage_setSocket
  rfl

/-- The socket stops to be writable or readable. -/
def down (s : ℕ) (writable readable : Bool) : Agent :=
  a.setSocket s { a.socket s with
    writable := (a.socket s).writable && writable
    readable := (a.socket s).readable && readable }

/-- `_removeSocket` -/
def removeSocket (s : ℕ) : Agent := { a with sockets := a.sockets.erase s }

def assignSocket (r s : ℕ) : Except Failure Agent :=
  if (a.socket s).httpMessage.isSome then .error .assignMessage
  else
    let a := a.setSocket s { a.socket s with httpMessage := some r }
    let a := a.setRequest r { a.request r with connection := some s }
    .ok { a with assigned := a.assigned ++ [r] }

/-- A request and a socket that have nothing to do with each other any more. -/
def detached (r s : ℕ) : Agent :=
  (a.setSocket s { a.socket s with httpMessage := none }).setRequest r
    { a.request r with connection := none }

def detachSocket (r s : ℕ) : Except Failure Agent :=
  if (a.socket s).httpMessage = some r then .ok (a.detached r s) else .error .detachMessage

/-- A socket that `_cycle` gives a request to. -/
def available (s : ℕ) : Bool :=
  (a.socket s).httpMessage.isNone &&
    ((a.socket s).writable && (a.socket s).readable || (a.socket s).httpConnecting)

/-- `_establishNewConnection`, up to its call of `_cycle`. -/
def establishNewConnection : Except Failure Agent :=
  if a.sockets.length < a.maxSockets then
    let s := a.created
    let a := a.setSocket s ⟨none, true, true, false, none⟩
    let a := { a with created := s + 1, sockets := a.sockets ++ [s] }
    .ok ((a.push (.established s)).push .cycle)
  else .error .establishCount

/-- `_cycle`, up to the next call of itself. -/
def cycle : Except Failure Agent :=
  match a.queue with
  | [] => .ok a
  | first :: rest =>
    match a.sockets.find? a.available with
    | some s =>
      if (a.request first).queued then do
        let a := (a.setQueue rest).setRequest first { a.request first with queued := false }
        let a ← a.assignSocket first s
        return a.push .cycle
      else .error .queueOwner
    | none =>
      if ∃ s ∈ a.sockets, (a.socket s).httpConnecting = true then .ok a
      else if a.sockets.length < a.maxSockets then a.establishNewConnection
      else .ok a

/-! ## What the user calls -/

def appendMessage : Except Failure Agent :=
  let r := a.requests
  let a := a.setRequest r { a.request r with queued := true }
  cycle { a with queue := a.queue ++ [r], requests := r + 1 }

/-- `abort`. A request that is not in the queue has index `-1`, and `splice(-1, 1)` removes the last
element. -/
def abort (r : ℕ) : Except Failure Agent :=
  if (a.request r).queued then
    if (a.request r).connection.isSome then .error .abortConnection
    else .ok (a.setQueue (if r ∈ a.queue then a.queue.erase r else a.queue.dropLast))
  else
    match (a.request r).connection with
    | some s => do
      let a ← a.detachSocket r s
      return a.destroy s
    | none => .ok a

/-! ## What happens to a socket -/

/-- The callback of `_getConnection`. -/
def onConnect (s : ℕ) : Agent :=
  (a.setSocket s { a.socket s with httpConnecting := false, writable := true, readable := true }).push
    .cycle

/-- `parser.onIncoming`, for a response or for a `100 Continue`. -/
def onIncoming (s : ℕ) (isContinue : Bool) : Agent :=
  match (a.socket s).httpMessage with
  | none => a.destroy s
  | some r =>
    let a := a.setRequest r { a.request r with res := true }
    if isContinue then a else a.setSocket s { a.socket s with incoming := some r }

/-- The agent when a response has ended and `destroySoon` was called, if it is. It destroys a socket
only if all is flushed. -/
def destroySoon (s : ℕ) (shouldKeepAlive flushed : Bool) : Agent :=
  let a := a.setSocket s { a.socket s with incoming := none }
  if !shouldKeepAlive && (a.socket s).writable && flushed then a.destroy s else a

/-- The `'end'` listener of a response. The request is kept alive or not, and `destroySoon` finds
the socket flushed or not. -/
def onEnd (s : ℕ) (shouldKeepAlive flushed : Bool) : Except Failure Agent :=
  match (a.socket s).incoming with
  | none => .ok a
  | some r =>
    let a := a.destroySoon s shouldKeepAlive flushed
    if !shouldKeepAlive && (a.socket s).writable then .error .endWritable
    else do
      let a ← a.detachSocket r s
      if (a.socket s).httpMessage.isSome then .error .endMessage else a.cycle

/-- The `'error'` listener, up to what it emits. -/
def onError (s : ℕ) : Except Failure Agent :=
  match (a.socket s).httpMessage with
  | some r => .ok ((a.emitError r).push (.failed s r))
  | none =>
    match a.queue with
    | r :: rest =>
      if (a.request r).queued then
        let a := (a.setQueue rest).setRequest r { a.request r with queued := false }
        .ok ((a.emitError r).push (.failed s r))
      else .error .queueOwner
    | [] => .error .noRequest

/-- The `'close'` listener, up to what it emits: a request without response and without error gets
one. -/
def onClose (s : ℕ) : Agent :=
  match (a.socket s).httpMessage with
  | some r =>
    if (a.request r).res || (a.request r).hadError then a.push (.closed s)
    else (a.emitError r).push (.closed s)
  | none => a.push (.closed s)

/-- A handler goes on. -/
def resume : Except Failure Agent :=
  match a.stack with
  | [] => .ok a
  | t :: stack =>
    let a := a.setStack stack
    match t with
    | .cycle => a.cycle
    | .established s =>
      if (a.socket s).httpMessage.isSome then .ok a else .error .establishMessage
    | .failed s r =>
      let a := a.setRequest r { a.request r with hadError := true }
      ((a.destroy s).removeSocket s).cycle
    | .closed s => (a.removeSocket s).cycle

end Agent

/-! ## Runs -/

/-- What can happen to an agent. -/
inductive AgentEvent where
  | append
  | abort (r : ℕ)
  | connect (s : ℕ)
  | response (s : ℕ) (isContinue : Bool)
  | responseEnd (s : ℕ) (shouldKeepAlive flushed : Bool)
  | error (s : ℕ)
  | close (s : ℕ)
  /-- The socket stops to be writable or readable. -/
  | down (s : ℕ) (writable readable : Bool)
  | resume
  deriving DecidableEq, Repr

namespace Agent

/-- The parser of a socket runs: on data from the event loop, or because the `'error'` listener of
the socket finishes it. -/
def parsing (a : Agent) (s : ℕ) : Bool :=
  match a.stack with
  | [] => true
  | [.failed s' _] => s' == s
  | _ => false

/-- When the event can happen. -/
def Allows (a : Agent) : AgentEvent → Prop
  | .append => True
  | .abort r => r < a.requests
  | .connect s => s < a.created ∧ (a.socket s).httpConnecting = true ∧ a.stack = []
  | .response s _ => s < a.created ∧ (a.socket s).incoming = none ∧ a.stack = []
  | .responseEnd s _ _ => s < a.created ∧ (a.socket s).incoming.isSome = true ∧ a.parsing s = true
  | .error s | .close s => s < a.created ∧ a.stack = []
  | .down s _ _ => s < a.created
  | .resume => a.stack ≠ []

instance : ∀ (a : Agent) (e : AgentEvent), Decidable (a.Allows e)
  | _, .append => inferInstanceAs (Decidable True)
  | a, .abort r => inferInstanceAs (Decidable (r < a.requests))
  | a, .connect s => inferInstanceAs
      (Decidable (s < a.created ∧ (a.socket s).httpConnecting = true ∧ a.stack = []))
  | a, .response s _ => inferInstanceAs
      (Decidable (s < a.created ∧ (a.socket s).incoming = none ∧ a.stack = []))
  | a, .responseEnd s _ _ => inferInstanceAs
      (Decidable (s < a.created ∧ (a.socket s).incoming.isSome = true ∧ a.parsing s = true))
  | a, .error s | a, .close s => inferInstanceAs (Decidable (s < a.created ∧ a.stack = []))
  | a, .down s _ _ => inferInstanceAs (Decidable (s < a.created))
  | a, .resume => inferInstanceAs (Decidable (a.stack ≠ []))

def step (a : Agent) : AgentEvent → Except Failure Agent
  | .append => a.appendMessage
  | .abort r => a.abort r
  | .connect s => .ok (a.onConnect s)
  | .response s isContinue => .ok (a.onIncoming s isContinue)
  | .responseEnd s shouldKeepAlive flushed => a.onEnd s shouldKeepAlive flushed
  | .error s => a.onError s
  | .close s => .ok (a.onClose s)
  | .down s writable readable => .ok (a.down s writable readable)
  | .resume => a.resume

/-- The agent as a machine. -/
def machine : Machine Agent AgentEvent Failure := ⟨Allows, step⟩

instance (a : Agent) (e : AgentEvent) : Decidable (machine.guard a e) :=
  inferInstanceAs (Decidable (a.Allows e))

/-! ## What `_cycle` does -/

variable {a b : Agent}

/-- The agent after the first request was given a socket. -/
def dispatch (a : Agent) (r s : ℕ) (rest : List ℕ) : Agent where
  maxSockets := a.maxSockets
  queue := rest
  sockets := a.sockets
  request := update a.request r { a.request r with queued := false, connection := some s }
  socket := update a.socket s { a.socket s with httpMessage := some r }
  requests := a.requests
  created := a.created
  stack := .cycle :: a.stack
  assigned := a.assigned ++ [r]
  errors := a.errors

/-- The agent with a new connection. -/
def establish (a : Agent) : Agent where
  maxSockets := a.maxSockets
  queue := a.queue
  sockets := a.sockets ++ [a.created]
  request := a.request
  socket := update a.socket a.created ⟨none, true, true, false, none⟩
  requests := a.requests
  created := a.created + 1
  stack := .cycle :: .established a.created :: a.stack
  assigned := a.assigned
  errors := a.errors

theorem socket_dispatch_self (r s : ℕ) (rest : List ℕ) :
    (a.dispatch r s rest).socket s = { a.socket s with httpMessage := some r } :=
  Function.update_self ..

theorem socket_dispatch_of_ne {r s s' : ℕ} {rest : List ℕ} (h : s' ≠ s) :
    (a.dispatch r s rest).socket s' = a.socket s' := Function.update_of_ne h ..

theorem socket_establish_self : a.establish.socket a.created = ⟨none, true, true, false, none⟩ :=
  Function.update_self ..

theorem socket_establish_of_ne {s : ℕ} (h : s ≠ a.created) : a.establish.socket s = a.socket s :=
  Function.update_of_ne h ..

/-- `_cycle` gives the first request to an available socket; makes a connection if there is none,
none is connecting, and there is room for one; or does nothing. -/
theorem cycle_cases (h : a.cycle = .ok b) :
    (b = a ∧ (a.queue = [] ∨ ∀ s ∈ a.sockets, a.available s = false)) ∨
    (∃ r rest s, a.queue = r :: rest ∧ a.sockets.find? a.available = some s ∧
      b = a.dispatch r s rest) ∨
    (a.queue ≠ [] ∧ (∀ s ∈ a.sockets, a.available s = false) ∧
      a.sockets.length < a.maxSockets ∧ b = a.establish) := by
  unfold cycle at h
  split at h
  · rename_i hq
    exact Or.inl ⟨(Except.ok.inj h).symm, Or.inl hq⟩
  · rename_i r rest hq
    split at h
    · rename_i s hs
      refine Or.inr (Or.inl ⟨r, rest, s, hq, hs, ?_⟩)
      split_ifs at h
      have hnone : (a.socket s).httpMessage = none := by
        have hav := List.find?_some hs
        rw [available, Bool.and_eq_true, Option.isNone_iff_eq_none] at hav
        exact hav.1
      have hassign : ((a.setQueue rest).setRequest r
          { a.request r with queued := false }).assignSocket r s =
            .ok { a.dispatch r s rest with stack := a.stack } := by
        rw [assignSocket, setRequest, setQueue, hnone, if_neg (by decide)]
        simp [dispatch, setSocket, setRequest]
      change (assignSocket _ r s).bind _ = _ at h
      rw [hassign] at h
      exact (Except.ok.inj h).symm
    · rename_i hs
      have hbusy : ∀ s ∈ a.sockets, a.available s = false := by simpa using hs
      split_ifs at h with hcon hlt
      · exact Or.inl ⟨(Except.ok.inj h).symm, Or.inr hbusy⟩
      · refine Or.inr (Or.inr ⟨by rw [hq]; exact List.cons_ne_nil _ _, hbusy, hlt, ?_⟩)
        rw [establishNewConnection, if_pos hlt] at h
        exact (Except.ok.inj h).symm
      · exact Or.inl ⟨(Except.ok.inj h).symm, Or.inr hbusy⟩

/-- The socket that `_cycle` finds carries no request, and so there is only one assertion that could
fail. -/
theorem cycle_error {f : Failure} (h : a.cycle = .error f) : f = .queueOwner := by
  unfold cycle at h
  split at h
  · cases h
  · rename_i r rest _
    split at h
    · rename_i s hs
      split_ifs at h
      · have hav := List.find?_some hs
        rw [available, Bool.and_eq_true, Option.isNone_iff_eq_none] at hav
        change (assignSocket _ r s).bind _ = _ at h
        rw [assignSocket, setRequest, setQueue, hav.1, if_neg (by decide)] at h
        cases h
      · exact (Except.error.inj h).symm
    · split_ifs at h with _ hlt
      rw [establishNewConnection, if_pos hlt] at h
      cases h

/-- A response that ends lets its socket go, and then calls `_cycle`. -/
theorem onEnd_cases {s : ℕ} {shouldKeepAlive flushed : Bool}
    (h : a.onEnd s shouldKeepAlive flushed = .ok b) :
    b = a ∨ ∃ r, ((a.destroySoon s shouldKeepAlive flushed).socket s).httpMessage = some r ∧
      ((a.destroySoon s shouldKeepAlive flushed).detached r s).cycle = .ok b := by
  unfold onEnd at h
  split at h
  · exact Or.inl (Except.ok.inj h).symm
  · rename_i r _
    dsimp only at h
    split_ifs at h
    obtain ⟨c, hc, h⟩ := Machine.exists_of_bind_eq_ok h
    unfold detachSocket at hc
    split_ifs at hc h with hm
    obtain rfl := Except.ok.inj hc
    exact Or.inr ⟨r, hm, h⟩

/-- What a task does: but for an assertion, it tidies up and calls `_cycle`. -/
theorem resume_cases (h : a.resume = .ok b) :
    (a.stack = [] ∧ b = a) ∨ ∃ t stack, a.stack = t :: stack ∧
      ((t = .cycle ∧ (a.setStack stack).cycle = .ok b) ∨
      (∃ s, t = .established s ∧ (a.socket s).httpMessage.isSome = true ∧ b = a.setStack stack) ∨
      (∃ s r, t = .failed s r ∧
        ((((a.setStack stack).setRequest r { a.request r with hadError := true }).destroy
          s).removeSocket s).cycle = .ok b) ∨
      (∃ s, t = .closed s ∧ ((a.setStack stack).removeSocket s).cycle = .ok b)) := by
  unfold resume at h
  split at h
  · rename_i hstack
    exact Or.inl ⟨hstack, (Except.ok.inj h).symm⟩
  · rename_i t stack hstack
    refine Or.inr ⟨t, stack, hstack, ?_⟩
    cases t with
    | cycle => exact Or.inl ⟨rfl, h⟩
    | established s =>
      dsimp only at h
      split_ifs at h with hm
      exact Or.inr (Or.inl ⟨s, rfl, hm, (Except.ok.inj h).symm⟩)
    | failed s r => exact Or.inr (Or.inr (Or.inl ⟨s, r, rfl, h⟩))
    | closed s => exact Or.inr (Or.inr (Or.inr ⟨s, rfl, h⟩))

theorem resume_error {f : Failure} (h : a.resume = .error f) :
    f = .queueOwner ∨ f = .establishMessage ∧ ∃ s stack, a.stack = .established s :: stack ∧
      (a.socket s).httpMessage = none := by
  unfold resume at h
  split at h
  · cases h
  · rename_i t stack hstack
    cases t with
    | established s =>
      dsimp only at h
      split_ifs at h with hm
      exact Or.inr
        ⟨(Except.error.inj h).symm, s, stack, hstack, Option.not_isSome_iff_eq_none.mp hm⟩
    | _ => exact Or.inl (cycle_error h)

end Agent

end SpiderNode.Http
