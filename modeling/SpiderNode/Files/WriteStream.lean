import SpiderNode.Files.Content
import SpiderNode.Machine.Runs
import Mathlib.Algebra.GroupWithZero.Nat

/-!
# `fs.WriteStream`

The queue of operations of a `WriteStream` of `lib/fs.js`, with the descriptor that they get, and
the file behind it. `flush` takes an operation off the queue and starts it, unless one is running
(`busy`). Its callback starts the next one, behind the callback that was given to `write`, or behind
the listeners of `'open'`. All of these, and the listeners of `'drain'`, may call `write` again.

`serial` says that this keeps the operations in order: the file is opened, the writes come one after
the other in the order of the calls, and then the file is closed. The number of bytes that a write
reports is not looked at. `stores_of_full` is about the runs in which it is all of them.
-/

namespace SpiderNode.Files

open Net (JsError)

/-- What is passed to `write`: a `Buffer`, or a string of which `fs.write` makes one. A string of
which `new Buffer` throws is left out: with it `flush` throws behind `busy = true`, and the stream
does not go on, as after an operation that fails. -/
structure Payload where
  string : Bool
  bytes : Bytes
  length_lt : bytes.length < 2 ^ 31
  deriving DecidableEq, Repr

/-- The arguments of `fs.write` behind the descriptor. -/
def Payload.args (d : Payload) : Args :=
  if d.string then .string d.bytes.length .undefined
  else .buffer d.bytes.length (.number 0) (.number d.bytes.length) .null

inductive Method where
  | open
  | write (d : Payload)
  | close
  deriving DecidableEq, Repr

/-- The bytes that an operation is to store. -/
def Method.bytes : Method → Bytes
  | .write d => d.bytes
  | .open | .close => []

/-- An element of `_queue`. Callbacks have numbers. -/
structure QueuedCall where
  method : Method
  cb : Option ℕ
  deriving DecidableEq, Repr

/-- How far an operation has come. -/
inductive Completion where
  | waiting
  /-- It reports a number: the bytes that have been written, or the descriptor. -/
  | done (n : ℕ)
  | failed
  deriving DecidableEq, Repr

/-- An operation of which the callback has not been called. -/
structure Issued where
  call : QueuedCall
  fd : Option Int32
  /-- The system call, unless there is nothing to write. -/
  transfer : Option Transfer
  completion : Completion
  deriving DecidableEq, Repr

/-- A call of `emit` or of a callback that has not returned, by what comes behind it. -/
inductive Pending where
  | flush
  | nothing
  deriving DecidableEq, Repr

def Issued.todo (o : Issued) : ℕ := if o.completion = .waiting then 4 else 3

def Pending.todo : Pending → ℕ
  | .flush => 2
  | .nothing => 1

/-- A stream, its file, and what it has been asked for. -/
structure WriteStream where
  fd : Option Int32
  writable : Bool
  drainable : Bool
  busy : Bool
  queue : List QueuedCall
  inFlight : List Issued
  stack : List Pending
  file : OpenFile
  /-- The operations that have been started, with their descriptors. -/
  issued : List (QueuedCall × Option Int32)
  /-- The calls of `write`. -/
  writes : List (Payload × Option ℕ)
  /-- The callback of `end`, once it has been called. -/
  closing : Option (Option ℕ)
  deriving DecidableEq, Repr

namespace WriteStream

variable (s : WriteStream)

/-- The native call of an operation, with `fd` as its first argument. -/
def apply : Method → Except JsError (Option Transfer)
  | .open => .ok none
  | .write d => IoFunction.write.call (s.fd.elim .null .int) d.args
  | .close =>
    match s.fd with
    | some _ => .ok none
    -- `THROW_BAD_ARGS`
    | none => .error .typeError

/-- `WriteStream.prototype.flush` -/
def flush : Except JsError Unit × WriteStream :=
  if s.busy then (.ok (), s)
  else
    match s.queue with
    | [] => (.ok (), if s.drainable then { s with stack := .nothing :: s.stack } else s)
    | call :: queue =>
      let s := { s with busy := true, queue := queue }
      let fd := if call.method = .open then none else s.fd
      match s.apply call.method with
      | .error e => (.error e, s)
      | .ok t =>
        (.ok (), { s with
          inFlight := s.inFlight ++ [⟨call, fd, t, .waiting⟩]
          issued := s.issued ++ [(call, fd)] })

/-- `new WriteStream(path, options)`, with the option `fd`, for a file with this content. -/
def create (given : Option Int32) (content : Bytes) : WriteStream :=
  let s : WriteStream :=
    { fd := given
      writable := true
      drainable := false
      busy := false
      queue := []
      inFlight := []
      stack := []
      file := ⟨content, 0⟩
      issued := []
      writes := []
      closing := none }
  match given with
  | some _ => s
  | none => (flush { s with queue := [⟨.open, none⟩] }).2

/-- `WriteStream.prototype.write` -/
def write (d : Payload) (cb : Option ℕ) : Except JsError Unit × WriteStream :=
  -- `emit('error')`
  if ¬s.writable then (.ok (), { s with stack := .nothing :: s.stack })
  else flush
    { s with
      drainable := true
      queue := s.queue ++ [⟨.write d, cb⟩]
      writes := s.writes ++ [(d, cb)] }

/-- `WriteStream.prototype.end`, behind its call of `write` if there is data. -/
def «end» (cb : Option ℕ) : Except JsError Unit × WriteStream :=
  flush { s with writable := false, queue := s.queue ++ [⟨.close, cb⟩], closing := some cb }

/-- The callback of an operation. -/
def complete (o : Issued) : Except JsError Unit × WriteStream :=
  let s := { s with busy := false }
  match o.completion, o.call.method with
  | .waiting, _ => (.ok (), s)
  | .failed, _ => (.ok (), { s with writable := false, stack := .nothing :: s.stack })
  | .done _, .close => (.ok (), { s with stack := .nothing :: s.stack })
  | .done n, .open => (.ok (), { s with fd := some (.ofNat n), stack := .flush :: s.stack })
  | .done _, .write _ =>
    if o.call.cb.isSome then (.ok (), { s with stack := .flush :: s.stack }) else s.flush

/-- The kernel does what an operation asks for, and reports `n`. -/
def execute (o : Issued) (n : ℕ) : OpenFile :=
  match o.call.method, o.transfer with
  | .open, _ => .truncated
  | .write d, some t => s.file.write t.place (d.bytes.take n)
  | .write _, none | .close, _ => s.file

/-- What happens to a stream. -/
inductive StreamCall where
  | write (d : Payload) (cb : Option ℕ)
  | end (cb : Option ℕ)
  /-- The kernel has done what the operation at index `i` asks for, and reports `n`. -/
  | execute (i n : ℕ)
  | fail (i : ℕ)
  /-- The callback of the operation at index `i`. -/
  | complete (i : ℕ)
  /-- The listeners of the last `emit`, or the last callback, return. -/
  | returns
  deriving DecidableEq, Repr

/-- What an operation can report: some of the bytes that it has, and one at least unless there are
none; or a descriptor. -/
def Reports (m : Method) (n : ℕ) : Prop :=
  match m with
  | .write d => n ≤ d.bytes.length ∧ (d.bytes = [] ∨ 0 < n)
  | .open => n < 2 ^ 31
  | .close => n = 0

instance (m : Method) (n : ℕ) : Decidable (Reports m n) :=
  match m with
  | .write d => inferInstanceAs (Decidable (n ≤ d.bytes.length ∧ (d.bytes = [] ∨ 0 < n)))
  | .open => inferInstanceAs (Decidable (n < 2 ^ 31))
  | .close => inferInstanceAs (Decidable (n = 0))

/-- Callbacks run one at a time, and behind all listeners. -/
def Allows (s : WriteStream) : StreamCall → Prop
  | .write _ _ | .end _ => True
  | .execute i n => ∃ o ∈ s.inFlight[i]?, o.completion = .waiting ∧ Reports o.call.method n
  | .fail i => ∃ o ∈ s.inFlight[i]?, o.completion = .waiting
  | .complete i => s.stack = [] ∧ ∃ o ∈ s.inFlight[i]?, o.completion ≠ .waiting
  | .returns => s.stack ≠ []

instance (s : WriteStream) : DecidablePred s.Allows
  | .write _ _ | .end _ => inferInstanceAs (Decidable True)
  | .execute i n =>
    inferInstanceAs (Decidable (∃ o ∈ s.inFlight[i]?, o.completion = .waiting ∧
      Reports o.call.method n))
  | .fail i => inferInstanceAs (Decidable (∃ o ∈ s.inFlight[i]?, o.completion = .waiting))
  | .complete i =>
    inferInstanceAs (Decidable (s.stack = [] ∧ ∃ o ∈ s.inFlight[i]?, o.completion ≠ .waiting))
  | .returns => inferInstanceAs (Decidable (s.stack ≠ []))

def step : StreamCall → WriteStream
  | .write d cb => (s.write d cb).2
  | .end cb => (s.end cb).2
  | .execute i n =>
    match s.inFlight[i]? with
    | some o =>
      { s with
        file := s.execute o n
        inFlight := s.inFlight.set i { o with completion := .done n } }
    | none => s
  | .fail i =>
    match s.inFlight[i]? with
    | some o => { s with inFlight := s.inFlight.set i { o with completion := .failed } }
    | none => s
  | .complete i =>
    match s.inFlight[i]? with
    | some o => (complete { s with inFlight := s.inFlight.eraseIdx i } o).2
    | none => s
  | .returns =>
    match s.stack with
    | .flush :: stack => (flush { s with stack := stack }).2
    | .nothing :: stack => { s with stack := stack }
    | [] => s

def machine : Machine WriteStream StreamCall Empty := ⟨Allows, fun s ev ↦ .ok (s.step ev)⟩

instance (s : WriteStream) (ev : StreamCall) : Decidable (machine.guard s ev) :=
  inferInstanceAs (Decidable (s.Allows ev))

/-! ## What is to hold -/

/-- The calls that a program makes: `end` once, and `write` before it. Nothing fails. -/
def Proper (s : WriteStream) : StreamCall → Prop
  | .write _ _ | .end _ => s.closing = none
  | .fail _ => False
  | .execute _ _ | .complete _ | .returns => True

instance (s : WriteStream) : DecidablePred s.Proper
  | .write _ _ | .end _ => inferInstanceAs (Decidable (s.closing = none))
  | .fail _ => inferInstanceAs (Decidable False)
  | .execute _ _ | .complete _ | .returns => inferInstanceAs (Decidable True)

/-- What is reported is all bytes that are to be written. -/
def Stores (m : Method) (n : ℕ) : Prop :=
  match m with
  | .write d => n = d.bytes.length
  | .open | .close => True

instance (m : Method) (n : ℕ) : Decidable (Stores m n) :=
  match m with
  | .write d => inferInstanceAs (Decidable (n = d.bytes.length))
  | .open | .close => inferInstanceAs (Decidable True)

/-- No write stores fewer bytes than it has. -/
def Full (s : WriteStream) : StreamCall → Prop
  | .execute i n => ∀ o ∈ s.inFlight[i]?, Stores o.call.method n
  | .write _ _ | .end _ | .fail _ | .complete _ | .returns => True

instance (s : WriteStream) : DecidablePred s.Full
  | .execute i n => inferInstanceAs (Decidable (∀ o ∈ s.inFlight[i]?, Stores o.call.method n))
  | .write _ _ | .end _ | .fail _ | .complete _ | .returns => inferInstanceAs (Decidable True)

/-- The operations that the stream has been asked for, in order. -/
def asked (given : Option Int32) (s : WriteStream) : List QueuedCall :=
  (if given.isSome then [] else [⟨.open, none⟩]) ++
    (s.writes.map fun w ↦ ⟨.write w.1, w.2⟩) ++ (s.closing.map fun cb ↦ ⟨.close, cb⟩).toList

/-- Nothing is running. -/
def Quiet (s : WriteStream) : Prop := s.inFlight = [] ∧ s.stack = []

instance (s : WriteStream) : Decidable s.Quiet := inferInstanceAs (Decidable (_ ∧ _))

/-- What happens without a new call. -/
def Own : StreamCall → Prop
  | .write _ _ | .end _ => False
  | .execute _ _ | .fail _ | .complete _ | .returns => True

/-- A bound of what happens before the stream comes to rest, without a new call. -/
def todo (s : WriteStream) : ℕ :=
  5 * s.queue.length + (s.inFlight.map Issued.todo).sum + (s.stack.map Pending.todo).sum

/-- The operations are started in the order in which they have been asked for, one at a time, all
but the first one with the descriptor of the file; and all of them, before the stream comes to
rest. -/
structure Serial (given : Option Int32) (s : WriteStream) : Prop where
  length_le_one : s.inFlight.length ≤ 1
  order : s.issued.map (·.1) ++ s.queue = asked given s
  fd : ∀ i ∈ s.issued, i.1.method ≠ .open → i.2 = s.fd ∧ s.fd ≠ none
  queue_eq_nil : s.Quiet → s.queue = []
  exists_next : ¬s.Quiet → ∃ ev, Own ev ∧ machine.guard s ev ∧ s.Proper ev
  todo_lt : ∀ ev, Own ev → machine.guard s ev → s.Proper ev → (s.step ev).todo < s.todo

/-! ## The invariant -/

/-- An operation is running, or none. -/
inductive Flight (s : WriteStream) : Prop
  | running (o : Issued) (before : List (QueuedCall × Option Int32)) (hbusy : s.busy = true)
      (hflight : s.inFlight = [o]) (hissued : s.issued = before ++ [(o.call, o.fd)])
      (hopen : o.call.method = .open ↔ s.fd = none) (hok : o.completion ≠ .failed)
  | resting (hbusy : s.busy = false) (hflight : s.inFlight = []) (hfd : s.fd ≠ none)

/-- What holds also before `flush` has been called. -/
structure Ordered (given : Option Int32) (s : WriteStream) : Prop where
  order : s.issued.map (·.1) ++ s.queue = asked given s
  queue : ∀ c ∈ s.queue, c.method ≠ .open
  fd : ∀ i ∈ s.issued, i.1.method ≠ .open → i.2 = s.fd ∧ s.fd ≠ none
  opening : s.fd = none → s.issued = [(⟨.open, none⟩, none)]
  flight : s.Flight
  writable : s.writable = true ↔ s.closing = none

/-- What waits is started when a listener returns, if not before. -/
def Settled (s : WriteStream) : Prop := s.busy = false → s.queue ≠ [] → .flush ∈ s.stack

/-- What is written is written at the current position. -/
def Appends (m : Method) (t : Option Transfer) : Prop :=
  match m, t with
  | .write _, some t => t.place = .current
  | .write d, none => d.bytes = []
  | .open, _ | .close, _ => True

variable {s : WriteStream} {given : Option Int32} {ev : StreamCall}

/-- A write of a stream with a descriptor is a system call at the current position, or there is
nothing to do. -/
theorem exists_apply {fd : Int32} (hfd : s.fd = some fd) {m : Method} (hm : m ≠ .open) :
    ∃ t, s.apply m = .ok t ∧ Appends m t := by
  cases m with
  | «open» => exact absurd rfl hm
  | close => exact ⟨none, by rw [apply, hfd], trivial⟩
  | write d =>
    have happly : s.apply (.write d) = IoFunction.write.call (.int fd) d.args := by
      rw [apply, hfd]
      rfl
    by_cases hnil : d.bytes = []
    · have hzero : d.args.length.truthy = false := by
        rw [Payload.args, hnil]
        split_ifs <;> rfl
      refine ⟨none, ?_, hnil⟩
      rw [happly, IoFunction.call, if_neg (by simp [hzero])]
    · let r : Request := ⟨d.string, d.bytes.length, 0, d.bytes.length, d.length_lt,
        List.length_pos_of_ne_nil hnil, (Nat.zero_add _).le⟩
      have hargs : d.args = r.args (if d.string then .undefined else .null) := by
        change d.args = if d.string then _ else _
        rw [Payload.args]
        split_ifs <;> rfl
      have htransfers : TransfersAt .write fd r (if d.string then .undefined else .null)
          .current := by
        rw [transfersAt_iff]
        cases d.string <;> rfl
      obtain ⟨t, ht, hplace⟩ := htransfers
      exact ⟨some t, happly.trans (hargs ▸ ht), hplace⟩

/-- What `flush` does to a stream that is not busy. -/
theorem flush_cons {call : QueuedCall} {queue : List QueuedCall} (hbusy : s.busy = false)
    (hqueue : s.queue = call :: queue) (hcall : call.method ≠ .open) (hfd : s.fd ≠ none) :
    ∃ t, s.flush = (.ok (), { s with
      busy := true
      queue := queue
      inFlight := s.inFlight ++ [⟨call, s.fd, t, .waiting⟩]
      issued := s.issued ++ [(call, s.fd)] }) ∧ Appends call.method t := by
  obtain ⟨fd, hfd⟩ := Option.ne_none_iff_exists'.mp hfd
  obtain ⟨t, ht, hplace⟩ := exists_apply hfd hcall
  refine ⟨t, ?_, hplace⟩
  have ht' : apply { s with busy := true, queue := queue } call.method = .ok t := ht
  rw [flush, if_neg (by simp [hbusy]), hqueue]
  dsimp only
  rw [ht', if_neg hcall]

theorem flush_nil (hbusy : s.busy = false) (hqueue : s.queue = []) :
    s.flush = (.ok (), if s.drainable then { s with stack := .nothing :: s.stack } else s) := by
  rw [flush, if_neg (by simp [hbusy]), hqueue]

theorem flush_busy (hbusy : s.busy = true) : s.flush = (.ok (), s) := by
  rw [flush, if_pos hbusy]

/-- Listeners make no difference to the operations. -/
theorem Ordered.stack (h : s.Ordered given) (stack : List Pending) :
    Ordered given { s with stack := stack } := by
  refine ⟨h.order, h.queue, h.fd, h.opening, ?_, h.writable⟩
  cases h.flight with
  | running o before hbusy hflight hissued hopen hok =>
    exact .running o before hbusy hflight hissued hopen hok
  | resting hbusy hflight hfd => exact .resting hbusy hflight hfd

theorem Ordered.flush (h : s.Ordered given) : s.flush.2.Ordered given ∧ s.flush.2.Settled := by
  cases h.flight with
  | running o before hbusy hflight =>
    rw [flush_busy hbusy]
    exact ⟨h, fun hresting ↦ by cases hbusy.symm.trans hresting⟩
  | resting hbusy hflight hfd =>
    cases hqueue : s.queue with
    | nil =>
      rw [flush_nil hbusy hqueue]
      dsimp only
      split_ifs
      · exact ⟨h.stack _, fun _ hne ↦ absurd hqueue hne⟩
      · exact ⟨h, fun _ hne ↦ absurd hqueue hne⟩
    | cons call queue =>
      have hcall : call.method ≠ .open := h.queue call (hqueue ▸ List.mem_cons_self)
      obtain ⟨t, hflush, -⟩ := flush_cons hbusy hqueue hcall hfd
      have horder := h.order
      rw [hflush]
      refine ⟨⟨?_, fun c hc ↦ h.queue c (hqueue ▸ List.mem_cons_of_mem _ hc), fun i hi hne ↦ ?_,
        fun hnone ↦ absurd hnone hfd, ?_, h.writable⟩, fun hresting ↦ by cases hresting⟩
      · change (s.issued ++ [(call, s.fd)]).map (·.1) ++ queue = asked given s
        rw [List.map_append, List.append_assoc, ← horder, hqueue]
        rfl
      · obtain hi | hi := List.mem_append.mp hi
        · exact h.fd i hi hne
        · rw [List.mem_singleton.mp hi]
          exact ⟨rfl, hfd⟩
      · refine .running ⟨call, s.fd, t, .waiting⟩ s.issued rfl ?_ rfl
          (iff_of_false hcall hfd) Completion.noConfusion
        exact congrArg (· ++ [_]) hflight

/-- The state in which `write` calls `flush`. -/
theorem Ordered.queue_write (h : s.Ordered given) (hopen : s.closing = none) (d : Payload)
    (cb : Option ℕ) : Ordered given
      { s with
        drainable := true
        queue := s.queue ++ [⟨.write d, cb⟩]
        writes := s.writes ++ [(d, cb)] } := by
  refine ⟨?_, fun c hc ↦ ?_, h.fd, h.opening, ?_, h.writable⟩
  · have horder := h.order
    rw [asked, hopen] at horder
    change s.issued.map (·.1) ++ (s.queue ++ [⟨.write d, cb⟩]) =
      _ ++ (s.writes ++ [(d, cb)]).map _ ++ (s.closing.map _).toList
    rw [← List.append_assoc, horder, hopen, List.map_append]
    simp
  · obtain hc | hc := List.mem_append.mp hc
    · exact h.queue c hc
    · rw [List.mem_singleton.mp hc]
      exact Method.noConfusion
  · cases h.flight with
    | running o before hbusy hflight hissued hopen hok =>
      exact .running o before hbusy hflight hissued hopen hok
    | resting hbusy hflight hfd => exact .resting hbusy hflight hfd

/-- The state in which `end` calls `flush`. -/
theorem Ordered.queue_close (h : s.Ordered given) (hopen : s.closing = none) (cb : Option ℕ) :
    Ordered given
      { s with writable := false, queue := s.queue ++ [⟨.close, cb⟩], closing := some cb } := by
  refine ⟨?_, fun c hc ↦ ?_, h.fd, h.opening, ?_, iff_of_false ?_ ?_⟩
  · have horder := h.order
    rw [asked, hopen] at horder
    change s.issued.map (·.1) ++ (s.queue ++ [⟨.close, cb⟩]) =
      _ ++ s.writes.map _ ++ [⟨.close, cb⟩]
    rw [← List.append_assoc, horder]
    simp
  · obtain hc | hc := List.mem_append.mp hc
    · exact h.queue c hc
    · rw [List.mem_singleton.mp hc]
      exact Method.noConfusion
  · cases h.flight with
    | running o before hbusy hflight hissued hopen hok =>
      exact .running o before hbusy hflight hissued hopen hok
    | resting hbusy hflight hfd => exact .resting hbusy hflight hfd
  · exact Bool.false_ne_true
  · exact Option.some_ne_none cb

/-- An operation that is running has been asked for, and nothing is queued behind the last one. -/
theorem Ordered.queue_of_close (h : s.Ordered given) {o : Issued}
    {before : List (QueuedCall × Option Int32)} (hissued : s.issued = before ++ [(o.call, o.fd)])
    (hclose : o.call.method = .close) : s.queue = [] := by
  have horder := h.order
  rw [hissued, List.map_append, List.map_singleton, List.append_assoc] at horder
  have hnone {c : QueuedCall} (hc : c ∈ (if given.isSome then [] else [⟨.open, none⟩]) ++
      s.writes.map fun w ↦ (⟨.write w.1, w.2⟩ : QueuedCall)) : c.method ≠ .close := by
    obtain hc | hc := List.mem_append.mp hc
    · split_ifs at hc
      · exact absurd hc List.not_mem_nil
      · rw [List.mem_singleton.mp hc]
        exact Method.noConfusion
    · obtain ⟨w, -, rfl⟩ := List.mem_map.mp hc
      exact Method.noConfusion
  rcases s.queue.eq_nil_or_concat with hnil | ⟨front, last, hlast⟩
  · exact hnil
  · -- what has been asked for before the last operation contains no `close`
    exfalso
    rw [List.concat_eq_append] at hlast
    rw [hlast, asked, ← List.append_assoc, ← List.append_assoc] at horder
    cases hclosing : s.closing with
    | none =>
      rw [hclosing, Option.map_none, Option.toList_none, List.append_nil] at horder
      exact hnone (horder ▸ by simp) hclose
    | some cb =>
      rw [hclosing, Option.map_some, Option.toList_some] at horder
      have hfront := (List.append_inj' horder rfl).1
      exact hnone (hfront ▸ by simp) hclose

/-- The state in which the callback of an operation runs. -/
theorem Ordered.rest (h : s.Ordered given) {o : Issued} (hflight : s.inFlight = [o])
    (hne : o.call.method ≠ .open) (stack : List Pending) :
    Ordered given { s with inFlight := [], busy := false, stack := stack } := by
  cases h.flight with
  | resting _ hnone =>
    rw [hnone] at hflight
    cases hflight
  | running o' before hbusy hflight' hissued hopen =>
    obtain rfl : o' = o := List.head_eq_of_cons_eq (hflight'.symm.trans hflight)
    exact ⟨h.order, h.queue, h.fd, fun hnone ↦ absurd (hopen.mpr hnone) hne,
      .resting rfl rfl (hopen.not.mp hne), h.writable⟩

/-- The callback of the operation that is running. -/
theorem Ordered.complete (h : s.Ordered given) {o : Issued} (hflight : s.inFlight = [o])
    (hdone : o.completion ≠ .waiting) :
    (complete { s with inFlight := [] } o).2.Ordered given ∧
      (complete { s with inFlight := [] } o).2.Settled := by
  have hrest := h.rest hflight
  cases h.flight with
  | resting _ hnone =>
    rw [hnone] at hflight
    cases hflight
  | running o' before hbusy hflight' hissued hopen hok =>
    obtain rfl : o' = o := List.head_eq_of_cons_eq (hflight'.symm.trans hflight)
    obtain ⟨⟨method, cb⟩, fd, t, completion⟩ := o'
    cases completion with
    | waiting => exact absurd rfl hdone
    | failed => exact absurd rfl hok
    | done n =>
      cases method with
      | close =>
        have hqueue := h.queue_of_close hissued rfl
        exact ⟨hrest Method.noConfusion _, fun _ hne ↦ absurd hqueue hne⟩
      | «open» =>
        have hfd : s.fd = none := hopen.mp rfl
        have hone := h.opening hfd
        refine ⟨⟨h.order, h.queue, fun i hi hne ↦ ?_, fun hnone ↦ ?_, .resting rfl rfl ?_,
          h.writable⟩, fun _ _ ↦ List.mem_cons_self⟩
        · rw [show i = _ from List.mem_singleton.mp (hone ▸ hi)] at hne
          exact absurd rfl hne
        · cases hnone
        · exact Option.some_ne_none _
      | write d =>
        cases cb with
        | some cb => exact ⟨hrest Method.noConfusion _, fun _ _ ↦ List.mem_cons_self⟩
        | none => exact (hrest Method.noConfusion _).flush

theorem Ordered.inFlight_eq (h : s.Ordered given) {o : Issued} {i : ℕ}
    (ho : s.inFlight[i]? = some o) : i = 0 ∧ s.inFlight = [o] := by
  cases h.flight with
  | resting _ hnone =>
    rw [hnone] at ho
    cases ho
  | running o' before _ hflight =>
    rw [hflight, List.getElem?_singleton] at ho
    split_ifs at ho with hi
    exact ⟨hi, hflight.trans (congrArg (fun o ↦ [o]) (Option.some.inj ho))⟩

/-- The operation that is running comes further. -/
theorem Ordered.set (h : s.Ordered given) {o : Issued} {i : ℕ} (ho : s.inFlight[i]? = some o)
    {completion : Completion} (hok : completion ≠ .failed) (file : OpenFile) :
    Ordered given
      { s with
        file := file
        inFlight := s.inFlight.set i { o with completion := completion } } := by
  obtain ⟨rfl, hflight⟩ := h.inFlight_eq ho
  refine ⟨h.order, h.queue, h.fd, h.opening, ?_, h.writable⟩
  cases h.flight with
  | resting _ hnone =>
    rw [hnone] at hflight
    cases hflight
  | running o' before hbusy hflight' hissued hopen _ =>
    obtain rfl : o' = o := List.head_eq_of_cons_eq (hflight'.symm.trans hflight)
    refine .running { o' with completion := completion } before hbusy ?_ hissued hopen hok
    change s.inFlight.set 0 _ = _
    rw [hflight]
    rfl

theorem Ordered.step (h : s.Ordered given) (hsettled : s.Settled) (hallows : s.Allows ev)
    (hproper : s.Proper ev) : (s.step ev).Ordered given ∧ (s.step ev).Settled := by
  cases ev with
  | write d cb =>
    rw [step, write, if_neg (not_not_intro (h.writable.mpr hproper))]
    exact (h.queue_write hproper d cb).flush
  | «end» cb => exact (h.queue_close hproper cb).flush
  | fail i => exact hproper.elim
  | execute i n =>
    obtain ⟨o, ho, -, -⟩ := hallows
    rw [step, show s.inFlight[i]? = some o from ho]
    exact ⟨h.set ho Completion.noConfusion _, hsettled⟩
  | complete i =>
    obtain ⟨-, o, ho, hdone⟩ := hallows
    obtain ⟨rfl, hflight⟩ := h.inFlight_eq ho
    rw [step, show s.inFlight[0]? = some o from ho, hflight]
    exact h.complete hflight hdone
  | returns =>
    rw [step]
    split
    · exact (h.stack _).flush
    · rename_i stack hstack
      refine ⟨h.stack _, fun hbusy hne ↦ ?_⟩
      have hmem := hsettled hbusy hne
      rw [hstack] at hmem
      exact (List.mem_cons.mp hmem).resolve_left Pending.noConfusion
    · exact ⟨h, hsettled⟩

theorem create_ordered (given : Option Int32) (content : Bytes) :
    (create given content).Ordered given ∧ (create given content).Settled := by
  cases given with
  | some fd =>
    refine ⟨⟨rfl, fun c hc ↦ (by cases hc), fun i hi ↦ (by cases hi), fun hnone ↦ (by cases hnone),
      .resting rfl rfl (Option.some_ne_none fd), iff_of_true rfl rfl⟩, fun _ hne ↦ absurd rfl hne⟩
  | none =>
    refine ⟨⟨rfl, fun c hc ↦ (by cases hc), fun i hi hne ↦ ?_, fun _ ↦ rfl,
      .running ⟨⟨.open, none⟩, none, none, .waiting⟩ [] rfl rfl rfl (iff_of_true rfl rfl)
        Completion.noConfusion, iff_of_true rfl rfl⟩, fun hbusy ↦ by cases hbusy⟩
    rw [show i = _ from List.mem_singleton.mp hi] at hne
    exact absurd rfl hne

/-- Something can happen as long as something is running. -/
theorem Ordered.exists_next (h : s.Ordered given) (hquiet : ¬s.Quiet) :
    ∃ ev, Own ev ∧ machine.guard s ev ∧ s.Proper ev ∧ s.Full ev := by
  by_cases hstack : s.stack = []
  · cases h.flight with
    | resting _ hflight => exact absurd ⟨hflight, hstack⟩ hquiet
    | running o before _ hflight =>
      have ho : s.inFlight[0]? = some o := hflight ▸ rfl
      by_cases hwaiting : o.completion = .waiting
      · refine ⟨.execute 0 o.call.method.bytes.length, trivial, ⟨o, ho, hwaiting, ?_⟩, trivial, ?_⟩
        · generalize o.call.method = m
          cases m with
          | «open» => exact Nat.two_pow_pos 31
          | close => rfl
          | write d => exact ⟨Nat.le_refl _, Classical.or_iff_not_imp_left.mpr
              List.length_pos_of_ne_nil⟩
        · intro o' ho'
          obtain rfl := Option.some.inj (ho.symm.trans ho')
          cases o.call.method with
          | «open» | close => trivial
          | write d => rfl
      · exact ⟨.complete 0, trivial, ⟨hstack, o, ho, hwaiting⟩, trivial, trivial⟩
  · exact ⟨.returns, trivial, hstack, trivial, trivial⟩

/-- `flush` starts at most one operation, or one `emit`. -/
theorem todo_flush (s : WriteStream) : s.flush.2.todo ≤ s.todo + 1 := by
  cases hbusy : s.busy with
  | true =>
    rw [flush_busy hbusy]
    exact Nat.le_succ _
  | false =>
    cases hqueue : s.queue with
    | nil =>
      rw [flush_nil hbusy hqueue]
      dsimp only
      split_ifs
      · simp only [todo, List.map_cons, List.sum_cons, Pending.todo]
        omega
      · exact Nat.le_succ _
    | cons call queue =>
      have hlength : s.queue.length = queue.length + 1 := by rw [hqueue, List.length_cons]
      rw [flush, if_neg (by simp [hbusy]), hqueue]
      dsimp only
      split
      · simp only [todo]
        omega
      · simp only [todo, List.map_append, List.map_singleton, List.sum_append, List.sum_singleton,
          Issued.todo, if_pos]
        omega

/-- The callback of an operation does less than the operation. -/
theorem todo_complete (s : WriteStream) (o : Issued) :
    (complete s o).2.todo ≤ s.todo + 2 := by
  have hstack (stack : List Pending) : todo { s with busy := false, stack := stack } =
      5 * s.queue.length + (s.inFlight.map Issued.todo).sum + (stack.map Pending.todo).sum := rfl
  obtain ⟨⟨method, cb⟩, fd, t, completion⟩ := o
  cases completion with
  | waiting => exact Nat.le_add_right s.todo 2
  | failed =>
    simp only [complete, todo, List.map_cons, List.sum_cons, Pending.todo]
    omega
  | done n =>
    cases method with
    | «open» | close =>
      simp only [complete, todo, List.map_cons, List.sum_cons, Pending.todo]
      omega
    | write d =>
      rw [complete]
      dsimp only
      split_ifs
      · simp only [todo, List.map_cons, List.sum_cons, Pending.todo]
        omega
      · exact (todo_flush _).trans (Nat.le_succ _)

theorem Ordered.todo_step (h : s.Ordered given) (hown : Own ev) (hallows : s.Allows ev)
    (hproper : s.Proper ev) : (s.step ev).todo < s.todo := by
  cases ev with
  | write d cb => exact hown.elim
  | «end» cb => exact hown.elim
  | fail i => exact hproper.elim
  | execute i n =>
    obtain ⟨o, ho, hwaiting, -⟩ := hallows
    obtain ⟨rfl, hflight⟩ := h.inFlight_eq ho
    rw [WriteStream.step, show s.inFlight[0]? = some o from ho]
    simp only [todo, hflight, List.set_cons_zero, List.map_singleton, List.sum_singleton,
      Issued.todo, hwaiting, if_true, reduceCtorEq, if_false]
    omega
  | complete i =>
    obtain ⟨-, o, ho, hdone⟩ := hallows
    obtain ⟨rfl, hflight⟩ := h.inFlight_eq ho
    rw [WriteStream.step, show s.inFlight[0]? = some o from ho]
    dsimp only
    have hrest := todo_complete { s with inFlight := s.inFlight.eraseIdx 0 } o
    have htodo : s.todo = todo { s with inFlight := s.inFlight.eraseIdx 0 } + 3 := by
      simp only [todo, hflight, List.eraseIdx_cons_zero, List.map_nil, List.map_singleton,
        List.sum_nil, List.sum_singleton, Issued.todo, if_neg hdone]
      omega
    omega
  | returns =>
    rw [WriteStream.step]
    split
    · rename_i stack hstack
      have hrest := todo_flush { s with stack := stack }
      have htodo : s.todo = todo { s with stack := stack } + 2 := by
        simp only [todo, hstack, List.map_cons, List.sum_cons, Pending.todo]
        omega
      omega
    · rename_i stack hstack
      simp only [todo, hstack, List.map_cons, List.sum_cons, Pending.todo]
      omega
    · exact absurd ‹s.stack = []› hallows

theorem Ordered.serial (h : s.Ordered given) (hsettled : s.Settled) : s.Serial given := by
  refine ⟨?_, h.order, h.fd, fun hquiet ↦ ?_, fun hquiet ↦ ?_, ?_⟩
  · cases h.flight with
    | running o before _ hflight => rw [hflight, List.length_singleton]
    | resting _ hflight =>
      rw [hflight]
      exact Nat.zero_le 1
  · cases h.flight with
    | running o before _ hflight =>
      cases hflight.symm.trans hquiet.1
    | resting hbusy =>
      by_contra hne
      have hmem := hsettled hbusy hne
      rw [hquiet.2] at hmem
      cases hmem
  · obtain ⟨ev, hown, hguard, hproper, -⟩ := h.exists_next hquiet
    exact ⟨ev, hown, hguard, hproper⟩
  · exact fun ev hown hallows hproper ↦ h.todo_step hown hallows hproper

/-- Whatever the callbacks and listeners write, and whenever operations are done, they are started
one at a time and in order. -/
theorem serial_of_proper (given : Option Int32) (content : Bytes)
    (h : (machine.restrict Proper).Reaches (create given content) s) : s.Serial given := by
  have hinv : s.Ordered given ∧ s.Settled := by
    refine h.invariant (p := fun s ↦ s.Ordered given ∧ s.Settled) (create_ordered given content) ?_
    rintro s t ev ⟨hordered, hsettled⟩ ⟨hallows, hproper⟩ ht
    obtain rfl := Except.ok.inj ht
    exact hordered.step hsettled hallows hproper
  exact hinv.1.serial hinv.2

/-- A listener of `'open'` writes, and a callback ends the stream. -/
theorem serial_of_proper_close : ∃ s : WriteStream, s.Serial none ∧ s.Quiet ∧
    s.issued = [(⟨.open, none⟩, none), (⟨.write ⟨false, [1], by decide⟩, some 0⟩, some 3),
      (⟨.write ⟨true, [2, 3], by decide⟩, none⟩, some 3), (⟨.close, none⟩, some 3)] := by
  have hrun : ∃ s ∈ (machine.restrict Proper).run (create none [9])
      [.write ⟨false, [1], by decide⟩ (some 0), .execute 0 3, .complete 0,
        .write ⟨true, [2, 3], by decide⟩ none, .returns, .execute 0 1, .complete 0, .end none,
        .returns, .execute 0 2, .complete 0, .execute 0 0, .complete 0, .returns],
      s.Quiet ∧
      s.issued = [(⟨.open, none⟩, none), (⟨.write ⟨false, [1], by decide⟩, some 0⟩, some 3),
        (⟨.write ⟨true, [2, 3], by decide⟩, none⟩, some 3), (⟨.close, none⟩, some 3)] := by
    decide +kernel
  obtain ⟨s, hs, hquiet, hissued⟩ := hrun
  exact ⟨s, serial_of_proper none [9] (Machine.reaches_of_run hs), hquiet, hissued⟩

end WriteStream

end SpiderNode.Files
