import SpiderNode.Files.Position
import SpiderNode.Machine.Runs

/-!
# `fs.ReadStream`

The stream of `lib/fs.js`, with the thread pool that reads for it. `_read` requests bytes; a thread
gets them, as many as the kernel gives; and `afterRead` emits them and reads on. If the stream is
paused, `afterRead` keeps them in `this.buffer` instead, and `resume` emits them later.

Listeners run in the middle of this. A call of `emit` leaves a `Frame` behind that says what is left
to do when the listeners have returned, so that they can call `pause` and `resume` in between.
Requests are executed and their callbacks called in any order.

There is no flag for a request that is in flight, and `this.buffer` is cleared only behind its
listeners. `resume` thus begins a second read, which can come in first, or it emits a chunk twice.
A range has faults of its own: `this.pos` moves by what is requested and not by what is read, and
beyond `2 ^ 31` it does not count at all. `delivers_of_calm` says that nothing else goes wrong.
-/

namespace SpiderNode.Files

open Net (JsError)

def kMinPoolSpace : ℕ := 128

def kPoolSize : ℕ := 40 * 1024

/-- How far a request has come. -/
inductive Progress where
  | waiting
  /-- A thread has read these bytes. -/
  | done (b : Bytes)
  | failed
  deriving DecidableEq, Repr

/-- A call of `fs.read` of which the callback has not been called. -/
structure ReadRequest where
  toRead : ℕ
  position : JsVal
  progress : Progress
  deriving DecidableEq, Repr

/-- A call of `emit` that has not returned, by what comes behind it. -/
inductive Frame where
  /-- `'open'` -/
  | opened
  /-- `'data'`, in `afterRead` -/
  | data
  /-- `'data'`, in `resume` -/
  | resumed
  /-- `'end'` -/
  | ended
  /-- `'error'` -/
  | failed
  deriving DecidableEq, Repr

/-- `_read` comes behind the listeners. -/
def Frame.reads : Frame → Bool
  | opened | data | resumed => true
  | ended | failed => false

/-- A stream, its file, and what it has emitted. -/
structure ReadStream where
  content : Bytes
  /-- The position of the file, in the kernel. -/
  offset : ℕ
  /-- `this.fd !== null` -/
  opened : Bool
  /-- The callback of `fs.open` is still to come. -/
  opening : Bool
  readable : Bool
  paused : Bool
  bufferSize : ℕ
  start : Option ℕ
  stop : Option ℕ
  firstRead : Bool
  pos : Option ℕ
  /-- `pool.used`, if there is a pool. -/
  used : Option ℕ
  buffer : Option Bytes
  inFlight : List ReadRequest
  stack : List Frame
  emitted : List Bytes
  /-- How often `'end'` has been emitted. -/
  ends : ℕ
  deriving DecidableEq, Repr

/-- The options of a stream that it reads by. -/
structure StreamOptions where
  bufferSize : ℕ
  start : Option ℕ
  stop : Option ℕ
  /-- Whether the file is opened by the caller. -/
  fd : Bool
  deriving DecidableEq, Repr

/-- The options of `fs.createReadStream(path)`. -/
def StreamOptions.default : StreamOptions := ⟨64 * 1024, none, none, false⟩

/-- The bytes of a file that a stream is to emit. -/
def StreamOptions.span (content : Bytes) (o : StreamOptions) : Bytes :=
  match o.start, o.stop with
  | some start, some stop => (content.take (stop + 1)).drop start
  | _, _ => content

namespace ReadStream

/-- `new ReadStream(path, options)`. No listener is there yet that could take an error, so that
`emit` throws it. -/
def create (content : Bytes) (o : StreamOptions) : Except JsError ReadStream :=
  let s : ReadStream :=
    { content := content
      offset := 0
      opened := o.fd
      opening := !o.fd
      readable := true
      paused := false
      bufferSize := o.bufferSize
      start := o.start
      stop := o.stop
      firstRead := false
      pos := none
      used := none
      buffer := none
      inFlight := []
      stack := []
      emitted := []
      ends := 0 }
  match o.start, o.stop with
  | none, none => .ok s
  | some start, some stop =>
    if stop < start then .error (.error "start must be <= end")
    else .ok { s with firstRead := true }
  | _, _ => .error (.error "Both start and end are needed for range streaming.")

variable (s : ReadStream)

/-- `pool.used`, with a new pool if there is none or little space. -/
def ensurePool : ℕ :=
  match s.used with
  | some used => if kPoolSize - used < kMinPoolSpace then 0 else used
  | none => 0

/-- `pool.length - pool.used` -/
def room : ℕ := kPoolSize - s.ensurePool

/-- `this.pos`, as the next read finds it. -/
def nextPos : Option ℕ := if s.start.isSome ∧ s.firstRead then s.start else s.pos

/-- The number of bytes of the next read. -/
def nextSize : ℕ :=
  let toRead := min s.room s.bufferSize
  match s.nextPos with
  | some pos => min (s.stop.getD 0 + 1 - pos) toRead
  | none => toRead

/-- The request that the next read makes. -/
def nextRequest : ReadRequest where
  toRead := s.nextSize
  position := s.nextPos.elim .undefined fun pos ↦ .number pos
  progress := .waiting

/-- The rest of `_read`, if the stream is to read. -/
def request : ReadStream :=
  { s with
    used := some (s.ensurePool + s.nextSize)
    firstRead := if s.start.isSome then false else s.firstRead
    pos := s.nextPos.map (· + s.nextSize)
    inFlight := s.inFlight ++ [s.nextRequest] }

/-- `ReadStream.prototype._read` -/
def read : ReadStream := if ¬s.readable ∨ s.paused then s else s.request

/-- `emit` of a chunk. -/
def emitData (b : Bytes) (frame : Frame) : ReadStream :=
  { s with emitted := s.emitted ++ [b], stack := frame :: s.stack }

/-- `ReadStream.prototype.resume` -/
def resume : ReadStream :=
  let s := { s with paused := false }
  match s.buffer with
  | some b => s.emitData b .resumed
  | none => if s.opened then s.read else s

/-- `afterRead` -/
def afterRead : Progress → ReadStream
  | .waiting => s
  | .failed => { s with stack := .failed :: s.stack }
  | .done [] => { s with ends := s.ends + 1, stack := .ended :: s.stack }
  | .done b =>
    if s.paused then { s with buffer := some b }
    else if ¬s.readable then s
    else s.emitData b .data

/-- What comes behind the listeners. -/
def behind : Frame → ReadStream
  | .opened | .data => s.read
  | .resumed =>
    let s := { s with buffer := none }
    if s.opened then s.read else s
  -- `destroy`, which closes the file as well
  | .ended => { s with readable := false }
  | .failed => { s with readable := false }

/-- The position that a request reads from. -/
def source (r : ReadRequest) : ℕ :=
  match place r.position.getOffset with
  | .current => s.offset
  | .at p => p.toNat

/-- The number of bytes that a request can get. -/
def available (r : ReadRequest) : ℕ := min r.toRead (s.content.length - s.source r)

/-- A thread reads `n` bytes for the request at index `i`. -/
def execute (i n : ℕ) (r : ReadRequest) : ReadStream :=
  let b := (s.content.drop (s.source r)).take n
  { s with
    offset := if place r.position.getOffset = .current then s.offset + n else s.offset
    inFlight := s.inFlight.set i { r with progress := .done b } }

/-- What happens to a stream. -/
inductive StreamEvent where
  | open
  | openFails
  | pause
  | resume
  /-- The listeners of the last `emit` return. -/
  | returns
  /-- A thread gets `n` bytes for a request, or fails. -/
  | execute (i n : ℕ)
  | fail (i : ℕ)
  /-- The callback of a request. -/
  | deliver (i : ℕ)
  /-- Another stream uses the pool. -/
  | usePool (used : ℕ)
  deriving DecidableEq, Repr

/-- Callbacks run one at a time, and behind all listeners. A read gets a byte at least, unless it is
at the end of the file or asks for none. -/
def Allows (s : ReadStream) : StreamEvent → Prop
  | .open | .openFails => s.opening ∧ s.stack = []
  | .pause | .resume => True
  | .returns => s.stack ≠ []
  | .execute i n =>
    ∃ r ∈ s.inFlight[i]?, r.progress = .waiting ∧ n ≤ s.available r ∧ (s.available r = 0 ∨ 0 < n)
  | .fail i => ∃ r ∈ s.inFlight[i]?, r.progress = .waiting
  | .deliver i => s.stack = [] ∧ ∃ r ∈ s.inFlight[i]?, r.progress ≠ .waiting
  | .usePool used => used ≤ kPoolSize

instance (s : ReadStream) : DecidablePred s.Allows
  | .open | .openFails => inferInstanceAs (Decidable (s.opening ∧ s.stack = []))
  | .pause | .resume => inferInstanceAs (Decidable True)
  | .returns => inferInstanceAs (Decidable (s.stack ≠ []))
  | .execute i n =>
    inferInstanceAs (Decidable (∃ r ∈ s.inFlight[i]?, r.progress = .waiting ∧ n ≤ s.available r ∧
      (s.available r = 0 ∨ 0 < n)))
  | .fail i => inferInstanceAs (Decidable (∃ r ∈ s.inFlight[i]?, r.progress = .waiting))
  | .deliver i =>
    inferInstanceAs (Decidable (s.stack = [] ∧ ∃ r ∈ s.inFlight[i]?, r.progress ≠ .waiting))
  | .usePool used => inferInstanceAs (Decidable (used ≤ kPoolSize))

def step : StreamEvent → ReadStream
  | .open => { s with opened := true, opening := false, stack := .opened :: s.stack }
  | .openFails => { s with opening := false, stack := .failed :: s.stack }
  | .pause => { s with paused := true }
  | .resume => s.resume
  | .returns =>
    match s.stack with
    | [] => s
    | frame :: stack => { s with stack := stack }.behind frame
  | .execute i n =>
    match s.inFlight[i]? with
    | some r => s.execute i n r
    | none => s
  | .fail i =>
    match s.inFlight[i]? with
    | some r => { s with inFlight := s.inFlight.set i { r with progress := .failed } }
    | none => s
  | .deliver i =>
    match s.inFlight[i]? with
    | some r => { s with inFlight := s.inFlight.eraseIdx i }.afterRead r.progress
    | none => s
  | .usePool used => { s with used := some used }

def machine : Machine ReadStream StreamEvent Empty := ⟨Allows, fun s ev ↦ .ok (s.step ev)⟩

instance (s : ReadStream) (ev : StreamEvent) : Decidable (machine.guard s ev) :=
  inferInstanceAs (Decidable (s.Allows ev))

/-- The stream has emitted the bytes once and in order, and all of them if it has ended. -/
structure Delivers (span : Bytes) (s : ReadStream) : Prop where
  isPrefix : s.emitted.flatten <+: span
  complete : 0 < s.ends → s.emitted.flatten = span
  once : s.ends ≤ 1

/-- A read may begin: there is no other one, the stream has not ended, it has not failed within a
range, and it does not ask for nothing. -/
def Ready : Prop :=
  s.inFlight = [] ∧ .ended ∉ s.stack ∧ (.failed ∈ s.stack → s.pos = none) ∧ 0 < s.bufferSize

instance : Decidable s.Ready :=
  inferInstanceAs (Decidable (s.inFlight = [] ∧ .ended ∉ s.stack ∧
    (.failed ∈ s.stack → s.pos = none) ∧ 0 < s.bufferSize))

/-- A condition on steps. One that begins a read does so when the stream is ready, a chunk is not
emitted again by its own listeners, and within a range there is no short read, and none at a
position that is lost. -/
def Calm (s : ReadStream) : StreamEvent → Prop
  | .resume =>
    (s.buffer = none → s.opened → s.readable → s.Ready) ∧ (s.buffer ≠ none → .resumed ∉ s.stack)
  | .returns =>
    s.opened → s.readable → s.paused = false → (∀ frame ∈ s.stack.head?, frame.reads) →
      s.Ready
  | .execute i n =>
    ∀ r ∈ s.inFlight[i]?, s.pos ≠ none → 0 ≤ r.position.getOffset ∧ n = s.available r
  | _ => True

instance (s : ReadStream) : DecidablePred s.Calm
  | .resume =>
    inferInstanceAs (Decidable ((s.buffer = none → s.opened → s.readable → s.Ready) ∧
      (s.buffer ≠ none → .resumed ∉ s.stack)))
  | .returns =>
    inferInstanceAs (Decidable (s.opened → s.readable → s.paused = false →
      (∀ frame ∈ s.stack.head?, frame.reads) → s.Ready))
  | .execute i n =>
    inferInstanceAs (Decidable (∀ r ∈ s.inFlight[i]?, s.pos ≠ none →
      0 ≤ r.position.getOffset ∧ n = s.available r))
  | .open | .openFails | .pause | .fail _ | .deliver _ | .usePool _ =>
    inferInstanceAs (Decidable True)

/-! ## Where the stream is -/

/-- The bytes that the stream is to emit. -/
def span : Bytes :=
  match s.start with
  | some start => (s.content.take (s.stop.getD 0 + 1)).drop start
  | none => s.content

/-- The next read is at index `k` of these. -/
structure At (k : ℕ) : Prop where
  whole : s.start = none → s.pos = none ∧ s.offset = k
  range : ∀ {start}, s.start = some start →
    s.nextPos = some (start + k) ∧ start + k ≤ s.stop.getD 0 + 1

/-- A request reads at index `k`, and the next one behind it. -/
structure Asks (r : ReadRequest) (k : ℕ) : Prop where
  whole : s.start = none →
    r.position = .undefined ∧ s.pos = none ∧ s.offset = k ∧ 0 < r.toRead
  range : ∀ {start}, s.start = some start →
    r.position = .number (start + k : ℕ) ∧ s.pos = some (start + k + r.toRead) ∧
      s.firstRead = false ∧ start + k + r.toRead ≤ s.stop.getD 0 + 1 ∧
      (r.toRead = 0 → s.stop.getD 0 + 1 ≤ start + k)

variable {s}

theorem room_pos (s : ReadStream) : 0 < s.room := by
  rw [room, Nat.sub_pos_iff_lt, ensurePool]
  split
  · split_ifs with hused
    · decide
    · rw [kMinPoolSpace] at hused
      omega
  · decide

theorem request_asks {k : ℕ} (h : s.At k) (hsize : 0 < s.bufferSize) :
    s.request.Asks s.nextRequest k := by
  have hroom := s.room_pos
  constructor
  · intro hstart
    obtain ⟨hpos, hoffset⟩ := h.whole hstart
    have hnext : s.nextPos = none := by
      rw [nextPos, hpos]
      exact ite_eq_right_iff.mpr fun _ ↦ hstart
    have hread : s.nextSize = min s.room s.bufferSize := by
      simp only [nextSize, hnext]
    refine ⟨?_, ?_, hoffset, ?_⟩
    · simp only [nextRequest, hnext, Option.elim_none]
    · simp only [request, hnext, Option.map_none]
    · change 0 < s.nextSize
      omega
  · intro start hstart
    obtain ⟨hnext, hle⟩ := h.range hstart
    have hread : s.nextSize =
        min (s.stop.getD 0 + 1 - (start + k)) (min s.room s.bufferSize) := by
      simp only [nextSize, hnext]
    refine ⟨?_, ?_, ?_, ?_, ?_⟩
    · rw [nextRequest, hnext, Option.elim_some]
    · simp only [request, nextRequest, hnext, Option.map_some]
    · exact if_pos (congrArg Option.isSome hstart)
    · change start + k + s.nextSize ≤ s.stop.getD 0 + 1
      omega
    · change s.nextSize = 0 → s.stop.getD 0 + 1 ≤ start + k
      omega

/-- A part of the file is read on from index `k` of that part. -/
theorem take_append_read_range {content : Bytes} {start stop k n m : ℕ}
    (hle : start + k + n ≤ stop + 1) (hm : m = min n (content.length - (start + k))) :
    ((content.take (stop + 1)).drop start).take k ++ (content.drop (start + k)).take m =
      ((content.take (stop + 1)).drop start).take (k + n) := by
  have hread : (content.drop (start + k)).take m = (content.drop (start + k)).take n := by
    rw [hm, ← List.length_drop, ← List.take_take, List.take_length]
  rw [List.take_add (i := k), List.drop_drop, List.drop_take (i := start + k), List.take_take,
    Nat.min_eq_left (by omega), hread]

theorem source_of_undefined {r : ReadRequest} (h : r.position = .undefined) :
    s.source r = s.offset := by
  rw [source, h]
  rfl

theorem source_of_number {r : ReadRequest} {p : ℕ} (h : r.position = .number p)
    (hpos : 0 ≤ r.position.getOffset) : s.source r = p := by
  have hoffset : r.position.getOffset = p := by
    rw [h, getOffset_number] at hpos ⊢
    split_ifs at hpos ⊢
    · rfl
    · omega
  rw [source, hoffset, place, if_neg (by omega)]
  rfl

/-- What a thread reads comes next, and if it is nothing then nothing is left. -/
theorem execute_at {r : ReadRequest} {i k n : ℕ} (h : s.Asks r k)
    (hpos : s.available r = 0 ∨ 0 < n)
    (hcalm : s.pos ≠ none → 0 ≤ r.position.getOffset ∧ n = s.available r) :
    ∃ k', (s.execute i n r).At k' ∧
      s.span.take k ++ (s.content.drop (s.source r)).take n = s.span.take k' ∧
      ((s.content.drop (s.source r)).take n = [] → s.span.length ≤ k') := by
  cases hstart : s.start with
  | none =>
    obtain ⟨hposition, hnone, hoffset, hread⟩ := h.whole hstart
    have hspan : s.span = s.content := by simp only [span, hstart]
    rw [available, source_of_undefined hposition, hoffset] at hpos
    rw [source_of_undefined hposition, hoffset, hspan]
    refine ⟨k + n, ⟨fun _ ↦ ⟨hnone, ?_⟩, ?_⟩, List.take_add.symm, fun hnil ↦ ?_⟩
    · change (if place r.position.getOffset = .current then s.offset + n else s.offset) = k + n
      rw [hposition, hoffset]
      rfl
    · intro start hsome
      exact absurd (hstart.symm.trans hsome) (Option.some_ne_none start).symm
    · rw [List.take_eq_nil_iff, List.drop_eq_nil_iff] at hnil
      omega
  | some start =>
    obtain ⟨hposition, hnext, hfirst, hend, hread⟩ := h.range hstart
    have hspan : s.span = (s.content.take (s.stop.getD 0 + 1)).drop start := by
      simp only [span, hstart]
    obtain ⟨hoffset, hn⟩ := hcalm (hnext ▸ Option.some_ne_none _)
    have hsource : s.source r = _ := source_of_number hposition hoffset
    rw [available, hsource] at hn
    rw [hsource, hspan]
    refine ⟨k + r.toRead, ⟨fun hnone ↦ ?_, ?_⟩, take_append_read_range hend hn, fun hnil ↦ ?_⟩
    · exact absurd (hstart.symm.trans hnone) (Option.some_ne_none start)
    · intro start' hsome
      obtain rfl : start = start' := Option.some.inj (hstart.symm.trans hsome)
      refine ⟨?_, ?_⟩
      · change (if s.start.isSome ∧ s.firstRead then s.start else s.pos) = _
        rw [hfirst, if_neg (by simp), hnext, Nat.add_assoc]
      · rw [← Nat.add_assoc]
        exact hend
    · rw [List.take_eq_nil_iff, List.drop_eq_nil_iff] at hnil
      rw [List.length_drop, List.length_take]
      omega

/-! ## The phases of a stream -/

/-- No read may begin any more. -/
def Over (s : ReadStream) : Prop :=
  s.readable = false ∨ .ended ∈ s.stack ∨ .failed ∈ s.stack ∧ s.pos ≠ none

/-- Where a chunk is between the file and the listeners. In a calm run there is never more than
one. -/
inductive Phase (s : ReadStream) : Prop
  /-- There is none. -/
  | idle (k : ℕ) (hat : s.At k) (hemitted : s.emitted.flatten = s.span.take k)
      (hflight : s.inFlight = []) (hbuffer : s.buffer = none) (hends : s.ends = 0)
  | waiting (k : ℕ) (r : ReadRequest) (hasks : s.Asks r k)
      (hemitted : s.emitted.flatten = s.span.take k) (hflight : s.inFlight = [r])
      (hr : r.progress = .waiting) (hbuffer : s.buffer = none) (hends : s.ends = 0)
  | done (k : ℕ) (r : ReadRequest) (b : Bytes) (hat : s.At k)
      (hemitted : s.emitted.flatten ++ b = s.span.take k) (hlast : b = [] → s.span.length ≤ k)
      (hflight : s.inFlight = [r]) (hr : r.progress = .done b) (hbuffer : s.buffer = none)
      (hends : s.ends = 0)
  /-- A read has failed. Within a range the next one would skip what it was to read. -/
  | failed (r : ReadRequest) (hemitted : s.emitted.flatten <+: s.span)
      (hat : s.pos = none → ∃ k, s.At k ∧ s.emitted.flatten = s.span.take k)
      (hflight : s.inFlight = [r]) (hr : r.progress = .failed) (hbuffer : s.buffer = none)
      (hends : s.ends = 0)
  /-- It is in `this.buffer`, and if the stream is resumed then it has been emitted as well. -/
  | parked (k : ℕ) (b : Bytes) (hat : s.At k)
      (hemitted : s.stack = [] ∧ s.emitted.flatten ++ b = s.span.take k ∨
        s.stack = [.resumed] ∧ s.emitted.flatten = s.span.take k)
      (hflight : s.inFlight = []) (hbuffer : s.buffer = some b) (hends : s.ends = 0)
  | spent (hemitted : s.emitted.flatten <+: s.span)
      (hends : s.ends = 0 ∨ s.ends = 1 ∧ s.emitted.flatten = s.span)
      (hover : s.Over)
      (hflight : s.inFlight = []) (hbuffer : s.buffer = none)

/-- The invariant of calm runs. -/
structure Orderly (s : ReadStream) : Prop where
  phase : s.Phase
  stack_le : s.stack.length ≤ 1
  resumed : .resumed ∈ s.stack → s.buffer ≠ none
  closed : s.opened = false → s.inFlight = [] ∧ s.buffer = none ∧ ∀ frame ∈ s.stack, frame = .failed
  opening : s.opening → s.opened = false

theorem Phase.delivers (h : s.Phase) : s.Delivers s.span := by
  cases h with
  | idle k _ hemitted _ _ hends | waiting k _ _ hemitted _ _ _ hends =>
    exact ⟨hemitted ▸ List.take_prefix _ _, fun h ↦ by omega, by omega⟩
  | done k r b _ hemitted _ _ _ _ hends =>
    have hprefix : s.emitted.flatten ++ b <+: s.span := hemitted ▸ List.take_prefix _ _
    exact ⟨(List.prefix_append _ b).trans hprefix, fun h ↦ by omega, by omega⟩
  | failed _ hemitted _ _ _ _ hends => exact ⟨hemitted, fun h ↦ by omega, by omega⟩
  | parked k b _ hemitted _ _ hends =>
    refine ⟨?_, fun h ↦ by omega, by omega⟩
    obtain ⟨-, hemitted⟩ | ⟨-, hemitted⟩ := hemitted
    · have hprefix : s.emitted.flatten ++ b <+: s.span := hemitted ▸ List.take_prefix _ _
      exact (List.prefix_append _ b).trans hprefix
    · exact hemitted ▸ List.take_prefix _ _
  | spent hemitted hends =>
    refine ⟨hemitted, fun h ↦ ?_, by omega⟩
    exact (hends.resolve_left (by omega)).2

theorem afterRead_cons (s : ReadStream) (byte : UInt8) (b : Bytes) :
    s.afterRead (.done (byte :: b)) =
      if s.paused then { s with buffer := some (byte :: b) }
      else if ¬s.readable then s else s.emitData (byte :: b) .data := rfl

namespace Phase

/-- Nothing moves a chunk but reads, callbacks and listeners. -/
theorem frame (h : s.Phase) {opened opening readable paused : Bool} {used : Option ℕ}
    {stack : List Frame} (hstack : s.buffer ≠ none → stack = s.stack)
    (hover : s.Over → Over { s with readable := readable, stack := stack }) :
    Phase
      { s with
        opened := opened
        opening := opening
        readable := readable
        paused := paused
        used := used
        stack := stack } := by
  cases h with
  | idle k hat hemitted hflight hbuffer hends =>
    exact .idle k ⟨hat.whole, hat.range⟩ hemitted hflight hbuffer hends
  | waiting k r hasks hemitted hflight hr hbuffer hends =>
    exact .waiting k r ⟨hasks.whole, hasks.range⟩ hemitted hflight hr hbuffer hends
  | done k r b hat hemitted hlast hflight hr hbuffer hends =>
    exact .done k r b ⟨hat.whole, hat.range⟩ hemitted hlast hflight hr hbuffer hends
  | failed r hemitted hat hflight hr hbuffer hends =>
    refine .failed r hemitted (fun hpos ↦ ?_) hflight hr hbuffer hends
    obtain ⟨k, hk, hemitted⟩ := hat hpos
    exact ⟨k, ⟨hk.whole, hk.range⟩, hemitted⟩
  | parked k b hat hemitted hflight hbuffer hends =>
    obtain rfl : stack = s.stack := hstack (hbuffer ▸ Option.some_ne_none b)
    exact .parked k b ⟨hat.whole, hat.range⟩ hemitted hflight hbuffer hends
  | spent hemitted hends h hflight hbuffer =>
    exact .spent hemitted hends (hover h) hflight hbuffer

/-- A read begins. -/
theorem read (h : s.Phase) (hbuffer : s.buffer = none)
    (hready : s.readable → s.paused = false → s.Ready) : s.read.Phase := by
  rw [ReadStream.read]
  split_ifs with hread
  · exact h
  · rw [not_or, not_not, Bool.not_eq_true] at hread
    obtain ⟨hflight, hended, hfailed, hsize⟩ := hready hread.1 hread.2
    cases h with
    | idle k hat hemitted _ _ hends =>
      refine .waiting k s.nextRequest (request_asks hat hsize) hemitted ?_ rfl hbuffer hends
      exact congrArg (· ++ [s.nextRequest]) hflight
    | waiting _ _ _ _ h | done _ _ _ _ _ _ h | failed _ _ _ h =>
      rw [hflight] at h
      cases h
    | parked _ _ _ _ _ h =>
      rw [hbuffer] at h
      cases h
    | spent _ _ hover =>
      obtain hover | hover | ⟨hover, hpos⟩ := hover
      · rw [hread.1] at hover
        cases hover
      · exact absurd hover hended
      · exact absurd (hfailed hover) hpos

/-- The chunk in `this.buffer` is emitted. -/
theorem emitData (h : s.Phase) {b : Bytes} (hbuffer : s.buffer = some b)
    (hstack : .resumed ∉ s.stack) : (s.emitData b .resumed).Phase ∧ s.stack = [] := by
  cases h with
  | parked k b' hat hemitted hflight hbuffer' hends =>
    obtain rfl : b = b' := Option.some.inj (hbuffer.symm.trans hbuffer')
    obtain ⟨hnil, hemitted⟩ | ⟨hresumed, -⟩ := hemitted
    · refine ⟨.parked k b ⟨hat.whole, hat.range⟩ (.inr ⟨?_, ?_⟩) hflight hbuffer hends, hnil⟩
      · exact congrArg (Frame.resumed :: ·) hnil
      · change (s.emitted ++ [b]).flatten = s.span.take k
        rw [List.flatten_append, List.flatten_singleton, hemitted]
    · rw [hresumed] at hstack
      exact absurd (List.mem_singleton_self _) hstack
  | idle _ _ _ _ h | waiting _ _ _ _ _ _ h | done _ _ _ _ _ _ _ _ h | failed _ _ _ _ _ h
  | spent _ _ _ _ h =>
    rw [hbuffer] at h
    cases h

theorem buffer_eq_none (h : s.Phase) {frame : Frame} (hstack : s.stack = [frame])
    (hframe : frame ≠ .resumed) : s.buffer = none := by
  cases h with
  | parked k b _ hemitted =>
    rw [hstack] at hemitted
    obtain ⟨hnil, -⟩ | ⟨hresumed, -⟩ := hemitted
    · cases hnil
    · exact absurd (List.head_eq_of_cons_eq hresumed) hframe
  | idle _ _ _ _ h | waiting _ _ _ _ _ _ h | done _ _ _ _ _ _ _ _ h | failed _ _ _ _ _ h
  | spent _ _ _ _ h => exact h

/-- The chunk has been emitted, and it is cleared. -/
theorem clear (h : s.Phase) (hstack : s.stack = [.resumed]) (hbuffer : s.buffer ≠ none) :
    Phase { s with stack := [], buffer := none } := by
  cases h with
  | parked k b hat hemitted hflight _ hends =>
    rw [hstack] at hemitted
    obtain ⟨hnil, -⟩ | ⟨-, hemitted⟩ := hemitted
    · cases hnil
    · exact .idle k ⟨hat.whole, hat.range⟩ hemitted hflight rfl hends
  | idle _ _ _ _ h | waiting _ _ _ _ _ _ h | done _ _ _ _ _ _ _ _ h | failed _ _ _ _ _ h
  | spent _ _ _ _ h => exact absurd h hbuffer

/-- A request is in flight in three phases, and it is the only one. -/
theorem exists_inFlight (h : s.Phase) {i : ℕ} {r : ReadRequest} (hr : s.inFlight[i]? = some r) :
    i = 0 ∧ s.inFlight = [r] ∧ s.buffer = none ∧ s.ends = 0 := by
  have hone {r' : ReadRequest} (hflight : s.inFlight = [r']) : i = 0 ∧ s.inFlight = [r] := by
    rw [hflight, List.getElem?_singleton] at hr
    split_ifs at hr with hi
    exact ⟨hi, Option.some.inj hr ▸ hflight⟩
  cases h with
  | waiting _ r' _ _ hflight _ hbuffer hends | done _ r' _ _ _ _ hflight _ hbuffer hends
  | failed r' _ _ hflight _ hbuffer hends =>
    exact ⟨(hone hflight).1, (hone hflight).2, hbuffer, hends⟩
  | idle _ _ _ hflight | parked _ _ _ _ hflight | spent _ _ _ hflight =>
    rw [hflight] at hr
    cases hr

theorem exists_asks (h : s.Phase) {i : ℕ} {r : ReadRequest} (hr : s.inFlight[i]? = some r)
    (hprogress : r.progress = .waiting) :
    ∃ k, s.Asks r k ∧ s.emitted.flatten = s.span.take k := by
  obtain ⟨-, hone, -⟩ := h.exists_inFlight hr
  cases h with
  | waiting k r' hasks hemitted hflight =>
    rw [hone] at hflight
    exact ⟨k, List.head_eq_of_cons_eq hflight ▸ hasks, hemitted⟩
  | done _ _ _ _ _ _ hflight hdone | failed _ _ _ hflight hdone =>
    rw [hone] at hflight
    rw [← List.head_eq_of_cons_eq hflight, hprogress] at hdone
    cases hdone
  | idle _ _ _ hflight | parked _ _ _ _ hflight | spent _ _ _ hflight =>
    rw [hone] at hflight
    cases hflight

/-- A thread reads for a request. -/
theorem execute (h : s.Phase) {i n : ℕ} {r : ReadRequest} (hr : s.inFlight[i]? = some r)
    (hprogress : r.progress = .waiting) (hpos : s.available r = 0 ∨ 0 < n)
    (hcalm : s.pos ≠ none → 0 ≤ r.position.getOffset ∧ n = s.available r) :
    (s.execute i n r).Phase := by
  obtain ⟨rfl, hone, hbuffer, hends⟩ := h.exists_inFlight hr
  obtain ⟨k, hasks, hemitted⟩ := h.exists_asks hr hprogress
  obtain ⟨k', hat, htake, hlast⟩ := execute_at (i := 0) hasks hpos hcalm
  refine .done k' { r with progress := .done _ } _ hat ?_ hlast ?_ rfl hbuffer hends
  · change s.emitted.flatten ++ _ = s.span.take k'
    rw [hemitted, htake]
  · change s.inFlight.set 0 _ = _
    rw [hone]
    rfl

/-- A thread fails. -/
theorem fail (h : s.Phase) {i : ℕ} {r : ReadRequest} (hr : s.inFlight[i]? = some r)
    (hprogress : r.progress = .waiting) :
    Phase { s with inFlight := s.inFlight.set i { r with progress := .failed } } := by
  obtain ⟨rfl, hone, hbuffer, hends⟩ := h.exists_inFlight hr
  obtain ⟨k, hasks, hemitted⟩ := h.exists_asks hr hprogress
  refine .failed { r with progress := .failed } h.delivers.isPrefix
    (fun hpos ↦ ⟨k, ⟨fun hstart ↦ ?_, fun hstart ↦ ?_⟩, hemitted⟩) ?_ rfl hbuffer hends
  · obtain ⟨-, hnone, hoffset, -⟩ := hasks.whole hstart
    exact ⟨hnone, hoffset⟩
  · obtain ⟨-, hsome, -⟩ := hasks.range hstart
    cases hsome.symm.trans hpos
  · change s.inFlight.set 0 _ = _
    rw [hone]
    rfl

/-- A callback is called. -/
theorem deliver (h : s.Phase) {i : ℕ} {r : ReadRequest} (hr : s.inFlight[i]? = some r)
    (hstack : s.stack = []) (hprogress : r.progress ≠ .waiting) :
    ({ s with inFlight := s.inFlight.eraseIdx i }.afterRead r.progress).Phase := by
  have hdelivers := h.delivers
  obtain ⟨rfl, hone, hbuffer, hends⟩ := h.exists_inFlight hr
  have hnil : s.inFlight.eraseIdx 0 = [] := by
    rw [hone]
    rfl
  cases h with
  | waiting k r' _ _ hflight hr' =>
    rw [hone] at hflight
    exact absurd (List.head_eq_of_cons_eq hflight ▸ hr') hprogress
  | failed r' hemitted hat hflight hr' =>
    rw [hone] at hflight
    rw [List.head_eq_of_cons_eq hflight, hr', hnil]
    by_cases hpos : s.pos = none
    · obtain ⟨k, hk, hemitted⟩ := hat hpos
      exact .idle k ⟨hk.whole, hk.range⟩ hemitted rfl hbuffer hends
    · exact .spent hemitted (.inl hends) (.inr (.inr ⟨List.mem_cons_self, hpos⟩)) rfl hbuffer
  | done k r' b hat hemitted hlast hflight hr' =>
    rw [hone] at hflight
    rw [List.head_eq_of_cons_eq hflight, hr', hnil]
    cases b with
    | nil =>
      rw [List.append_nil, List.take_of_length_le (hlast rfl)] at hemitted
      exact .spent hdelivers.isPrefix (.inr ⟨congrArg (· + 1) hends, hemitted⟩)
        (.inr (.inl List.mem_cons_self)) rfl hbuffer
    | cons byte b =>
      rw [afterRead_cons]
      split_ifs with hpaused hreadable
      · exact .parked k _ ⟨hat.whole, hat.range⟩ (.inl ⟨hstack, hemitted⟩) rfl rfl hends
      · refine .idle k ⟨hat.whole, hat.range⟩ ?_ rfl hbuffer hends
        change (s.emitted ++ [byte :: b]).flatten = s.span.take k
        rw [List.flatten_append, List.flatten_singleton, hemitted]
      -- The stream has failed in the meantime, and the chunk is lost.
      · exact .spent hdelivers.isPrefix (.inl hends) (.inl (by simpa using hreadable)) rfl hbuffer
  | idle _ _ _ hflight | parked _ _ _ _ hflight | spent _ _ _ hflight =>
    rw [hone] at hflight
    cases hflight

end Phase

theorem create_orderly {content : Bytes} {o : StreamOptions} (h : create content o = .ok s) :
    s.Orderly ∧ s.span = o.span content := by
  have hopening : (!o.fd) = true → o.fd = false := by simp
  unfold create at h
  dsimp only at h
  split at h
  next hstart hstop =>
    obtain rfl := Except.ok.inj h
    refine ⟨⟨.idle 0 ⟨fun _ ↦ ⟨rfl, rfl⟩, fun h ↦ ?_⟩ rfl rfl rfl rfl, Nat.zero_le 1,
      fun h ↦ absurd h List.not_mem_nil, fun _ ↦ ⟨rfl, rfl, fun _ h ↦ absurd h List.not_mem_nil⟩,
      hopening⟩, ?_⟩
    · cases hstart.symm.trans h
    · simp only [span, StreamOptions.span, hstart]
  next start stop hstart hstop =>
    split_ifs at h with hlt
    obtain rfl := Except.ok.inj h
    refine ⟨⟨.idle 0 ⟨fun h ↦ ?_, fun {start'} h ↦ ⟨?_, ?_⟩⟩ rfl rfl rfl rfl, Nat.zero_le 1,
      fun h ↦ absurd h List.not_mem_nil, fun _ ↦ ⟨rfl, rfl, fun _ h ↦ absurd h List.not_mem_nil⟩,
      hopening⟩, ?_⟩
    · cases hstart.symm.trans h
    · change (if o.start.isSome ∧ true then o.start else none) = some start'
      rw [show o.start = some start' from h]
      rfl
    · obtain rfl : start = start' := Option.some.inj (hstart.symm.trans h)
      rw [hstop, Option.getD_some]
      omega
    · simp only [span, StreamOptions.span, hstart, hstop, Option.getD_some]
  next => cases h

@[simp] theorem span_read : s.read.span = s.span := by
  rw [read]
  split_ifs <;> rfl

/-- The file and the range stay as they are. -/
theorem span_step (s : ReadStream) (ev : StreamEvent) : (s.step ev).span = s.span := by
  cases ev with
  | «open» | openFails | pause | usePool _ => rfl
  | resume =>
    rw [step, resume]
    dsimp only
    split
    · rfl
    · split_ifs
      · exact span_read
      · rfl
  | returns =>
    rw [step]
    split
    · rfl
    · next frame stack _ =>
      cases frame with
      | opened | data => exact span_read
      | resumed =>
        rw [behind]
        dsimp only
        split_ifs
        · exact span_read
        · rfl
      | ended | failed => rfl
  | execute i n =>
    rw [step]
    split <;> rfl
  | fail i =>
    rw [step]
    split <;> rfl
  | deliver i =>
    rw [step]
    split
    · next r _ =>
      rw [afterRead.eq_def]
      split <;> try rfl
      split_ifs <;> rfl
    · rfl

namespace Orderly

theorem read (h : s.Orderly) (hopened : s.opened) (hbuffer : s.buffer = none)
    (hready : s.readable → s.paused = false → s.Ready) : s.read.Orderly := by
  refine ⟨h.phase.read hbuffer hready, ?_, ?_, ?_, ?_⟩ <;> rw [ReadStream.read] <;> split_ifs
  · exact h.stack_le
  · exact h.stack_le
  · exact h.resumed
  · exact h.resumed
  · exact h.closed
  · exact fun hclosed ↦ absurd (hopened.symm.trans hclosed) Bool.true_eq_false.mp
  · exact h.opening
  · exact h.opening

/-- `fs.open` calls back. -/
theorem opens (h : s.Orderly) (hopening : s.opening) (hstack : s.stack = []) {opened : Bool}
    {frame : Frame} (hframe : frame ≠ .resumed) (hopened : opened = false → frame = .failed) :
    Orderly { s with opened := opened, opening := false, stack := frame :: s.stack } := by
  obtain ⟨hflight, hbuffer, -⟩ := h.closed (h.opening hopening)
  refine ⟨h.phase.frame (fun hne ↦ absurd hbuffer hne) fun hover ↦ ?_, ?_, fun hmem ↦ ?_,
    fun hclosed ↦ ⟨hflight, hbuffer, fun f hf ↦ ?_⟩, fun h ↦ by cases h⟩
  · rw [Over, hstack] at hover
    exact .inl (hover.resolve_right (by simp))
  · exact hstack ▸ Nat.le_refl 1
  · rw [hstack] at hmem
    exact absurd (List.mem_singleton.mp hmem).symm hframe
  · rw [hstack] at hf
    exact (List.mem_singleton.mp hf).trans (hopened hclosed)

theorem pause (h : s.Orderly) : Orderly { s with paused := true } :=
  ⟨h.phase.frame (fun _ ↦ rfl) id, h.stack_le, h.resumed, h.closed, h.opening⟩

theorem usePool (h : s.Orderly) (used : ℕ) : Orderly { s with used := some used } :=
  ⟨h.phase.frame (fun _ ↦ rfl) id, h.stack_le, h.resumed, h.closed, h.opening⟩

theorem resume (h : s.Orderly) (hcalm : s.Calm .resume) : s.resume.Orderly := by
  have hpaused : Orderly { s with paused := false } :=
    ⟨h.phase.frame (fun _ ↦ rfl) id, h.stack_le, h.resumed, h.closed, h.opening⟩
  rw [ReadStream.resume]
  dsimp only
  split
  · next b hbuffer =>
    have hne : s.buffer ≠ none := hbuffer ▸ Option.some_ne_none b
    obtain ⟨hphase, hnil⟩ := hpaused.phase.emitData hbuffer (hcalm.2 hne)
    refine ⟨hphase, ?_, fun _ ↦ hne, fun hclosed ↦ absurd (h.closed hclosed).2.1 hne, h.opening⟩
    change (Frame.resumed :: s.stack).length ≤ 1
    rw [show s.stack = [] from hnil]
    exact Nat.le_refl 1
  · next hbuffer =>
    split_ifs with hopened
    · exact hpaused.read hopened hbuffer fun hreadable _ ↦ hcalm.1 hbuffer hopened hreadable
    · exact hpaused

/-- The listeners have returned. -/
theorem pop (h : s.Orderly) {frame : Frame} (hstack : s.stack = [frame])
    (hframe : frame ≠ .resumed) {readable : Bool}
    (hreadable : readable = s.readable ∧ frame.reads ∨ readable = false) :
    Orderly { s with stack := [], readable := readable } ∧ s.buffer = none := by
  have hbuffer := h.phase.buffer_eq_none hstack hframe
  refine ⟨⟨h.phase.frame (fun hne ↦ absurd hbuffer hne) fun hover ↦ .inl ?_, Nat.zero_le 1,
    fun hmem ↦ absurd hmem List.not_mem_nil, fun hclosed ↦ ?_, h.opening⟩, hbuffer⟩
  · obtain ⟨rfl, hreads⟩ | hreadable := hreadable
    · rw [Over, hstack, List.mem_singleton, List.mem_singleton] at hover
      obtain hover | rfl | ⟨rfl, -⟩ := hover
      · exact hover
      all_goals cases hreads
    · exact hreadable
  · exact ⟨(h.closed hclosed).1, hbuffer, fun _ hmem ↦ absurd hmem List.not_mem_nil⟩

theorem opened_of_mem (h : s.Orderly) {frame : Frame} (hmem : frame ∈ s.stack)
    (hframe : frame ≠ .failed) : s.opened = true := by
  by_contra hclosed
  exact hframe ((h.closed (by simpa using hclosed)).2.2 frame hmem)

theorem behind (h : s.Orderly) {frame : Frame} (hstack : s.stack = [frame])
    (hcalm : s.Calm .returns) : ({ s with stack := [] }.behind frame).Orderly := by
  have hmem : frame ∈ s.stack := hstack ▸ List.mem_singleton_self frame
  have hready (hopened : s.opened) (hreads : frame.reads) (hreadable : s.readable)
      (hpaused : s.paused = false) : Ready { s with stack := [] } := by
    have hframe : ∀ f ∈ s.stack.head?, f.reads := by
      intro f hf
      rw [hstack, List.head?_cons, Option.mem_some_iff] at hf
      exact hf ▸ hreads
    obtain ⟨hflight, -, -, hsize⟩ := hcalm hopened hreadable hpaused hframe
    exact ⟨hflight, List.not_mem_nil, fun hmem ↦ absurd hmem List.not_mem_nil, hsize⟩
  cases frame with
  | opened | data =>
    have hopened := h.opened_of_mem hmem (fun h ↦ by cases h)
    obtain ⟨hpop, hbuffer⟩ := h.pop hstack (fun h ↦ by cases h) (.inl ⟨rfl, rfl⟩)
    exact hpop.read hopened hbuffer (hready hopened rfl)
  | resumed =>
    have hopened := h.opened_of_mem hmem (fun h ↦ by cases h)
    have hclear : Orderly { s with stack := [], buffer := none } :=
      ⟨h.phase.clear hstack (h.resumed hmem), Nat.zero_le 1,
        fun hmem ↦ absurd hmem List.not_mem_nil,
        fun hclosed ↦ absurd (hopened.symm.trans hclosed) Bool.true_eq_false.mp, h.opening⟩
    rw [ReadStream.behind]
    dsimp only
    rw [if_pos hopened]
    exact hclear.read hopened rfl (hready hopened rfl)
  | ended | failed => exact (h.pop hstack (fun h ↦ by cases h) (.inr rfl)).1

/-- A stream with a request in flight is open, and all that is left to show is about the chunk. -/
theorem of_inFlight (h : s.Orderly) {i : ℕ} {r : ReadRequest} (hr : s.inFlight[i]? = some r)
    {t : ReadStream} (ht : t.Phase) (hstack : t.stack.length ≤ 1)
    (hresumed : .resumed ∈ t.stack → t.buffer ≠ none) (hopened : t.opened = s.opened)
    (hopening : t.opening = s.opening) : t.Orderly := by
  refine ⟨ht, hstack, hresumed, fun hclosed ↦ ?_, fun h' ↦ ?_⟩
  · rw [(h.closed (hopened ▸ hclosed)).1] at hr
    cases hr
  · exact hopened ▸ h.opening (hopening ▸ h')

theorem deliver (h : s.Orderly) {i : ℕ} {r : ReadRequest} (hr : s.inFlight[i]? = some r)
    (hstack : s.stack = []) (hprogress : r.progress ≠ .waiting) :
    ({ s with inFlight := s.inFlight.eraseIdx i }.afterRead r.progress).Orderly := by
  have hphase := h.phase.deliver hr hstack hprogress
  have hnil : Frame.resumed ∉ s.stack := hstack ▸ List.not_mem_nil
  have hlength {frame : Frame} : (frame :: s.stack).length ≤ 1 := hstack ▸ Nat.le_refl 1
  have hmem {frame : Frame} (hframe : frame ≠ .resumed) : .resumed ∉ frame :: s.stack := by
    rw [hstack, List.mem_singleton]
    exact fun h ↦ hframe h.symm
  cases hr' : r.progress with
  | waiting => exact absurd hr' hprogress
  | failed =>
    rw [hr'] at hphase
    exact h.of_inFlight hr hphase hlength (fun h ↦ absurd h (hmem (fun h ↦ by cases h))) rfl rfl
  | done b =>
    rw [hr'] at hphase
    cases b with
    | nil =>
      exact h.of_inFlight hr hphase hlength (fun h ↦ absurd h (hmem (fun h ↦ by cases h))) rfl rfl
    | cons byte b =>
      rw [afterRead_cons] at hphase ⊢
      split_ifs at hphase ⊢
      · exact h.of_inFlight hr hphase h.stack_le (fun h ↦ absurd h hnil) rfl rfl
      · exact h.of_inFlight hr hphase hlength (fun h ↦ absurd h (hmem (fun h ↦ by cases h))) rfl rfl
      · exact h.of_inFlight hr hphase h.stack_le (fun h ↦ absurd h hnil) rfl rfl

theorem step (h : s.Orderly) {ev : StreamEvent} (hallows : s.Allows ev) (hcalm : s.Calm ev) :
    (s.step ev).Orderly := by
  cases ev with
  | «open» => exact h.opens hallows.1 hallows.2 (fun h ↦ by cases h) (fun h ↦ by cases h)
  | openFails => exact h.opens hallows.1 hallows.2 (fun h ↦ by cases h) (fun _ ↦ rfl)
  | pause => exact h.pause
  | usePool used => exact h.usePool used
  | resume => exact h.resume hcalm
  | returns =>
    obtain ⟨frame, stack, hstack⟩ := List.exists_cons_of_ne_nil hallows
    obtain rfl : stack = [] := by
      have hle := h.stack_le
      rw [hstack, List.length_cons] at hle
      exact List.eq_nil_of_length_eq_zero (by omega)
    simp only [ReadStream.step, hstack]
    exact h.behind hstack hcalm
  | execute i n =>
    obtain ⟨r, hr, hprogress, -, hpos⟩ := hallows
    rw [Option.mem_def] at hr
    simp only [ReadStream.step, hr]
    exact h.of_inFlight hr (h.phase.execute hr hprogress hpos (hcalm r hr)) h.stack_le h.resumed rfl
      rfl
  | fail i =>
    obtain ⟨r, hr, hprogress⟩ := hallows
    rw [Option.mem_def] at hr
    simp only [ReadStream.step, hr]
    exact h.of_inFlight hr (h.phase.fail hr hprogress) h.stack_le h.resumed rfl rfl
  | deliver i =>
    obtain ⟨hstack, r, hr, hprogress⟩ := hallows
    rw [Option.mem_def] at hr
    simp only [ReadStream.step, hr]
    exact h.deliver hr hstack hprogress

end Orderly

/-- A stream that only takes calm steps delivers the file, or the range of it, once and in
order. -/
theorem delivers_of_calm {content : Bytes} {o : StreamOptions} {s₀ s : ReadStream}
    (h₀ : create content o = .ok s₀) (h : (machine.restrict Calm).Reaches s₀ s) :
    s.Delivers (o.span content) := by
  obtain ⟨horderly, hspan⟩ := create_orderly h₀
  have hinv : s.Orderly ∧ s.span = o.span content := by
    refine h.invariant (p := fun s ↦ s.Orderly ∧ s.span = o.span content) ⟨horderly, hspan⟩ ?_
    rintro s t ev ⟨hs, hspan⟩ ⟨hallows, hcalm⟩ ht
    obtain rfl := Except.ok.inj ht
    exact ⟨hs.step hallows hcalm, (s.span_step ev).trans hspan⟩
  exact hinv.2 ▸ hinv.1.phase.delivers

theorem delivers_of_calm_pair : ∃ s : ReadStream,
    s.Delivers [0x68, 0x69] ∧ s.emitted = [[0x68], [0x69]] ∧ s.ends = 1 := by
  obtain ⟨s₀, s, h₀, hrun, hemitted, hends⟩ : ∃ s₀ s : ReadStream,
      create [0x68, 0x69] .default = .ok s₀ ∧
      (machine.restrict Calm).run s₀
        [.open, .returns, .execute 0 1, .deliver 0, .pause, .returns, .resume, .execute 0 1, .pause,
          .deliver 0, .resume, .returns, .execute 0 0, .deliver 0] = some s ∧
      s.emitted = [[0x68], [0x69]] ∧ s.ends = 1 := ⟨_, _, rfl, rfl, rfl, rfl⟩
  exact ⟨s, delivers_of_calm h₀ (Machine.reaches_of_run hrun), hemitted, hends⟩

/-- `pause` and `resume` while a byte is being read begin a second read, and its byte can come in
first. -/
theorem second_byte_first : ∃ s₀ s : ReadStream,
    create [0x68, 0x69] ⟨1, none, none, false⟩ = .ok s₀ ∧ machine.Reaches s₀ s ∧
      s.emitted = [[0x69]] ∧ ¬s.Delivers [0x68, 0x69] := by
  obtain ⟨s₀, s, h₀, hrun, hemitted⟩ : ∃ s₀ s : ReadStream,
      create [0x68, 0x69] ⟨1, none, none, false⟩ = .ok s₀ ∧
      machine.run s₀ [.open, .returns, .pause, .resume, .execute 0 1, .execute 1 1, .deliver 1] =
        some s ∧ s.emitted = [[0x69]] := ⟨_, _, rfl, rfl, rfl⟩
  refine ⟨s₀, s, h₀, Machine.reaches_of_run hrun, hemitted, fun hdelivers ↦ ?_⟩
  have hprefix := hdelivers.isPrefix
  rw [hemitted] at hprefix
  revert hprefix
  decide

end ReadStream

end SpiderNode.Files
