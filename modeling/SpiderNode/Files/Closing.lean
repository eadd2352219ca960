import SpiderNode.Files.ReadStream

/-!
# Closing the streams of `fs`

A `ReadStream` or a `WriteStream` of `lib/fs.js` closes its descriptor when `destroy` is called. If
the file is not open yet, `destroy` adds a listener of `'open'` that closes it then. A `ReadStream`
calls `destroy` itself at the end of the file, and a `WriteStream` has another way: `end` puts a
call of `fs.close` into the queue of operations, which `flush` starts one after the other. What the
callback of `fs.close` does is left out; its listeners can only act as the program can anyway.

Nothing records that the descriptor is gone. Each call of `destroy` closes it again, and each queued
`fs.close` does. A test `if (this.fd)` takes the descriptor `0` for none, so that `destroy` does
nothing there. `closes_once` says that there is one call of `fs.close` as long as nobody asks twice.
-/

namespace SpiderNode.Files

/-! ## The descriptor of a stream -/

/-- What a stream does with its descriptor. -/
structure Descriptor where
  /-- `this.fd` -/
  fd : Option ℕ
  /-- The callback of `fs.open` is still to come. -/
  opening : Bool
  /-- The listeners of `'open'` that `destroy` has added. -/
  waiting : ℕ
  /-- The calls of `fs.close`. -/
  closed : List ℕ
  /-- How often it was asked to close it. -/
  requests : ℕ
  deriving DecidableEq, Repr

namespace Descriptor

/-- The descriptor of a new stream, which may be given one in its options. -/
def create (given : Option ℕ) : Descriptor := ⟨given, given.isNone, 0, [], 0⟩

variable (d : Descriptor)

/-- The part of `destroy` that both streams have in common. -/
def destroy : Descriptor :=
  match d.fd with
  | some (n + 1) => { d with closed := d.closed ++ [n + 1], requests := d.requests + 1 }
  | some 0 => { d with waiting := d.waiting + 1 }
  | none =>
    { d with
      waiting := d.waiting + 1
      requests := if d.opening then d.requests + 1 else d.requests }

/-- The file is open, and the listeners of `'open'` run. -/
def opens (n : ℕ) : Descriptor :=
  { d with fd := some n, opening := false, closed := d.closed ++ List.replicate d.waiting n }

def fails : Descriptor := { d with opening := false }

/-- A queued `fs.close` starts. -/
def close (n : ℕ) : Descriptor :=
  { d with closed := d.closed ++ [n], requests := d.requests + 1 }

/-- A call of `destroy` closes the descriptor, now or as soon as there is one. -/
def Closes : Prop := match d.fd with
  | some n => n ≠ 0
  | none => d.opening = true

instance : Decidable d.Closes :=
  match h : d.fd with
  | some n => decidable_of_iff (n ≠ 0) (by simp only [Closes, h])
  | none => decidable_of_iff (d.opening = true) (by simp only [Closes, h])

/-- Each request is a call of `fs.close`, or a listener that is going to call it. -/
structure Counts : Prop where
  opening : d.opening = true → d.fd = none
  waiting : d.opening = true → d.waiting = d.requests
  nil : d.fd = none → d.closed = []
  closed : d.fd ≠ none → d.closed.length = d.requests

variable {d}

theorem counts_create (given : Option ℕ) : (create given).Counts :=
  ⟨Option.isNone_iff_eq_none.mp, fun _ ↦ rfl, fun _ ↦ rfl, fun _ ↦ rfl⟩

theorem Counts.destroy (h : d.Counts) : d.destroy.Counts := by
  unfold Descriptor.destroy
  split
  · rename_i n hfd
    have hclosed : d.closed.length = d.requests := h.closed (hfd ▸ Option.some_ne_none _)
    have hnone : d.fd ≠ none := hfd ▸ Option.some_ne_none _
    refine ⟨h.opening, fun ho ↦ absurd (h.opening ho) hnone, fun hn ↦ absurd hn hnone, fun _ ↦ ?_⟩
    rw [List.length_append, hclosed, List.length_singleton]
  · rename_i hfd
    have hnone : d.fd ≠ none := hfd ▸ Option.some_ne_none _
    exact ⟨h.opening, fun ho ↦ absurd (h.opening ho) hnone, h.nil, h.closed⟩
  · rename_i hfd
    refine ⟨h.opening, fun ho ↦ ?_, h.nil, fun hn ↦ absurd hfd hn⟩
    exact (congrArg (· + 1) (h.waiting ho)).trans (if_pos ho).symm

theorem destroy_requests (d : Descriptor) :
    d.destroy.requests = if d.Closes then d.requests + 1 else d.requests := by
  unfold Descriptor.destroy Closes
  split <;> simp_all

theorem Counts.opens (h : d.Counts) (ho : d.opening = true) (n : ℕ) : (d.opens n).Counts := by
  refine ⟨fun ho' ↦ absurd ho' Bool.false_ne_true, fun ho' ↦ absurd ho' Bool.false_ne_true,
    fun hn ↦ absurd hn (Option.some_ne_none n), fun _ ↦ ?_⟩
  change (d.closed ++ List.replicate d.waiting n).length = d.requests
  rw [h.nil (h.opening ho), List.nil_append, List.length_replicate, h.waiting ho]

theorem Counts.fails (h : d.Counts) : d.fails.Counts :=
  ⟨fun ho ↦ absurd ho Bool.false_ne_true, fun ho ↦ absurd ho Bool.false_ne_true, h.nil, h.closed⟩

theorem Counts.close (h : d.Counts) {n : ℕ} (hfd : d.fd = some n) : (d.close n).Counts := by
  have hnone : d.fd ≠ none := hfd ▸ Option.some_ne_none _
  refine ⟨h.opening, fun ho ↦ absurd (h.opening ho) hnone, fun hn ↦ absurd hn hnone, fun _ ↦ ?_⟩
  change (d.closed ++ [n]).length = d.requests + 1
  rw [List.length_append, h.closed hnone, List.length_singleton]

theorem Counts.length_le (h : d.Counts) : d.closed.length ≤ d.requests := by
  by_cases hfd : d.fd = none
  · rw [h.nil hfd]
    exact Nat.zero_le _
  · exact (h.closed hfd).le

end Descriptor

/-! ## `ReadStream` -/

/-- A `ReadStream` with its descriptor. -/
structure FileReader where
  stream : ReadStream
  desc : Descriptor

namespace FileReader

variable (s : FileReader)

/-- `ReadStream.prototype.destroy` -/
def destroy : FileReader := ⟨{ s.stream with readable := false }, s.desc.destroy⟩

inductive Event where
  | destroy
  /-- The callback of `fs.open`, with the descriptor. -/
  | opens (n : ℕ)
  /-- Something else happens to the stream. -/
  | stream (ev : ReadStream.StreamEvent)
  deriving DecidableEq

def Allows : Event → Prop
  | .destroy => True
  | .opens _ => s.stream.Allows .open ∧ s.desc.opening = true
  | .stream ev => s.stream.Allows ev ∧ ev ≠ .open

/-- The listeners of `'end'` have returned, and `afterRead` calls `destroy`. -/
def Ends (ev : ReadStream.StreamEvent) : Prop :=
  ev = .returns ∧ s.stream.stack.head? = some .ended

instance (ev : ReadStream.StreamEvent) : Decidable (s.Ends ev) :=
  inferInstanceAs (Decidable (_ ∧ _))

def step : Event → FileReader
  | .destroy => s.destroy
  | .opens n => ⟨s.stream.step .open, s.desc.opens n⟩
  | .stream ev =>
    ⟨s.stream.step ev,
      if s.Ends ev then s.desc.destroy else if ev = .openFails then s.desc.fails else s.desc⟩

def machine : Machine FileReader Event Empty := ⟨Allows, fun s ev ↦ .ok (s.step ev)⟩

/-- A stream that `create` has made; `given` is the option `fd`. -/
def Starts (s : FileReader) : Prop :=
  ∃ content o given, o.fd = Option.isSome given ∧ ReadStream.create content o = .ok s.stream ∧
    s.desc = .create given

/-- The event is a request to close the descriptor. -/
def Requests : Event → Prop
  | .destroy => s.desc.Closes
  | .opens _ => False
  | .stream ev => s.Ends ev ∧ s.desc.Closes

/-- The descriptor is requested to be closed only once. -/
def Calm (ev : Event) : Prop := s.Requests ev → s.desc.requests = 0

variable {s} {ev : Event}

theorem step_counts (h : s.desc.Counts) (hallows : s.Allows ev) : (s.step ev).desc.Counts := by
  cases ev with
  | destroy => exact h.destroy
  | opens n => exact h.opens hallows.2 n
  | stream ev =>
    simp only [step]
    split_ifs
    exacts [h.destroy, h.fails, h]

theorem step_requests (s : FileReader) (hr : ¬s.Requests ev) :
    (s.step ev).desc.requests = s.desc.requests := by
  cases ev with
  | destroy => exact (s.desc.destroy_requests).trans (if_neg hr)
  | opens n => rfl
  | stream ev =>
    simp only [step]
    split_ifs with hends
    · exact (s.desc.destroy_requests).trans (if_neg fun hc ↦ hr ⟨hends, hc⟩)
    · rfl
    · rfl

theorem step_requests_le (s : FileReader) (ev : Event) :
    (s.step ev).desc.requests ≤ s.desc.requests + 1 := by
  have hdestroy : s.desc.destroy.requests ≤ s.desc.requests + 1 := by
    rw [Descriptor.destroy_requests]
    split_ifs
    exacts [le_rfl, Nat.le_succ _]
  cases ev with
  | destroy => exact hdestroy
  | opens n => exact Nat.le_succ _
  | stream ev =>
    simp only [step]
    split_ifs
    exacts [hdestroy, Nat.le_succ _, Nat.le_succ _]

theorem counts_of_calm {s₀ : FileReader} (h₀ : s₀.Starts)
    (h : (machine.restrict Calm).Reaches s₀ s) :
    s.desc.Counts ∧ s.desc.requests ≤ 1 := by
  obtain ⟨_, _, given, -, -, hdesc⟩ := h₀
  refine h.invariant (p := fun s ↦ s.desc.Counts ∧ s.desc.requests ≤ 1)
    (hdesc ▸ ⟨Descriptor.counts_create given, Nat.zero_le 1⟩) ?_
  rintro s t ev ⟨hcounts, hle⟩ ⟨hallows, hcalm⟩ ht
  obtain rfl := Except.ok.inj ht
  refine ⟨step_counts hcounts hallows, ?_⟩
  by_cases hr : s.Requests ev
  · have hstep := s.step_requests_le ev
    rwa [hcalm hr] at hstep
  · exact (s.step_requests hr).le.trans hle

end FileReader

/-! ## `WriteStream` -/

/-- An element of `_queue`, other than the call of `fs.open` that the constructor puts there and
takes out again at once. -/
inductive Operation where
  /-- The number of bytes, if the data can be encoded. -/
  | write (length : Option ℕ)
  | close
  deriving DecidableEq, Repr

/-- A call of `emit` or of a callback that has not returned, by what comes behind it. -/
inductive WriterFrame where
  /-- `flush`, in the callback of an operation -/
  | flush
  /-- The rest of `end` -/
  | «end»
  | nothing
  deriving DecidableEq, Repr

/-- A `WriteStream`. -/
structure FileWriter where
  desc : Descriptor
  writable : Bool
  drainable : Bool
  busy : Bool
  queue : List Operation
  /-- The operation of which the callback is still to come. -/
  running : Option Operation
  stack : List WriterFrame
  deriving DecidableEq, Repr

namespace FileWriter

/-- `new WriteStream(path, options)`; `given` is the option `fd`. -/
def create (given : Option ℕ) : FileWriter :=
  ⟨.create given, true, false, given.isNone, [], none, []⟩

variable (s : FileWriter)

/-- `flush` calls `fs.write` or `fs.close`, which throw if there is no descriptor and something to
do. The flag `busy` is set already. -/
def apply (op : Operation) : Except Unit FileWriter :=
  match op, s.desc.fd with
  | .write none, _ => .error ()
  | .write (some 0), _ => .ok { s with running := some op }
  | .write (some _), some _ => .ok { s with running := some op }
  | .close, some n => .ok { s with desc := s.desc.close n, running := some op }
  | _, none => .error ()

/-- `WriteStream.prototype.flush`, with the stream as it is left behind and whether it throws. -/
def flush : FileWriter × Bool :=
  if s.busy then (s, false)
  else match s.queue with
  | [] => (if s.drainable then { s with stack := .nothing :: s.stack } else s, false)
  | op :: queue =>
    let s := { s with busy := true, queue := queue }
    match s.apply op with
    | .ok t => (t, false)
    | .error _ => (s, true)

/-- `WriteStream.prototype.write` on a writable stream. -/
def push (length : Option ℕ) : FileWriter × Bool :=
  flush { s with drainable := true, queue := s.queue ++ [.write length] }

/-- `WriteStream.prototype.end` behind the call of `write`. -/
def finish : FileWriter :=
  (flush { s with writable := false, queue := s.queue ++ [.close] }).1

/-- `WriteStream.prototype.destroy` -/
def destroy : FileWriter := { s with writable := false, desc := s.desc.destroy }

inductive Event where
  | write (length : Option ℕ)
  /-- `end` or `destroySoon`, with data or without. -/
  | «end» (data : Option (Option ℕ))
  | destroy
  /-- The callback of `fs.open` -/
  | opens (n : ℕ)
  | openFails
  /-- The callback of the operation that is running, and whether it is successful. -/
  | completes (ok : Bool)
  /-- The listeners of the last `emit` return, or throw. -/
  | returns
  | throws
  deriving DecidableEq

def Allows : Event → Prop
  | .write _ | .end _ | .destroy => True
  | .opens _ | .openFails => s.desc.opening = true ∧ s.stack = []
  | .completes _ => s.running ≠ none ∧ s.stack = []
  | .returns | .throws => s.stack ≠ []

instance : ∀ ev, Decidable (s.Allows ev)
  | .write _ | .end _ | .destroy => .isTrue trivial
  | .opens _ | .openFails => inferInstanceAs (Decidable (s.desc.opening = true ∧ s.stack = []))
  | .completes _ => inferInstanceAs (Decidable (s.running ≠ none ∧ s.stack = []))
  | .returns | .throws => inferInstanceAs (Decidable (s.stack ≠ []))

def step : Event → FileWriter
  | .write length =>
    if s.writable then (s.push length).1 else { s with stack := .nothing :: s.stack }
  | .end none => s.finish
  | .end (some length) =>
    if s.writable then
      if (s.push length).2 then (s.push length).1 else (s.push length).1.finish
    else { s with stack := .end :: s.stack }
  | .destroy => s.destroy
  | .opens n => { s with busy := false, desc := s.desc.opens n, stack := .flush :: s.stack }
  | .openFails =>
    { s with busy := false, writable := false, desc := s.desc.fails, stack := .nothing :: s.stack }
  | .completes ok =>
    { s with
      busy := false
      running := none
      writable := ok && s.writable
      stack := (if ok ∧ s.running ≠ some .close then .flush else .nothing) :: s.stack }
  | .returns =>
    match s.stack with
    | .flush :: stack => ({ s with stack := stack }.flush).1
    | .end :: stack => { s with stack := stack }.finish
    | .nothing :: stack => { s with stack := stack }
    | [] => s
  | .throws => { s with stack := s.stack.tail }

def machine : Machine FileWriter Event Empty := ⟨Allows, fun s ev ↦ .ok (s.step ev)⟩

instance (s : FileWriter) (ev : Event) : Decidable (machine.guard s ev) :=
  inferInstanceAs (Decidable (s.Allows ev))

/-- The queue as `flush` finds it, if the event calls `flush`. -/
def queueAt : Event → List Operation
  | .write length | .end (some length) =>
    if s.writable then s.queue ++ [.write length] else []
  | .end none => s.queue ++ [.close]
  | .returns =>
    match s.stack with
    | .flush :: _ => s.queue
    | .end :: _ => s.queue ++ [.close]
    | _ => []
  | _ => []

/-- The event is a request to close the descriptor: a call of `destroy`, or one of `flush` that
finds `fs.close` in front of the queue. -/
def Requests : Event → Prop
  | .destroy => s.desc.Closes
  | ev => s.busy = false ∧ (s.queueAt ev).head? = some .close ∧ s.desc.fd ≠ none

/-- The descriptor is requested to be closed only once. -/
def Calm (ev : Event) : Prop := s.Requests ev → s.desc.requests = 0

/-- What `flush` can do to the descriptor; it finds the `queue`. -/
def Flushes (queue : List Operation) (t : FileWriter) : Prop :=
  t.desc = s.desc ∨ ∃ n, s.busy = false ∧ queue.head? = some .close ∧ s.desc.fd = some n ∧
    t.desc = s.desc.close n

variable {s} {t : FileWriter} {ev : Event}

theorem apply_desc {op : Operation} (h : s.apply op = .ok t) :
    t.desc = s.desc ∨ ∃ n, op = .close ∧ s.desc.fd = some n ∧ t.desc = s.desc.close n := by
  unfold apply at h
  split at h
  · cases h
  · obtain rfl := Except.ok.inj h
    exact .inl rfl
  · obtain rfl := Except.ok.inj h
    exact .inl rfl
  · rename_i n hfd
    obtain rfl := Except.ok.inj h
    exact .inr ⟨n, rfl, hfd, rfl⟩
  · cases h

theorem flushes (s : FileWriter) : s.Flushes s.queue s.flush.1 := by
  unfold flush
  split
  · exact .inl rfl
  · rename_i hbusy
    split
    · split_ifs
      exacts [.inl rfl, .inl rfl]
    · rename_i op queue hqueue
      dsimp only
      split
      · rename_i t ht
        obtain hdesc | ⟨n, rfl, hfd, hdesc⟩ := apply_desc ht
        · exact .inl hdesc
        · exact .inr ⟨n, (Bool.not_eq_true _).mp hbusy, hqueue ▸ rfl, hfd, hdesc⟩
      · exact .inl rfl

/-- After a `flush` that has not thrown, the stream is busy or has nothing to do. -/
theorem flush_busy (hqueue : s.queue ≠ []) (h : s.flush.2 = false) : s.flush.1.busy = true := by
  unfold flush at h ⊢
  split at h
  · rename_i hbusy
    rw [if_pos hbusy]
    exact hbusy
  · rename_i hbusy
    rw [if_neg hbusy]
    split at h
    · rename_i hnil
      exact absurd hnil hqueue
    · rename_i op queue hcons
      dsimp only at h ⊢
      split at h
      · rename_i t ht
        unfold apply at ht
        split at ht <;> cases ht <;> rfl
      · cases h

theorem Flushes.of_eq {queue : List Operation} {r : FileWriter} (h : r.Flushes queue t)
    (hdesc : r.desc = s.desc) (hbusy : r.busy = s.busy) : s.Flushes queue t := by
  obtain hd | ⟨n, hb, hhead, hfd, hd⟩ := h
  · exact .inl (hd.trans hdesc)
  · exact .inr ⟨n, hbusy ▸ hb, hhead, hdesc ▸ hfd, hdesc ▸ hd⟩

theorem push_flushes (s : FileWriter) (length : Option ℕ) :
    s.Flushes (s.queue ++ [.write length]) (s.push length).1 :=
  (flushes _).of_eq rfl rfl

theorem finish_flushes (s : FileWriter) : s.Flushes (s.queue ++ [.close]) s.finish :=
  (flushes _).of_eq rfl rfl

/-- A busy stream keeps its descriptor. -/
theorem Flushes.desc_eq {queue : List Operation} (h : s.Flushes queue t) (hbusy : s.busy = true) :
    t.desc = s.desc := by
  obtain hdesc | ⟨n, hb, -⟩ := h
  · exact hdesc
  · exact absurd (hb.symm.trans hbusy) Bool.false_ne_true

/-- What a step that calls `flush` does to the descriptor. -/
theorem step_flushes (s : FileWriter) (ev : Event) (hdestroy : ev ≠ .destroy)
    (hopens : ∀ n, ev ≠ .opens n) (hfails : ev ≠ .openFails) :
    s.Flushes (s.queueAt ev) (s.step ev) := by
  cases ev with
  | destroy => exact absurd rfl hdestroy
  | opens n => exact absurd rfl (hopens n)
  | openFails => exact absurd rfl hfails
  | completes | throws => exact .inl rfl
  | write length =>
    simp only [step, queueAt]
    split_ifs
    exacts [s.push_flushes length, .inl rfl]
  | «end» data =>
    cases data with
    | none => exact s.finish_flushes
    | some length =>
      simp only [step, queueAt]
      split_ifs with _ hthrows
      · exact s.push_flushes length
      · -- The stream is busy with what `write` has put into the queue, or with something else.
        have hbusy : (s.push length).1.busy = true :=
          flush_busy (by simp) ((Bool.not_eq_true _).mp hthrows)
        have hfinish := (s.push length).1.finish_flushes.desc_eq hbusy
        obtain hdesc | ⟨n, hb, hhead, hfd, hdesc⟩ := s.push_flushes length
        · exact .inl (hfinish.trans hdesc)
        · exact .inr ⟨n, hb, hhead, hfd, hfinish.trans hdesc⟩
      · exact .inl rfl
  | returns =>
    simp only [step, queueAt]
    rcases s.stack with _ | ⟨_ | _ | _, stack⟩
    · exact .inl rfl
    · exact (flushes { s with stack := stack }).of_eq rfl rfl
    · exact (finish_flushes { s with stack := stack }).of_eq rfl rfl
    · exact .inl rfl

theorem requests_of_flushes (hdestroy : ev ≠ .destroy)
    (h : s.busy = false ∧ (s.queueAt ev).head? = some .close ∧ s.desc.fd ≠ none) :
    s.Requests ev := by
  cases ev with
  | destroy => exact absurd rfl hdestroy
  | _ => exact h

/-- A step counts its requests. -/
theorem step_counts (h : s.desc.Counts) (hallows : s.Allows ev) :
    (s.step ev).desc.Counts ∧ ((s.step ev).desc.requests = s.desc.requests ∨
      s.Requests ev ∧ (s.step ev).desc.requests = s.desc.requests + 1) := by
  by_cases hdestroy : ev = .destroy
  · subst hdestroy
    refine ⟨h.destroy, ?_⟩
    have hrequests : (s.step .destroy).desc.requests = _ := s.desc.destroy_requests
    rw [hrequests]
    split_ifs with hc
    exacts [.inr ⟨hc, rfl⟩, .inl rfl]
  by_cases hopens : ∃ n, ev = .opens n
  · obtain ⟨n, rfl⟩ := hopens
    exact ⟨h.opens hallows.1 n, .inl rfl⟩
  by_cases hfails : ev = .openFails
  · subst hfails
    exact ⟨h.fails, .inl rfl⟩
  obtain hdesc | ⟨n, hbusy, hhead, hfd, hdesc⟩ :=
    s.step_flushes ev hdestroy (fun n hn ↦ hopens ⟨n, hn⟩) hfails
  · rw [hdesc]
    exact ⟨h, .inl rfl⟩
  · rw [hdesc]
    exact ⟨h.close hfd, .inr ⟨requests_of_flushes hdestroy
      ⟨hbusy, hhead, hfd ▸ Option.some_ne_none n⟩, rfl⟩⟩

theorem counts_of_calm {given : Option ℕ} (h : (machine.restrict Calm).Reaches (create given) s) :
    s.desc.Counts ∧ s.desc.requests ≤ 1 := by
  refine h.invariant (p := fun s ↦ s.desc.Counts ∧ s.desc.requests ≤ 1)
    ⟨Descriptor.counts_create given, Nat.zero_le 1⟩ ?_
  rintro s t ev ⟨hcounts, hle⟩ ⟨hallows, hcalm⟩ ht
  obtain rfl := Except.ok.inj ht
  obtain ⟨hcounts', hsame | ⟨hr, hone⟩⟩ := step_counts hcounts hallows
  · exact ⟨hcounts', hsame.le.trans hle⟩
  · rw [hcalm hr] at hone
    exact ⟨hcounts', hone.le⟩

end FileWriter

/-! ## Both streams -/

/-- In every run in which a stream is requested to close its descriptor only once, by `destroy` or
by a queued `fs.close` that `flush` starts, there is at most one call of `fs.close`. -/
theorem closes_once {r₀ r : FileReader} (h₀ : r₀.Starts)
    (hr : (FileReader.machine.restrict FileReader.Calm).Reaches r₀ r) {given : Option ℕ}
    {w : FileWriter} (hw : (FileWriter.machine.restrict FileWriter.Calm).Reaches (.create given) w) :
    r.desc.closed.length ≤ 1 ∧ w.desc.closed.length ≤ 1 := by
  obtain ⟨hreader, hreader'⟩ := FileReader.counts_of_calm h₀ hr
  obtain ⟨hwriter, hwriter'⟩ := FileWriter.counts_of_calm hw
  exact ⟨hreader.length_le.trans hreader', hwriter.length_le.trans hwriter'⟩

/-- A `ReadStream` that is destroyed before its file is open, and a `WriteStream` that is ended. -/
theorem closes_once_each :
    (∃ s : FileReader, s.desc.closed = [5] ∧ s.desc.closed.length ≤ 1) ∧
      ∃ s : FileWriter, s.desc.closed = [5] ∧ s.desc.closed.length ≤ 1 := by
  obtain ⟨r, hr, hopening, hstack⟩ : ∃ r, ReadStream.create [] .default = .ok r ∧
      r.opening = true ∧ r.stack = [] := ⟨_, rfl, rfl, rfl⟩
  have hdestroy : (FileReader.machine.restrict FileReader.Calm).Reaches ⟨r, .create none⟩
      (FileReader.step ⟨r, .create none⟩ .destroy) :=
    .step (e := FileReader.Event.destroy) .init ⟨trivial, fun _ ↦ rfl⟩ rfl
  have hreader := hdestroy.step (e := FileReader.Event.opens 5)
    ⟨⟨⟨hopening, hstack⟩, rfl⟩, False.elim⟩ rfl
  have hend : (FileWriter.machine.restrict FileWriter.Calm).Reaches (.create none)
      (FileWriter.step (.create none) (.end none)) :=
    .step (e := FileWriter.Event.end none) .init ⟨trivial, fun _ ↦ rfl⟩ rfl
  have hopens := hend.step (e := FileWriter.Event.opens 5) ⟨⟨rfl, rfl⟩, fun _ ↦ rfl⟩ rfl
  have hwriter := hopens.step (e := FileWriter.Event.returns) ⟨by rintro ⟨⟩, fun _ ↦ rfl⟩ rfl
  obtain ⟨hclosed, hclosed'⟩ := closes_once ⟨[], .default, none, rfl, hr, rfl⟩ hreader hwriter
  exact ⟨⟨_, rfl, hclosed⟩, ⟨_, rfl, hclosed'⟩⟩

/-- A `WriteStream` that is ended and then destroyed. -/
theorem closes_twice : ∃ s : FileWriter, FileWriter.machine.Reaches (.create none) s ∧
    s.desc.closed = [5, 5] :=
  ⟨_, Machine.reaches_of_run (l := [.opens 5, .returns, .end none, .completes true, .returns,
    .destroy]) rfl, rfl⟩

end SpiderNode.Files
