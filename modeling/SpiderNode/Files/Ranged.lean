import SpiderNode.Files.ReadStream

/-!
# A range of a file

A `ReadStream` with the options `start` and `end`, which nobody pauses and for which nothing fails.
`_read` moves `this.pos` by what it requests. A read that gets less leaves a gap: the next one
begins behind what was requested, and the stream ends without the bytes in between.

`yields_of_whole` says that the range is emitted if all reads get what they can, and the range ends
where positions are not lost. There is always something that can happen next until `'end'` has been
emitted, and each thing that happens to the stream brings it nearer to that (`todo`).
-/

namespace SpiderNode.Files

/-- The options `{ start: start, end: stop }`. -/
def StreamOptions.range (start stop : ℕ) : StreamOptions :=
  ⟨64 * 1024, some start, some stop, false⟩

namespace ReadStream

/-- Nobody pauses the stream, and nothing fails. -/
def Flows : StreamEvent → Prop
  | .pause | .resume | .openFails | .fail _ => False
  | .open | .returns | .execute _ _ | .deliver _ | .usePool _ => True

instance : DecidablePred Flows
  | .pause | .resume | .openFails | .fail _ => inferInstanceAs (Decidable False)
  | .open | .returns | .execute _ _ | .deliver _ | .usePool _ => inferInstanceAs (Decidable True)

/-- A condition on steps: a read gets all that it can. -/
def Whole (s : ReadStream) : StreamEvent → Prop
  | .execute i n => ∀ r ∈ s.inFlight[i]?, n = s.available r
  | _ => True

instance (s : ReadStream) : DecidablePred s.Whole
  | .execute i n => inferInstanceAs (Decidable (∀ r ∈ s.inFlight[i]?, n = s.available r))
  | .open | .openFails | .pause | .resume | .returns | .fail _ | .deliver _ | .usePool _ =>
    inferInstanceAs (Decidable True)

/-- The runs that are meant. -/
def flowing : Machine ReadStream StreamEvent Empty := machine.restrict fun _ ev ↦ Flows ev

instance (s : ReadStream) (ev : StreamEvent) : Decidable (flowing.guard s ev) :=
  inferInstanceAs (Decidable (s.Allows ev ∧ Flows ev))

/-- The event is not one of another stream. -/
def Own : StreamEvent → Prop
  | .usePool _ => False
  | _ => True

/-- A bound on what is still to happen: three events for each byte, and those of the chunk on its
way. -/
def todo (s : ReadStream) : ℕ :=
  if s.ends ≠ 0 then 0
  else
    3 * (s.span.length - s.emitted.flatten.length) +
      if s.opening then 4
      else if s.stack ≠ [] then 3
      else if s.inFlight.any (·.progress = .waiting) then 2
      else 1

/-- The stream emits these bytes, and then `'end'`. -/
structure Yields (span : Bytes) (s : ReadStream) : Prop where
  delivers : s.Delivers span
  exists_next : s.ends = 0 → ∃ ev, Own ev ∧ flowing.guard s ev ∧ s.Whole ev
  todo_lt : s.ends = 0 → ∀ ev, Own ev → flowing.guard s ev → s.Whole ev →
    (s.step ev).todo < s.todo

/-- How far a stream has come. -/
inductive Stage (s : ReadStream) : Prop
  | opening (hat : s.At 0) (hemitted : s.emitted = []) (hopening : s.opening = true)
      (hstack : s.stack = []) (hflight : s.inFlight = []) (hends : s.ends = 0)
  /-- The listeners of `'open'` or of `'data'` run. -/
  | listening (k : ℕ) (frame : Frame) (hat : s.At k) (hemitted : s.emitted.flatten = s.span.take k)
      (hopening : s.opening = false) (hstack : s.stack = [frame])
      (hframe : frame = .opened ∨ frame = .data) (hflight : s.inFlight = []) (hends : s.ends = 0)
  | waiting (k : ℕ) (r : ReadRequest) (hasks : s.Asks r k)
      (hemitted : s.emitted.flatten = s.span.take k) (hopening : s.opening = false)
      (hstack : s.stack = []) (hflight : s.inFlight = [r]) (hr : r.progress = .waiting)
      (hends : s.ends = 0)
  | done (k : ℕ) (r : ReadRequest) (b : Bytes) (hat : s.At k)
      (hemitted : s.emitted.flatten ++ b = s.span.take k) (hlast : b = [] → s.span.length ≤ k)
      (hopening : s.opening = false) (hstack : s.stack = []) (hflight : s.inFlight = [r])
      (hr : r.progress = .done b) (hends : s.ends = 0)
  | ended (hemitted : s.emitted.flatten = s.span) (hopening : s.opening = false)
      (hstack : s.stack = [] ∨ s.stack = [.ended]) (hflight : s.inFlight = []) (hends : s.ends = 1)

/-- The invariant: how far the stream has come, which reads until it has ended. -/
structure Streaming (s : ReadStream) : Prop where
  stage : s.Stage
  range : s.start.isSome
  stop_lt : s.stop.getD 0 < 2 ^ 31
  bufferSize : 0 < s.bufferSize
  paused : s.paused = false
  readable : s.ends = 0 → s.readable = true

variable {s : ReadStream} {ev : StreamEvent}

theorem Stage.delivers (h : s.Stage) : s.Delivers s.span := by
  cases h with
  | opening _ hemitted _ _ _ hends =>
    exact ⟨hemitted ▸ List.nil_prefix, fun h ↦ by omega, by omega⟩
  | listening k _ _ hemitted _ _ _ _ hends | waiting k _ _ hemitted _ _ _ _ hends =>
    exact ⟨hemitted ▸ List.take_prefix _ _, fun h ↦ by omega, by omega⟩
  | done k r b _ hemitted _ _ _ _ _ hends =>
    have hprefix : s.emitted.flatten ++ b <+: s.span := hemitted ▸ List.take_prefix _ _
    exact ⟨(List.prefix_append _ b).trans hprefix, fun h ↦ by omega, by omega⟩
  | ended hemitted _ _ _ hends =>
    exact ⟨hemitted ▸ List.prefix_refl _, fun _ ↦ hemitted, by omega⟩

/-- A stream whose listeners return reads on. -/
theorem read_of_flows (h : s.Streaming) (hends : s.ends = 0) (stack : List Frame) :
    read { s with stack := stack } = request { s with stack := stack } := by
  rw [read, if_neg]
  rintro (hreadable | hpaused)
  · exact hreadable (h.readable hends)
  · exact Bool.false_ne_true (h.paused.symm.trans hpaused)

theorem request_stage {k : ℕ} (h : s.At k) (hsize : 0 < s.bufferSize)
    (hemitted : s.emitted.flatten = s.span.take k) (hopening : s.opening = false)
    (hflight : s.inFlight = []) (hends : s.ends = 0) (hstack : s.stack = []) :
    s.request.Stage := by
  refine .waiting k s.nextRequest (request_asks h hsize) hemitted hopening hstack ?_ rfl hends
  exact congrArg (· ++ [s.nextRequest]) hflight

/-- A thread reads what was requested. Behind the range this is nothing, and it does not matter
where. -/
theorem execute_range {k n : ℕ} {r : ReadRequest} (h : s.Asks r k) (hrange : s.start.isSome)
    (hstop : s.stop.getD 0 < 2 ^ 31) (hpos : s.available r = 0 ∨ 0 < n)
    (hwhole : n = s.available r) :
    ∃ k', (s.execute 0 n r).At k' ∧
      s.span.take k ++ (s.content.drop (s.source r)).take n = s.span.take k' ∧
      ((s.content.drop (s.source r)).take n = [] → s.span.length ≤ k') := by
  obtain ⟨start, hstart⟩ := Option.isSome_iff_exists.mp hrange
  obtain ⟨hposition, hnext, hfirst, hend, hread⟩ := h.range hstart
  by_cases hlt : start + k < 2 ^ 31
  · refine execute_at h hpos fun _ ↦ ⟨?_, hwhole⟩
    rw [hposition, getOffset_number, if_pos hlt]
    exact Int.natCast_nonneg _
  · have hnone : r.toRead = 0 := by omega
    obtain rfl : n = 0 := by
      rw [hwhole, available, hnone, Nat.zero_min]
    have hspan : s.span = (s.content.take (s.stop.getD 0 + 1)).drop start := by
      simp only [span, hstart]
    refine ⟨k, ⟨fun hno ↦ ?_, fun {start'} hsome ↦ ⟨?_, ?_⟩⟩, List.append_nil _, fun _ ↦ ?_⟩
    · cases hstart.symm.trans hno
    · obtain rfl : start = start' := Option.some.inj (hstart.symm.trans hsome)
      change (if s.start.isSome ∧ s.firstRead then s.start else s.pos) = _
      rw [hfirst, if_neg (by simp), hnext, hnone]
      rfl
    · obtain rfl : start = start' := Option.some.inj (hstart.symm.trans hsome)
      change start + k ≤ s.stop.getD 0 + 1
      omega
    · rw [hspan, List.length_drop, List.length_take]
      omega

/-- A request that is in flight alone. -/
theorem index_eq_zero {i : ℕ} {r r' : ReadRequest} (hflight : s.inFlight = [r'])
    (hr : s.inFlight[i]? = some r) : i = 0 ∧ r = r' := by
  rw [hflight, List.getElem?_singleton] at hr
  split_ifs at hr with hi
  exact ⟨hi, (Option.some.inj hr).symm⟩

/-- A thread gets all that it can. -/
theorem execute_stage {k n : ℕ} {r : ReadRequest} (h : s.Streaming) (hasks : s.Asks r k)
    (hemitted : s.emitted.flatten = s.span.take k) (hopening : s.opening = false)
    (hstack : s.stack = []) (hflight : s.inFlight = [r]) (hends : s.ends = 0)
    (hpos : s.available r = 0 ∨ 0 < n) (hwhole : n = s.available r) :
    (s.execute 0 n r).Stage := by
  obtain ⟨k', hat, htake, hlast⟩ := execute_range hasks h.range h.stop_lt hpos hwhole
  refine .done k' { r with progress := .done _ } _ hat ?_ hlast hopening hstack ?_ rfl hends
  · exact (congrArg (· ++ _) hemitted).trans htake
  · change s.inFlight.set 0 _ = _
    rw [hflight]
    rfl

theorem deliver_stage {k : ℕ} {r : ReadRequest} {b : Bytes} (hat : s.At k)
    (hemitted : s.emitted.flatten ++ b = s.span.take k) (hlast : b = [] → s.span.length ≤ k)
    (hopening : s.opening = false) (hstack : s.stack = []) (hpaused : s.paused = false)
    (hreadable : s.readable = true) (hflight : s.inFlight = [r]) (hends : s.ends = 0) :
    (afterRead { s with inFlight := s.inFlight.eraseIdx 0 } (.done b)).Stage := by
  have hnil : s.inFlight.eraseIdx 0 = [] := by
    rw [hflight]
    rfl
  rw [hnil]
  cases b with
  | nil =>
    rw [List.append_nil, List.take_of_length_le (hlast rfl)] at hemitted
    exact .ended hemitted hopening (.inr (congrArg (Frame.ended :: ·) hstack)) rfl
      (congrArg (· + 1) hends)
  | cons byte b =>
    rw [afterRead_cons, if_neg (by simp [hpaused]), if_neg (by simp [hreadable])]
    refine .listening k .data ⟨hat.whole, hat.range⟩ ?_ hopening
      (congrArg (Frame.data :: ·) hstack) (.inr rfl) rfl hends
    change (s.emitted ++ [byte :: b]).flatten = s.span.take k
    rw [List.flatten_append, List.flatten_singleton, hemitted]

/-! ## How much is left -/

/-- The bytes that are still to be emitted. -/
def left (s : ReadStream) : ℕ := s.span.length - s.emitted.flatten.length

theorem todo_of_opening (hends : s.ends = 0) (hopening : s.opening = true) :
    s.todo = 3 * s.left + 4 := by
  rw [todo, if_neg (not_not_intro hends), if_pos hopening, left]

theorem todo_of_stack (hends : s.ends = 0) (hopening : s.opening = false) (hstack : s.stack ≠ []) :
    s.todo = 3 * s.left + 3 := by
  rw [todo, if_neg (not_not_intro hends), if_neg (by simp [hopening]), if_pos hstack, left]

theorem todo_of_inFlight {r : ReadRequest} (hends : s.ends = 0) (hopening : s.opening = false)
    (hstack : s.stack = []) (hflight : s.inFlight = [r]) :
    s.todo = 3 * s.left + if r.progress = .waiting then 2 else 1 := by
  rw [todo, if_neg (not_not_intro hends), if_neg (by simp [hopening]),
    if_neg (not_not_intro hstack), hflight, left]
  simp

theorem todo_of_ends (hends : s.ends ≠ 0) : s.todo = 0 := if_pos hends

/-! ## One event -/

/-- What the next event makes of a stream. -/
structure Proceeds (s t : ReadStream) : Prop where
  streaming : t.Streaming
  todo_lt : s.ends = 0 → t.todo < s.todo

theorem Streaming.open (h : s.Streaming) (hallows : s.Allows .open) :
    s.Proceeds (s.step .open) := by
  obtain ⟨hopening, hstack⟩ := hallows
  cases h.stage with
  | opening hat hemitted _ _ hflight hends =>
    refine ⟨⟨.listening 0 .opened ⟨hat.whole, hat.range⟩ ?_ rfl ?_ (.inl rfl) hflight hends,
      h.range, h.stop_lt, h.bufferSize, h.paused, h.readable⟩, fun _ ↦ ?_⟩
    · exact (congrArg List.flatten hemitted).trans rfl
    · exact congrArg (Frame.opened :: ·) hstack
    · have htodo : (s.step .open).todo = 3 * s.left + 3 :=
        todo_of_stack (s := s.step .open) hends rfl (List.cons_ne_nil _ _)
      rw [todo_of_opening hends hopening, htodo]
      exact Nat.lt_succ_self _
  | listening _ _ _ _ hclosed | waiting _ _ _ _ hclosed | done _ _ _ _ _ _ hclosed
  | ended _ hclosed => cases hclosed.symm.trans hopening

theorem Streaming.returns (h : s.Streaming) (hallows : s.Allows .returns) :
    s.Proceeds (s.step .returns) := by
  have hsome : s.stack ≠ [] := hallows
  cases h.stage with
  | opening _ _ _ hstack | waiting _ _ _ _ _ hstack | done _ _ _ _ _ _ _ hstack =>
    exact absurd hstack hsome
  | listening k frame hat hemitted hopening hstack hframe hflight hends =>
    have hstep : s.step .returns = request { s with stack := [] } := by
      rw [step, hstack]
      obtain rfl | rfl := hframe
      · exact read_of_flows h hends []
      · exact read_of_flows h hends []
    have hstage : (request { s with stack := [] }).Stage :=
      request_stage (s := { s with stack := [] }) ⟨hat.whole, hat.range⟩ h.bufferSize hemitted
        hopening hflight hends rfl
    rw [hstep]
    refine ⟨⟨hstage, h.range, h.stop_lt, h.bufferSize, h.paused, h.readable⟩, fun _ ↦ ?_⟩
    have hone : (request { s with stack := [] }).inFlight = [nextRequest { s with stack := [] }] :=
      congrArg (· ++ [nextRequest { s with stack := [] }]) hflight
    have htodo : (request { s with stack := [] }).todo = 3 * s.left + 2 :=
      todo_of_inFlight (s := request { s with stack := [] }) hends hopening rfl hone
    rw [todo_of_stack hends hopening hsome, htodo]
    exact Nat.lt_succ_self _
  | ended hemitted hopening hstack hflight hends =>
    have hended : s.stack = [.ended] := hstack.resolve_left hsome
    have hstep : s.step .returns = { s with stack := [], readable := false } := by
      rw [step, hended]
      rfl
    rw [hstep]
    exact ⟨⟨.ended hemitted hopening (.inl rfl) hflight hends, h.range, h.stop_lt, h.bufferSize,
      h.paused, fun hzero ↦ absurd (hzero.symm.trans hends) Nat.zero_ne_one⟩,
      fun hzero ↦ absurd (hzero.symm.trans hends) Nat.zero_ne_one⟩

theorem Streaming.execute (h : s.Streaming) {i n : ℕ} (hallows : s.Allows (.execute i n))
    (hwhole : s.Whole (.execute i n)) : s.Proceeds (s.step (.execute i n)) := by
  obtain ⟨r, hr, hwaiting, -, hpos⟩ := hallows
  have hr' : s.inFlight[i]? = some r := hr
  have hmem : r ∈ s.inFlight := List.mem_of_getElem? hr'
  cases h.stage with
  | opening _ _ _ _ hflight | listening _ _ _ _ _ _ _ hflight | ended _ _ _ hflight =>
    rw [hflight] at hmem
    exact absurd hmem List.not_mem_nil
  | done k r' b _ _ _ _ _ hflight hdone =>
    rw [hflight, List.mem_singleton] at hmem
    subst hmem
    cases hdone.symm.trans hwaiting
  | waiting k r' hasks hemitted hopening hstack hflight _ hends =>
    obtain ⟨rfl, rfl⟩ := index_eq_zero hflight hr'
    have hstep : s.step (.execute 0 n) = s.execute 0 n r := by
      rw [step, hr']
    have hstage := execute_stage h hasks hemitted hopening hstack hflight hends hpos (hwhole r hr)
    rw [hstep]
    refine ⟨⟨hstage, h.range, h.stop_lt, h.bufferSize, h.paused, h.readable⟩, fun _ ↦ ?_⟩
    have hone : (s.execute 0 n r).inFlight =
        [{ r with progress := .done ((s.content.drop (s.source r)).take n) }] := by
      change s.inFlight.set 0 _ = _
      rw [hflight]
      rfl
    have htodo : (s.execute 0 n r).todo = 3 * s.left + 1 :=
      todo_of_inFlight (s := s.execute 0 n r) hends hopening hstack hone
    rw [todo_of_inFlight hends hopening hstack hflight, if_pos hwaiting, htodo]
    exact Nat.lt_succ_self _

theorem Streaming.deliver (h : s.Streaming) {i : ℕ} (hallows : s.Allows (.deliver i)) :
    s.Proceeds (s.step (.deliver i)) := by
  obtain ⟨hstack, r, hr, hready⟩ := hallows
  have hr' : s.inFlight[i]? = some r := hr
  have hmem : r ∈ s.inFlight := List.mem_of_getElem? hr'
  cases h.stage with
  | opening _ _ _ _ hflight | listening _ _ _ _ _ _ _ hflight | ended _ _ _ hflight =>
    rw [hflight] at hmem
    exact absurd hmem List.not_mem_nil
  | waiting k r' _ _ _ _ hflight hwaiting =>
    rw [hflight, List.mem_singleton] at hmem
    subst hmem
    exact absurd hwaiting hready
  | done k r' b hat hemitted hlast hopening _ hflight hdone hends =>
    obtain ⟨rfl, rfl⟩ := index_eq_zero hflight hr'
    have hstep : s.step (.deliver 0) =
        afterRead { s with inFlight := s.inFlight.eraseIdx 0 } (.done b) := by
      rw [step, hr']
      dsimp only
      rw [hdone]
    have hstage := deliver_stage hat hemitted hlast hopening hstack h.paused (h.readable hends)
      hflight hends
    have htodo : s.todo = 3 * s.left + 1 := by
      rw [todo_of_inFlight hends hopening hstack hflight, if_neg hready]
    rw [hstep]
    cases b with
    | nil =>
      refine ⟨⟨hstage, h.range, h.stop_lt, h.bufferSize, h.paused, h.readable ∘ fun hzero ↦ ?_⟩,
        fun _ ↦ ?_⟩
      · exact absurd hzero (Nat.succ_ne_zero _)
      · rw [htodo, todo_of_ends (Nat.succ_ne_zero _)]
        exact Nat.succ_pos _
    | cons byte b =>
      have hemit : afterRead { s with inFlight := s.inFlight.eraseIdx 0 } (.done (byte :: b)) =
          { s with
            inFlight := s.inFlight.eraseIdx 0
            emitted := s.emitted ++ [byte :: b]
            stack := .data :: s.stack } := by
        rw [afterRead_cons, if_neg (by simp [h.paused]), if_neg (by simp [h.readable hends])]
        rfl
      rw [hemit] at hstage ⊢
      refine ⟨⟨hstage, h.range, h.stop_lt, h.bufferSize, h.paused, h.readable⟩, fun _ ↦ ?_⟩
      have hle : (s.emitted.flatten ++ byte :: b).length ≤ s.span.length := by
        rw [hemitted, List.length_take]
        exact Nat.min_le_right _ _
      rw [List.length_append, List.length_cons] at hle
      rw [htodo, todo_of_stack]
      rotate_left
      · exact hends
      · exact hopening
      · exact List.cons_ne_nil _ _
      change 3 * (s.span.length - (s.emitted ++ [byte :: b]).flatten.length) + 3 <
        3 * (s.span.length - s.emitted.flatten.length) + 1
      rw [List.flatten_append, List.flatten_singleton, List.length_append, List.length_cons]
      omega

theorem Streaming.usePool (h : s.Streaming) (used : ℕ) : (s.step (.usePool used)).Streaming := by
  refine ⟨?_, h.range, h.stop_lt, h.bufferSize, h.paused, h.readable⟩
  cases h.stage with
  | opening hat hemitted hopening hstack hflight hends =>
    exact .opening ⟨hat.whole, hat.range⟩ hemitted hopening hstack hflight hends
  | listening k frame hat hemitted hopening hstack hframe hflight hends =>
    exact .listening k frame ⟨hat.whole, hat.range⟩ hemitted hopening hstack hframe hflight hends
  | waiting k r hasks hemitted hopening hstack hflight hr hends =>
    exact .waiting k r ⟨hasks.whole, hasks.range⟩ hemitted hopening hstack hflight hr hends
  | done k r b hat hemitted hlast hopening hstack hflight hr hends =>
    exact .done k r b ⟨hat.whole, hat.range⟩ hemitted hlast hopening hstack hflight hr hends
  | ended hemitted hopening hstack hflight hends =>
    exact .ended hemitted hopening hstack hflight hends

theorem Streaming.proceeds (h : s.Streaming) (hown : Own ev) (hallows : s.Allows ev)
    (hflows : Flows ev) (hwhole : s.Whole ev) : s.Proceeds (s.step ev) := by
  cases ev with
  | «open» => exact h.open hallows
  | returns => exact h.returns hallows
  | execute i n => exact h.execute hallows hwhole
  | deliver i => exact h.deliver hallows
  | usePool used => exact hown.elim
  | pause | resume | openFails | fail _ => exact hflows.elim

theorem Streaming.step (h : s.Streaming) (hallows : s.Allows ev) (hflows : Flows ev)
    (hwhole : s.Whole ev) : (s.step ev).Streaming := by
  by_cases hown : Own ev
  · exact (h.proceeds hown hallows hflows hwhole).streaming
  · cases ev with
    | usePool used => exact h.usePool used
    | _ => exact absurd trivial hown

/-- There is something to do until the stream has ended. -/
theorem Streaming.exists_next (h : s.Streaming) (hends : s.ends = 0) :
    ∃ ev, Own ev ∧ flowing.guard s ev ∧ s.Whole ev := by
  cases h.stage with
  | opening _ _ hopening hstack => exact ⟨.open, trivial, ⟨⟨hopening, hstack⟩, trivial⟩, trivial⟩
  | listening _ frame _ _ _ hstack =>
    have hsome : s.stack ≠ [] := hstack ▸ List.cons_ne_nil _ _
    exact ⟨.returns, trivial, ⟨hsome, trivial⟩, trivial⟩
  | waiting k r _ _ _ hstack hflight hr =>
    have hget : s.inFlight[0]? = some r := hflight ▸ rfl
    refine ⟨.execute 0 (s.available r), trivial,
      ⟨⟨r, hget, hr, Nat.le_refl _, Nat.eq_zero_or_pos _⟩, trivial⟩, fun r' hr' ↦ ?_⟩
    obtain rfl : r = r' := Option.some.inj (hget.symm.trans hr')
    rfl
  | done k r b _ _ _ _ hstack hflight hr =>
    have hget : s.inFlight[0]? = some r := hflight ▸ rfl
    exact ⟨.deliver 0, trivial, ⟨⟨hstack, r, hget, hr ▸ Progress.noConfusion⟩, trivial⟩, trivial⟩
  | ended _ _ _ _ hone => cases hends.symm.trans hone

/-! ## Runs -/

theorem create_streaming {content : Bytes} {start stop : ℕ} (hstop : stop < 2 ^ 31)
    (h : create content (.range start stop) = .ok s) :
    s.Streaming ∧ s.span = (content.take (stop + 1)).drop start := by
  have hspan := (create_orderly h).2
  simp only [create, StreamOptions.range] at h
  split_ifs at h with hlt
  obtain rfl := Except.ok.inj h
  refine ⟨⟨.opening ⟨fun hno ↦ (by cases hno), fun {start'} hsome ↦ ⟨?_, ?_⟩⟩ rfl rfl rfl rfl rfl,
    rfl, hstop, Nat.succ_pos _, rfl, fun _ ↦ rfl⟩, hspan⟩
  · exact hsome
  · obtain rfl : start = start' := Option.some.inj hsome
    change start + 0 ≤ stop + 1
    omega

/-- In every run in which no read is short, the range is emitted, and then `'end'`. -/
theorem yields_of_whole {content : Bytes} {start stop : ℕ} (hstop : stop < 2 ^ 31)
    {s₀ : ReadStream} (h₀ : create content (.range start stop) = .ok s₀)
    (h : (flowing.restrict Whole).Reaches s₀ s) :
    s.Yields ((content.take (stop + 1)).drop start) := by
  obtain ⟨hstreaming, hspan⟩ := create_streaming hstop h₀
  have hinv : s.Streaming ∧ s.span = (content.take (stop + 1)).drop start := by
    refine h.invariant
      (p := fun s ↦ s.Streaming ∧ s.span = (content.take (stop + 1)).drop start)
      ⟨hstreaming, hspan⟩ ?_
    rintro s t ev ⟨hs, hspan⟩ ⟨⟨hallows, hflows⟩, hwhole⟩ ht
    obtain rfl := Except.ok.inj ht
    exact ⟨hs.step hallows hflows hwhole, (s.span_step ev).trans hspan⟩
  obtain ⟨hs, hspan⟩ := hinv
  rw [← hspan]
  refine ⟨hs.stage.delivers, hs.exists_next, fun hends ev hown hguard hwhole ↦ ?_⟩
  exact (hs.proceeds hown hguard.1 hguard.2 hwhole).todo_lt hends

/-- The last two bytes of three. -/
theorem yields_of_whole_two : ∃ s : ReadStream, s.Yields [0x69, 0x6a] ∧
    s.emitted = [[0x69, 0x6a]] ∧ s.ends = 1 := by
  obtain ⟨s₀, s, h₀, hrun, hemitted, hends⟩ : ∃ s₀ s : ReadStream,
      create [0x68, 0x69, 0x6a] (.range 1 2) = .ok s₀ ∧
      (flowing.restrict Whole).run s₀
        [.open, .returns, .execute 0 2, .deliver 0, .returns, .execute 0 0, .deliver 0] = some s ∧
      s.emitted = [[0x69, 0x6a]] ∧ s.ends = 1 := ⟨_, _, rfl, rfl, rfl, rfl⟩
  exact ⟨s, yields_of_whole (by decide) h₀ (Machine.reaches_of_run hrun), hemitted, hends⟩

/-- The first read of three bytes gets one, and the stream ends. -/
theorem ends_early : ∃ s₀ s : ReadStream,
    create [0x68, 0x69, 0x6a] (.range 0 2) = .ok s₀ ∧ flowing.Reaches s₀ s ∧
      s.emitted = [[0x68]] ∧ s.ends = 1 ∧ ¬s.Yields [0x68, 0x69, 0x6a] := by
  obtain ⟨s₀, s, h₀, hrun, hemitted, hends⟩ : ∃ s₀ s : ReadStream,
      create [0x68, 0x69, 0x6a] (.range 0 2) = .ok s₀ ∧
      flowing.run s₀
        [.open, .returns, .execute 0 1, .deliver 0, .returns, .execute 0 0, .deliver 0] = some s ∧
      s.emitted = [[0x68]] ∧ s.ends = 1 := ⟨_, _, rfl, rfl, rfl, rfl⟩
  refine ⟨s₀, s, h₀, Machine.reaches_of_run hrun, hemitted, hends, fun h ↦ ?_⟩
  have hcomplete := h.delivers.complete (hends ▸ Nat.one_pos)
  rw [hemitted] at hcomplete
  revert hcomplete
  decide

end ReadStream

end SpiderNode.Files
