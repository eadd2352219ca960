import SpiderNode.Files.WriteStream

/-!
# What a `WriteStream` stores

The callback that `flush` passes to `fs.write` takes the next operation off the queue, whatever
number of bytes was reported. What a write leaves over is lost (`loses_rest`). If each write stores
what it has, then the file contains what the stream was given (`stores_of_full`): the bytes that are
in the file, that are being written and that are queued are at any time those of the calls of
`write`, in order.
-/

namespace SpiderNode.Files

namespace WriteStream

/-! ## What is to hold -/

/-- All that was given to `write`. -/
def written (s : WriteStream) : Bytes := s.writes.flatMap (·.1.bytes)

/-- At rest the file is what was given to `write`, and the stream comes to rest. -/
structure Keeps (s : WriteStream) : Prop where
  content : s.Quiet → s.file.content = s.written
  exists_next : ¬s.Quiet → ∃ ev, Own ev ∧ machine.guard s ev ∧ s.Proper ev ∧ s.Full ev
  todo_lt : ∀ ev, Own ev → machine.guard s ev → s.Proper ev → (s.step ev).todo < s.todo

/-! ## The invariant -/

/-- The file has not been opened. -/
def Opening (s : WriteStream) : Prop :=
  ∃ o ∈ s.inFlight, o.call.method = .open ∧ o.completion = .waiting

instance (s : WriteStream) : Decidable s.Opening :=
  inferInstanceAs (Decidable (∃ o ∈ s.inFlight, _))

/-- What is to remain of the file. -/
def kept (s : WriteStream) : Bytes := if s.Opening then [] else s.file.content

/-- What is being written. -/
def leaving (s : WriteStream) : Bytes :=
  (s.inFlight.filter (·.completion = .waiting)).flatMap (·.call.method.bytes)

/-- What is queued. -/
def queued (s : WriteStream) : Bytes := s.queue.flatMap (·.method.bytes)

/-- No byte is lost. -/
structure Stored (s : WriteStream) : Prop where
  content : s.kept ++ s.leaving ++ s.queued = s.written
  offset : ¬s.Opening → s.file.offset = s.file.content.length
  appends : ∀ o ∈ s.inFlight, Appends o.call.method o.transfer

variable {s t : WriteStream} {ev : StreamCall}

/-- What is stored depends on the file, the operations and the calls. -/
theorem Stored.congr (h : s.Stored) (hfile : t.file = s.file) (hflight : t.inFlight = s.inFlight)
    (hqueue : t.queued = s.queued) (hwritten : t.written = s.written) : t.Stored := by
  have hopening : t.Opening ↔ s.Opening := by rw [Opening, hflight, Opening]
  refine ⟨?_, fun hopen ↦ ?_, fun o ho ↦ h.appends o (hflight ▸ ho)⟩
  · rw [hqueue, hwritten, ← h.content, kept, leaving, hflight, hfile, kept, leaving]
    simp only [hopening]
  · rw [hfile]
    exact h.offset (hopening.not.mp hopen)

/-- A call moves from the queue to the operations. -/
theorem Stored.flush (h : s.Stored) (hordered : s.Ordered none) : s.flush.2.Stored := by
  cases hordered.flight with
  | running o before hbusy =>
    rw [flush_busy hbusy]
    exact h
  | resting hbusy hflight hfd =>
    cases hqueue : s.queue with
    | nil =>
      rw [flush_nil hbusy hqueue]
      dsimp only
      split_ifs
      · exact h.congr rfl rfl rfl rfl
      · exact h
    | cons call queue =>
      have hcall : call.method ≠ .open := hordered.queue call (hqueue ▸ List.mem_cons_self)
      obtain ⟨t, hflush, happends⟩ := flush_cons hbusy hqueue hcall hfd
      have hcontent := h.content
      rw [kept, if_neg (by simp [Opening, hflight]), leaving, hflight, queued, hqueue] at hcontent
      rw [hflush, hflight]
      refine ⟨?_, fun _ ↦ h.offset (by simp [Opening, hflight]), fun o ho ↦ ?_⟩
      · change (if _ then [] else s.file.content) ++ _ ++ _ = s.written
        rw [if_neg (by simp [Opening, hcall]), ← hcontent]
        simp [leaving, queued]
      · rw [List.mem_singleton.mp ho]
        exact happends

/-- The callback of an operation. -/
theorem Stored.complete (h : s.Stored) (hordered : s.Ordered none) {o : Issued}
    (hflight : s.inFlight = [o]) (hdone : o.completion ≠ .waiting) :
    (complete { s with inFlight := [] } o).2.Stored := by
  have hopening : ¬s.Opening := by simp [Opening, hflight, hdone]
  have hcontent := h.content
  have hrest (fd : Option Int32) (stack : List Pending) :
      Stored { s with inFlight := [], busy := false, fd := fd, stack := stack } := by
    refine ⟨?_, fun _ ↦ h.offset hopening, fun o ho ↦ by cases ho⟩
    rw [kept, if_neg hopening, leaving, hflight, List.filter_cons_of_neg (by simpa using hdone)]
      at hcontent
    rw [kept, if_neg (by simp [Opening])]
    exact hcontent
  have hflush (hne : o.call.method ≠ .open) :=
    (hrest s.fd s.stack).flush (hordered.rest hflight hne s.stack)
  obtain ⟨⟨method, cb⟩, fd, t, completion⟩ := o
  cases completion with
  | waiting => exact absurd rfl hdone
  | failed => exact (hrest s.fd s.stack).congr rfl rfl rfl rfl
  | done n =>
    cases method with
    | close => exact hrest s.fd _
    | «open» => exact hrest _ _
    | write d =>
      cases cb with
      | some cb => exact hrest s.fd _
      | none => exact hflush Method.noConfusion

/-- A write that stores all of its bytes. -/
theorem Stored.execute (h : s.Stored) {o : Issued} (hflight : s.inFlight = [o])
    (hwaiting : o.completion = .waiting) {n : ℕ} (hn : Stores o.call.method n) :
    Stored
      { s with file := s.execute o n, inFlight := [{ o with completion := .done n }] } := by
  have happends : Appends o.call.method o.transfer := h.appends o (by simp [hflight])
  have hcontent := h.content
  rw [leaving, hflight, List.filter_cons_of_pos (by simpa using hwaiting), List.filter_nil,
    List.flatMap_singleton] at hcontent
  have hkeep {f : OpenFile} (hfile : f.content = s.kept ++ o.call.method.bytes)
      (hoffset : f.offset = f.content.length) :
      Stored { s with file := f, inFlight := [{ o with completion := .done n }] } := by
    have hopening : ¬Opening
        { s with file := f, inFlight := [{ o with completion := .done n }] } := by simp [Opening]
    refine ⟨?_, fun _ ↦ hoffset, fun o' ho' ↦ ?_⟩
    · rw [kept, if_neg hopening]
      change f.content ++ [] ++ s.queued = s.written
      rw [hfile, List.append_nil, hcontent]
    · rw [List.mem_singleton.mp ho']
      exact happends
  obtain ⟨⟨method, cb⟩, fd, t, completion⟩ := o
  cases method with
  | «open» =>
    -- the file is truncated
    have hopening : s.Opening := ⟨_, hflight ▸ List.mem_cons_self, rfl, hwaiting⟩
    exact hkeep (by rw [kept, if_pos hopening]; rfl) rfl
  | close =>
    have hopening : ¬s.Opening := by simp [Opening, hflight]
    exact hkeep (by rw [kept, if_neg hopening]; exact (List.append_nil _).symm)
      (h.offset hopening)
  | write d =>
    have hopening : ¬s.Opening := by simp [Opening, hflight]
    have hoffset := h.offset hopening
    rw [kept, if_neg hopening] at hkeep
    cases t with
    | none =>
      have hnil : d.bytes = [] := happends
      exact hkeep (by rw [Method.bytes, hnil]; exact (List.append_nil _).symm) hoffset
    | some t =>
      have hplace : t.place = .current := happends
      have hall : d.bytes.take n = d.bytes :=
        List.take_of_length_le (show d.bytes.length ≤ n from (hn : n = _).ge)
      have hfile : s.file.write t.place (d.bytes.take n) =
          ⟨s.file.content ++ d.bytes, (s.file.content ++ d.bytes).length⟩ := by
        rw [hplace, hall, ← OpenFile.write_current, ← hoffset]
      change Stored { s with
        file := s.file.write t.place (d.bytes.take n)
        inFlight := _ }
      exact hkeep (congrArg OpenFile.content hfile) (by rw [hfile])

/-- What waits in the queue is what has been asked for. -/
theorem Stored.step (h : s.Stored) (hordered : s.Ordered none) (hallows : s.Allows ev)
    (hproper : s.Proper ev) (hfull : s.Full ev) : (s.step ev).Stored := by
  cases ev with
  | write d cb =>
    rw [WriteStream.step, write, if_neg (not_not_intro (hordered.writable.mpr hproper))]
    refine Stored.flush ⟨?_, h.offset, h.appends⟩ (hordered.queue_write hproper d cb)
    change s.kept ++ s.leaving ++ (s.queue ++ [(⟨.write d, cb⟩ : QueuedCall)]).flatMap _ =
      (s.writes ++ [(d, cb)]).flatMap _
    rw [List.flatMap_append, List.flatMap_append, List.flatMap_singleton, List.flatMap_singleton,
      ← List.append_assoc]
    exact congrArg (· ++ d.bytes) h.content
  | «end» cb =>
    refine Stored.flush (h.congr rfl rfl ?_ rfl) (hordered.queue_close hproper cb)
    simp [queued, Method.bytes]
  | fail i => exact hproper.elim
  | execute i n =>
    obtain ⟨o, ho, hwaiting, -⟩ := hallows
    obtain ⟨rfl, hflight⟩ := hordered.inFlight_eq ho
    rw [WriteStream.step, show s.inFlight[0]? = some o from ho, hflight]
    exact h.execute hflight hwaiting (hfull o ho)
  | complete i =>
    obtain ⟨-, o, ho, hdone⟩ := hallows
    obtain ⟨rfl, hflight⟩ := hordered.inFlight_eq ho
    rw [WriteStream.step, show s.inFlight[0]? = some o from ho, hflight]
    exact h.complete hordered hflight hdone
  | returns =>
    rw [WriteStream.step]
    split
    · rename_i stack _
      have hpopped : Stored { s with stack := stack } := h.congr rfl rfl rfl rfl
      exact hpopped.flush (hordered.stack stack)
    · exact h.congr rfl rfl rfl rfl
    · exact h

theorem create_stored (content : Bytes) : (create none content).Stored := by
  have hopening : (create none content).Opening :=
    ⟨⟨⟨.open, none⟩, none, none, .waiting⟩, List.mem_singleton.mpr rfl, rfl, rfl⟩
  refine ⟨?_, fun hopen ↦ absurd hopening hopen, fun o ho ↦ ?_⟩
  · rw [kept, if_pos hopening]
    rfl
  · rw [List.mem_singleton.mp ho]
    trivial

/-- If each write stores what it has, the file contains in the end what the stream was given. -/
theorem stores_of_full (content : Bytes)
    (h : ((machine.restrict Proper).restrict Full).Reaches (create none content) s) : s.Keeps := by
  have hinv : (s.Ordered none ∧ s.Settled) ∧ s.Stored := by
    refine h.invariant (p := fun s ↦ (s.Ordered none ∧ s.Settled) ∧ s.Stored)
      ⟨create_ordered none content, create_stored content⟩ ?_
    rintro s t ev ⟨⟨hordered, hsettled⟩, hstored⟩ ⟨⟨hallows, hproper⟩, hfull⟩ ht
    obtain rfl := Except.ok.inj ht
    exact ⟨hordered.step hsettled hallows hproper,
      hstored.step hordered hallows hproper hfull⟩
  obtain ⟨⟨hordered, hsettled⟩, hstored⟩ := hinv
  have hserial := hordered.serial hsettled
  refine ⟨fun hquiet ↦ ?_, hordered.exists_next, hserial.todo_lt⟩
  have hcontent := hstored.content
  rw [kept, if_neg (by simp [Opening, hquiet.1]), leaving, hquiet.1, queued,
    hserial.queue_eq_nil hquiet] at hcontent
  simpa using hcontent

/-- A string is written behind a `Buffer`. -/
theorem stores_of_full_two : ∃ s : WriteStream, s.Keeps ∧ s.Quiet ∧ s.file.content = [1, 2, 3] := by
  have hrun : ∃ s ∈ ((machine.restrict Proper).restrict Full).run (create none [9])
      [.write ⟨false, [1], by decide⟩ (some 0), .write ⟨true, [2, 3], by decide⟩ none, .end none,
        .execute 0 3, .complete 0, .returns, .execute 0 1, .complete 0, .returns, .execute 0 2,
        .complete 0, .execute 0 0, .complete 0, .returns],
      s.Quiet ∧ s.file.content = [1, 2, 3] := by decide +kernel
  obtain ⟨s, hs, hquiet, hcontent⟩ := hrun
  exact ⟨s, stores_of_full [9] (Machine.reaches_of_run hs), hquiet, hcontent⟩

/-- A write of three bytes stores one, and the stream closes the file. -/
theorem loses_rest : ∃ s : WriteStream, (machine.restrict Proper).Reaches (create none []) s ∧
    s.Quiet ∧ s.closing = some none ∧ s.written = [1, 2, 3] ∧ s.file.content = [1] ∧ ¬s.Keeps := by
  have hrun : ∃ s ∈ (machine.restrict Proper).run (create none [])
      [.write ⟨false, [1, 2, 3], by decide⟩ none, .end none, .execute 0 3, .complete 0, .returns,
        .execute 0 1, .complete 0, .execute 0 0, .complete 0, .returns],
      s.Quiet ∧ s.closing = some none ∧ s.written = [1, 2, 3] ∧ s.file.content = [1] := by
    decide +kernel
  obtain ⟨s, hs, hquiet, hclosing, hwritten, hcontent⟩ := hrun
  refine ⟨s, Machine.reaches_of_run hs, hquiet, hclosing, hwritten, hcontent, fun hkeeps ↦ ?_⟩
  have heq := hkeeps.content hquiet
  rw [hwritten, hcontent] at heq
  exact absurd heq (by decide)

end WriteStream

end SpiderNode.Files
