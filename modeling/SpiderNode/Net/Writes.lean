import SpiderNode.Net.Entries

/-!
# The writes of a socket

A socket, with a record of what has been written to it and of what has come of that: the range of
the bytes of each write, with its callback and its descriptor; the descriptors that have gone with
some bytes; and what the calls have thrown. Listeners and callbacks may call the socket, and other
sockets use the pool meanwhile, so a turn of `flush` is an event of its own.

`Advance` says what an event does, if the strings that are written have bytes and find space. Then
the kernel has a prefix of what has been written, and the entries are the rest (`Kept`).
-/

namespace SpiderNode.Net

open Buffer (Heap poolWriter)

/-- A call of `write` that has returned. -/
structure Write where
  /-- Where its bytes start and stop among all that have been written. -/
  start : ℕ
  stop : ℕ
  fd : Option ℕ
  cb : Option ℕ
  deriving DecidableEq, Repr

/-- A descriptor that has gone with some bytes. -/
structure Passed where
  fd : ℕ
  start : ℕ
  length : ℕ
  deriving DecidableEq, Repr

/-- A socket, and what has been done with it. -/
structure Tracked where
  world : World
  accepted : Bytes
  writes : List Write
  passed : List Passed
  thrown : List JsError

namespace Tracked

variable (pw : PoolWriter) (s : Tracked)

/-- A call has been made. -/
def after {α : Type} (r : Call α) : Tracked :=
  { s with
    world := r.2
    passed := s.passed ++ ((r.2.sentFDs.drop s.world.sentFDs.length).filter (0 < ·.2)).map fun f ↦
      ⟨f.1, s.world.sent.length, f.2⟩
    thrown := s.thrown ++ match r.1 with
      | .ok _ => []
      | .error e => [e] }

/-- A write has been called; it counts if it has returned. -/
def wrote {α : Type} (b : Bytes) (fd cb : Option ℕ) (r : Call α) : Tracked :=
  match r.1 with
  | .ok _ =>
    { s.after r with
      accepted := s.accepted ++ b
      writes := s.writes ++ [⟨s.accepted.length, (s.accepted ++ b).length, fd, cb⟩] }
  | .error _ => s.after r

/-- What happens to a socket. -/
inductive SocketEvent where
  | write (d : Data) (encoding : Option Encoding) (fd cb : Option ℕ)
  /-- `flush`, `end` and the like are made of parts. -/
  | part (p : Life.Part)
  | destroy
  /-- The other sockets, and those that read, leave the pool like this. -/
  | others (p : Pool)

def step : SocketEvent → Tracked
  | .write d encoding fd cb =>
    s.wrote (dataBytes s.world.pool d encoding) fd cb
      (s.world.write pw d encoding fd (cb.map .user))
  | .part p => s.after (p.run pw s.world)
  | .destroy => s.after s.world.destroy
  | .others p => { s with world := { s.world with pool := p } }

/-- A buffer that is written is not written to again, and all that happens to the pool is that it
grows (`Sockets.step_grows`). -/
def Allows (s : Tracked) : SocketEvent → Prop
  | .write (.buf b) _ _ _ => b.Live s.world.pool
  | .others p => Grows s.world.pool p
  | _ => True

def machine : Machine Tracked SocketEvent Empty := ⟨Allows, fun s ev ↦ .ok (s.step pw ev)⟩

/-- A socket to which nothing has been written. -/
def start (type : SocketType) (connecting readable : Bool) (pool : Pool)
    (kernel : ℕ → KernelReply) : Tracked where
  world := (Run.start type connecting readable pool kernel).world
  accepted := []
  writes := []
  passed := []
  thrown := []

/-- The write waits in the queue. -/
def Waits (s : Tracked) : Prop := s.world.connecting = true ∨ s.world.writeQueue ≠ []

/-- The strings of an event have bytes, and find space when they are staged. -/
def Exact (s : Tracked) : SocketEvent → Prop
  | .write (.str t) encoding _ _ =>
    World.Sendable encoding t ∧ (¬s.Waits → World.FitsPool encoding t s.world.pool.ensure.room)
  | .part .turn =>
    ∀ t rest, s.world.writeQueue = .data (.str t) :: rest →
      World.FitsPool s.world.writeQueueEncoding.head?.join t s.world.pool.ensure.room
  | _ => True

/-- An open socket: the kernel has a prefix of what has been written, and the entries are the
rest. -/
structure Kept (s : Tracked) (entries : List (Data × Option Encoding)) (ended : Bool) : Prop where
  queues : s.world.Queues entries ended
  sound : ∀ i ∈ entries, World.Sound s.world.pool i
  bytes : s.world.sent ++ entries.flatMap (World.entryBytes s.world.pool) = s.accepted

/-- Nothing has been sent, called or passed, and nothing is wrong with the queues. -/
structure Quiet (s t : Tracked) : Prop where
  sent : t.world.sent = s.world.sent
  called : t.world.called = s.world.called
  passed : t.passed = s.passed
  thrown : .typeError ∈ t.thrown → .typeError ∈ s.thrown

/-- The descriptor that goes with `n` bytes, if there are any. -/
def carried (s : Tracked) (fd : Option ℕ) (n : ℕ) : List Passed :=
  if s.world.type = .unix ∧ 0 < n then fd.toList.map fun f ↦ ⟨f, s.world.sent.length, n⟩ else []

/-- What `_writeOut` is called for: the entry, what goes with it, and what is behind it in the
queues. -/
structure Load where
  entry : Data × Option Encoding
  fd : Option ℕ
  cb : Option Callback
  rest : List (Data × Option Encoding)
  callbacks : List (Option Callback)
  fds : List (Option ℕ)
  accepted : Bytes
  writes : List Write

/-- A turn takes the first entry, and a write that does not wait takes its data. -/
inductive Loads (s : Tracked) (entries : List (Data × Option Encoding)) (ev : SocketEvent) :
    Load → Prop
  | turn {i : Data × Option Encoding} {rest : List (Data × Option Encoding)}
      (hev : ev = .part .turn) (hentries : entries = i :: rest) :
      Loads s entries ev
        { entry := i
          fd := s.world.writeQueueFD.head?.join
          cb := s.world.writeQueueCallbacks.head?.join
          rest := rest
          callbacks := s.world.writeQueueCallbacks.tail
          fds := s.world.writeQueueFD.tail
          accepted := s.accepted
          writes := s.writes }
  | write {i : Data × Option Encoding} {fd cb : Option ℕ} (hev : ev = .write i.1 i.2 fd cb)
      (hentries : entries = []) (hidle : ¬s.Waits) :
      Loads s entries ev
        { entry := i
          fd := fd
          cb := cb.map .user
          rest := []
          callbacks := s.world.writeQueueCallbacks
          fds := s.world.writeQueueFD
          accepted := s.accepted ++ World.entryBytes s.world.pool i
          writes := s.writes ++
            [⟨s.accepted.length, (s.accepted ++ World.entryBytes s.world.pool i).length, fd, cb⟩] }

/-- What an event does to an open socket. -/
inductive Advance (s : Tracked) (entries : List (Data × Option Encoding)) (ev : SocketEvent) :
    Tracked → Prop
  | gone {t : Tracked} (hgone : t.world.destroyed = true) : Advance s entries ev t
  /-- `_shutdown` has been called. -/
  | done {t : Tracked} (hentries : entries = []) (hdone : t.world.Done) (hquiet : Quiet s t)
      (haccepted : t.accepted = s.accepted) (hwrites : t.writes = s.writes) : Advance s entries ev t
  | idle {t : Tracked} {ended : Bool} (hkept : t.Kept entries ended) (hquiet : Quiet s t)
      (hcallbacks : t.world.writeQueueCallbacks = s.world.writeQueueCallbacks)
      (hfds : t.world.writeQueueFD = s.world.writeQueueFD) (haccepted : t.accepted = s.accepted)
      (hwrites : t.writes = s.writes) : Advance s entries ev t
  | pushed {t : Tracked} {i : Data × Option Encoding} {fd cb : Option ℕ}
      (hev : ev = .write i.1 i.2 fd cb) (hwaits : s.Waits)
      (hjoinable : s.world.joinable i.1 i.2 = none) (hkept : t.Kept (entries ++ [i]) false)
      (hquiet : Quiet s t)
      (hcallbacks : t.world.writeQueueCallbacks = s.world.writeQueueCallbacks ++ [cb.map .user])
      (hfds : t.world.writeQueueFD =
        if fd.isSome then s.world.writeQueueFD ++ [fd] else s.world.writeQueueFD)
      (haccepted : t.accepted = s.accepted ++ World.entryBytes s.world.pool i)
      (hwrites : t.writes = s.writes ++ [⟨s.accepted.length, t.accepted.length, fd, cb⟩]) :
      Advance s entries ev t
  | joined {t : Tracked} {l : List (Data × Option Encoding)} {u v : JSString}
      {encoding : Option Encoding} {fd cb : Option ℕ} (hev : ev = .write (.str v) encoding fd cb)
      (hwaits : s.Waits) (hjoinable : s.world.joinable (.str v) encoding = some (u, v))
      (hentries : entries = l ++ [(.str u, encoding)])
      (hkept : t.Kept (l ++ [(.str (u ++ v), encoding)]) false) (hquiet : Quiet s t)
      (hcallbacks : t.world.writeQueueCallbacks = s.world.joinCallback (cb.map .user))
      (hfds : t.world.writeQueueFD =
        if fd.isSome then s.world.writeQueueFD ++ [fd] else s.world.writeQueueFD)
      (haccepted : t.accepted = s.accepted ++ encodeText (textArg encoding) v)
      (hwrites : t.writes = s.writes ++ [⟨s.accepted.length, t.accepted.length, fd, cb⟩]) :
      Advance s entries ev t
  | whole {t : Tracked} {ended : Bool} {l : Load} (hload : Loads s entries ev l)
      (hkept : t.Kept l.rest ended)
      (hsent : t.world.sent = s.world.sent ++ World.entryBytes s.world.pool l.entry)
      (hcallbacks : t.world.writeQueueCallbacks = l.callbacks) (hfds : t.world.writeQueueFD = l.fds)
      (hcalled : t.world.called = s.world.called ++ World.ran l.cb)
      (hpassed :
        t.passed = s.passed ++ s.carried l.fd (World.entryBytes s.world.pool l.entry).length)
      (hthrown : .typeError ∈ t.thrown →
        .typeError ∈ s.thrown ∨ ∃ last id, l.cb = some (.joined last id))
      (haccepted : t.accepted = l.accepted) (hwrites : t.writes = l.writes) : Advance s entries ev t
  | left {t : Tracked} {ended : Bool} {l : Load} {front : List (Data × Option Encoding)} {b : Bytes}
      (hload : Loads s entries ev l) (hkept : t.Kept (front ++ l.rest) ended) (hfront : front ≠ [])
      (hsent : t.world.sent = s.world.sent ++ b)
      (hbytes :
        b ++ front.flatMap (World.entryBytes t.world.pool) = World.entryBytes s.world.pool l.entry)
      (hcallbacks : t.world.writeQueueCallbacks = List.replicate front.length l.cb ++ l.callbacks)
      (hfds : t.world.writeQueueFD = if b = [] then l.fd :: l.fds else l.fds)
      (hcalled : t.world.called = s.world.called)
      (hpassed : t.passed = s.passed ++ s.carried l.fd b.length)
      (hthrown : .typeError ∈ t.thrown → .typeError ∈ s.thrown)
      (haccepted : t.accepted = l.accepted) (hwrites : t.writes = l.writes)
      (htwo : front.length ≠ 1 → s.world.SplitsTwice l.entry.1 l.entry.2)
      (hpart : b ≠ [] ∨ front.length ≠ 1 →
        s.world.Splits l.entry.1 l.entry.2 ∨ s.world.Cuts l.entry.1 l.entry.2) :
      Advance s entries ev t

/-! ## One event -/

section Step

variable {m : Heap} {s t : Tracked} {entries : List (Data × Option Encoding)} {ended : Bool}
  {p p' : Pool} {i : Data × Option Encoding}

theorem sound_of_grows (h : Grows p p') (hi : World.Sound p i) :
    World.Sound p' i ∧ World.entryBytes p' i = World.entryBytes p i := by
  obtain ⟨d, encoding⟩ := i
  cases d with
  | str t => exact ⟨hi, rfl⟩
  | buf b => exact h.live hi

/-- The entries are what they were when the pool grows. -/
theorem flatMap_of_grows (h : Grows p p') (hsound : ∀ i ∈ entries, World.Sound p i) :
    (∀ i ∈ entries, World.Sound p' i) ∧
      entries.flatMap (World.entryBytes p') = entries.flatMap (World.entryBytes p) :=
  ⟨fun i hi ↦ (sound_of_grows h (hsound i hi)).1,
    List.flatMap_congr fun i hi ↦ (sound_of_grows h (hsound i hi)).2⟩

theorem typeError_after {α : Type} {r : Call α} :
    .typeError ∈ (s.after r).thrown ↔ .typeError ∈ s.thrown ∨ r.1 = .error .typeError := by
  obtain ⟨o, w⟩ := r
  refine List.mem_append.trans (or_congr Iff.rfl ?_)
  cases o with
  | ok x => exact iff_of_false (fun h ↦ by cases h) fun h ↦ by cases h
  | error e =>
    exact ⟨fun h ↦ congrArg Except.error (List.mem_singleton.mp h).symm,
      fun h ↦ List.mem_singleton.mpr (Except.error.inj h).symm⟩

/-- The descriptors that have gone along. -/
theorem after_passed {α : Type} {r : Call α} (fd : Option ℕ) (n : ℕ)
    (h : s.world.Carries fd n r.2.sentFDs) : (s.after r).passed = s.passed ++ s.carried fd n := by
  refine congrArg (s.passed ++ ·) ?_
  rw [carried]
  obtain ⟨hsame, hzero⟩ | ⟨hunix, hmore⟩ := h
  · rw [hsame, List.drop_length, if_neg]
    · rfl
    · rintro ⟨hunix, hpos⟩
      obtain rfl | htcp := hzero
      · exact Nat.lt_irrefl 0 hpos
      · cases hunix.symm.trans htcp
  · rw [hmore, List.drop_left]
    cases fd with
    | none => simp
    | some f => by_cases hpos : 0 < n <;> simp [hunix, hpos]

theorem Quiet.after {α : Type} {r : Call α} (hsent : r.2.sent = s.world.sent)
    (hcalled : r.2.called = s.world.called) (hfds : r.2.sentFDs = s.world.sentFDs)
    (hthrows : r.1 ≠ .error .typeError) : Quiet s (s.after r) where
  sent := hsent
  called := hcalled
  passed := by
    have hpassed := after_passed (s := s) (r := r) none 0 (.inl ⟨hfds, .inl rfl⟩)
    rw [hpassed, carried, if_neg fun h ↦ Nat.lt_irrefl 0 h.2, List.append_nil]
  thrown h := (typeError_after.mp h).resolve_right hthrows

/-- What `_writeOut` does to an open socket. -/
theorem advance_of_outcome {ev : SocketEvent} {l : Load} (hload : Loads s entries ev l) {w : World}
    {queue : List QueueEntry} {encodings : List (Option Encoding)} {size : ℤ}
    (hw : w =
      { s.world with
        writeQueue := queue
        writeQueueEncoding := encodings
        writeQueueCallbacks := l.callbacks
        writeQueueFD := l.fds
        bufferSize := size })
    {r : Call Bool} (hout : World.Outcome w l.rest ended l.entry.1 l.entry.2 l.fd l.cb r)
    (hgrows : Grows s.world.pool r.2.pool) (hsound : ∀ i ∈ l.rest, World.Sound s.world.pool i)
    (hbytes : s.world.sent ++ (World.entryBytes s.world.pool l.entry ++
      l.rest.flatMap (World.entryBytes s.world.pool)) = l.accepted)
    (ht : t.world = r.2) (hpassed : t.passed = (s.after r).passed)
    (hthrown : .typeError ∈ t.thrown → .typeError ∈ (s.after r).thrown)
    (haccepted : t.accepted = l.accepted) (hwrites : t.writes = l.writes) :
    Advance s entries ev t := by
  subst hw
  obtain ⟨hsound', hflat⟩ := flatMap_of_grows hgrows hsound
  cases hout with
  | gone hok hgone => exact .gone (ht ▸ hgone)
  | whole hthrows hqueues hsent hcallbacks hfds hcarries hcalled =>
    refine .whole hload ⟨ht ▸ hqueues, ht ▸ hsound', ?_⟩ (ht ▸ hsent) (ht ▸ hcallbacks) (ht ▸ hfds)
      (ht ▸ hcalled) (hpassed.trans (after_passed _ _ hcarries)) (fun h ↦ ?_) haccepted hwrites
    · rw [ht, hflat, haccepted, ← hbytes, hsent, List.append_assoc]
      rfl
    · exact (typeError_after.mp (hthrown h)).imp_right (hthrows _)
  | left front b hok hqueues hfront hfrontSound hsent hbytes' hcallbacks hfds hcarries hcalled htwo
      hpart =>
    have hbytes'' : b ++ front.flatMap (World.entryBytes r.2.pool) =
        World.entryBytes s.world.pool l.entry := hbytes'
    have hall : ∀ i ∈ front ++ l.rest, World.Sound r.2.pool i := fun i hi ↦
      (List.mem_append.mp hi).elim (hfrontSound i) (hsound' i)
    refine .left hload ⟨ht ▸ hqueues, ht ▸ hall, ?_⟩ hfront (ht ▸ hsent) (ht ▸ hbytes'')
      (ht ▸ hcallbacks) (ht ▸ hfds) (ht ▸ hcalled) (hpassed.trans (after_passed _ _ hcarries))
      (fun h ↦ ?_) haccepted hwrites htwo hpart
    · rw [ht, haccepted, ← hbytes, ← hbytes'', List.flatMap_append, hflat, hsent]
      simp only [List.append_assoc]
    · refine (typeError_after.mp (hthrown h)).resolve_right fun he ↦ ?_
      cases hok.symm.trans he

/-- A call that sends nothing and leaves the entries. -/
theorem advance_of_idle {α : Type} (h : s.Kept entries ended) {r : Call α} {ended' : Bool}
    (hqueues : r.2.Queues entries ended') (hpool : r.2.pool = s.world.pool)
    (hsent : r.2.sent = s.world.sent) (hcalled : r.2.called = s.world.called)
    (hsentFDs : r.2.sentFDs = s.world.sentFDs)
    (hcallbacks : r.2.writeQueueCallbacks = s.world.writeQueueCallbacks)
    (hfds : r.2.writeQueueFD = s.world.writeQueueFD) (hthrows : r.1 ≠ .error .typeError)
    (ev : SocketEvent) : Advance s entries ev (s.after r) := by
  refine .idle ⟨hqueues, ?_, ?_⟩ (.after hsent hcalled hsentFDs hthrows) hcallbacks hfds rfl rfl
  · exact hpool.symm ▸ h.sound
  · have hbytes := h.bytes
    rw [← hsent, ← hpool] at hbytes
    exact hbytes

theorem queues_endQueued {w : World} (h : w.Queues entries ended) : w.endQueued = ended := by
  rw [World.endQueued, h.queue]
  cases ended with
  | true => simp
  | false =>
    rcases entries.eq_nil_or_concat with rfl | ⟨l, i, rfl⟩
    · rfl
    · simp

theorem advance_turn (m : Heap) (h : s.Kept entries ended) (hexact : s.Exact (.part .turn)) :
    Advance s entries (.part .turn)
      (s.after (Life.Part.run (poolWriter m) s.world .turn)) := by
  cases entries with
  | nil =>
    obtain ⟨hok, hsent, hcalled, hsentFDs, hnext⟩ := World.turn_nil h.queues (poolWriter m)
    have hthrows : (Life.Part.run (poolWriter m) s.world .turn).1 ≠ .error .typeError := by
      rw [Life.Part.run]
      generalize (s.world.turn (poolWriter m)).1 = o at hok ⊢
      cases o with
      | error e => exact absurd rfl (hok e)
      | ok flushed => exact fun he ↦ by cases he
    obtain hgone | hdone | ⟨hqueues, hpool, hcallbacks, hfds⟩ := hnext
    · exact .gone hgone
    · exact .done rfl hdone (.after hsent hcalled hsentFDs hthrows) rfl rfl
    · exact advance_of_idle (r := Life.Part.run (poolWriter m) s.world .turn) h hqueues hpool hsent
        hcalled hsentFDs hcallbacks hfds hthrows _
  | cons i rest =>
    obtain ⟨q, r, hq, hqueues, hr, hturn, herror⟩ := World.turn_cons h.queues (poolWriter m)
    have hencoding : s.world.writeQueueEncoding.head?.join = i.2 := by
      rw [h.queues.encodings]
      rfl
    have hbytes := h.bytes
    rw [List.flatMap_cons] at hbytes
    have hsound := h.sound i List.mem_cons_self
    have hout := World.writeOut_outcome m hqueues (d := i.1) hsound
      (fun t ht ↦ hencoding ▸ hexact t q (ht ▸ hq)) s.world.writeQueueFD.head?.join
      s.world.writeQueueCallbacks.head?.join
    have hgrows := (Sockets.writeOut_moves (poolWriter m) (s.world.taking i.1 q) i.1 i.2
      s.world.writeQueueFD.head?.join s.world.writeQueueCallbacks.head?.join).1
    rw [← hr] at hout hgrows
    have hworld : (s.after (Life.Part.run (poolWriter m) s.world .turn)).world = r.2 := hturn
    refine advance_of_outcome (.turn rfl rfl) (w := s.world.taking i.1 q) rfl hout hgrows
      (fun j hj ↦ h.sound j (List.mem_cons_of_mem _ hj)) hbytes hworld ?_ (fun hthrown ↦ ?_) rfl rfl
    · change s.passed ++ (((s.world.turn (poolWriter m)).2.sentFDs.drop _).filter _).map _ = _
      rw [hturn]
      rfl
    · refine typeError_after.mpr ((typeError_after.mp hthrown).imp_right fun he ↦ herror _ ?_)
      rw [Life.Part.run] at he
      generalize (s.world.turn (poolWriter m)).1 = o at he ⊢
      cases o with
      | error e =>
        cases he
        rfl
      | ok flushed => cases he

theorem advance_part (m : Heap) (h : s.Kept entries ended) (p : Life.Part)
    (hexact : s.Exact (.part p)) :
    Advance s entries (.part p) (s.after (p.run (poolWriter m) s.world)) := by
  have hsame {r : Call Unit} (hr : r.2 = s.world) (hthrows : r.1 ≠ .error .typeError) :
      Advance s entries (.part p) (s.after r) :=
    advance_of_idle h (hr ▸ h.queues) (hr ▸ rfl) (hr ▸ rfl) (hr ▸ rfl) (hr ▸ rfl) (hr ▸ rfl)
      (hr ▸ rfl) hthrows _
  obtain ⟨hqueue, hencodings, hsize, halive, hconnecting, hwritable⟩ := h.queues
  cases p with
  | established =>
    rw [Life.Part.run]
    split_ifs
    · exact advance_of_idle h ⟨hqueue, hencodings, hsize, halive, fun hc ↦ (by cases hc), rfl⟩ rfl
        rfl rfl rfl rfl rfl (fun he ↦ by cases he) _
    · exact hsame rfl fun he ↦ by cases he
  | mark =>
    rw [Life.Part.run, queues_endQueued h.queues]
    split_ifs with hopen
    · obtain rfl : ended = false := Bool.eq_false_of_not_eq_true hopen.2
      have hqueue' : s.world.writeQueue ++ [QueueEntry.endOfFile] =
          entries.map (QueueEntry.data ·.1) ++ [QueueEntry.endOfFile] := by
        rw [hqueue, if_neg Bool.false_ne_true, List.append_nil]
      refine advance_of_idle h (?_ : World.Queues _ entries true) rfl rfl rfl rfl rfl rfl
        (fun he ↦ by cases he) _
      exact ⟨hqueue', hencodings, hsize, halive, hconnecting, hwritable⟩
    · exact hsame rfl fun he ↦ by cases he
  | soon =>
    exact advance_of_idle h ⟨hqueue, hencodings, hsize, halive, hconnecting, hwritable⟩ rfl rfl rfl
      rfl rfl rfl (fun he ↦ by cases he) _
  | turn => exact advance_turn m h hexact

theorem wrote_of_ok {α : Type} {r : Call α} {x : α} (h : r.1 = .ok x) (b : Bytes)
    (fd cb : Option ℕ) :
    s.wrote b fd cb r =
      { s.after r with
        accepted := s.accepted ++ b
        writes := s.writes ++ [⟨s.accepted.length, (s.accepted ++ b).length, fd, cb⟩] } := by
  obtain ⟨o, w⟩ := r
  obtain rfl : o = .ok x := h
  rfl

/-- A write that does not wait. -/
theorem advance_writeOut (m : Heap) (h : s.Kept [] ended) {d : Data} {encoding : Option Encoding}
    (hidle : ¬s.Waits) (hsound : World.Sound s.world.pool (d, encoding))
    (hfits : ∀ t, d = .str t → World.FitsPool encoding t s.world.pool.ensure.room)
    (fd cb : Option ℕ) :
    Advance s [] (.write d encoding fd cb)
      (s.wrote (dataBytes s.world.pool d encoding) fd cb
        (s.world.writeOut (poolWriter m) d encoding fd (cb.map .user))) := by
  have hout := World.writeOut_outcome m h.queues hsound hfits fd (cb.map .user)
  have hgrows := (Sockets.writeOut_moves (poolWriter m) s.world d encoding fd (cb.map .user)).1
  have hbytes : s.world.sent ++ [] = s.accepted := h.bytes
  rw [List.append_nil] at hbytes
  generalize s.world.writeOut (poolWriter m) d encoding fd (cb.map .user) = r at hout hgrows ⊢
  have hok : ∃ b, r.1 = .ok b := by
    cases hout with
    | gone hok => exact ⟨_, hok⟩
    | left _ _ hok => exact ⟨_, hok⟩
    | whole hthrows =>
      generalize r.1 = o at hthrows
      cases o with
      | ok b => exact ⟨b, rfl⟩
      | error e =>
        obtain ⟨last, id, hcb⟩ := hthrows e rfl
        cases cb <;> cases hcb
  obtain ⟨b, hok⟩ := hok
  rw [wrote_of_ok hok]
  refine advance_of_outcome (.write (i := (d, encoding)) rfl rfl hidle) (w := s.world) rfl hout
    hgrows (fun j hj ↦ by cases hj) ?_ rfl rfl id rfl rfl
  rw [hbytes]
  exact congrArg (s.accepted ++ ·) (List.append_nil _)

/-- A write that waits. -/
theorem advance_enqueue (h : s.Kept entries false) {d : Data} {encoding : Option Encoding}
    (hwaits : s.Waits) (hsound : World.Sound s.world.pool (d, encoding)) (fd cb : Option ℕ) :
    Advance s entries (.write d encoding fd cb)
      (s.wrote (dataBytes s.world.pool d encoding) fd cb
        (.ok false, s.world.enqueue d encoding fd (cb.map .user))) := by
  obtain ⟨hpool, hsent, hcalled, hsentFDs, hfds⟩ :=
    s.world.enqueue_frame d encoding fd (cb.map .user)
  have hres := World.enqueue_queues h.queues d encoding fd (cb.map .user)
  have hbytes := h.bytes
  generalize s.world.enqueue d encoding fd (cb.map .user) = v
    at hpool hsent hcalled hsentFDs hfds hres ⊢
  have hquiet : Quiet s (s.after (.ok false, v)) :=
    .after (r := (.ok false, v)) hsent hcalled hsentFDs fun he ↦ by cases he
  rw [wrote_of_ok (x := false) rfl]
  obtain ⟨hjoinable, hqueues, hcallbacks⟩ | ⟨l, t, u, hjoinable, rfl, rfl, hqueues, hcallbacks⟩ :=
    hres
  · refine .pushed (i := (d, encoding)) rfl hwaits hjoinable ⟨hqueues, ?_, ?_⟩
      ⟨hquiet.sent, hquiet.called, hquiet.passed, hquiet.thrown⟩ hcallbacks hfds rfl rfl
    · change ∀ i ∈ entries ++ [(d, encoding)], World.Sound v.pool i
      rw [hpool]
      intro i hi
      obtain hi | hi := List.mem_append.mp hi
      · exact h.sound i hi
      · rw [List.mem_singleton.mp hi]
        exact hsound
    · change v.sent ++ (entries ++ [(d, encoding)]).flatMap (World.entryBytes v.pool) =
        s.accepted ++ dataBytes s.world.pool d encoding
      rw [hpool, hsent, ← hbytes, List.flatMap_append, List.flatMap_singleton, List.append_assoc]
      rfl
  · have htext : World.Sendable encoding t := h.sound (.str t, encoding) (by simp)
    refine .joined rfl hwaits hjoinable rfl ⟨hqueues, ?_, ?_⟩
      ⟨hquiet.sent, hquiet.called, hquiet.passed, hquiet.thrown⟩ hcallbacks hfds rfl rfl
    · change ∀ i ∈ l ++ [(Data.str (t ++ u), encoding)], World.Sound v.pool i
      rw [hpool]
      intro i hi
      obtain hi | hi := List.mem_append.mp hi
      · exact h.sound i (List.mem_append_left _ hi)
      · rw [List.mem_singleton.mp hi]
        exact htext.append hsound
    · change v.sent ++ (l ++ [(Data.str (t ++ u), encoding)]).flatMap (World.entryBytes v.pool) =
        s.accepted ++ encodeText (textArg encoding) u
      rw [List.flatMap_append, List.flatMap_singleton] at hbytes
      rw [hpool, hsent, ← hbytes, List.flatMap_append, List.flatMap_singleton, List.append_assoc,
        List.append_assoc]
      exact congrArg (fun b ↦ s.world.sent ++ (_ ++ b)) (encodeText_append htext.encodable u)

theorem advance_write (m : Heap) (h : s.Kept entries ended) {d : Data}
    {encoding : Option Encoding} {fd cb : Option ℕ} (hallows : s.Allows (.write d encoding fd cb))
    (hexact : s.Exact (.write d encoding fd cb)) :
    Advance s entries (.write d encoding fd cb)
      (s.step (poolWriter m) (.write d encoding fd cb)) := by
  have hsound : World.Sound s.world.pool (d, encoding) := by
    cases d with
    | str t => exact hexact.1
    | buf b => exact hallows
  have hsize := h.queues.size
  rw [step, World.write, if_neg (by omega), queues_endQueued h.queues]
  by_cases hwaits : s.world.connecting = true ∨ s.world.writeQueue ≠ []
  · rw [if_pos hwaits]
    cases ended with
    | true =>
      rw [if_pos rfl]
      exact advance_of_idle h h.queues rfl rfl rfl rfl rfl rfl (fun he ↦ by cases he) _
    | false => exact advance_enqueue h hwaits hsound fd cb
  · rw [if_neg hwaits]
    have hentries : entries = [] := by
      have hqueue := h.queues.queue
      rw [not_or, not_ne_iff] at hwaits
      rw [hwaits.2] at hqueue
      exact List.map_eq_nil_iff.mp (List.append_eq_nil_iff.mp hqueue.symm).1
    subst hentries
    refine advance_writeOut m h hwaits hsound (fun t ht ↦ ?_) fd cb
    subst ht
    exact hexact.2 hwaits

theorem advance (m : Heap) (h : s.Kept entries ended) {ev : SocketEvent} (hallows : s.Allows ev)
    (hexact : s.Exact ev) : Advance s entries ev (s.step (poolWriter m) ev) := by
  cases ev with
  | write d encoding fd cb => exact advance_write m h hallows hexact
  | part p => exact advance_part m h p hexact
  | destroy => exact .gone h.queues.destroy.2
  | others p =>
    obtain ⟨hsound, hflat⟩ := flatMap_of_grows hallows h.sound
    obtain ⟨hqueue, hencodings, hsize, halive, hconnecting, hwritable⟩ := h.queues
    have hkept : Kept (s.step (poolWriter m) (.others p)) entries ended := by
      refine ⟨⟨hqueue, hencodings, hsize, halive, hconnecting, hwritable⟩, hsound, ?_⟩
      exact (congrArg (s.world.sent ++ ·) hflat).trans h.bytes
    exact .idle hkept ⟨rfl, rfl, rfl, id⟩ rfl rfl rfl rfl

/-! ## Runs -/

theorem start_kept (type : SocketType) (connecting readable : Bool) (pool : Pool)
    (kernel : ℕ → KernelReply) : (start type connecting readable pool kernel).Kept [] false := by
  refine ⟨⟨rfl, rfl, rfl, rfl, fun hconnecting ↦ ?_, rfl⟩, fun i hi ↦ (by cases hi), rfl⟩
  have hconnecting' : connecting = true := hconnecting
  subst hconnecting'
  exact Bool.and_false readable

theorem wrote_world {α : Type} (s : Tracked) (b : Bytes) (fd cb : Option ℕ) (r : Call α) :
    (s.wrote b fd cb r).world = r.2 := by
  obtain ⟨o, w⟩ := r
  cases o <;> rfl

/-- `bufferSize` counts what is queued, and a destroyed socket stays destroyed. -/
theorem step_sized (pw : PoolWriter) (h : s.world.Sized) (ev : SocketEvent) :
    (s.step pw ev).world.Sized ∧
      (s.world.destroyed = true → (s.step pw ev).world.destroyed = true) := by
  cases ev with
  | write d encoding fd cb =>
    have hfollows : World.Follows s.world (s.world.write pw d encoding fd (cb.map .user)).2 :=
      World.write_follows h d encoding fd _
    rw [step, wrote_world]
    exact ⟨hfollows.sized, hfollows.gone⟩
  | part p => exact World.part_follows h pw p
  | destroy =>
    have hfollows := World.destroy_follows (w := s.world) h rfl
    exact ⟨hfollows.sized, hfollows.gone⟩
  | others p => exact ⟨h, id⟩

/-- Nothing more is sent when `_shutdown` has been called. -/
theorem step_done (pw : PoolWriter) (h : s.world.Done) (ev : SocketEvent) :
    (s.step pw ev).world.destroyed = true ∨
      (s.step pw ev).world.Done ∧ Quiet s (s.step pw ev) ∧
        (s.step pw ev).accepted = s.accepted ∧ (s.step pw ev).writes = s.writes := by
  have ⟨hqueue, hwritable, hconnecting, hsize⟩ := h
  have hcall {α : Type} {r : Call α} (hr : r.2.Done) (hsent : r.2.sent = s.world.sent)
      (hcalled : r.2.called = s.world.called) (hfds : r.2.sentFDs = s.world.sentFDs)
      (hthrows : r.1 ≠ .error .typeError) :
      (s.after r).world.Done ∧ Quiet s (s.after r) ∧ (s.after r).accepted = s.accepted ∧
        (s.after r).writes = s.writes :=
    ⟨hr, .after hsent hcalled hfds hthrows, rfl, rfl⟩
  cases ev with
  | write d encoding fd cb =>
    have hwrite : s.world.write pw d encoding fd (cb.map .user) =
        (.error (.error "Socket is not writable"), s.world) := by
      rw [World.write, if_neg (by omega), if_neg (by simp [hconnecting, hqueue]), World.writeOut,
        if_pos (by simp [hwritable])]
    rw [step, hwrite]
    exact .inr (hcall (r := (.error (.error "Socket is not writable"), s.world)) h rfl rfl rfl
      fun he ↦ by cases he)
  | part p =>
    refine .inr ?_
    cases p with
    | established =>
      rw [step, Life.Part.run, if_neg (by simp [hconnecting])]
      exact hcall (r := (.error .assertion, s.world)) h rfl rfl rfl fun he ↦ by cases he
    | mark =>
      rw [step, Life.Part.run, if_neg (by simp [hwritable])]
      exact hcall (r := (.ok (), s.world)) h rfl rfl rfl fun he ↦ by cases he
    | soon => exact hcall ⟨hqueue, hwritable, hconnecting, hsize⟩ rfl rfl rfl fun he ↦ by cases he
    | turn =>
      have hturn : s.world.turn pw =
          (.ok (some true), { s.world with writeQueue := [], watching := false }) := by
        simp only [World.turn, hqueue]
      rw [step, Life.Part.run, hturn]
      exact hcall ⟨rfl, hwritable, hconnecting, hsize⟩ rfl rfl rfl fun he ↦ by cases he
  | destroy =>
    refine .inl ?_
    rw [step, World.destroy, if_neg (by omega)]
    rfl
  | others p => exact .inr ⟨⟨hqueue, hwritable, hconnecting, hsize⟩, ⟨rfl, rfl, rfl, id⟩, rfl, rfl⟩

end Step

end Tracked

end SpiderNode.Net
