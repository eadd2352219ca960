import SpiderNode.Net.Conservation

/-!
# The life of a socket

A run starts from a socket that is connected or connecting and has nothing queued, and then takes
any calls and readiness events in any order, against any kernel. The main theorem says that at
every moment of every run the queue accounts for what has been written, and that the connection is
shut down only when nothing is left to send.
-/

namespace SpiderNode.Net

/-! ## The pool -/

/-- A `pool.write` that stores a prefix of whole characters of a string and reports its exact
number of bytes and, for UTF-8, in `Buffer._charsWritten`, of code units. The pool has at least
`kMinPoolSpace` bytes left when it is called, so the prefix is empty only if the string is, as
`_writeOut` asserts. -/
structure ExactPool where
  write : PoolWriter
  exact : ∀ (e : TextEncoding) (s : JSString) (room : ℕ), Encodable (some e) s = true →
    kMinPoolSpace ≤ room → ∃ (k : ℕ) (chars : ℤ), k ≤ s.length ∧ (s ≠ [] → 0 < k) ∧
      Encodable (some e) (s.take k) = true ∧ (encodeText (some e) (s.take k)).length ≤ room ∧
      (isUtf8 (some e) = true → chars = k) ∧
      write (.text e) s room =
        .ok ⟨encodeText (some e) (s.take k), (encodeText (some e) (s.take k)).length, chars⟩

/-- The first character of a string that has an encoding takes one or two code units, and at most
four bytes. -/
theorem exists_first_character {e : TextEncoding} {s : JSString} (h : Encodable (some e) s = true)
    (hs : s ≠ []) : ∃ k, 0 < k ∧ k ≤ s.length ∧ Encodable (some e) (s.take k) = true ∧
      (encodeText (some e) (s.take k)).length ≤ 4 := by
  obtain ⟨u, t, rfl⟩ := List.exists_cons_of_ne_nil hs
  cases he : isUtf8 (some e) with
  | false =>
    exact ⟨1, by simp, by simp, by simp [Encodable, he], by simp [encodeText, he, latin1Bytes]⟩
  | true =>
    have hw : WellFormed (u :: t) = true := by simpa [Encodable, he] using h
    simp only [Encodable, encodeText, he, if_true, Bool.not_true, Bool.false_or]
    by_cases hu : (isHigh u || isLow u) = true
    · -- the character is a surrogate pair
      cases t with
      | nil => simp [WellFormed, hu] at hw
      | cons v t =>
        have hp : (isHigh u && isLow v) = true := by
          by_contra hp
          simp [WellFormed, hp, hu] at hw
        refine ⟨2, by simp, by simp, by simp [WellFormed, hp], ?_⟩
        simpa [utf8Bytes, hp] using length_codePointBytes_le _
    · refine ⟨1, by simp, by simp, by simp [WellFormed, hu], ?_⟩
      simpa [utf8Bytes, hu] using length_codePointBytes_le _

/-- The number of code units of the longest prefix of whole characters that fits in `room` bytes. -/
def longestFit (e : TextEncoding) (s : JSString) (room : ℕ) : ℕ :=
  Nat.findGreatest (fun k ↦ Encodable (some e) (s.take k) = true ∧
    (encodeText (some e) (s.take k)).length ≤ room) s.length

/-- The pool that stores as many whole characters as fit. -/
def ExactPool.greedy : ExactPool where
  write
    | .text e, s, room =>
      let stored := encodeText (some e) (s.take (longestFit e s room))
      .ok ⟨stored, stored.length, longestFit e s room⟩
    | _, _, _ => .error (.error "Unknown encoding")
  exact := by
    intro e s room hs hroom
    have hfit : Encodable (some e) (s.take (longestFit e s room)) = true ∧
        (encodeText (some e) (s.take (longestFit e s room))).length ≤ room :=
      Nat.findGreatest_spec (P := fun k ↦ Encodable (some e) (s.take k) = true ∧
        (encodeText (some e) (s.take k)).length ≤ room) (Nat.zero_le _) (by simp)
    refine ⟨longestFit e s room, _, Nat.findGreatest_le _, fun hne ↦ ?_, hfit.1, hfit.2,
      fun _ ↦ rfl, rfl⟩
    obtain ⟨k, hk, hks, henc, hlen⟩ := exists_first_character hs hne
    have hroom' : 128 ≤ room := hroom
    exact Nat.lt_of_lt_of_le hk (Nat.le_findGreatest hks ⟨henc, by omega⟩)

/-- The spelling of an encoding that reaches `pool.write`. -/
def spelling : Option TextEncoding → TextEncoding
  | none | some .utf8Dash => .utf8
  | some e => e

theorem poolEncoding_asArg (e : Option TextEncoding) :
    World.poolEncoding (asArg e) = .text (spelling e) := by
  rcases e with _ | e
  · rfl
  · cases e <;> rfl

theorem isUtf8_spelling (e : Option TextEncoding) : isUtf8 (some (spelling e)) = isUtf8 e := by
  rcases e with _ | e
  · rfl
  · cases e <;> rfl

theorem encodable_spelling (e : Option TextEncoding) (s : JSString) :
    Encodable (some (spelling e)) s = Encodable e s := by
  rw [Encodable, Encodable, isUtf8_spelling]

theorem encodeText_spelling (e : Option TextEncoding) (s : JSString) :
    encodeText (some (spelling e)) s = encodeText e s := by
  rw [encodeText, encodeText, isUtf8_spelling]

/-- An exact pool can be relied on for every string that has an encoding. -/
theorem ExactPool.trusted (x : ExactPool) : Trusted x.write fun e s ↦ Encodable e s = true where
  encodable := id
  drop := by
    intro e s k hs _ hk
    rw [← encodable_append hk (s.drop k), List.take_append_drop]
    exact hs
  append := by
    intro e s t hs ht
    rw [encodable_append hs]
    exact ht
  exact := by
    intro e s room hs hroom
    rw [← encodable_spelling] at hs
    obtain ⟨k, chars, hk, hpos, henc, hfit, hchars, hpw⟩ := x.exact (spelling e) s room hs hroom
    rw [encodable_spelling] at henc
    rw [encodeText_spelling] at hfit hpw
    rw [isUtf8_spelling] at hchars
    refine ⟨k, [], chars, hk, hpos, henc, ?_, hchars, ?_⟩
    · rw [List.append_nil]
      exact hfit
    · rw [poolEncoding_asArg, hpw, List.append_nil]

/-! ## Runs -/

/-- What is passed to `write`: a string that has bytes under its encoding, or the bytes of a
`Buffer`, for which the encoding is ignored. -/
inductive Payload where
  | text (s : JSString) (e : Option TextEncoding) (h : Encodable e s = true)
  | bytes (b : Bytes) (encoding : Option Encoding)

namespace Payload

def data : Payload → Data
  | text s _ _ => .str s
  | bytes b _ => .buf (.own b)

def encoding : Payload → Option Encoding
  | text _ e _ => asArg e
  | bytes _ encoding => encoding

/-- The bytes that are to be sent. -/
def encoded : Payload → Bytes
  | text s e _ => encodeText e s
  | bytes b _ => b

theorem good (d : Payload) (p : Pool) :
    Good (fun e s ↦ Encodable e s = true) p (d.data, d.encoding) := by
  cases d with
  | text s e h => exact .str h
  | bytes b encoding => exact .buf trivial

theorem dataBytes_eq (d : Payload) (p : Pool) : dataBytes p d.data d.encoding = d.encoded := by
  cases d with
  | text s e h => exact dataBytes_str p s e
  | bytes b encoding => rfl

end Payload

/-- What may happen to a socket. -/
inductive Event where
  | write (d : Payload) (fd cb : Option ℕ)
  | end
  | flush
  /-- The callback of `_writeWatcher`, with the state of the connection if that is pending. -/
  | writeReady (r : World.ConnectResult)
  | destroySoon
  | destroy
  /-- Some socket reads into the pool. -/
  | poolRead (b : Bytes)

/-- A socket, and what the calls of `write` that returned were given. -/
structure Run where
  world : World
  accepted : Bytes

namespace Run

def step (pw : PoolWriter) (r : Run) : Event → Run
  | .write d fd cb =>
    match r.world.write pw d.data d.encoding fd (cb.map .user) with
    | (.ok _, w) => ⟨w, r.accepted ++ d.encoded⟩
    | (.error _, w) => ⟨w, r.accepted⟩
  | .end => { r with world := (r.world.end pw).2 }
  | .flush => { r with world := (r.world.flush pw).2 }
  | .writeReady c => { r with world := (r.world.writeReady pw c).2 }
  | .destroySoon => { r with world := (r.world.destroySoon pw).2 }
  | .destroy => { r with world := r.world.destroy.2 }
  | .poolRead b => { r with world := r.world.poolRead b }

def run (pw : PoolWriter) (r : Run) (events : List Event) : Run := events.foldl (step pw) r

/-- A socket with nothing queued. While it is connecting it is not readable yet. -/
def start (type : SocketType) (connecting readable : Bool) (pool : Pool)
    (kernel : ℕ → KernelReply) : Run where
  accepted := []
  world :=
    { type, connecting, pool, kernel
      readable := readable && !connecting
      writable := true
      destroyed := false
      destroyOnDrain := false
      writeQueue := []
      writeQueueEncoding := []
      writeQueueCallbacks := []
      writeQueueFD := []
      bufferSize := 0
      watching := false
      calls := 0
      sent := []
      sentFDs := []
      shut := false
      called := [] }

variable {G : Option TextEncoding → JSString → Prop}

theorem start_accounted (type : SocketType) (connecting readable : Bool) (pool : Pool)
    (kernel : ℕ → KernelReply) :
    Accounted G [] (start type connecting readable pool kernel).world := by
  refine @Accounted.live _ _ _ [] false ?_
  constructor
  case queue => rfl
  case encodings => rfl
  case good => simp
  case size => rfl
  case bytes => rfl
  case alive => rfl
  case connecting =>
    intro hc
    have hc' : connecting = true := hc
    simp [start, hc']
  case writable => rfl
  case unshut => rfl

/-- One event. -/
theorem step_accounted (x : ExactPool) {r : Run}
    (h : Accounted (fun e s ↦ Encodable e s = true) r.accepted r.world) (ev : Event) :
    Accounted (fun e s ↦ Encodable e s = true) (r.step x.write ev).accepted
      (r.step x.write ev).world := by
  cases ev with
  | write d fd cb =>
    have hw := World.write_accounted x.trusted (d.good r.world.pool) h fd cb
    rw [d.dataBytes_eq] at hw
    simp only [step]
    generalize r.world.write x.write d.data d.encoding fd (cb.map .user) = res at hw
    obtain ⟨o, w⟩ := res
    rcases hw with ⟨b, ho, hacc⟩ | ⟨e, ho, hacc⟩
    · obtain rfl : o = .ok b := ho
      exact hacc
    · obtain rfl : o = .error e := ho
      exact hacc
  | «end» => exact World.end_accounted x.trusted h
  | flush => exact World.flush_accounted x.trusted h
  | writeReady c => exact World.writeReady_accounted x.trusted h c
  | destroySoon => exact World.destroySoon_accounted x.trusted h
  | destroy => exact World.destroy_accounted h
  | poolRead b => exact World.poolRead_accounted h b

theorem run_accounted (x : ExactPool) (events : List Event) :
    ∀ {r : Run}, Accounted (fun e s ↦ Encodable e s = true) r.accepted r.world →
      Accounted (fun e s ↦ Encodable e s = true) (r.run x.write events).accepted
        (r.run x.write events).world := by
  induction events with
  | nil => exact fun h ↦ h
  | cons ev events ih => exact fun h ↦ ih (step_accounted x h ev)

end Run

/-! ## Conservation -/

theorem queueBytes_items (p : Pool) (items : List (Data × Option Encoding)) (ended : Bool) :
    queueBytes p (items.map (QueueEntry.data ·.1) ++
      if ended then [QueueEntry.endOfFile] else []) (items.map (·.2)) =
      items.flatMap fun i ↦ dataBytes p i.1 i.2 := by
  induction items with
  | nil => cases ended <;> rfl
  | cons i items ih => simp [queueBytes, ih]

theorem queueLength_items (items : List (Data × Option Encoding)) (ended : Bool) :
    queueLength (items.map (QueueEntry.data ·.1) ++ if ended then [QueueEntry.endOfFile] else []) =
      (items.map (·.1.length)).sum := by
  induction items with
  | nil => cases ended <;> rfl
  | cons i items ih => simp [queueLength, ih]

/-- **Conservation.** In every run, as long as the socket is not destroyed, what the kernel has
accepted followed by what is queued is what has been written, and `bufferSize` counts what is
queued; and the connection is shut down only when everything has been accepted. -/
theorem Run.conserves (x : ExactPool) (type : SocketType) (connecting readable : Bool)
    (pool : Pool) (kernel : ℕ → KernelReply) (events : List Event) :
    let r := (Run.start type connecting readable pool kernel).run x.write events
    (r.world.destroyed = false →
      r.world.sent ++ queueBytes r.world.pool r.world.writeQueue r.world.writeQueueEncoding
          = r.accepted ∧
        r.world.bufferSize = queueLength r.world.writeQueue) ∧
      (r.world.shut = true → r.world.sent = r.accepted) := by
  intro r
  have h := Run.run_accounted x events
    (r := Run.start type connecting readable pool kernel)
    (Run.start_accounted type connecting readable pool kernel)
  cases h with
  | live h =>
    refine ⟨fun _ ↦ ⟨?_, ?_⟩, fun hs ↦ ?_⟩
    · rw [h.queue, h.encodings, queueBytes_items]
      exact h.bytes
    · rw [h.queue, queueLength_items]
      exact h.size
    · rw [h.unshut] at hs
      cases hs
  | shut h =>
    refine ⟨fun _ ↦ ⟨?_, ?_⟩, fun _ ↦ h.sent⟩
    · rw [h.queue, queueBytes, List.append_nil]
      exact h.sent
    · rw [h.queue, h.size]
      rfl
  | dead h =>
    refine ⟨fun hd ↦ ?_, fun hs ↦ ?_⟩
    · rw [h.destroyed] at hd
      cases hd
    · rw [h.unshut] at hs
      cases hs

end SpiderNode.Net
