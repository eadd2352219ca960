import SpiderNode.Net.Turns
import SpiderNode.Machine.Runs

/-!
# The descriptor of a socket

`connect`, `doConnect`, `_onConnect`, `_onReadable`, `destroy` and `readyState` of `lib/net.js`,
around the write side of `World`. A socket makes a descriptor when it connects to a path, and when a
name has been looked up; `destroy` closes it. Listeners and callbacks may call the socket, so a turn
of `flush` is an event of its own.

`doConnect` asks whether the socket has been destroyed in the meantime, but the callback of the
lookup has made the descriptor before that, and it does not ask whether there is one already.
`connect` resets a socket before it finds that it is open. `released_of_wanted` says that these are
the only ways to lose a descriptor, or to get the state wrong.
-/

namespace SpiderNode.Net

/-- A socket with its descriptor. Descriptors are numbered in the order they are made. -/
structure Life where
  world : World
  fd : Option ℕ
  /-- `_readWatcher` and `_writeWatcher` are there. -/
  watchers : Bool
  allowHalfOpen : Bool
  /-- The lookups that have not called back. -/
  lookups : ℕ
  /-- How many descriptors have been made. -/
  created : ℕ
  closed : List ℕ

/-- What the system says when a socket is made and connected. -/
inductive Opening where
  /-- `socket` throws. -/
  | noSocket
  /-- `connect` throws. -/
  | refused
  | pending
  deriving DecidableEq, Repr

/-- What `_readImpl` returns. -/
inductive ReadReply where
  | failed
  | again
  | endOfFile
  | data (b : Bytes)
  deriving DecidableEq, Repr

inductive ReadyState where
  | opening
  | open
  | readOnly
  | writeOnly
  | closed
  deriving DecidableEq, Repr

namespace Life

/-- `new Socket({ allowHalfOpen: … })` -/
def create (allowHalfOpen : Bool) (pool : Pool) (kernel : ℕ → KernelReply) : Life where
  world :=
    { type := .tcp
      connecting := false
      readable := false
      writable := false
      destroyed := false
      destroyOnDrain := false
      writeQueue := []
      writeQueueEncoding := []
      writeQueueCallbacks := []
      writeQueueFD := []
      bufferSize := 0
      watching := false
      pool := pool
      kernel := kernel
      calls := 0
      sent := []
      sentFDs := []
      shut := false
      called := [] }
  fd := none
  watchers := false
  allowHalfOpen := allowHalfOpen
  lookups := 0
  created := 0
  closed := []

variable (pw : PoolWriter) (s : Life)

/-- A call of a function of the write side. If it destroys the socket then the descriptor is closed
and the watchers are freed, so it has to be known whether it does, and not whether something else
has. -/
def call {α : Type} (f : World → Call α) : Except JsError α × Life :=
  let r := f { s.world with destroyed := false }
  (r.1,
    if r.2.destroyed then
      { s with world := r.2, fd := none, watchers := false, closed := s.closed ++ s.fd.toList }
    else { s with world := { r.2 with destroyed := s.world.destroyed } })

/-- `Socket.prototype.destroy` -/
def destroy : Except JsError Unit × Life := s.call World.destroy

def initSocket : Life :=
  { s with
    watchers := true
    world :=
      { s.world with
        readable := false
        writable := false
        destroyed := false
        writeQueue := []
        writeQueueEncoding := []
        writeQueueCallbacks := []
        writeQueueFD := []
        bufferSize := 0
        watching := false } }

/-- `self.fd = socket(…)` -/
def socket : Life := { s with fd := some s.created, created := s.created + 1 }

def doConnect (r : Opening) : Except JsError Unit × Life :=
  if s.world.destroyed then (.ok (), s)
  else
    match r with
    | .refused => s.destroy
    | _ => (.ok (), { s with world := { s.world with watching := true } })

/-- `self.fd = socket(…)` and `doConnect`. -/
def openSocket (r : Opening) : Except JsError Unit × Life :=
  match r with
  | .noSocket => (.error (.error "socket"), s)
  | _ => s.socket.doConnect r

/-- `Socket.prototype.connect`, to a path or a port. -/
def connect (type : SocketType) (r : Opening) : Except JsError Unit × Life :=
  let s := s.initSocket
  if s.fd.isSome then (.error (.error "Socket already opened"), s)
  else
    let s := { s with world := { s.world with connecting := true, writable := true } }
    match type with
    | .unix => { s with world := { s.world with type := .unix } }.openSocket r
    | .tcp => (.ok (), { s with lookups := s.lookups + 1 })

/-- The callback of `dns.lookup`, with an error or an address. -/
def onLookup : Option Opening → Except JsError Unit × Life
  | none => (.ok (), { s with lookups := s.lookups - 1 })
  | some r => { s with lookups := s.lookups - 1 }.openSocket r

/-- `Socket.prototype._onReadable` -/
def onReadable (r : ReadReply) : Except JsError Unit × Life :=
  let s := { s with world := { s.world with pool := s.world.pool.ensure } }
  match r with
  | .failed => s.destroy
  | .again => (.ok (), s)
  | .data b => (.ok (), { s with world := s.world.poolRead b })
  | .endOfFile =>
    let s := { s with world := { s.world with readable := false } }
    let r := if s.world.writable then (.ok (), s) else s.destroy
    match r with
    | (.error e, s) => (.error e, s)
    | (.ok (), s) => if s.allowHalfOpen then (.ok (), s) else s.call (·.end pw)

/-- A part of a call, when the listeners or callbacks behind it call the socket. -/
inductive Part where
  /-- `_onConnect`, up to its listeners. -/
  | established
  /-- `end`, up to `flush`. -/
  | mark
  /-- A turn of `flush`. -/
  | turn
  /-- `destroySoon`, behind `flush`. -/
  | soon
  deriving DecidableEq, Repr

namespace Part

/-- The part of the call. -/
def run (w : World) : Part → Call Unit
  | established =>
    if w.connecting ∧ w.writable then
      (.ok (), { w with connecting := false, readable := true, writable := true })
    else (.error .assertion, w)
  | mark =>
    if w.writable ∧ ¬w.endQueued then
      (.ok (), { w with writeQueue := w.writeQueue ++ [QueueEntry.endOfFile] })
    else (.ok (), w)
  | turn => ((w.turn pw).1.map fun _ ↦ (), (w.turn pw).2)
  | soon => (.ok (), { w with destroyOnDrain := true })

end Part

/-- What happens to a socket. -/
inductive LifeEvent where
  | connect (type : SocketType) (r : Opening)
  | lookup (r : Option Opening)
  | writeReady (r : World.ConnectResult)
  | readReady (r : ReadReply)
  | write (d : Data) (encoding : Option Encoding) (fd : Option ℕ) (cb : Option Callback)
  | end
  | destroy
  | destroySoon
  | part (p : Part)

/-- Watchers call back while there is a descriptor for them. -/
def Allows (s : Life) : LifeEvent → Prop
  | .writeReady _ | .readReady _ | .part .established => s.watchers = true ∧ s.fd ≠ none
  | .lookup _ => 0 < s.lookups
  | _ => True

instance (s : Life) : DecidablePred s.Allows
  | .writeReady _ | .readReady _ | .part .established =>
    inferInstanceAs (Decidable (s.watchers = true ∧ s.fd ≠ none))
  | .lookup _ => inferInstanceAs (Decidable (0 < s.lookups))
  | .connect _ _ | .write _ _ _ _ | .end | .destroy | .destroySoon | .part .mark | .part .turn
  | .part .soon => inferInstanceAs (Decidable True)

def step : LifeEvent → Life
  | .connect type r => (s.connect type r).2
  | .lookup r => (s.onLookup r).2
  | .writeReady r => (s.call (·.writeReady pw r)).2
  | .readReady r => (s.onReadable pw r).2
  | .write d encoding fd cb => (s.call (·.write pw d encoding fd cb)).2
  | .end => (s.call (·.end pw)).2
  | .destroy => s.destroy.2
  | .destroySoon => (s.call (·.destroySoon pw)).2
  | .part p => (s.call (Part.run pw · p)).2

def machine : Machine Life LifeEvent Empty := ⟨Allows, fun s ev ↦ .ok (s.step pw ev)⟩

instance (ev : LifeEvent) : Decidable ((machine pw).guard s ev) :=
  inferInstanceAs (Decidable (s.Allows ev))

/-! ## What is to hold -/

/-- `typeof this.fd === 'number'`, asserted. -/
def readyState : Except JsError ReadyState :=
  if s.world.connecting then .ok .opening
  else if s.world.readable ∧ s.world.writable then
    if s.fd.isSome then .ok .open else .error .assertion
  else if s.world.readable ∧ ¬s.world.writable then
    if s.fd.isSome then .ok .readOnly else .error .assertion
  else if ¬s.world.readable ∧ s.world.writable then
    if s.fd.isSome then .ok .writeOnly else .error .assertion
  else if s.fd.isSome then .error .assertion
  else .ok .closed

/-- A destroyed socket has closed what it has made, and the assertions of `readyState` hold. -/
structure Released : Prop where
  fd_eq_none : s.world.destroyed = true → s.fd = none
  closed : s.world.destroyed = true → ∀ n < s.created, n ∈ s.closed
  readyState : ∃ r, s.readyState = .ok r

/-- A condition on steps. `connect` is not called on an open socket, and a lookup does not succeed
when the socket has been destroyed or has a descriptor. -/
def Wanted (s : Life) : LifeEvent → Prop
  | .connect _ _ => s.fd = none ∨ s.world.connecting = true
  | .lookup (some r) => r = .noSocket ∨ s.world.destroyed = false ∧ s.fd = none
  | _ => True

instance (s : Life) : DecidablePred s.Wanted
  | .connect _ _ => inferInstanceAs (Decidable (s.fd = none ∨ s.world.connecting = true))
  | .lookup (some r) =>
    inferInstanceAs (Decidable (r = .noSocket ∨ s.world.destroyed = false ∧ s.fd = none))
  | .lookup none | .writeReady _ | .readReady _ | .write _ _ _ _ | .end | .destroy | .destroySoon
  | .part _ => inferInstanceAs (Decidable True)

end Life

/-! ## The write side -/

namespace World

variable {pw : PoolWriter} {w w' w'' : World}

/-- `bufferSize` counts what is queued. -/
def Sized (w : World) : Prop := w.bufferSize = queueLength w.writeQueue

/-- What a call does to the state of a socket: it destroys it, or it ends the write side of a socket
that is still readable, or neither. -/
structure Follows (w w' : World) : Prop where
  sized : w'.Sized
  connecting : w'.connecting = w.connecting
  flags : w'.destroyed = true ∧ w'.readable = false ∧ w'.writable = false ∨
    w'.destroyed = w.destroyed ∧ w'.readable = w.readable ∧
      (w'.writable = w.writable ∨ w.readable = true ∧ w'.writable = false)

theorem Follows.refl (h : w.Sized) : Follows w w := ⟨h, rfl, .inr ⟨rfl, rfl, .inl rfl⟩⟩

theorem Follows.trans (h : Follows w w') (h' : Follows w' w'') : Follows w w'' := by
  refine ⟨h'.sized, h'.connecting.trans h.connecting, ?_⟩
  obtain hdead | ⟨hdestroyed, hreadable, hwritable⟩ := h'.flags
  · exact .inl hdead
  rw [hdestroyed, hreadable]
  obtain ⟨hdead, hr, hw⟩ | ⟨hd, hr, hw⟩ := h.flags
  · refine .inl ⟨hdead, hr, ?_⟩
    obtain hsame | ⟨hreadable', -⟩ := hwritable
    · rw [hsame, hw]
    · rw [hr] at hreadable'
      cases hreadable'
  · refine .inr ⟨hd, hr, ?_⟩
    rw [hr] at hwritable
    obtain hsame | hshut := hwritable
    · rw [hsame]
      exact hw
    · exact .inr hshut

theorem sized_unshift (h : w.Sized) (d : Data) (encoding : Option Encoding) (cb : Option Callback) :
    (w.unshift d encoding cb).Sized := by
  rw [Sized] at h
  change w.bufferSize + d.length = (d.length + queueLength w.writeQueue : ℕ)
  rw [h]
  omega

/-- A socket is destroyed, whatever has been done to it in the same call. -/
theorem destroy_follows (h : w'.Sized) (hconnecting : w'.connecting = w.connecting) :
    Follows w w'.destroy.2 := by
  rw [Sized] at h
  rw [destroy, if_neg (by omega)]
  exact ⟨rfl, hconnecting, .inl ⟨rfl, rfl, rfl⟩⟩

theorem invoke_follows (h : w.Sized) (cb : Option Callback) : Follows w (w.invoke cb).2 := by
  rcases cb with _ | id | ⟨last, id⟩
  all_goals exact ⟨h, rfl, .inr ⟨rfl, rfl, .inl rfl⟩⟩

theorem handOver_follows (h : w.Sized) (st : Staged) (fd : Option ℕ) (cb : Option Callback) :
    Follows w (w.handOver st fd cb).2 := by
  have hsame {v : World} (hv : v.Sized) (hc : v.connecting = w.connecting)
      (hd : v.destroyed = w.destroyed) (hr : v.readable = w.readable)
      (hw : v.writable = w.writable) : Follows w v := ⟨hv, hc, .inr ⟨hd, hr, .inl hw⟩⟩
  have hres := handOver_result w st fd cb
  generalize w.handOver st fd cb = res at hres ⊢
  cases hres with
  | failed calls =>
    have hsized : Sized { w with calls := calls } := h
    exact destroy_follows hsized rfl
  | queued calls fds => exact hsame h rfl rfl rfl rfl
  | whole calls fds =>
    have hinvoke := invoke_follows
      (w := { w.accepting st calls st.len fds with pool := poolAfter w st }) h cb
    exact ⟨hinvoke.sized, hinvoke.connecting, hinvoke.flags⟩
  | cut calls k fds =>
    have hsized := sized_unshift (w := w.accepting st calls k fds) h
      (.buf (st.buffer.slice (st.off + k) (st.off + st.len))) none cb
    exact hsame hsized rfl rfl rfl rfl

theorem writeOut_follows (h : w.Sized) (d : Data) (encoding : Option Encoding) (fd : Option ℕ)
    (cb : Option Callback) : Follows w (w.writeOut pw d encoding fd cb).2 := by
  rw [writeOut]
  split_ifs with hwritable
  · have hres := stage_result pw w d encoding cb
    generalize w.stage pw d encoding cb = res at hres ⊢
    cases hres with
    | failed e => exact ⟨h, rfl, .inr ⟨rfl, rfl, .inl rfl⟩⟩
    | buffer b => exact handOver_follows h _ fd cb
    | whole s st r =>
      have hpool : Sized { w with pool := stagePool pw w.pool encoding d } := h
      have hover := handOver_follows hpool st fd cb
      exact ⟨hover.sized, hover.connecting, hover.flags⟩
    | split s st r =>
      have hpool := sized_unshift (w := { w with pool := stagePool pw w.pool encoding d }) h
        (.str (s.drop (charsWritten encoding r).toNat)) encoding cb
      have hover := handOver_follows hpool st fd cb
      exact ⟨hover.sized, hover.connecting, hover.flags⟩
  · exact .refl h

theorem shutdown_follows (h : w.Sized) : Follows w w.shutdown.2 := by
  rw [shutdown]
  split_ifs with hwritable
  · dsimp only
    split_ifs with hreadable
    · split
      · have hsized : Sized { w with writable := false, calls := w.calls + 1, shut := true } := h
        exact destroy_follows hsized rfl
      · exact ⟨h, rfl, .inr ⟨rfl, rfl, .inr ⟨hreadable, rfl⟩⟩⟩
    · have hsized : Sized { w with writable := false } := h
      exact destroy_follows hsized rfl
  · exact .refl h

theorem turn_follows (h : w.Sized) : Follows w (w.turn pw).2 := by
  rw [turn]
  split
  · exact ⟨h, rfl, .inr ⟨rfl, rfl, .inl rfl⟩⟩
  · next entry rest hq =>
    rw [Sized, hq] at h
    cases entry with
    | endOfFile =>
      have hshut := shutdown_follows (w := w.shiftQueues rest) h
      dsimp only
      generalize (w.shiftQueues rest).shutdown = res at hshut ⊢
      obtain ⟨o, w₁⟩ := res
      cases o <;> exact ⟨hshut.sized, hshut.connecting, hshut.flags⟩
    | data d =>
      have hsized : (w.taking d rest).Sized := by
        change w.bufferSize - d.length = queueLength rest
        rw [h, queueLength]
        omega
      have hout : Follows (w.taking d rest) ((w.taking d rest).writeOut pw d
          w.writeQueueEncoding.head?.join w.writeQueueFD.head?.join
          w.writeQueueCallbacks.head?.join).2 :=
        writeOut_follows hsized d _ _ _
      dsimp only
      generalize (w.taking d rest).writeOut pw d w.writeQueueEncoding.head?.join
        w.writeQueueFD.head?.join w.writeQueueCallbacks.head?.join = res at hout ⊢
      obtain ⟨o, w₁⟩ := res
      rcases o with e | _ | _
      all_goals exact ⟨hout.sized, hout.connecting, hout.flags⟩

/-- A turn after what has been done in the same call. -/
theorem Follows.turn (h : Follows w w') : Follows w (w'.turn pw).2 := h.trans (turn_follows h.sized)

theorem Follows.destroy (h : Follows w w') : Follows w w'.destroy.2 :=
  destroy_follows h.sized h.connecting

theorem queueLength_append (q q' : List QueueEntry) :
    queueLength (q ++ q') = queueLength q + queueLength q' := by
  induction q with
  | nil => exact (Nat.zero_add _).symm
  | cons entry q ih =>
    cases entry with
    | endOfFile => exact ih
    | data d =>
      rw [List.cons_append, queueLength, queueLength, ih]
      omega

theorem Follows.mark (h : Follows w w') :
    Follows w { w' with writeQueue := w'.writeQueue ++ [QueueEntry.endOfFile] } := by
  refine ⟨?_, h.connecting, h.flags⟩
  rw [Sized, queueLength_append]
  exact h.sized

theorem end_follows (h : w.Sized) : Follows w (w.end pw).2 :=
  end_of_turn (p := Follows w) Follows.turn Follows.mark (.refl h)

theorem onWritable_follows (h : w.Sized) : Follows w (w.onWritable pw).2 :=
  onWritable_of_turn (p := Follows w) Follows.turn Follows.destroy (.refl h)

theorem destroySoon_follows (h : w.Sized) : Follows w (w.destroySoon pw).2 :=
  destroySoon_of_turn (p := Follows w) Follows.turn Follows.destroy
    (fun h ↦ ⟨h.sized, h.connecting, h.flags⟩) (.refl h)

theorem sized_enqueue (h : w.Sized) (d : Data) (encoding : Option Encoding) (fd : Option ℕ)
    (cb : Option Callback) : (w.enqueue d encoding fd cb).Sized := by
  have hres := enqueue_result w d encoding fd cb
  generalize w.enqueue d encoding fd cb = v at hres ⊢
  rw [Sized] at h
  cases hres with
  | joined q t s hd hq =>
    subst hd
    rw [hq, queueLength_append, queueLength, queueLength] at h
    rw [Sized, queueLength_append, queueLength, queueLength]
    simp only [Data.length, List.length_append] at h ⊢
    omega
  | pushed =>
    rw [Sized, queueLength_append, queueLength, queueLength]
    dsimp only
    omega

theorem write_follows (h : w.Sized) (d : Data) (encoding : Option Encoding) (fd : Option ℕ)
    (cb : Option Callback) : Follows w (w.write pw d encoding fd cb).2 := by
  rw [World.write]
  split_ifs
  · exact .refl h
  · exact .refl h
  · have hres := enqueue_result w d encoding fd cb
    have hsized := sized_enqueue h d encoding fd cb
    dsimp only
    generalize w.enqueue d encoding fd cb = v at hres hsized ⊢
    cases hres <;> exact ⟨hsized, rfl, .inr ⟨rfl, rfl, .inl rfl⟩⟩
  · exact writeOut_follows h d encoding fd cb

end World

/-! ## Runs -/

namespace Life

variable {pw : PoolWriter} {s : Life}

/-- The invariant of runs in which what is looked up is wanted. -/
structure Held (s : Life) : Prop where
  sized : s.world.Sized
  made : ∀ n < s.created, n ∈ s.closed ∨ s.fd = some n
  gone : s.world.destroyed = true → s.fd = none
  state : s.world.connecting = false →
    (s.world.readable = true ∨ s.world.writable = true ↔ s.fd ≠ none)
  /-- A lookup is for a socket that is connecting, unless it has been destroyed. -/
  pending : s.world.connecting = true ∨ s.fd ≠ none ∨ s.world.destroyed = true ∨ s.lookups = 0

theorem Held.released (h : s.Held) : s.Released := by
  refine ⟨h.gone, fun hd n hn ↦ ?_, ?_⟩
  · obtain hclosed | hfd := h.made n hn
    · exact hclosed
    · rw [h.gone hd] at hfd
      cases hfd
  · have hstate := h.state
    rw [readyState]
    cases hfd : s.fd <;> cases hc : s.world.connecting <;> cases hr : s.world.readable <;>
      cases hw : s.world.writable <;> simp_all

/-- A call of the write side keeps the invariant. -/
theorem Held.call {α : Type} {f : World → Call α} (h : s.Held)
    (hf : World.Follows { s.world with destroyed := false }
      (f { s.world with destroyed := false }).2) : (s.call f).2.Held := by
  rw [Life.call]
  generalize f { s.world with destroyed := false } = res at hf ⊢
  obtain ⟨hsized, hconnecting, hflags⟩ := hf
  dsimp only
  split_ifs with hdestroyed
  · obtain ⟨-, hreadable, hwritable⟩ := hflags.resolve_right fun hflags ↦ by
      rw [hdestroyed] at hflags
      cases hflags.1
    refine ⟨hsized, fun n hn ↦ .inl ?_, fun _ ↦ rfl, fun _ ↦ ?_, .inr (.inr (.inl hdestroyed))⟩
    · obtain hclosed | hfd := h.made n hn
      · exact List.mem_append_left _ hclosed
      · exact List.mem_append_right _ (hfd ▸ List.mem_singleton_self n)
    · simp only [hreadable, hwritable]
      simp
  · obtain ⟨-, hreadable, hwritable⟩ := hflags.resolve_left fun hflags ↦ hdestroyed hflags.1
    refine ⟨hsized, h.made, h.gone, fun hc ↦ ?_, ?_⟩
    · have hstate := h.state (hconnecting.symm.trans hc)
      rw [← hstate]
      dsimp only at hreadable hwritable ⊢
      rw [hreadable]
      obtain hwritable | ⟨hr, hw⟩ := hwritable
      · rw [hwritable]
      · rw [hr, hw]
        simp
    · dsimp only
      rw [hconnecting]
      exact h.pending

/-- A socket is destroyed, in whatever state it is. -/
theorem held_destroy (hsized : s.world.Sized)
    (hmade : ∀ n < s.created, n ∈ s.closed ∨ s.fd = some n) : s.destroy.2.Held := by
  have hnonneg : ¬World.bufferSize { s.world with destroyed := false } < 0 := by
    rw [World.Sized] at hsized
    dsimp only
    omega
  have hcall : (World.destroy { s.world with destroyed := false }).2.destroyed = true := by
    rw [World.destroy, if_neg hnonneg]
  rw [Life.destroy, Life.call]
  dsimp only
  rw [if_pos hcall, World.destroy, if_neg hnonneg]
  refine ⟨rfl, fun n hn ↦ .inl ?_, fun _ ↦ rfl, fun _ ↦ by simp, .inr (.inr (.inl rfl))⟩
  obtain hclosed | hfd := hmade n hn
  · exact List.mem_append_left _ hclosed
  · exact List.mem_append_right _ (hfd ▸ List.mem_singleton_self n)

/-- A socket that is connecting and has no descriptor gets one. -/
theorem Held.openSocket (h : s.Held) (hconnecting : s.world.connecting = true) (hfd : s.fd = none)
    (hdestroyed : s.world.destroyed = false) (r : Opening) : (s.openSocket r).2.Held := by
  have hsocket : s.socket.Held := by
    refine ⟨h.sized, fun n hn ↦ ?_, fun hd ↦ ?_, fun hc ↦ ?_, .inl hconnecting⟩
    · obtain hlt | rfl := Nat.lt_succ_iff_lt_or_eq.mp hn
      · refine .inl ((h.made n hlt).resolve_right fun hn ↦ ?_)
        cases hfd.symm.trans hn
      · exact .inr rfl
    · cases hdestroyed.symm.trans hd
    · cases hconnecting.symm.trans hc
  have hdoConnect (r : Opening) : (s.socket.doConnect r).2.Held := by
    rw [doConnect.eq_def, if_neg (by simp [socket, hdestroyed])]
    cases r with
    | refused => exact held_destroy hsocket.sized hsocket.made
    | noSocket | pending =>
      exact ⟨hsocket.sized, hsocket.made, hsocket.gone, hsocket.state, hsocket.pending⟩
  cases r with
  | noSocket => exact h
  | refused | pending => exact hdoConnect _

theorem Held.connect (h : s.Held) (hwanted : s.fd = none ∨ s.world.connecting = true)
    (type : SocketType) (r : Opening) : (s.connect type r).2.Held := by
  rw [Life.connect]
  dsimp only
  split_ifs with hfd
  · have hconnecting : s.world.connecting = true := by
      refine hwanted.resolve_left fun hnone ↦ ?_
      change s.fd.isSome = true at hfd
      rw [hnone] at hfd
      cases hfd
    refine ⟨rfl, h.made, fun hd ↦ (by cases hd), fun hc ↦ ?_, .inl hconnecting⟩
    cases hconnecting.symm.trans hc
  · have hnone : s.fd = none := Option.not_isSome_iff_eq_none.mp hfd
    cases type with
    | unix =>
      refine Held.openSocket (s := { s.initSocket with world := _ }) ?_ rfl hnone rfl r
      exact ⟨rfl, h.made, fun _ ↦ hnone, fun hc ↦ (by cases hc), .inl rfl⟩
    | tcp => exact ⟨rfl, h.made, fun _ ↦ hnone, fun hc ↦ (by cases hc), .inl rfl⟩

theorem Held.onLookup (h : s.Held) (hlookups : 0 < s.lookups) {r : Option Opening}
    (hwanted : s.Wanted (.lookup r)) : (s.onLookup r).2.Held := by
  have hless : Held { s with lookups := s.lookups - 1 } := by
    refine ⟨h.sized, h.made, h.gone, h.state, ?_⟩
    obtain hc | hfd | hd | hzero := h.pending
    · exact .inl hc
    · exact .inr (.inl hfd)
    · exact .inr (.inr (.inl hd))
    · omega
  cases r with
  | none => exact hless
  | some r =>
    obtain rfl | ⟨hdestroyed, hfd⟩ := hwanted
    · exact hless
    · refine hless.openSocket ?_ hfd hdestroyed r
      obtain hc | hne | hd | hzero := h.pending
      · exact hc
      · exact absurd hfd hne
      · cases hdestroyed.symm.trans hd
      · omega

/-- The connection is established. -/
theorem Held.established (h : s.Held) (hfd : s.fd ≠ none) :
    Held { s with world := { s.world with connecting := false, readable := true, writable := true } }
    where
  sized := h.sized
  made := h.made
  gone := h.gone
  state _ := iff_of_true (.inl rfl) hfd
  pending := .inr (.inl hfd)

theorem Held.writeReady (h : s.Held) (hfd : s.fd ≠ none) (r : World.ConnectResult) :
    (s.call (·.writeReady pw r)).2.Held := by
  have hsized : World.Sized { s.world with destroyed := false } := h.sized
  by_cases hconnecting : s.world.connecting = true
  · by_cases hwritable : s.world.writable = true
    · cases r with
      | established =>
        have hcall : (s.call (·.writeReady pw .established)).2 =
            (Life.call { s with
              world := { s.world with connecting := false, readable := true, writable := true } }
              fun w ↦ if w.writeQueue = [] then (.ok (), w) else w.onWritable pw).2 := by
          simp only [Life.call, World.writeReady, World.onConnect, hconnecting, hwritable]
          simp
        rw [hcall]
        refine (h.established hfd).call ?_
        split_ifs
        · exact .refl hsized
        · exact World.onWritable_follows hsized
      | inProgress =>
        refine h.call ?_
        simp only [World.writeReady, World.onConnect, hconnecting, hwritable]
        exact .refl hsized
      | refused =>
        refine h.call ?_
        simp only [World.writeReady, World.onConnect, hconnecting, hwritable]
        exact World.destroy_follows hsized rfl
    · refine h.call ?_
      simp only [World.writeReady, hconnecting, hwritable]
      exact .refl hsized
  · refine h.call ?_
    simp only [World.writeReady, hconnecting]
    exact World.onWritable_follows hsized

/-- Nothing but the pool changes. -/
theorem Held.pool (h : s.Held) (pool : Pool) : Held { s with world := { s.world with pool := pool } } :=
  ⟨h.sized, h.made, h.gone, h.state, h.pending⟩

theorem Held.onReadable (h : s.Held) (hfd : s.fd ≠ none) (r : ReadReply) :
    (s.onReadable pw r).2.Held := by
  have hpool := h.pool s.world.pool.ensure
  cases r with
  | failed => exact held_destroy hpool.sized hpool.made
  | again => exact hpool
  | data b => exact hpool.pool _
  | endOfFile =>
    have hend {s : Life} (h : s.Held) :
        (if s.allowHalfOpen then ((.ok (), s) : Except JsError Unit × Life)
          else s.call (·.end pw)).2.Held := by
      have hsized : World.Sized { s.world with destroyed := false } := h.sized
      split_ifs
      · exact h
      · exact h.call (World.end_follows hsized)
    rw [Life.onReadable]
    dsimp only
    split_ifs with hwritable
    · refine hend ⟨h.sized, h.made, h.gone, fun _ ↦ ?_, .inr (.inl hfd)⟩
      exact iff_of_true (.inr hwritable) hfd
    · have hdestroy := held_destroy
        (s := { s with world := { s.world with pool := s.world.pool.ensure, readable := false } })
        h.sized h.made
      generalize Life.destroy _ = res at hdestroy ⊢
      obtain ⟨o, s₁⟩ := res
      cases o with
      | error e => exact hdestroy
      | ok u => exact hend hdestroy

theorem Held.part (h : s.Held) {p : Part} (hallows : s.Allows (.part p)) :
    (s.call (Part.run pw · p)).2.Held := by
  have hsized : World.Sized { s.world with destroyed := false } := h.sized
  cases p with
  | established =>
    by_cases hconnecting : s.world.connecting = true ∧ s.world.writable = true
    · have hcall : (s.call (Part.run pw · .established)).2 =
          { s with
            world := { s.world with connecting := false, readable := true, writable := true } } := by
        simp only [Life.call, Part.run, if_pos hconnecting]
        rfl
      rw [hcall]
      exact h.established hallows.2
    · refine h.call ?_
      simp only [Part.run, if_neg hconnecting]
      exact .refl hsized
  | mark =>
    refine h.call ?_
    simp only [Part.run]
    split_ifs
    · exact (World.Follows.refl hsized).mark
    · exact .refl hsized
  | turn => exact h.call (World.turn_follows hsized)
  | soon => exact h.call ⟨hsized, rfl, .inr ⟨rfl, rfl, .inl rfl⟩⟩

theorem Held.step (h : s.Held) {ev : LifeEvent} (hallows : s.Allows ev) (hwanted : s.Wanted ev) :
    (s.step pw ev).Held := by
  have hsized : World.Sized { s.world with destroyed := false } := h.sized
  cases ev with
  | connect type r => exact h.connect hwanted type r
  | lookup r => exact h.onLookup hallows hwanted
  | writeReady r => exact h.writeReady hallows.2 r
  | readReady r => exact h.onReadable hallows.2 r
  | write d encoding fd cb => exact h.call (World.write_follows hsized d encoding fd cb)
  | «end» => exact h.call (World.end_follows hsized)
  | destroy => exact held_destroy h.sized h.made
  | destroySoon => exact h.call (World.destroySoon_follows hsized)
  | part p => exact h.part hallows

/-- A socket whose steps are all wanted has released its descriptors once it is destroyed. -/
theorem released_of_wanted (pw : PoolWriter) (allowHalfOpen : Bool) (pool : Pool)
    (kernel : ℕ → KernelReply) {s : Life}
    (h : ((machine pw).restrict Wanted).Reaches (create allowHalfOpen pool kernel) s) :
    s.Released := by
  have hcreate : (create allowHalfOpen pool kernel).Held :=
    ⟨rfl, fun n hn ↦ absurd hn (Nat.not_lt_zero n), fun _ ↦ rfl,
      fun _ ↦ by simp [create], .inr (.inr (.inr rfl))⟩
  refine (h.invariant hcreate ?_ : s.Held).released
  rintro s t ev hs ⟨hallows, hwanted⟩ ht
  obtain rfl := Except.ok.inj ht
  exact hs.step hallows hwanted

/-- A pool that stores nothing, as far as these runs go. -/
def noPool : Pool := ⟨fun _ _ ↦ 0, 0, 0⟩

theorem released_of_wanted_unix : ∃ s : Life, s.Released ∧ s.world.destroyed = true ∧
    s.created = 1 ∧ s.closed = [0] := by
  obtain ⟨s, hrun, hdestroyed, hcreated, hclosed⟩ : ∃ s : Life,
      ((machine fun _ _ _ ↦ .error .fault).restrict Wanted).run
        (create false noPool fun _ ↦ .wrote 1)
        [.connect .unix .pending, .writeReady .established, .readReady .endOfFile] = some s ∧
      s.world.destroyed = true ∧ s.created = 1 ∧ s.closed = [0] := ⟨_, rfl, rfl, rfl, rfl⟩
  exact ⟨s, released_of_wanted _ _ _ _ (Machine.reaches_of_run hrun), hdestroyed, hcreated, hclosed⟩

/-- A socket is destroyed while a name is looked up, and then it gets a descriptor. -/
theorem destroyed_with_descriptor : ∃ s : Life,
    (machine fun _ _ _ ↦ .error .fault).Reaches (create false noPool fun _ ↦ .wrote 1) s ∧
      s.world.destroyed = true ∧ s.fd = some 0 ∧ s.closed = [] ∧ ¬s.Released := by
  obtain ⟨s, hrun, hdestroyed, hfd, hclosed⟩ : ∃ s : Life,
      (machine fun _ _ _ ↦ .error .fault).run (create false noPool fun _ ↦ .wrote 1)
        [.connect .tcp .pending, .destroy, .lookup (some .pending)] = some s ∧
      s.world.destroyed = true ∧ s.fd = some 0 ∧ s.closed = [] := ⟨_, rfl, rfl, rfl, rfl⟩
  refine ⟨s, Machine.reaches_of_run hrun, hdestroyed, hfd, hclosed, fun h ↦ ?_⟩
  have hnone := h.fd_eq_none hdestroyed
  rw [hfd] at hnone
  cases hnone

end Life

end SpiderNode.Net
