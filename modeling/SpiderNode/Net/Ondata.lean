import SpiderNode.Net.Shared

/-!
# What `ondata` is shown

`_onReadable` emits `'data'` with a slice, and then it calls `ondata` with the pool and the range of
what has been read. The range was taken before the listeners ran, and the pool is the one that there
is behind them. If a listener has used up the pool, `ondata` is shown a range of another one.

What the sockets do depends on how much is in the pool and never on what it is (`Alike`). So a range
of another pool holds the same bytes whatever has been read, and so `shows_iff_roomy` is an
equivalence.
-/

namespace SpiderNode.Net

open Buffer (poolWriter)

namespace Sockets

variable (pw : PoolWriter) (s : Sockets)

/-- The listeners make these calls, on any of the sockets. -/
def after (events : List PoolEvent) : Sockets := events.foldl (step pw) s

/-- `buf[start..end)` of `self.ondata(buf, start, end)`, when `b` has been read. -/
def ondata (b : Bytes) (listening : Bool) (events : List PoolEvent) : Bytes :=
  let start := s.pool.ensure.used
  let s := (s.read b listening).after pw events
  (Buf.window s.pool.current start b.length).read s.pool

end Sockets

/-! ## What a step depends on -/

/-- Two pools that differ in what one of them holds. -/
structure Pool.Alike (c : ℕ) (p q : Pool) : Prop where
  count : p.count = q.count
  used : p.used = q.used
  mem : ∀ {id}, id ≠ c → p.mem id = q.mem id

namespace Pool.Alike

variable {c : ℕ} {p q : Pool}

theorem current (h : p.Alike c q) : p.current = q.current := by
  rw [Pool.current, Pool.current, h.count]

theorem room (h : p.Alike c q) : p.room = q.room := by rw [Pool.room, Pool.room, h.used]

theorem ensure (h : p.Alike c q) : p.ensure.Alike c q.ensure := by
  rw [Pool.ensure, Pool.ensure, h.count, h.room]
  split_ifs
  · exact ⟨rfl, rfl, h.mem⟩
  · exact h

theorem store (h : p.Alike c q) (b : Bytes) : (p.store b).Alike c (q.store b) := by
  refine ⟨h.count, h.used, fun {id} hid ↦ ?_⟩
  by_cases hcurrent : id = p.current
  · funext i
    rw [hcurrent, Pool.store_mem_current, h.current, Pool.store_mem_current, h.used]
    rw [hcurrent, h.current] at hid
    rw [h.mem hid]
  · rw [Pool.store_mem_of_ne hcurrent, Pool.store_mem_of_ne (h.current ▸ hcurrent), h.mem hid]

theorem advance (h : p.Alike c q) (n : ℕ) : (p.advance n).Alike c (q.advance n) :=
  ⟨h.count, congrArg (· + n) h.used, h.mem⟩

theorem retreat (h : p.Alike c q) (n : ℕ) : (p.retreat n).Alike c (q.retreat n) :=
  ⟨h.count, congrArg (· - n) h.used, h.mem⟩

end Pool.Alike

/-- Two sockets that differ in what one pool holds, and in what has been sent. -/
inductive World.Alike (c : ℕ) (w : World) : World → Prop
  | mk (sent : Bytes) (q : Pool) (hq : w.pool.Alike c q) :
      World.Alike c w { w with sent := sent, pool := q }

/-- Two calls with the same result, and sockets that are alike. -/
def AlikeCalls {α : Type} (c : ℕ) (r r' : Call α) : Prop := r.1 = r'.1 ∧ r.2.Alike c r'.2

namespace World.Alike

variable {c : ℕ} {w v : World}

theorem destroy (h : w.Alike c v) : AlikeCalls c w.destroy v.destroy := by
  obtain ⟨sent, q, hq⟩ := h
  rw [World.destroy, World.destroy]
  dsimp only
  split_ifs
  · exact ⟨rfl, .mk sent q hq⟩
  · exact ⟨rfl, .mk sent q hq⟩

theorem writeImpl (h : w.Alike c v) (b : Buf) (off len : ℕ) (fd : Option ℕ) :
    AlikeCalls c (w.writeImpl b off len fd) (v.writeImpl b off len fd) := by
  obtain ⟨sent, q, hq⟩ := h
  rw [World.writeImpl, World.writeImpl]
  have hreply : World.nextReply { w with sent := sent, pool := q } = w.nextReply := rfl
  rw [hreply]
  dsimp only
  split_ifs
  any_goals exact ⟨rfl, .mk sent q hq⟩
  all_goals
    cases w.nextReply with
    | failed => exact ⟨rfl, .mk sent q hq⟩
    | again => exact ⟨rfl, .mk sent q hq⟩
    | wrote n => exact ⟨rfl, .mk _ q hq⟩

theorem handOver (h : w.Alike c v) (st : Staged) (fd : Option ℕ) (cb : Option Callback) :
    AlikeCalls c (w.handOver st fd cb) (v.handOver st fd cb) := by
  have himpl := h.writeImpl st.buffer st.off st.len fd
  rw [World.handOver, World.handOver]
  generalize w.writeImpl st.buffer st.off st.len fd = r at himpl ⊢
  generalize v.writeImpl st.buffer st.off st.len fd = r' at himpl ⊢
  obtain ⟨o, w₁⟩ := r
  obtain ⟨o', w₂⟩ := r'
  obtain ⟨rfl, halike⟩ := himpl
  cases o with
  | error e =>
    have hdestroy := halike.destroy
    dsimp only at hdestroy ⊢
    generalize w₁.destroy = r at hdestroy ⊢
    generalize w₂.destroy = r' at hdestroy ⊢
    obtain ⟨o, w₃⟩ := r
    obtain ⟨o', w₄⟩ := r'
    obtain ⟨rfl, halike⟩ := hdestroy
    cases o <;> exact ⟨rfl, halike⟩
  | ok taken =>
    obtain ⟨sent, q, hq⟩ := halike
    dsimp only
    by_cases htaken : taken = some st.len
    · rw [if_pos htaken, if_pos htaken]
      have hpool : (if st.fromPool then w₁.pool.retreat st.len else w₁.pool).Alike c
          (if st.fromPool then q.retreat st.len else q) := by
        split_ifs
        · exact hq.retreat st.len
        · exact hq
      cases st.queuedData with
      | true => exact ⟨rfl, .mk sent _ hpool⟩
      | false =>
        rcases cb with _ | id | ⟨last, id⟩
        all_goals exact ⟨rfl, .mk sent _ hpool⟩
    · rw [if_neg htaken, if_neg htaken]
      exact ⟨rfl, .mk sent q hq⟩

theorem unshift (h : w.Alike c v) (d : Data) (encoding : Option Encoding) (cb : Option Callback) :
    (w.unshift d encoding cb).Alike c (v.unshift d encoding cb) := by
  obtain ⟨sent, q, hq⟩ := h
  exact .mk sent q hq

theorem stage (h : w.Alike c v) (pw : PoolWriter) (d : Data) (encoding : Option Encoding)
    (cb : Option Callback) :
    AlikeCalls c (w.stage pw d encoding cb) (v.stage pw d encoding cb) := by
  obtain ⟨sent, q, hq⟩ := h
  cases d with
  | buf b => exact ⟨rfl, .mk sent q hq⟩
  | str t =>
    simp only [World.stage, World.stageString, ← hq.ensure.room]
    generalize pw (poolEncoding encoding) t w.pool.ensure.room = res
    cases res with
    | error e => exact ⟨rfl, .mk sent _ hq.ensure⟩
    | ok r =>
      have hstore := hq.ensure.store r.stored
      dsimp only
      rw [← hstore.current, ← hstore.used]
      generalize (if defaultsToUtf8 encoding then r.charsWritten else r.bytesWritten) = chars
      split_ifs
      · exact ⟨rfl, .mk sent _ hstore⟩
      · exact ⟨rfl, .mk sent _ hstore⟩
      · exact ⟨rfl, .mk sent _ (hstore.advance _)⟩
      · exact ⟨rfl, .mk sent _ (hstore.advance _)⟩
      · exact ⟨rfl, .mk sent _ (hstore.advance _)⟩

theorem writeOut (h : w.Alike c v) (pw : PoolWriter) (d : Data) (encoding : Option Encoding)
    (fd : Option ℕ) (cb : Option Callback) :
    AlikeCalls c (w.writeOut pw d encoding fd cb) (v.writeOut pw d encoding fd cb) := by
  have hstage := h.stage pw d encoding cb
  have hwritable : v.writable = w.writable := by
    obtain ⟨sent, q, hq⟩ := h
    rfl
  rw [World.writeOut, World.writeOut, hwritable]
  split_ifs
  · generalize w.stage pw d encoding cb = r at hstage ⊢
    generalize v.stage pw d encoding cb = r' at hstage ⊢
    obtain ⟨o, w₁⟩ := r
    obtain ⟨o', w₂⟩ := r'
    obtain ⟨rfl, halike⟩ := hstage
    cases o with
    | error e => exact ⟨rfl, halike⟩
    | ok st => exact World.Alike.handOver halike st fd cb
  · exact ⟨rfl, h⟩

theorem shutdown (h : w.Alike c v) : AlikeCalls c w.shutdown v.shutdown := by
  obtain ⟨sent, q, hq⟩ := h
  have hreply : World.nextReply { w with sent := sent, pool := q, writable := false } =
      w.nextReply := rfl
  have hreply' : World.nextReply { w with writable := false } = w.nextReply := rfl
  rw [World.shutdown, World.shutdown]
  dsimp only
  split_ifs
  · rw [hreply, hreply']
    cases w.nextReply with
    | failed =>
      exact (mk (w := { w with writable := false, calls := w.calls + 1, shut := true })
        sent q hq).destroy
    | again => exact ⟨rfl, .mk sent q hq⟩
    | wrote n => exact ⟨rfl, .mk sent q hq⟩
  · exact (mk (w := { w with writable := false }) sent q hq).destroy
  · exact ⟨rfl, .mk sent q hq⟩

theorem shiftQueues (h : w.Alike c v) (rest : List QueueEntry) :
    (w.shiftQueues rest).Alike c (v.shiftQueues rest) := by
  obtain ⟨sent, q, hq⟩ := h
  exact .mk sent q hq

theorem taking (h : w.Alike c v) (d : Data) (rest : List QueueEntry) :
    (w.taking d rest).Alike c (v.taking d rest) := by
  obtain ⟨sent, q, hq⟩ := h
  exact .mk sent q hq

theorem turn (h : w.Alike c v) (pw : PoolWriter) : AlikeCalls c (w.turn pw) (v.turn pw) := by
  have hqueues : v.writeQueue = w.writeQueue ∧ v.writeQueueEncoding = w.writeQueueEncoding ∧
      v.writeQueueFD = w.writeQueueFD ∧ v.writeQueueCallbacks = w.writeQueueCallbacks := by
    obtain ⟨sent, q, hq⟩ := h
    exact ⟨rfl, rfl, rfl, rfl⟩
  obtain ⟨hqueue, hencoding, hfd, hcb⟩ := hqueues
  rw [World.turn, World.turn, hqueue, hencoding, hfd, hcb]
  split
  · obtain ⟨sent, q, hq⟩ := h
    exact ⟨rfl, .mk sent q hq⟩
  · next entry rest hq =>
    cases entry with
    | endOfFile =>
      have hshut := (h.shiftQueues rest).shutdown
      dsimp only
      generalize (w.shiftQueues rest).shutdown = r at hshut ⊢
      generalize (v.shiftQueues rest).shutdown = r' at hshut ⊢
      obtain ⟨o, w₁⟩ := r
      obtain ⟨o', w₂⟩ := r'
      obtain ⟨rfl, halike⟩ := hshut
      cases o <;> exact ⟨rfl, halike⟩
    | data d =>
      have hout := (h.taking d rest).writeOut pw d w.writeQueueEncoding.head?.join
        w.writeQueueFD.head?.join w.writeQueueCallbacks.head?.join
      dsimp only
      generalize (w.taking d rest).writeOut pw d w.writeQueueEncoding.head?.join
        w.writeQueueFD.head?.join w.writeQueueCallbacks.head?.join = r at hout ⊢
      generalize (v.taking d rest).writeOut pw d w.writeQueueEncoding.head?.join
        w.writeQueueFD.head?.join w.writeQueueCallbacks.head?.join = r' at hout ⊢
      obtain ⟨o, w₁⟩ := r
      obtain ⟨o', w₂⟩ := r'
      obtain ⟨rfl, halike⟩ := hout
      rcases o with e | _ | _ <;> exact ⟨rfl, halike⟩

theorem enqueue (h : w.Alike c v) (d : Data) (encoding : Option Encoding) (fd : Option ℕ)
    (cb : Option Callback) : (w.enqueue d encoding fd cb).Alike c (v.enqueue d encoding fd cb) := by
  obtain ⟨sent, q, hq⟩ := h
  have hjoinable (n : ℤ) : World.joinable { w with bufferSize := n, sent := sent, pool := q } d
      encoding = World.joinable { w with bufferSize := n } d encoding := rfl
  rw [World.enqueue, World.enqueue]
  dsimp only
  rw [hjoinable]
  generalize World.joinable { w with bufferSize := _ } d encoding = ts
  rcases ts with _ | ⟨t, s⟩
  all_goals cases fd <;> exact .mk sent q hq

theorem write (h : w.Alike c v) (pw : PoolWriter) (d : Data) (encoding : Option Encoding)
    (fd : Option ℕ) (cb : Option Callback) :
    AlikeCalls c (w.write pw d encoding fd cb) (v.write pw d encoding fd cb) := by
  have hout := h.writeOut pw d encoding fd cb
  have hqueued := h.enqueue d encoding fd cb
  obtain ⟨sent, q, hq⟩ := h
  have hended : World.endQueued { w with sent := sent, pool := q } = w.endQueued := rfl
  rw [World.write, World.write, hended]
  dsimp only
  split_ifs
  · exact ⟨rfl, .mk sent q hq⟩
  · exact ⟨rfl, .mk sent q hq⟩
  · exact ⟨rfl, hqueued⟩
  · exact hout

theorem part (h : w.Alike c v) (pw : PoolWriter) (p : Life.Part) :
    AlikeCalls c (p.run pw w) (p.run pw v) := by
  have hturn := h.turn pw
  obtain ⟨sent, q, hq⟩ := h
  have hended : World.endQueued { w with sent := sent, pool := q } = w.endQueued := rfl
  cases p with
  | established =>
    rw [Life.Part.run, Life.Part.run]
    dsimp only
    split_ifs <;> exact ⟨rfl, .mk sent q hq⟩
  | mark =>
    rw [Life.Part.run, Life.Part.run, hended]
    dsimp only
    split_ifs <;> exact ⟨rfl, .mk sent q hq⟩
  | turn => exact ⟨congrArg (Except.map fun _ ↦ ()) hturn.1, hturn.2⟩
  | soon => exact ⟨rfl, .mk sent q hq⟩

theorem withPool (h : w.Alike c v) {p q : Pool} (hq : p.Alike c q) :
    World.Alike c { w with pool := p } { v with pool := q } := by
  obtain ⟨sent, _, _⟩ := h
  exact .mk sent q hq

end World.Alike

/-! ## What listeners do -/

namespace Sockets

variable {c : ℕ} {s t : Sockets} {w : World}

/-- The sockets of two programs that differ in what one pool holds, and in what has been sent. -/
def Alike (c : ℕ) (s t : Sockets) : Prop := ∀ i, (s.world i).Alike c (t.world i)

theorem Alike.pool (h : s.Alike c t) : s.pool.Alike c t.pool := by
  have hworld := h 0
  generalize hw : s.world 0 = w at hworld
  generalize hv : t.world 0 = v at hworld
  obtain ⟨sent, q, hq⟩ := hworld
  have hpool : s.pool = w.pool := hw ▸ rfl
  have hpool' : t.pool = q := congrArg World.pool hv
  rw [hpool, hpool']
  exact hq

theorem Alike.put (h : s.Alike c t) (i : ℕ) {w v : World} (hw : w.Alike c v) :
    (s.put i w).Alike c (t.put i v) := by
  have hpool : w.pool.Alike c v.pool := by
    obtain ⟨sent, q, hq⟩ := hw
    exact hq
  intro j
  by_cases hj : j = i
  · subst hj
    simp only [world, Sockets.put, Function.update_self]
    exact hw
  · simp only [world, Sockets.put, Function.update_of_ne hj]
    exact (h j).withPool hpool

theorem world_read (s : Sockets) (b : Bytes) (listening : Bool) (i : ℕ) :
    (s.read b listening).world i = (s.world i).poolRead b := by
  rw [Sockets.read]
  split_ifs <;> rfl

theorem Alike.read (h : s.Alike c t) (b : Bytes) (listening : Bool) :
    (s.read b listening).Alike c (t.read b listening) := by
  intro i
  have hpool := h.pool.ensure
  rw [world_read, world_read]
  refine (h i).withPool ?_
  change ((s.pool.ensure.store (b.take s.pool.ensure.room)).advance
      (b.take s.pool.ensure.room).length).Alike c
    ((t.pool.ensure.store (b.take t.pool.ensure.room)).advance (b.take t.pool.ensure.room).length)
  rw [hpool.room]
  exact (hpool.store _).advance _

theorem Alike.step (h : s.Alike c t) (pw : PoolWriter) (ev : PoolEvent) :
    (s.step pw ev).Alike c (t.step pw ev) := by
  cases ev with
  | write i d encoding fd cb => exact h.put i ((h i).write pw d encoding fd cb).2
  | part i p => exact h.put i ((h i).part pw p).2
  | destroy i => exact h.put i (h i).destroy.2
  | read b listening => exact h.read b listening

theorem Alike.after (h : s.Alike c t) (pw : PoolWriter) (events : List PoolEvent) :
    (s.after pw events).Alike c (t.after pw events) := by
  induction events generalizing s t with
  | nil => exact h
  | cons ev events ih => exact ih (h.step pw ev)

end Sockets

end SpiderNode.Net
