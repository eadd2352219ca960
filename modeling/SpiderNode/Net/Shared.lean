import SpiderNode.Net.Lifecycle
import SpiderNode.Net.Run
import SpiderNode.Buffer.Encoders

/-!
# One pool for all sockets

The pool of `lib/net.js` is a variable of the module. Every socket that reads, and every one that
writes a string, takes its bytes from the same free space, and the slices it hands out live on in
listeners and queues. `pool.used` goes back only when a string has been sent whole, in the call that
has stored it.

Nothing below `pool.used` is written again, whatever the sockets do: `Grows` is all that a step does
to the pool. What the slices are then depends on one thing: `pool.used` is moved by what
`pool.write` reports, and the native encoders report more than they have stored when a string does
not fit. `sound_of_fitting` is about the runs in which they do not.
-/

namespace SpiderNode.Net

open Buffer (Heap poolWriter)

/-- The sockets of a program, and what they share. -/
structure Sockets where
  socket : ℕ → World
  pool : Pool
  /-- `pool.used` of the pools that have been replaced. -/
  final : ℕ → ℕ
  /-- The slices that the listeners of `'data'` have got. -/
  emitted : List Buf

namespace Sockets

variable (pw : PoolWriter) (s : Sockets)

/-- A socket, with the pool as it is. -/
def world (i : ℕ) : World := { s.socket i with pool := s.pool }

/-- The pool is used, or replaced. -/
def setPool (p : Pool) : Sockets :=
  { s with
    pool := p
    final := if p.count = s.pool.count then s.final
      else Function.update s.final s.pool.current s.pool.used }

/-- A socket has been called. -/
def put (i : ℕ) (w : World) : Sockets :=
  { s.setPool w.pool with socket := Function.update s.socket i w }

/-- `_onReadable`, up to its listeners; `listening` if there are any. -/
def read (b : Bytes) (listening : Bool) : Sockets :=
  let p := s.pool.ensure
  let b := b.take p.room
  let s := s.setPool ((p.store b).advance b.length)
  if listening ∧ b ≠ [] then
    { s with emitted := s.emitted ++ [.window p.current p.used b.length] }
  else s

/-- What happens to the sockets. -/
inductive PoolEvent where
  | write (i : ℕ) (d : Data) (encoding : Option Encoding) (fd : Option ℕ) (cb : Option Callback)
  /-- `flush`, `end` and the like are made of parts. -/
  | part (i : ℕ) (p : Life.Part)
  | destroy (i : ℕ)
  /-- A socket reads `b`. -/
  | read (b : Bytes) (listening : Bool)

def step : PoolEvent → Sockets
  | .write i d encoding fd cb => s.put i ((s.world i).write pw d encoding fd cb).2
  | .part i p => s.put i (p.run pw (s.world i)).2
  | .destroy i => s.put i (s.world i).destroy.2
  | .read b listening => s.read b listening

/-- What is written is a string, or a buffer of its own. -/
def Allows (_ : Sockets) : PoolEvent → Prop
  | .write _ (.buf b) _ _ _ => ∃ x, b = .own x
  | _ => True

def machine : Machine Sockets PoolEvent Empty := ⟨Allows, fun s ev ↦ .ok (s.step pw ev)⟩

/-- The string that an event stages, with its encoding. -/
def stages : PoolEvent → Option (JSString × Option Encoding)
  | .write i (.str t) encoding _ _ =>
    if (s.socket i).connecting ∨ (s.socket i).writeQueue ≠ [] then none else some (t, encoding)
  | .part i .turn =>
    match (s.socket i).writeQueue with
    | .data (.str t) :: _ => some (t, (s.socket i).writeQueueEncoding.head?.join)
    | _ => none
  | _ => none

/-- What `pool.write` reports of a string is at most the space that it has. For UTF-8 and the
encodings of binary data it reports what the whole string needs, and for a string that has no UTF-8
form it reports `-1`, which only passes for a number of bytes if there is no `encoding`. -/
def Fits (m : Heap) (encoding : Option Encoding) (t : JSString) (room : ℕ) : Prop :=
  match World.poolEncoding encoding with
  | .text .utf8 | .text .utf8Dash =>
    (WellFormed t = true → (utf8Bytes t).length ≤ room) ∧ (encoding = none → WellFormed t = true)
  | .base64 =>
    let src := Buffer.writeAscii m (t.length + 1) (utf8Bytes t)
    (room : ℤ) < Buffer.base64DecodedSize src ∨
      (Buffer.decodeDigits (src.filterMap Buffer.unbase64)).length ≤ room
  | .hex => Buffer.hexBytes t = none ∨ t.length / 2 ≤ room
  | .text .ascii | .text .binary | .ucs2 => True

/-- A condition on steps: a string that is staged fits. -/
def Fitting (m : Heap) (s : Sockets) (ev : PoolEvent) : Prop :=
  ∀ t encoding, s.stages ev = some (t, encoding) → Fits m encoding t s.pool.ensure.room

/-- Sockets that have written nothing, and no pool. -/
def start (type : ℕ → SocketType) (connecting : ℕ → Bool) (kernel : ℕ → ℕ → KernelReply)
    (mem : ℕ → ℕ → UInt8) : Sockets where
  socket i := (Run.start (type i) (connecting i) true ⟨mem, 0, 0⟩ (kernel i)).world
  pool := ⟨mem, 0, 0⟩
  final _ := 0
  emitted := []

/-! ## Windows -/

/-- Two buffers that have no byte in common. -/
def Apart : Buf → Buf → Prop
  | .window id start len, .window id' start' len' =>
    id ≠ id' ∨ start + len ≤ start' ∨ start' + len' ≤ start
  | _, _ => True

/-- The buffers in a queue. -/
def queued (w : World) : List Buf :=
  w.writeQueue.filterMap fun
    | .data (.buf b) => some b
    | _ => none

/-- The buffers of the listeners, or of a socket. -/
def slots : Option ℕ → List Buf
  | none => s.emitted
  | some i => queued (s.socket i)

/-- `pool.used` of a pool, also of one that has been replaced. -/
def usedOf (id : ℕ) : ℕ := if id = s.pool.current then s.pool.used else s.final id

/-- No two buffers have a byte in common, all of them are below `pool.used`, and that is in the
pool. -/
structure Sound : Prop where
  pairwise : ∀ x, (s.slots x).Pairwise Apart
  across : ∀ {x y}, x ≠ y → ∀ a ∈ s.slots x, ∀ b ∈ s.slots y, Apart a b
  below : ∀ {x id start len}, .window id start len ∈ s.slots x →
    id < s.pool.count ∧ start + len ≤ s.usedOf id
  used_le : ∀ id, s.usedOf id ≤ kPoolSize

end Sockets

/-! ## What a step does to the pool -/

/-- The pool is used from `pool.used` on. -/
inductive Grows (p : Pool) : Pool → Prop
  | same : Grows p p
  | ensured : Grows p p.ensure
  | filled (x : Bytes) (n : ℕ) : Grows p ((p.ensure.store x).advance n)

section Grows

variable {p p' : Pool} {b : Buf}

/-- A live buffer stays live, and holds what it holds. -/
theorem Grows.live (h : Grows p p') (hb : b.Live p) : b.Live p' ∧ b.read p' = b.read p := by
  cases h with
  | same => exact ⟨hb, rfl⟩
  | ensured => exact ⟨hb.ensure, Buf.read_ensure p b⟩
  | filled x n =>
    refine ⟨(hb.ensure.store x).advance n, ?_⟩
    rw [Buf.read_advance, hb.ensure.read_store, Buf.read_ensure]

/-- The pool stays, or there is a new one. -/
theorem ensure_cases (p : Pool) :
    p.ensure = p ∨ p.ensure.count = p.count + 1 ∧ p.ensure.used = 0 := by
  rw [Pool.ensure]
  split_ifs
  · exact .inr ⟨rfl, rfl⟩
  · exact .inl rfl

theorem Grows.cases (h : Grows p p') :
    p'.count = p.count ∧ p.used ≤ p'.used ∨ p'.count = p.count + 1 := by
  have hensure := ensure_cases p
  cases h with
  | same => exact .inl ⟨rfl, Nat.le_refl _⟩
  | ensured =>
    obtain heq | ⟨hcount, -⟩ := hensure
    · exact .inl ⟨by rw [heq], by rw [heq]⟩
    · exact .inr hcount
  | filled x n =>
    obtain heq | ⟨hcount, -⟩ := hensure
    · rw [heq]
      exact .inl ⟨rfl, Nat.le_add_right _ _⟩
    · exact .inr hcount

end Grows

namespace Sockets

open World (StagesString)

variable {pw : PoolWriter} {s : Sockets} {w w' : World} {p p' : Pool}

/-- A buffer that has been made of new memory. -/
def Fresh (p p' : Pool) : Buf → Prop
  | .own _ => True
  | .window id start len =>
    id = p.ensure.current ∧ p.ensure.used ≤ start ∧ start + len ≤ p'.used ∧ p'.count = p.ensure.count

/-- A buffer that is a part of another. -/
def Within : Buf → Buf → Prop
  | .own _, _ => True
  | .window id start len, .window id' start' len' =>
    id = id' ∧ start' ≤ start ∧ start + len ≤ start' + len'
  | .window _ _ _, .own _ => False

theorem Apart.symm {a b : Buf} (h : Apart a b) : Apart b a := by
  cases a <;> cases b
  all_goals try trivial
  obtain h | h | h := h
  · exact .inl h.symm
  · exact .inr (.inr h)
  · exact .inr (.inl h)

theorem Apart.within {a b c : Buf} (h : Apart a c) (hb : Within b a) : Apart b c := by
  cases b with
  | own x => cases c <;> trivial
  | window id start len =>
    cases a with
    | own x => exact hb.elim
    | window id' start' len' =>
      obtain ⟨rfl, hle, hge⟩ := hb
      cases c with
      | own x => trivial
      | window id'' start'' len'' =>
        obtain h | h | h := h
        · exact .inl h
        · exact .inr (.inl (by omega))
        · exact .inr (.inr (by omega))

/-- New memory is apart from all that is live. -/
theorem Fresh.apart {a b : Buf} (hb : Fresh p p' b) (ha : a.Live p) : Apart b a := by
  cases b with
  | own x => cases a <;> trivial
  | window id start len =>
    obtain ⟨rfl, hused, -⟩ := hb
    cases a with
    | own x => trivial
    | window id' start' len' =>
      obtain ⟨hid, hlive⟩ := ha
      obtain heq | ⟨hcount, -⟩ := ensure_cases p
      · rw [heq] at hused ⊢
        by_cases hcurrent : id' = p.current
        · have hle := hlive hcurrent
          exact .inr (.inr (by omega))
        · exact .inl (Ne.symm hcurrent)
      · refine .inl ?_
        rw [Pool.current]
        omega

/-! ## What a call does to a queue -/

/-- What a write leaves in the queue in front of what was there: nothing, or what is left of the
data. -/
inductive Leftover (p p' : Pool) (d : Data) : List Buf → Prop
  | none : Leftover p p' d []
  | slice (b : Buf) (k : ℕ) (hd : d = .buf b) (hk : k ≤ b.length) :
      Leftover p p' d [b.slice k b.length]
  | fresh (t : JSString) (b : Buf) (hd : d = .str t) (hb : Fresh p p' b) : Leftover p p' d [b]

theorem grows_stagePool (pw : PoolWriter) (p : Pool) (encoding : Option Encoding) (d : Data) :
    Grows p (World.stagePool pw p encoding d) := by
  cases d with
  | buf b => exact .same
  | str t =>
    rw [World.stagePool]
    split
    · exact .ensured
    · next r _ =>
      split_ifs
      · exact .filled r.stored 0
      · exact .filled r.stored _

theorem destroy_queued (w : World) :
    w.destroy.2.pool = w.pool ∧ (queued w.destroy.2 = queued w ∨ queued w.destroy.2 = []) := by
  rw [World.destroy]
  split_ifs
  · exact ⟨rfl, .inl rfl⟩
  · exact ⟨rfl, .inr rfl⟩

/-- Staged bytes stay where they are, unless they have all been sent. -/
theorem handOver_moves (w : World) (st : World.Staged) (fd : Option ℕ) (cb : Option Callback) :
    (w.handOver st fd cb).2.pool = w.pool ∧
        (queued (w.handOver st fd cb).2 = [] ∨ queued (w.handOver st fd cb).2 = queued w ∨
          ∃ k ≤ st.len, queued (w.handOver st fd cb).2 =
            st.buffer.slice (st.off + k) (st.off + st.len) :: queued w) ∨
      (w.handOver st fd cb).2.pool = w.poolAfter st ∧
        queued (w.handOver st fd cb).2 = queued w := by
  have hover := World.handOver_result w st fd cb
  generalize w.handOver st fd cb = res at hover ⊢
  cases hover with
  | failed calls =>
    obtain ⟨hpool, hqueued⟩ := destroy_queued { w with calls := calls }
    exact .inl ⟨hpool, hqueued.elim (fun h ↦ .inr (.inl h)) .inl⟩
  | queued calls fds => exact .inr ⟨rfl, rfl⟩
  | whole calls fds =>
    rcases cb with _ | id | ⟨last, id⟩
    all_goals exact .inr ⟨rfl, rfl⟩
  | cut calls k fds hle => exact .inl ⟨rfl, .inr (.inr ⟨k, hle, rfl⟩)⟩

/-- A string is handed over. -/
theorem handOver_string_moves {encoding : Option Encoding} {t : JSString} {st : World.Staged}
    {r : PoolWrite} (hst : StagesString pw p encoding t st r)
    (hw : w.pool = World.stagePool pw p encoding (.str t)) (fd : Option ℕ) (cb : Option Callback) :
    Grows p (w.handOver st fd cb).2.pool ∧
      (queued (w.handOver st fd cb).2 = [] ∨
        ∃ L, Leftover p (w.handOver st fd cb).2.pool (.str t) L ∧
          queued (w.handOver st fd cb).2 = L ++ queued w) := by
  rw [hst.pool] at hw
  obtain ⟨hpool, hqueued⟩ | ⟨hpool, hqueued⟩ := handOver_moves w st fd cb
  · rw [hpool, hw]
    refine ⟨.filled _ _, ?_⟩
    obtain hnil | hsame | ⟨k, hk, hcut⟩ := hqueued
    · exact .inl hnil
    · exact .inr ⟨[], .none, hsame⟩
    · refine .inr ⟨_, .fresh t _ rfl ?_, hcut⟩
      rw [hst.buffer, hst.off]
      refine ⟨rfl, by omega, ?_, rfl⟩
      change 0 + (p.ensure.used + k) + _ ≤ p.ensure.used + st.len
      omega
  · have hretreat : w.poolAfter st = (p.ensure.store r.stored).advance 0 := by
      rw [World.poolAfter, if_pos hst.fromPool, hw, Pool.retreat_advance]
      rfl
    rw [hpool, hretreat]
    exact ⟨.filled _ _, .inr ⟨[], .none, hqueued⟩⟩

theorem writeOut_moves (pw : PoolWriter) (w : World) (d : Data) (encoding : Option Encoding)
    (fd : Option ℕ) (cb : Option Callback) :
    Grows w.pool (w.writeOut pw d encoding fd cb).2.pool ∧
      (queued (w.writeOut pw d encoding fd cb).2 = [] ∨
        ∃ L, Leftover w.pool (w.writeOut pw d encoding fd cb).2.pool d L ∧
          queued (w.writeOut pw d encoding fd cb).2 = L ++ queued w) := by
  rw [World.writeOut]
  split_ifs with hwritable
  · have hstage := World.stage_result pw w d encoding cb
    generalize w.stage pw d encoding cb = res at hstage ⊢
    cases hstage with
    | failed e => exact ⟨grows_stagePool pw w.pool encoding d, .inr ⟨[], .none, rfl⟩⟩
    | buffer b hd =>
      obtain ⟨hpool, hqueued⟩ | ⟨hpool, hqueued⟩ :=
        handOver_moves w ⟨b, 0, b.length, false, false⟩ fd cb
      · dsimp only
        rw [hpool]
        refine ⟨.same, ?_⟩
        obtain hnil | hsame | ⟨k, hk, hcut⟩ := hqueued
        · exact .inl hnil
        · exact .inr ⟨[], .none, hsame⟩
        · rw [Nat.zero_add, Nat.zero_add] at hcut
          exact .inr ⟨_, .slice b k hd hk, hcut⟩
      · dsimp only
        rw [hpool]
        exact ⟨.same, .inr ⟨[], .none, hqueued⟩⟩
    | whole t st r hd hst =>
      subst hd
      exact handOver_string_moves hst rfl fd cb
    | split t st r hd hst =>
      subst hd
      exact handOver_string_moves hst rfl fd cb
  · exact ⟨.same, .inr ⟨[], .none, rfl⟩⟩

/-- What a call does to the pool and the queue of its socket. -/
structure Moves (w w' : World) : Prop where
  grows : Grows w.pool w'.pool
  added : ∀ b ∈ queued w', (∃ a ∈ queued w, Within b a) ∨ Fresh w.pool w'.pool b
  pairwise : (∀ a ∈ queued w, a.Live w.pool) → (queued w).Pairwise Apart →
    (queued w').Pairwise Apart

theorem Within.refl (b : Buf) : Within b b := by
  cases b with
  | own x => trivial
  | window id start len => exact ⟨rfl, Nat.le_refl _, Nat.le_refl _⟩

theorem within_slice {b : Buf} {k : ℕ} (hk : k ≤ b.length) : Within (b.slice k b.length) b := by
  cases b with
  | own x => trivial
  | window id start len =>
    have hk' : k ≤ len := hk
    refine ⟨rfl, Nat.le_add_right _ _, ?_⟩
    change start + k + (len - k) ≤ start + len
    omega

/-- A queue of which entries are taken. -/
theorem Moves.of_sublist (hpool : Grows w.pool w'.pool) (h : (queued w').Sublist (queued w)) :
    Moves w w' where
  grows := hpool
  added b hb := .inl ⟨b, h.subset hb, .refl b⟩
  pairwise _ hpair := hpair.sublist h

/-- A queue that gets one more buffer, in front of some of its entries or behind them. -/
theorem Moves.of_cons (hpool : Grows w.pool w'.pool) {b : Buf} {L : List Buf}
    (hL : L.Sublist (queued w)) (hb : Fresh w.pool w'.pool b) (hcons : queued w' = b :: L) :
    Moves w w' where
  grows := hpool
  added c hc := by
    rw [hcons] at hc
    obtain rfl | hc := List.mem_cons.mp hc
    · exact .inr hb
    · exact .inl ⟨c, hL.subset hc, .refl c⟩
  pairwise hlive hpair := by
    rw [hcons, List.pairwise_cons]
    exact ⟨fun a ha ↦ hb.apart (hlive a (hL.subset ha)), hpair.sublist hL⟩

theorem Moves.of_slice (hpool : Grows w.pool w'.pool) {b : Buf} {k : ℕ} {L : List Buf}
    (hw : queued w = b :: L) (hk : k ≤ b.length) (hcons : queued w' = b.slice k b.length :: L) :
    Moves w w' where
  grows := hpool
  added c hc := by
    rw [hcons] at hc
    rw [hw]
    obtain rfl | hc := List.mem_cons.mp hc
    · exact .inl ⟨b, List.mem_cons_self, within_slice hk⟩
    · exact .inl ⟨c, List.mem_cons_of_mem _ hc, .refl c⟩
  pairwise _ hpair := by
    rw [hw, List.pairwise_cons] at hpair
    rw [hcons, List.pairwise_cons]
    exact ⟨fun a ha ↦ (hpair.1 a ha).within (within_slice hk), hpair.2⟩

theorem shutdown_moves (w : World) :
    w.shutdown.2.pool = w.pool ∧ (queued w.shutdown.2).Sublist (queued w) := by
  have hdestroy {v : World} (hv : queued v = queued w) :
      v.destroy.2.pool = v.pool ∧ (queued v.destroy.2).Sublist (queued w) := by
    obtain ⟨hpool, hsame | hnil⟩ := destroy_queued v
    · exact ⟨hpool, hsame ▸ hv ▸ List.Sublist.refl _⟩
    · exact ⟨hpool, hnil ▸ List.nil_sublist _⟩
  rw [World.shutdown]
  split_ifs
  · dsimp only
    split_ifs
    · split
      · exact hdestroy (v := { w with writable := false, calls := w.calls + 1, shut := true }) rfl
      · exact ⟨rfl, List.Sublist.refl _⟩
    · exact hdestroy (v := { w with writable := false }) rfl
  · exact ⟨rfl, List.Sublist.refl _⟩

theorem turn_moves (pw : PoolWriter) (w : World) : Moves w (w.turn pw).2 := by
  rw [World.turn]
  split
  · exact .of_sublist .same (List.Sublist.refl _)
  · next entry rest hq =>
    cases entry with
    | endOfFile =>
      have hrest : queued w = queued (w.shiftQueues rest) := by
        rw [queued, hq]
        rfl
      obtain ⟨hpool, hsub⟩ := shutdown_moves (w.shiftQueues rest)
      dsimp only
      generalize (w.shiftQueues rest).shutdown = res at hpool hsub ⊢
      obtain ⟨o, w₁⟩ := res
      have hmoves : Moves w w₁ := by
        refine .of_sublist ?_ (hrest ▸ hsub)
        dsimp only at hpool
        rw [hpool]
        exact .same
      cases o <;> exact hmoves
    | data d =>
      have hout := writeOut_moves pw (w.taking d rest) d w.writeQueueEncoding.head?.join
        w.writeQueueFD.head?.join w.writeQueueCallbacks.head?.join
      dsimp only
      generalize (w.taking d rest).writeOut pw d w.writeQueueEncoding.head?.join
        w.writeQueueFD.head?.join w.writeQueueCallbacks.head?.join = res at hout ⊢
      obtain ⟨o, w₁⟩ := res
      have hmoves : Moves w w₁ := by
        obtain ⟨hpool, hnil | ⟨L, hL, hqueued⟩⟩ := hout
        · refine .of_sublist hpool ?_
          dsimp only at hnil
          rw [hnil]
          exact List.nil_sublist _
        · cases hL with
          | none =>
            refine .of_sublist hpool ?_
            rw [hqueued, queued, queued, hq]
            exact (List.sublist_cons_self (.data d) rest).filterMap _
          | slice b k hd hk =>
            subst hd
            refine .of_slice hpool ?_ hk hqueued
            rw [queued, hq]
            rfl
          | fresh t b hd hb =>
            subst hd
            refine .of_cons hpool ?_ hb hqueued
            rw [queued, queued, hq]
            exact List.Sublist.refl _
      rcases o with e | _ | _ <;> exact hmoves

theorem enqueue_moves (w : World) {d : Data} (hd : ∀ b, d = .buf b → ∃ x, b = .own x)
    (encoding : Option Encoding) (fd : Option ℕ) (cb : Option Callback) :
    Moves w (w.enqueue d encoding fd cb) := by
  have hres := World.enqueue_result w d encoding fd cb
  generalize w.enqueue d encoding fd cb = v at hres ⊢
  cases hres with
  | joined q t s hd hq =>
    refine .of_sublist .same ?_
    rw [queued, queued, hq, List.filterMap_append, List.filterMap_append]
    exact List.Sublist.refl _
  | pushed =>
    cases d with
    | str t =>
      refine .of_sublist .same ?_
      rw [queued, queued, List.filterMap_append]
      exact (List.append_nil _).symm ▸ List.Sublist.refl _
    | buf b =>
      obtain ⟨x, rfl⟩ := hd b rfl
      have hqueued : queued { w with
          bufferSize := w.bufferSize + (Data.buf (.own x)).length
          writeQueue := w.writeQueue ++ [QueueEntry.data (.buf (.own x))]
          writeQueueEncoding := w.writeQueueEncoding ++ [encoding]
          writeQueueCallbacks := w.writeQueueCallbacks ++ [cb]
          writeQueueFD := if fd.isSome then w.writeQueueFD ++ [fd] else w.writeQueueFD } =
          queued w ++ [Buf.own x] := by
        rw [queued, queued, List.filterMap_append]
        rfl
      refine ⟨.same, fun c hc ↦ ?_, fun _ hpair ↦ ?_⟩
      · rw [hqueued, List.mem_append, List.mem_singleton] at hc
        obtain hc | rfl := hc
        · exact .inl ⟨c, hc, .refl c⟩
        · exact .inr trivial
      · rw [hqueued, List.pairwise_append]
        refine ⟨hpair, List.pairwise_singleton _ _, fun a _ c hc ↦ ?_⟩
        rw [List.mem_singleton.mp hc]
        cases a <;> trivial

theorem write_moves (pw : PoolWriter) (w : World) {d : Data}
    (hd : ∀ b, d = .buf b → ∃ x, b = .own x) (encoding : Option Encoding) (fd : Option ℕ)
    (cb : Option Callback) : Moves w (w.write pw d encoding fd cb).2 := by
  have hsame : Moves w w := .of_sublist .same (List.Sublist.refl _)
  rw [World.write]
  split_ifs with hsize hslow hended
  · exact hsame
  · exact hsame
  · exact enqueue_moves w hd encoding fd cb
  · obtain ⟨hpool, hnil | ⟨L, hL, hqueued⟩⟩ := writeOut_moves pw w d encoding fd cb
    · exact .of_sublist hpool (hnil ▸ List.nil_sublist _)
    · cases hL with
      | none => exact .of_sublist hpool (hqueued ▸ List.Sublist.refl _)
      | slice b k hd' hk =>
        obtain ⟨x, rfl⟩ := hd b hd'
        have hfresh : Fresh w.pool (w.writeOut pw d encoding fd cb).2.pool
            ((Buf.own x).slice k (Buf.own x).length) := trivial
        exact .of_cons hpool (List.Sublist.refl _) hfresh hqueued
      | fresh t b hd' hb => exact .of_cons hpool (List.Sublist.refl _) hb hqueued

theorem part_moves (pw : PoolWriter) (w : World) (p : Life.Part) : Moves w (p.run pw w).2 := by
  have hsame {v : World} (hpool : v.pool = w.pool) (hqueued : queued v = queued w) : Moves w v :=
    .of_sublist (hpool ▸ .same) (hqueued ▸ List.Sublist.refl _)
  cases p with
  | established =>
    rw [Life.Part.run]
    split_ifs <;> exact hsame rfl rfl
  | mark =>
    rw [Life.Part.run]
    split_ifs
    · refine hsame rfl ?_
      rw [queued, queued, List.filterMap_append]
      exact List.append_nil _
    · exact hsame rfl rfl
  | turn => exact turn_moves pw w
  | soon => exact hsame rfl rfl

theorem destroy_moves (w : World) : Moves w w.destroy.2 := by
  obtain ⟨hpool, hqueued⟩ := destroy_queued w
  refine .of_sublist (hpool ▸ .same) ?_
  obtain hsame | hnil := hqueued
  · exact hsame ▸ List.Sublist.refl _
  · exact hnil ▸ List.nil_sublist _

/-! ## Runs -/

theorem Sound.live (h : s.Sound) {x : Option ℕ} {b : Buf} (hb : b ∈ s.slots x) : b.Live s.pool := by
  cases b with
  | own x => trivial
  | window id start len =>
    obtain ⟨hid, hle⟩ := h.below hb
    refine ⟨hid, fun hcurrent ↦ ?_⟩
    rw [usedOf, if_pos hcurrent] at hle
    exact hle

theorem usedOf_setPool (s : Sockets) (p : Pool) (id : ℕ) :
    (s.setPool p).usedOf id =
      if id = p.current then p.used
      else if p.count = s.pool.count then s.final id
      else Function.update s.final s.pool.current s.pool.used id := by
  unfold usedOf setPool
  dsimp only
  split_ifs <;> rfl

theorem usedOf_le (hgrows : Grows s.pool p) {id : ℕ} (hid : id < s.pool.count) :
    s.usedOf id ≤ (s.setPool p).usedOf id := by
  rw [usedOf_setPool, usedOf]
  obtain ⟨hcount, hused⟩ | hcount := hgrows.cases
  · have hcurrent : p.current = s.pool.current := by rw [Pool.current, Pool.current, hcount]
    rw [hcurrent, if_pos hcount]
    split_ifs
    · exact hused
    · exact Nat.le_refl _
  · have hnew : id ≠ p.current := by
      rw [Pool.current]
      omega
    have hne : p.count ≠ s.pool.count := by omega
    rw [if_neg hnew, if_neg hne]
    split_ifs with hcurrent
    · rw [hcurrent, Function.update_self]
    · rw [Function.update_of_ne hcurrent]

theorem usedOf_setPool_le (hused : ∀ id, s.usedOf id ≤ kPoolSize) (hp : p.used ≤ kPoolSize)
    (id : ℕ) : (s.setPool p).usedOf id ≤ kPoolSize := by
  have hold := hused id
  rw [usedOf] at hold
  rw [usedOf_setPool]
  split_ifs with hid hcount
  · exact hp
  · have hcurrent : p.current = s.pool.current := by rw [Pool.current, Pool.current, hcount]
    rw [if_neg (hcurrent ▸ hid)] at hold
    exact hold
  · by_cases hcurrent : id = s.pool.current
    · rw [if_pos hcurrent] at hold
      rw [hcurrent, Function.update_self]
      exact hold
    · rw [if_neg hcurrent] at hold
      rw [Function.update_of_ne hcurrent]
      exact hold

/-- One slot changes, and the pool grows. -/
theorem Sound.update {t : Sockets} (h : s.Sound) {x : Option ℕ} (hgrows : Grows s.pool t.pool)
    (hfinal : t.final = (s.setPool t.pool).final) (hother : ∀ y, y ≠ x → t.slots y = s.slots y)
    (hadded : ∀ b ∈ t.slots x, (∃ a ∈ s.slots x, Within b a) ∨ Fresh s.pool t.pool b)
    (hpair : (t.slots x).Pairwise Apart) (hused : t.pool.used ≤ kPoolSize) : t.Sound := by
  have husedOf (id : ℕ) : t.usedOf id = (s.setPool t.pool).usedOf id := by
    rw [usedOf, usedOf, hfinal]
    rfl
  -- a buffer of the slot is apart from the buffers of any other one
  have hapart {y : Option ℕ} (hy : y ≠ x) {a b : Buf} (ha : a ∈ t.slots x) (hb : b ∈ t.slots y) :
      Apart a b := by
    rw [hother y hy] at hb
    obtain ⟨c, hc, hwithin⟩ | hfresh := hadded a ha
    · exact (h.across hy.symm c hc b hb).within hwithin
    · exact hfresh.apart (h.live hb)
  constructor
  case pairwise =>
    intro y
    by_cases hy : y = x
    · exact hy ▸ hpair
    · rw [hother y hy]
      exact h.pairwise y
  case across =>
    intro y z hyz a ha b hb
    by_cases hy : y = x
    · subst hy
      exact hapart hyz.symm ha hb
    · by_cases hz : z = x
      · subst hz
        exact (hapart hy hb ha).symm
      · rw [hother y hy] at ha
        rw [hother z hz] at hb
        exact h.across hyz a ha b hb
  case below =>
    have hold {y : Option ℕ} {id start len : ℕ} (hmem : .window id start len ∈ s.slots y) :
        id < t.pool.count ∧ start + len ≤ t.usedOf id := by
      obtain ⟨hid, hle⟩ := h.below hmem
      have hcount := hgrows.cases
      exact ⟨by omega, hle.trans ((usedOf_le hgrows hid).trans_eq (husedOf id).symm)⟩
    intro y id start len hmem
    by_cases hy : y = x
    · subst hy
      obtain ⟨a, ha, hwithin⟩ | ⟨rfl, -, hle, hcount⟩ := hadded _ hmem
      · cases a with
        | own x => exact hwithin.elim
        | window id' start' len' =>
          obtain ⟨rfl, -, hend⟩ := hwithin
          obtain ⟨hid, hle⟩ := hold ha
          exact ⟨hid, hend.trans hle⟩
      · have hpos := s.pool.ensure_count_pos
        have hcurrent : s.pool.ensure.current = t.pool.current := by
          rw [Pool.current, Pool.current, hcount]
        refine ⟨?_, ?_⟩
        · rw [Pool.current]
          omega
        · rw [usedOf, if_pos hcurrent]
          exact hle
    · rw [hother y hy] at hmem
      exact hold hmem
  case used_le =>
    intro id
    rw [husedOf]
    exact usedOf_setPool_le h.used_le hused id

theorem Sound.put (h : s.Sound) {i : ℕ} (hmoves : Moves (s.world i) w)
    (hused : w.pool.used ≤ kPoolSize) : (s.put i w).Sound := by
  have hslot : (s.put i w).slots (some i) = queued w := by
    simp only [slots, Sockets.put, Function.update_self]
  refine h.update (x := some i) hmoves.grows rfl (fun y hy ↦ ?_) ?_ ?_ hused
  · cases y with
    | none => rfl
    | some j =>
      have hne : j ≠ i := fun heq ↦ hy (congrArg some heq)
      simp only [slots, Sockets.put, Function.update_of_ne hne]
  · rw [hslot]
    exact hmoves.added
  · rw [hslot]
    exact hmoves.pairwise (fun a ha ↦ h.live (x := some i) ha) (h.pairwise (some i))

theorem Sound.read (h : s.Sound) (b : Bytes) (listening : Bool) : (s.read b listening).Sound := by
  have hroom : s.pool.ensure.used + (b.take s.pool.ensure.room).length ≤ kPoolSize := by
    have hlt := s.pool.ensure_used_lt
    rw [Pool.room, List.length_take]
    omega
  have hset : (s.setPool ((s.pool.ensure.store (b.take s.pool.ensure.room)).advance
      (b.take s.pool.ensure.room).length)).Sound := by
    refine h.update (x := none) (.filled _ _) rfl (fun _ _ ↦ rfl) (fun c hc ↦ .inl ⟨c, hc, .refl c⟩)
      (h.pairwise none) hroom
  have hfresh : Fresh s.pool ((s.pool.ensure.store (b.take s.pool.ensure.room)).advance
      (b.take s.pool.ensure.room).length) (.window s.pool.ensure.current s.pool.ensure.used
      (b.take s.pool.ensure.room).length) := ⟨rfl, Nat.le_refl _, Nat.le_refl _, rfl⟩
  rw [Sockets.read]
  split_ifs
  · refine h.update (x := none) (.filled _ _) rfl (fun y hy ↦ ?_) ?_ ?_ hroom
    · cases y with
      | none => exact absurd rfl hy
      | some i => rfl
    · intro c hc
      obtain hc | hc := List.mem_append.mp hc
      · exact .inl ⟨c, hc, .refl c⟩
      · rw [List.mem_singleton.mp hc]
        exact .inr hfresh
    · refine List.pairwise_append.mpr ⟨h.pairwise none, List.pairwise_singleton _ _, ?_⟩
      intro a ha c hc
      rw [List.mem_singleton.mp hc]
      exact (hfresh.apart (h.live (x := none) ha)).symm
  · exact hset

/-! ### Staying in the pool -/

theorem length_writeAscii_le (m : Heap) (n : ℕ) (b : Bytes) :
    (Buffer.writeAscii m n b).length ≤ n := by
  fun_induction Buffer.writeAscii m n b <;> simp_all

theorem bytesWritten_le {m : Heap} {encoding : Option Encoding} {t : JSString} {room : ℕ}
    (h : Fits m encoding t room) {r : PoolWrite}
    (hr : poolWriter m (World.poolEncoding encoding) t room = .ok r) : r.bytesWritten ≤ room := by
  have hutf8 (hfits : WellFormed t = true → (utf8Bytes t).length ≤ room) :
      (Buffer.utf8Write m t (min room room)).bytesWritten ≤ room := by
    rw [Nat.min_self]
    by_cases hw : WellFormed t = true
    · obtain ⟨tail, hwrite, hle⟩ := Buffer.utf8Write_of_fits m hw (hfits hw)
      rw [hwrite]
      rw [List.length_append] at hle
      dsimp only
      omega
    · have hill : (Buffer.utf8Write m t room).bytesWritten = -1 := by
        simp only [Buffer.utf8Write, if_neg hw]
      omega
  rw [Fits] at h
  cases he : World.poolEncoding encoding with
  | text e =>
    rw [he] at h hr
    cases e with
    | utf8 | utf8Dash =>
      rw [← Except.ok.inj hr]
      exact hutf8 h.1
    | ascii =>
      simp only [poolWriter, Buffer.write, Buffer.asciiWrite] at hr
      split_ifs at hr
      all_goals
        rw [← Except.ok.inj hr]
        have hle := length_writeAscii_le m (min t.length (min room room)) (utf8Bytes t)
        dsimp only
        omega
    | binary =>
      simp only [poolWriter, Buffer.write, Buffer.binaryWrite] at hr
      split_ifs at hr
      rw [← Except.ok.inj hr]
      dsimp only
      rw [List.length_take]
      omega
  | base64 =>
    rw [he] at h hr
    simp only [poolWriter, Buffer.write, Buffer.base64Write] at hr
    split_ifs at hr with hw hsize
    rw [← Except.ok.inj hr]
    dsimp only at h ⊢
    omega
  | ucs2 =>
    rw [he] at hr
    simp only [poolWriter, Buffer.write, Buffer.ucs2Write] at hr
    split_ifs at hr with hle
    rw [← Except.ok.inj hr]
    dsimp only
    omega
  | hex =>
    rw [he] at h hr
    simp only [poolWriter, Buffer.write, Buffer.hexWrite] at hr
    split at hr
    · next b hb =>
      have hlength := Buffer.length_hexBytes hb
      obtain h | h := h
      · cases hb.symm.trans h
      · rw [← Except.ok.inj hr]
        dsimp only
        omega
    · cases hr

/-- What is reported of a string keeps `pool.used` in the pool. -/
def Bounded (pw : PoolWriter) (p : Pool) (encoding : Option Encoding) (d : Data) : Prop :=
  ∀ t, d = .str t → ∀ r, pw (World.poolEncoding encoding) t p.ensure.room = .ok r →
    r.bytesWritten ≤ p.ensure.room

theorem used_stagePool {encoding : Option Encoding} {d : Data} (h : Bounded pw p encoding d)
    (hp : p.used ≤ kPoolSize) : (World.stagePool pw p encoding d).used ≤ kPoolSize := by
  have hensure := p.ensure_used_lt
  cases d with
  | buf b => exact hp
  | str t =>
    rw [World.stagePool]
    split
    · exact hensure.le
    · next r hr =>
      have hle := h t rfl r hr
      rw [Pool.room] at hle
      split_ifs
      · exact hensure.le
      · change p.ensure.used + r.bytesWritten.toNat ≤ kPoolSize
        omega

theorem used_handOver_le (w : World) (st : World.Staged) (fd : Option ℕ) (cb : Option Callback) :
    (w.handOver st fd cb).2.pool.used ≤ w.pool.used := by
  obtain ⟨hpool, -⟩ | ⟨hpool, -⟩ := handOver_moves w st fd cb
  · rw [hpool]
  · rw [hpool, World.poolAfter]
    split_ifs
    · exact Nat.sub_le _ _
    · exact Nat.le_refl _

theorem used_writeOut {encoding : Option Encoding} {d : Data} (h : Bounded pw w.pool encoding d)
    (hw : w.pool.used ≤ kPoolSize) (fd : Option ℕ) (cb : Option Callback) :
    (w.writeOut pw d encoding fd cb).2.pool.used ≤ kPoolSize := by
  have hstaged := used_stagePool h hw
  rw [World.writeOut]
  split_ifs
  · have hstage := World.stage_result pw w d encoding cb
    generalize w.stage pw d encoding cb = res at hstage ⊢
    cases hstage with
    | failed e => exact hstaged
    | buffer b hd => exact (used_handOver_le w _ fd cb).trans hw
    | whole t st r | split t st r => exact (used_handOver_le _ st fd cb).trans hstaged
  · exact hw

theorem used_turn (hw : w.pool.used ≤ kPoolSize)
    (h : ∀ d rest, w.writeQueue = .data d :: rest →
      Bounded pw w.pool w.writeQueueEncoding.head?.join d) :
    (w.turn pw).2.pool.used ≤ kPoolSize := by
  rw [World.turn]
  split
  · exact hw
  · next entry rest hq =>
    cases entry with
    | endOfFile =>
      obtain ⟨hpool, -⟩ := shutdown_moves (w.shiftQueues rest)
      dsimp only
      generalize (w.shiftQueues rest).shutdown = res at hpool ⊢
      obtain ⟨o, w₁⟩ := res
      have hused : w₁.pool.used ≤ kPoolSize := hpool ▸ hw
      cases o <;> exact hused
    | data d =>
      have hout := used_writeOut (w := w.taking d rest) (h d rest hq) hw w.writeQueueFD.head?.join
        w.writeQueueCallbacks.head?.join
      dsimp only
      generalize (w.taking d rest).writeOut pw d w.writeQueueEncoding.head?.join
        w.writeQueueFD.head?.join w.writeQueueCallbacks.head?.join = res at hout ⊢
      obtain ⟨o, w₁⟩ := res
      rcases o with e | _ | _ <;> exact hout

theorem bounded_of_fits {m : Heap} {encoding : Option Encoding} {d : Data}
    (h : ∀ t, d = .str t → Fits m encoding t p.ensure.room) :
    Bounded (poolWriter m) p encoding d :=
  fun t ht _ hr ↦ bytesWritten_le (h t ht) hr

theorem Sound.step {m : Heap} (h : s.Sound) {ev : PoolEvent} (hallows : s.Allows ev)
    (hfit : Fitting m s ev) : (s.step (poolWriter m) ev).Sound := by
  have hused : s.pool.used ≤ kPoolSize := by
    have hle := h.used_le s.pool.current
    rw [usedOf, if_pos rfl] at hle
    exact hle
  cases ev with
  | write i d encoding fd cb =>
    have hown : ∀ b, d = .buf b → ∃ x, b = .own x := by
      rintro b rfl
      exact hallows
    refine h.put (write_moves _ (s.world i) hown encoding fd cb) ?_
    rw [World.write]
    split_ifs with hsize hslow hended
    · exact hused
    · exact hused
    · have hres := World.enqueue_result (s.world i) d encoding fd cb
      dsimp only
      generalize (s.world i).enqueue d encoding fd cb = v at hres ⊢
      cases hres <;> exact hused
    · refine used_writeOut (bounded_of_fits ?_) hused fd cb
      rintro t rfl
      refine hfit t encoding ?_
      exact if_neg hslow
  | part i p =>
    refine h.put (part_moves _ (s.world i) p) ?_
    cases p with
    | established =>
      rw [Life.Part.run]
      split_ifs <;> exact hused
    | mark =>
      rw [Life.Part.run]
      split_ifs <;> exact hused
    | turn =>
      refine used_turn hused fun d rest hq ↦ bounded_of_fits ?_
      rintro t rfl
      refine hfit t _ ?_
      change (s.socket i).writeQueue = _ at hq
      rw [stages, hq]
      rfl
    | soon => exact hused
  | destroy i =>
    refine h.put (destroy_moves (s.world i)) ?_
    rw [(destroy_queued (s.world i)).1]
    exact hused
  | read b listening => exact h.read b listening

/-- Whatever an event does, the pool grows. -/
theorem step_grows (pw : PoolWriter) (s : Sockets) (ev : PoolEvent) :
    Grows s.pool (s.step pw ev).pool := by
  cases ev with
  | write i d encoding fd cb =>
    change Grows (s.world i).pool ((s.world i).write pw d encoding fd cb).2.pool
    rw [World.write]
    split_ifs
    · exact .same
    · exact .same
    · have hres := World.enqueue_result (s.world i) d encoding fd cb
      dsimp only
      generalize (s.world i).enqueue d encoding fd cb = v at hres ⊢
      cases hres <;> exact .same
    · exact (writeOut_moves pw (s.world i) d encoding fd cb).1
  | part i p => exact (part_moves pw (s.world i) p).grows
  | destroy i => exact (destroy_moves (s.world i)).grows
  | read b listening =>
    change Grows s.pool (s.read b listening).pool
    rw [Sockets.read]
    split_ifs <;> exact .filled _ _

theorem Sound.start (type : ℕ → SocketType) (connecting : ℕ → Bool)
    (kernel : ℕ → ℕ → KernelReply) (mem : ℕ → ℕ → UInt8) :
    (start type connecting kernel mem).Sound := by
  have hslots (x : Option ℕ) : (Sockets.start type connecting kernel mem).slots x = [] := by
    cases x <;> rfl
  constructor
  case pairwise =>
    intro x
    rw [hslots]
    exact .nil
  case across =>
    intro x y _ a ha
    rw [hslots] at ha
    cases ha
  case below =>
    intro x id start len hmem
    rw [hslots] at hmem
    cases hmem
  case used_le =>
    intro id
    rw [usedOf]
    split_ifs <;> exact Nat.zero_le _

/-- In every run in which staged strings fit, the pool is sound, and the buffers in it are not
written again. -/
theorem sound_of_fitting (m : Heap) (type : ℕ → SocketType) (connecting : ℕ → Bool)
    (kernel : ℕ → ℕ → KernelReply) (mem : ℕ → ℕ → UInt8) {s : Sockets}
    (h : ((machine (poolWriter m)).restrict (Fitting m)).Reaches
      (start type connecting kernel mem) s) :
    s.Sound ∧ ∀ t, ((machine (poolWriter m)).restrict (Fitting m)).Reaches s t →
      ∀ x, ∀ b ∈ s.slots x, b.read t.pool = b.read s.pool := by
  have hsound : s.Sound := by
    refine h.invariant (Sound.start type connecting kernel mem) ?_
    rintro s t ev hs ⟨hallows, hfit⟩ ht
    obtain rfl := Except.ok.inj ht
    exact hs.step hallows hfit
  refine ⟨hsound, fun t ht x b hb ↦ ?_⟩
  refine (ht.invariant (p := fun t ↦ b.Live t.pool ∧ b.read t.pool = b.read s.pool)
    ⟨hsound.live hb, rfl⟩ ?_).2
  rintro u v ev ⟨hlive, hread⟩ - hv
  obtain rfl := Except.ok.inj hv
  obtain ⟨hlive', hread'⟩ := (step_grows (poolWriter m) u ev).live hlive
  exact ⟨hlive', hread'.trans hread⟩

/-- Nothing behind the memory of the encoders. -/
def blankHeap : Heap := ⟨fun _ ↦ 1, 0, 0, 0⟩

/-- Sockets of which each system call takes a byte. -/
def slowSockets : Sockets := start (fun _ ↦ .tcp) (fun _ ↦ false) (fun _ _ ↦ .wrote 1) fun _ _ ↦ 0

theorem reaches_step {m : Heap} {s₀ : Sockets}
    (h : ((machine (poolWriter m)).restrict (Fitting m)).Reaches s₀ s) {ev : PoolEvent}
    (hallows : s.Allows ev) (hfit : Fitting m s ev) :
    ((machine (poolWriter m)).restrict (Fitting m)).Reaches s₀ (s.step (poolWriter m) ev) :=
  h.step ⟨hallows, hfit⟩ rfl

theorem sound_of_fitting_read : ∃ s : Sockets, s.Sound ∧
    s.slots (some 0) = [.window 0 1 1] ∧ s.slots none = [.window 0 2 2] := by
  have hwrite : ((machine (poolWriter blankHeap)).restrict (Fitting blankHeap)).Reaches slowSockets
      (slowSockets.step (poolWriter blankHeap) (.write 0 (.str [0x68, 0x69]) none none none)) := by
    refine reaches_step .init trivial fun t encoding ht ↦ ?_
    obtain ⟨rfl, rfl⟩ := Prod.mk.inj (Option.some.inj ht)
    exact ⟨fun _ ↦ by decide, fun _ ↦ by decide⟩
  have hallows (s : Sockets) : s.Allows (.read [0x61, 0x62] true) := trivial
  have hread := reaches_step hwrite (hallows _) fun t encoding ht ↦ by cases ht
  exact ⟨_, (sound_of_fitting _ _ _ _ _ hread).1, rfl, rfl⟩

/-- Where nothing waits, what is written goes out at once. -/
theorem write_of_idle {pw : PoolWriter} {w : World} (hsize : ¬w.bufferSize < 0)
    (hconnecting : w.connecting = false) (hqueue : w.writeQueue = []) (d : Data)
    (encoding : Option Encoding) (fd : Option ℕ) (cb : Option Callback) :
    w.write pw d encoding fd cb = w.writeOut pw d encoding fd cb := by
  rw [World.write, if_neg hsize, if_neg (by simp [hconnecting, hqueue])]

/-- What does not lie in the buffer is refused, and stays where it is. -/
theorem pool_handOver_of_lt (w : World) {st : World.Staged}
    (h : st.buffer.length < st.off + st.len) (fd : Option ℕ) (cb : Option Callback) :
    (w.handOver st fd cb).2.pool = w.pool := by
  have hrefused : ∃ e, w.writeImpl st.buffer st.off st.len fd = (.error e, w) := by
    rw [World.writeImpl]
    split_ifs <;> exact ⟨_, rfl⟩
  obtain ⟨e, he⟩ := hrefused
  rw [World.handOver, he]
  dsimp only
  have hpool := (destroy_queued w).1
  generalize w.destroy = res at hpool ⊢
  obtain ⟨o, w₁⟩ := res
  cases o <;> exact hpool

/-- A string with more bytes than there is space for takes `pool.used` out of the pool. -/
theorem used_writeOut_of_long {t : JSString} (hw : w.writable = true) (hp : w.pool.count = 0)
    (ht : WellFormed t = true) (hlong : kPoolSize < (utf8Bytes t).length) :
    (w.writeOut (poolWriter blankHeap) (.str t) none none none).2.pool.used =
      (utf8Bytes t).length := by
  have hensure : w.pool.ensure.used = 0 ∧ w.pool.ensure.room = kPoolSize := by
    rw [Pool.ensure, if_pos (.inl hp)]
    exact ⟨rfl, rfl⟩
  have hbeyond : blankHeap.beyond ((utf8Bytes t).length - 1 - kPoolSize) ≠ 0 := by
    change (1 : UInt8) ≠ 0
    decide
  obtain ⟨-, hbytes⟩ := Buffer.utf8Write_of_lt blankHeap ht hlong hbeyond
  have hpw : poolWriter blankHeap (World.poolEncoding none) t w.pool.ensure.room =
      .ok (Buffer.utf8Write blankHeap t kPoolSize) := by
    have hutf8 : World.poolEncoding none = .text .utf8 := rfl
    rw [hensure.2, hutf8, poolWriter, Buffer.write, Nat.min_self]
  have hpool : (World.stagePool (poolWriter blankHeap) w.pool none (.str t)).used =
      (utf8Bytes t).length := by
    simp only [World.stagePool, hpw]
    rw [if_neg (by simp [hbytes]), hbytes]
    change w.pool.ensure.used + _ = _
    rw [hensure.1, Nat.zero_add]
    rfl
  rw [World.writeOut, if_neg (not_not_intro hw)]
  have hstage := World.stage_result (poolWriter blankHeap) w (.str t) none none
  generalize w.stage (poolWriter blankHeap) (.str t) none none = res at hstage ⊢
  have hlen {st : World.Staged} {r : PoolWrite} {t' : JSString} (hd : Data.str t = .str t')
      (hst : StagesString (poolWriter blankHeap) w.pool none t' st r) :
      st.buffer.length < st.off + st.len := by
    obtain rfl := Data.str.inj hd
    have hr := Except.ok.inj (hst.write.symm.trans hpw)
    rw [hst.buffer, hst.len, hr, hbytes]
    change kPoolSize < _ + (utf8Bytes t).length
    omega
  cases hstage with
  | failed e => exact hpool
  | buffer b hd => cases hd
  | whole t' st r hd hst | split t' st r hd hst =>
    dsimp only
    rw [pool_handOver_of_lt _ (hlen hd hst)]
    exact hpool

theorem exists_outside {t : JSString} (hlength : (utf8Bytes t).length = kPoolSize + 1)
    (hw : WellFormed t = true) : ∃ s : Sockets,
      (machine (poolWriter blankHeap)).Reaches slowSockets s ∧ s.pool.used = kPoolSize + 1 ∧
        ¬s.Sound := by
  have hstep : (slowSockets.step (poolWriter blankHeap) (.write 0 (.str t) none none none)).pool =
      ((slowSockets.world 0).writeOut (poolWriter blankHeap) (.str t) none none none).2.pool := by
    rw [← write_of_idle (by decide) rfl rfl]
    rfl
  have hused : (slowSockets.step (poolWriter blankHeap)
      (.write 0 (.str t) none none none)).pool.used = kPoolSize + 1 := by
    rw [hstep, used_writeOut_of_long rfl rfl hw (by omega), hlength]
  have hreach : (machine (poolWriter blankHeap)).Reaches slowSockets
      (slowSockets.step (poolWriter blankHeap) (.write 0 (.str t) none none none)) :=
    Machine.Reaches.init.step (e := .write 0 (.str t) none none none) trivial rfl
  refine ⟨_, hreach, hused, fun hsound ↦ ?_⟩
  have hle := hsound.used_le
    (slowSockets.step (poolWriter blankHeap) (.write 0 (.str t) none none none)).pool.current
  rw [usedOf, if_pos rfl, hused] at hle
  omega

/-- A string of one byte more than the pool has. -/
theorem used_outside : ∃ s : Sockets,
    (machine (poolWriter blankHeap)).Reaches slowSockets s ∧ s.pool.used = kPoolSize + 1 ∧
      ¬s.Sound := by
  have hascii : IsAscii (List.replicate (kPoolSize + 1) 0x61) := by
    intro u hu
    rw [List.eq_of_mem_replicate hu]
    decide
  have hlength : (utf8Bytes (List.replicate (kPoolSize + 1) 0x61)).length = kPoolSize + 1 := by
    rw [utf8Bytes_of_isAscii hascii, latin1Bytes, List.length_map, List.length_replicate]
  have hw : WellFormed (List.replicate (kPoolSize + 1) 0x61) = true :=
    wellFormed_of_not_surrogate fun u hu ↦ by
      rw [List.eq_of_mem_replicate hu]
      decide
  exact exists_outside hlength hw

end Sockets

end SpiderNode.Net
