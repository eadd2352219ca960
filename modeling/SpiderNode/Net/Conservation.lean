import SpiderNode.Net.Socket
import Mathlib

/-!
# The write queue conserves bytes

A string may be cut twice on its way out, once by what fits in the pool and once by what the kernel
takes, and both remainders go back on the front of the queue. Strings that wait are joined. None of
this loses, repeats or reorders a byte: what the kernel has accepted, followed by the encoding of
what is still queued, is always the encoding of everything written so far.

## What is assumed of the pool

The queue turns a byte count back into a position in the string, so it needs `pool.write` to stop
between characters and to count them right. `Trusted` states exactly that, for the strings of some
class that is closed under the cutting and joining the queue does. The class is a parameter: for
an exact encoder it is every string that has an encoding, and for the native ones it is narrower.

## The invariant

`Live` describes a socket that has not been destroyed by the list of its queued items. The windows
among them stay clear of the free part of the pool, which is why storing a string never changes
what is already queued.
-/

namespace SpiderNode.Net

/-! ## The bytes of the queue -/

/-- The text encoding an `encoding` argument stands for. -/
def textArg : Option Encoding → Option TextEncoding
  | some (.text e) => some e
  | _ => none

/-- A text encoding as an `encoding` argument. -/
def asArg (e : Option TextEncoding) : Option Encoding := e.map .text

@[simp] theorem textArg_asArg (e : Option TextEncoding) : textArg (asArg e) = e := by
  cases e <;> rfl

@[simp] theorem defaultsToUtf8_asArg (e : Option TextEncoding) :
    World.defaultsToUtf8 (asArg e) = isUtf8 e := by
  rcases e with _ | e
  · rfl
  · cases e <;> rfl

/-- The bytes an entry stands for. -/
def dataBytes (p : Pool) : Data → Option Encoding → Bytes
  | .str s, encoding => encodeText (textArg encoding) s
  | .buf b, _ => b.read p

/-- The bytes of the entries of `_writeQueue`, in order, `END_OF_FILE` ignored. -/
def queueBytes (p : Pool) : List QueueEntry → List (Option Encoding) → Bytes
  | [], _ => []
  | .endOfFile :: q, es => queueBytes p q es.tail
  | .data d :: q, es => dataBytes p d es.head?.join ++ queueBytes p q es.tail

/-- The sum of `.length` over the entries other than `END_OF_FILE`. -/
def queueLength : List QueueEntry → ℕ
  | [] => 0
  | .endOfFile :: q => queueLength q
  | .data d :: q => d.length + queueLength q

/-! ## What the queue relies on -/

/-- `pool.write` does what the queue expects on the strings of class `G`: whenever the pool has its
minimum of free space, it stores the encoding of a prefix of whole characters, not empty unless the
string is, and reports the numbers of bytes and, for UTF-8, of code units of that prefix. It may
leave a terminator or the like behind what it reports. -/
structure Trusted (pw : PoolWriter) (G : Option TextEncoding → JSString → Prop) : Prop where
  encodable : ∀ {e s}, G e s → Encodable e s = true
  drop : ∀ {e s k}, G e s → k < s.length → Encodable e (s.take k) = true → G e (s.drop k)
  append : ∀ {e s t}, G e s → G e t → G e (s ++ t)
  exact : ∀ {e s room}, G e s → kMinPoolSpace ≤ room →
    ∃ (k : ℕ) (tail : Bytes) (chars : ℤ), k ≤ s.length ∧ (s ≠ [] → 0 < k) ∧
      Encodable e (s.take k) = true ∧ (encodeText e (s.take k) ++ tail).length ≤ room ∧
      (isUtf8 e = true → chars = k) ∧
      pw (World.poolEncoding (asArg e)) s room =
        .ok ⟨encodeText e (s.take k) ++ tail, (encodeText e (s.take k)).length, chars⟩

/-- An item of the queue that can be relied on. -/
inductive Good (G : Option TextEncoding → JSString → Prop) (p : Pool) :
    Data × Option Encoding → Prop
  | str {e : Option TextEncoding} {s : JSString} (h : G e s) : Good G p (.str s, asArg e)
  | buf {b : Buf} {encoding : Option Encoding} (h : b.Live p) : Good G p (.buf b, encoding)

/-- A socket that has not been destroyed, with the items it has queued; `ended` says whether
`END_OF_FILE` follows them, and `acc` is what has been written so far. -/
structure Live (G : Option TextEncoding → JSString → Prop) (acc : Bytes) (w : World)
    (items : List (Data × Option Encoding)) (ended : Bool) : Prop where
  queue : w.writeQueue = items.map (QueueEntry.data ·.1) ++
    if ended then [QueueEntry.endOfFile] else []
  encodings : w.writeQueueEncoding = items.map (·.2)
  good : ∀ i ∈ items, Good G w.pool i
  size : w.bufferSize = (items.map (·.1.length)).sum
  bytes : w.sent ++ items.flatMap (fun i ↦ dataBytes w.pool i.1 i.2) = acc
  alive : w.destroyed = false
  /-- A socket becomes readable only when it is connected. -/
  connecting : w.connecting = true → w.readable = false
  writable : w.writable = true
  unshut : w.shut = false

/-- A destroyed socket stays unwritable. -/
structure Dead (w : World) : Prop where
  destroyed : w.destroyed = true
  writable : w.writable = false
  unshut : w.shut = false

/-- The connection has been shut down: everything was written before that, and nothing will be
written again. -/
structure Shut (acc : Bytes) (w : World) : Prop where
  shut : w.shut = true
  sent : w.sent = acc
  writable : w.writable = false
  connecting : w.connecting = false
  queue : w.writeQueue = []
  size : w.bufferSize = 0

/-- The life of a socket: its bytes are accounted for until it is shut down or destroyed. -/
inductive Accounted (G : Option TextEncoding → JSString → Prop) (acc : Bytes) (w : World) : Prop
  | live {items : List (Data × Option Encoding)} {ended : Bool} (h : Live G acc w items ended)
  | shut (h : Shut acc w)
  | dead (h : Dead w)

/-! ## Changes to the pool -/

section Pool

variable {G : Option TextEncoding → JSString → Prop} {p : Pool} {i : Data × Option Encoding}

@[simp] theorem dataBytes_str (p : Pool) (s : JSString) (e : Option TextEncoding) :
    dataBytes p (.str s) (asArg e) = encodeText e s := by
  rw [dataBytes, textArg_asArg]

@[simp] theorem dataBytes_ensure (p : Pool) (d : Data) (encoding : Option Encoding) :
    dataBytes p.ensure d encoding = dataBytes p d encoding := by
  cases d <;> simp [dataBytes]

@[simp] theorem dataBytes_advance (p : Pool) (n : ℕ) (d : Data) (encoding : Option Encoding) :
    dataBytes (p.advance n) d encoding = dataBytes p d encoding := by
  cases d <;> simp [dataBytes]

@[simp] theorem dataBytes_retreat (p : Pool) (n : ℕ) (d : Data) (encoding : Option Encoding) :
    dataBytes (p.retreat n) d encoding = dataBytes p d encoding := by
  cases d <;> simp [dataBytes]

theorem Good.dataBytes_store (h : Good G p i) (x : Bytes) :
    dataBytes (p.store x) i.1 i.2 = dataBytes p i.1 i.2 := by
  cases h with
  | str h => rfl
  | buf h => exact h.read_store x

theorem Good.ensure (h : Good G p i) : Good G p.ensure i := by
  cases h with
  | str h => exact .str h
  | buf h => exact .buf h.ensure

theorem Good.advance (h : Good G p i) (n : ℕ) : Good G (p.advance n) i := by
  cases h with
  | str h => exact .str h
  | buf h => exact .buf (h.advance n)

theorem Good.store (h : Good G p i) (x : Bytes) : Good G (p.store x) i := by
  cases h with
  | str h => exact .str h
  | buf h => exact .buf (h.store x)

theorem Good.of_retreat {n : ℕ} (h : Good G (p.retreat n) i) : Good G p i := by
  cases h with
  | str h => exact .str h
  | @buf b _ h =>
    refine .buf ?_
    cases b with
    | own b => trivial
    | window id start len => exact ⟨h.1, fun hc ↦ Nat.le_trans (h.2 hc) (Nat.sub_le _ _)⟩

end Pool

/-! ## The front of the queue -/

/-- What was accounted for as sent goes back in front of the queue, and is still accounted for. -/
theorem Live.unshift {G : Option TextEncoding → JSString → Prop} {acc : Bytes} {w w' : World}
    {items : List (Data × Option Encoding)} {ended : Bool} {d : Data} {encoding : Option Encoding}
    (h : Live G acc w items ended) (hqueue : w'.writeQueue = .data d :: w.writeQueue)
    (hencodings : w'.writeQueueEncoding = encoding :: w.writeQueueEncoding)
    (hsize : w'.bufferSize = w.bufferSize + d.length) (hd : Good G w'.pool (d, encoding))
    (hgood : ∀ i ∈ items, Good G w'.pool i)
    (hbytes : ∀ i ∈ items, dataBytes w'.pool i.1 i.2 = dataBytes w.pool i.1 i.2)
    (hsent : w'.sent ++ dataBytes w'.pool d encoding = w.sent)
    (hstate : (w'.destroyed, w'.connecting, w'.readable, w'.writable, w'.shut) =
      (w.destroyed, w.connecting, w.readable, w.writable, w.shut)) :
    Live G acc w' ((d, encoding) :: items) ended := by
  simp only [Prod.mk.injEq] at hstate
  obtain ⟨hdestroyed, hconnecting, hreadable, hwritable, hshut⟩ := hstate
  constructor
  case queue => rw [hqueue, h.queue, List.map_cons, List.cons_append]
  case encodings => rw [hencodings, h.encodings, List.map_cons]
  case good =>
    intro i hi
    rcases List.mem_cons.mp hi with rfl | hi
    · exact hd
    · exact hgood i hi
  case size =>
    rw [hsize, h.size, List.map_cons, List.sum_cons, Int.natCast_add, Int.add_comm]
  case bytes =>
    rw [List.flatMap_cons, ← List.append_assoc, hsent, List.flatMap_congr hbytes, h.bytes]
  case alive => rw [hdestroyed, h.alive]
  case connecting => rw [hconnecting, hreadable]; exact h.connecting
  case writable => rw [hwritable, h.writable]
  case unshut => rw [hshut, h.unshut]

/-! ## The system call -/

namespace World

theorem destroy_of_nonneg {w : World} (h : 0 ≤ w.bufferSize) :
    ∃ w', w.destroy = (.ok (), w') ∧ w'.destroyed = true ∧ w'.writable = false ∧
      w'.shut = w.shut ∧ w'.sent = w.sent ∧ w'.writeQueue = [] ∧ w'.bufferSize = 0 ∧
      w'.connecting = w.connecting ∧ w'.kernel = w.kernel := by
  rw [destroy, if_neg (by omega)]
  exact ⟨_, rfl, rfl, rfl, rfl, rfl, rfl, rfl, rfl, rfl⟩

/-- What `_writeImpl` can do: take the first bytes of the range it was given, or fail, because the
kernel fails, because the range starts behind the buffer, or because of a descriptor. -/
theorem writeImpl_cases (w : World) {b : Buf} {off len : ℕ} (hr : off + len ≤ b.length)
    (fd : Option ℕ) :
    (∃ e n, w.writeImpl b off len fd = (.error e, { w with calls := n }) ∧
      (w.nextReply = .failed ∨ b.length ≤ off ∨ fd ≠ none)) ∨
    ∃ taken n fds, taken.getD 0 ≤ len ∧ (taken = none → w.type = .unix) ∧
      (∀ k, w.nextReply = .wrote k → taken = some (min k len)) ∧
      w.writeImpl b off len fd =
        (.ok taken,
          { w with
            calls := n
            sent := w.sent ++ ((b.read w.pool).drop off).take (taken.getD 0)
            sentFDs := fds }) := by
  unfold writeImpl
  split
  · rename_i hfd
    exact .inl ⟨_, w.calls, rfl, .inr (.inr fun h ↦ by simp [h] at hfd)⟩
  · split
    · rename_i hoff
      exact .inl ⟨_, w.calls, rfl, .inr (.inl hoff)⟩
    · rw [if_neg (by omega)]
      simp only
      split
      · rename_i hfail
        exact .inl ⟨_, _, rfl, .inl hfail⟩
      · rename_i hagain
        -- with `EAGAIN` nothing is taken; a socket of Unix then returns `null` and not zero
        have h0 : (if w.type = .unix then none else some 0 : Option ℕ).getD 0 = 0 := by
          split <;> rfl
        refine .inr ⟨if w.type = .unix then none else some 0, w.calls + 1, w.sentFDs, ?_, ?_, ?_,
          ?_⟩
        · rw [h0]
          exact Nat.zero_le _
        · intro hn
          by_contra hu
          rw [if_neg hu] at hn
          cases hn
        · rw [hagain]
          exact fun _ h ↦ nomatch h
        · rw [h0, List.take_zero, List.append_nil]
      · rename_i n hwrote
        refine .inr ⟨some (min n len), _, _, Nat.min_le_right _ _, by simp, ?_, rfl⟩
        intro k hk
        rw [hwrote] at hk
        rw [KernelReply.wrote.inj hk]

/-! ## Handing bytes over -/

/-- A range cut after `k` bytes. -/
theorem taken_append_left (b : Bytes) (off : ℕ) {k len : ℕ} (h : k ≤ len) :
    (b.drop off).take k ++ (b.take (off + len)).drop (off + k) = (b.drop off).take len := by
  have hdrop : (b.take (off + len)).drop (off + k) = ((b.drop off).take len).drop k := by
    rw [← List.drop_drop, List.drop_take, Nat.add_sub_cancel_left]
  have htake : (b.drop off).take k = ((b.drop off).take len).take k := by
    rw [List.take_take, Nat.min_eq_left h]
  rw [hdrop, htake, List.take_append_drop]

/-- `st` describes the bytes `B`, wherever the kernel may stop in them. -/
structure StagedFor (w : World) (st : Staged) (B : Bytes) : Prop where
  range : st.off + st.len ≤ st.buffer.length
  read : ((st.buffer.read w.pool).drop st.off).take st.len = B
  rest : ∀ k ≤ st.len, (st.buffer.slice (st.off + k) (st.off + st.len)).Live w.pool

/-- The pool as it is once staged bytes have been sent. -/
def poolAfter (w : World) (st : Staged) : Pool :=
  if st.fromPool then w.pool.retreat st.len else w.pool

theorem invoke_eq (w : World) (cb : Option Callback) :
    ∃ o ran, w.invoke cb = (o, { w with called := ran }) ∧
      ∀ e, o = .error e → ∃ last id, cb = some (.joined last id) := by
  rcases cb with _ | c
  · exact ⟨_, w.called, rfl, by simp⟩
  · cases c
    · exact ⟨_, _, rfl, by simp⟩
    · exact ⟨_, w.called, rfl, by simp⟩

variable {G : Option TextEncoding → JSString → Prop} {acc B : Bytes} {w : World} {st : Staged}
  {items : List (Data × Option Encoding)} {ended : Bool}

/-- What a write of `size` bytes or code units may leave behind. The kernel takes something if there
is something and it is willing to. The socket is live and still accounts for `acc`, with its queue
untouched if the call returned `true`, and nothing empty is put on the queue, except that `sendMsg`
may do so with an empty string; or the socket is dead, if the kernel failed, there was `bare`
nothing to point at, or a descriptor came along. Only a joined callback throws. -/
structure Leaves (G : Option TextEncoding → JSString → Prop) (acc : Bytes) (w : World)
    (items : List (Data × Option Encoding)) (ended : Bool) (size : ℕ) (bare : Prop)
    (fd : Option ℕ) (cb : Option Callback) (r : Call Bool) : Prop where
  kernel : r.2.kernel = w.kernel
  sends : ∃ b, r.2.sent = w.sent ++ b ∧
    (∀ k, w.nextReply = .wrote (k + 1) → size ≠ 0 → fd = none → b ≠ [])
  throws : ∀ e, r.1 = .error e → ∃ last id, cb = some (.joined last id)
  left : (∃ items', Live G acc r.2 items' ended ∧ (r.1 = .ok true → items' = items) ∧
      (size ≠ 0 ∨ w.type = .tcp → ∀ i ∈ items', i ∈ items ∨ i.1.length ≠ 0)) ∨
    Dead r.2 ∧ r.1 ≠ .ok true ∧ ((∃ n, w.kernel n = .failed) ∨ bare ∨ fd ≠ none)

/-- If the system call fails, the socket is destroyed. -/
theorem handOver_failed (hs : StagedFor w st B)
    (h : Live G acc { w with sent := w.sent ++ B, pool := poolAfter w st } items ended)
    {fd : Option ℕ} (cb : Option Callback) {e : JsError} {n : ℕ}
    (he : w.writeImpl st.buffer st.off st.len fd = (.error e, { w with calls := n }))
    (hwhy : w.nextReply = .failed ∨ st.buffer.length ≤ st.off ∨ fd ≠ none) :
    Leaves G acc w items ended st.len (st.buffer.length ≤ st.off) fd cb (w.handOver st fd cb) := by
  have hsize : w.bufferSize = (items.map (·.1.length)).sum := h.size
  obtain ⟨w', hd, hdest, hunw, hshut, hsent, -, -, -, hkernel⟩ :=
    destroy_of_nonneg (w := { w with calls := n }) (hsize ▸ Int.natCast_nonneg _)
  rw [handOver, he]
  simp only [hd]
  refine ⟨hkernel, ⟨[], by rw [hsent, List.append_nil], ?_⟩, by simp, .inr
    ⟨⟨hdest, hunw, hshut.trans h.unshut⟩, by simp, hwhy.imp_left fun hf ↦ ⟨_, hf⟩⟩⟩
  intro k hk hne hfd
  rcases hwhy with hf | hoff | hfd'
  · rw [hk] at hf
    cases hf
  · have := hs.range
    omega
  · exact absurd hfd hfd'

/-- If everything was taken, a string gives its space in the pool back. -/
theorem handOver_taken
    (h : Live G acc { w with sent := w.sent ++ B, pool := poolAfter w st } items ended)
    {fd : Option ℕ} (cb : Option Callback) {n : ℕ} {fds : List (ℕ × ℕ)}
    (hsends : ∀ k, w.nextReply = .wrote (k + 1) → st.len ≠ 0 → fd = none → B ≠ [])
    (he : w.writeImpl st.buffer st.off st.len fd =
      (.ok (some st.len), { w with calls := n, sent := w.sent ++ B, sentFDs := fds })) :
    Leaves G acc w items ended st.len (st.buffer.length ≤ st.off) fd cb (w.handOver st fd cb) := by
  rw [handOver, he]
  simp only [if_true]
  cases hq : st.queuedData with
  -- the rest of the string is in the queue, so that the callback is not called yet
  | true =>
    refine ⟨rfl, ⟨B, rfl, hsends⟩, by simp, .inl ⟨items, ?_, fun _ ↦ rfl, fun _ i hi ↦ .inl hi⟩⟩
    exact ⟨h.queue, h.encodings, h.good, h.size, h.bytes, h.alive, h.connecting,
      h.writable, h.unshut⟩
  | false =>
    obtain ⟨o, ran, ho, hcb⟩ := invoke_eq
      { w with calls := n, sent := w.sent ++ B, sentFDs := fds, pool := poolAfter w st } cb
    have hlive : Live G acc
        { w with
          calls := n
          sent := w.sent ++ B
          sentFDs := fds
          pool := poolAfter w st
          called := ran } items ended :=
      ⟨h.queue, h.encodings, h.good, h.size, h.bytes, h.alive, h.connecting,
        h.writable, h.unshut⟩
    simp only [poolAfter] at ho
    simp only [Bool.false_eq_true, if_false, ho]
    cases o with
    | error e =>
      exact ⟨rfl, ⟨B, rfl, hsends⟩, fun _ _ ↦ hcb e rfl,
        .inl ⟨items, hlive, fun _ ↦ rfl, fun _ i hi ↦ .inl hi⟩⟩
    | ok u =>
      exact ⟨rfl, ⟨B, rfl, hsends⟩, by simp,
        .inl ⟨items, hlive, fun _ ↦ rfl, fun _ i hi ↦ .inl hi⟩⟩

/-- If the kernel stopped short, the rest becomes the first item. -/
theorem handOver_cut (hs : StagedFor w st B)
    (h : Live G acc { w with sent := w.sent ++ B, pool := poolAfter w st } items ended)
    {fd : Option ℕ} (cb : Option Callback) {taken : Option ℕ} {n : ℕ} {fds : List (ℕ × ℕ)}
    (hle : taken.getD 0 ≤ st.len) (hne : taken ≠ some st.len)
    (hsolid : st.len ≠ 0 ∨ w.type = .tcp → taken.getD 0 < st.len)
    (hsends : ∀ k, w.nextReply = .wrote (k + 1) → st.len ≠ 0 → fd = none →
      ((st.buffer.read w.pool).drop st.off).take (taken.getD 0) ≠ [])
    (he : w.writeImpl st.buffer st.off st.len fd =
      (.ok taken,
        { w with
          calls := n
          sent := w.sent ++ ((st.buffer.read w.pool).drop st.off).take (taken.getD 0)
          sentFDs := fds })) :
    Leaves G acc w items ended st.len (st.buffer.length ≤ st.off) fd cb (w.handOver st fd cb) := by
  -- what the items hold in the pool is before the space that is given back
  have hgood : ∀ i ∈ items, Good G w.pool i := by
    intro i hi
    have := h.good i hi
    simp only [poolAfter] at this
    split at this
    · exact this.of_retreat
    · exact this
  rw [handOver, he]
  simp only [if_neg hne]
  generalize taken.getD 0 = k at hle hsends hsolid ⊢
  refine ⟨rfl, ⟨_, rfl, hsends⟩, by simp, .inl
    ⟨(.buf (st.buffer.slice (st.off + k) (st.off + st.len)), none) :: items, ?_, by simp, ?_⟩⟩
  · refine h.unshift rfl rfl rfl (.buf (hs.rest k hle)) hgood ?_ ?_ rfl
    · intro i _
      simp only [poolAfter]
      split
      · exact (dataBytes_retreat _ _ _ _).symm
      · rfl
    · simp only [unshift, dataBytes, Buf.read_slice _ hs.range]
      rw [List.append_assoc, taken_append_left _ _ hle, hs.read]
  · intro hcase i hi
    rcases List.mem_cons.mp hi with rfl | hi
    · refine .inr ?_
      have := hsolid hcase
      simp only [Data.length, Buf.length_slice hs.range]
      omega
    · exact .inl hi

theorem handOver_leaves (hs : StagedFor w st B)
    (h : Live G acc { w with sent := w.sent ++ B, pool := poolAfter w st } items ended)
    (fd : Option ℕ) (cb : Option Callback) :
    Leaves G acc w items ended st.len (st.buffer.length ≤ st.off) fd cb (w.handOver st fd cb) := by
  rcases writeImpl_cases w hs.range fd with
    ⟨e, n, he, hwhy⟩ | ⟨taken, n, fds, hk, hnull, hreply, he⟩
  · exact handOver_failed hs h cb he hwhy
  · have hsends : ∀ k, w.nextReply = .wrote (k + 1) → st.len ≠ 0 → fd = none →
        ((st.buffer.read w.pool).drop st.off).take (taken.getD 0) ≠ [] := by
      intro k hk hne _
      rw [hreply _ hk, Option.getD_some]
      apply List.ne_nil_of_length_pos
      have hlen : B.length = st.len := by
        rw [← hs.read, List.length_take, List.length_drop, Buf.length_read]
        have := hs.range
        omega
      have := congrArg List.length hs.read
      rw [List.length_take] at this ⊢
      omega
    by_cases htaken : taken = some st.len
    · rw [htaken, Option.getD_some, hs.read] at hsends he
      exact handOver_taken h cb hsends he
    · refine handOver_cut hs h cb hk htaken (fun hcase ↦ ?_) hsends he
      -- `null` counts as nothing, which is short of everything unless there was nothing
      cases taken with
      | none =>
        rcases hcase with h0 | htcp
        · exact Nat.pos_of_ne_zero h0
        · rw [hnull rfl] at htcp
          cases htcp
      | some k =>
        have hne : k ≠ st.len := fun hks ↦ htaken (by rw [hks])
        rw [Option.getD_some] at hk ⊢
        omega

theorem handOver_of_queuedData (h : st.queuedData = true) (fd : Option ℕ) (cb : Option Callback) :
    (w.handOver st fd cb).1 ≠ .ok true := by
  unfold handOver
  split
  · split <;> simp
  · simp only [h, if_true]
    split <;> simp

/-! ## Staging a string -/

/-- The window `_writeOut` hands over after storing `b` in the pool, with something behind it. -/
theorem stagedFor_store {p : Pool} {b tail : Bytes} (hc : 0 < p.count)
    (hb : (b ++ tail).length ≤ p.room) (hu : p.used ≤ kPoolSize)
    (hp : w.pool = (p.store (b ++ tail)).advance b.length) (queued : Bool) :
    StagedFor w ⟨.window p.current 0 kPoolSize, p.used, b.length, true, queued⟩ b := by
  have hroom : p.used + (b ++ tail).length ≤ kPoolSize := by
    rw [Pool.room] at hb
    omega
  have hlen : p.used + b.length ≤ kPoolSize := by
    rw [List.length_append] at hroom
    omega
  constructor
  case range => exact hlen
  case read =>
    have hslice := @Buf.read_slice p.used _ (.window p.current 0 kPoolSize)
      (p.store (b ++ tail)) hroom
    rw [List.drop_take, Nat.add_sub_cancel_left, Buf.slice, Nat.zero_add, Nat.add_sub_cancel_left,
      Buf.read_window_store] at hslice
    rw [hp, Buf.read_advance]
    calc ((Buf.read (p.store (b ++ tail)) (.window p.current 0 kPoolSize)).drop p.used).take b.length
        = (((Buf.read (p.store (b ++ tail)) (.window p.current 0 kPoolSize)).drop p.used).take
            (b ++ tail).length).take b.length := by
          rw [List.take_take, Nat.min_eq_left (by simp)]
      _ = b := by rw [← hslice, List.take_left]
  case rest =>
    intro k hk
    rw [hp]
    refine ⟨?_, fun _ ↦ ?_⟩
    · simp only [Pool.current, Pool.advance_count, Pool.store_count]
      omega
    · have hk' : k ≤ b.length := hk
      simp only [Pool.advance_used, Pool.store_used]
      omega

/-- What `_writeOut` has done once `size` bytes or code units are staged. -/
def Stages (G : Option TextEncoding → JSString → Prop) (acc : Bytes) (w : World)
    (items : List (Data × Option Encoding)) (ended : Bool) (size : ℕ) (r : Call Staged) : Prop :=
  ∃ st B items', r.1 = .ok st ∧ r.2.kernel = w.kernel ∧ r.2.calls = w.calls ∧ r.2.type = w.type ∧
    r.2.sent = w.sent ∧ StagedFor r.2 st B ∧ st.off < st.buffer.length ∧ (size ≠ 0 → st.len ≠ 0) ∧
    Live G acc { r.2 with sent := r.2.sent ++ B, pool := poolAfter r.2 st } items' ended ∧
    (st.queuedData = false → items' = items) ∧ ∀ i ∈ items', i ∈ items ∨ i.1.length ≠ 0

/-- `pool.write` stores the bytes `b` for the first `k` code units of a string, and says so. -/
structure Stores (pw : PoolWriter) (room : ℕ) (s : JSString) (encoding : Option Encoding)
    (b : Bytes) (k : ℕ) : Prop where
  write : ∃ (tail : Bytes) (chars : ℤ), (b ++ tail).length ≤ room ∧
    pw (poolEncoding encoding) s room = .ok ⟨b ++ tail, b.length, chars⟩ ∧
    (if defaultsToUtf8 encoding then chars else b.length) = k
  le : k ≤ s.length
  some : s ≠ [] → b ≠ []

/-- Staging the part of a string that is stored. What is not stored must be good to go back on the
queue. -/
theorem Stores.stages {pw : PoolWriter} {s : JSString} {encoding : Option Encoding} {b total : Bytes}
    {k : ℕ} (hs : Stores pw w.pool.ensure.room s encoding b k)
    (hwhole : k = s.length → total = b)
    (hrest : k ≠ s.length → ∃ e, encoding = asArg e ∧ G e (s.drop k) ∧
      total = b ++ encodeText e (s.drop k))
    (h : Live G acc { w with sent := w.sent ++ total } items ended) (cb : Option Callback) :
    Stages G acc w items ended s.length (w.stageString pw s encoding cb) := by
  obtain ⟨⟨tail, chars, hfit, hpw, hunits⟩, hk, hsome⟩ := hs
  have hpos : s.length ≠ 0 → b.length ≠ 0 := fun h0 ↦
    Nat.pos_iff_ne_zero.mp (List.length_pos_of_ne_nil (hsome (by rintro rfl; exact h0 rfl)))
  have hu : w.pool.ensure.used < kPoolSize := w.pool.ensure_used_lt
  have hgood : ∀ i ∈ items, Good G (w.pool.ensure.store (b ++ tail)) i := fun i hi ↦
    (h.good i hi).ensure.store _
  have hflat : items.flatMap (fun i ↦ dataBytes (w.pool.ensure.store (b ++ tail)) i.1 i.2)
      = items.flatMap (fun i ↦ dataBytes w.pool i.1 i.2) :=
    List.flatMap_congr fun i hi ↦ by
      rw [(h.good i hi).ensure.dataBytes_store, dataBytes_ensure]
  have hacc : w.sent ++ total ++ items.flatMap (fun i ↦ dataBytes w.pool i.1 i.2) = acc := h.bytes
  have hstaged : ∀ (w' : World) (queued : Bool),
      w'.pool = (w.pool.ensure.store (b ++ tail)).advance b.length → StagedFor w'
        ⟨.window w.pool.ensure.current 0 kPoolSize, w.pool.ensure.used, b.length, true, queued⟩ b :=
    fun w' queued hp ↦ stagedFor_store w.pool.ensure_count_pos hfit hu.le hp queued
  simp only [stageString, hpw, hunits]
  rw [if_neg (by
    rintro ⟨-, hlen, hn⟩
    have := hpos (by omega)
    omega), if_neg (by omega)]
  split
  · rename_i hall
    -- the whole string went into the pool
    rw [hwhole (by omega)] at hacc
    refine ⟨_, b, items, rfl, rfl, rfl, rfl, rfl, hstaged _ _ rfl, hu, hpos, ?_, fun _ ↦ rfl,
      fun i hi ↦ .inl hi⟩
    constructor
    case queue => exact h.queue
    case encodings => exact h.encodings
    case good => simpa [poolAfter] using hgood
    case size => exact h.size
    case bytes =>
      simp only [poolAfter, if_true, Pool.retreat_advance, hflat]
      exact hacc
    case alive => exact h.alive
    case connecting => exact h.connecting
    case writable => exact h.writable
    case unshut => exact h.unshut
  · rename_i hpart
    -- the rest of the string goes back in front of the queue
    obtain ⟨e, rfl, hg, rfl⟩ := hrest (by omega)
    rw [if_neg (by omega)]
    refine ⟨_, b, (.str (s.drop k), asArg e) :: items, rfl, rfl, rfl, rfl, rfl, hstaged _ _ rfl, hu,
      hpos, ?_, by simp, ?_⟩
    · refine h.unshift rfl rfl rfl (.str hg) ?_ ?_ ?_ rfl
      · simpa [poolAfter, unshift] using hgood
      · intro i hi
        simp only [poolAfter, if_true, unshift, Pool.retreat_advance]
        rw [(h.good i hi).ensure.dataBytes_store, dataBytes_ensure]
      · simp only [dataBytes_str, unshift, List.append_assoc]
    · intro i hi
      rcases List.mem_cons.mp hi with rfl | hi
      · refine .inr ?_
        simp only [Data.length, List.length_drop]
        omega
      · exact .inl hi

theorem Trusted.stages {pw : PoolWriter} (T : Trusted pw G) {e : Option TextEncoding}
    {s : JSString} (hs : G e s)
    (h : Live G acc { w with sent := w.sent ++ encodeText e s } items ended)
    (cb : Option Callback) :
    Stages G acc w items ended s.length (w.stageString pw s (asArg e) cb) := by
  obtain ⟨k, tail, chars, hk, hpos, henc, hfit, hchars, hpw⟩ :=
    T.exact hs w.pool.kMinPoolSpace_le_room_ensure
  have hcut : encodeText e s = encodeText e (s.take k) ++ encodeText e (s.drop k) := by
    rw [← encodeText_append henc, List.take_append_drop]
  have hunits : (if defaultsToUtf8 (asArg e) then chars else (encodeText e (s.take k)).length)
      = k := by
    rw [defaultsToUtf8_asArg]
    split
    · rename_i hu
      exact hchars hu
    · rename_i hu
      simp [encodeText, hu, latin1Bytes, hk]
  have hstores : Stores pw w.pool.ensure.room s (asArg e) (encodeText e (s.take k)) k := by
    refine ⟨⟨tail, chars, hfit, hpw, hunits⟩, hk, fun hne ↦ encodeText_ne_nil henc fun h0 ↦ ?_⟩
    simp [Nat.pos_iff_ne_zero.mp (hpos hne), hne] at h0
  refine hstores.stages (fun hall ↦ ?_) (fun hpart ↦ ?_) h cb
  · rw [hall, List.take_length]
  · exact ⟨e, rfl, T.drop hs (by omega) henc, hcut⟩

/-! ## One write -/

theorem stagedFor_buf {b : Buf} (hb : b.Live w.pool) :
    StagedFor w ⟨b, 0, b.length, false, false⟩ (b.read w.pool) := by
  constructor
  case range => simp
  case read =>
    rw [List.drop_zero]
    exact List.take_of_length_le (by simp)
  case rest =>
    intro k hk
    cases b with
    | own b => trivial
    | window id start len =>
      refine ⟨hb.1, fun hc ↦ ?_⟩
      have hle := hb.2 hc
      have hk' : k ≤ len := hk
      simp only [Buf.length]
      omega

/-- A buffer without a single byte, which `_writeImpl` refuses. -/
def Bare : Data → Prop
  | .buf b => b.length = 0
  | .str _ => False

theorem Stages.leaves {r : Call Staged} {size : ℕ} (hst : Stages G acc w items ended size r)
    (fd : Option ℕ) (cb : Option Callback) :
    ∃ st, r.1 = .ok st ∧
      Leaves G acc w items ended size False fd cb (r.2.handOver st fd cb) := by
  obtain ⟨st, B, items', hok, hkernel, hcalls, htype, hsent, hstaged, hoff, hsize, hlive, hsame,
    hsolid⟩ := hst
  obtain ⟨hkernel', ⟨b, hb, hsends⟩, hcb, hleft⟩ := handOver_leaves hstaged hlive fd cb
  refine ⟨st, hok, hkernel'.trans hkernel, ⟨b, hsent ▸ hb, ?_⟩, hcb, ?_⟩
  · intro k hk hne hfd
    refine hsends k ?_ (hsize hne) hfd
    rw [nextReply, hkernel, hcalls]
    exact hk
  · rcases hleft with ⟨items'', hlive', heq, hsolid'⟩ | ⟨hdead, hne, hwhy⟩
    · refine .inl ⟨items'', hlive', fun htrue ↦ ?_, fun hcase i hi ↦ ?_⟩
      · cases hq : st.queuedData with
        | true => exact absurd htrue (handOver_of_queuedData hq fd cb)
        | false => rw [heq htrue, hsame hq]
      · rcases hsolid' (hcase.imp hsize (htype.trans ·)) i hi with hi' | hi'
        · exact hsolid i hi'
        · exact .inr hi'
    · refine .inr ⟨hdead, hne, ?_⟩
      rcases hwhy with ⟨n, hn⟩ | hle | hfd
      · exact .inl ⟨n, hkernel ▸ hn⟩
      · exact absurd hle (by omega)
      · exact .inr (.inr hfd)

/-- A string that is staged is then handed over. -/
theorem Stages.writeOut {pw : PoolWriter} {s : JSString} {encoding : Option Encoding}
    {cb : Option Callback} {size : ℕ}
    (hst : Stages G acc w items ended size (w.stageString pw s encoding cb)) (fd : Option ℕ)
    (hw : w.writable = true) :
    Leaves G acc w items ended size False fd cb (w.writeOut pw (.str s) encoding fd cb) := by
  obtain ⟨st, hok, hleaves⟩ := Stages.leaves hst fd cb
  have hstage : w.stage pw (.str s) encoding cb = (.ok st, (w.stageString pw s encoding cb).2) :=
    Prod.ext hok rfl
  rw [World.writeOut, if_neg (by simp [hw]), hstage]
  exact hleaves

/-- **One write.** Whatever the pool holds and the kernel takes, `_writeOut` accounts for the bytes
of its data. -/
theorem writeOut_leaves {pw : PoolWriter} (T : Trusted pw G) {d : Data} {encoding : Option Encoding}
    (hd : Good G w.pool (d, encoding))
    (h : Live G acc { w with sent := w.sent ++ dataBytes w.pool d encoding } items ended)
    (fd : Option ℕ) (cb : Option Callback) :
    Leaves G acc w items ended d.length (Bare d) fd cb (w.writeOut pw d encoding fd cb) := by
  have hw : w.writable = true := h.writable
  cases hd with
  | @buf b _ hb =>
    have hst : w.stage pw (.buf b) encoding cb = (.ok ⟨b, 0, b.length, false, false⟩, w) := rfl
    rw [writeOut, if_neg (by simp [hw]), hst]
    obtain ⟨hkernel, hsends, hcb, hleft⟩ := handOver_leaves (stagedFor_buf hb) h fd cb
    refine ⟨hkernel, hsends, hcb, hleft.imp_right fun ⟨hdead, hne, hwhy⟩ ↦ ⟨hdead, hne, ?_⟩⟩
    exact hwhy.imp_right (Or.imp_left Nat.le_zero.mp)
  | @str e s hs =>
    rw [dataBytes_str] at h
    exact Stages.writeOut (Trusted.stages T hs h cb) fd hw

/-! ## Flushing -/

/-- What `_shutdown` can do to a writable socket: shut it down, in which case the connection may
still be destroyed, or destroy it. -/
theorem shutdown_cases (hw : w.writable = true) (hz : w.bufferSize = 0) (hq : w.writeQueue = []) :
    ∃ w', w.shutdown = (.ok (), w') ∧ w'.writable = false ∧ w'.sent = w.sent ∧
      w'.connecting = w.connecting ∧ w'.writeQueue = [] ∧ w'.bufferSize = 0 ∧
      (w.readable = true ∧ w'.shut = true ∨ w'.destroyed = true ∧ w'.shut = w.shut) := by
  rw [shutdown, if_neg (by simp [hw])]
  simp only
  split
  · rename_i hr
    split
    · obtain ⟨w', hd, -, hunw, hshut, hsent, hq', hz', hcon, -⟩ := destroy_of_nonneg
        (w := { w with writable := false, calls := w.calls + 1, shut := true }) (Int.le_of_eq hz.symm)
      exact ⟨w', hd, hunw, hsent, hcon, hq', hz', .inl ⟨hr, hshut⟩⟩
    · exact ⟨_, rfl, rfl, rfl, rfl, hq, hz, .inl ⟨hr, rfl⟩⟩
  · obtain ⟨w', hd, hdest, hunw, hshut, hsent, hq', hz', hcon, -⟩ :=
      destroy_of_nonneg (w := { w with writable := false }) (Int.le_of_eq hz.symm)
    exact ⟨w', hd, hunw, hsent, hcon, hq', hz', .inr ⟨hdest, hshut⟩⟩

/-- When `flush` reaches `END_OF_FILE`, the kernel has accepted everything. -/
theorem shutdown_accounted (h : Live G acc w [] true) :
    ∃ w', (w.shiftQueues []).shutdown = (.ok (), w') ∧ Accounted G acc w' := by
  have hsent : w.sent = acc := by simpa using h.bytes
  have hsize : w.bufferSize = 0 := by simpa using h.size
  obtain ⟨w', he, hunw, hs, hcon, hq, hz, hcase⟩ :=
    shutdown_cases (w := w.shiftQueues []) h.writable hsize rfl
  refine ⟨w', he, ?_⟩
  rcases hcase with ⟨hr, hshut⟩ | ⟨hdest, hshut⟩
  · have hopen : w.connecting = false := by
      by_contra hc
      have hr' : w.readable = true := hr
      rw [h.connecting (by simpa using hc)] at hr'
      cases hr'
    exact .shut ⟨hshut, hs.trans hsent, hunw, hcon.trans hopen, hq, hz⟩
  · exact .dead ⟨hdest, hunw, hshut.trans h.unshut⟩

/-- The state in which `flush` hands the first item to `_writeOut`. -/
def taking (w : World) (d : Data) (rest : List QueueEntry) : World :=
  { w.shiftQueues rest with bufferSize := w.bufferSize - d.length }

/-- One turn of the loop of `flush`. -/
theorem flushLoop_succ (pw : PoolWriter) (fuel : ℕ) {d : Data} {rest : List QueueEntry}
    (hq : w.writeQueue = .data d :: rest) :
    flushLoop pw (fuel + 1) w =
      match (w.taking d rest).writeOut pw d w.writeQueueEncoding.head?.join
        w.writeQueueFD.head?.join w.writeQueueCallbacks.head?.join with
      | (.error e, w) => (.error e, w)
      | (.ok false, w) => (.ok false, w)
      | (.ok true, w) => flushLoop pw fuel w := by
  simp only [flushLoop, hq]
  rfl

/-- The system call changes nothing but what the kernel has. -/
theorem writeImpl_frame (w : World) (b : Buf) (off len : ℕ) (fd : Option ℕ) :
    ∃ n sent fds, (w.writeImpl b off len fd).2 =
      { w with calls := n, sent := sent, sentFDs := fds } := by
  unfold writeImpl
  split
  · exact ⟨_, _, _, rfl⟩
  · split
    · exact ⟨_, _, _, rfl⟩
    · split
      · exact ⟨_, _, _, rfl⟩
      · simp only
        split <;> exact ⟨_, _, _, rfl⟩

theorem handOver_of_true {fd : Option ℕ} {cb : Option Callback}
    (h : (w.handOver st fd cb).1 = .ok true) :
    st.queuedData = false ∧ (w.handOver st fd cb).2.writeQueue = w.writeQueue := by
  have hq : (w.writeImpl st.buffer st.off st.len fd).2.writeQueue = w.writeQueue := by
    obtain ⟨n, sent, fds, hw⟩ := w.writeImpl_frame st.buffer st.off st.len fd
    rw [hw]
  unfold handOver at h ⊢
  generalize w.writeImpl st.buffer st.off st.len fd = res at h hq ⊢
  obtain ⟨o, w₁⟩ := res
  cases o with
  | error e =>
    simp only at h
    rcases hd : w₁.destroy with ⟨o, w₂⟩
    rw [hd] at h
    cases o <;> simp at h
  | ok taken =>
    simp only at h ⊢
    split at h
    · rename_i htaken
      rw [if_pos htaken]
      cases hqd : st.queuedData with
      | true => simp [hqd] at h
      | false =>
        obtain ⟨o, ran, ho, -⟩ := invoke_eq
          { w₁ with pool := if st.fromPool then w₁.pool.retreat st.len else w₁.pool } cb
        simp only [hqd, Bool.false_eq_true, if_false, ho] at h ⊢
        cases o with
        | error e => simp at h
        | ok u => exact ⟨trivial, hq⟩
    · simp at h

/-- A write that went through leaves the queue alone. -/
theorem writeOut_of_true {pw : PoolWriter} {d : Data} {encoding : Option Encoding} {fd : Option ℕ}
    {cb : Option Callback} (h : (w.writeOut pw d encoding fd cb).1 = .ok true) :
    (w.writeOut pw d encoding fd cb).2.writeQueue = w.writeQueue := by
  unfold writeOut at h ⊢
  split at h
  · simp at h
  · rename_i hw
    rw [if_neg hw]
    have hstage : ∀ st, (w.stage pw d encoding cb).1 = .ok st → st.queuedData = false →
        (w.stage pw d encoding cb).2.writeQueue = w.writeQueue := by
      intro st hst hqd
      cases d with
      | buf b => rfl
      | str s =>
        simp only [stage, stageString] at hst ⊢
        split at hst
        · simp at hst
        · rename_i r hr
          split_ifs at hst ⊢ <;> cases hst
          all_goals first | rfl | cases hqd
    generalize w.stage pw d encoding cb = res at h hstage ⊢
    obtain ⟨o, w₁⟩ := res
    cases o with
    | error e => simp at h
    | ok st =>
      obtain ⟨hqd, hq⟩ := handOver_of_true h
      exact hq.trans (hstage st rfl hqd)

/-- The loop of `flush` runs at most once for each entry, so more turns change nothing. -/
theorem flushLoop_eq_flush (pw : PoolWriter) {fuel : ℕ} (h : w.writeQueue.length < fuel) :
    flushLoop pw fuel w = w.flush pw := by
  rw [flush]
  induction fuel generalizing w with
  | zero => omega
  | succ fuel ih =>
    cases hq : w.writeQueue with
    | nil => simp only [flushLoop, hq]
    | cons entry rest =>
      rw [hq, List.length_cons] at h
      cases entry with
      | endOfFile => simp only [flushLoop, hq]
      | data d =>
        rw [flushLoop_succ pw fuel hq, flushLoop_succ pw _ hq]
        have htrue := @writeOut_of_true (w.taking d rest) pw d w.writeQueueEncoding.head?.join
          w.writeQueueFD.head?.join w.writeQueueCallbacks.head?.join
        generalize (w.taking d rest).writeOut pw d w.writeQueueEncoding.head?.join
          w.writeQueueFD.head?.join w.writeQueueCallbacks.head?.join = res at htrue
        obtain ⟨o, w₁⟩ := res
        rcases o with e | b
        · rfl
        · cases b with
          | false => rfl
          | true =>
            have hq₁ : w₁.writeQueue = rest := htrue rfl
            simp only
            rw [ih (by rw [hq₁]; omega), hq₁]
            rfl

theorem live_taking {i : Data × Option Encoding} (h : Live G acc w (i :: items) ended) :
    ∃ rest, w.writeQueue = .data i.1 :: rest ∧ w.writeQueueEncoding.head?.join = i.2 ∧
      Live G acc
        { w.taking i.1 rest with sent := (w.taking i.1 rest).sent ++ dataBytes w.pool i.1 i.2 }
        items ended := by
  have he : w.writeQueueEncoding = i.2 :: items.map (·.2) := by simpa using h.encodings
  refine ⟨items.map (QueueEntry.data ·.1) ++ if ended then [QueueEntry.endOfFile] else [],
    by simpa using h.queue, by rw [he]; rfl, ?_⟩
  constructor
  case queue => rfl
  case encodings => simp [World.taking, shiftQueues, he]
  case good => exact fun j hj ↦ h.good j (List.mem_cons_of_mem _ hj)
  case size =>
    have hsz := h.size
    simp only [List.map_cons, List.sum_cons] at hsz
    simp only [World.taking, hsz]
    omega
  case bytes => simpa [World.taking, shiftQueues] using h.bytes
  case alive => exact h.alive
  case connecting => exact h.connecting
  case writable => exact h.writable
  case unshut => exact h.unshut

/-- **The flush loop.** By induction on the turns left: each turn writes one item, and only a turn
that wrote it whole goes on. -/
theorem flushLoop_accounted {pw : PoolWriter} (T : Trusted pw G) (fuel : ℕ) :
    ∀ {w : World} {items : List (Data × Option Encoding)} {ended : Bool},
      Live G acc w items ended → Accounted G acc (flushLoop pw fuel w).2 := by
  induction fuel with
  | zero => exact fun h ↦ .live h
  | succ fuel ih =>
    intro w items ended h
    cases items with
    | nil =>
      cases ended with
      | false =>
        have hq : w.writeQueue = [] := by simpa using h.queue
        simp only [flushLoop, hq]
        exact @Accounted.live _ _ _ [] false ⟨rfl, h.encodings, h.good, h.size, h.bytes,
          h.alive, h.connecting, h.writable, h.unshut⟩
      -- the mark of the end is all that is left
      | true =>
        have hq : w.writeQueue = [.endOfFile] := by simpa using h.queue
        obtain ⟨w', he, hacc⟩ := shutdown_accounted h
        simp only [flushLoop, hq, he]
        exact hacc
    | cons i items =>
      obtain ⟨rest, hq, he, h₁⟩ := live_taking h
      rw [flushLoop_succ pw fuel hq, he]
      have hl := writeOut_leaves (w := w.taking i.1 rest) T (h.good i (by simp)) h₁
        w.writeQueueFD.head?.join w.writeQueueCallbacks.head?.join
      generalize (w.taking i.1 rest).writeOut pw i.1 i.2 w.writeQueueFD.head?.join
        w.writeQueueCallbacks.head?.join = res at hl
      obtain ⟨o, w₂⟩ := res
      have hstop : Accounted G acc w₂ := by
        rcases hl.left with ⟨items', hlive, -, -⟩ | ⟨hdead, -⟩
        · exact .live hlive
        · exact .dead hdead
      rcases o with e | b
      · exact hstop
      · cases b with
        | false => exact hstop
        | true =>
          rcases hl.left with ⟨items', hlive, -, -⟩ | ⟨-, hne, -⟩
          · exact ih hlive
          · exact absurd rfl hne

/-! ## Sockets that are done -/

theorem dead_destroy (h : Dead w) : Dead w.destroy.2 := by
  rw [World.destroy]
  split
  · exact h
  · exact ⟨rfl, rfl, h.unshut⟩

theorem shut_destroy (h : Shut acc w) : Shut acc w.destroy.2 := by
  rw [World.destroy, if_neg (by simp [h.size])]
  exact ⟨h.shut, h.sent, rfl, h.connecting, rfl, rfl⟩

theorem flushLoop_dead (pw : PoolWriter) (fuel : ℕ) (h : Dead w) :
    Dead (flushLoop pw fuel w).2 := by
  cases fuel with
  | zero => exact h
  | succ fuel =>
    cases hq : w.writeQueue with
    | nil =>
      simp only [flushLoop, hq]
      exact ⟨h.destroyed, h.writable, h.unshut⟩
    | cons entry rest =>
      cases entry with
      | endOfFile =>
        have hw : (w.shiftQueues rest).writable = false := h.writable
        simp only [flushLoop, hq, shutdown, hw]
        exact ⟨h.destroyed, h.writable, h.unshut⟩
      | data d =>
        have hw : (w.taking d rest).writable = false := h.writable
        simp only [flushLoop_succ pw fuel hq, writeOut, hw]
        exact ⟨h.destroyed, h.writable, h.unshut⟩

theorem flush_shut (pw : PoolWriter) (h : Shut acc w) : Shut acc (w.flush pw).2 := by
  simp only [flush, flushLoop, h.queue]
  exact ⟨h.shut, h.sent, h.writable, h.connecting, rfl, h.size⟩

/-! ## Every operation -/

theorem flush_accounted {pw : PoolWriter} (T : Trusted pw G) (h : Accounted G acc w) :
    Accounted G acc (w.flush pw).2 := by
  cases h with
  | live h => exact flushLoop_accounted T _ h
  | shut h => exact .shut (flush_shut pw h)
  | dead h => exact .dead (flushLoop_dead pw _ h)

theorem destroy_accounted (h : Accounted G acc w) : Accounted G acc w.destroy.2 := by
  cases h with
  | live h =>
    obtain ⟨w', hd, hdest, hunw, hshut, -⟩ := destroy_of_nonneg (w := w)
      (h.size ▸ Int.natCast_nonneg _)
    rw [hd]
    exact .dead ⟨hdest, hunw, hshut.trans h.unshut⟩
  | shut h => exact .shut (shut_destroy h)
  | dead h => exact .dead (dead_destroy h)

theorem onWritable_accounted {pw : PoolWriter} (T : Trusted pw G) (h : Accounted G acc w) :
    Accounted G acc (w.onWritable pw).2 := by
  have hf := flush_accounted T h
  simp only [onWritable]
  generalize w.flush pw = res at hf
  obtain ⟨o, w'⟩ := res
  rcases o with e | b
  · exact hf
  · simp only
    split
    · exact destroy_accounted hf
    · exact hf

theorem destroySoon_accounted {pw : PoolWriter} (T : Trusted pw G) (h : Accounted G acc w) :
    Accounted G acc (w.destroySoon pw).2 := by
  have hf := flush_accounted T h
  simp only [destroySoon]
  generalize w.flush pw = res at hf
  obtain ⟨o, w'⟩ := res
  rcases o with e | b
  · exact hf
  · cases b with
    | true => exact destroy_accounted hf
    | false =>
      cases hf with
      | live h =>
        exact .live ⟨h.queue, h.encodings, h.good, h.size, h.bytes, h.alive, h.connecting,
          h.writable, h.unshut⟩
      | shut h => exact .shut ⟨h.shut, h.sent, h.writable, h.connecting, h.queue, h.size⟩
      | dead h => exact .dead ⟨h.destroyed, h.writable, h.unshut⟩

theorem onConnect_accounted {pw : PoolWriter} (T : Trusted pw G) (h : Accounted G acc w)
    (hc : w.connecting = true) (r : ConnectResult) : Accounted G acc (w.onConnect pw r).2 := by
  cases r with
  | inProgress => exact h
  | refused => exact destroy_accounted h
  | established =>
    cases h with
    | shut h => simp [h.connecting] at hc
    | dead h =>
      rw [onConnect, if_pos (by simp [h.writable])]
      exact .dead ⟨h.destroyed, h.writable, h.unshut⟩
    | live h =>
      have hl : Live G acc { w with connecting := false, readable := true, writable := true } _ _ :=
        ⟨h.queue, h.encodings, h.good, h.size, h.bytes, h.alive, by simp, rfl, h.unshut⟩
      simp only [onConnect, h.writable, not_true, if_false]
      split
      · exact .live hl
      · exact onWritable_accounted T (.live hl)

theorem writeReady_accounted {pw : PoolWriter} (T : Trusted pw G) (h : Accounted G acc w)
    (r : ConnectResult) : Accounted G acc (w.writeReady pw r).2 := by
  rw [writeReady]
  split
  · rename_i hc
    split
    · exact h
    · exact onConnect_accounted T h hc r
  · exact onWritable_accounted T h

theorem live_endQueued (h : Live G acc w items ended) : w.endQueued = ended := by
  rw [endQueued, h.queue]
  cases ended with
  | true => simp
  | false =>
    rcases items.eq_nil_or_concat with rfl | ⟨l, i, rfl⟩
    · rfl
    · simp

theorem end_accounted {pw : PoolWriter} (T : Trusted pw G) (h : Accounted G acc w) :
    Accounted G acc (w.end pw).2 := by
  rw [«end»]
  split
  · rename_i hcond
    cases h with
    | shut h => simp [h.writable] at hcond
    | dead h => simp [h.writable] at hcond
    | @live items ended h =>
      obtain rfl : ended = false := by simpa [live_endQueued h] using hcond.2
      have hl :
          Live G acc { w with writeQueue := w.writeQueue ++ [QueueEntry.endOfFile] } items true := by
        refine ⟨?_, h.encodings, h.good, h.size, h.bytes, h.alive, h.connecting, h.writable,
          h.unshut⟩
        simp [h.queue]
      simp only
      split
      · exact .live hl
      · have hf := flush_accounted T (.live hl)
        generalize World.flush pw { w with writeQueue := w.writeQueue ++ [QueueEntry.endOfFile] } =
          res at hf
        obtain ⟨o, w'⟩ := res
        rcases o with e | b <;> exact hf
  · exact h

/-! ## Writing -/

/-- The strings `write` joins are the last item of the queue and the new one, under one encoding. -/
theorem joinable_eq_some {d : Data} {encoding : Option Encoding} {t s : JSString}
    (h : Live G acc w items false) (hj : w.joinable d encoding = some (t, s)) :
    d = .str s ∧ ∃ l, items = l ++ [(Data.str t, encoding)] := by
  rcases items.eq_nil_or_concat with rfl | ⟨l, i, rfl⟩
  · have hq : w.writeQueue = [] := by simpa using h.queue
    simp only [joinable, hq] at hj
    cases d <;> simp at hj
  · have hq : w.writeQueue = l.map (QueueEntry.data ·.1) ++ [QueueEntry.data i.1] := by
      simpa using h.queue
    have he : w.writeQueueEncoding = l.map (·.2) ++ [i.2] := by simpa using h.encodings
    obtain ⟨d', encoding'⟩ := i
    simp only [joinable, hq, he, List.getLast?_append] at hj
    cases d with
    | buf b => simp at hj
    | str s' =>
      cases d' with
      | buf b => simp at hj
      | str t' =>
        simp only [List.getLast?_singleton, Option.some_or, List.length_append, List.length_map,
          List.length_singleton, Nat.add_sub_cancel] at hj
        split at hj
        · rename_i henc
          simp only [Option.some.injEq, Prod.mk.injEq] at hj
          obtain ⟨rfl, rfl⟩ := hj
          have henc' : encoding' = encoding := by simpa using henc
          exact ⟨rfl, l, by simp [henc']⟩
        · cases hj

theorem Good.str_iff {p : Pool} {s : JSString} {encoding : Option Encoding} :
    Good G p (.str s, encoding) ↔ ∃ e, encoding = asArg e ∧ G e s := by
  constructor
  · rintro ⟨h⟩
    exact ⟨_, rfl, h⟩
  · rintro ⟨e, rfl, h⟩
    exact .str h

theorem enqueue_live {pw : PoolWriter} (T : Trusted pw G) {d : Data} {encoding : Option Encoding}
    (hd : Good G w.pool (d, encoding)) (h : Live G acc w items false) (fd : Option ℕ)
    (cb : Option Callback) :
    ∃ items', Live G (acc ++ dataBytes w.pool d encoding) (w.enqueue d encoding fd cb) items'
      false := by
  -- the descriptors play no part
  suffices hs : ∃ items', Live G (acc ++ dataBytes w.pool d encoding)
      (w.enqueue d encoding none cb) items' false by
    obtain ⟨items', h'⟩ := hs
    refine ⟨items', ?_⟩
    cases fd with
    | none => exact h'
    | some f =>
      exact ⟨h'.queue, h'.encodings, h'.good, h'.size, h'.bytes, h'.alive, h'.connecting,
        h'.writable, h'.unshut⟩
  have hsize := h.size
  have hbytes := h.bytes
  cases hj : w.joinable d encoding with
  | none =>
    have hj' : World.joinable { w with bufferSize := w.bufferSize + d.length } d encoding = none :=
      hj
    refine ⟨items ++ [(d, encoding)], ?_⟩
    simp only [enqueue, hj']
    constructor
    case queue => simp [h.queue]
    case encodings => simp [h.encodings]
    case good =>
      intro i hi
      rcases List.mem_append.mp hi with hi | hi
      · exact h.good i hi
      · rw [List.mem_singleton.mp hi]
        exact hd
    case size =>
      simp only [Option.isSome_none, Bool.false_eq_true, if_false, List.map_append, List.map_cons,
        List.map_nil, List.sum_append, List.sum_cons, List.sum_nil]
      omega
    case bytes =>
      simp only [Option.isSome_none, Bool.false_eq_true, if_false, List.flatMap_append,
        List.flatMap_singleton, ← hbytes, List.append_assoc]
    case alive => exact h.alive
    case connecting => exact h.connecting
    case writable => exact h.writable
    case unshut => exact h.unshut
  | some ts =>
    obtain ⟨t, s⟩ := ts
    obtain ⟨rfl, l, rfl⟩ := joinable_eq_some h hj
    have hj' : World.joinable { w with bufferSize := w.bufferSize + (Data.str s).length } (.str s)
      encoding = some (t, s) := hj
    obtain ⟨e, rfl, hs⟩ := Good.str_iff.mp hd
    obtain ⟨e', he', ht⟩ := Good.str_iff.mp (h.good (.str t, asArg e) (by simp))
    obtain rfl : e = e' := by rw [← textArg_asArg e, he', textArg_asArg]
    have hcut := encodeText_append (T.encodable ht) s
    refine ⟨l ++ [(Data.str (t ++ s), asArg e)], ?_⟩
    simp only [enqueue, hj']
    constructor
    case queue => simp [h.queue]
    case encodings => simp [h.encodings]
    case good =>
      intro i hi
      rcases List.mem_append.mp hi with hi | hi
      · exact h.good i (by simp [hi])
      · rw [List.mem_singleton.mp hi]
        exact .str (T.append ht hs)
    case size =>
      simp only [List.map_append, List.map_cons, List.map_nil, List.sum_append, List.sum_cons,
        List.sum_nil, Data.length] at hsize
      simp only [Option.isSome_none, Bool.false_eq_true, if_false, List.map_append, List.map_cons,
        List.map_nil, List.sum_append, List.sum_cons, List.sum_nil, Data.length, List.length_append]
      omega
    case bytes =>
      simp only [List.flatMap_append, List.flatMap_singleton, dataBytes_str] at hbytes
      simp only [Option.isSome_none, Bool.false_eq_true, if_false, List.flatMap_append,
        List.flatMap_singleton, dataBytes_str, hcut, ← hbytes, List.append_assoc]
    case alive => exact h.alive
    case connecting => exact h.connecting
    case writable => exact h.writable
    case unshut => exact h.unshut

/-- **A write.** A call that returns adds its bytes to the account, and one that throws adds none.
-/
theorem write_accounted {pw : PoolWriter} (T : Trusted pw G) {d : Data} {encoding : Option Encoding}
    (hd : Good G w.pool (d, encoding)) (h : Accounted G acc w) (fd : Option ℕ) (cb : Option ℕ) :
    (∃ b, (w.write pw d encoding fd (cb.map .user)).1 = .ok b ∧
      Accounted G (acc ++ dataBytes w.pool d encoding)
        (w.write pw d encoding fd (cb.map .user)).2) ∨
    ∃ e, (w.write pw d encoding fd (cb.map .user)).1 = .error e ∧
      Accounted G acc (w.write pw d encoding fd (cb.map .user)).2 := by
  cases h with
  | shut h =>
    have he : w.write pw d encoding fd (cb.map .user) =
        (.error (.error "Socket is not writable"), w) := by
      simp [write, writeOut, h.size, h.connecting, h.queue, h.writable]
    rw [he]
    exact .inr ⟨_, rfl, .shut h⟩
  | dead h =>
    rw [write]
    split
    · exact .inr ⟨_, rfl, .dead h⟩
    · split
      · split
        · exact .inr ⟨_, rfl, .dead h⟩
        · refine .inl ⟨_, rfl, .dead ?_⟩
          rw [enqueue]
          split <;> split <;> exact ⟨h.destroyed, h.writable, h.unshut⟩
      · rw [writeOut, if_pos (by simp [h.writable])]
        exact .inr ⟨_, rfl, .dead h⟩
  | @live items ended h =>
    rw [write, if_neg (by have := h.size; omega), live_endQueued h]
    split
    · cases ended with
      | true => exact .inr ⟨_, rfl, .live h⟩
      | false =>
        obtain ⟨items', h'⟩ := enqueue_live T hd h fd (cb.map .user)
        exact .inl ⟨false, rfl, .live h'⟩
    · rename_i hidle
      -- nothing is queued: the data goes straight out
      obtain ⟨hcon, hq⟩ : w.connecting = false ∧ w.writeQueue = [] := by simpa using hidle
      have hitems : items = [] := by
        have := h.queue
        rw [hq] at this
        cases items with
        | nil => rfl
        | cons i items => simp at this
      subst hitems
      have hsent : w.sent = acc := by simpa using h.bytes
      have h₁ : Live G (acc ++ dataBytes w.pool d encoding)
          { w with sent := w.sent ++ dataBytes w.pool d encoding } [] ended :=
        ⟨h.queue, h.encodings, h.good, h.size, by simp [hsent], h.alive, h.connecting, h.writable,
          h.unshut⟩
      have hl := writeOut_leaves T hd h₁ fd (cb.map .user)
      generalize w.writeOut pw d encoding fd (cb.map .user) = res at hl
      obtain ⟨o, w'⟩ := res
      cases o with
      | error e =>
        obtain ⟨last, id, hcb⟩ := hl.throws e rfl
        cases cb <;> simp at hcb
      | ok b =>
        refine .inl ⟨b, rfl, ?_⟩
        rcases hl.left with ⟨items', hlive, -, -⟩ | ⟨hdead, -⟩
        · exact .live hlive
        · exact .dead hdead

/-- What another socket reads into the pool does not touch what is queued here. -/
theorem poolRead_accounted (h : Accounted G acc w) (b : Bytes) :
    Accounted G acc (w.poolRead b) := by
  cases h with
  | shut h => exact .shut ⟨h.shut, h.sent, h.writable, h.connecting, h.queue, h.size⟩
  | dead h => exact .dead ⟨h.destroyed, h.writable, h.unshut⟩
  | @live items ended h =>
    refine @Accounted.live _ _ _ items ended ?_
    constructor
    case queue => exact h.queue
    case encodings => exact h.encodings
    case good => exact fun i hi ↦ ((h.good i hi).ensure.store _).advance _
    case size => exact h.size
    case bytes =>
      rw [← h.bytes]
      refine congrArg (w.sent ++ ·) (List.flatMap_congr fun i hi ↦ ?_)
      simp only [poolRead, dataBytes_advance]
      rw [(h.good i hi).ensure.dataBytes_store, dataBytes_ensure]
    case alive => exact h.alive
    case connecting => exact h.connecting
    case writable => exact h.writable
    case unshut => exact h.unshut

end World

end SpiderNode.Net
