import SpiderNode.Net.Conservation

/-!
# What one turn of `flush` can do

`flush` takes one entry after the other off the queue. Callbacks run at the end of a turn, and they
may call the socket again; so what holds across whole runs has to be kept by each turn.

`_writeOut` has many branches, and most properties of a socket only need to know what it leaves
behind. `StageResult`, `HandOverResult` and `EnqueueResult` say that once: which fields change, and
how. The rules at the end carry what a turn keeps over to the calls that are made of turns.
-/

namespace SpiderNode.Net.World

variable {pw : PoolWriter} {w : World}

/-- One turn of the loop of `flush`, and what `flush` returns if it is the last one. -/
def turn (pw : PoolWriter) (w : World) : Call (Option Bool) :=
  match w.writeQueue with
  | [] => (.ok (some true), { w with watching := false })
  | entry :: rest =>
    let encoding := w.writeQueueEncoding.head?.join
    let cb := w.writeQueueCallbacks.head?.join
    let fd := w.writeQueueFD.head?.join
    match entry with
    | .endOfFile =>
      match (w.shiftQueues rest).shutdown with
      | (.error e, w) => (.error e, w)
      | (.ok (), w) => (.ok (some true), w)
    | .data d =>
      match (w.taking d rest).writeOut pw d encoding fd cb with
      | (.error e, w) => (.error e, w)
      | (.ok false, w) => (.ok (some false), w)
      | (.ok true, w) => (.ok none, w)

theorem flushLoop_turn (pw : PoolWriter) (fuel : ℕ) (w : World) :
    flushLoop pw (fuel + 1) w =
      match w.turn pw with
      | (.error e, w) => (.error e, w)
      | (.ok (some flushed), w) => (.ok flushed, w)
      | (.ok none, w) => flushLoop pw fuel w := by
  cases hq : w.writeQueue with
  | nil => simp only [flushLoop, turn, hq]
  | cons entry rest =>
    cases entry with
    | endOfFile =>
      simp only [flushLoop, turn, hq]
      generalize (w.shiftQueues rest).shutdown = res
      obtain ⟨o, w₁⟩ := res
      cases o <;> rfl
    | data d =>
      rw [flushLoop_succ pw fuel hq]
      simp only [turn, hq]
      generalize (w.taking d rest).writeOut pw d w.writeQueueEncoding.head?.join
        w.writeQueueFD.head?.join w.writeQueueCallbacks.head?.join = res
      obtain ⟨o, w₁⟩ := res
      rcases o with e | _ | _ <;> rfl

/-! ## Staging -/

/-- The pool once `data` is staged, or staging has failed. -/
def stagePool (pw : PoolWriter) (p : Pool) (encoding : Option Encoding) : Data → Pool
  | .buf _ => p
  | .str s =>
    match pw (poolEncoding encoding) s p.ensure.room with
    | .error _ => p.ensure
    | .ok r =>
      if (encoding.isSome ∧ 0 < s.length ∧ ¬0 < r.bytesWritten) ∨ r.bytesWritten < 0 then
        p.ensure.store r.stored
      else (p.ensure.store r.stored).advance r.bytesWritten.toNat

/-- The number of characters that `_writeOut` takes for written. -/
def charsWritten (encoding : Option Encoding) (r : PoolWrite) : ℤ :=
  if defaultsToUtf8 encoding then r.charsWritten else r.bytesWritten

/-- A string is staged: what `pool.write` reports of it is at `pool.used`. -/
structure StagesString (pw : PoolWriter) (p : Pool) (encoding : Option Encoding) (s : JSString)
    (st : Staged) (r : PoolWrite) : Prop where
  write : pw (poolEncoding encoding) s p.ensure.room = .ok r
  nonneg : 0 ≤ r.bytesWritten
  buffer : st.buffer = .window p.ensure.current 0 kPoolSize
  off : st.off = p.ensure.used
  len : st.len = r.bytesWritten.toNat
  fromPool : st.fromPool = true
  pool : stagePool pw p encoding (.str s) = (p.ensure.store r.stored).advance st.len

/-- Staging changes the pool, and it may put the rest of a string back on the queue. -/
inductive StageResult (pw : PoolWriter) (w : World) (d : Data) (encoding : Option Encoding)
    (cb : Option Callback) : Call Staged → Prop
  | failed (e : JsError) :
      StageResult pw w d encoding cb (.error e, { w with pool := stagePool pw w.pool encoding d })
  | buffer (b : Buf) (hd : d = .buf b) :
      StageResult pw w d encoding cb (.ok ⟨b, 0, b.length, false, false⟩, w)
  | whole (s : JSString) (st : Staged) (r : PoolWrite) (hd : d = .str s)
      (hst : StagesString pw w.pool encoding s st r) (hchars : charsWritten encoding r = s.length)
      (hqueued : st.queuedData = false) :
      StageResult pw w d encoding cb (.ok st, { w with pool := stagePool pw w.pool encoding d })
  | split (s : JSString) (st : Staged) (r : PoolWrite) (hd : d = .str s)
      (hst : StagesString pw w.pool encoding s st r) (hchars : charsWritten encoding r < s.length)
      (hqueued : st.queuedData = true) :
      StageResult pw w d encoding cb
        (.ok st, unshift { w with pool := stagePool pw w.pool encoding d }
          (.str (s.drop (charsWritten encoding r).toNat)) encoding cb)

theorem stage_result (pw : PoolWriter) (w : World) (d : Data) (encoding : Option Encoding)
    (cb : Option Callback) : StageResult pw w d encoding cb (w.stage pw d encoding cb) := by
  cases d with
  | buf b => exact .buffer b rfl
  | str s =>
    cases hpw : pw (poolEncoding encoding) s w.pool.ensure.room with
    | error e =>
      have hpool : stagePool pw w.pool encoding (.str s) = w.pool.ensure := by
        simp only [stagePool, hpw]
      simp only [stage, stageString, hpw]
      exact hpool ▸ .failed e
    | ok r =>
      simp only [stage, stageString, hpw]
      by_cases hbad : (encoding.isSome ∧ 0 < s.length ∧ ¬0 < r.bytesWritten) ∨ r.bytesWritten < 0
      · have hpool : stagePool pw w.pool encoding (.str s) = w.pool.ensure.store r.stored := by
          simp only [stagePool, hpw, if_pos hbad]
        have herror : StageResult pw w (.str s) encoding cb (.error .assertion, _) := .failed _
        have hfault : StageResult pw w (.str s) encoding cb (.error .fault, _) := .failed _
        rw [hpool] at herror hfault
        split_ifs with hassert hneg
        · exact herror
        · exact hfault
        all_goals exact absurd hbad (not_or.mpr ⟨hassert, hneg⟩)
      · have hpool : stagePool pw w.pool encoding (.str s) =
            (w.pool.ensure.store r.stored).advance r.bytesWritten.toNat := by
          simp only [stagePool, hpw, if_neg hbad]
        have hst (queued : Bool) : StagesString pw w.pool encoding s
            ⟨.window w.pool.ensure.current 0 kPoolSize, w.pool.ensure.used, r.bytesWritten.toNat,
              true, queued⟩ r :=
          ⟨hpw, by omega, rfl, rfl, rfl, rfl, hpool⟩
        rw [not_or] at hbad
        rw [if_neg hbad.1, if_neg hbad.2]
        have hchars : (if defaultsToUtf8 encoding then r.charsWritten else r.bytesWritten) =
            charsWritten encoding r := rfl
        rw [hchars]
        split_ifs with hall hless
        · exact hpool ▸ .whole s _ r rfl (hst false) hall rfl
        · exact hpool ▸ .split s _ r rfl (hst true) hless rfl
        · exact hpool ▸ .failed _

/-! ## Handing over -/

/-- The kernel has accepted `k` of the staged bytes. -/
def accepting (w : World) (st : Staged) (calls k : ℕ) (fds : List (ℕ × ℕ)) : World :=
  { w with
    calls := calls
    sent := w.sent ++ ((st.buffer.read w.pool).drop st.off).take k
    sentFDs := fds }

/-- The descriptors that have gone along when the kernel has accepted `k` bytes with `fd`. -/
def Carries (w : World) (fd : Option ℕ) (k : ℕ) (fds : List (ℕ × ℕ)) : Prop :=
  fds = w.sentFDs ∧ (k = 0 ∨ w.type = .tcp) ∨
    w.type = .unix ∧ fds = w.sentFDs ++ fd.toList.map fun f ↦ (f, k)

/-- The system call fails, takes everything, or leaves something that goes back on the queue. -/
inductive HandOverResult (w : World) (st : Staged) (fd : Option ℕ) (cb : Option Callback) :
    Call Bool → Prop
  | failed (calls : ℕ) :
      HandOverResult w st fd cb
        ((destroy { w with calls := calls }).1.map fun _ ↦ false,
          (destroy { w with calls := calls }).2)
  /-- The rest of the string is on the queue. -/
  | queued (calls : ℕ) (fds : List (ℕ × ℕ)) (hfds : w.Carries fd st.len fds)
      (hqueued : st.queuedData = true) :
      HandOverResult w st fd cb
        (.ok false, { w.accepting st calls st.len fds with pool := poolAfter w st })
  | whole (calls : ℕ) (fds : List (ℕ × ℕ)) (hfds : w.Carries fd st.len fds)
      (hqueued : st.queuedData = false) :
      HandOverResult w st fd cb
        ((invoke { w.accepting st calls st.len fds with pool := poolAfter w st } cb).1.map
          fun _ ↦ true,
          (invoke { w.accepting st calls st.len fds with pool := poolAfter w st } cb).2)
  | cut (calls k : ℕ) (fds : List (ℕ × ℕ)) (hle : k ≤ st.len) (hfds : w.Carries fd k fds)
      (hcut : w.nextReply ≠ .failed ∧ ∀ n, w.nextReply = .wrote n → n < st.len ∧ k = n)
      (hzero : (∀ n, w.nextReply ≠ .wrote n) → k = 0) :
      HandOverResult w st fd cb
        (.ok false,
          { (w.accepting st calls k fds).unshift
              (.buf (st.buffer.slice (st.off + k) (st.off + st.len))) none cb with
            writeQueueFD := if k = 0 then fd :: w.writeQueueFD else w.writeQueueFD })

theorem handOver_result (w : World) (st : Staged) (fd : Option ℕ) (cb : Option Callback) :
    HandOverResult w st fd cb (w.handOver st fd cb) := by
  have hfails {e : JsError} {n : ℕ}
      (he : w.writeImpl st.buffer st.off st.len fd = (.error e, { w with calls := n })) :
      HandOverResult w st fd cb (w.handOver st fd cb) := by
    have h : HandOverResult w st fd cb _ := .failed n
    rw [handOver, he]
    dsimp only
    generalize destroy { w with calls := n } = res at h ⊢
    obtain ⟨o, w₁⟩ := res
    cases o <;> exact h
  have htakes {taken : Option ℕ} {n : ℕ} {fds : List (ℕ × ℕ)}
      (he : w.writeImpl st.buffer st.off st.len fd =
        (.ok taken, w.accepting st n (taken.getD 0) fds)) (hle : taken.getD 0 ≤ st.len)
      (hfds : w.Carries fd (taken.getD 0) fds) (hnot : w.nextReply ≠ .failed)
      (hcut : taken ≠ some st.len → ∀ n, w.nextReply = .wrote n → n < st.len ∧ taken.getD 0 = n)
      (hzero : (∀ n, w.nextReply ≠ .wrote n) → taken.getD 0 = 0) :
      HandOverResult w st fd cb (w.handOver st fd cb) := by
    rw [handOver, he]
    dsimp only
    by_cases htaken : taken = some st.len
    · subst htaken
      rw [if_pos rfl]
      cases hqueued : st.queuedData with
      | true => exact .queued n fds hfds hqueued
      | false =>
        have h : HandOverResult w st fd cb _ := .whole n fds hfds hqueued
        rw [if_neg Bool.false_ne_true]
        rcases cb with _ | id | ⟨last, id⟩ <;> exact h
    · rw [if_neg htaken]
      exact .cut n _ fds hle hfds ⟨hnot, hcut htaken⟩ hzero
  by_cases hrefused : w.type = .unix ∧ fd.getD 0 ≠ 0 ∧ noData st.buffer st.off st.len
  · exact hfails (e := .error _) (n := w.calls) (by rw [writeImpl, if_pos hrefused])
  by_cases hoff : st.buffer.length ≤ st.off
  · exact hfails (e := .error _) (n := w.calls) (by rw [writeImpl, if_neg hrefused, if_pos hoff])
  by_cases hlen : st.buffer.length < st.off + st.len
  · exact hfails (e := .error _) (n := w.calls)
      (by rw [writeImpl, if_neg hrefused, if_neg hoff, if_pos hlen])
  cases hreply : w.nextReply with
  | failed =>
    exact hfails (e := .error _) (n := w.calls + 1)
      (by rw [writeImpl, if_neg hrefused, if_neg hoff, if_neg hlen, hreply])
  | again =>
    have hzero : (if w.type = .unix then none else some 0 : Option ℕ).getD 0 = 0 := by
      split <;> rfl
    refine @htakes (if w.type = .unix then none else some 0) (w.calls + 1) w.sentFDs ?_
      (hzero.trans_le (Nat.zero_le _)) (.inl ⟨rfl, .inl hzero⟩) ?_ ?_ fun _ ↦ hzero
    · rw [writeImpl, if_neg hrefused, if_neg hoff, if_neg hlen, hreply, hzero, accepting,
        List.take_zero, List.append_nil]
    · rw [hreply]
      exact KernelReply.noConfusion
    · intro _ n hn
      rw [hreply] at hn
      cases hn
  | wrote n =>
    refine @htakes (some (min n st.len)) (w.calls + 1)
      (if w.type = .unix then w.sentFDs ++ (fd.toList.map fun f ↦ (f, min n st.len))
        else w.sentFDs) ?_ (Nat.min_le_right _ _) ?_ ?_ ?_ fun hno ↦ absurd hreply (hno n)
    · rw [writeImpl, if_neg hrefused, if_neg hoff, if_neg hlen, hreply]
      rfl
    · by_cases hunix : w.type = .unix
      · exact .inr ⟨hunix, if_pos hunix⟩
      · refine .inl ⟨if_neg hunix, .inr ?_⟩
        cases htype : w.type with
        | tcp => rfl
        | unix => exact absurd htype hunix
    · rw [hreply]
      exact KernelReply.noConfusion
    · intro hne m hm
      rw [hreply] at hm
      obtain rfl := KernelReply.wrote.inj hm
      have hlt : n < st.len := by
        by_contra hle
        exact hne (congrArg some (Nat.min_eq_right (Nat.le_of_not_lt hle)))
      exact ⟨hlt, Nat.min_eq_left hlt.le⟩

/-! ## Queueing -/

/-- A string is joined to the last entry, or there is a new one. -/
inductive EnqueueResult (w : World) (d : Data) (encoding : Option Encoding) (fd : Option ℕ)
    (cb : Option Callback) : World → Prop
  | joined (q : List QueueEntry) (t s : JSString) (hd : d = .str s)
      (hqueue : w.writeQueue = q ++ [QueueEntry.data (.str t)])
      (hencoding : w.writeQueueEncoding.getD q.length none = encoding)
      (hjoinable : w.joinable d encoding = some (t, s)) :
      EnqueueResult w d encoding fd cb
        { w with
          bufferSize := w.bufferSize + d.length
          writeQueue := q ++ [QueueEntry.data (.str (t ++ s))]
          writeQueueCallbacks := w.joinCallback cb
          writeQueueFD := if fd.isSome then w.writeQueueFD ++ [fd] else w.writeQueueFD }
  | pushed (hjoinable : w.joinable d encoding = none) :
      EnqueueResult w d encoding fd cb
        { w with
          bufferSize := w.bufferSize + d.length
          writeQueue := w.writeQueue ++ [QueueEntry.data d]
          writeQueueEncoding := w.writeQueueEncoding ++ [encoding]
          writeQueueCallbacks := w.writeQueueCallbacks ++ [cb]
          writeQueueFD := if fd.isSome then w.writeQueueFD ++ [fd] else w.writeQueueFD }

theorem joinable_cases {d : Data} {encoding : Option Encoding} {t s : JSString}
    (h : w.joinable d encoding = some (t, s)) :
    ∃ q, d = .str s ∧ w.writeQueue = q ++ [QueueEntry.data (.str t)] ∧
      w.writeQueueEncoding.getD q.length none = encoding := by
  rw [joinable.eq_def] at h
  split at h
  · next s' t' hlast =>
    obtain ⟨q, hq⟩ := List.getLast?_eq_some_iff.mp hlast
    split_ifs at h with hencoding
    obtain ⟨rfl, rfl⟩ := Prod.mk.inj (Option.some.inj h)
    rw [hq, List.length_append, List.length_singleton, Nat.add_sub_cancel] at hencoding
    exact ⟨q, rfl, hq, hencoding⟩
  · cases h

theorem enqueue_result (w : World) (d : Data) (encoding : Option Encoding) (fd : Option ℕ)
    (cb : Option Callback) : EnqueueResult w d encoding fd cb (w.enqueue d encoding fd cb) := by
  have hjoinable : joinable { w with bufferSize := w.bufferSize + d.length } d encoding =
      w.joinable d encoding := rfl
  cases hj : w.joinable d encoding with
  | none =>
    have hpushed : EnqueueResult w d encoding fd cb _ := .pushed hj
    cases fd with
    | none =>
      simp only [enqueue, hjoinable, hj]
      exact hpushed
    | some f =>
      simp only [enqueue, hjoinable, hj]
      exact hpushed
  | some ts =>
    obtain ⟨q, hd, hq, hencoding⟩ := joinable_cases hj
    have hjoined : EnqueueResult w d encoding fd cb _ := .joined q ts.1 ts.2 hd hq hencoding hj
    have hlast : w.writeQueue.dropLast = q := by rw [hq, List.dropLast_concat]
    cases fd with
    | none =>
      simp only [enqueue, hjoinable, hj, hlast]
      exact hjoined
    | some f =>
      simp only [enqueue, hjoinable, hj, hlast]
      exact hjoined

/-! ## Calls made of turns -/

theorem flushLoop_of_turn {p : World → Prop} (hturn : ∀ {w}, p w → p (w.turn pw).2) (fuel : ℕ) :
    ∀ {w : World}, p w → p (flushLoop pw fuel w).2 := by
  induction fuel with
  | zero => exact fun h ↦ h
  | succ fuel ih =>
    intro w h
    have hnext := hturn h
    rw [flushLoop_turn]
    generalize w.turn pw = res at hnext ⊢
    obtain ⟨o, w₁⟩ := res
    rcases o with e | _ | flushed
    · exact hnext
    · exact ih hnext
    · exact hnext

/-- What each turn keeps, `flush` keeps. -/
theorem flush_of_turn {p : World → Prop} (hturn : ∀ {w}, p w → p (w.turn pw).2) (h : p w) :
    p (w.flush pw).2 := flushLoop_of_turn hturn _ h

theorem onWritable_of_turn {p : World → Prop} (hturn : ∀ {w}, p w → p (w.turn pw).2)
    (hdestroy : ∀ {w}, p w → p w.destroy.2) (h : p w) : p (w.onWritable pw).2 := by
  have hflush := flush_of_turn hturn h
  rw [onWritable]
  generalize w.flush pw = res at hflush ⊢
  obtain ⟨o, w₁⟩ := res
  cases o with
  | error e => exact hflush
  | ok flushed =>
    dsimp only
    split_ifs
    · exact hdestroy hflush
    · exact hflush

theorem destroySoon_of_turn {p : World → Prop} (hturn : ∀ {w}, p w → p (w.turn pw).2)
    (hdestroy : ∀ {w}, p w → p w.destroy.2)
    (hsoon : ∀ {w}, p w → p { w with destroyOnDrain := true }) (h : p w) :
    p (w.destroySoon pw).2 := by
  have hflush := flush_of_turn hturn h
  rw [destroySoon]
  generalize w.flush pw = res at hflush ⊢
  obtain ⟨o, w₁⟩ := res
  rcases o with e | _ | _
  · exact hflush
  · exact hsoon hflush
  · exact hdestroy hflush

theorem end_of_turn {p : World → Prop} (hturn : ∀ {w}, p w → p (w.turn pw).2)
    (hmark : ∀ {w}, p w → p { w with writeQueue := w.writeQueue ++ [QueueEntry.endOfFile] })
    (h : p w) :
    p (w.end pw).2 := by
  rw [World.end]
  dsimp only
  split_ifs
  · exact hmark h
  · have hflush := flush_of_turn hturn (hmark h)
    generalize flush pw { w with writeQueue := w.writeQueue ++ [QueueEntry.endOfFile] } = res
      at hflush ⊢
    obtain ⟨o, w₁⟩ := res
    cases o <;> exact hflush
  · exact h

end SpiderNode.Net.World
