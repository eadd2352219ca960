import SpiderNode.Net.Shared
import SpiderNode.Net.Agreement

/-!
# What becomes of an entry

An entry of the queue is sent whole, or some of it is put back: what the kernel has not taken, and
before that what did not fit in the pool. A callback goes back with each of these parts, and a
descriptor only if nothing has been taken at all.

`Outcome` says what `_writeOut` leaves of an entry, with what it does to the queues of the callbacks
and of the descriptors. It needs to know that a string is stored as it is. The native encoders do so
for the strings of `Sendable`, if under UTF-8 there is also enough space (`FitsPool`).
-/

namespace SpiderNode.Net

open Buffer (Heap poolWriter)

namespace World

/-! ## Strings -/

/-- The string has bytes under its encoding, which `pool.write` finds. -/
def Sendable (encoding : Option Encoding) (t : JSString) : Prop :=
  if defaultsToUtf8 encoding then WellFormed t = true else t = [] ∨ OneByte (textArg encoding) t

/-- Under UTF-8 a string has to fit in the free space, and must not end in a `NUL` if it fills it to
the brim. -/
def FitsPool (encoding : Option Encoding) (t : JSString) (room : ℕ) : Prop :=
  defaultsToUtf8 encoding = true → (utf8Bytes t).length ≤ room ∧
    ((utf8Bytes t).length = room → (utf8Bytes t).getLast? ≠ some 0)

/-- How many code units of a string are stored. -/
def portion (encoding : Option Encoding) (t : JSString) (room : ℕ) : ℕ :=
  if defaultsToUtf8 encoding then t.length else min t.length room

section Strings

variable {encoding : Option Encoding} {t u : JSString} {room : ℕ}

theorem encodeText_of_utf8 (h : defaultsToUtf8 encoding = true) (t : JSString) :
    encodeText (textArg encoding) t = utf8Bytes t := by
  rcases encoding with _ | e | _ | _ | _
  · rfl
  · cases e with
    | utf8 | utf8Dash => rfl
    | ascii | binary => cases h
  all_goals cases h

theorem sendable_of_utf8 (h : defaultsToUtf8 encoding = true) :
    Sendable encoding t ↔ WellFormed t = true := by
  rw [Sendable, if_pos h]

theorem sendable_of_not_utf8 (h : ¬defaultsToUtf8 encoding = true) :
    Sendable encoding t ↔ t = [] ∨ OneByte (textArg encoding) t := by
  rw [Sendable, if_neg h]

theorem Sendable.encodable (h : Sendable encoding t) : Encodable (textArg encoding) t = true := by
  by_cases hutf8 : defaultsToUtf8 encoding = true
  · rw [Encodable, (sendable_of_utf8 hutf8).mp h, Bool.or_true]
  · obtain rfl | hbytes := (sendable_of_not_utf8 hutf8).mp h
    · exact encodable_nil _
    · exact (trusted_oneByte Sockets.blankHeap).encodable hbytes

theorem Sendable.append (ht : Sendable encoding t) (hu : Sendable encoding u) :
    Sendable encoding (t ++ u) := by
  by_cases hutf8 : defaultsToUtf8 encoding = true
  · rw [sendable_of_utf8 hutf8] at ht hu ⊢
    rw [wellFormed_append ht]
    exact hu
  · rw [sendable_of_not_utf8 hutf8] at ht hu ⊢
    obtain rfl | ht := ht
    · exact hu
    · obtain rfl | hu := hu
      · exact .inr ((List.append_nil t).symm ▸ ht)
      · exact .inr ((trusted_oneByte Sockets.blankHeap).append ht hu)

theorem Sendable.drop (h : Sendable encoding t) (room : ℕ) :
    Sendable encoding (t.drop (portion encoding t room)) := by
  rw [portion]
  by_cases hutf8 : defaultsToUtf8 encoding = true
  · rw [if_pos hutf8, List.drop_length, sendable_of_utf8 hutf8]
    rfl
  · rw [if_neg hutf8]
    rw [sendable_of_not_utf8 hutf8] at h ⊢
    obtain rfl | h := h
    · exact .inl List.drop_nil
    · obtain hlt | hle := Nat.lt_or_ge (min t.length room) t.length
      · refine .inr ((trusted_oneByte Sockets.blankHeap).drop h hlt ?_)
        match textArg encoding, h with
        | some .ascii, _ | some .binary, _ => rfl
      · exact .inl (List.drop_of_length_le hle)

/-- The part that is stored, and the rest. -/
theorem Sendable.encodeText_portion (h : Sendable encoding t) (room : ℕ) :
    encodeText (textArg encoding) (t.take (portion encoding t room)) ++
      encodeText (textArg encoding) (t.drop (portion encoding t room)) =
        encodeText (textArg encoding) t := by
  rw [portion]
  by_cases hutf8 : defaultsToUtf8 encoding = true
  · rw [if_pos hutf8, List.take_length, List.drop_length, encodeText_nil, List.append_nil]
  · rw [if_neg hutf8]
    rw [sendable_of_not_utf8 hutf8] at h
    obtain rfl | h := h
    · simp
    · rw [← encodeText_append ?_, List.take_append_drop]
      match textArg encoding, h with
      | some .ascii, _ | some .binary, _ => rfl

/-- What is stored of a string that does not fit fills the pool. -/
theorem Sendable.length_portion (h : Sendable encoding t)
    (hlt : portion encoding t room < t.length) :
    defaultsToUtf8 encoding = false ∧ room < t.length ∧
      (encodeText (textArg encoding) (t.take (portion encoding t room))).length = room := by
  rw [portion] at hlt ⊢
  by_cases hutf8 : defaultsToUtf8 encoding = true
  · rw [if_pos hutf8] at hlt
    exact absurd hlt (Nat.lt_irrefl _)
  · rw [if_neg hutf8] at hlt ⊢
    have hroom : room < t.length := by omega
    obtain rfl | h := (sendable_of_not_utf8 hutf8).mp h
    · exact absurd hroom (Nat.not_lt_zero _)
    · refine ⟨Bool.eq_false_of_not_eq_true hutf8, hroom, ?_⟩
      have hlatin1 : isUtf8 (textArg encoding) = false := by
        match textArg encoding, h with
        | some .ascii, _ | some .binary, _ => rfl
      rw [encodeText, hlatin1, if_neg Bool.false_ne_true, latin1Bytes, List.length_map,
        List.length_take]
      omega

theorem stores_of_utf8 (m : Heap) (hutf8 : defaultsToUtf8 encoding = true)
    (hw : WellFormed t = true) (hle : (utf8Bytes t).length ≤ room)
    (hnul : (utf8Bytes t).length = room → (utf8Bytes t).getLast? ≠ some 0) :
    Stores (poolWriter m) room t encoding (utf8Bytes t) t.length := by
  have hbytes : (if (utf8Bytes t).length < room then utf8Bytes t
      else Buffer.dropNul (utf8Bytes t)) = utf8Bytes t := by
    split_ifs with hlt
    · rfl
    · rw [Buffer.dropNul, if_neg (hnul (by omega))]
  obtain ⟨tail, hwrite, hfit⟩ := Buffer.utf8Write_of_fits m hw hle
  rw [hbytes] at hwrite hfit
  refine ⟨⟨tail, t.length, hfit, ?_, if_pos hutf8⟩, Nat.le_refl _, fun hne ↦ ?_⟩
  · rw [poolEncoding, if_pos hutf8, ← hwrite, poolWriter, Buffer.write, Nat.min_self]
  · have hencodable : Encodable none t = true := by rw [Encodable, hw, Bool.or_true]
    exact encodeText_ne_nil hencodable hne

theorem stores_of_oneByte (m : Heap) (hutf8 : ¬defaultsToUtf8 encoding = true)
    (h : OneByte (textArg encoding) t) (hroom : 0 < room) :
    Stores (poolWriter m) room t encoding
      (encodeText (textArg encoding) (t.take (min t.length room))) (min t.length room) := by
  obtain ⟨e, rfl⟩ : ∃ e, encoding = some (.text e) := by
    rcases encoding with _ | e | _ | _ | _
    · exact h.elim
    · exact ⟨e, rfl⟩
    all_goals exact h.elim
  have hlatin1 : isUtf8 (some e) = false := by
    match e, h with
    | .ascii, _ | .binary, _ => rfl
  have hlength : (latin1Bytes (t.take (min t.length room))).length = min t.length room := by
    rw [latin1Bytes, List.length_map, List.length_take]
    omega
  simp only [textArg, encodeText, hlatin1, Bool.false_eq_true, if_false]
  refine ⟨⟨[], m.charsWritten, ?_, ?_, ?_⟩, Nat.min_le_left _ _, fun hne hnil ↦ ?_⟩
  · rw [List.append_nil, hlength]
    exact Nat.min_le_right _ _
  · rw [poolEncoding, if_neg hutf8, Option.getD_some, poolWriter_oneByte m h, List.append_nil,
      latin1Bytes, List.length_map]
  · rw [if_neg hutf8, hlength]
  · have hpos := List.length_pos_of_ne_nil hne
    rw [hnil, List.length_nil] at hlength
    omega

theorem stores_of_sendable (m : Heap) (h : Sendable encoding t) (hfits : FitsPool encoding t room)
    (hroom : 0 < room) :
    Stores (poolWriter m) room t encoding
      (encodeText (textArg encoding) (t.take (portion encoding t room)))
      (portion encoding t room) := by
  rw [portion]
  by_cases hutf8 : defaultsToUtf8 encoding = true
  · obtain ⟨hle, hnul⟩ := hfits hutf8
    rw [if_pos hutf8, List.take_length, encodeText_of_utf8 hutf8]
    exact stores_of_utf8 m hutf8 ((sendable_of_utf8 hutf8).mp h) hle hnul
  · rw [if_neg hutf8]
    obtain rfl | h := (sendable_of_not_utf8 hutf8).mp h
    · obtain ⟨tail, chars, hwrite, hle, -⟩ := Buffer.write_nil m (poolEncoding encoding) room hroom
      rw [List.take_nil, encodeText_nil]
      exact ⟨⟨tail, chars, hle, hwrite, by simp [hutf8]⟩, Nat.min_le_left _ _, fun hne ↦
        absurd rfl hne⟩
    · exact stores_of_oneByte m hutf8 h hroom

end Strings

/-! ## Entries -/

/-- Data that can be relied on: a buffer that is not written again, or a string that has bytes. -/
def Sound (p : Pool) (i : Data × Option Encoding) : Prop :=
  match i.1 with
  | .buf b => b.Live p
  | .str t => Sendable i.2 t

/-- The bytes of an entry. -/
def entryBytes (p : Pool) (i : Data × Option Encoding) : Bytes := dataBytes p i.1 i.2

/-- An open socket with its entries; `ended` says whether `END_OF_FILE` follows them. -/
structure Queues (w : World) (items : List (Data × Option Encoding)) (ended : Bool) : Prop where
  queue : w.writeQueue = items.map (QueueEntry.data ·.1) ++
    if ended then [QueueEntry.endOfFile] else []
  encodings : w.writeQueueEncoding = items.map (·.2)
  size : w.bufferSize = (items.map (·.1.length)).sum
  alive : w.destroyed = false
  /-- A socket becomes readable only when it is connected. -/
  connecting : w.connecting = true → w.readable = false
  writable : w.writable = true

/-- The string goes into the pool in parts. -/
def Splits (w : World) (d : Data) (encoding : Option Encoding) : Prop :=
  ∃ t, d = .str t ∧ defaultsToUtf8 encoding = false ∧ w.pool.ensure.room < t.length

/-- The string goes into the pool in parts, and the kernel does not take the first of them whole. -/
def SplitsTwice (w : World) (d : Data) (encoding : Option Encoding) : Prop :=
  w.Splits d encoding ∧ w.nextReply ≠ .failed ∧
    ∀ n, w.nextReply = .wrote n → n < w.pool.ensure.room

/-- The kernel takes a part of the data. -/
def Cuts (w : World) (d : Data) (encoding : Option Encoding) : Prop :=
  ∃ n, w.nextReply = .wrote n ∧ 0 < n ∧ n < (dataBytes w.pool d encoding).length

/-- The callbacks that are called for an entry. -/
def ran : Option Callback → List ℕ
  | some (.user id) => [id]
  | _ => []

/-- What `_writeOut` makes of data: the socket is destroyed, or the data is sent, or some of it is
sent and the rest is in front of the queue. -/
inductive Outcome (w : World) (items : List (Data × Option Encoding)) (ended : Bool) (d : Data)
    (encoding : Option Encoding) (fd : Option ℕ) (cb : Option Callback) : Call Bool → Prop
  | gone {r : Call Bool} (hok : r.1 = .ok false) (hgone : r.2.destroyed = true) :
      Outcome w items ended d encoding fd cb r
  | whole {r : Call Bool} (hthrows : ∀ e, r.1 = .error e → ∃ last id, cb = some (.joined last id))
      (hqueues : r.2.Queues items ended) (hsent : r.2.sent = w.sent ++ dataBytes w.pool d encoding)
      (hcallbacks : r.2.writeQueueCallbacks = w.writeQueueCallbacks)
      (hfds : r.2.writeQueueFD = w.writeQueueFD)
      (hcarries : w.Carries fd (dataBytes w.pool d encoding).length r.2.sentFDs)
      (hcalled : r.2.called = w.called ++ ran cb) :
      Outcome w items ended d encoding fd cb r
  | left {r : Call Bool} (front : List (Data × Option Encoding)) (b : Bytes) (hok : r.1 = .ok false)
      (hqueues : r.2.Queues (front ++ items) ended) (hfront : front ≠ [])
      (hsound : ∀ i ∈ front, Sound r.2.pool i) (hsent : r.2.sent = w.sent ++ b)
      (hbytes : b ++ front.flatMap (entryBytes r.2.pool) = dataBytes w.pool d encoding)
      (hcallbacks :
        r.2.writeQueueCallbacks = List.replicate front.length cb ++ w.writeQueueCallbacks)
      (hfds : r.2.writeQueueFD = if b = [] then fd :: w.writeQueueFD else w.writeQueueFD)
      (hcarries : w.Carries fd b.length r.2.sentFDs) (hcalled : r.2.called = w.called)
      (htwo : front.length ≠ 1 → w.SplitsTwice d encoding)
      (hpart : b ≠ [] ∨ front.length ≠ 1 → w.Splits d encoding ∨ w.Cuts d encoding) :
      Outcome w items ended d encoding fd cb r

/-! ## Handing over -/

/-- What becomes of staged bytes. -/
inductive HandsOver (w : World) (items : List (Data × Option Encoding)) (ended : Bool) (st : Staged)
    (bytes : Bytes) (fd : Option ℕ) (cb : Option Callback) : Call Bool → Prop
  | gone {r : Call Bool} (hok : r.1 = .ok false) (hgone : r.2.destroyed = true) :
      HandsOver w items ended st bytes fd cb r
  | taken {r : Call Bool} (hthrows : ∀ e, r.1 = .error e → ∃ last id, cb = some (.joined last id))
      (hstops : st.queuedData = true → r.1 = .ok false) (hqueues : r.2.Queues items ended)
      (hsent : r.2.sent = w.sent ++ bytes)
      (hcallbacks : r.2.writeQueueCallbacks = w.writeQueueCallbacks)
      (hfds : r.2.writeQueueFD = w.writeQueueFD) (hcarries : w.Carries fd bytes.length r.2.sentFDs)
      (hcalled : r.2.called = w.called ++ if st.queuedData then [] else ran cb) :
      HandsOver w items ended st bytes fd cb r
  | cut {r : Call Bool} (i : Data × Option Encoding) (k : ℕ) (hok : r.1 = .ok false)
      (hqueues : r.2.Queues (i :: items) ended) (hsound : Sound r.2.pool i) (hle : k ≤ bytes.length)
      (hsent : r.2.sent = w.sent ++ bytes.take k) (hbytes : entryBytes r.2.pool i = bytes.drop k)
      (hcallbacks : r.2.writeQueueCallbacks = cb :: w.writeQueueCallbacks)
      (hfds : r.2.writeQueueFD = if k = 0 then fd :: w.writeQueueFD else w.writeQueueFD)
      (hcarries : w.Carries fd k r.2.sentFDs) (hcalled : r.2.called = w.called)
      (hreply : w.nextReply ≠ .failed ∧ ∀ n, w.nextReply = .wrote n → n < bytes.length ∧ k = n)
      (hzero : (∀ n, w.nextReply ≠ .wrote n) → k = 0) :
      HandsOver w items ended st bytes fd cb r

section Calls

variable {m : Heap} {w : World} {items : List (Data × Option Encoding)} {ended : Bool}
  {bytes : Bytes} {st : Staged}

/-- Something goes back in front of the queue. -/
theorem Queues.cons {v : World} (h : w.Queues items ended) (i : Data × Option Encoding)
    (hqueue : v.writeQueue = .data i.1 :: w.writeQueue)
    (hencodings : v.writeQueueEncoding = i.2 :: w.writeQueueEncoding)
    (hsize : v.bufferSize = w.bufferSize + i.1.length)
    (hstate : (v.destroyed, v.connecting, v.readable, v.writable) =
      (w.destroyed, w.connecting, w.readable, w.writable)) : v.Queues (i :: items) ended := by
  simp only [Prod.mk.injEq] at hstate
  obtain ⟨hdestroyed, hconnecting, hreadable, hwritable⟩ := hstate
  constructor
  case queue => rw [hqueue, h.queue, List.map_cons, List.cons_append]
  case encodings => rw [hencodings, h.encodings, List.map_cons]
  case size => rw [hsize, h.size, List.map_cons, List.sum_cons, Int.natCast_add, Int.add_comm]
  case alive => rw [hdestroyed, h.alive]
  case connecting => rw [hconnecting, hreadable]; exact h.connecting
  case writable => rw [hwritable, h.writable]

theorem Queues.destroy (h : w.Queues items ended) :
    w.destroy.1 = .ok () ∧ w.destroy.2.destroyed = true := by
  have hsize := h.size
  rw [World.destroy, if_neg (by omega)]
  exact ⟨rfl, rfl⟩

theorem invoke_ran (w : World) (cb : Option Callback) :
    (w.invoke cb).2 = { w with called := w.called ++ ran cb } ∧
      ∀ e, (w.invoke cb).1 = .error e → ∃ last id, cb = some (.joined last id) := by
  have hnone : { w with called := w.called ++ [] } = w := by rw [List.append_nil]
  rcases cb with _ | id | ⟨last, id⟩
  · exact ⟨hnone.symm, fun e he ↦ by cases he⟩
  · exact ⟨rfl, fun e he ↦ by cases he⟩
  · exact ⟨hnone.symm, fun _ _ ↦ ⟨last, id, rfl⟩⟩

theorem handOver_handsOver (hs : StagedFor w st bytes) (hlen : st.len = bytes.length)
    (h : w.Queues items ended) (fd : Option ℕ) (cb : Option Callback) :
    HandsOver w items ended st bytes fd cb (w.handOver st fd cb) := by
  have hres := w.handOver_result st fd cb
  have hread := hs.read
  have htake (k : ℕ) (hk : k ≤ st.len) :
      ((st.buffer.read w.pool).drop st.off).take k = bytes.take k := by
    rw [← hread, List.take_take, Nat.min_eq_left hk]
  generalize w.handOver st fd cb = res at hres ⊢
  cases hres with
  | failed calls =>
    have hcalls : World.Queues { w with calls := calls } items ended :=
      ⟨h.queue, h.encodings, h.size, h.alive, h.connecting, h.writable⟩
    obtain ⟨hok, hgone⟩ := hcalls.destroy
    exact .gone (by rw [hok]; rfl) hgone
  | queued calls fds hcarries hqueued =>
    refine .taken (fun e he ↦ by cases he) (fun _ ↦ rfl)
      ⟨h.queue, h.encodings, h.size, h.alive, h.connecting, h.writable⟩ ?_ rfl rfl
      (hlen ▸ hcarries) ?_
    · exact congrArg (w.sent ++ ·) hread
    · rw [if_pos hqueued, List.append_nil]
      rfl
  | whole calls fds hcarries hqueued =>
    have hsent : w.sent ++ ((st.buffer.read w.pool).drop st.off).take st.len = w.sent ++ bytes :=
      congrArg (w.sent ++ ·) hread
    obtain ⟨hran, hthrows⟩ := invoke_ran { w.accepting st calls st.len fds with
      pool := poolAfter w st } cb
    rw [hran]
    refine .taken (fun e he ↦ hthrows e ?_) (fun hq ↦ ?_)
      ⟨h.queue, h.encodings, h.size, h.alive, h.connecting, h.writable⟩ hsent rfl rfl
      (hlen ▸ hcarries) ?_
    · dsimp only at he
      generalize (invoke _ cb).1 = o at he ⊢
      cases o with
      | error e' =>
        cases he
        rfl
      | ok u => cases he
    · cases hqueued.symm.trans hq
    · rw [hqueued]
      rfl
  | cut calls k fds hle hcarries hcut hzero =>
    refine .cut _ k rfl (h.cons (_, none) rfl rfl rfl rfl) ?_ (hle.trans hlen.le) ?_ ?_ rfl rfl
      hcarries rfl ?_ hzero
    · exact hs.rest k hle
    · exact congrArg (w.sent ++ ·) (htake k hle)
    · refine (Buf.read_slice w.pool hs.range).trans ?_
      rw [← hread, ← List.drop_drop, List.drop_take, Nat.add_sub_cancel_left]
    · rw [← hlen]
      exact hcut

/-! ## Writing out -/

/-- What `pool.write` has stored of a string is ready to be sent. -/
theorem StagesString.stagedFor {pw : PoolWriter} {p : Pool} {encoding : Option Encoding}
    {t : JSString} {st : Staged} {r : PoolWrite} (hst : StagesString pw p encoding t st r) {k : ℕ}
    (hs : Stores pw p.ensure.room t encoding bytes k)
    (hw : w.pool = stagePool pw p encoding (.str t)) :
    StagedFor w st bytes ∧ st.len = bytes.length ∧ charsWritten encoding r = k := by
  obtain ⟨⟨tail, chars, hfit, hpw, hunits⟩, -, -⟩ := hs
  obtain rfl := Except.ok.inj (hst.write.symm.trans hpw)
  have hlen : st.len = bytes.length := by
    rw [hst.len]
    exact Int.toNat_natCast _
  obtain ⟨buffer, off, len, fromPool, queued⟩ := st
  obtain ⟨-, -, rfl, rfl, -, rfl, hpool⟩ := hst
  obtain rfl : len = bytes.length := hlen
  exact ⟨stagedFor_store p.ensure_count_pos hfit p.ensure_used_lt.le (hw.trans hpool) queued, rfl,
    hunits⟩

/-- A string that is stored is staged without an error. -/
theorem stage_of_stores {pw : PoolWriter} {t : JSString} {encoding : Option Encoding} {k : ℕ}
    (hs : Stores pw w.pool.ensure.room t encoding bytes k) (cb : Option Callback) (e : JsError) :
    (w.stage pw (.str t) encoding cb).1 ≠ .error e := by
  obtain ⟨⟨tail, chars, hfit, hpw, hunits⟩, hle, hne⟩ := hs
  have hbytes : ¬(encoding.isSome ∧ 0 < t.length ∧ ¬(0 : ℤ) < bytes.length) := by
    rintro ⟨-, ht, hnil⟩
    have hpos := List.length_pos_of_ne_nil (hne (List.ne_nil_of_length_pos ht))
    omega
  simp only [stage, stageString, hpw, hunits, if_neg hbytes]
  rw [if_neg (by omega)]
  split_ifs with hall hless
  · exact fun he ↦ by cases he
  · exact fun he ↦ by cases he
  · omega

/-- All of the data has been staged. -/
theorem HandsOver.whole {p : Pool} {d : Data} {encoding : Option Encoding} {fd : Option ℕ}
    {cb : Option Callback} {r : Call Bool} (hqueued : st.queuedData = false)
    (h : HandsOver { w with pool := p } items ended st (dataBytes w.pool d encoding) fd cb r) :
    Outcome w items ended d encoding fd cb r := by
  cases h with
  | gone hok hgone => exact .gone hok hgone
  | taken hthrows hstops hqueues hsent hcallbacks hfds hcarries hcalled =>
    rw [hqueued] at hcalled
    exact .whole hthrows hqueues hsent hcallbacks hfds hcarries hcalled
  | cut i k hok hqueues hsound hle hsent hbytes hcallbacks hfds hcarries hcalled hreply hzero =>
    have hlength : ((dataBytes w.pool d encoding).take k).length = k := by
      rw [List.length_take, Nat.min_eq_left hle]
    have hnil : (dataBytes w.pool d encoding).take k = [] ↔ k = 0 := by
      rw [← List.length_eq_zero_iff, hlength]
    refine .left [i] _ hok hqueues (List.cons_ne_nil _ _) ?_ hsent ?_ hcallbacks ?_
      (hlength.symm ▸ hcarries) hcalled (fun hne ↦ absurd rfl hne) ?_
    · rintro j hj
      rw [List.mem_singleton.mp hj]
      exact hsound
    · rw [List.flatMap_singleton, hbytes, List.take_append_drop]
    · rw [hfds]
      simp only [hnil]
    · rintro (hne | hne)
      · by_contra hno
        refine hne (hnil.mpr (hzero fun n hn ↦ hno (.inr ?_)))
        obtain ⟨hlt, rfl⟩ := hreply.2 n hn
        exact ⟨k, hn, Nat.pos_of_ne_zero fun hk ↦ hne (hnil.mpr hk), hlt⟩
      · exact absurd rfl hne

/-- The rest of a string is in front of the queue. -/
theorem HandsOver.split {p : Pool} {t rest : JSString} {encoding : Option Encoding}
    {fd : Option ℕ} {cb : Option Callback} {r : Call Bool} (hqueued : st.queuedData = true)
    (hbytes : bytes ++ encodeText (textArg encoding) rest = encodeText (textArg encoding) t)
    (hne : bytes ≠ []) (hrest : Sendable encoding rest) (hsplits : w.Splits (.str t) encoding)
    (hroom : bytes.length = w.pool.ensure.room)
    (h : HandsOver (unshift { w with pool := p } (.str rest) encoding cb)
      ((.str rest, encoding) :: items) ended st bytes fd cb r) :
    Outcome w items ended (.str t) encoding fd cb r := by
  cases h with
  | gone hok hgone => exact .gone hok hgone
  | taken hthrows hstops hqueues hsent hcallbacks hfds hcarries hcalled =>
    rw [if_pos hqueued, List.append_nil] at hcalled
    refine .left [(.str rest, encoding)] bytes (hstops hqueued) hqueues (List.cons_ne_nil _ _) ?_
      hsent ?_ hcallbacks ?_ hcarries hcalled (fun hone ↦ absurd rfl hone) fun _ ↦ .inl hsplits
    · rintro j hj
      rw [List.mem_singleton.mp hj]
      exact hrest
    · rw [List.flatMap_singleton]
      exact hbytes
    · rw [hfds, if_neg hne]
      rfl
  | cut i k hok hqueues hsound hle hsent hbytes' hcallbacks hfds hcarries hcalled hreply hzero =>
    have hlength : (bytes.take k).length = k := by rw [List.length_take, Nat.min_eq_left hle]
    have hnil : bytes.take k = [] ↔ k = 0 := by rw [← List.length_eq_zero_iff, hlength]
    refine .left [i, (.str rest, encoding)] _ hok hqueues (List.cons_ne_nil _ _) ?_ hsent ?_
      hcallbacks ?_ (hlength.symm ▸ hcarries) hcalled (fun _ ↦ ⟨hsplits, hreply.1, ?_⟩)
      fun _ ↦ .inl hsplits
    · rintro j hj
      obtain rfl | hj := List.mem_cons.mp hj
      · exact hsound
      · rw [List.mem_singleton.mp hj]
        exact hrest
    · rw [List.flatMap_cons, List.flatMap_singleton, hbytes', ← List.append_assoc,
        List.take_append_drop]
      exact hbytes
    · rw [hfds]
      simp only [hnil]
      rfl
    · intro n hn
      rw [← hroom]
      exact (hreply.2 n hn).1

theorem writeOut_outcome (m : Heap) (h : w.Queues items ended) {d : Data}
    {encoding : Option Encoding} (hd : Sound w.pool (d, encoding))
    (hfits : ∀ t, d = .str t → FitsPool encoding t w.pool.ensure.room) (fd : Option ℕ)
    (cb : Option Callback) :
    Outcome w items ended d encoding fd cb (w.writeOut (poolWriter m) d encoding fd cb) := by
  have hroom := w.pool.kMinPoolSpace_le_room_ensure
  rw [kMinPoolSpace] at hroom
  have hstores : ∀ t, d = .str t → Stores (poolWriter m) w.pool.ensure.room t encoding
      (encodeText (textArg encoding) (t.take (portion encoding t w.pool.ensure.room)))
      (portion encoding t w.pool.ensure.room) := by
    rintro t rfl
    exact stores_of_sendable m hd (hfits t rfl) (by omega)
  have hstaged (p : Pool) : World.Queues { w with pool := p } items ended :=
    ⟨h.queue, h.encodings, h.size, h.alive, h.connecting, h.writable⟩
  have hok : ∀ e, (w.stage (poolWriter m) d encoding cb).1 ≠ .error e := by
    intro e
    cases d with
    | buf b => exact fun he ↦ by cases he
    | str t => exact stage_of_stores (hstores t rfl) cb e
  rw [World.writeOut, if_neg (not_not_intro h.writable)]
  have hstage := World.stage_result (poolWriter m) w d encoding cb
  generalize w.stage (poolWriter m) d encoding cb = res at hstage hok ⊢
  cases hstage with
  | failed e => exact absurd rfl (hok e)
  | buffer b hd' =>
    subst hd'
    have hlive : b.Live w.pool := hd
    exact (handOver_handsOver (stagedFor_buf hlive) (Buf.length_read _ _).symm h fd cb).whole rfl
  | whole t st r hd' hst hchars hqueued =>
    subst hd'
    obtain ⟨hstagedFor, hlen, hunits⟩ := hst.stagedFor (hstores t rfl)
      (w := { w with pool := stagePool (poolWriter m) w.pool encoding (.str t) }) rfl
    have hall : portion encoding t w.pool.ensure.room = t.length := by omega
    rw [hall, List.take_length] at hstagedFor hlen
    exact (handOver_handsOver hstagedFor hlen (hstaged _) fd cb).whole hqueued
  | split t st r hd' hst hchars hqueued =>
    subst hd'
    obtain ⟨hstagedFor, hlen, hunits⟩ := hst.stagedFor (hstores t rfl)
      (w := unshift { w with pool := stagePool (poolWriter m) w.pool encoding (.str t) }
        (.str (t.drop (charsWritten encoding r).toNat)) encoding cb) rfl
    have hsend : Sendable encoding t := hd
    have hpart : portion encoding t w.pool.ensure.room < t.length := by omega
    obtain ⟨hutf8, hlt, hbytes⟩ := hsend.length_portion hpart
    have hqueues := (hstaged (stagePool (poolWriter m) w.pool encoding (.str t))).cons
      (v := unshift { w with pool := stagePool (poolWriter m) w.pool encoding (.str t) }
        (.str (t.drop (charsWritten encoding r).toNat)) encoding cb)
      (.str (t.drop (charsWritten encoding r).toNat), encoding) rfl rfl rfl rfl
    have hover := handOver_handsOver hstagedFor hlen hqueues fd cb
    have hne : encodeText (textArg encoding)
        (t.take (portion encoding t w.pool.ensure.room)) ≠ [] :=
      List.ne_nil_of_length_pos (by omega)
    rw [hunits, Int.toNat_natCast] at hover ⊢
    exact hover.split hqueued (hsend.encodeText_portion _) hne (hsend.drop _) ⟨t, rfl, hutf8, hlt⟩
      hbytes

/-! ## The queue -/

/-- A turn of `flush` takes the first entry. -/
theorem turn_cons {i : Data × Option Encoding} (h : w.Queues (i :: items) ended)
    (pw : PoolWriter) :
    ∃ rest r, w.writeQueue = .data i.1 :: rest ∧ (w.taking i.1 rest).Queues items ended ∧
      r = (w.taking i.1 rest).writeOut pw i.1 i.2 w.writeQueueFD.head?.join
        w.writeQueueCallbacks.head?.join ∧
      (w.turn pw).2 = r.2 ∧ ∀ e, (w.turn pw).1 = .error e → r.1 = .error e := by
  obtain ⟨rest, hq⟩ : ∃ rest, w.writeQueue = .data i.1 :: rest := ⟨_, h.queue⟩
  have hencodings := h.encodings
  have hencoding : w.writeQueueEncoding.head?.join = i.2 := by
    rw [hencodings]
    rfl
  refine ⟨rest, _, hq, ?_, rfl, ?_⟩
  · constructor
    case queue =>
      have hqueue := hq.symm.trans h.queue
      exact (List.cons.inj hqueue).2
    case encodings =>
      change w.writeQueueEncoding.tail = _
      rw [hencodings]
      rfl
    case size =>
      have hsize := h.size
      rw [List.map_cons, List.sum_cons] at hsize
      change w.bufferSize - i.1.length = _
      omega
    case alive => exact h.alive
    case connecting => exact h.connecting
    case writable => exact h.writable
  · rw [turn, hq, hencoding]
    dsimp only
    generalize (w.taking i.1 rest).writeOut pw i.1 i.2 w.writeQueueFD.head?.join
      w.writeQueueCallbacks.head?.join = r
    obtain ⟨o, w₁⟩ := r
    rcases o with e | _ | _
    · exact ⟨rfl, fun e' he ↦ by cases he; rfl⟩
    · exact ⟨rfl, fun e' he ↦ by cases he⟩
    · exact ⟨rfl, fun e' he ↦ by cases he⟩

/-- A socket on which `_shutdown` has been called. -/
structure Done (w : World) : Prop where
  queue : w.writeQueue = []
  writable : w.writable = false
  connecting : w.connecting = false
  size : 0 ≤ w.bufferSize

/-- What `_shutdown` makes of an open socket. -/
theorem shutdown_done (hwritable : w.writable = true) (hsize : w.bufferSize = 0)
    (hconnecting : w.connecting = true → w.readable = false) (hq : w.writeQueue = []) :
    w.shutdown.1 = .ok () ∧ w.shutdown.2.sent = w.sent ∧ w.shutdown.2.called = w.called ∧
      w.shutdown.2.sentFDs = w.sentFDs ∧ (w.shutdown.2.destroyed = true ∨ w.shutdown.2.Done) := by
  have hnonneg : ¬w.bufferSize < 0 := by omega
  have hdestroy {v : World} (hv : v.bufferSize = w.bufferSize) :
      v.destroy.1 = .ok () ∧ v.destroy.2.sent = v.sent ∧ v.destroy.2.called = v.called ∧
        v.destroy.2.sentFDs = v.sentFDs ∧ v.destroy.2.destroyed = true := by
    rw [World.destroy, if_neg (hv ▸ hnonneg)]
    exact ⟨rfl, rfl, rfl, rfl, rfl⟩
  rw [shutdown, if_neg (not_not_intro hwritable)]
  dsimp only
  split_ifs with hreadable
  · have hopen : w.connecting = false := by
      by_contra hne
      rw [hconnecting (Bool.eq_true_of_not_eq_false hne)] at hreadable
      cases hreadable
    have hdone : World.Done { w with writable := false, calls := w.calls + 1, shut := true } :=
      ⟨hq, rfl, hopen, hsize.ge⟩
    split
    · obtain ⟨hok, hsent, hcalled, hfds, hgone⟩ :=
        hdestroy (v := { w with writable := false, calls := w.calls + 1, shut := true }) rfl
      exact ⟨hok, hsent, hcalled, hfds, .inl hgone⟩
    · exact ⟨rfl, rfl, rfl, rfl, .inr hdone⟩
  · obtain ⟨hok, hsent, hcalled, hfds, hgone⟩ := hdestroy (v := { w with writable := false }) rfl
    exact ⟨hok, hsent, hcalled, hfds, .inl hgone⟩

/-- Behind the last entry there is nothing, or `END_OF_FILE`. -/
theorem turn_nil (h : w.Queues [] ended) (pw : PoolWriter) :
    (∀ e, (w.turn pw).1 ≠ .error e) ∧ (w.turn pw).2.sent = w.sent ∧
      (w.turn pw).2.called = w.called ∧ (w.turn pw).2.sentFDs = w.sentFDs ∧
      ((w.turn pw).2.destroyed = true ∨ (w.turn pw).2.Done ∨
        (w.turn pw).2.Queues [] ended ∧ (w.turn pw).2.pool = w.pool ∧
          (w.turn pw).2.writeQueueCallbacks = w.writeQueueCallbacks ∧
          (w.turn pw).2.writeQueueFD = w.writeQueueFD) := by
  cases ended with
  | false =>
    have hq : w.writeQueue = [] := h.queue
    have hturn : w.turn pw = (.ok (some true), { w with writeQueue := [], watching := false }) := by
      simp only [turn, hq]
    rw [hturn]
    exact ⟨fun e he ↦ (by cases he), rfl, rfl, rfl, .inr (.inr
      ⟨⟨rfl, h.encodings, h.size, h.alive, h.connecting, h.writable⟩, rfl, rfl, rfl⟩)⟩
  | true =>
    have hq : w.writeQueue = [.endOfFile] := h.queue
    obtain ⟨hok, hsent, hcalled, hfds, hdone⟩ := shutdown_done (w := w.shiftQueues []) h.writable
      h.size h.connecting rfl
    rw [turn, hq]
    dsimp only
    generalize (w.shiftQueues []).shutdown = r at hok hsent hcalled hfds hdone ⊢
    obtain ⟨o, w₁⟩ := r
    obtain rfl : o = .ok () := hok
    exact ⟨fun e he ↦ (by cases he), hsent, hcalled, hfds, hdone.imp_right .inl⟩

theorem enqueue_frame (w : World) (d : Data) (encoding : Option Encoding) (fd : Option ℕ)
    (cb : Option Callback) :
    (w.enqueue d encoding fd cb).pool = w.pool ∧ (w.enqueue d encoding fd cb).sent = w.sent ∧
      (w.enqueue d encoding fd cb).called = w.called ∧
      (w.enqueue d encoding fd cb).sentFDs = w.sentFDs ∧
      (w.enqueue d encoding fd cb).writeQueueFD =
        if fd.isSome then w.writeQueueFD ++ [fd] else w.writeQueueFD := by
  have hres := enqueue_result w d encoding fd cb
  generalize w.enqueue d encoding fd cb = v at hres ⊢
  cases hres <;> exact ⟨rfl, rfl, rfl, rfl, rfl⟩

/-- A write that waits is an entry of its own, or it is joined to the last one. -/
theorem enqueue_queues (h : w.Queues items false) (d : Data) (encoding : Option Encoding)
    (fd : Option ℕ) (cb : Option Callback) :
    (w.joinable d encoding = none ∧
      (w.enqueue d encoding fd cb).Queues (items ++ [(d, encoding)]) false ∧
      (w.enqueue d encoding fd cb).writeQueueCallbacks = w.writeQueueCallbacks ++ [cb]) ∨
    ∃ l t s, w.joinable d encoding = some (t, s) ∧ d = .str s ∧
      items = l ++ [(Data.str t, encoding)] ∧
      (w.enqueue d encoding fd cb).Queues (l ++ [(Data.str (t ++ s), encoding)]) false ∧
      (w.enqueue d encoding fd cb).writeQueueCallbacks = w.joinCallback cb := by
  have hres := enqueue_result w d encoding fd cb
  have hqueue := h.queue
  have hencodings := h.encodings
  have hsize := h.size
  rw [if_neg Bool.false_ne_true, List.append_nil] at hqueue
  generalize w.enqueue d encoding fd cb = v at hres ⊢
  cases hres with
  | pushed hjoinable =>
    refine .inl ⟨hjoinable, ⟨?_, ?_, ?_, h.alive, h.connecting, h.writable⟩, rfl⟩
    · simp [hqueue]
    · simp [hencodings]
    · simp [hsize]
  | joined q t s hd hq hencoding hjoinable =>
    have hmap : items.map (QueueEntry.data ·.1) = q ++ [QueueEntry.data (.str t)] :=
      hqueue.symm.trans hq
    obtain ⟨l, last, rfl, rfl, hlast⟩ := List.map_eq_append_iff.mp hmap
    obtain ⟨⟨d', encoding'⟩, rfl, hd'⟩ := List.map_eq_singleton_iff.mp hlast
    obtain rfl : d' = .str t := QueueEntry.data.inj hd'
    rw [hencodings] at hencoding
    obtain rfl : encoding' = encoding := by simpa using hencoding
    refine .inr ⟨l, t, s, hjoinable, hd, rfl, ⟨?_, ?_, ?_, h.alive, h.connecting, h.writable⟩, rfl⟩
    · simp
    · simp [hencodings]
    · subst hd
      simp [hsize, Data.length]
      omega

/-! ## Destroyed sockets -/

theorem Follows.gone {w' : World} (h : Follows w w') (hgone : w.destroyed = true) :
    w'.destroyed = true := by
  obtain ⟨hdead, -⟩ | ⟨hsame, -⟩ := h.flags
  · exact hdead
  · exact hsame.trans hgone

theorem part_follows (h : w.Sized) (pw : PoolWriter) (p : Life.Part) :
    (p.run pw w).2.Sized ∧ (w.destroyed = true → (p.run pw w).2.destroyed = true) := by
  cases p with
  | established =>
    rw [Life.Part.run]
    split_ifs <;> exact ⟨h, id⟩
  | mark =>
    rw [Life.Part.run]
    split_ifs
    · exact ⟨(Follows.refl h).mark.sized, id⟩
    · exact ⟨h, id⟩
  | turn => exact ⟨(turn_follows h).sized, (turn_follows h).gone⟩
  | soon => exact ⟨h, id⟩

end Calls

end World

end SpiderNode.Net
