import SpiderNode.Net.Writes

/-!
# The callbacks of `write`

A callback is kept next to its entry and goes with what is left of it. Two writes that are joined
have one entry, and a function that is to call both callbacks; it looks for them on its own `this`,
and fails. And a string is put back twice if it is cut twice, by the pool and by the kernel, each
time with its callback.

`calledBack_of_calm` says that nothing else goes wrong: each callback is called once, in the order
of the writes, when the kernel has all bytes of its write.
-/

namespace SpiderNode.Net

open Buffer (Heap poolWriter)

/-! ## Callbacks in a queue -/

/-- The callbacks of a queue, when the first `n` bytes are gone: each is behind the bytes of its
write. -/
inductive Due : ℕ → List (ℕ × Option ℕ) → List (ℕ × ℕ) → Prop
  | nil {n : ℕ} : Due n [] []
  | none {n k : ℕ} {chunks : List (ℕ × Option ℕ)} {due : List (ℕ × ℕ)}
      (h : Due (n + k) chunks due) : Due n ((k, .none) :: chunks) due
  | some {n k id stop : ℕ} {chunks : List (ℕ × Option ℕ)} {due : List (ℕ × ℕ)}
      (hstop : stop ≤ n + k) (h : Due (n + k) chunks due) :
      Due n ((k, .some id) :: chunks) ((id, stop) :: due)

/-- A callback, if there is one, and where the bytes of its write stop. -/
def owing (cb : Option ℕ) (stop : ℕ) : List (ℕ × ℕ) := cb.toList.map fun id ↦ (id, stop)

namespace Due

variable {n k k' stop : ℕ} {c cb : Option ℕ} {chunks : List (ℕ × Option ℕ)} {due : List (ℕ × ℕ)}

theorem append {chunks' : List (ℕ × Option ℕ)} {due' : List (ℕ × ℕ)} (h : Due n chunks due)
    (h' : Due (n + (chunks.map (·.1)).sum) chunks' due') :
    Due n (chunks ++ chunks') (due ++ due') := by
  induction h with
  | nil => exact h'
  | none h ih =>
    rw [List.map_cons, List.sum_cons, ← Nat.add_assoc] at h'
    exact .none (ih h')
  | some hstop h ih =>
    rw [List.map_cons, List.sum_cons, ← Nat.add_assoc] at h'
    exact .some hstop (ih h')

theorem split {chunks' : List (ℕ × Option ℕ)} (h : Due n (chunks ++ chunks') due) :
    ∃ due₁ due₂, due = due₁ ++ due₂ ∧ Due n chunks due₁ ∧
      Due (n + (chunks.map (·.1)).sum) chunks' due₂ := by
  induction chunks generalizing n due with
  | nil => exact ⟨[], due, rfl, .nil, h⟩
  | cons chunk chunks ih =>
    rw [List.map_cons, List.sum_cons, ← Nat.add_assoc]
    cases h with
    | none h =>
      obtain ⟨due₁, due₂, rfl, h₁, h₂⟩ := ih h
      exact ⟨due₁, due₂, rfl, .none h₁, h₂⟩
    | @some _ _ id stop _ _ hstop h =>
      obtain ⟨due₁, due₂, rfl, h₁, h₂⟩ := ih h
      exact ⟨(id, stop) :: due₁, due₂, rfl, .some hstop h₁, h₂⟩

theorem single (hstop : stop ≤ n + k) : Due n [(k, cb)] (owing cb stop) := by
  cases cb with
  | none => exact .none .nil
  | some id => exact .some hstop .nil

/-- An entry of its own. -/
theorem push (h : Due n chunks due) (k : ℕ) (cb : Option ℕ) :
    Due n (chunks ++ [(k, cb)]) (due ++ owing cb (n + (chunks.map (·.1)).sum + k)) :=
  h.append (single (Nat.le_refl _))

/-- An entry that is joined to the last one. There is one callback at most. -/
theorem join (h : Due n (chunks ++ [(k, c)]) due) (hone : cb = .none ∨ c = .none) :
    Due n (chunks ++ [(k + k', cb.or c)])
      (due ++ owing cb (n + (chunks.map (·.1)).sum + (k + k'))) := by
  obtain ⟨due₁, due₂, rfl, h₁, h₂⟩ := h.split
  rw [List.append_assoc]
  refine h₁.append ?_
  obtain rfl | rfl := hone
  · cases h₂ with
    | none h₂ =>
      cases h₂
      exact .none .nil
    | some hstop h₂ =>
      cases h₂
      exact .some (by omega) .nil
  · cases h₂ with
    | none h₂ =>
      cases h₂
      rw [Option.or_none]
      exact single (Nat.le_refl _)

/-- The first entry is gone. -/
theorem take (h : Due n ((k, c) :: chunks) due) :
    ∃ done due', due = done ++ due' ∧ done.map (·.1) = c.toList ∧ (∀ e ∈ done, e.2 ≤ n + k) ∧
      Due (n + k) chunks due' := by
  cases h with
  | none h => exact ⟨[], due, rfl, rfl, fun e he ↦ (by cases he), h⟩
  | @some _ _ id stop _ due' hstop h =>
    refine ⟨[(id, stop)], due', rfl, rfl, fun e he ↦ ?_, h⟩
    rw [List.mem_singleton.mp he]
    exact hstop

theorem silent (front : List ℕ) (h : Due (n + front.sum) chunks due) :
    Due n (front.map (·, .none) ++ chunks) due := by
  induction front generalizing n with
  | nil => exact h
  | cons k front ih =>
    rw [List.sum_cons, ← Nat.add_assoc] at h
    exact .none (ih h)

/-- Some of the first entry is gone, and the rest is one entry, or more if there is no callback. -/
theorem left {b : ℕ} {front : List ℕ} (h : Due n ((k, c) :: chunks) due) (hsum : b + front.sum = k)
    (hfront : front ≠ []) (hone : front.length ≠ 1 → c = .none) :
    Due (n + b) (front.map (·, c) ++ chunks) due := by
  subst hsum
  cases h with
  | none h =>
    rw [← Nat.add_assoc] at h
    exact silent front h
  | some hstop h =>
    rw [← Nat.add_assoc] at hstop h
    obtain ⟨x, rfl⟩ : ∃ x, front = [x] := by
      refine List.length_eq_one_iff.mp (by_contra fun hne ↦ ?_)
      cases hone hne
    exact .some hstop h

end Due

namespace Tracked

variable {m : Heap} {s t : Tracked} {ended : Bool}

/-- How many bytes an entry has. -/
def entryLength (i : Data × Option Encoding) : ℕ :=
  match i.1 with
  | .buf b => b.length
  | .str t => (encodeText (textArg i.2) t).length

theorem length_entryBytes (p : Pool) (i : Data × Option Encoding) :
    (World.entryBytes p i).length = entryLength i := by
  obtain ⟨d, encoding⟩ := i
  cases d with
  | buf b => exact Buf.length_read p b
  | str t => rfl

/-- The callbacks of some writes, each with the end of the bytes of its write. -/
def promised (writes : List Write) : List (ℕ × ℕ) := writes.flatMap fun w ↦ owing w.cb w.stop

/-- A condition on steps: two writes that are joined do not both have a callback, and a string with
a callback is not cut twice. -/
def Calm (s : Tracked) (ev : SocketEvent) : Prop :=
  s.Exact ev ∧
    match ev with
    | .write d encoding _ cb =>
      (s.Waits → cb = none ∨ s.world.joinable d encoding = none ∨
        s.world.writeQueueCallbacks.getLast?.join = none) ∧
      (¬s.Waits → cb = none ∨ ¬s.world.SplitsTwice d encoding)
    | .part .turn =>
      ∀ d rest, s.world.writeQueue = .data d :: rest →
        s.world.writeQueueCallbacks.head?.join = none ∨
          ¬s.world.SplitsTwice d s.world.writeQueueEncoding.head?.join
    | _ => True

/-- The callbacks that have been called are those of the first writes, and each of these has been
accepted by the kernel; all of them if nothing is queued. No call has failed because of the
queues. -/
def CalledBack (s : Tracked) : Prop :=
  ∃ n, s.world.called = ((promised s.writes).take n).map (·.1) ∧
    (∀ e ∈ (promised s.writes).take n, e.2 ≤ s.world.sent.length) ∧
    s.world.sent <+: s.accepted ∧
    (s.world.writeQueue = [] → (promised s.writes).take n = promised s.writes) ∧
    .typeError ∉ s.thrown

/-- The lengths of the entries with their callbacks. -/
def chunks (pairs : List ((Data × Option Encoding) × Option ℕ)) : List (ℕ × Option ℕ) :=
  pairs.map fun e ↦ (entryLength e.1, e.2)

/-- The callbacks of an open socket, called and queued. -/
structure Owing (s : Tracked) (pairs : List ((Data × Option Encoding) × Option ℕ)) (ended : Bool) :
    Prop where
  kept : s.Kept (pairs.map (·.1)) ended
  callbacks : s.world.writeQueueCallbacks = pairs.map (·.2.map .user)
  ledger : ∃ done due, promised s.writes = done ++ due ∧ s.world.called = done.map (·.1) ∧
    (∀ e ∈ done, e.2 ≤ s.world.sent.length) ∧
    Due s.world.sent.length (chunks pairs) due
  thrown : .typeError ∉ s.thrown

/-- All callbacks have been called, and there will be no more. -/
structure Settled (s : Tracked) : Prop where
  done : s.world.Done
  called : s.world.called = (promised s.writes).map (·.1)
  stop : ∀ e ∈ promised s.writes, e.2 ≤ s.world.sent.length
  sent : s.world.sent = s.accepted
  thrown : .typeError ∉ s.thrown

/-- The life of a socket. -/
inductive Phase (s : Tracked) : Prop
  | owing {pairs : List ((Data × Option Encoding) × Option ℕ)} {ended : Bool}
      (h : s.Owing pairs ended)
  | settled (h : s.Settled)
  | gone (h : s.world.destroyed = true)

/-! ## One event -/

section Step

variable {pairs : List ((Data × Option Encoding) × Option ℕ)} {ev : SocketEvent}

theorem promised_concat (writes : List Write) (start stop : ℕ) (fd cb : Option ℕ) :
    promised (writes ++ [⟨start, stop, fd, cb⟩]) = promised writes ++ owing cb stop := by
  rw [promised, List.flatMap_append, List.flatMap_singleton]
  rfl

theorem Kept.length {entries : List (Data × Option Encoding)} (h : s.Kept entries ended) :
    s.accepted.length = s.world.sent.length + (entries.map entryLength).sum := by
  rw [← h.bytes, List.length_append, List.length_flatMap]
  simp only [length_entryBytes]

theorem map_fst_chunks (pairs : List ((Data × Option Encoding) × Option ℕ)) :
    (chunks pairs).map (·.1) = (pairs.map (·.1)).map entryLength := by
  rw [chunks, List.map_map, List.map_map]
  rfl

/-- What `_writeOut` is called for, with its callback, is in front of the queue, or it might be. -/
theorem Owing.load (h : s.Owing pairs ended) {l : Load} (hload : Loads s (pairs.map (·.1)) ev l) :
    ∃ (c : Option ℕ) (rest : List ((Data × Option Encoding) × Option ℕ)), l.cb = c.map .user ∧
      l.rest = rest.map (·.1) ∧ l.callbacks = rest.map (·.2.map .user) ∧
      ∃ done due, promised l.writes = done ++ due ∧ s.world.called = done.map (·.1) ∧
        (∀ e ∈ done, e.2 ≤ s.world.sent.length) ∧
        Due s.world.sent.length ((entryLength l.entry, c) :: chunks rest) due := by
  obtain ⟨done, due, hpromised, hcalled, hstop, hdue⟩ := h.ledger
  cases hload with
  | turn hev hentries =>
    obtain ⟨⟨i, c⟩, rest, rfl, hi, hrest⟩ := List.map_eq_cons_iff.mp hentries
    refine ⟨c, rest, ?_, hrest.symm, ?_, done, due, hpromised, hcalled, hstop, hi ▸ hdue⟩
    · rw [h.callbacks]
      rfl
    · rw [h.callbacks]
      rfl
  | @write i fd cb hev hentries =>
    obtain rfl : pairs = [] := List.map_eq_nil_iff.mp hentries
    have hlength := h.kept.length
    refine ⟨cb, [], rfl, rfl, h.callbacks, done,
      due ++ owing cb (s.accepted ++ World.entryBytes s.world.pool i).length, ?_, hcalled, hstop,
      ?_⟩
    · rw [promised_concat, hpromised, List.append_assoc]
    · cases hdue
      refine Due.single ?_
      change (s.accepted ++ _).length ≤ s.world.sent.length + entryLength i
      rw [List.length_append, length_entryBytes]
      simp only [List.map_nil, List.sum_nil] at hlength
      omega

theorem Owing.whole (h : s.Owing pairs ended) {l : Load} (hload : Loads s (pairs.map (·.1)) ev l)
    {ended' : Bool} (hkept : t.Kept l.rest ended')
    (hsent : t.world.sent = s.world.sent ++ World.entryBytes s.world.pool l.entry)
    (hcallbacks : t.world.writeQueueCallbacks = l.callbacks)
    (hcalled : t.world.called = s.world.called ++ World.ran l.cb)
    (hthrown : .typeError ∈ t.thrown →
      .typeError ∈ s.thrown ∨ ∃ last id, l.cb = some (.joined last id))
    (hwrites : t.writes = l.writes) : ∃ pairs', t.Owing pairs' ended' := by
  obtain ⟨c, rest, hcb, hrest, hrest', done, due, hpromised, hcalled', hstop, hdue⟩ := h.load hload
  obtain ⟨now, due', rfl, hnow, hstop', hdue'⟩ := hdue.take
  have hlength : t.world.sent.length = s.world.sent.length + entryLength l.entry := by
    rw [hsent, List.length_append, length_entryBytes]
  refine ⟨rest, hrest ▸ hkept, hcallbacks.trans hrest', ⟨done ++ now, due', ?_, ?_, ?_, ?_⟩, ?_⟩
  · rw [hwrites, hpromised, List.append_assoc]
  · rw [hcalled, hcalled', hcb, List.map_append, hnow]
    cases c <;> rfl
  · intro e he
    rw [hlength]
    obtain he | he := List.mem_append.mp he
    · exact (hstop e he).trans (Nat.le_add_right _ _)
    · exact hstop' e he
  · rw [hlength]
    exact hdue'
  · intro hthrows
    obtain hold | ⟨last, id, hjoined⟩ := hthrown hthrows
    · exact h.thrown hold
    · rw [hcb] at hjoined
      cases c <;> cases hjoined

theorem Owing.left (h : s.Owing pairs ended) {l : Load} (hload : Loads s (pairs.map (·.1)) ev l)
    {front : List (Data × Option Encoding)} {b : Bytes} {ended' : Bool}
    (hkept : t.Kept (front ++ l.rest) ended')
    (hfront : front ≠ []) (hsent : t.world.sent = s.world.sent ++ b)
    (hbytes :
      b ++ front.flatMap (World.entryBytes t.world.pool) = World.entryBytes s.world.pool l.entry)
    (hcallbacks : t.world.writeQueueCallbacks = List.replicate front.length l.cb ++ l.callbacks)
    (hcalled : t.world.called = s.world.called)
    (hthrown : .typeError ∈ t.thrown → .typeError ∈ s.thrown) (hwrites : t.writes = l.writes)
    (hone : front.length ≠ 1 → l.cb = none) : ∃ pairs', t.Owing pairs' ended' := by
  obtain ⟨c, rest, hcb, hrest, hrest', done, due, hpromised, hcalled', hstop, hdue⟩ := h.load hload
  have hlength : t.world.sent.length = s.world.sent.length + b.length := by
    rw [hsent, List.length_append]
  have hsum : b.length + (front.map entryLength).sum = entryLength l.entry := by
    rw [← length_entryBytes s.world.pool, ← hbytes, List.length_append, List.length_flatMap]
    simp only [length_entryBytes]
  refine ⟨front.map (·, c) ++ rest, ?_, ?_, ⟨done, due, ?_, ?_, ?_, ?_⟩, fun hthrows ↦
    h.thrown (hthrown hthrows)⟩
  · have hfst : (front.map (·, c) ++ rest).map (·.1) = front ++ rest.map (·.1) := by
      rw [List.map_append, List.map_map]
      exact congrArg (· ++ _) (List.map_id front)
    rw [hfst, ← hrest]
    exact hkept
  · rw [hcallbacks, hrest', hcb, List.map_append, List.map_map]
    exact congrArg (· ++ _) List.map_const.symm
  · rw [hwrites, hpromised]
  · rw [hcalled, hcalled']
  · exact fun e he ↦ (hstop e he).trans (hlength ▸ Nat.le_add_right _ _)
  · have hleft := hdue.left hsum (List.map_eq_nil_iff.not.mpr hfront) fun hne ↦ ?_
    · rw [hlength, chunks, List.map_append, List.map_map]
      rw [List.map_map] at hleft
      exact hleft
    · rw [List.length_map] at hne
      have hnone := hone hne
      rw [hcb] at hnone
      exact Option.map_eq_none_iff.mp hnone

theorem Owing.pushed (h : s.Owing pairs ended) {i : Data × Option Encoding} {fd cb : Option ℕ}
    (hkept : t.Kept (pairs.map (·.1) ++ [i]) false) (hquiet : Quiet s t)
    (hcallbacks : t.world.writeQueueCallbacks = s.world.writeQueueCallbacks ++ [cb.map .user])
    (haccepted : t.accepted = s.accepted ++ World.entryBytes s.world.pool i)
    (hwrites : t.writes = s.writes ++ [⟨s.accepted.length, t.accepted.length, fd, cb⟩]) :
    t.Owing (pairs ++ [(i, cb)]) false := by
  obtain ⟨done, due, hpromised, hcalled, hstop, hdue⟩ := h.ledger
  have hlength := h.kept.length
  have hend : t.accepted.length =
      s.world.sent.length + ((chunks pairs).map (·.1)).sum + entryLength i := by
    rw [haccepted, List.length_append, length_entryBytes, hlength, map_fst_chunks]
  refine ⟨?_, ?_, ⟨done, due ++ owing cb t.accepted.length, ?_, ?_, ?_, ?_⟩, fun hthrows ↦
    h.thrown (hquiet.thrown hthrows)⟩
  · rw [List.map_append]
    exact hkept
  · rw [hcallbacks, h.callbacks, List.map_append]
    rfl
  · rw [hwrites, promised_concat, hpromised, List.append_assoc]
  · rw [hquiet.called, hcalled]
  · rw [hquiet.sent]
    exact hstop
  · rw [hquiet.sent, hend, chunks, List.map_append]
    exact hdue.push _ _

/-- The callback that is left when a write is joined to the last entry. -/
theorem joinCallback_concat {w : World} (front : List (Option Callback)) {c : Option ℕ}
    (cb : Option ℕ) (hcallbacks : w.writeQueueCallbacks = front ++ [c.map .user])
    (hqueue : w.writeQueue.length = front.length + 1) (hone : cb = none ∨ c = none) :
    w.joinCallback (cb.map .user) = front ++ [(cb.or c).map .user] := by
  obtain rfl | rfl := hone
  · exact hcallbacks
  · cases cb with
    | none => exact hcallbacks
    | some id =>
      simp only [World.joinCallback, hcallbacks, hqueue, Option.map_some, Option.map_none,
        Nat.add_sub_cancel, Option.or_none]
      rw [if_pos]
      · simp
      · simp

theorem Owing.joined (h : s.Owing pairs ended) {l : List (Data × Option Encoding)} {u v : JSString}
    {encoding : Option Encoding} {fd cb : Option ℕ}
    (hjoinable : s.world.joinable (.str v) encoding = some (u, v))
    (hentries : pairs.map (·.1) = l ++ [(.str u, encoding)])
    (hkept : t.Kept (l ++ [(.str (u ++ v), encoding)]) false) (hquiet : Quiet s t)
    (hcallbacks : t.world.writeQueueCallbacks = s.world.joinCallback (cb.map .user))
    (haccepted : t.accepted = s.accepted ++ encodeText (textArg encoding) v)
    (hwrites : t.writes = s.writes ++ [⟨s.accepted.length, t.accepted.length, fd, cb⟩])
    (hone : cb = none ∨ s.world.writeQueueCallbacks.getLast?.join = none) :
    ∃ pairs', t.Owing pairs' false := by
  obtain ⟨done, due, hpromised, hcalled, hstop, hdue⟩ := h.ledger
  have hlength := h.kept.length
  have hqueue := h.kept.queues.queue
  have htext : World.Sendable encoding u :=
    h.kept.sound (.str u, encoding) (hentries ▸ List.mem_append_right _ List.mem_cons_self)
  obtain ⟨front, last, rfl, rfl, hlast⟩ := List.map_eq_append_iff.mp hentries
  obtain ⟨⟨i, c⟩, rfl, rfl⟩ := List.map_eq_singleton_iff.mp hlast
  have hnone : cb = none ∨ c = none := by
    refine hone.imp_right fun hnone ↦ ?_
    rw [h.callbacks, List.map_append, List.map_singleton, List.getLast?_concat] at hnone
    exact Option.map_eq_none_iff.mp hnone
  have hended : ended = false := by
    obtain ⟨q, -, hq, -⟩ := World.joinable_cases hjoinable
    cases ended with
    | false => rfl
    | true =>
      rw [hq, if_pos rfl] at hqueue
      have hlast := congrArg List.getLast? hqueue
      simp at hlast
  subst hended
  have hjoined := joinCallback_concat (front.map (·.2.map .user)) (c := c) cb
    (by rw [h.callbacks, List.map_append]; rfl) (by rw [hqueue]; simp) hnone
  have hadded : entryLength (.str (u ++ v), encoding) =
      entryLength (.str u, encoding) + (encodeText (textArg encoding) v).length := by
    change (encodeText (textArg encoding) (u ++ v)).length = _
    rw [encodeText_append htext.encodable, List.length_append]
    rfl
  have hend : t.accepted.length = s.world.sent.length + ((chunks front).map (·.1)).sum +
      (entryLength (.str u, encoding) + (encodeText (textArg encoding) v).length) := by
    rw [haccepted, List.length_append, hlength, map_fst_chunks]
    simp only [List.map_append, List.map_cons, List.map_nil, List.sum_append, List.sum_cons,
      List.sum_nil]
    omega
  refine ⟨front ++ [((.str (u ++ v), encoding), cb.or c)], ?_, ?_,
    ⟨done, due ++ owing cb t.accepted.length, ?_, ?_, ?_, ?_⟩, fun hthrows ↦
    h.thrown (hquiet.thrown hthrows)⟩
  · rw [List.map_append]
    exact hkept
  · rw [hcallbacks, hjoined, List.map_append]
    rfl
  · rw [hwrites, promised_concat, hpromised, List.append_assoc]
  · rw [hquiet.called, hcalled]
  · rw [hquiet.sent]
    exact hstop
  · rw [chunks, List.map_append] at hdue
    rw [hquiet.sent, hend, chunks, List.map_append, List.map_singleton, hadded]
    exact hdue.join hnone

/-- One event. -/
theorem Owing.advance (h : s.Owing pairs ended) (hcalm : s.Calm ev)
    (hadvance : Advance s (pairs.map (·.1)) ev t) : t.Phase := by
  cases hadvance with
  | gone hgone => exact .gone hgone
  | done hentries hdone hquiet haccepted hwrites =>
    obtain rfl : pairs = [] := List.map_eq_nil_iff.mp hentries
    obtain ⟨done, due, hpromised, hcalled, hstop, hdue⟩ := h.ledger
    have hbytes := h.kept.bytes
    cases hdue
    rw [List.append_nil] at hpromised
    refine .settled ⟨hdone, ?_, ?_, ?_, fun hthrows ↦ h.thrown (hquiet.thrown hthrows)⟩
    · rw [hwrites, hpromised, hquiet.called, hcalled]
    · rw [hwrites, hpromised, hquiet.sent]
      exact hstop
    · rw [hquiet.sent, haccepted, ← hbytes]
      exact (List.append_nil _).symm
  | idle hkept hquiet hcallbacks hfds haccepted hwrites =>
    obtain ⟨done, due, hpromised, hcalled, hstop, hdue⟩ := h.ledger
    refine .owing ⟨hkept, hcallbacks.trans h.callbacks, ⟨done, due, ?_, ?_, ?_, ?_⟩, fun hthrows ↦
      h.thrown (hquiet.thrown hthrows)⟩
    · rw [hwrites, hpromised]
    · rw [hquiet.called, hcalled]
    · rw [hquiet.sent]
      exact hstop
    · rw [hquiet.sent]
      exact hdue
  | pushed hev hwaits hjoinable hkept hquiet hcallbacks hfds haccepted hwrites =>
    exact .owing (h.pushed hkept hquiet hcallbacks haccepted hwrites)
  | joined hev hwaits hjoinable hentries hkept hquiet hcallbacks hfds haccepted hwrites =>
    subst hev
    have hone := hcalm.2.1 hwaits
    rw [hjoinable] at hone
    have hone' := hone.imp_right fun h ↦ h.resolve_left fun he ↦ by cases he
    obtain ⟨pairs', hnext⟩ := h.joined hjoinable hentries hkept hquiet hcallbacks haccepted hwrites
      hone'
    exact .owing hnext
  | whole hload hkept hsent hcallbacks hfds hcalled hpassed hthrown haccepted hwrites =>
    obtain ⟨pairs', hnext⟩ := h.whole hload hkept hsent hcallbacks hcalled hthrown hwrites
    exact .owing hnext
  | left hload hkept hfront hsent hbytes hcallbacks hfds hcalled hpassed hthrown haccepted hwrites
      htwo hpart =>
    refine .owing (h.left hload hkept hfront hsent hbytes hcallbacks hcalled hthrown hwrites
      fun hne ↦ ?_).choose_spec
    have htwice := htwo hne
    cases hload with
    | @turn i rest hev hentries =>
      subst hev
      have hqueue := h.kept.queues.queue
      have hencodings := h.kept.queues.encodings
      rw [hentries] at hqueue hencodings
      have hone := hcalm.2 i.1 _ hqueue
      rw [hencodings] at hone
      exact hone.resolve_right fun hnot ↦ hnot htwice
    | write hev hentries hidle =>
      subst hev
      obtain rfl := (hcalm.2.2 hidle).resolve_right fun hnot ↦ hnot htwice
      rfl

theorem Phase.step (m : Heap) (h : s.Phase) (hsized : s.world.Sized) (hallows : s.Allows ev)
    (hcalm : s.Calm ev) : (s.step (poolWriter m) ev).Phase := by
  cases h with
  | owing h => exact h.advance hcalm (Tracked.advance m h.kept hallows hcalm.1)
  | gone h => exact .gone ((step_sized (poolWriter m) hsized ev).2 h)
  | settled h =>
    obtain hgone | ⟨hdone, hquiet, haccepted, hwrites⟩ := step_done (poolWriter m) h.done ev
    · exact .gone hgone
    · refine .settled ⟨hdone, ?_, ?_, ?_, fun hthrows ↦ h.thrown (hquiet.thrown hthrows)⟩
      · rw [hquiet.called, hwrites]
        exact h.called
      · rw [hquiet.sent, hwrites]
        exact h.stop
      · rw [hquiet.sent, haccepted]
        exact h.sent

theorem Phase.calledBack (h : s.Phase) (halive : s.world.destroyed = false) : s.CalledBack := by
  cases h with
  | gone h => cases h.symm.trans halive
  | settled h =>
    refine ⟨(promised s.writes).length, ?_, ?_, h.sent ▸ List.prefix_refl _, fun _ ↦
      List.take_length, h.thrown⟩
    · rw [List.take_length]
      exact h.called
    · rw [List.take_length]
      exact h.stop
  | @owing pairs ended h =>
    obtain ⟨done, due, hpromised, hcalled, hstop, hdue⟩ := h.ledger
    have htake : (promised s.writes).take done.length = done := by rw [hpromised, List.take_left]
    refine ⟨done.length, htake.symm ▸ hcalled, htake.symm ▸ hstop, ⟨_, h.kept.bytes⟩, fun hnil ↦ ?_,
      h.thrown⟩
    have hqueue := h.kept.queues.queue
    rw [hnil] at hqueue
    obtain rfl : pairs = [] :=
      List.map_eq_nil_iff.mp (List.map_eq_nil_iff.mp (List.append_eq_nil_iff.mp hqueue.symm).1)
    cases hdue
    rw [htake, hpromised, List.append_nil]

/-- In every run in which no two callbacks are joined and no string with a callback is cut twice,
each callback is called once. -/
theorem calledBack_of_calm (m : Heap) (type : SocketType) (connecting readable : Bool) (pool : Pool)
    (kernel : ℕ → KernelReply)
    (h : ((machine (poolWriter m)).restrict Calm).Reaches
      (start type connecting readable pool kernel) s) (halive : s.world.destroyed = false) :
    s.CalledBack := by
  have hboth : s.Phase ∧ s.world.Sized := by
    refine h.invariant (p := fun s ↦ s.Phase ∧ s.world.Sized) ⟨?_, rfl⟩ ?_
    · have howing : (start type connecting readable pool kernel).Owing [] false :=
        ⟨start_kept type connecting readable pool kernel, rfl,
          ⟨[], [], rfl, rfl, fun e he ↦ (by cases he), .nil⟩, fun he ↦ by cases he⟩
      exact .owing howing
    · rintro s t ev ⟨hphase, hsized⟩ ⟨hallows, hcalm⟩ ht
      obtain rfl := Except.ok.inj ht
      exact ⟨hphase.step m hsized hallows hcalm, (step_sized _ hsized ev).1⟩
  exact hboth.1.calledBack halive

/-- A socket that is connecting; each system call will take a byte. -/
def connectingSocket : Tracked := start .tcp true true ⟨fun _ _ ↦ 0, 0, 0⟩ fun _ ↦ .wrote 1

theorem reaches_calm {s₀ : Tracked} (ev : SocketEvent)
    (h : ((machine (poolWriter m)).restrict Calm).Reaches s₀ s) (hallows : s.Allows ev)
    (hcalm : s.Calm ev) :
    ((machine (poolWriter m)).restrict Calm).Reaches s₀ (s.step (poolWriter m) ev) :=
  h.step ⟨hallows, hcalm⟩ rfl

/-- A buffer that is written before there is a connection, and sent byte by byte. -/
theorem calledBack_of_calm_bytes : ∃ s : Tracked, s.CalledBack ∧ s.world.called = [7] ∧
    s.world.sent = [1, 2] := by
  have hinit : ((machine (poolWriter Sockets.blankHeap)).restrict Calm).Reaches connectingSocket
      connectingSocket := .init
  have hwrite := reaches_calm (.write (.buf (.own [1, 2])) none none (some 7)) hinit trivial
    ⟨trivial, fun _ ↦ .inr (.inl rfl), fun hidle ↦ absurd (.inl rfl) hidle⟩
  have hopen := reaches_calm (.part .established) hwrite trivial ⟨trivial, trivial⟩
  have hsplits (s : Tracked) (b : Buf) (encoding : Option Encoding) :
      ¬s.world.SplitsTwice (.buf b) encoding := by
    rintro ⟨⟨t, ht, -⟩, -⟩
    cases ht
  have hturn := reaches_calm (.part .turn) hopen trivial
    ⟨fun t rest hq ↦ (by cases hq), fun d rest hq ↦ (by cases hq; exact .inr (hsplits _ _ _))⟩
  have hturn' := reaches_calm (.part .turn) hturn trivial
    ⟨fun t rest hq ↦ (by cases hq), fun d rest hq ↦ (by cases hq; exact .inr (hsplits _ _ _))⟩
  exact ⟨_, calledBack_of_calm _ _ _ _ _ _ hturn' rfl, rfl, rfl⟩

/-- Two strings that are written before there is a connection. -/
theorem joined_not_called : ∃ s : Tracked,
    (machine (poolWriter Sockets.blankHeap)).Reaches connectingSocket s ∧
      s.world.destroyed = false ∧ s.world.writeQueue = [] ∧ s.world.sent = [0x61, 0x62] ∧
      s.world.called = [] ∧ s.thrown = [.typeError] ∧ ¬s.CalledBack := by
  have hstep {s : Tracked} (ev : SocketEvent)
      (h : (machine (poolWriter Sockets.blankHeap)).Reaches connectingSocket s)
      (hallows : s.Allows ev) :
      (machine (poolWriter Sockets.blankHeap)).Reaches connectingSocket
        (s.step (poolWriter Sockets.blankHeap) ev) := h.step hallows rfl
  have hfirst := hstep (.write (.str [0x61]) none none (some 1)) .init trivial
  have hsecond := hstep (.write (.str [0x62]) none none (some 2)) hfirst trivial
  have hopen := hstep (.part .established) hsecond trivial
  have hturn := hstep (.part .turn) hopen trivial
  have hturn' := hstep (.part .turn) hturn trivial
  exact ⟨_, hturn', rfl, rfl, rfl, rfl, rfl, fun ⟨_, _, _, _, _, hthrown⟩ ↦
    hthrown (List.mem_singleton_self _)⟩

end Step

end Tracked

end SpiderNode.Net
