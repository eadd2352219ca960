import SpiderNode.Net.Callbacks

/-!
# The descriptors of a socket

On a unix socket a write may pass a descriptor, which is to go with its bytes. If the write waits,
then so does the descriptor, on `_writeQueueFD`. But `flush` shifts that queue with the others,
while a write without a descriptor leaves it alone, and so does a part of the data that is put back.
From then on the descriptors behind go with what is in front of their own data.

In a run that avoids this (`Straight`), `_writeQueueFD` has the descriptors of the entries, up to
the last one that has any.
-/

namespace SpiderNode.Net

open Buffer (Heap poolWriter)

/-! ## The kind of a socket -/

namespace World

variable {w : World} {pw : PoolWriter}

theorem destroy_type (w : World) : w.destroy.2.type = w.type := by
  rw [destroy]
  split_ifs <;> rfl

theorem handOver_type (w : World) (st : Staged) (fd : Option ℕ) (cb : Option Callback) :
    (w.handOver st fd cb).2.type = w.type := by
  have hres := handOver_result w st fd cb
  generalize w.handOver st fd cb = r at hres ⊢
  cases hres with
  | failed calls => exact destroy_type _
  | queued calls fds => rfl
  | whole calls fds => rcases cb with _ | _ | _ <;> rfl
  | cut calls k fds => rfl

theorem writeOut_type (pw : PoolWriter) (w : World) (d : Data) (encoding : Option Encoding)
    (fd : Option ℕ) (cb : Option Callback) : (w.writeOut pw d encoding fd cb).2.type = w.type := by
  rw [writeOut]
  split_ifs
  · have hres := stage_result pw w d encoding cb
    generalize w.stage pw d encoding cb = r at hres ⊢
    cases hres with
    | failed e => rfl
    | buffer b => exact handOver_type ..
    | whole s st r => exact handOver_type ..
    | split s st r => exact handOver_type ..
  · rfl

theorem shutdown_type (w : World) : w.shutdown.2.type = w.type := by
  rw [shutdown]
  split_ifs
  · dsimp only
    split_ifs
    · split
      · exact destroy_type _
      · rfl
    · exact destroy_type _
  · rfl

theorem turn_type (pw : PoolWriter) (w : World) : (w.turn pw).2.type = w.type := by
  rw [turn]
  split
  · rfl
  · next entry rest hq =>
    cases entry with
    | endOfFile =>
      have htype := shutdown_type (w.shiftQueues rest)
      dsimp only
      generalize (w.shiftQueues rest).shutdown = r at htype ⊢
      obtain ⟨o, v⟩ := r
      cases o <;> exact htype
    | data d =>
      have htype := writeOut_type pw (w.taking d rest) d w.writeQueueEncoding.head?.join
        w.writeQueueFD.head?.join w.writeQueueCallbacks.head?.join
      dsimp only
      generalize (w.taking d rest).writeOut pw d w.writeQueueEncoding.head?.join
        w.writeQueueFD.head?.join w.writeQueueCallbacks.head?.join = r at htype ⊢
      obtain ⟨o, v⟩ := r
      rcases o with _ | _ | _ <;> exact htype

theorem part_type (pw : PoolWriter) (w : World) (p : Life.Part) :
    (p.run pw w).2.type = w.type := by
  cases p with
  | established =>
    rw [Life.Part.run]
    split_ifs <;> rfl
  | mark =>
    rw [Life.Part.run]
    split_ifs <;> rfl
  | turn => exact turn_type pw w
  | soon => rfl

theorem write_type (pw : PoolWriter) (w : World) (d : Data) (encoding : Option Encoding)
    (fd : Option ℕ) (cb : Option Callback) : (w.write pw d encoding fd cb).2.type = w.type := by
  rw [write]
  split_ifs
  · rfl
  · rfl
  · have hres := enqueue_result w d encoding fd cb
    dsimp only
    generalize w.enqueue d encoding fd cb = v at hres ⊢
    cases hres <;> rfl
  · exact writeOut_type ..

/-- A descriptor is refused without data. -/
theorem handOver_gone (hunix : w.type = .unix) (hsize : 0 ≤ w.bufferSize) {st : Staged} {f : ℕ}
    (hrefused : f ≠ 0 ∧ st.len = 0 ∨ st.buffer.length ≤ st.off) (cb : Option Callback) :
    (w.handOver st (some f) cb).2.destroyed = true := by
  have hwrite : ∃ e, w.writeImpl st.buffer st.off st.len (some f) = (.error e, w) := by
    by_cases hno : w.type = .unix ∧ (some f).getD 0 ≠ 0 ∧ noData st.buffer st.off st.len
    · exact ⟨_, by rw [writeImpl, if_pos hno]⟩
    · have hoff : st.buffer.length ≤ st.off := by
        refine hrefused.resolve_left fun hempty ↦ hno ⟨hunix, hempty.1, ?_⟩
        simp [noData, hempty.2]
      exact ⟨_, by rw [writeImpl, if_neg hno, if_pos hoff]⟩
  obtain ⟨e, he⟩ := hwrite
  have hdestroy : w.destroy = (.ok (), w.destroy.2) ∧ w.destroy.2.destroyed = true := by
    rw [destroy, if_neg (by omega)]
    exact ⟨rfl, rfl⟩
  rw [handOver, he]
  dsimp only
  rw [hdestroy.1]
  exact hdestroy.2

/-- So is the entry. -/
theorem writeOut_gone (m : Heap) {items : List (Data × Option Encoding)} {ended : Bool}
    (h : w.Queues items ended) (hunix : w.type = .unix) {d : Data} {encoding : Option Encoding}
    (hd : Sound w.pool (d, encoding))
    (hfits : ∀ t, d = .str t → FitsPool encoding t w.pool.ensure.room) {f : ℕ}
    (hzero : f = 0 → d ≠ .str []) (hempty : dataBytes w.pool d encoding = [])
    (cb : Option Callback) :
    (w.writeOut (poolWriter m) d encoding (some f) cb).2.destroyed = true := by
  have hsize : 0 ≤ w.bufferSize := by
    rw [h.size]
    exact Int.natCast_nonneg _
  rw [writeOut, if_neg (not_not_intro h.writable)]
  cases d with
  | buf b =>
    have hlen : b.length = 0 := by
      rw [← Buf.length_read w.pool b]
      exact List.length_eq_zero_iff.mpr hempty
    exact handOver_gone hunix hsize (.inr hlen.le) cb
  | str t =>
    have hroom := w.pool.kMinPoolSpace_le_room_ensure
    rw [kMinPoolSpace] at hroom
    have hsend : Sendable encoding t := hd
    have hstores := stores_of_sendable m hsend (hfits t rfl) (by omega)
    have hok := stage_of_stores hstores cb
    -- what goes into the pool is a part of nothing
    have hnil : encodeText (textArg encoding)
        (t.take (portion encoding t w.pool.ensure.room)) = [] := by
      have happend := (hsend.encodeText_portion w.pool.ensure.room).trans hempty
      exact (List.append_eq_nil_iff.mp happend).1
    have ht : t = [] := by_contra fun ht ↦ hstores.some ht hnil
    have hf : f ≠ 0 := fun hf ↦ hzero hf (congrArg Data.str ht)
    rw [hnil] at hstores
    have hstage := stage_result (poolWriter m) w (.str t) encoding cb
    generalize w.stage (poolWriter m) (.str t) encoding cb = r at hstage hok ⊢
    cases hstage with
    | failed e => exact absurd rfl (hok e)
    | buffer b hd' => cases hd'
    | whole t' st r' hd' hst =>
      cases hd'
      obtain ⟨-, hlen, -⟩ := hst.stagedFor hstores
        (w := { w with pool := stagePool (poolWriter m) w.pool encoding (.str t) }) rfl
      exact handOver_gone
        (w := { w with pool := stagePool (poolWriter m) w.pool encoding (.str t) }) hunix hsize
        (.inl ⟨hf, hlen⟩) cb
    | split t' st r' hd' hst =>
      cases hd'
      obtain ⟨-, hlen, -⟩ := hst.stagedFor hstores
        (w := { w with pool := stagePool (poolWriter m) w.pool encoding (.str t) }) rfl
      refine handOver_gone
        (w := unshift { w with pool := stagePool (poolWriter m) w.pool encoding (.str t) }
          (.str (t.drop (charsWritten encoding r').toNat)) encoding cb) hunix ?_
        (.inl ⟨hf, hlen⟩) cb
      exact Int.add_nonneg hsize (Int.natCast_nonneg _)

end World

/-! ## Which descriptors are where -/

/-- `_writeQueueFD` has the descriptors of the entries, and may lack the last ones if these are
none. -/
def Aligned (fds entries : List (Option ℕ)) : Prop :=
  ∃ k, entries = fds ++ List.replicate k none

namespace Aligned

variable {fds entries : List (Option ℕ)} {fd : Option ℕ}

theorem nil (h : Aligned fds []) : fds = [] := by
  obtain ⟨k, hk⟩ := h
  exact (List.append_eq_nil_iff.mp hk.symm).1

/-- `flush` takes the descriptor of the first entry. -/
theorem shift (h : Aligned fds (fd :: entries)) :
    fds.head?.join = fd ∧ Aligned fds.tail entries := by
  obtain ⟨k, hk⟩ := h
  cases fds with
  | nil =>
    cases k with
    | zero => cases hk
    | succ k =>
      obtain ⟨rfl, rfl⟩ := List.cons.inj hk
      exact ⟨rfl, k, rfl⟩
  | cons fd' fds =>
    obtain ⟨rfl, rfl⟩ := List.cons.inj hk
    exact ⟨rfl, k, rfl⟩

theorem unshift (h : Aligned fds entries) (fd : Option ℕ) :
    Aligned (fd :: fds) (fd :: entries) := by
  obtain ⟨k, rfl⟩ := h
  exact ⟨k, rfl⟩

theorem length_le (h : Aligned fds entries) : fds.length ≤ entries.length := by
  obtain ⟨k, rfl⟩ := h
  rw [List.length_append]
  exact Nat.le_add_right _ _

theorem push_none (h : Aligned fds entries) : Aligned fds (entries ++ [none]) := by
  obtain ⟨k, rfl⟩ := h
  exact ⟨k + 1, by rw [List.append_assoc, List.replicate_succ']⟩

theorem push (h : Aligned fds entries) (hlength : fds.length = entries.length) (fd : Option ℕ) :
    Aligned (fds ++ [fd]) (entries ++ [fd]) := by
  obtain ⟨k, rfl⟩ := h
  rw [List.length_append, List.length_replicate] at hlength
  obtain rfl : k = 0 := by omega
  exact ⟨0, by simp⟩

theorem getD (h : Aligned fds entries) (i : ℕ) : entries.getD i none = fds.getD i none := by
  obtain ⟨k, rfl⟩ := h
  simp only [List.getD_eq_getElem?_getD, List.getElem?_append, List.getElem?_replicate]
  split_ifs with hlt hlt'
  · rfl
  · rw [List.getElem?_eq_none (by omega)]
    rfl
  · rw [List.getElem?_eq_none (by omega)]

/-- Entries without a descriptor come in front. -/
theorem silent (h : Aligned fds entries) (hnone : ∀ fd ∈ fds, fd = none) (n : ℕ) :
    Aligned fds (List.replicate n none ++ entries) := by
  obtain ⟨k, rfl⟩ := h
  obtain ⟨l, rfl⟩ : ∃ l, fds = List.replicate l none :=
    ⟨_, List.eq_replicate_iff.mpr ⟨rfl, hnone⟩⟩
  refine ⟨n + k, ?_⟩
  simp only [← List.replicate_add]
  exact congrArg (List.replicate · none) (by omega)

end Aligned

/-! ## Which bytes they go with -/

/-- The bytes that the descriptor has gone with are bytes of this write, which passed it. -/
def Passed.From (p : Passed) (w : Write) : Prop :=
  w.fd = some p.fd ∧ w.start ≤ p.start ∧ p.start + p.length ≤ w.stop

namespace Tracked

variable {m : Heap} {s t : Tracked} {ended : Bool}

/-- The writes that pass a descriptor. -/
def passing (writes : List Write) : List Write := writes.filter (·.fd.isSome)

/-- A condition on steps: no string is joined to an entry if one of them has a descriptor; a write
with a descriptor waits only if all entries have a place in `_writeQueueFD`; data is not sent in
parts if there are descriptors behind it; and the descriptor 0 is not passed with an empty string,
which is not refused. -/
def Straight (s : Tracked) (ev : SocketEvent) : Prop :=
  s.Exact ev ∧
    match ev with
    | .write d encoding fd _ =>
      (s.Waits → if (s.world.joinable d encoding).isSome then
          fd = none ∧ s.world.writeQueueFD.getD (s.world.writeQueue.length - 1) none = none
        else fd.isSome → s.world.writeQueueFD.length = s.world.writeQueue.length) ∧
      (¬s.Waits → fd = some 0 → d ≠ .str [])
    | .part .turn =>
      ∀ d rest, s.world.writeQueue = .data d :: rest →
        (s.world.Splits d s.world.writeQueueEncoding.head?.join ∨
          s.world.Cuts d s.world.writeQueueEncoding.head?.join →
            ∀ fd ∈ s.world.writeQueueFD.tail, fd = none) ∧
          (s.world.writeQueueFD.head?.join = some 0 → d ≠ .str [])
    | _ => True

/-- The descriptors have gone with bytes of the first writes that pass one, one by one; all of them
if nothing is queued. They have not gone with bytes of the other writes. -/
def Travels (s : Tracked) : Prop :=
  (∃ n, List.Forall₂ Passed.From s.passed ((passing s.writes).take n) ∧
    (s.world.writeQueue = [] → (passing s.writes).take n = passing s.writes)) ∧
    (∀ p ∈ s.passed, 0 < p.length) ∧
    (∀ p ∈ s.passed, ∀ w ∈ s.writes, w.fd = none →
      p.start + p.length ≤ w.start ∨ w.stop ≤ p.start) ∧
    s.world.sent <+: s.accepted

/-- The descriptors of the entries, each with the range of bytes of its entry. -/
def owed : ℕ → List (ℕ × Option ℕ) → List Passed
  | _, [] => []
  | n, (k, fd) :: chunks => fd.toList.map (⟨·, n, k⟩) ++ owed (n + k) chunks

/-- The descriptors of an open socket, gone and queued. -/
structure Carrying (s : Tracked) (pairs : List ((Data × Option Encoding) × Option ℕ))
    (ended : Bool) : Prop where
  kept : s.Kept (pairs.map (·.1)) ended
  fds : Aligned s.world.writeQueueFD (pairs.map (·.2))
  ledger : List.Forall₂ Passed.From (s.passed ++ owed s.world.sent.length (chunks pairs))
    (passing s.writes)

/-- The ranges of the writes follow each other, and nothing is recorded that has gone without
data. -/
structure Recorded (s : Tracked) : Prop where
  separate : s.writes.Pairwise fun v w ↦ v.stop ≤ w.start
  bounded : ∀ w ∈ s.writes, w.stop ≤ s.accepted.length
  positive : ∀ p ∈ s.passed, 0 < p.length

/-- The life of a socket. -/
inductive Passage (s : Tracked) : Prop
  | carrying {pairs : List ((Data × Option Encoding) × Option ℕ)} {ended : Bool}
      (h : s.Carrying pairs ended)
  | settled (hdone : s.world.Done) (hledger : List.Forall₂ Passed.From s.passed (passing s.writes))
      (hsent : s.world.sent = s.accepted)
  | gone (h : s.world.destroyed = true)

/-! ## Ranges -/

theorem owed_append (n : ℕ) (l l' : List (ℕ × Option ℕ)) :
    owed n (l ++ l') = owed n l ++ owed (n + (l.map (·.1)).sum) l' := by
  induction l generalizing n with
  | nil => rfl
  | cons c l ih =>
    rw [List.cons_append, owed, ih, owed, List.map_cons, List.sum_cons, List.append_assoc,
      Nat.add_assoc]

theorem owed_silent (n : ℕ) (front : List ℕ) : owed n (front.map (·, none)) = [] := by
  induction front generalizing n with
  | nil => rfl
  | cons k front ih =>
    rw [List.map_cons, owed, ih]
    rfl

theorem owed_silent_append (n : ℕ) (front : List ℕ) (l : List (ℕ × Option ℕ)) :
    owed n (front.map (·, none) ++ l) = owed (n + front.sum) l := by
  rw [owed_append, owed_silent, List.map_map]
  exact congrArg (fun k ↦ owed (n + k) l) (congrArg List.sum (List.map_id front))

section Ranges

variable {ps qs : List Passed} {writes : List Write} {n k k' : ℕ} {fd : Option ℕ}

/-- A part of the bytes will do. -/
theorem forall₂_shorten (hk : k' ≤ k)
    (h : List.Forall₂ Passed.From (ps ++ (fd.toList.map (⟨·, n, k⟩) ++ qs)) writes) :
    List.Forall₂ Passed.From (ps ++ (fd.toList.map (⟨·, n, k'⟩) ++ qs)) writes := by
  induction ps generalizing writes with
  | nil =>
    cases fd with
    | none => exact h
    | some f =>
      cases h with
      | cons hfrom hrest =>
        exact .cons ⟨hfrom.1, hfrom.2.1, (Nat.add_le_add_left hk n).trans hfrom.2.2⟩ hrest
  | cons p ps ih =>
    cases h with
    | cons hfrom hrest => exact .cons hfrom (ih hrest)

/-- There is one write more. -/
theorem forall₂_concat (h : List.Forall₂ Passed.From ps (passing writes)) (n k : ℕ)
    (fd cb : Option ℕ) :
    List.Forall₂ Passed.From (ps ++ fd.toList.map (⟨·, n, k⟩))
      (passing (writes ++ [⟨n, n + k, fd, cb⟩])) := by
  rw [passing, List.filter_append]
  refine List.rel_append h ?_
  cases fd with
  | none => exact .nil
  | some f => exact .cons ⟨rfl, Nat.le_refl _, Nat.le_refl _⟩ .nil

end Ranges

/-! ## One event -/

section Step

variable {pairs : List ((Data × Option Encoding) × Option ℕ)} {ev : SocketEvent}

theorem step_type (pw : PoolWriter) (s : Tracked) (ev : SocketEvent) :
    (s.step pw ev).world.type = s.world.type := by
  cases ev with
  | write d encoding fd cb =>
    rw [step, wrote_world]
    exact World.write_type ..
  | part p => exact World.part_type ..
  | destroy => exact World.destroy_type _
  | others p => rfl

/-- What `_writeOut` is called for, with its descriptor, is in front of the queue, or it might
be. -/
theorem Carrying.load (h : s.Carrying pairs ended) {l : Load}
    (hload : Loads s (pairs.map (·.1)) ev l) :
    ∃ rest : List ((Data × Option Encoding) × Option ℕ), l.rest = rest.map (·.1) ∧
      Aligned l.fds (rest.map (·.2)) ∧
      List.Forall₂ Passed.From
        (s.passed ++ owed s.world.sent.length ((entryLength l.entry, l.fd) :: chunks rest))
        (passing l.writes) := by
  have hledger := h.ledger
  cases hload with
  | turn hev hentries =>
    obtain ⟨⟨i, fd⟩, rest, rfl, rfl, rfl⟩ := List.map_eq_cons_iff.mp hentries
    obtain ⟨hhead, htail⟩ := h.fds.shift
    refine ⟨rest, rfl, htail, ?_⟩
    dsimp only
    rw [hhead]
    exact hledger
  | @write i fd cb hev hentries =>
    obtain rfl : pairs = [] := List.map_eq_nil_iff.mp hentries
    have hlength := h.kept.length
    simp only [List.map_nil, List.sum_nil, Nat.add_zero] at hlength
    refine ⟨[], rfl, h.fds, ?_⟩
    change List.Forall₂ _ (_ ++ (_ ++ [])) _
    change List.Forall₂ _ (s.passed ++ []) _ at hledger
    rw [List.append_nil] at hledger ⊢
    rw [List.length_append, length_entryBytes, hlength]
    exact forall₂_concat hledger _ _ fd cb

theorem carried_eq (hunix : s.world.type = .unix) {fd : Option ℕ} {n : ℕ}
    (h : fd = none ∨ 0 < n) : s.carried fd n = fd.toList.map (⟨·, s.world.sent.length, n⟩) := by
  rw [carried]
  obtain rfl | hpos := h
  · split_ifs <;> rfl
  · rw [if_pos ⟨hunix, hpos⟩]

theorem Carrying.whole (h : s.Carrying pairs ended) (hunix : s.world.type = .unix) {l : Load}
    (hload : Loads s (pairs.map (·.1)) ev l) {ended' : Bool} (hkept : t.Kept l.rest ended')
    (hsent : t.world.sent = s.world.sent ++ World.entryBytes s.world.pool l.entry)
    (hfds : t.world.writeQueueFD = l.fds)
    (hpassed : t.passed = s.passed ++
      s.carried l.fd (World.entryBytes s.world.pool l.entry).length)
    (hwrites : t.writes = l.writes) (hbytes : l.fd = none ∨ 0 < entryLength l.entry) :
    ∃ pairs', t.Carrying pairs' ended' := by
  obtain ⟨rest, hrest, haligned, hledger⟩ := h.load hload
  refine ⟨rest, hrest ▸ hkept, hfds ▸ haligned, ?_⟩
  rw [length_entryBytes, carried_eq hunix hbytes] at hpassed
  rw [hwrites, hpassed, hsent, List.length_append, length_entryBytes, List.append_assoc]
  exact hledger

theorem Carrying.left (h : s.Carrying pairs ended) (hunix : s.world.type = .unix) {l : Load}
    (hload : Loads s (pairs.map (·.1)) ev l) {front : List (Data × Option Encoding)} {b : Bytes}
    {ended' : Bool} (hkept : t.Kept (front ++ l.rest) ended') (hfront : front ≠ [])
    (hsent : t.world.sent = s.world.sent ++ b)
    (hbytes :
      b ++ front.flatMap (World.entryBytes t.world.pool) = World.entryBytes s.world.pool l.entry)
    (hfds : t.world.writeQueueFD = if b = [] then l.fd :: l.fds else l.fds)
    (hpassed : t.passed = s.passed ++ s.carried l.fd b.length) (hwrites : t.writes = l.writes)
    (hnone : b ≠ [] ∨ front.length ≠ 1 → ∀ fd ∈ l.fds, fd = none) :
    ∃ pairs', t.Carrying pairs' ended' := by
  obtain ⟨rest, hrest, haligned, hledger⟩ := h.load hload
  have hsum : b.length + (front.map entryLength).sum = entryLength l.entry := by
    rw [← length_entryBytes s.world.pool, ← hbytes, List.length_append, List.length_flatMap]
    simp only [length_entryBytes]
  -- the entries in front, of which at most the first has the descriptor
  have hkept' (l' : List ((Data × Option Encoding) × Option ℕ)) (hl : l'.map (·.1) = front) :
      t.Kept ((l' ++ rest).map (·.1)) ended' := by
    rw [List.map_append, hl, ← hrest]
    exact hkept
  have hsilent (l' : List (Data × Option Encoding)) :
      (l'.map (·, (none : Option ℕ))).map (·.1) = l' ∧
        (l'.map (·, (none : Option ℕ))).map (·.2) = List.replicate l'.length none ∧
        chunks (l'.map (·, none)) = (l'.map entryLength).map (·, none) := by
    refine ⟨?_, ?_, ?_⟩
    · rw [List.map_map]
      exact List.map_id l'
    · rw [List.map_map]
      exact List.map_const
    · rw [chunks, List.map_map, List.map_map]
      rfl
  by_cases hb : b = []
  · subst hb
    rw [if_pos rfl] at hfds
    obtain ⟨i, front, rfl⟩ := List.exists_cons_of_ne_nil hfront
    obtain ⟨hfst, hsnd, hchunks⟩ := hsilent front
    refine ⟨((i, l.fd) :: front.map (·, none)) ++ rest, hkept' _ (congrArg (i :: ·) hfst), ?_, ?_⟩
    · rw [hfds, List.map_append, List.map_cons, hsnd, List.cons_append]
      refine Aligned.unshift ?_ l.fd
      cases front with
      | nil => exact haligned
      | cons j front => exact haligned.silent (hnone (.inr (by simp))) _
    · have hpassed' : t.passed = s.passed := by
        rw [hpassed, carried, if_neg fun h ↦ Nat.lt_irrefl 0 h.2, List.append_nil]
      rw [hwrites, hpassed', hsent, List.append_nil, chunks, List.map_append, List.map_cons,
        ← chunks, ← chunks, hchunks, List.cons_append, owed, owed_silent_append]
      rw [List.map_cons, List.sum_cons, List.length_nil, Nat.zero_add] at hsum
      rw [owed, ← hsum] at hledger
      rw [Nat.add_assoc]
      exact forall₂_shorten (Nat.le_add_right _ _) hledger
  · rw [if_neg hb] at hfds
    obtain ⟨hfst, hsnd, hchunks⟩ := hsilent front
    refine ⟨front.map (·, none) ++ rest, hkept' _ hfst, ?_, ?_⟩
    · rw [hfds, List.map_append, hsnd]
      exact haligned.silent (hnone (.inl hb)) _
    · rw [carried_eq hunix (.inr (List.length_pos_of_ne_nil hb))] at hpassed
      rw [hwrites, hpassed, hsent, chunks, List.map_append, ← chunks, ← chunks, hchunks,
        owed_silent_append, List.length_append, List.append_assoc, Nat.add_assoc, hsum]
      rw [owed] at hledger
      exact forall₂_shorten (hsum ▸ Nat.le_add_right _ _) hledger

theorem Carrying.pushed (h : s.Carrying pairs ended) {i : Data × Option Encoding}
    {fd cb : Option ℕ} (hkept : t.Kept (pairs.map (·.1) ++ [i]) false) (hquiet : Quiet s t)
    (hfds : t.world.writeQueueFD =
      if fd.isSome then s.world.writeQueueFD ++ [fd] else s.world.writeQueueFD)
    (haccepted : t.accepted = s.accepted ++ World.entryBytes s.world.pool i)
    (hwrites : t.writes = s.writes ++ [⟨s.accepted.length, t.accepted.length, fd, cb⟩])
    (hplace : fd.isSome → s.world.writeQueueFD.length = s.world.writeQueue.length) :
    t.Carrying (pairs ++ [(i, fd)]) false := by
  have hlength := h.kept.length
  refine ⟨?_, ?_, ?_⟩
  · rw [List.map_append]
    exact hkept
  · rw [hfds, List.map_append]
    cases fd with
    | none => exact h.fds.push_none
    | some f =>
      have hle := h.fds.length_le
      rw [hplace rfl, h.kept.queues.queue, List.length_append, List.length_map, List.length_map,
        List.length_map] at hle
      refine h.fds.push ?_ (some f)
      rw [hplace rfl, h.kept.queues.queue, List.length_append, List.length_map, List.length_map,
        List.length_map]
      omega
  · have hend : t.accepted.length = s.accepted.length + entryLength i := by
      rw [haccepted, List.length_append, length_entryBytes]
    rw [chunks, List.map_append, ← chunks, hquiet.passed, hquiet.sent, owed_append, map_fst_chunks,
      ← hlength, ← List.append_assoc, hwrites, hend]
    change List.Forall₂ _ (_ ++ (_ ++ [])) _
    rw [List.append_nil]
    exact forall₂_concat h.ledger _ _ fd cb

theorem Carrying.joined (h : s.Carrying pairs ended) {l : List (Data × Option Encoding)}
    {u v : JSString} {encoding : Option Encoding} {cb : Option ℕ}
    (hjoinable : s.world.joinable (.str v) encoding = some (u, v))
    (hentries : pairs.map (·.1) = l ++ [(.str u, encoding)])
    (hkept : t.Kept (l ++ [(.str (u ++ v), encoding)]) false) (hquiet : Quiet s t)
    (hfds : t.world.writeQueueFD = s.world.writeQueueFD)
    (hwrites : t.writes = s.writes ++ [⟨s.accepted.length, t.accepted.length, none, cb⟩])
    (hlast : s.world.writeQueueFD.getD (s.world.writeQueue.length - 1) none = none) :
    ∃ pairs', t.Carrying pairs' false := by
  have hqueue := h.kept.queues.queue
  obtain ⟨front, last, rfl, rfl, hone⟩ := List.map_eq_append_iff.mp hentries
  obtain ⟨⟨i, fd⟩, rfl, rfl⟩ := List.map_eq_singleton_iff.mp hone
  have hlength : s.world.writeQueue.length - 1 = front.length := by
    obtain ⟨q, -, hq, -⟩ := World.joinable_cases hjoinable
    cases ended with
    | false => simp [hqueue]
    | true =>
      rw [hq, if_pos rfl] at hqueue
      have hend := congrArg List.getLast? hqueue
      simp at hend
  -- the last entry has no descriptor, so that nothing is to be said about its bytes
  obtain rfl : fd = none := by
    rw [hlength, ← h.fds.getD, List.map_append] at hlast
    rw [← hlast]
    simp
  refine ⟨front ++ [((.str (u ++ v), encoding), none)], ?_, ?_, ?_⟩
  · rw [List.map_append]
    exact hkept
  · have haligned := h.fds
    rw [List.map_append] at haligned
    rw [hfds, List.map_append]
    exact haligned
  · have hledger := h.ledger
    rw [chunks, List.map_append, ← chunks, owed_append] at hledger
    rw [chunks, List.map_append, ← chunks, owed_append, hquiet.passed, hquiet.sent, hwrites,
      passing, List.filter_append]
    have hnothing : [⟨s.accepted.length, t.accepted.length, none, cb⟩].filter
        (fun w : Write ↦ w.fd.isSome) = [] := rfl
    rw [hnothing, List.append_nil]
    exact hledger

/-- A descriptor that would go without data is refused, and with it the socket is destroyed. -/
theorem step_gone (m : Heap) {entries : List (Data × Option Encoding)} (h : s.Kept entries ended)
    (hunix : s.world.type = .unix) (hallows : s.Allows ev) (hstraight : s.Straight ev) {l : Load}
    (hload : Loads s entries ev l) {f : ℕ} (hf : l.fd = some f)
    (hempty : World.entryBytes s.world.pool l.entry = []) :
    (s.step (poolWriter m) ev).world.destroyed = true := by
  obtain ⟨hexact, hstraight⟩ := hstraight
  cases hload with
  | @turn i rest hev hentries =>
    subst hev hentries
    obtain ⟨q, r, hq, hqueues, hr, hturn, -⟩ := World.turn_cons h.queues (poolWriter m)
    have hencoding : s.world.writeQueueEncoding.head?.join = i.2 := by
      rw [h.queues.encodings]
      rfl
    change (s.world.turn (poolWriter m)).2.destroyed = true
    have hfd : s.world.writeQueueFD.head?.join = some f := hf
    rw [hturn, hr, hfd]
    refine World.writeOut_gone m hqueues hunix (h.sound i List.mem_cons_self)
      (fun t ht ↦ hencoding ▸ hexact t q (ht ▸ hq)) (fun hzero ↦ ?_) hempty _
    exact (hstraight i.1 q hq).2 (hzero ▸ hfd)
  | @write i fd cb hev hentries hidle =>
    subst hev hentries
    have hsize := h.queues.size
    have hfd : fd = some f := hf
    have hnot : ¬(s.world.connecting = true ∨ s.world.writeQueue ≠ []) := hidle
    rw [step, wrote_world, World.write, if_neg (by omega), if_neg hnot, hfd]
    obtain ⟨d, encoding⟩ := i
    refine World.writeOut_gone m h.queues hunix ?_ (fun t ht ↦ ?_)
      (fun hzero ↦ hstraight.2 hidle (hzero ▸ hfd)) hempty _
    · cases d with
      | str t => exact hexact.1
      | buf b => exact hallows
    · obtain rfl : d = .str t := ht
      exact hexact.2 hidle

theorem Carrying.step (m : Heap) (h : s.Carrying pairs ended) (hunix : s.world.type = .unix)
    (hallows : s.Allows ev) (hstraight : s.Straight ev) : (s.step (poolWriter m) ev).Passage := by
  have hgone {l : Load} {f : ℕ} (hload : Loads s (pairs.map (·.1)) ev l) (hf : l.fd = some f) :=
    step_gone m h.kept hunix hallows hstraight hload hf
  have hadvance := Tracked.advance m h.kept hallows hstraight.1
  generalize s.step (poolWriter m) ev = t at hadvance hgone ⊢
  cases hadvance with
  | gone hgone => exact .gone hgone
  | done hentries hdone hquiet haccepted hwrites =>
    obtain rfl : pairs = [] := List.map_eq_nil_iff.mp hentries
    have hledger : List.Forall₂ _ (s.passed ++ []) _ := h.ledger
    have hbytes : s.world.sent ++ [] = s.accepted := h.kept.bytes
    rw [List.append_nil] at hledger hbytes
    refine .settled hdone ?_ ?_
    · rw [hquiet.passed, hwrites]
      exact hledger
    · rw [hquiet.sent, haccepted, hbytes]
  | idle hkept hquiet hcallbacks hfds haccepted hwrites =>
    have hledger := h.ledger
    refine .carrying ⟨hkept, hfds ▸ h.fds, ?_⟩
    rw [hquiet.passed, hquiet.sent, hwrites]
    exact hledger
  | @pushed i fd cb hev hwaits hjoinable hkept hquiet hcallbacks hfds haccepted hwrites =>
    subst hev
    have hplace := hstraight.2.1 hwaits
    rw [hjoinable, if_neg (by simp)] at hplace
    exact .carrying (h.pushed hkept hquiet hfds haccepted hwrites hplace)
  | @joined l u v encoding fd cb hev hwaits hjoinable hentries hkept hquiet hcallbacks hfds
      haccepted hwrites =>
    subst hev
    have hlast := hstraight.2.1 hwaits
    rw [hjoinable, if_pos Option.isSome_some] at hlast
    obtain ⟨rfl, hlast⟩ := hlast
    exact .carrying (h.joined hjoinable hentries hkept hquiet hfds hwrites hlast).choose_spec
  | @whole _ l hload hkept hsent hcallbacks hfds hcalled hpassed hthrown haccepted hwrites =>
    by_cases hbytes : l.fd = none ∨ 0 < entryLength l.entry
    · exact .carrying (h.whole hunix hload hkept hsent hfds hpassed hwrites hbytes).choose_spec
    · rw [not_or, Nat.pos_iff_ne_zero, not_not] at hbytes
      obtain ⟨f, hf⟩ := Option.ne_none_iff_exists'.mp hbytes.1
      refine .gone (hgone hload hf (List.length_eq_zero_iff.mp ?_))
      rw [length_entryBytes, hbytes.2]
  | @left _ l front b hload hkept hfront hsent hbytes hcallbacks hfds hcalled hpassed hthrown
      haccepted hwrites htwo hpart =>
    refine .carrying (h.left hunix hload hkept hfront hsent hbytes hfds hpassed hwrites
      fun hne ↦ ?_).choose_spec
    have hpart := hpart hne
    cases hload with
    | @turn i rest hev hentries =>
      subst hev
      have hqueue := h.kept.queues.queue
      have hencodings := h.kept.queues.encodings
      rw [hentries] at hqueue hencodings
      have hnone := (hstraight.2 i.1 _ hqueue).1
      rw [hencodings] at hnone
      exact hnone hpart
    | write hev hentries hidle =>
      have hnil : pairs = [] := List.map_eq_nil_iff.mp hentries
      have hfds := h.fds
      rw [hnil] at hfds
      intro fd hfd
      rw [show s.world.writeQueueFD = [] from hfds.nil] at hfd
      cases hfd

theorem Passage.step (m : Heap) (h : s.Passage) (hunix : s.world.type = .unix)
    (hsized : s.world.Sized) (hallows : s.Allows ev) (hstraight : s.Straight ev) :
    (s.step (poolWriter m) ev).Passage := by
  cases h with
  | carrying h => exact h.step m hunix hallows hstraight
  | gone h => exact .gone ((step_sized (poolWriter m) hsized ev).2 h)
  | settled hdone hledger hsent =>
    obtain hgone | ⟨hdone', hquiet, haccepted, hwrites⟩ := step_done (poolWriter m) hdone ev
    · exact .gone hgone
    · refine .settled hdone' ?_ ?_
      · rw [hquiet.passed, hwrites]
        exact hledger
      · rw [hquiet.sent, haccepted, hsent]

theorem Recorded.after (h : s.Recorded) {α : Type} (r : Call α) : (s.after r).Recorded := by
  refine ⟨h.separate, h.bounded, fun p hp ↦ ?_⟩
  obtain hp | hp := List.mem_append.mp hp
  · exact h.positive p hp
  · obtain ⟨f, hf, rfl⟩ := List.mem_map.mp hp
    exact of_decide_eq_true (List.mem_filter.mp hf).2

theorem Recorded.wrote (h : s.Recorded) {α : Type} (b : Bytes) (fd cb : Option ℕ) (r : Call α) :
    (s.wrote b fd cb r).Recorded := by
  obtain ⟨o, w⟩ := r
  cases o with
  | error e => exact h.after _
  | ok x =>
    have hle : s.accepted.length ≤ (s.accepted ++ b).length := by
      rw [List.length_append]
      exact Nat.le_add_right _ _
    refine ⟨?_, fun v hv ↦ ?_, (h.after ((.ok x, w) : Call α)).positive⟩
    · refine List.pairwise_append.mpr ⟨h.separate, List.pairwise_singleton _ _, fun v hv w hw ↦ ?_⟩
      rw [List.mem_singleton.mp hw]
      exact h.bounded v hv
    · obtain hv | hv := List.mem_append.mp hv
      · exact (h.bounded v hv).trans hle
      · rw [List.mem_singleton.mp hv]
        exact Nat.le_refl _

theorem Recorded.step (h : s.Recorded) (pw : PoolWriter) (ev : SocketEvent) :
    (s.step pw ev).Recorded := by
  cases ev with
  | write d encoding fd cb => exact h.wrote ..
  | part p => exact h.after _
  | destroy => exact h.after _
  | others p => exact ⟨h.separate, h.bounded, h.positive⟩

/-- A write without a descriptor is apart from those that pass one. -/
theorem Recorded.apart (h : s.Recorded) {p : Passed} {v w : Write} (hv : v ∈ s.writes)
    (hw : w ∈ s.writes) (hfrom : p.From v) (hnone : w.fd = none) :
    p.start + p.length ≤ w.start ∨ w.stop ≤ p.start := by
  have hsymm : Std.Symm fun v w : Write ↦ v.stop ≤ w.start ∨ w.stop ≤ v.start :=
    ⟨fun _ _ ↦ Or.symm⟩
  have hne : v ≠ w := by
    rintro rfl
    cases hnone.symm.trans hfrom.1
  have hpairs : s.writes.Pairwise fun v w ↦ v.stop ≤ w.start ∨ w.stop ≤ v.start :=
    h.separate.imp Or.inl
  have hpair := hpairs.forall hv hw hne
  exact hpair.imp hfrom.2.2.trans fun hle ↦ hle.trans hfrom.2.1

theorem Passage.travels (h : s.Passage) (hrecorded : s.Recorded)
    (halive : s.world.destroyed = false) : s.Travels := by
  obtain ⟨hledger, hsent⟩ : (∃ n, List.Forall₂ Passed.From s.passed ((passing s.writes).take n) ∧
      (s.world.writeQueue = [] → (passing s.writes).take n = passing s.writes)) ∧
      s.world.sent <+: s.accepted := by
    cases h with
    | gone h => cases h.symm.trans halive
    | settled hdone hledger hsent =>
      refine ⟨⟨(passing s.writes).length, ?_, fun _ ↦ List.take_length⟩,
        hsent ▸ List.prefix_refl _⟩
      rw [List.take_length]
      exact hledger
    | @carrying pairs ended h =>
      refine ⟨⟨s.passed.length, ?_, fun hnil ↦ ?_⟩, ⟨_, h.kept.bytes⟩⟩
      · have htake := List.forall₂_take s.passed.length h.ledger
        rw [List.take_left] at htake
        exact htake
      · have hqueue := h.kept.queues.queue
        rw [hnil] at hqueue
        obtain rfl : pairs = [] :=
          List.map_eq_nil_iff.mp (List.map_eq_nil_iff.mp (List.append_eq_nil_iff.mp hqueue.symm).1)
        have hlength := h.ledger.length_eq
        rw [List.length_append] at hlength
        exact List.take_of_length_le hlength.ge
  obtain ⟨n, hfrom, hall⟩ := hledger
  refine ⟨⟨n, hfrom, hall⟩, hrecorded.positive, fun p hp w hw hnone ↦ ?_, hsent⟩
  obtain ⟨v, hv, hpv⟩ : ∃ v ∈ (passing s.writes).take n, p.From v := by
    obtain ⟨i, hi, rfl⟩ := List.mem_iff_getElem.mp hp
    exact ⟨_, List.getElem_mem (hfrom.length_eq ▸ hi), hfrom.get hi _⟩
  have hmem : v ∈ s.writes := (List.mem_filter.mp (List.mem_of_mem_take hv)).1
  exact hrecorded.apart hmem hw hpv hnone

/-- In every run that is straight, the descriptors go with their own data. -/
theorem travels_of_straight (m : Heap) (connecting readable : Bool) (pool : Pool)
    (kernel : ℕ → KernelReply)
    (h : ((machine (poolWriter m)).restrict Straight).Reaches
      (start .unix connecting readable pool kernel) s) (halive : s.world.destroyed = false) :
    s.Travels := by
  have hall : (s.Passage ∧ s.Recorded) ∧ s.world.type = .unix ∧ s.world.Sized := by
    refine h.invariant
      (p := fun s ↦ (s.Passage ∧ s.Recorded) ∧ s.world.type = .unix ∧ s.world.Sized)
      ⟨⟨?_, .nil, fun w hw ↦ (by cases hw), fun p hp ↦ by cases hp⟩, rfl, rfl⟩ ?_
    · have hcarrying : (start .unix connecting readable pool kernel).Carrying [] false :=
        ⟨start_kept .unix connecting readable pool kernel, ⟨0, rfl⟩, .nil⟩
      exact .carrying hcarrying
    · rintro s t ev ⟨⟨hpassage, hrecorded⟩, hunix, hsized⟩ ⟨hallows, hstraight⟩ ht
      obtain rfl := Except.ok.inj ht
      exact ⟨⟨hpassage.step m hunix hsized hallows hstraight, hrecorded.step _ ev⟩,
        (step_type _ s ev).trans hunix, (step_sized _ hsized ev).1⟩
  exact hall.1.1.travels hall.1.2 halive

/-- A unix socket that is connecting; each system call will take a byte. -/
def connectingUnix : Tracked := start .unix true true ⟨fun _ _ ↦ 0, 0, 0⟩ fun _ ↦ .wrote 1

/-- A descriptor that waits with its buffer goes with the first byte. -/
theorem travels_of_straight_bytes : ∃ s : Tracked, s.Travels ∧ s.passed = [⟨5, 0, 1⟩] ∧
    s.world.sent = [1, 2] := by
  have hstep {s : Tracked} (ev : SocketEvent)
      (h : ((machine (poolWriter Sockets.blankHeap)).restrict Straight).Reaches connectingUnix s)
      (hallows : s.Allows ev) (hstraight : s.Straight ev) :
      ((machine (poolWriter Sockets.blankHeap)).restrict Straight).Reaches connectingUnix
        (s.step (poolWriter Sockets.blankHeap) ev) := h.step ⟨hallows, hstraight⟩ rfl
  have hwrite := hstep (.write (.buf (.own [1, 2])) none (some 5) none) .init trivial
    ⟨trivial, fun _ ↦ (by rw [if_neg (by decide)]; exact fun _ ↦ rfl),
      fun _ hzero ↦ by cases hzero⟩
  have hopen := hstep (.part .established) hwrite trivial ⟨trivial, trivial⟩
  have hturn := hstep (.part .turn) hopen trivial
    ⟨fun t rest hq ↦ (by cases hq), fun d rest hq ↦
      ⟨fun _ fd hfd ↦ (by cases hfd), fun hzero ↦ by cases hzero⟩⟩
  have hturn' := hstep (.part .turn) hturn trivial
    ⟨fun t rest hq ↦ (by cases hq), fun d rest hq ↦
      ⟨fun _ fd hfd ↦ (by cases hfd), fun hzero ↦ by cases hzero⟩⟩
  exact ⟨_, travels_of_straight _ _ _ _ _ hturn' rfl, rfl, rfl⟩

/-- A descriptor goes with the data of the write before its own. -/
theorem descriptor_ahead : ∃ s : Tracked,
    (machine (poolWriter Sockets.blankHeap)).Reaches connectingUnix s ∧
      s.world.destroyed = false ∧ s.writes = [⟨0, 1, none, none⟩, ⟨1, 2, some 5, none⟩] ∧
      s.passed = [⟨5, 0, 1⟩] ∧ ¬s.Travels := by
  have hstep {s : Tracked} (ev : SocketEvent)
      (h : (machine (poolWriter Sockets.blankHeap)).Reaches connectingUnix s)
      (hallows : s.Allows ev) :
      (machine (poolWriter Sockets.blankHeap)).Reaches connectingUnix
        (s.step (poolWriter Sockets.blankHeap) ev) := h.step hallows rfl
  have hfirst := hstep (.write (.buf (.own [1])) none none none) .init trivial
  have hsecond := hstep (.write (.buf (.own [2])) none (some 5) none) hfirst trivial
  have hopen := hstep (.part .established) hsecond trivial
  have hturn := hstep (.part .turn) hopen trivial
  refine ⟨_, hturn, rfl, rfl, rfl, fun h ↦ ?_⟩
  have happart := h.2.2.1 ⟨5, 0, 1⟩ (List.mem_singleton_self _) ⟨0, 1, none, none⟩
    List.mem_cons_self rfl
  exact absurd happart (by decide)

end Step

end Tracked

end SpiderNode.Net
