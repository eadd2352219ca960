import SpiderNode.Net.Descriptors

/-!
# Writes without data

`_writeOut` hands over empty data like any other. An empty string is staged at `pool.used`, which is
inside of the pool, and `Write` of `src/node_net.cc` takes nothing from there. An empty `Buffer` is
handed over at offset `0`, which is not below its length. `Write` throws then, and the socket is
destroyed with all that is queued.

What is put back on the queue is never empty. So it is enough that no empty `Buffer` is written:
`harmless_of_filled` says that then the kernel gets the data of the other writes.
-/

namespace SpiderNode.Net

open Buffer (Heap poolWriter)

namespace World

/-- The buffers that are queued have bytes. -/
def Laden (w : World) : Prop := ∀ b, .data (.buf b) ∈ w.writeQueue → 0 < b.length

section Calls

variable {w : World} {st : Staged}

/-- The native `Write` throws on no range of a buffer that begins inside of it. -/
theorem writeImpl_tcp (htcp : w.type = .tcp) (hreply : w.nextReply ≠ .failed)
    (hoff : st.off < st.buffer.length) (hlen : st.off + st.len ≤ st.buffer.length)
    (fd : Option ℕ) :
    ∃ k v, k ≤ st.len ∧ w.writeImpl st.buffer st.off st.len fd = (.ok (some k), v) ∧
      v.destroyed = w.destroyed ∧ v.writeQueue = w.writeQueue := by
  have hunix : ¬(w.type = .unix ∧ fd.getD 0 ≠ 0 ∧ noData st.buffer st.off st.len) := by
    rw [htcp]
    exact fun h ↦ by cases h.1
  have htcp' : w.type ≠ .unix := htcp ▸ SocketType.noConfusion
  rw [writeImpl, if_neg hunix, if_neg (by omega), if_neg (by omega)]
  dsimp only
  split
  · rename_i hfailed
    exact absurd hfailed hreply
  · rw [if_neg htcp']
    exact ⟨0, _, Nat.zero_le _, rfl, rfl, rfl⟩
  · exact ⟨_, _, Nat.min_le_right _ _, rfl, rfl, rfl⟩

theorem handOver_alive (htcp : w.type = .tcp) (hreply : w.nextReply ≠ .failed)
    (hoff : st.off < st.buffer.length) (hlen : st.off + st.len ≤ st.buffer.length)
    (h : w.Laden) (fd : Option ℕ) (cb : Option Callback) :
    (w.handOver st fd cb).2.destroyed = w.destroyed ∧ (w.handOver st fd cb).2.Laden := by
  obtain ⟨k, v, hk, hwrite, hdestroyed, hqueue⟩ := writeImpl_tcp htcp hreply hoff hlen fd
  have hladen : v.Laden := fun b hb ↦ h b (hqueue ▸ hb)
  rw [handOver, hwrite]
  dsimp only
  by_cases hall : some k = some st.len
  · rw [if_pos hall]
    by_cases hqueued : st.queuedData = true
    · rw [if_pos hqueued]
      exact ⟨hdestroyed, hladen⟩
    · rw [if_neg hqueued]
      rcases cb with _ | _ | _ <;> exact ⟨hdestroyed, hladen⟩
  · rw [if_neg hall]
    refine ⟨hdestroyed, fun b hb ↦ ?_⟩
    obtain hb | hb := List.mem_cons.mp hb
    · -- what the kernel has left
      have hne : k ≠ st.len := fun he ↦ hall (congrArg some he)
      have hlength := @Buf.length_slice (st.off + k) _ _ hlen
      cases hb
      rw [Option.getD_some]
      omega
    · exact hladen b hb

theorem writeOut_alive (m : Heap) (htcp : w.type = .tcp) (hreply : w.nextReply ≠ .failed)
    (h : w.Laden) {d : Data} {encoding : Option Encoding} (hsound : Sound w.pool (d, encoding))
    (hfits : ∀ t, d = .str t → FitsPool encoding t w.pool.ensure.room)
    (hfilled : ∀ b, d = .buf b → 0 < b.length) (fd : Option ℕ) (cb : Option Callback) :
    (w.writeOut (poolWriter m) d encoding fd cb).2.destroyed = w.destroyed ∧
      (w.writeOut (poolWriter m) d encoding fd cb).2.Laden := by
  have hinside {t : JSString} (hd : d = .str t) {st : Staged} {r : PoolWrite}
      (hst : StagesString (poolWriter m) w.pool encoding t st r) :
      st.off < st.buffer.length ∧ st.off + st.len ≤ st.buffer.length := by
    subst hd
    have hroom := w.pool.kMinPoolSpace_le_room_ensure
    rw [kMinPoolSpace] at hroom
    have hstores := stores_of_sendable m hsound (hfits t rfl) (by omega)
    have hstaged := hst.stagedFor (w := { w with pool := stagePool _ w.pool encoding (.str t) })
      hstores rfl
    refine ⟨?_, hstaged.1.range⟩
    rw [hst.buffer, hst.off]
    exact w.pool.ensure_used_lt
  rw [writeOut]
  split_ifs with hwritable
  · have hstage := stage_result (poolWriter m) w d encoding cb
    generalize w.stage (poolWriter m) d encoding cb = r at hstage ⊢
    cases hstage with
    | failed e => exact ⟨rfl, h⟩
    | buffer b hd =>
      exact handOver_alive htcp hreply (hfilled b hd) (Nat.zero_add _).le h fd cb
    | whole t st r hd hst =>
      obtain ⟨hoff, hlen⟩ := hinside hd hst
      exact handOver_alive (w := { w with pool := stagePool (poolWriter m) w.pool encoding d }) htcp
        hreply hoff hlen h fd cb
    | split t st r hd hst =>
      obtain ⟨hoff, hlen⟩ := hinside hd hst
      refine handOver_alive
        (w := unshift { w with pool := stagePool (poolWriter m) w.pool encoding d } _ encoding cb)
        htcp hreply hoff hlen (fun b hb ↦ ?_) fd cb
      obtain hb | hb := List.mem_cons.mp hb
      · cases hb
      · exact h b hb
  · exact ⟨rfl, h⟩

theorem Laden.destroy (h : w.Laden) : w.destroy.2.Laden := by
  rw [World.destroy]
  split_ifs
  · exact h
  · exact fun b hb ↦ by cases hb

theorem Laden.shutdown (h : w.Laden) : w.shutdown.2.Laden := by
  rw [World.shutdown]
  split_ifs
  · dsimp only
    split_ifs
    · split
      · exact Laden.destroy (w := { w with writable := false, calls := _, shut := true }) h
      · exact h
    · exact Laden.destroy (w := { w with writable := false }) h
  · exact h

theorem Laden.enqueue (h : w.Laden) {d : Data} (hfilled : ∀ b, d = .buf b → 0 < b.length)
    (encoding : Option Encoding) (fd : Option ℕ) (cb : Option Callback) :
    (w.enqueue d encoding fd cb).Laden := by
  have hres := enqueue_result w d encoding fd cb
  generalize w.enqueue d encoding fd cb = v at hres ⊢
  cases hres with
  | joined q t s hd hq =>
    intro b hb
    obtain hb | hb := List.mem_append.mp hb
    · exact h b (hq ▸ List.mem_append_left _ hb)
    · cases List.mem_singleton.mp hb
  | pushed =>
    intro b hb
    obtain hb | hb := List.mem_append.mp hb
    · exact h b hb
    · exact hfilled b (QueueEntry.data.inj (List.mem_singleton.mp hb)).symm

end Calls

end World

namespace Tracked

/-- Data is handed to the kernel, or queued. -/
def Sends (s : Tracked) : SocketEvent → Prop
  | .write .. => True
  | .part .turn => ∃ d rest, s.world.writeQueue = .data d :: rest
  | _ => False

/-- A condition on steps, in runs in which no system call fails. No empty `Buffer` is written, and
strings have bytes and find space. -/
def Filled (s : Tracked) (ev : SocketEvent) : Prop :=
  s.world.nextReply ≠ .failed ∧ s.Exact ev ∧
    ∀ b encoding fd cb, ev = .write (.buf b) encoding fd cb → 0 < b.length

/-- The bytes of the writes. -/
def pieces (s : Tracked) : List Bytes := s.writes.map fun w ↦ (s.accepted.take w.stop).drop w.start

/-- The bytes of the writes when the empty ones are left out. -/
def filled (s : Tracked) : List Bytes := s.pieces.filter (· ≠ [])

/-- Everything has been sent. -/
def Drained (s : Tracked) : Prop := s.world.destroyed = false ∧ s.world.writeQueue = []

/-- The life of a socket. -/
inductive Standing (s : Tracked) : Prop
  | kept {entries : List (Data × Option Encoding)} {ended : Bool} (h : s.Kept entries ended)
      (hladen : s.world.Laden)
  | done (h : s.world.Done) (hsent : s.world.sent = s.accepted)
  | gone (h : s.world.destroyed = true)

section Step

variable {m : Heap} {s : Tracked} {entries : List (Data × Option Encoding)} {ended : Bool}
  {ev : SocketEvent}

/-! ## What is recorded -/

theorem flatten_wrote {α : Type} (hbounded : ∀ w ∈ s.writes, w.stop ≤ s.accepted.length)
    (h : s.pieces.flatten = s.accepted) (b : Bytes) (fd cb : Option ℕ) (r : Call α) :
    (s.wrote b fd cb r).pieces.flatten = (s.wrote b fd cb r).accepted := by
  obtain ⟨o, w⟩ := r
  cases o with
  | error e => exact h
  | ok x =>
    have hsame : s.writes.map (fun w ↦ ((s.accepted ++ b).take w.stop).drop w.start) = s.pieces :=
      List.map_congr_left fun w hw ↦ by rw [List.take_append_of_le_length (hbounded w hw)]
    have hlast : ((s.accepted ++ b).take (s.accepted ++ b).length).drop s.accepted.length = b := by
      rw [List.take_length, List.drop_left]
    have hpieces : (s.wrote b fd cb (.ok x, w)).pieces = s.pieces ++ [b] := by
      refine (List.map_append ..).trans ?_
      exact congrArg₂ (· ++ ·) hsame (congrArg (fun b ↦ [b]) hlast)
    rw [hpieces, List.flatten_append, h, List.flatten_singleton]
    rfl

theorem flatten_step (pw : PoolWriter) (hrecorded : s.Recorded)
    (h : s.pieces.flatten = s.accepted) (ev : SocketEvent) :
    (s.step pw ev).pieces.flatten = (s.step pw ev).accepted := by
  cases ev with
  | write d encoding fd cb => exact flatten_wrote hrecorded.bounded h ..
  | part p => exact h
  | destroy => exact h
  | others p => exact h

theorem flatten_filled (h : s.pieces.flatten = s.accepted) : s.filled.flatten = s.accepted := by
  rw [← h]
  exact List.flatten_filter_ne_nil

/-! ## One event -/

/-- A write leaves a socket open on which nothing is queued but data. -/
theorem Kept.sends (h : s.Kept entries ended) (hladen : s.world.Laden)
    (htcp : s.world.type = .tcp) (hallows : s.Allows ev) (hfilled : s.Filled ev) :
    (s.Sends ev → (s.step (poolWriter m) ev).world.destroyed = s.world.destroyed) ∧
      (s.step (poolWriter m) ev).world.Laden := by
  obtain ⟨hreply, hexact, hbytes⟩ := hfilled
  cases ev with
  | destroy => exact ⟨False.elim, hladen.destroy⟩
  | others p => exact ⟨False.elim, hladen⟩
  | write d encoding fd cb =>
    have hfilled : ∀ b, d = .buf b → 0 < b.length := fun b hb ↦ hbytes b encoding fd cb (hb ▸ rfl)
    suffices hwrite : (s.world.write (poolWriter m) d encoding fd
        (cb.map .user)).2.destroyed = s.world.destroyed ∧
        (s.world.write (poolWriter m) d encoding fd (cb.map .user)).2.Laden by
      rw [step, wrote_world]
      exact ⟨fun _ ↦ hwrite.1, hwrite.2⟩
    have hsound : World.Sound s.world.pool (d, encoding) := by
      cases d with
      | str t => exact hexact.1
      | buf b => exact hallows
    rw [World.write]
    split_ifs with _ hwaits
    · exact ⟨rfl, hladen⟩
    · exact ⟨rfl, hladen⟩
    · have hres := World.enqueue_result s.world d encoding fd (cb.map .user)
      have hladen' := hladen.enqueue hfilled encoding fd (cb.map .user)
      dsimp only
      generalize s.world.enqueue d encoding fd (cb.map .user) = v at hres hladen' ⊢
      refine ⟨?_, hladen'⟩
      cases hres <;> rfl
    · refine World.writeOut_alive m htcp hreply hladen hsound (fun t ht ↦ ?_) hfilled ..
      subst ht
      exact hexact.2 hwaits
  | part p =>
    cases p with
    | established =>
      refine ⟨False.elim, ?_⟩
      change World.Laden (Life.Part.run (poolWriter m) s.world .established).2
      rw [Life.Part.run]
      split_ifs <;> exact hladen
    | mark =>
      refine ⟨False.elim, ?_⟩
      change World.Laden (Life.Part.run (poolWriter m) s.world .mark).2
      rw [Life.Part.run]
      split_ifs
      · intro b hb
        obtain hb | hb := List.mem_append.mp hb
        · exact hladen b hb
        · cases List.mem_singleton.mp hb
      · exact hladen
    | soon => exact ⟨False.elim, hladen⟩
    | turn =>
      have hworld : (s.step (poolWriter m) (.part .turn)).world =
          (s.world.turn (poolWriter m)).2 := rfl
      rw [hworld]
      cases entries with
      | nil =>
        have hnone : ¬s.Sends (.part .turn) := by
          rintro ⟨d, rest, hq⟩
          have hqueue := h.queues.queue
          rw [hq] at hqueue
          cases ended <;> cases hqueue
        refine ⟨fun hsends ↦ absurd hsends hnone, ?_⟩
        have hqueue := h.queues.queue
        cases ended with
        | false =>
          have hnil : s.world.writeQueue = [] := hqueue
          rw [World.turn, hnil]
          exact fun b hb ↦ by cases hb
        | true =>
          have hend : s.world.writeQueue = [.endOfFile] := hqueue
          have hshut := World.Laden.shutdown (w := s.world.shiftQueues []) fun b hb ↦ by cases hb
          rw [World.turn, hend]
          dsimp only
          generalize (s.world.shiftQueues []).shutdown = r at hshut ⊢
          obtain ⟨o, w⟩ := r
          cases o <;> exact hshut
      | cons i rest =>
        obtain ⟨q, r, hq, hqueues, hr, hturn, -⟩ := World.turn_cons h.queues (poolWriter m)
        have hencoding : s.world.writeQueueEncoding.head?.join = i.2 := by
          rw [h.queues.encodings]
          rfl
        have htaken : (s.world.taking i.1 q).Laden := fun b hb ↦
          hladen b (hq ▸ List.mem_cons_of_mem _ hb)
        have hout := World.writeOut_alive (w := s.world.taking i.1 q) m htcp hreply htaken
          (h.sound i List.mem_cons_self) (fun t ht ↦ hencoding ▸ hexact t q (ht ▸ hq))
          (fun b hb ↦ hladen b (hq ▸ hb ▸ List.mem_cons_self)) s.world.writeQueueFD.head?.join
          s.world.writeQueueCallbacks.head?.join
        rw [hturn, hr]
        exact ⟨fun _ ↦ hout.1, hout.2⟩

theorem Standing.step (h : s.Standing) (htcp : s.world.type = .tcp) (hsized : s.world.Sized)
    (hallows : s.Allows ev) (hfilled : s.Filled ev) : (s.step (poolWriter m) ev).Standing := by
  cases h with
  | gone h => exact .gone ((step_sized (poolWriter m) hsized ev).2 h)
  | done h hsent =>
    obtain hgone | ⟨hdone, hquiet, haccepted, -⟩ := step_done (poolWriter m) h ev
    · exact .gone hgone
    · exact .done hdone (by rw [hquiet.sent, haccepted, hsent])
  | @kept entries ended h hladen =>
    have hladen' := (h.sends (m := m) hladen htcp hallows hfilled).2
    have hadvance := Tracked.advance m h hallows hfilled.2.1
    generalize s.step (poolWriter m) ev = t at hladen' hadvance ⊢
    cases hadvance with
    | gone hgone => exact .gone hgone
    | done hentries hdone hquiet haccepted =>
      have hbytes := h.bytes
      rw [hentries, List.flatMap_nil, List.append_nil] at hbytes
      exact .done hdone (by rw [hquiet.sent, haccepted, hbytes])
    | idle hkept => exact .kept hkept hladen'
    | pushed _ _ _ hkept => exact .kept hkept hladen'
    | joined _ _ _ _ hkept => exact .kept hkept hladen'
    | whole _ hkept => exact .kept hkept hladen'
    | left _ hkept => exact .kept hkept hladen'

theorem Standing.sent (h : s.Standing) (halive : s.world.destroyed = false) :
    s.world.sent <+: s.accepted ∧ (s.world.writeQueue = [] → s.world.sent = s.accepted) := by
  cases h with
  | gone h => cases h.symm.trans halive
  | done h hsent => exact ⟨hsent ▸ List.prefix_refl _, fun _ ↦ hsent⟩
  | @kept entries ended h =>
    refine ⟨⟨_, h.bytes⟩, fun hnil ↦ ?_⟩
    have hqueue := h.queues.queue
    rw [hnil] at hqueue
    obtain rfl : entries = [] :=
      List.map_eq_nil_iff.mp (List.append_eq_nil_iff.mp hqueue.symm).1
    exact (List.append_nil _).symm.trans h.bytes

/-! ## Runs -/

/-- The states that a socket reaches when no empty `Buffer` is written. -/
theorem standing_of_filled (m : Heap) {connecting readable : Bool} {pool : Pool}
    {kernel : ℕ → KernelReply}
    (h : ((machine (poolWriter m)).restrict Filled).Reaches
      (start .tcp connecting readable pool kernel) s) :
    (s.Standing ∧ s.filled.flatten = s.accepted) ∧ s.world.type = .tcp := by
  have hall : (s.Standing ∧ s.Recorded ∧ s.pieces.flatten = s.accepted) ∧
      s.world.type = .tcp ∧ s.world.Sized := by
    refine h.invariant
      (p := fun s ↦ (s.Standing ∧ s.Recorded ∧ s.pieces.flatten = s.accepted) ∧
        s.world.type = .tcp ∧ s.world.Sized)
      ⟨⟨.kept (start_kept .tcp connecting readable pool kernel) (fun b hb ↦ by cases hb),
        ⟨.nil, fun w hw ↦ (by cases hw), fun p hp ↦ by cases hp⟩, rfl⟩, rfl, rfl⟩ ?_
    rintro s t ev ⟨⟨hstanding, hrecorded, hflatten⟩, htcp, hsized⟩ ⟨hallows, hfilled⟩ ht
    obtain rfl := Except.ok.inj ht
    exact ⟨⟨hstanding.step htcp hsized hallows hfilled, hrecorded.step _ ev,
      flatten_step _ hrecorded hflatten ev⟩, (step_type _ s ev).trans htcp,
      (step_sized _ hsized ev).1⟩
  exact ⟨⟨hall.1.1, flatten_filled hall.1.2.2⟩, hall.2.1⟩

/-- In every run in which no empty `Buffer` is written, no write destroys the socket, and what the
kernel gets are the bytes of the writes that are not empty: the same as in any other run with these
writes. -/
theorem harmless_of_filled (m : Heap) {connecting readable : Bool} {pool : Pool}
    {kernel : ℕ → KernelReply}
    (h : ((machine (poolWriter m)).restrict Filled).Reaches
      (start .tcp connecting readable pool kernel) s) :
    (∀ ev, s.Allows ev → s.Filled ev → s.Sends ev → s.world.destroyed = false →
      (s.step (poolWriter m) ev).world.destroyed = false) ∧
    (s.world.destroyed = false → s.world.sent <+: s.filled.flatten) ∧
    ∀ {connecting' readable' : Bool} {pool' : Pool} {kernel' : ℕ → KernelReply} {t : Tracked},
      ((machine (poolWriter m)).restrict Filled).Reaches
        (start .tcp connecting' readable' pool' kernel') t →
      t.filled = s.filled → s.Drained → t.Drained → s.world.sent = t.world.sent := by
  obtain ⟨⟨hstanding, hflatten⟩, htcp⟩ := standing_of_filled m h
  refine ⟨fun ev hallows hfilled hsends halive ↦ ?_, fun halive ↦ ?_, fun ht hsame hs hdrained ↦ ?_⟩
  · cases hstanding with
    | gone hgone => cases hgone.symm.trans halive
    | kept hkept hladen =>
      exact ((hkept.sends hladen htcp hallows hfilled).1 hsends).trans halive
    | done hdone hsent =>
      cases ev with
      | write d encoding fd cb =>
        have hwrite : (s.world.write (poolWriter m) d encoding fd (cb.map .user)).2 = s.world := by
          rw [World.write]
          split_ifs with _ hwaits
          · rfl
          · rfl
          · simp [hdone.connecting, hdone.queue] at hwaits
          · rw [World.writeOut, if_pos (by simp [hdone.writable])]
        rw [step, wrote_world, hwrite]
        exact halive
      | part p =>
        cases p with
        | turn =>
          obtain ⟨d, rest, hq⟩ := hsends
          cases hdone.queue.symm.trans hq
        | established | mark | soon => exact hsends.elim
      | destroy | others p => exact hsends.elim
  · rw [hflatten]
    exact (hstanding.sent halive).1
  · obtain ⟨⟨hstanding', hflatten'⟩, -⟩ := standing_of_filled m ht
    rw [(hstanding.sent hs.1).2 hs.2, (hstanding'.sent hdrained.1).2 hdrained.2, ← hflatten,
      ← hflatten', hsame]

/-- An empty string, then a buffer, that are written before there is a connection; and the buffer
alone. -/
theorem harmless_of_filled_string : ∃ s t : Tracked, s.pieces = [[], [1, 2]] ∧ t.pieces = [[1, 2]] ∧
    s.world.sent = [1, 2] ∧ s.world.sent = t.world.sent := by
  have hstep {s : Tracked} (ev : SocketEvent)
      (h : ((machine (poolWriter Sockets.blankHeap)).restrict Filled).Reaches connectingSocket s)
      (hfilled : s.Filled ev) (hallows : s.Allows ev) :
      ((machine (poolWriter Sockets.blankHeap)).restrict Filled).Reaches connectingSocket
        (s.step (poolWriter Sockets.blankHeap) ev) := h.step ⟨hallows, hfilled⟩ rfl
  have hsend {s : Tracked} (h : s.world.nextReply = .wrote 1) : s.world.nextReply ≠ .failed :=
    h ▸ KernelReply.noConfusion
  have hbytes (s : Tracked) (h : s.world.nextReply = .wrote 1) :
      s.Filled (.write (.buf (.own [1, 2])) none none none) :=
    ⟨hsend h, trivial, fun b _ _ _ he ↦ (by cases he; decide)⟩
  have hopen (s : Tracked) (h : s.world.nextReply = .wrote 1) : s.Filled (.part .established) :=
    ⟨hsend h, trivial, fun b _ _ _ he ↦ by cases he⟩
  have hturn (s : Tracked) (h : s.world.nextReply = .wrote 1)
      (hexact : s.Exact (.part .turn)) : s.Filled (.part .turn) :=
    ⟨hsend h, hexact, fun b _ _ _ he ↦ by cases he⟩
  have hempty (s : Tracked) (h : s.world.nextReply = .wrote 1) (hwaits : s.Waits) :
      s.Filled (.write (.str []) none none none) :=
    ⟨hsend h, ⟨rfl, fun hidle ↦ absurd hwaits hidle⟩, fun b _ _ _ he ↦ by cases he⟩
  have hs₁ := hstep _ .init (hempty connectingSocket rfl (.inl rfl)) trivial
  have hs₂ := hstep _ hs₁ (hbytes _ rfl) trivial
  have hs₃ := hstep _ hs₂ (hopen _ rfl) trivial
  have hs₄ := hstep _ hs₃ (hturn _ rfl fun t rest hq ↦ (by
    cases hq
    exact fun _ ↦ ⟨Nat.zero_le _, fun hfull ↦ absurd hfull (by decide)⟩)) trivial
  have hs₅ := hstep _ hs₄ (hturn _ rfl fun t rest hq ↦ by cases hq) trivial
  have hs₆ := hstep _ hs₅ (hturn _ rfl fun t rest hq ↦ by cases hq) trivial
  have ht₁ := hstep _ .init (hbytes connectingSocket rfl) trivial
  have ht₂ := hstep _ ht₁ (hopen _ rfl) trivial
  have ht₃ := hstep _ ht₂ (hturn _ rfl fun t rest hq ↦ by cases hq) trivial
  have ht₄ := hstep _ ht₃ (hturn _ rfl fun t rest hq ↦ by cases hq) trivial
  exact ⟨_, _, rfl, rfl, rfl,
    (harmless_of_filled Sockets.blankHeap hs₆).2.2 ht₄ rfl ⟨rfl, rfl⟩ ⟨rfl, rfl⟩⟩

/-- An open socket, of which the kernel takes all bytes, is destroyed by an empty buffer. -/
theorem destroyed_by_empty :
    (start .tcp false true ⟨fun _ _ ↦ 0, 0, 0⟩ fun _ ↦ .wrote 10).world.destroyed = false ∧
      ((start .tcp false true ⟨fun _ _ ↦ 0, 0, 0⟩ fun _ ↦ .wrote 10).step
        (poolWriter Sockets.blankHeap) (.write (.buf (.own [])) none none none)).world.destroyed =
          true := ⟨rfl, rfl⟩

end Step

end Tracked

end SpiderNode.Net
