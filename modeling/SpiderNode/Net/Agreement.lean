import SpiderNode.Net.Run
import SpiderNode.Buffer.Encoders

/-!
# A socket and a buffer disagree about encodings

`_writeOut` turns the byte count that `pool.write` reports back into a position in the string. For
UTF-8 it has the encoder's own count of characters; for every other encoding it takes the number of
bytes for the number of characters. The property studied here is that writing a string to a fresh
socket, and flushing until nothing is queued, sends the bytes of `new Buffer(s, encoding)`, and the
result is the exact set of strings for which it does.
-/

namespace SpiderNode.Net

open Buffer (Heap poolWriter newBuffer writeAscii dropNul)

/-! ## Writing and flushing -/

/-- Write a string to a socket and flush it `n` times. -/
def sending (pw : PoolWriter) (w : World) (s : JSString) (encoding : Encoding) :
    ℕ → Except JsError World
  | 0 =>
    match w.write pw (.str s) (some encoding) none none with
    | (.ok _, w) => .ok w
    | (.error e, _) => .error e
  | n + 1 =>
    match sending pw w s encoding n with
    | .error e => .error e
    | .ok w =>
      match w.flush pw with
      | (.ok _, w) => .ok w
      | (.error e, _) => .error e

theorem sending_succ {pw : PoolWriter} {w w' : World} {s : JSString} {encoding : Encoding} {n : ℕ}
    (h : sending pw w s encoding n = .ok w') :
    sending pw w s encoding (n + 1) =
      match w'.flush pw with
      | (.ok _, w) => .ok w
      | (.error e, _) => .error e := by
  simp only [sending, h]

/-- A socket that is open and has nothing queued. -/
def opened (type : SocketType) (pool : Pool) (kernel : ℕ → KernelReply) : World :=
  (Run.start type false true pool kernel).world

/-- Writing `s` agrees with `new Buffer(s, encoding)`: whatever the encoders find behind their
memory and however little the kernel takes at a time, no call throws, the socket is not destroyed,
and when nothing is queued the kernel has the bytes of the buffer; and that comes about if the
kernel always takes something. -/
def Agrees (type : SocketType) (pool : Pool) (s : JSString) (encoding : Encoding) : Prop :=
  ∃ b, (∀ m, newBuffer m s encoding = .ok b) ∧
    ∀ (m : Heap) (kernel : ℕ → KernelReply), (∀ n, kernel n ≠ .failed) →
      (∀ n, ∃ w, sending (poolWriter m) (opened type pool kernel) s encoding n = .ok w ∧
        w.destroyed = false ∧ (w.writeQueue = [] → w.sent = b)) ∧
      ((∀ n, ∃ k, kernel n = .wrote (k + 1)) →
        ∃ n w, sending (poolWriter m) (opened type pool kernel) s encoding n = .ok w ∧
          w.writeQueue = [])

/-! ## A queue that empties -/

namespace World

/-- No descriptor and no callback is queued. -/
structure Calm (w : World) : Prop where
  fds : ∀ fd ∈ w.writeQueueFD, fd = none
  callbacks : ∀ cb ∈ w.writeQueueCallbacks, cb = none

theorem calm_of_subset {w w' : World} (h : Calm w) (hfd : w'.writeQueueFD ⊆ none :: w.writeQueueFD)
    (hcb : w'.writeQueueCallbacks ⊆ none :: w.writeQueueCallbacks) : Calm w' := by
  constructor
  · intro fd hmem
    rcases List.mem_cons.mp (hfd hmem) with rfl | hmem
    · rfl
    · exact h.fds fd hmem
  · intro cb hmem
    rcases List.mem_cons.mp (hcb hmem) with rfl | hmem
    · rfl
    · exact h.callbacks cb hmem

theorem handOver_calm {w : World} (h : Calm w) (st : Staged) :
    Calm (w.handOver st none none).2 := by
  obtain ⟨n, sent, fds, hw⟩ := w.writeImpl_frame st.buffer st.off st.len none
  unfold handOver
  generalize w.writeImpl st.buffer st.off st.len none = res at hw
  obtain ⟨o, w₁⟩ := res
  obtain rfl : w₁ = _ := hw
  cases o with
  | error e =>
    simp only [destroy]
    split_ifs
    · exact ⟨h.fds, h.callbacks⟩
    · exact ⟨by simp, by simp⟩
  | ok taken =>
    simp only [invoke]
    by_cases htaken : taken = some st.len
    · rw [if_pos htaken]
      cases st.queuedData <;> exact ⟨h.fds, h.callbacks⟩
    · rw [if_neg htaken]
      refine calm_of_subset h ?_ (by simp [unshift])
      simp only [unshift]
      split <;> simp

theorem writeOut_calm {w : World} (h : Calm w) (pw : PoolWriter) (d : Data)
    (encoding : Option Encoding) : Calm (w.writeOut pw d encoding none none).2 := by
  have hstage : Calm (w.stage pw d encoding none).2 := by
    cases d with
    | buf b => exact h
    | str s =>
      simp only [stage, stageString]
      split
      · exact ⟨h.fds, h.callbacks⟩
      · split_ifs <;> first
          | exact ⟨h.fds, h.callbacks⟩
          | exact calm_of_subset h (by simp [unshift]) (by simp [unshift])
  unfold writeOut
  split
  · exact h
  · generalize w.stage pw d encoding none = res at hstage
    obtain ⟨o, w₁⟩ := res
    cases o with
    | error e => exact hstage
    | ok st => exact handOver_calm hstage st

theorem calm_taking {w : World} (h : Calm w) (d : Data) (rest : List QueueEntry) :
    Calm (w.taking d rest) :=
  ⟨fun fd hmem ↦ h.fds fd (List.mem_of_mem_tail hmem),
    fun cb hmem ↦ h.callbacks cb (List.mem_of_mem_tail hmem)⟩

theorem Calm.head_fd {w : World} (h : Calm w) : w.writeQueueFD.head?.join = none := by
  cases hq : w.writeQueueFD with
  | nil => rfl
  | cons fd l => exact h.fds fd (by simp [hq])

theorem Calm.head_callback {w : World} (h : Calm w) : w.writeQueueCallbacks.head?.join = none := by
  cases hq : w.writeQueueCallbacks with
  | nil => rfl
  | cons cb l => exact h.callbacks cb (by simp [hq])

/-- A socket on its way to having sent `acc`: what it has queued is not empty, comes without
descriptors and callbacks, and meets a kernel that does not fail. -/
structure Settling (G : Option TextEncoding → JSString → Prop) (acc : Bytes)
    (kernel : ℕ → KernelReply) (w : World) (items : List (Data × Option Encoding)) : Prop where
  live : Live G acc w items false
  calm : Calm w
  solid : ∀ i ∈ items, i.1.length ≠ 0
  kernel : w.kernel = kernel

section Settling

variable {G : Option TextEncoding → JSString → Prop} {acc : Bytes} {w : World}
  {kernel : ℕ → KernelReply} {items : List (Data × Option Encoding)} {pw : PoolWriter}

theorem not_bare {d : Data} (h : d.length ≠ 0) : ¬Bare d := by
  cases d with
  | buf b => exact h
  | str s => exact id

/-- **Flushing.** Nothing throws, the socket goes on settling, and the kernel gets something if it
wants to and there is something. -/
theorem flushLoop_settling (T : Trusted pw G) (hkernel : ∀ n, kernel n ≠ .failed) (fuel : ℕ) :
    ∀ {w : World} {items : List (Data × Option Encoding)}, Settling G acc kernel w items →
      ∃ o w' items' b, flushLoop pw fuel w = (.ok o, w') ∧ Settling G acc kernel w' items' ∧
        w'.sent = w.sent ++ b ∧
        (0 < fuel → items ≠ [] → (∀ n, ∃ k, kernel n = .wrote (k + 1)) → b ≠ []) := by
  induction fuel with
  | zero => exact fun h ↦ ⟨true, _, _, [], rfl, h, by simp, by simp⟩
  | succ fuel ih =>
    intro w items h
    cases items with
    | nil =>
      have hq : w.writeQueue = [] := by simpa using h.live.queue
      simp only [flushLoop, hq]
      refine ⟨true, _, [], [], rfl, ⟨?_, ⟨h.calm.fds, h.calm.callbacks⟩, by simp, h.kernel⟩,
        by simp, by simp⟩
      exact ⟨rfl, h.live.encodings, h.live.good, h.live.size, h.live.bytes, h.live.alive,
        h.live.connecting, h.live.writable, h.live.unshut⟩
    | cons i items =>
      -- the first item is taken from the queue and written out
      obtain ⟨rest, hq, he, h₁⟩ := live_taking h.live
      rw [flushLoop_succ pw fuel hq, he, h.calm.head_fd, h.calm.head_callback]
      have hl := writeOut_leaves (w := w.taking i.1 rest) T (h.live.good i (by simp)) h₁ none none
      have hcalm := writeOut_calm (calm_taking h.calm i.1 rest) pw i.1 i.2
      have hlen : i.1.length ≠ 0 := h.solid i (by simp)
      generalize (w.taking i.1 rest).writeOut pw i.1 i.2 none none = res at hl hcalm
      obtain ⟨o, w₂⟩ := res
      have hk₂ : w₂.kernel = kernel := hl.kernel.trans h.kernel
      obtain ⟨b, hb, hsome⟩ := hl.sends
      have hsent : w₂.sent = w.sent ++ b := hb
      have hne : (∀ n, ∃ k, kernel n = .wrote (k + 1)) → b ≠ [] := by
        intro hwill
        obtain ⟨k, hk⟩ := hwill w.calls
        refine hsome k ?_ hlen rfl
        rw [← h.kernel] at hk
        exact hk
      rcases hl.left with ⟨items', hlive, heq, hsolid⟩ | ⟨-, -, ⟨n, hn⟩ | hbare | hfd⟩
      · have hset : Settling G acc kernel w₂ items' := by
          refine ⟨hlive, hcalm, fun j hj ↦ ?_, hk₂⟩
          rcases hsolid (.inl hlen) j hj with hj' | hj'
          · exact h.solid j (by simp [hj'])
          · exact hj'
        cases o with
        | error e => obtain ⟨_, _, hcb⟩ := hl.throws e rfl; cases hcb
        | ok flushed =>
          cases flushed with
          | false => exact ⟨false, w₂, items', b, rfl, hset, hsent, fun _ _ ↦ hne⟩
          | true =>
            obtain ⟨o, w', items'', b', hrun, hset', hsent', -⟩ := ih hset
            refine ⟨o, w', items'', b ++ b', hrun, hset', ?_, fun _ _ hwill ↦ ?_⟩
            · rw [hsent', hsent, List.append_assoc]
            · exact List.append_ne_nil_of_left_ne_nil (hne hwill) b'
      -- the other ways to leave: a failure, nothing to write, and a descriptor
      · have hk₁ : (w.taking i.1 rest).kernel = kernel := h.kernel
        exact absurd (hk₁ ▸ hn) (hkernel n)
      · exact absurd hbare (not_bare hlen)
      · exact absurd rfl hfd

/-- What a fresh socket is once its string is handed over. -/
theorem Leaves.settling {size : ℕ} {r : Call Bool} (hkernel : ∀ n, kernel n ≠ .failed)
    (hl : Leaves G acc w [] false size False none none r) (hw : w.kernel = kernel)
    (hsize : size ≠ 0 ∨ w.type = .tcp) (hcalm : Calm r.2) :
    ∃ o w' items', r = (.ok o, w') ∧ Settling G acc kernel w' items' := by
  obtain ⟨o, w'⟩ := r
  rcases hl.left with ⟨items', hlive, -, hsolid⟩ | ⟨-, -, ⟨n, hn⟩ | hbare | hfd⟩
  · cases o with
    | error e => obtain ⟨_, _, hcb⟩ := hl.throws e rfl; cases hcb
    | ok o =>
      refine ⟨o, w', items', rfl, hlive, hcalm, fun i hi ↦ ?_, hl.kernel.trans hw⟩
      rcases hsolid hsize i hi with hi' | hi'
      · cases hi'
      · exact hi'
  · exact absurd (hw ▸ hn) (hkernel n)
  · exact hbare.elim
  · exact absurd rfl hfd

end Settling

end World

section Sending

variable {G : Option TextEncoding → JSString → Prop} {acc : Bytes} {type : SocketType} {pool : Pool}
  {kernel : ℕ → KernelReply} {pw : PoolWriter} {s : JSString} {encoding : Encoding}

theorem write_opened (type : SocketType) (pool : Pool) (kernel : ℕ → KernelReply) (pw : PoolWriter)
    (s : JSString) (encoding : Encoding) :
    (opened type pool kernel).write pw (.str s) (some encoding) none none =
      (opened type pool kernel).writeOut pw (.str s) (some encoding) none none := by
  simp [World.write, opened, Run.start]

theorem sending_zero (type : SocketType) (pool : Pool) (kernel : ℕ → KernelReply)
    (pw : PoolWriter) (s : JSString) (encoding : Encoding) :
    sending pw (opened type pool kernel) s encoding 0 =
      match (opened type pool kernel).stageString pw s (some encoding) none with
      | (.error e, _) => .error e
      | (.ok st, w) =>
        match w.handOver st none none with
        | (.ok _, w) => .ok w
        | (.error e, _) => .error e := by
  rw [sending, write_opened, World.writeOut, if_neg (by simp [opened, Run.start]), World.stage]
  rcases (opened type pool kernel).stageString pw s (some encoding) none with ⟨o, w⟩
  cases o <;> rfl

theorem opened_live (acc : Bytes) :
    Live G acc { opened type pool kernel with sent := (opened type pool kernel).sent ++ acc } []
      false := by
  constructor <;> simp [opened, Run.start]

/-- Once a string is staged right, sending it succeeds. -/
theorem sending_settling (T : Trusted pw G) (hkernel : ∀ n, kernel n ≠ .failed)
    (hst : World.Stages G acc (opened type pool kernel) [] false s.length
      ((opened type pool kernel).stageString pw s (some encoding) none))
    (htype : s = [] → type = .tcp) (n : ℕ) :
    ∃ w items, sending pw (opened type pool kernel) s encoding n = .ok w ∧
      World.Settling G acc kernel w items := by
  induction n with
  | zero =>
    have hl := World.Stages.writeOut hst none rfl
    have hcalm := World.writeOut_calm (w := opened type pool kernel)
      ⟨by simp [opened, Run.start], by simp [opened, Run.start]⟩ pw (.str s) (some encoding)
    obtain ⟨o, w, items, hr, hset⟩ := World.Leaves.settling hkernel hl rfl
      (by
        by_cases hs : s = []
        · exact .inr (htype hs)
        · exact .inl (by simpa using hs)) hcalm
    refine ⟨w, items, ?_, hset⟩
    simp only [sending, write_opened, hr]
  | succ n ih =>
    obtain ⟨w, items, hrun, hset⟩ := ih
    obtain ⟨o, w', items', -, hflush, hset', -⟩ :=
      World.flushLoop_settling T hkernel (w.writeQueue.length + 1) hset
    refine ⟨w', items', ?_, hset'⟩
    simp only [sending, hrun, World.flush, hflush]

/-- If the kernel always takes something, then in the end nothing is queued: each flush before that
makes what is sent longer. -/
theorem sending_progress (T : Trusted pw G) (hwill : ∀ n, ∃ k, kernel n = .wrote (k + 1))
    (hst : World.Stages G acc (opened type pool kernel) [] false s.length
      ((opened type pool kernel).stageString pw s (some encoding) none))
    (htype : s = [] → type = .tcp) :
    ∃ n w, sending pw (opened type pool kernel) s encoding n = .ok w ∧ w.writeQueue = [] := by
  have hkernel : ∀ n, kernel n ≠ .failed := by
    intro n hn
    obtain ⟨k, hk⟩ := hwill n
    rw [hk] at hn
    cases hn
  by_contra hnone
  have hbusy : ∀ n w, sending pw (opened type pool kernel) s encoding n = .ok w →
      w.writeQueue ≠ [] := fun n w hw hq ↦ hnone ⟨n, w, hw, hq⟩
  -- as long as there is something queued, each flush sends a byte at least
  have hgrows : ∀ n, ∃ w, sending pw (opened type pool kernel) s encoding n = .ok w ∧
      n ≤ w.sent.length := by
    intro n
    induction n with
    | zero =>
      obtain ⟨w, -, hrun, -⟩ := sending_settling T hkernel hst htype 0
      exact ⟨w, hrun, Nat.zero_le _⟩
    | succ n ih =>
      obtain ⟨w, hrun, hle⟩ := ih
      obtain ⟨w₁, items, hrun₁, hset⟩ := sending_settling T hkernel hst htype n
      obtain rfl : w = w₁ := Except.ok.inj (hrun.symm.trans hrun₁)
      have hitems : items ≠ [] := by
        rintro rfl
        exact hbusy n w hrun (by simpa using hset.live.queue)
      obtain ⟨o, w', items', b, hflush, -, hsent, hsome⟩ :=
        World.flushLoop_settling T hkernel (w.writeQueue.length + 1) hset
      have hb := List.length_pos_of_ne_nil (hsome (Nat.succ_pos _) hitems hwill)
      refine ⟨w', ?_, ?_⟩
      · simp only [sending, hrun, World.flush, hflush]
      · rw [hsent, List.length_append]
        omega
  -- more would then be sent than there is
  obtain ⟨w, hrun, hle⟩ := hgrows (acc.length + 1)
  obtain ⟨w₁, items, hrun₁, hset⟩ := sending_settling T hkernel hst htype (acc.length + 1)
  obtain rfl : w = w₁ := Except.ok.inj (hrun.symm.trans hrun₁)
  have hbytes := congrArg List.length hset.live.bytes
  rw [List.length_append] at hbytes
  omega

/-- Staging right is enough for agreement. -/
theorem agrees_of_stages (hnew : ∀ m, newBuffer m s encoding = .ok acc)
    (htype : s = [] → type = .tcp)
    (hst : ∀ m, ∃ G, Trusted (poolWriter m) G ∧ ∀ kernel,
      World.Stages G acc (opened type pool kernel) [] false s.length
        ((opened type pool kernel).stageString (poolWriter m) s (some encoding) none)) :
    Agrees type pool s encoding := by
  refine ⟨acc, hnew, fun m kernel hkernel ↦ ?_⟩
  obtain ⟨G, T, hst⟩ := hst m
  refine ⟨fun n ↦ ?_, fun hwill ↦ sending_progress T hwill (hst kernel) htype⟩
  obtain ⟨w, items, hrun, hset⟩ := sending_settling T hkernel (hst kernel) htype n
  refine ⟨w, hrun, hset.live.alive, fun hq ↦ ?_⟩
  have hqueue := hset.live.queue
  rw [hq] at hqueue
  obtain rfl : items = [] := by simpa using hqueue.symm
  simpa using hset.live.bytes

/-- With nothing left to stage no encoder is relied on. -/
theorem trusted_false (pw : PoolWriter) : Trusted pw fun _ _ ↦ False :=
  ⟨fun h ↦ h.elim, fun h ↦ h.elim, fun h ↦ h.elim, fun h ↦ h.elim⟩

/-- A string that goes into the pool in one piece. -/
theorem agrees_of_stores (hnew : ∀ m, newBuffer m s encoding = .ok acc)
    (htype : s = [] → type = .tcp)
    (hst : ∀ m, World.Stores (poolWriter m) pool.ensure.room s (some encoding) acc s.length) :
    Agrees type pool s encoding := by
  refine agrees_of_stages hnew htype fun m ↦ ⟨_, trusted_false _, fun kernel ↦ ?_⟩
  exact World.Stores.stages (hst m) (fun _ ↦ rfl) (fun h ↦ absurd rfl h) (opened_live acc) none

end Sending

/-! ## The strings that come through -/

/-- The strings that reach the kernel as a buffer would hold them. Under UTF-8 they fit in the pool,
and do not end in a `NUL` unless they fill it to the brim; in the single-byte encodings every code
unit comes through; and in the others the number of bytes is never the number of characters. The
empty string is a problem of its own: `sendMsg` queues it when the kernel is busy, and then refuses
it. -/
def Faithful (type : SocketType) (room : ℕ) (s : JSString) (encoding : Encoding) : Prop :=
  (s = [] → type = .tcp) ∧
    match encoding with
    | .text .utf8 | .text .utf8Dash =>
      WellFormed s = true ∧ (utf8Bytes s).length ≤ room ∧
        ((utf8Bytes s).length = room ∨ (utf8Bytes s).getLast? ≠ some 0)
    | .text .ascii => ∀ u ∈ s, (isHigh u || isLow u) = false ∧ (Buffer.asciiByte u).isSome = true
    | .text .binary => ∀ u ∈ s, u.toNat < 0x100
    | .base64 | .ucs2 | .hex => s = []

section Enough

variable {type : SocketType} {pool : Pool} {s : JSString}

theorem agrees_utf8 {e : TextEncoding} (he : isUtf8 (some e) = true) (htype : s = [] → type = .tcp)
    (hw : WellFormed s = true) (hfit : (utf8Bytes s).length ≤ pool.ensure.room)
    (hnul : (utf8Bytes s).length = pool.ensure.room ∨ (utf8Bytes s).getLast? ≠ some 0) :
    Agrees type pool s (.text e) := by
  have hroom := pool.kMinPoolSpace_le_room_ensure
  rw [kMinPoolSpace] at hroom
  have hutf8 : World.defaultsToUtf8 (some (.text e)) = true := by
    cases e <;> simp_all [isUtf8, World.defaultsToUtf8]
  have hpart : (if (utf8Bytes s).length < pool.ensure.room then utf8Bytes s
      else dropNul (utf8Bytes s)) = dropNul (utf8Bytes s) := by
    split
    · rename_i hlt
      rw [dropNul, if_neg (hnul.resolve_left (Nat.ne_of_lt hlt))]
    · rfl
  refine agrees_of_stores (fun m ↦ Buffer.newBuffer_utf8 m he hw) htype fun m ↦ ?_
  obtain ⟨tail, hwrite, hle⟩ := Buffer.utf8Write_of_fits m hw hfit
  rw [hpart] at hwrite hle
  refine ⟨⟨tail, s.length, hle, ?_, by simp [hutf8]⟩, Nat.le_refl _, fun hs ↦ ?_⟩
  · simp only [poolWriter, World.poolEncoding, hutf8, if_true, Buffer.write, Nat.min_self, hwrite]
  · have hne : utf8Bytes s ≠ [] :=
      encodeText_ne_nil (e := none) (s := s) (by simpa [Encodable, isUtf8] using hw) hs
    rw [dropNul]
    split
    · rename_i hlast
      have hlen := hnul.resolve_right (not_not_intro hlast)
      apply List.ne_nil_of_length_pos
      rw [List.length_dropLast]
      omega
    · exact hne

/-- The strings of the single-byte encodings that come through. -/
def OneByte : Option TextEncoding → JSString → Prop
  | some .ascii, s => ∀ u ∈ s, (isHigh u || isLow u) = false ∧ (Buffer.asciiByte u).isSome = true
  | some .binary, s => ∀ u ∈ s, u.toNat < 0x100
  | _, _ => False

theorem filterMap_asciiByte {s : JSString} (h : ∀ u ∈ s, (Buffer.asciiByte u).isSome = true) :
    s.filterMap Buffer.asciiByte = latin1Bytes s := by
  induction s with
  | nil => rfl
  | cons u s ih =>
    have hu : Buffer.asciiByte u = some u.toUInt8 := by
      have := h u (by simp)
      rw [Buffer.asciiByte] at this ⊢
      split at this
      · rename_i hc
        rw [if_pos hc]
      · cases this
    rw [List.filterMap_cons, hu, ih fun v hv ↦ h v (by simp [hv])]
    rfl

/-- As many code units are stored as there is space for. -/
theorem poolWriter_oneByte (m : Heap) {e : TextEncoding} {s : JSString} (h : OneByte (some e) s)
    (room : ℕ) : poolWriter m (.text e) s room =
      .ok ⟨latin1Bytes (s.take (min s.length room)), (s.take (min s.length room)).length,
        m.charsWritten⟩ := by
  match e, h with
  | .ascii, h =>
    have hw := wellFormed_of_not_surrogate fun u hu ↦ (h u hu).1
    have hout : writeAscii m (min s.length room) (utf8Bytes s)
        = latin1Bytes (s.take (min s.length room)) := by
      rw [Buffer.writeAscii_utf8Bytes m fun u hu ↦ (h u hu).1,
        filterMap_asciiByte fun u hu ↦ (h u hu).2, latin1Bytes, latin1Bytes, List.map_take]
    simp [poolWriter, Buffer.write, Buffer.asciiWrite, hw, hout, latin1Bytes]
  | .binary, h =>
    have htake : s.take (min s.length room) = s.take room := by
      rw [Nat.min_comm, ← List.take_eq_take_min]
    have hall : ∀ u ∈ s.take room, u.toNat < 0x100 := fun u hu ↦ h u (List.mem_of_mem_take hu)
    rw [htake]
    simp only [poolWriter, Buffer.write, Buffer.binaryWrite]
    rw [if_pos hall]

/-- On these strings the native encoders can be relied on. -/
theorem trusted_oneByte (m : Heap) : Trusted (poolWriter m) OneByte where
  encodable := by
    intro e s h
    match e, h with
    | some .ascii, _ | some .binary, _ => rfl
  drop := by
    intro e s k h _ _
    match e, h with
    | some .ascii, h | some .binary, h => exact fun u hu ↦ h u (List.mem_of_mem_drop hu)
  append := by
    intro e s t hs ht
    match e, hs, ht with
    | some .ascii, hs, ht | some .binary, hs, ht =>
      exact fun u hu ↦ (List.mem_append.mp hu).elim (hs u) (ht u)
  exact := by
    intro e s room h hroom
    have hroom' : 128 ≤ room := hroom
    have hpos : s ≠ [] → 0 < min s.length room := fun hs ↦ by
      have := List.length_pos_of_ne_nil hs
      omega
    have hexact : ∀ e, isUtf8 (some e) = false → OneByte (some e) s →
        ∃ (k : ℕ) (tail : Bytes) (chars : ℤ), k ≤ s.length ∧ (s ≠ [] → 0 < k) ∧
          Encodable (some e) (s.take k) = true ∧
          (encodeText (some e) (s.take k) ++ tail).length ≤ room ∧
          (isUtf8 (some e) = true → chars = k) ∧ poolWriter m (.text e) s room =
            .ok ⟨encodeText (some e) (s.take k) ++ tail,
              (encodeText (some e) (s.take k)).length, chars⟩ := by
      intro e he h
      refine ⟨min s.length room, [], m.charsWritten, Nat.min_le_left _ _, hpos,
        by simp [Encodable, he], ?_, by simp [he], ?_⟩
      · simp only [encodeText, he, Bool.false_eq_true, if_false, latin1Bytes, List.append_nil,
          List.length_map, List.length_take]
        omega
      · rw [poolWriter_oneByte m h]
        simp [encodeText, he, latin1Bytes]
    match e, h with
    | some .ascii, h => exact hexact .ascii rfl h
    | some .binary, h => exact hexact .binary rfl h

theorem agrees_oneByte {e : TextEncoding} (htype : s = [] → type = .tcp)
    (hs : OneByte (some e) s) : Agrees type pool s (.text e) := by
  have hnew : ∀ m, newBuffer m s (.text e) = .ok (encodeText (some e) s) := by
    intro m
    match e, hs with
    | .ascii, hs =>
      have hw := wellFormed_of_not_surrogate fun u hu ↦ (hs u hu).1
      have hout : writeAscii m s.length (utf8Bytes s) = latin1Bytes s := by
        rw [Buffer.writeAscii_utf8Bytes m fun u hu ↦ (hs u hu).1,
          filterMap_asciiByte fun u hu ↦ (hs u hu).2]
        exact List.take_of_length_le (by simp [latin1Bytes])
      simp [newBuffer, Buffer.byteLength, Buffer.write, Buffer.asciiWrite, hw, hout, encodeText,
        isUtf8]
    | .binary, hs =>
      have hall : ∀ u ∈ s.take (s.length + m.slack), u.toNat < 0x100 := fun u hu ↦
        hs u (List.mem_of_mem_take hu)
      have htake : s.take (s.length + m.slack) = s := List.take_of_length_le (Nat.le_add_right _ _)
      simp only [newBuffer, Buffer.byteLength, Buffer.write, Buffer.binaryWrite]
      rw [if_pos hall, htake]
      simp [encodeText, isUtf8, latin1Bytes]
  refine agrees_of_stages hnew htype fun m ↦ ⟨OneByte, trusted_oneByte m, fun kernel ↦ ?_⟩
  exact World.Trusted.stages (e := some e) (trusted_oneByte m) hs (opened_live _) none

theorem agrees_nil {encoding : Encoding} (htype : type = .tcp)
    (he : encoding = .base64 ∨ encoding = .ucs2 ∨ encoding = .hex) :
    Agrees type pool [] encoding := by
  have hnew : ∀ m, newBuffer m [] encoding = .ok [] := by
    intro m
    have hascii : ∀ n, writeAscii m n [] = [] := fun n ↦ by simp [writeAscii]
    rcases he with rfl | rfl | rfl
    · have hslack : ¬(m.slack : ℤ) < 0 := by omega
      simp [newBuffer, Buffer.byteLength, Buffer.base64DecodedSize, Buffer.write,
        Buffer.base64Write, hascii, Buffer.decodeDigits, hslack]
    · simp [newBuffer, Buffer.byteLength, Buffer.write, Buffer.ucs2Write]
    · simp [newBuffer, Buffer.byteLength, Buffer.write, Buffer.hexWrite, Buffer.hexBytes]
  have hutf8 : World.defaultsToUtf8 (some encoding) = false := by
    rcases he with rfl | rfl | rfl <;> rfl
  have hroom := pool.kMinPoolSpace_le_room_ensure
  rw [kMinPoolSpace] at hroom
  refine agrees_of_stores hnew (fun _ ↦ htype) fun m ↦ ?_
  obtain ⟨tail, chars, hwrite, hle, -⟩ :=
    Buffer.write_nil m encoding pool.ensure.room (by omega)
  refine ⟨⟨tail, chars, hle, ?_, by simp [hutf8]⟩, Nat.le_refl _, fun h ↦ absurd rfl h⟩
  simp only [World.poolEncoding, hutf8, Bool.false_eq_true, if_false, Option.getD_some, poolWriter,
    hwrite, List.nil_append, List.length_nil]
  rfl

theorem agrees_of_faithful {encoding : Encoding}
    (h : Faithful type pool.ensure.room s encoding) : Agrees type pool s encoding := by
  obtain ⟨htype, h⟩ := h
  match encoding, h with
  | .text .utf8, h | .text .utf8Dash, h => exact agrees_utf8 rfl htype h.1 h.2.1 h.2.2
  | .text .ascii, h => exact agrees_oneByte htype h
  | .text .binary, h => exact agrees_oneByte htype h
  | .base64, h =>
    obtain rfl : s = [] := h
    exact agrees_nil (htype rfl) (.inl rfl)
  | .ucs2, h =>
    obtain rfl : s = [] := h
    exact agrees_nil (htype rfl) (.inr (.inl rfl))
  | .hex, h =>
    obtain rfl : s = [] := h
    exact agrees_nil (htype rfl) (.inr (.inr rfl))

end Enough

/-! ## Counting

Against a kernel that takes everything, what `_writeOut` sends of a string in an encoding other than
UTF-8 is as many bytes as it takes characters off it. A string that is sent to its end is therefore
sent in as many bytes as it has characters. -/

/-- A kernel that takes everything. -/
def takesAll : ℕ → KernelReply := fun _ ↦ .wrote kPoolSize

namespace World

/-- Nothing is queued but the string `t`. -/
structure Pending (encoding : Encoding) (w : World) (t : JSString) : Prop where
  queue : w.writeQueue = if t = [] then [] else [.data (.str t)]
  encodings : w.writeQueueEncoding = if t = [] then [] else [some encoding]
  callbacks : w.writeQueueCallbacks = if t = [] then [] else [none]
  fds : w.writeQueueFD = []
  kernel : w.kernel = takesAll

/-- A call throws, destroys the socket, or leaves a string with the bytes and characters in
balance. -/
def Counts (encoding : Encoding) (total : ℕ) (t : JSString) (r : Call Bool) : Prop :=
  (∃ e, r.1 = .error e) ∨ r.2.destroyed = true ∨ ∃ o t', r.1 = .ok o ∧ Pending encoding r.2 t' ∧
    (t ≠ [] → t'.length < t.length) ∧ r.2.sent.length + t'.length = total

/-- What is staged from the pool is sent whole, unless it does not fit in there. -/
theorem handOver_takesAll {w : World} {st : Staged} (hk : w.kernel = takesAll)
    (hlen : st.buffer.length = kPoolSize) (hoff : st.off < kPoolSize) :
    (∃ e, (w.handOver st none none).1 = .error e) ∨ (w.handOver st none none).2.destroyed = true ∨
      ∃ n b fds pool, b.length = st.len ∧ w.handOver st none none =
        (.ok (!st.queuedData),
          { w with calls := n, sent := w.sent ++ b, sentFDs := fds, pool := pool }) := by
  have hreply : w.nextReply = .wrote kPoolSize := by rw [nextReply, hk, takesAll]
  by_cases hr : st.off + st.len ≤ kPoolSize
  · rcases writeImpl_cases w (hlen ▸ hr) none with ⟨e, n, -, hf | hle | hfd⟩ |
      ⟨taken, n, fds, -, -, htaken, he⟩
    · rw [hreply] at hf
      cases hf
    · rw [hlen] at hle
      omega
    · exact absurd rfl hfd
    · have hall : taken = some st.len := by
        rw [htaken _ hreply, Nat.min_eq_right (by omega)]
      subst hall
      refine .inr (.inr ⟨n, ((st.buffer.read w.pool).drop st.off).take st.len, fds,
        if st.fromPool then w.pool.retreat st.len else w.pool, ?_, ?_⟩)
      · rw [List.length_take, List.length_drop, Buf.length_read, hlen]
        omega
      · simp only [handOver, he, if_true, Option.getD_some, invoke]
        cases st.queuedData <;> rfl
  · have hw : ∃ e, w.writeImpl st.buffer st.off st.len none = (.error e, w) := by
      rw [writeImpl, if_neg (by simp), if_neg (by rw [hlen]; omega), if_pos (by rw [hlen]; omega)]
      exact ⟨_, rfl⟩
    obtain ⟨e, hw⟩ := hw
    simp only [handOver, hw, destroy]
    split_ifs
    · exact .inl ⟨_, rfl⟩
    · exact .inr (.inl rfl)

/-- What `_writeOut` makes of the number of bytes that `pool.write` reports: the number of
characters. -/
theorem stageString_cases {encoding : Encoding} (he : defaultsToUtf8 (some encoding) = false)
    (pw : PoolWriter) (w : World) (t : JSString) :
    (∃ e, (w.stageString pw t (some encoding) none).1 = .error e) ∨
    ∃ st pool, st.len ≤ t.length ∧ (t ≠ [] → 0 < st.len) ∧ st.buffer.length = kPoolSize ∧
      st.off < kPoolSize ∧ (st.queuedData = false ↔ st.len = t.length) ∧
      w.stageString pw t (some encoding) none =
        (.ok st, if st.len = t.length then { w with pool := pool }
          else World.unshift { w with pool := pool } (.str (t.drop st.len)) (some encoding) none) := by
  have hu := w.pool.ensure_used_lt
  simp only [stageString, he]
  split
  · exact .inl ⟨_, rfl⟩
  · rename_i r hr
    simp only [Bool.false_eq_true, if_false]
    split_ifs with h₁ h₂ h₃ h₄
    · exact .inl ⟨_, rfl⟩
    · exact .inl ⟨_, rfl⟩
    · have hall : r.bytesWritten.toNat = t.length := by omega
      exact .inr ⟨_, _, Nat.le_of_eq hall, fun ht ↦ hall ▸ List.length_pos_of_ne_nil ht, rfl, hu,
        ⟨fun _ ↦ hall, fun _ ↦ rfl⟩, Prod.ext rfl (by rw [if_pos hall])⟩
    · have hpart : r.bytesWritten.toNat < t.length := by omega
      refine .inr ⟨_, _, Nat.le_of_lt hpart, fun ht ↦ ?_, rfl, hu,
        ⟨fun h ↦ (by cases h), fun h ↦ absurd h (Nat.ne_of_lt hpart)⟩,
        Prod.ext rfl (by rw [if_neg (Nat.ne_of_lt hpart)])⟩
      have hpos : 0 < r.bytesWritten := by
        by_contra hneg
        exact h₁ ⟨rfl, List.length_pos_of_ne_nil ht, hneg⟩
      show 0 < r.bytesWritten.toNat
      omega
    · exact .inl ⟨_, rfl⟩

theorem writeOut_counts {encoding : Encoding} (he : defaultsToUtf8 (some encoding) = false)
    {w : World} (h : Pending encoding w []) (pw : PoolWriter) (t : JSString) :
    Counts encoding (w.sent.length + t.length) t
      (w.writeOut pw (.str t) (some encoding) none none) := by
  have hq : w.writeQueue = [] := by simpa using h.queue
  have hes : w.writeQueueEncoding = [] := by simpa using h.encodings
  have hcbs : w.writeQueueCallbacks = [] := by simpa using h.callbacks
  unfold writeOut
  split
  · exact .inl ⟨_, rfl⟩
  · simp only [stage]
    rcases stageString_cases he pw w t with ⟨e, herr⟩ | ⟨st, pool, hle, hpos, hlen, hoff, hqd, hst⟩
    · generalize w.stageString pw t (some encoding) none = res at herr
      obtain ⟨o, w₁⟩ := res
      obtain rfl : o = .error e := herr
      exact .inl ⟨_, rfl⟩
    · rw [hst]
      simp only
      -- what the pool had no space for is queued again before the rest is handed over
      generalize hw₁ : (if st.len = t.length then { w with pool := pool }
        else World.unshift { w with pool := pool } (.str (t.drop st.len)) (some encoding) none) = w₁
      have hk : w₁.kernel = takesAll := by
        rw [← hw₁]
        split <;> exact h.kernel
      have hsent : w₁.sent = w.sent := by
        rw [← hw₁]
        split <;> rfl
      have hpend : Pending encoding w₁ (t.drop st.len) := by
        rw [← hw₁]
        by_cases hall : st.len = t.length
        · rw [if_pos hall, hall, List.drop_length]
          exact ⟨by simpa using hq, by simpa using hes, by simpa using hcbs, h.fds, h.kernel⟩
        · have hne : t.drop st.len ≠ [] := by
            rw [Ne, List.drop_eq_nil_iff]
            omega
          rw [if_neg hall]
          exact ⟨by simp [unshift, hne, hq], by simp [unshift, hne, hes],
            by simp [unshift, hne, hcbs], h.fds, h.kernel⟩
      rcases handOver_takesAll hk hlen hoff with herr | hdead | ⟨n, b, fds, pool', hb, hr⟩
      · exact .inl herr
      · exact .inr (.inl hdead)
      · rw [hr]
        refine .inr (.inr ⟨_, t.drop st.len, rfl, ⟨hpend.queue, hpend.encodings, hpend.callbacks,
          hpend.fds, hpend.kernel⟩, fun ht ↦ ?_, ?_⟩)
        · have := hpos ht
          rw [List.length_drop]
          omega
        · simp only [List.length_append, List.length_drop, hb, hsent]
          omega

theorem flush_counts {encoding : Encoding} (he : defaultsToUtf8 (some encoding) = false)
    {w : World} {t : JSString} (h : Pending encoding w t) (ht : t ≠ []) (pw : PoolWriter) :
    Counts encoding (w.sent.length + t.length) t (w.flush pw) := by
  have hq : w.writeQueue = [.data (.str t)] := by simpa [ht] using h.queue
  have hes : w.writeQueueEncoding = [some encoding] := by simpa [ht] using h.encodings
  have hcbs : w.writeQueueCallbacks = [none] := by simpa [ht] using h.callbacks
  have hpend : Pending encoding (w.taking (.str t) []) [] := by
    refine ⟨rfl, ?_, ?_, ?_, h.kernel⟩
    · simp [taking, shiftQueues, hes]
    · simp [taking, shiftQueues, hcbs]
    · simp [taking, shiftQueues, h.fds]
  have hcount := writeOut_counts he hpend pw t
  have htrue := @writeOut_of_true (w.taking (.str t) []) pw (.str t) (some encoding) none none
  rw [flush, hq, List.length_singleton, flushLoop_succ pw 1 hq, hes, hcbs, h.fds]
  simp only [List.head?_cons, Option.join_some, List.head?_nil, Option.join_none]
  generalize (w.taking (.str t) []).writeOut pw (.str t) (some encoding) none none = res
    at hcount htrue
  obtain ⟨o, w₁⟩ := res
  cases o with
  | error e => exact .inl ⟨e, rfl⟩
  | ok flushed =>
    cases flushed with
    | false => exact hcount
    | true =>
      have hq₁ : w₁.writeQueue = [] := htrue rfl
      simp only [flushLoop, hq₁]
      rcases hcount with ⟨e, herr⟩ | hdead | ⟨o, t', -, hp, hlt, hsum⟩
      · cases herr
      · exact .inr (.inl hdead)
      · exact .inr (.inr ⟨true, t', rfl, ⟨hq₁ ▸ hp.queue, hp.encodings, hp.callbacks, hp.fds,
          hp.kernel⟩, hlt, hsum⟩)

end World

/-- A string that is sent to its end is sent in as many bytes as it has characters. -/
theorem length_of_agrees {type : SocketType} {pool : Pool} {s : JSString} {encoding : Encoding}
    (he : World.defaultsToUtf8 (some encoding) = false) {b : Bytes} {m : Heap}
    (h : ∀ n, ∃ w, sending (poolWriter m) (opened type pool takesAll) s encoding n = .ok w ∧
      w.destroyed = false ∧ (w.writeQueue = [] → w.sent = b)) : b.length = s.length := by
  -- by induction on what is left of the string
  have hrest : ∀ (k n : ℕ) (w : World) (t : JSString), t.length ≤ k →
      sending (poolWriter m) (opened type pool takesAll) s encoding n = .ok w →
      World.Pending encoding w t → w.sent.length + t.length = s.length → b.length = s.length := by
    intro k
    induction k with
    | zero =>
      intro n w t hk hrun hp hsum
      obtain rfl : t = [] := List.eq_nil_of_length_eq_zero (by omega)
      obtain ⟨w', hrun', -, hb⟩ := h n
      obtain rfl : w = w' := Except.ok.inj (hrun.symm.trans hrun')
      rw [← hb (by simpa using hp.queue)]
      simpa using hsum
    | succ k ih =>
      intro n w t hk hrun hp hsum
      by_cases ht : t = []
      · exact ih n w t (by simp [ht]) hrun hp hsum
      · obtain ⟨w', hrun', halive, -⟩ := h (n + 1)
        have hcount := World.flush_counts he hp ht (poolWriter m)
        have hrun₁ := hrun'
        rw [sending_succ hrun] at hrun₁
        generalize w.flush (poolWriter m) = res at hcount hrun₁
        obtain ⟨o, w₁⟩ := res
        cases o with
        | error e => cases hrun₁
        | ok o =>
          obtain rfl : w₁ = w' := Except.ok.inj hrun₁
          rcases hcount with ⟨e, herr⟩ | hdead | ⟨o', t', -, hp', hlt, hsum'⟩
          · cases herr
          · rw [halive] at hdead
            cases hdead
          · have := hlt ht
            exact ih (n + 1) w₁ t' (by omega) hrun' hp' (hsum'.trans hsum)
  obtain ⟨w, hrun, halive, -⟩ := h 0
  have hcount := World.writeOut_counts he (w := opened type pool takesAll) ⟨rfl, rfl, rfl, rfl, rfl⟩
    (poolWriter m) s
  have hrun₁ := hrun
  simp only [sending, write_opened] at hrun₁
  generalize (opened type pool takesAll).writeOut (poolWriter m) (.str s) (some encoding) none none
    = res at hcount hrun₁
  obtain ⟨o, w₁⟩ := res
  cases o with
  | error e => cases hrun₁
  | ok o =>
    obtain rfl : w₁ = w := Except.ok.inj hrun₁
    rcases hcount with ⟨e, herr⟩ | hdead | ⟨o', t', -, hp', -, hsum⟩
    · cases herr
    · rw [halive] at hdead
      cases hdead
    · exact hrest t'.length 0 w₁ t' (Nat.le_refl _) hrun hp'
        (by simpa [opened, Run.start] using hsum)

/-! ## Nothing else comes through -/

section Necessary

variable {type : SocketType} {pool : Pool} {s : JSString} {encoding : Encoding}

/-- A buffer without bytes is the end of the socket. -/
theorem World.writeOut_bare (pw : PoolWriter) (w : World) {b : Buf} (hb : b.length = 0)
    (encoding : Option Encoding) (fd : Option ℕ) (cb : Option Callback) :
    (∃ e, (w.writeOut pw (.buf b) encoding fd cb).1 = .error e) ∨
      (w.writeOut pw (.buf b) encoding fd cb).1 = .ok false ∧
        (w.writeOut pw (.buf b) encoding fd cb).2.destroyed = true := by
  have hwrite : ∃ e, w.writeImpl b 0 b.length fd = (.error e, w) := by
    rw [World.writeImpl]
    split
    · exact ⟨_, rfl⟩
    · rw [if_pos (by omega)]
      exact ⟨_, rfl⟩
  obtain ⟨e, hwrite⟩ := hwrite
  rw [World.writeOut]
  split
  · exact .inl ⟨_, rfl⟩
  · simp only [World.stage, World.handOver, hwrite, World.destroy]
    split_ifs
    · exact .inl ⟨_, rfl⟩
    · exact .inr ⟨rfl, rfl⟩

theorem World.flush_bare {w : World} {b : Buf} {rest : List QueueEntry} (pw : PoolWriter)
    (hq : w.writeQueue = .data (.buf b) :: rest) (hb : b.length = 0) :
    (∃ e, (w.flush pw).1 = .error e) ∨ (w.flush pw).2.destroyed = true := by
  have hbare := World.writeOut_bare pw (w.taking (.buf b) rest) hb w.writeQueueEncoding.head?.join
    w.writeQueueFD.head?.join w.writeQueueCallbacks.head?.join
  rw [World.flush, World.flushLoop_succ pw _ hq]
  generalize (w.taking (.buf b) rest).writeOut pw (.buf b) w.writeQueueEncoding.head?.join
    w.writeQueueFD.head?.join w.writeQueueCallbacks.head?.join = res at hbare
  obtain ⟨o, w₁⟩ := res
  rcases hbare with ⟨e, herr⟩ | ⟨hok, hdead⟩
  · obtain rfl : o = .error e := herr
    exact .inl ⟨e, rfl⟩
  · obtain rfl : o = .ok false := hok
    exact .inr hdead

/-- What `sendMsg` returns when the kernel is busy is not the number zero, so that even nothing is
queued. -/
theorem World.handOver_unix {w : World} {st : World.Staged} (htype : w.type = .unix)
    (hreply : w.nextReply = .again) (hoff : st.off < st.buffer.length) (hlen : st.len = 0) :
    ∃ w', w.handOver st none none = (.ok false, w') ∧
      w'.writeQueue = .data (.buf (st.buffer.slice st.off st.off)) :: w.writeQueue := by
  have hwrite : w.writeImpl st.buffer st.off st.len none =
      (.ok none, { w with calls := w.calls + 1 }) := by
    rw [World.writeImpl, if_neg (by simp), if_neg (by omega), if_neg (by omega)]
    simp only [hreply, htype, if_true]
  simp only [World.handOver, hwrite, reduceCtorEq, if_false]
  exact ⟨_, rfl, by simp [World.unshift, hlen]⟩

/-- `sendMsg` does not get an empty string past a busy kernel. -/
theorem tcp_of_agrees (h : Agrees type pool [] encoding) : type = .tcp := by
  cases htype : type with
  | tcp => rfl
  | unix =>
    subst htype
    obtain ⟨b, -, h⟩ := h
    let m : Heap := ⟨fun _ ↦ 0, 0, 0, 0⟩
    obtain ⟨hrun, -⟩ := h m (fun _ ↦ .again) (by simp)
    have hroom := pool.kMinPoolSpace_le_room_ensure
    rw [kMinPoolSpace] at hroom
    obtain ⟨tail, chars, hwrite, -, hchars⟩ :=
      Buffer.write_nil m (World.poolEncoding (some encoding)) pool.ensure.room (by omega)
    have hu := pool.ensure_used_lt
    -- the empty string is staged, the kernel is busy, and an empty buffer is queued
    obtain ⟨w₀, hw₀, buf, hq, hbuf⟩ : ∃ w₀,
        sending (poolWriter m) (opened .unix pool fun _ ↦ .again) [] encoding 0 = .ok w₀ ∧
        ∃ buf, w₀.writeQueue = [.data (.buf buf)] ∧ buf.length = 0 := by
      have hchars' : (if World.defaultsToUtf8 (some encoding) then chars else 0) = 0 := by
        split
        · rename_i hd
          refine hchars ?_
          rw [World.poolEncoding, if_pos hd]
          rfl
        · rfl
      have hpw : poolWriter m (World.poolEncoding (some encoding)) [] pool.ensure.room =
          .ok ⟨tail, 0, chars⟩ := hwrite
      have hstage : (opened .unix pool fun _ ↦ .again).stageString (poolWriter m) []
          (some encoding) none =
            (.ok ⟨.window pool.ensure.current 0 kPoolSize, pool.ensure.used, 0, true, false⟩,
              { opened .unix pool fun _ ↦ .again with
                pool := (pool.ensure.store tail).advance 0 }) := by
        simp only [World.stageString, opened, Run.start, hpw, hchars']
        rfl
      obtain ⟨w', hw', hq'⟩ := @World.handOver_unix
        { opened .unix pool fun _ ↦ .again with pool := (pool.ensure.store tail).advance 0 }
        ⟨.window pool.ensure.current 0 kPoolSize, pool.ensure.used, 0, true, false⟩ rfl rfl hu rfl
      refine ⟨w', ?_, _, hq', Nat.sub_self _⟩
      rw [sending_zero, hstage]
      simp only [hw']
    obtain ⟨w₁, hw₁, halive, -⟩ := hrun 1
    rw [sending_succ hw₀] at hw₁
    have hbare := World.flush_bare (poolWriter m) hq hbuf
    generalize w₀.flush (poolWriter m) = res at hbare hw₁
    obtain ⟨o, w₂⟩ := res
    cases o with
    | error e => cases hw₁
    | ok o =>
      obtain rfl : w₂ = w₁ := Except.ok.inj hw₁
      rcases hbare with ⟨e, herr⟩ | hdead
      · cases herr
      · rw [halive] at hdead
        cases hdead

section Utf8

variable {e : TextEncoding}

theorem defaultsToUtf8_text (he : isUtf8 (some e) = true) :
    World.defaultsToUtf8 (some (.text e)) = true := by
  cases e <;> simp_all [isUtf8, World.defaultsToUtf8]

theorem poolWriter_utf8 (he : isUtf8 (some e) = true) (m : Heap) (s : JSString) (room : ℕ) :
    poolWriter m (World.poolEncoding (some (.text e))) s room =
      .ok (Buffer.utf8Write m s room) := by
  simp only [poolWriter, World.poolEncoding, defaultsToUtf8_text he, if_true, Buffer.write,
    Nat.min_self]

/-- What the encoder reports for a string without a UTF-8 form does not pass the assertion. -/
theorem wellFormed_of_agrees (he : isUtf8 (some e) = true) (h : Agrees type pool s (.text e)) :
    WellFormed s = true := by
  by_contra hw
  obtain ⟨b, -, h⟩ := h
  let m : Heap := ⟨fun _ ↦ 0, 0, 0, 0⟩
  obtain ⟨w, hrun, -⟩ := (h m takesAll (by simp [takesAll])).1 0
  have hs : 0 < s.length := List.length_pos_of_ne_nil fun hs ↦ hw (by simp [hs])
  have hpw := poolWriter_utf8 he m s pool.ensure.room
  rw [Buffer.utf8Write, if_neg hw] at hpw
  have hstage : ∃ w',
      (opened type pool takesAll).stageString (poolWriter m) s (some (.text e)) none =
      (.error .assertion, w') := by
    simp only [World.stageString, opened, Run.start, hpw]
    rw [if_pos ⟨rfl, hs, by decide⟩]
    exact ⟨_, rfl⟩
  obtain ⟨w', hstage⟩ := hstage
  rw [sending_zero, hstage] at hrun
  cases hrun

/-- A string that does not fit is the end of the socket: the range it would take reaches behind the
pool. -/
theorem fits_of_agrees (he : isUtf8 (some e) = true) (h : Agrees type pool s (.text e)) :
    (utf8Bytes s).length ≤ pool.ensure.room := by
  by_contra hfit
  have hw := wellFormed_of_agrees he h
  obtain ⟨b, -, h⟩ := h
  let m : Heap := ⟨fun _ ↦ 1, 0, 0, 0⟩
  obtain ⟨w, hrun, halive, -⟩ := (h m takesAll (by simp [takesAll])).1 0
  have hroom := pool.kMinPoolSpace_le_room_ensure
  rw [kMinPoolSpace] at hroom
  have hpw := poolWriter_utf8 he m s pool.ensure.room
  obtain ⟨hchars, hbytes⟩ := Buffer.utf8Write_of_lt m hw (Nat.not_le.mp hfit) (by simp [m])
  have hstage : ∃ w',
      (opened type pool takesAll).stageString (poolWriter m) s (some (.text e)) none =
      (.ok ⟨.window pool.ensure.current 0 kPoolSize, pool.ensure.used, (utf8Bytes s).length, true,
        false⟩, w') := by
    simp only [World.stageString, opened, Run.start, hpw, hbytes, hchars, defaultsToUtf8_text he,
      if_true]
    rw [if_neg (by omega), if_neg (by omega)]
    exact ⟨_, rfl⟩
  obtain ⟨w', hstage⟩ := hstage
  -- the length that was reported is behind the end of the pool, and the socket is destroyed
  have hwrite : ∃ e, w'.writeImpl (.window pool.ensure.current 0 kPoolSize) pool.ensure.used
      (utf8Bytes s).length none = (.error e, w') := by
    have hu := pool.ensure_used_lt
    have hlen : (Buf.window pool.ensure.current 0 kPoolSize).length <
        pool.ensure.used + (utf8Bytes s).length := by
      rw [Pool.room] at hfit
      rw [Buf.length]
      omega
    rw [World.writeImpl, if_neg (by simp), if_neg (by simpa [Buf.length] using hu), if_pos hlen]
    exact ⟨_, rfl⟩
  obtain ⟨e', hwrite⟩ := hwrite
  rw [sending_zero, hstage] at hrun
  simp only [World.handOver, hwrite, World.destroy] at hrun
  split_ifs at hrun
  rw [← Except.ok.inj hrun] at halive
  cases halive

/-- A `NUL` at the end is sent, but a buffer does not hold it. -/
theorem nul_of_agrees (he : isUtf8 (some e) = true) (h : Agrees type pool s (.text e)) :
    (utf8Bytes s).length = pool.ensure.room ∨ (utf8Bytes s).getLast? ≠ some 0 := by
  have hw := wellFormed_of_agrees he h
  have hfit := fits_of_agrees he h
  have htype : s = [] → type = .tcp := fun hs ↦ tcp_of_agrees (hs ▸ h)
  rcases Nat.eq_or_lt_of_le hfit with heq | hlt
  · exact .inl heq
  · refine .inr fun hlast ↦ ?_
    obtain ⟨b, hnew, h⟩ := h
    let m : Heap := ⟨fun _ ↦ 0, 0, 0, 0⟩
    have hb : b = dropNul (utf8Bytes s) :=
      Except.ok.inj ((hnew m).symm.trans (Buffer.newBuffer_utf8 m he hw))
    obtain ⟨tail, hwrite, hle⟩ := Buffer.utf8Write_of_fits m hw hfit
    rw [if_pos hlt] at hwrite hle
    have hstores : World.Stores (poolWriter m) pool.ensure.room s (some (.text e)) (utf8Bytes s)
        s.length := by
      refine ⟨⟨tail, s.length, hle, ?_, by simp [defaultsToUtf8_text he]⟩, Nat.le_refl _,
        fun hs ↦ ?_⟩
      · rw [poolWriter_utf8 he, hwrite]
      · exact encodeText_ne_nil (e := none) (s := s) (by simpa [Encodable, isUtf8] using hw) hs
    have hst := World.Stores.stages (G := fun _ _ ↦ False) (w := opened type pool takesAll) hstores
      (fun _ ↦ rfl) (fun h ↦ absurd rfl h) (opened_live _) none
    -- in the end everything has been sent, with the `NUL`
    obtain ⟨n, w, hrun, hq⟩ := sending_progress (trusted_false _)
      (fun _ ↦ ⟨kPoolSize - 1, rfl⟩) hst htype
    obtain ⟨w₁, items, hrun₁, hset⟩ := sending_settling (trusted_false _)
      (by simp [takesAll]) hst htype n
    obtain ⟨w₂, hrun₂, -, hsent⟩ := (h m takesAll (by simp [takesAll])).1 n
    obtain rfl : w = w₁ := Except.ok.inj (hrun.symm.trans hrun₁)
    obtain rfl : w = w₂ := Except.ok.inj (hrun.symm.trans hrun₂)
    have hqueue := hset.live.queue
    rw [hq] at hqueue
    obtain rfl : items = [] := by simpa using hqueue.symm
    have hbytes : w.sent = utf8Bytes s := by simpa using hset.live.bytes
    have hlen := congrArg List.length (hbytes.symm.trans (hsent hq))
    rw [hb, dropNul, if_pos hlast, List.length_dropLast] at hlen
    have hne : utf8Bytes s ≠ [] := fun hnil ↦ by simp [hnil] at hlast
    have := List.length_pos_of_ne_nil hne
    omega

end Utf8

/-- A string without surrogates comes through in ASCII only if every code unit does. -/
theorem asciiByte_of_agrees (h : Agrees type pool s (.text .ascii))
    (hs : ∀ u ∈ s, (isHigh u || isLow u) = false) :
    ∀ u ∈ s, (isHigh u || isLow u) = false ∧ (Buffer.asciiByte u).isSome = true := by
  obtain ⟨b, hnew, h⟩ := h
  let m : Heap := ⟨fun _ ↦ 0, 0, 0, 0⟩
  have hlen := length_of_agrees rfl (h m takesAll (by simp [takesAll])).1
  obtain ⟨-, hb⟩ := Buffer.newBuffer_ascii m (hnew m)
  rw [Buffer.writeAscii_utf8Bytes m hs] at hb
  have hall : (s.filterMap Buffer.asciiByte).length = s.length := by
    have hle := List.length_filterMap_le Buffer.asciiByte s
    rw [hb, List.length_take] at hlen
    omega
  exact fun u hu ↦ ⟨hs u hu, List.filterMap_length_eq_length.mp hall u hu⟩

end Necessary

/-- **Agreement.** Writing a string agrees with `new Buffer` for the strings that `Faithful`
describes, and for no others, except that a string with surrogates written as ASCII may come through
by accident. -/
theorem agrees_iff_faithful (type : SocketType) (pool : Pool) (s : JSString) (encoding : Encoding) :
    (Faithful type pool.ensure.room s encoding → Agrees type pool s encoding) ∧
      (Agrees type pool s encoding → Faithful type pool.ensure.room s encoding ∨
        encoding = .text .ascii ∧ ∃ u ∈ s, (isHigh u || isLow u) = true) := by
  refine ⟨agrees_of_faithful, fun h ↦ ?_⟩
  have htype : s = [] → type = .tcp := fun hs ↦ tcp_of_agrees (hs ▸ h)
  have hother : World.defaultsToUtf8 (some encoding) = false →
      (encoding = .base64 ∨ encoding = .ucs2 ∨ encoding = .hex) → s = [] := by
    intro hutf8 he
    obtain ⟨b, hnew, h⟩ := h
    let m : Heap := ⟨fun _ ↦ 0, 0, 0, 0⟩
    exact Buffer.eq_nil_of_length_newBuffer m he (hnew m)
      (length_of_agrees hutf8 (h m takesAll (by simp [takesAll])).1)
  match encoding with
  | .text .utf8 | .text .utf8Dash =>
    exact .inl ⟨htype, wellFormed_of_agrees rfl h, fits_of_agrees rfl h, nul_of_agrees rfl h⟩
  | .text .ascii =>
    by_cases hs : ∃ u ∈ s, (isHigh u || isLow u) = true
    · exact .inr ⟨rfl, hs⟩
    · exact .inl ⟨htype, asciiByte_of_agrees h fun u hu ↦ by
        simpa using fun hsur ↦ hs ⟨u, hu, hsur⟩⟩
  | .text .binary =>
    obtain ⟨b, hnew, -⟩ := h
    exact .inl ⟨htype, (Buffer.newBuffer_binary ⟨fun _ ↦ 0, 0, 0, 0⟩ (hnew _)).1⟩
  | .base64 => exact .inl ⟨htype, hother rfl (.inl rfl)⟩
  | .ucs2 => exact .inl ⟨htype, hother rfl (.inr (.inl rfl))⟩
  | .hex => exact .inl ⟨htype, hother rfl (.inr (.inr rfl))⟩

/-- The digits `6162` are the bytes `ab` to a buffer. The socket sends `ab`, takes two bytes for two
characters, sends what is left as if it were new, and chokes on the last digit. -/
theorem hex_disagrees :
    newBuffer ⟨fun _ ↦ 0, 0, 0, 0⟩ (js "6162") .hex = .ok [0x61, 0x62] ∧
      sending (poolWriter ⟨fun _ ↦ 0, 0, 0, 0⟩) (opened .tcp ⟨fun _ _ ↦ 0, 0, 0⟩ takesAll)
        (js "6162") .hex 2 = .error (.error "Invalid hex string") ∧
      ¬Agrees .tcp ⟨fun _ _ ↦ 0, 0, 0⟩ (js "6162") .hex := by
  have hrun : sending (poolWriter ⟨fun _ ↦ 0, 0, 0, 0⟩)
      (opened .tcp ⟨fun _ _ ↦ 0, 0, 0⟩ takesAll) (js "6162") .hex 2 =
        .error (.error "Invalid hex string") := by rfl
  refine ⟨by rfl, hrun, ?_⟩
  rintro ⟨b, -, h⟩
  obtain ⟨w, hw, -⟩ := (h ⟨fun _ ↦ 0, 0, 0, 0⟩ takesAll (by simp [takesAll])).1 2
  rw [hrun] at hw
  cases hw

end SpiderNode.Net
