import SpiderNode.Buffer.Strings
import SpiderNode.Files.System

/-!
# Whole files

`readFileSync`, `writeFileSync` and `writeFile` of `lib/fs.js`. The reader collects buffers of 4048
bytes, each with the number of bytes that were read as a property, and copies them into one buffer
behind the end of the file. The writers write what is left at the position that they have come to,
one in a loop and one in the callbacks of `fs.write`.

`exact_of_works` says that they are exact, whatever the kernel moves at a time. No buffer has
`2 ^ 31` bytes, and no file of that size is read (`too_large`). A string is written as the buffer
that `new Buffer` makes of it, which loses a final `NUL` (`writes_string`).

None of the synchronous functions closes its descriptor if something fails before the end.
`closed_iff` says when nothing does.
-/

namespace SpiderNode.Files

open Buffer (Memory View)
open Net (JsError)

variable (k : Kernel)

/-! ## Reading -/

/-- A buffer with the property `_bytesRead`. -/
structure Chunk where
  buffer : View
  bytesRead : ℕ
  deriving DecidableEq, Repr

/-- The bytes that were read. -/
def Chunk.bytes (m : Memory) (c : Chunk) : Bytes :=
  m.read c.buffer.buffer c.buffer.start c.bytesRead

/-- The variables of `readFileSync`. -/
structure Reader where
  buffers : List Chunk
  nread : ℕ
  buffer : View
  lastRead : ℕ

namespace Reader

/-- What is done with the last buffer. -/
def collect (r : Reader) : Reader :=
  if r.lastRead = 0 then r
  else
    { r with
      nread := r.nread + r.lastRead
      buffers := r.buffers ++ [⟨r.buffer, r.lastRead⟩] }

/-- The loop, with fuel. -/
def readLoop (fd : Int32) : ℕ → Reader → World → Option (Outcome Reader)
  | 0, _, _ => none
  | fuel + 1, r, w =>
    (w.newBuffer 4048).andThen fun buffer w ↦
      (w.readSync k fd buffer 0 buffer.length .null).andThen fun lastRead w ↦
        let r := { r.collect with buffer := buffer, lastRead := lastRead }
        if 0 < lastRead then readLoop fd fuel r w else some (.ok r, w)

/-- `buffers.forEach(…)` -/
def copyAll (target : View) (m : Memory) (offset : ℕ) : List Chunk → Except JsError Memory
  | [] => .ok m
  | c :: rest =>
    if c.bytesRead = 0 then copyAll target m offset rest
    else
      match c.buffer.copy m target offset 0 c.bytesRead with
      | .error e => .error e
      | .ok (_, m) => copyAll target m (offset + c.bytesRead) rest

/-- One buffer of all. -/
def assemble (r : Reader) (w : World) : Option (Outcome View) :=
  if 1 < r.buffers.length then
    (w.newBuffer r.nread).andThen fun buffer w ↦
      match copyAll buffer w.memory 0 r.buffers with
      | .error e => some (.error e, w)
      | .ok m => some (.ok buffer, { w with memory := m })
  else
    match r.buffers with
    | c :: _ => some (c.buffer.slice 0 c.bytesRead, w)
    | [] => some (w.newBuffer 0)

end Reader

/-- `readFileSync(path)` -/
def readFileSync (fuel : ℕ) (w : World) : Option (Outcome View) :=
  (w.openSync k false).andThen fun fd w ↦
    (w.newBuffer 4048).andThen fun buffer w ↦
      (Reader.readLoop k fd fuel ⟨[], 0, buffer, 0⟩ w).bind fun x ↦
        x.andThen fun r w ↦ r.assemble (w.closeSync fd)

/-! ## Writing -/

/-- What is to be written: a `Buffer`, or what `new Buffer(data, encoding)` makes of it. -/
inductive Data where
  | buffer (v : View) (h : v.Made)
  | other (made : Except JsError Bytes)

/-- A string, of which `new Buffer(data, 'utf8')` makes a buffer. -/
def Data.string (h : Buffer.Heap) (s : JSString) : Data :=
  .other ((Buffer.createTypedArray h (fun _ _ ↦ 0) 0 s).map fun x ↦
    x.2.read x.1.buffer x.1.start x.1.length)

/-- `if (!Buffer.isBuffer(data)) data = new Buffer(data, encoding)` -/
def Data.toBuffer (d : Data) (w : World) : Outcome View :=
  match d with
  | buffer v _ => (.ok v, w)
  | other (.error e) => (.error e, w)
  | other (.ok b) =>
    match w.newBuffer b.length with
    | (.error e, w) => (.error e, w)
    | (.ok v, w) => (.ok v, { w with memory := w.memory.store v.buffer v.start b })

/-- The loop of `writeFileSync`, with fuel. -/
def writeLoop (fd : Int32) (v : View) : ℕ → ℕ → World → Option (Outcome Unit)
  | 0, _, _ => none
  | fuel + 1, written, w =>
    if written < v.length then
      (w.writeSync k fd v written (v.length - written) (.number written)).andThen fun n w ↦
        writeLoop fd v fuel (written + n) w
    else some (.ok (), w)

/-- `writeFileSync(path, data)` -/
def writeFileSync (fuel : ℕ) (d : Data) (w : World) : Option (Outcome Unit) :=
  (w.openSync k true).andThen fun fd w ↦
    (d.toBuffer w).andThen fun v w ↦
      (writeLoop k fd v fuel 0 w).bind fun x ↦ x.andThen fun _ w ↦ some (.ok (), w.closeSync fd)

/-- What an exception of `fs.write` and the callback that is passed to it lead to. -/
def written (fd : Int32) (w : World) (callback : ℕ → World → Option (Outcome Unit)) :
    Except JsError (Outcome ℕ) → Option (Outcome Unit)
  | .error e => some (.error e, w)
  | .ok (.error e, w) => some (.error e, w.closeSync fd)
  | .ok (.ok n, w) => callback n w

/-- `writeAll`, with fuel, up to its callback. -/
def writeAll (fd : Int32) (v : View) : ℕ → ℕ → ℕ → World → Option (Outcome Unit)
  | 0, _, _, _ => none
  | fuel + 1, offset, length, w =>
    written fd w (fun n w ↦
      if n = length then some (.ok (), w.closeSync fd)
      else writeAll fd v fuel (offset + n) (length - n) w)
      (w.write k fd v offset length (.number offset))

/-- `writeFile(path, data, callback)`, up to its callback. -/
def writeFile (fuel : ℕ) (d : Data) (w : World) : Option (Outcome Unit) :=
  (w.openSync k true).andThen fun fd w ↦
    (d.toBuffer w).andThen fun v w ↦ writeAll k fd v fuel 0 v.length w

/-! ## What is to hold -/

/-- No transfer fails until nothing is left. A transfer asks for `request left` bytes; if there is a
`last` one, it asks once more when nothing is left. -/
inductive Drains (request : ℕ → ℕ) (last : Prop) : ℕ → ℕ → Prop
  | done {i : ℕ} (h : last → ∃ n, k.answer i = .moves n) : Drains request last i 0
  | more {i left n : ℕ} (hleft : 0 < left) (h : k.answer i = .moves n)
      (hrest : Drains request last (i + 1) (left - amount n (request left))) :
      Drains request last i left

/-- The bytes of the buffer that the data is or that is made of it. -/
def Data.Holds (w : World) (b : Bytes) : Data → Prop
  | buffer v _ => w.bytes v = b
  | other made => made = .ok b ∧ b.length < 2 ^ 31

/-- The length of that buffer. -/
def Data.size : Data → Option ℕ
  | buffer v _ => some v.length
  | other (.error _) => none
  | other (.ok b) =>
    if Buffer.toInt32 b.length < 0 then none else some (Buffer.toInt32 b.length).toNat

variable {k : Kernel} {fd : Int32} {content : Bytes}

/-- A kernel that works drains everything. -/
theorem Kernel.Works.drains (hk : k.Works) {request : ℕ → ℕ} (hrequest : ∀ n, 0 < n → 0 < request n)
    (last : Prop) (i left : ℕ) : Drains k request last i left := by
  induction left using Nat.strongRecOn generalizing i with
  | ind left ih =>
    obtain ⟨n, hn⟩ := hk.answer i
    rcases Nat.eq_zero_or_pos left with rfl | hleft
    · exact .done fun _ ↦ ⟨n, hn⟩
    · have hpos := amount_pos (hrequest left hleft) n
      exact .more hleft hn (ih _ (by omega) (i + 1))

/-- A transfer that moves something goes on with what it leaves. -/
theorem drains_iff {request : ℕ → ℕ} {last : Prop} {i left n : ℕ} (h : k.answer i = .moves n)
    (hleft : 0 < left) :
    Drains k request last i left ↔
      Drains k request last (i + 1) (left - amount n (request left)) := by
  constructor
  · intro hdrains
    cases hdrains with
    | done => exact absurd hleft (Nat.lt_irrefl 0)
    | more _ h' hrest =>
      obtain rfl := Answer.moves.inj (h.symm.trans h')
      exact hrest
  · exact .more hleft h

theorem not_drains {request : ℕ → ℕ} {last : Prop} {i left : ℕ} {e : JsError}
    (h : k.answer i = .fails e) (hleft : last ∨ 0 < left) : ¬Drains k request last i left := by
  intro hdrains
  cases hdrains with
  | done hlast =>
    obtain ⟨n, hn⟩ := hlast (hleft.resolve_right (Nat.lt_irrefl 0))
    exact Answer.noConfusion (h.symm.trans hn)
  | more _ h' => exact Answer.noConfusion (h.symm.trans h')

/-! ## The loop that reads -/

namespace Reader

/-- The buffers are the bytes up to the current position. -/
structure Reading (content : Bytes) (r : Reader) (w : World) : Prop where
  content_eq : w.file.content = content
  offset_le : w.file.offset ≤ content.length
  chunks : ∀ c ∈ r.buffers, ∃ id < w.made, c.buffer = ⟨id, 0, 4048, 4048, 0⟩ ∧
    0 < c.bytesRead ∧ c.bytesRead ≤ 4048
  text : r.buffers.flatMap (Chunk.bytes w.memory) = content.take w.file.offset
  nread : r.nread = w.file.offset

variable {r : Reader} {w : World}

/-- The world behind a read of `n` bytes into a new buffer. -/
def advance (w : World) (n : ℕ) : World :=
  { w with
    file := ⟨w.file.content, w.file.offset + n⟩
    memory := Memory.store (fun buffer i ↦ if buffer = w.made then 0 else w.memory buffer i)
      w.made 0 ((w.file.content.drop w.file.offset).take n)
    made := w.made + 1
    calls := w.calls + 1 }

/-- A read adds what it has got to the buffers. -/
theorem Reading.advance (h : r.Reading content w) {n : ℕ}
    (hn : n ≤ min 4048 (content.length - w.file.offset)) :
    Reading content
      (collect { r with buffer := ⟨w.made, 0, 4048, 4048, 0⟩, lastRead := n }) (advance w n) := by
  have hoffset := h.offset_le
  have hcontent := h.content_eq
  have hlength : ((content.drop w.file.offset).take n).length = n := by
    rw [List.length_take, List.length_drop]
    omega
  -- the buffers that there are keep their bytes
  have hold : r.buffers.flatMap (Chunk.bytes (Reader.advance w n).memory) =
      content.take w.file.offset := by
    rw [← h.text]
    refine List.flatMap_congr fun c hc ↦ ?_
    obtain ⟨id, hid, hbuffer, -⟩ := h.chunks c hc
    rw [Chunk.bytes, Chunk.bytes, hbuffer]
    exact (Memory.read_store_of_ne _ hid.ne 0 0 _ _).trans (World.read_newBuffer w hid 0 _)
  have hchunks : ∀ c ∈ r.buffers, ∃ id < w.made + 1, c.buffer = ⟨id, 0, 4048, 4048, 0⟩ ∧
      0 < c.bytesRead ∧ c.bytesRead ≤ 4048 := by
    intro c hc
    obtain ⟨id, hid, hc⟩ := h.chunks c hc
    exact ⟨id, Nat.lt_succ_of_lt hid, hc⟩
  rcases Nat.eq_zero_or_pos n with rfl | hpos
  · exact ⟨hcontent, hoffset, hchunks, hold, h.nread⟩
  · rw [collect, if_neg hpos.ne']
    refine ⟨hcontent, ?_, fun c hc ↦ ?_, ?_, congrArg (· + n) h.nread⟩
    · change w.file.offset + n ≤ content.length
      omega
    · obtain hc | hc := List.mem_append.mp hc
      · exact hchunks c hc
      · rw [List.mem_singleton.mp hc]
        exact ⟨w.made, Nat.lt_succ_self _, rfl, hpos, hn.trans (Nat.min_le_left _ _)⟩
    · have hnew : Chunk.bytes (Reader.advance w n).memory
          ⟨⟨w.made, 0, 4048, 4048, 0⟩, n⟩ = (content.drop w.file.offset).take n := by
        have hread := Memory.read_store_self (fun buffer i ↦ if buffer = w.made then 0
          else w.memory buffer i) w.made 0 ((content.drop w.file.offset).take n)
        rw [hlength] at hread
        rw [Chunk.bytes, Reader.advance, hcontent]
        exact hread
      change (r.buffers ++ [_]).flatMap _ = content.take (w.file.offset + n)
      rw [List.flatMap_append, List.flatMap_singleton, hold, hnew, List.take_add]

/-- The memory with a new buffer. -/
def extend (w : World) : World :=
  { w with
    memory := fun buffer i ↦ if buffer = w.made then 0 else w.memory buffer i
    made := w.made + 1 }

theorem newBuffer_eq_extend (w : World) :
    w.newBuffer 4048 = (.ok ⟨w.made, 0, 4048, 4048, 0⟩, extend w) :=
  World.newBuffer_eq w (show 4048 < 2 ^ 31 by omega)

section

variable {size : ℕ} (hpos : 0 < size) (hsize : size < 2 ^ 31)
include hpos hsize

theorem readSync_fails {e : JsError} (h : k.answer w.calls = .fails e) :
    (extend w).readSync k fd ⟨w.made, 0, size, size, 0⟩ 0 size .null =
      (.error e, { extend w with calls := w.calls + 1 }) :=
  World.readSync_of_fails (w := extend w) (v := ⟨w.made, 0, size, size, 0⟩) hsize hpos
    (Nat.zero_add size).le h

theorem readSync_moves {n : ℕ} (h : k.answer w.calls = .moves n) :
    (extend w).readSync k fd ⟨w.made, 0, size, size, 0⟩ 0 size .null =
      (.ok (amount n (min size (w.file.content.length - w.file.offset))),
        advance w (amount n (min size (w.file.content.length - w.file.offset)))) :=
  World.readSync_of_moves (w := extend w) (v := ⟨w.made, 0, size, size, 0⟩) hsize hpos
    (Nat.zero_add size).le h (show w.file = ⟨w.file.content, w.file.offset⟩ from rfl)

end

theorem readLoop_fails (fuel : ℕ) (r : Reader) {e : JsError}
    (h : k.answer w.calls = .fails e) :
    readLoop k fd (fuel + 1) r w =
      some (.error e, { extend w with calls := w.calls + 1 }) := by
  rw [readLoop, newBuffer_eq_extend, Outcome.andThen]
  rw [readSync_fails (by omega) (by omega) h, Outcome.andThen]

theorem readLoop_moves (fuel : ℕ) (r : Reader) {n : ℕ} (h : k.answer w.calls = .moves n) :
    readLoop k fd (fuel + 1) r w =
      let a := amount n (min 4048 (w.file.content.length - w.file.offset))
      let r := { r.collect with buffer := ⟨w.made, 0, 4048, 4048, 0⟩, lastRead := a }
      if 0 < a then readLoop k fd fuel r (advance w a) else some (.ok r, advance w a) := by
  rw [readLoop, newBuffer_eq_extend, Outcome.andThen]
  rw [readSync_moves (by omega) (by omega) h, Outcome.andThen]

/-- The loop comes to the end of the file, unless a read fails. -/
theorem readLoop_cases (k : Kernel) (fd : Int32) {fuel : ℕ} (h : r.collect.Reading content w)
    (hfuel : content.length - w.file.offset < fuel) :
    (∃ r' w', readLoop k fd fuel r w = some (.ok r', w') ∧ r'.Reading content w' ∧
      w'.file.offset = content.length ∧ w'.descriptors = w.descriptors ∧
      Drains k (min 4048) True w.calls (content.length - w.file.offset)) ∨
    ∃ e w', readLoop k fd fuel r w = some (.error e, w') ∧ w'.descriptors = w.descriptors ∧
      ¬Drains k (min 4048) True w.calls (content.length - w.file.offset) := by
  induction fuel generalizing r w with
  | zero => exact absurd hfuel (Nat.not_lt_zero _)
  | succ fuel ih =>
    have hoffset := h.offset_le
    cases hanswer : k.answer w.calls with
    | fails e =>
      exact .inr ⟨e, _, readLoop_fails fuel r hanswer, rfl, not_drains hanswer (.inl trivial)⟩
    | moves n =>
      rw [readLoop_moves fuel r hanswer, h.content_eq]
      have hle := amount_le n (min 4048 (content.length - w.file.offset))
      have hnext := h.advance hle
      rcases Nat.eq_zero_or_pos (content.length - w.file.offset) with hzero | hleft
      · left
        have hnone : amount n (min 4048 (content.length - w.file.offset)) = 0 := by
          have hmin := amount_le n (min 4048 (content.length - w.file.offset))
          omega
        rw [hnone] at hnext ⊢
        rw [hzero]
        exact ⟨_, _, rfl, hnext, by change w.file.offset + 0 = _; omega, rfl,
          .done fun _ ↦ ⟨n, hanswer⟩⟩
      · have hpos := amount_pos (Nat.lt_min.mpr ⟨show 0 < 4048 by omega, hleft⟩) n
        dsimp only
        rw [if_pos hpos, drains_iff hanswer hleft]
        have hrest : content.length - (advance w (amount n (min 4048
            (content.length - w.file.offset)))).file.offset =
          content.length - w.file.offset -
            amount n (min 4048 (content.length - w.file.offset)) := Nat.sub_add_eq _ _ _
        have hcases := ih hnext (by omega)
        rw [hrest] at hcases
        exact hcases

/-! ## The copy -/

/-- A part of a buffer is copied into a buffer that has room for it. -/
theorem copy_eq (m : Memory) {id target size offset n : ℕ} (hpos : 0 < n) (hn : n ≤ 4048)
    (hroom : offset + n ≤ size) (hsize : size < 2 ^ 31) :
    View.copy ⟨id, 0, 4048, 4048, 0⟩ m ⟨target, 0, size, size, 0⟩ offset 0 n =
      .ok (n, m.move id 0 target offset n) := by
  have hzero : size ≠ 0 := by omega
  rw [View.copy_of_lt m hpos hn, if_neg hzero, if_neg (show ¬size ≤ offset by omega),
    if_neg (show ¬size - offset < n - 0 by omega)]
  have hnative : View.nativeCopy ⟨id, 0, 4048, 4048, 0⟩ m ⟨target, 0, size, size, 0⟩ offset 0 n =
      .ok (n - 0, m.move id (0 + 0) target (0 + offset) (n - 0)) :=
    View.nativeCopy_eq hsize (show 4048 < 2 ^ 31 by omega) m hpos hn
      (show offset + (n - 0) ≤ size by omega)
  rw [Nat.sub_zero, Nat.zero_add, Nat.zero_add] at hnative
  exact hnative

/-- The buffers are copied one behind the other. -/
theorem copyAll_cases (target : ℕ) {size : ℕ} (hsize : size < 2 ^ 31) {chunks : List Chunk}
    (m : Memory) (offset : ℕ)
    (hchunks : ∀ c ∈ chunks, ∃ id ≠ target, c.buffer = ⟨id, 0, 4048, 4048, 0⟩ ∧
      0 < c.bytesRead ∧ c.bytesRead ≤ 4048)
    (hroom : offset + (chunks.flatMap (Chunk.bytes m)).length ≤ size) :
    ∃ m', copyAll ⟨target, 0, size, size, 0⟩ m offset chunks = .ok m' ∧
      m'.read target 0 (offset + (chunks.flatMap (Chunk.bytes m)).length) =
        m.read target 0 offset ++ chunks.flatMap (Chunk.bytes m) := by
  induction chunks generalizing m offset with
  | nil => exact ⟨m, rfl, (List.append_nil _).symm⟩
  | cons c rest ih =>
    obtain ⟨id, hid, hbuffer, hpos, hle⟩ := hchunks c List.mem_cons_self
    have hlength : (Chunk.bytes m c).length = c.bytesRead := Memory.length_read _ _ _ _
    rw [List.flatMap_cons, List.length_append, hlength] at hroom
    -- the other buffers are not changed
    have hrest : rest.flatMap (Chunk.bytes (m.move id 0 target offset c.bytesRead)) =
        rest.flatMap (Chunk.bytes m) := by
      refine List.flatMap_congr fun c' hc' ↦ ?_
      obtain ⟨id', hid', hbuffer', -⟩ := hchunks c' (List.mem_cons_of_mem _ hc')
      rw [Chunk.bytes, Chunk.bytes, hbuffer']
      exact Memory.read_move_of_ne m hid' 0 offset _ 0 _
    obtain ⟨m', hcopy, hread⟩ := ih (m.move id 0 target offset c.bytesRead)
      (offset + c.bytesRead) (fun c' hc' ↦ hchunks c' (List.mem_cons_of_mem _ hc'))
      (by rw [hrest]; omega)
    refine ⟨m', ?_, ?_⟩
    · rw [copyAll, if_neg hpos.ne', hbuffer, copy_eq m hpos hle (by omega) hsize]
      exact hcopy
    · rw [List.flatMap_cons, List.length_append, hlength, ← Nat.add_assoc]
      rw [hrest] at hread
      rw [hread, Memory.read_add, Nat.zero_add, Memory.read_move,
        Memory.read_move_of_le _ (Nat.zero_add offset).le, List.append_assoc, Chunk.bytes, hbuffer]

/-- What has been read is in one buffer, unless it is too large for a buffer. -/
theorem Reading.assemble (h : r.Reading content w) (hend : w.file.offset = content.length)
    (hlt : content.length < 2 ^ 31) :
    ∃ v w', r.assemble w = some (.ok v, w') ∧ w'.bytes v = content ∧
      w'.descriptors = w.descriptors := by
  have htext := h.text
  rw [hend, List.take_length] at htext
  rw [Reader.assemble]
  split_ifs with hmany
  · have hnread : r.nread = content.length := h.nread.trans hend
    rw [hnread, World.newBuffer_eq w hlt, Outcome.andThen]
    have hsame : r.buffers.flatMap (Chunk.bytes
        (fun buffer i ↦ if buffer = w.made then 0 else w.memory buffer i)) = content := by
      rw [← htext]
      refine List.flatMap_congr fun c hc ↦ ?_
      obtain ⟨id, hid, hbuffer, -⟩ := h.chunks c hc
      rw [Chunk.bytes, Chunk.bytes, hbuffer]
      exact World.read_newBuffer w hid 0 _
    obtain ⟨m', hcopy, hread⟩ := copyAll_cases w.made hlt
      (fun buffer i ↦ if buffer = w.made then 0 else w.memory buffer i) 0
      (fun c hc ↦ by
        obtain ⟨id, hid, hc⟩ := h.chunks c hc
        exact ⟨id, hid.ne, hc⟩)
      (by rw [hsame, Nat.zero_add])
    rw [hsame, Nat.zero_add] at hread
    dsimp only
    rw [hcopy]
    exact ⟨_, _, rfl, hread, rfl⟩
  · rcases hbuffers : r.buffers with _ | ⟨c, rest⟩
    · rw [hbuffers] at htext
      exact ⟨_, _, congrArg some (World.newBuffer_eq w (Nat.two_pow_pos 31)), htext, rfl⟩
    · rw [hbuffers] at hmany htext
      obtain rfl : rest = [] := List.length_eq_zero_iff.mp (by
        rw [List.length_cons] at hmany
        omega)
      obtain ⟨id, -, hbuffer, -, hle⟩ := h.chunks c (hbuffers ▸ List.mem_cons_self)
      have hslice : c.buffer.slice 0 c.bytesRead =
          .ok ⟨id, 0, c.bytesRead, c.bytesRead, 0⟩ := by
        rw [hbuffer, View.slice, if_neg (by exact Nat.not_lt.mpr hle), if_neg (Nat.not_lt_zero _)]
        exact congrArg Except.ok
          (View.createSlice_eq (v := ⟨id, 0, 4048, 4048, 0⟩) (Nat.zero_le _) hle)
      refine ⟨⟨id, 0, c.bytesRead, c.bytesRead, 0⟩, w,
        congrArg (fun x ↦ some (x, w)) hslice, ?_, rfl⟩
      rw [← htext, List.flatMap_singleton, Chunk.bytes, hbuffer]
      rfl

/-- No buffer has that many bytes. -/
theorem Reading.assemble_large (h : r.Reading content w) (hend : w.file.offset = content.length)
    (hle : 2 ^ 31 ≤ content.length) (hlt : content.length < 2 ^ 32) :
    r.assemble w = some (.error (.error "invalid array length"), w) := by
  have hmany : 1 < r.buffers.length := by
    have htext := congrArg List.length h.text
    rw [hend, List.take_length] at htext
    rcases hbuffers : r.buffers with _ | ⟨c, _ | ⟨c', rest⟩⟩
    · rw [hbuffers, List.flatMap_nil, List.length_nil] at htext
      omega
    · obtain ⟨id, -, -, -, hc⟩ := h.chunks c (hbuffers ▸ List.mem_cons_self)
      rw [hbuffers, List.flatMap_singleton, Chunk.bytes, Memory.length_read] at htext
      omega
    · rw [List.length_cons, List.length_cons]
      omega
  have hnread : r.nread = content.length := h.nread.trans hend
  have hneg : Buffer.toInt32 content.length < 0 := by
    rw [Buffer.toInt32, Nat.mod_eq_of_lt hlt, if_neg (by omega)]
    omega
  rw [Reader.assemble, if_pos hmany, hnread, World.newBuffer, if_pos hneg, Outcome.andThen]

/-- Descriptors do not matter to it. -/
theorem exists_assemble (r : Reader) (w : World) :
    ∃ x w', r.assemble w = some (x, w') ∧ w'.descriptors = w.descriptors := by
  have hnew (n : ℕ) : (w.newBuffer n).2.descriptors = w.descriptors := by
    rw [World.newBuffer]
    split_ifs <;> rfl
  rw [assemble]
  split_ifs
  · have hsame := hnew r.nread
    rcases hbuffer : w.newBuffer r.nread with ⟨e | v, w'⟩
    · rw [hbuffer] at hsame
      exact ⟨_, _, rfl, hsame⟩
    · rw [hbuffer] at hsame
      rw [Outcome.andThen]
      cases copyAll v w'.memory 0 r.buffers with
      | error e => exact ⟨_, _, rfl, hsame⟩
      | ok m => exact ⟨_, _, rfl, hsame⟩
  · cases r.buffers with
    | nil => exact ⟨_, _, rfl, hnew 0⟩
    | cons c rest => exact ⟨_, _, rfl, rfl⟩

end Reader

/-- The whole file has been read when `readFileSync` closes it, or a read has failed. -/
theorem readFileSync_cases {fuel : ℕ} (w : World) (hopens : k.opens = .ok fd)
    (hfuel : w.file.content.length < fuel) :
    (∃ (r : Reader) (w' : World), readFileSync k fuel w = r.assemble (w'.closeSync fd) ∧
      r.Reading w.file.content w' ∧ w'.file.offset = w.file.content.length ∧
      w'.descriptors = fd :: w.descriptors ∧
      Drains k (min 4048) True w.calls w.file.content.length) ∨
    ∃ e w', readFileSync k fuel w = some (.error e, w') ∧ w'.descriptors = fd :: w.descriptors ∧
      ¬Drains k (min 4048) True w.calls w.file.content.length := by
  have hopen : w.openSync k false = (.ok fd, w.opened fd false) := by rw [World.openSync, hopens]
  rw [readFileSync, hopen, Outcome.andThen]
  rw [Reader.newBuffer_eq_extend, Outcome.andThen]
  have hcases := Reader.readLoop_cases k fd
    (r := ⟨[], 0, ⟨(w.opened fd false).made, 0, 4048, 4048, 0⟩, 0⟩)
    (w := Reader.extend (w.opened fd false))
    (show Reader.Reading w.file.content _ _ from ⟨rfl, Nat.zero_le _,
      fun c hc ↦ absurd hc List.not_mem_nil, rfl, rfl⟩) hfuel
  rcases hcases with ⟨r, w', hloop, hreading, hend, hdescriptors, hdrains⟩ |
    ⟨e, w', hloop, hdescriptors, hdrains⟩
  · left
    exact ⟨r, w', by rw [hloop]; rfl, hreading, hend, hdescriptors, hdrains⟩
  · right
    exact ⟨e, w', by rw [hloop]; rfl, hdescriptors, hdrains⟩

/-! ## The loops that write -/

section

variable {v : View} (hlength : v.length ≤ v.rawLength) (hraw : v.rawLength < 2 ^ 31)
include hlength hraw

/-- The world behind a write of `n` bytes. -/
def World.advance (w : World) (v : View) (written n : ℕ) : World :=
  { w with
    calls := w.calls + 1
    file := ⟨w.file.content ++ w.memory.read v.buffer (v.start + written) n, w.file.offset⟩ }

/-- The loop writes all bytes, unless a write fails. -/
theorem writeLoop_cases (k : Kernel) (fd : Int32) {fuel written : ℕ} {w : World}
    (hle : written ≤ v.length)
    (hfile : w.file.content = w.memory.read v.buffer v.start written)
    (hfuel : v.length - written < fuel) :
    (∃ w', writeLoop k fd v fuel written w = some (.ok (), w') ∧ w'.file.content = w.bytes v ∧
      w'.descriptors = w.descriptors ∧ Drains k id False w.calls (v.length - written)) ∨
    ∃ e w', writeLoop k fd v fuel written w = some (.error e, w') ∧
      w'.descriptors = w.descriptors ∧ ¬Drains k id False w.calls (v.length - written) := by
  induction fuel generalizing written w with
  | zero => exact absurd hfuel (Nat.not_lt_zero _)
  | succ fuel ih =>
    rcases Nat.eq_or_lt_of_le hle with rfl | hlt
    · left
      refine ⟨w, by rw [writeLoop, if_neg (Nat.lt_irrefl _)], hfile, rfl, ?_⟩
      rw [Nat.sub_self]
      exact .done False.elim
    · have hleft : 0 < v.length - written := by omega
      have hroom : written + (v.length - written) ≤ v.rawLength := by omega
      rw [writeLoop, if_pos hlt]
      cases hanswer : k.answer w.calls with
      | fails e =>
        right
        rw [World.writeSync_of_fails hraw hleft hroom hanswer, Outcome.andThen]
        exact ⟨e, _, rfl, rfl, not_drains hanswer (.inr hleft)⟩
      | moves n =>
        have hcontent : w.file.content.length = written := by rw [hfile, Memory.length_read]
        have hamount := amount_le n (v.length - written)
        have hpos := amount_pos hleft n
        rw [World.writeSync_of_moves hraw hleft hroom hanswer hcontent, Outcome.andThen,
          drains_iff hanswer hleft]
        have hcases := @ih (written + amount n (v.length - written))
          (w.advance v written (amount n (v.length - written))) (by omega) (by
            rw [World.advance, hfile, Memory.read_add]) (by omega)
        rw [Nat.sub_add_eq] at hcases
        exact hcases

/-- `writeAll` writes all bytes if no write fails. -/
theorem writeAll_of_works (hk : k.Works) (fd : Int32) {fuel offset : ℕ} {w : World}
    (hle : offset ≤ v.length)
    (hfile : w.file.content = w.memory.read v.buffer v.start offset)
    (hfuel : v.length - offset < fuel) :
    ∃ w', writeAll k fd v fuel offset (v.length - offset) w = some (.ok (), w') ∧
      w'.file.content = w.bytes v := by
  induction fuel generalizing offset w with
  | zero => exact absurd hfuel (Nat.not_lt_zero _)
  | succ fuel ih =>
    rw [writeAll]
    rcases Nat.eq_or_lt_of_le hle with rfl | hlt
    · rw [Nat.sub_self, World.write_zero, written, if_pos rfl]
      exact ⟨_, rfl, hfile⟩
    · have hleft : 0 < v.length - offset := by omega
      have hroom : offset + (v.length - offset) ≤ v.rawLength := by omega
      obtain ⟨n, hanswer⟩ := hk.answer w.calls
      have hcontent : w.file.content.length = offset := by rw [hfile, Memory.length_read]
      have hamount := amount_le n (v.length - offset)
      have hpos := amount_pos hleft n
      have hnext : (w.advance v offset (amount n (v.length - offset))).file.content =
          w.memory.read v.buffer v.start (offset + amount n (v.length - offset)) := by
        rw [World.advance, hfile, Memory.read_add]
      rw [World.write_of_moves hraw hleft hroom hanswer hcontent, written]
      split_ifs with hall
      · refine ⟨_, rfl, ?_⟩
        rw [hall, show offset + (v.length - offset) = v.length by omega] at hnext
        rw [← hall] at hnext
        exact hnext
      · have hrest := @ih (offset + amount n (v.length - offset))
          (w.advance v offset (amount n (v.length - offset))) (by omega) hnext (by omega)
        rw [Nat.sub_add_eq] at hrest
        exact hrest

end

/-! ## Data -/

/-- The length of a buffer is below `2 ^ 31`. -/
theorem length_lt_of_made {v : View} (h : v.Made) :
    v.length ≤ v.rawLength ∧ v.rawLength < 2 ^ 31 :=
  ⟨h.placed.length_le, h.placed.rawLength_lt⟩

/-- The buffer that is written, if there is one. -/
theorem toBuffer_cases (d : Data) (w : World) :
    (∃ v w', d.toBuffer w = (.ok v, w') ∧ d.size = some v.length ∧ v.length ≤ v.rawLength ∧
      v.rawLength < 2 ^ 31 ∧ w'.file = w.file ∧ w'.descriptors = w.descriptors ∧
      w'.calls = w.calls ∧ ∀ b, d.Holds w b → w'.bytes v = b) ∨
    ∃ e w', d.toBuffer w = (.error e, w') ∧ d.size = none ∧ w'.descriptors = w.descriptors := by
  cases d with
  | buffer v hv =>
    left
    exact ⟨v, w, rfl, rfl, (length_lt_of_made hv).1, (length_lt_of_made hv).2, rfl, rfl, rfl,
      fun b hb ↦ hb⟩
  | other made =>
    cases made with
    | error e => exact .inr ⟨e, w, rfl, rfl, rfl⟩
    | ok b =>
      rw [Data.toBuffer, Data.size, World.newBuffer]
      split_ifs with hneg
      · exact .inr ⟨_, _, rfl, rfl, rfl⟩
      · left
        have hlt : (Buffer.toInt32 b.length).toNat < 2 ^ 31 := by
          rw [Buffer.toInt32] at hneg ⊢
          split_ifs at hneg ⊢ <;> omega
        refine ⟨_, _, rfl, rfl, Nat.le_refl _, hlt, rfl, rfl, rfl, fun b' hholds ↦ ?_⟩
        obtain ⟨hb', hlt'⟩ := hholds
        obtain rfl := Except.ok.inj hb'
        have hlength : (Buffer.toInt32 b.length).toNat = b.length := by
          rw [Buffer.toInt32_of_lt hlt']
          rfl
        have hread := Memory.read_store_self
          (fun buffer i ↦ if buffer = w.made then 0 else w.memory buffer i) w.made 0 b
        rw [World.bytes]
        dsimp only
        rw [hlength]
        exact hread

theorem openSync_eq (w : World) (hopens : k.opens = .ok fd) (truncate : Bool) :
    w.openSync k truncate = (.ok fd, w.opened fd truncate) := by
  rw [World.openSync, hopens]

/-- The file has the data when `writeFileSync` closes it, or there is no buffer of it, or a write
has failed. -/
theorem writeFileSync_cases {fuel : ℕ} (d : Data) (w : World) (hopens : k.opens = .ok fd)
    (hfuel : ∀ n ∈ d.size, n < fuel) :
    (∃ w', writeFileSync k fuel d w = some (.ok (), w') ∧
      (∀ b, d.Holds (w.opened fd true) b → w'.file.content = b) ∧
      w'.descriptors = w.descriptors ∧ ∃ n, d.size = some n ∧ Drains k id False w.calls n) ∨
    ∃ e w', writeFileSync k fuel d w = some (.error e, w') ∧ w'.descriptors = fd :: w.descriptors ∧
      ¬∃ n, d.size = some n ∧ Drains k id False w.calls n := by
  rw [writeFileSync, openSync_eq w hopens, Outcome.andThen]
  rcases toBuffer_cases d (w.opened fd true) with
    ⟨v, w₁, hbuffer, hsize, hlength, hraw, hfile, hdescriptors, hcalls, hholds⟩ |
    ⟨e, w', hbuffer, hsize, hdescriptors⟩
  · have hempty : w₁.file.content = w₁.memory.read v.buffer v.start 0 := by
      rw [hfile]
      rfl
    have hcases := writeLoop_cases hlength hraw k fd (Nat.zero_le v.length) hempty
      (hfuel v.length hsize)
    rw [hcalls, Nat.sub_zero] at hcases
    rcases hcases with ⟨w', hloop, hcontent, hdescriptors', hdrains⟩ |
      ⟨e, w', hloop, hdescriptors', hdrains⟩
    · left
      refine ⟨w'.closeSync fd, ?_, fun b hb ↦ hcontent.trans (hholds b hb), ?_, v.length, hsize,
        hdrains⟩
      · rw [hbuffer, Outcome.andThen, hloop]
        rfl
      · rw [World.closeSync, hdescriptors', hdescriptors]
        exact List.erase_cons_head fd w.descriptors
    · right
      refine ⟨e, w', ?_, hdescriptors'.trans hdescriptors, ?_⟩
      · rw [hbuffer, Outcome.andThen, hloop]
        rfl
      · rintro ⟨n, hn, hdrains'⟩
        obtain rfl := Option.some.inj (hsize.symm.trans hn)
        exact hdrains hdrains'
  · right
    refine ⟨e, w', ?_, hdescriptors, ?_⟩
    · rw [hbuffer, Outcome.andThen]
    · rintro ⟨n, hn, -⟩
      cases hsize.symm.trans hn

/-! ## Exactness -/

theorem size_of_holds {d : Data} {w : World} {b : Bytes} (h : d.Holds w b) :
    d.size = some b.length := by
  cases d with
  | buffer v hv =>
    have hb : w.bytes v = b := h
    rw [← hb, World.bytes, Memory.length_read]
    rfl
  | other made =>
    obtain ⟨rfl, hlt⟩ := h
    rw [Data.size, Buffer.toInt32_of_lt hlt, if_neg (by omega)]
    rfl

theorem writeFileSync_of_works (hk : k.Works) {d : Data} {w : World} {b : Bytes}
    (hd : d.Holds w b) {fuel : ℕ} (hfuel : b.length < fuel) :
    ∃ w', writeFileSync k fuel d w = some (.ok (), w') ∧ w'.file.content = b := by
  obtain ⟨fd, hopens⟩ := hk.opens
  have hd' : d.Holds (w.opened fd true) b := by cases d <;> exact hd
  have hsize : ∀ n ∈ d.size, n < fuel := by
    intro n hn
    obtain rfl := Option.some.inj ((size_of_holds hd).symm.trans hn)
    exact hfuel
  rcases writeFileSync_cases d w hopens hsize with ⟨w', heq, hcontent, -⟩ | ⟨e, w', -, -, hdrains⟩
  · exact ⟨w', heq, hcontent b hd'⟩
  · exact absurd ⟨_, size_of_holds hd, hk.drains (fun n hn ↦ hn) False _ _⟩ hdrains

theorem writeFile_of_works (hk : k.Works) {d : Data} {w : World} {b : Bytes} (hd : d.Holds w b)
    {fuel : ℕ} (hfuel : b.length < fuel) :
    ∃ w', writeFile k fuel d w = some (.ok (), w') ∧ w'.file.content = b := by
  obtain ⟨fd, hopens⟩ := hk.opens
  have hd' : d.Holds (w.opened fd true) b := by cases d <;> exact hd
  rw [writeFile, openSync_eq w hopens, Outcome.andThen]
  rcases toBuffer_cases d (w.opened fd true) with
    ⟨v, w₁, hbuffer, hsize, hlength, hraw, hfile, -, -, hholds⟩ | ⟨e, w', -, hsize, -⟩
  · have hempty : w₁.file.content = w₁.memory.read v.buffer v.start 0 := by
      rw [hfile]
      rfl
    have hlen : v.length = b.length := Option.some.inj (hsize.symm.trans (size_of_holds hd))
    obtain ⟨w', hall, hcontent⟩ := writeAll_of_works hlength hraw hk fd
      (Nat.zero_le v.length) hempty (by rwa [Nat.sub_zero, hlen])
    rw [hbuffer, Outcome.andThen]
    exact ⟨w', hall, hcontent.trans (hholds b hd')⟩
  · cases hsize.symm.trans (size_of_holds hd)

/-- Whole files are read and written exactly, whatever the kernel moves at a time. -/
theorem exact_of_works (hk : k.Works) (w : World) :
    (w.file.content.length < 2 ^ 31 → ∀ fuel, w.file.content.length < fuel →
      ∃ v w', readFileSync k fuel w = some (.ok v, w') ∧ w'.bytes v = w.file.content) ∧
    ∀ (d : Data) (b : Bytes), d.Holds w b → ∀ fuel, b.length < fuel →
      (∃ w', writeFileSync k fuel d w = some (.ok (), w') ∧ w'.file.content = b) ∧
        ∃ w', writeFile k fuel d w = some (.ok (), w') ∧ w'.file.content = b := by
  refine ⟨fun hlt fuel hfuel ↦ ?_, fun d b hd fuel hfuel ↦
    ⟨writeFileSync_of_works hk hd hfuel, writeFile_of_works hk hd hfuel⟩⟩
  obtain ⟨fd, hopens⟩ := hk.opens
  rcases readFileSync_cases w hopens hfuel with ⟨r, w', heq, hreading, hend, -, -⟩ |
    ⟨e, w', -, -, hdrains⟩
  · have hclosed : r.Reading w.file.content (w'.closeSync fd) :=
      ⟨hreading.content_eq, hreading.offset_le, hreading.chunks, hreading.text, hreading.nread⟩
    obtain ⟨v, w'', hassemble, hbytes, -⟩ := hclosed.assemble hend hlt
    exact ⟨v, w'', heq.trans hassemble, hbytes⟩
  · exact absurd (hk.drains (fun n hn ↦ Nat.lt_min.mpr ⟨by omega, hn⟩) True _ _) hdrains

/-- What is written of a string. -/
theorem holds_string (h : Buffer.Heap) (w : World) {s : JSString} (hs : WellFormed s = true)
    (hlen : (utf8Bytes s).length < 2 ^ 31) :
    (Data.string h s).Holds w (Buffer.dropNul (utf8Bytes s)) := by
  obtain ⟨v, m, hmade, rfl, hread⟩ := Buffer.createTypedArray_eq h (fun _ _ ↦ 0) 0 hs
  refine ⟨?_, (Buffer.length_dropNul_le _).trans_lt hlen⟩
  rw [hmade]
  exact congrArg Except.ok hread

/-- **A string is written in UTF-8**, less a final `NUL`. -/
theorem writes_string (hk : k.Works) (h : Buffer.Heap) (w : World) {s : JSString}
    (hs : WellFormed s = true) (hlen : (utf8Bytes s).length < 2 ^ 31) {fuel : ℕ}
    (hfuel : (utf8Bytes s).length < fuel) :
    (∃ w', writeFileSync k fuel (.string h s) w = some (.ok (), w') ∧
      w'.file.content = Buffer.dropNul (utf8Bytes s)) ∧
    ∃ w', writeFile k fuel (.string h s) w = some (.ok (), w') ∧
      w'.file.content = Buffer.dropNul (utf8Bytes s) := by
  have hholds := holds_string h w hs hlen
  have hfuel' := (Buffer.length_dropNul_le _).trans_lt hfuel
  exact ⟨writeFileSync_of_works hk hholds hfuel', writeFile_of_works hk hholds hfuel'⟩

/-- A kernel that moves one byte at a time. -/
def oneByOne : Kernel := ⟨.ok 3, fun _ ↦ .moves 1⟩

theorem oneByOne_works : oneByOne.Works := ⟨⟨3, rfl⟩, fun _ ↦ ⟨1, rfl⟩⟩

/-- A file, with nothing open and nothing in memory. -/
def World.ofFile (content : Bytes) : World := ⟨⟨content, 0⟩, [], fun _ _ ↦ 0, 0, 0⟩

theorem exact_of_works_two :
    (∃ v w', readFileSync oneByOne 3 (.ofFile [1, 2]) = some (.ok v, w') ∧ w'.bytes v = [1, 2]) ∧
      ∃ w', writeFileSync oneByOne 3 (.other (.ok [7, 8])) (.ofFile [1, 2]) = some (.ok (), w') ∧
        w'.file.content = [7, 8] := by
  have hexact := exact_of_works oneByOne_works (.ofFile [1, 2])
  exact ⟨hexact.1 (show 2 < 2 ^ 31 by omega) 3 (Nat.lt_succ_self 2),
    (hexact.2 (.other (.ok [7, 8])) [7, 8] ⟨rfl, show 2 < 2 ^ 31 by omega⟩ 3
      (Nat.lt_succ_self 2)).1⟩

/-- There is no buffer for a file of two gigabytes. -/
theorem too_large : ∃ (k : Kernel) (w : World), k.Works ∧ ∀ fuel, w.file.content.length < fuel →
    ∃ w', readFileSync k fuel w = some (.error (.error "invalid array length"), w') := by
  refine ⟨oneByOne, .ofFile (List.replicate (2 ^ 31) 0), oneByOne_works, fun fuel hfuel ↦ ?_⟩
  have hlength : (World.ofFile (List.replicate (2 ^ 31) 0)).file.content.length = 2 ^ 31 :=
    List.length_replicate
  rcases readFileSync_cases _ (show oneByOne.opens = .ok 3 from rfl) hfuel with
    ⟨r, w', heq, hreading, hend, -, -⟩ | ⟨e, w', -, -, hdrains⟩
  · have hclosed : r.Reading _ (w'.closeSync 3) :=
      ⟨hreading.content_eq, hreading.offset_le, hreading.chunks, hreading.text, hreading.nread⟩
    exact ⟨_, heq.trans (hclosed.assemble_large hend hlength.ge (by rw [hlength]; omega))⟩
  · exact absurd (oneByOne_works.drains (fun n hn ↦ Nat.lt_min.mpr ⟨by omega, hn⟩) True _ _)
      hdrains

/-! ## Descriptors -/

theorem cons_ne_descriptors {fd : Int32} {l l' : List Int32} (h : l' = fd :: l) : l' ≠ l :=
  fun he ↦ List.cons_ne_self fd l (h.symm.trans he)

/-- A descriptor is closed if nothing fails between `open` and `close`, and only then. -/
theorem closed_iff (k : Kernel) (w : World) :
    (∀ fuel, w.file.content.length < fuel → ∃ x w', readFileSync k fuel w = some (x, w') ∧
      (w'.descriptors = w.descriptors ↔ ∀ fd, k.opens = .ok fd →
        Drains k (min 4048) True w.calls w.file.content.length)) ∧
    ∀ (d : Data) (fuel : ℕ), (∀ n ∈ d.size, n < fuel) →
      ∃ x w', writeFileSync k fuel d w = some (x, w') ∧
        (w'.descriptors = w.descriptors ↔ ∀ fd, k.opens = .ok fd →
          ∃ n, d.size = some n ∧ Drains k id False w.calls n) := by
  cases hopens : k.opens with
  | error e =>
    have hopen (truncate : Bool) : w.openSync k truncate = (.error e, w) := by
      rw [World.openSync, hopens]
    refine ⟨fun fuel _ ↦ ⟨.error e, w, ?_, iff_of_true rfl fun fd hfd ↦ by cases hfd⟩,
      fun d fuel _ ↦ ⟨.error e, w, ?_, iff_of_true rfl fun fd hfd ↦ by cases hfd⟩⟩
    · rw [readFileSync, hopen, Outcome.andThen]
    · rw [writeFileSync, hopen, Outcome.andThen]
  | ok fd =>
    refine ⟨fun fuel hfuel ↦ ?_, fun d fuel hfuel ↦ ?_⟩
    · rcases readFileSync_cases w hopens hfuel with ⟨r, w', heq, -, -, hdescriptors, hdrains⟩ |
        ⟨e, w', heq, hdescriptors, hdrains⟩
      · obtain ⟨x, w'', hassemble, hsame⟩ := r.exists_assemble (w'.closeSync fd)
        refine ⟨x, w'', heq.trans hassemble, iff_of_true ?_ fun _ _ ↦ hdrains⟩
        rw [hsame, World.closeSync, hdescriptors]
        exact List.erase_cons_head fd w.descriptors
      · exact ⟨_, w', heq, iff_of_false (cons_ne_descriptors hdescriptors)
          fun hall ↦ hdrains (hall fd rfl)⟩
    · rcases writeFileSync_cases d w hopens hfuel with ⟨w', heq, -, hdescriptors, hdrains⟩ |
        ⟨e, w', heq, hdescriptors, hdrains⟩
      · exact ⟨_, w', heq, iff_of_true hdescriptors fun _ _ ↦ hdrains⟩
      · exact ⟨_, w', heq, iff_of_false (cons_ne_descriptors hdescriptors)
          fun hall ↦ hdrains (hall fd rfl)⟩

theorem closed_iff_two : ∃ x w', readFileSync oneByOne 3 (.ofFile [1, 2]) = some (x, w') ∧
    w'.descriptors = [] := by
  obtain ⟨x, w', heq, hclosed⟩ := (closed_iff oneByOne (.ofFile [1, 2])).1 3 (Nat.lt_succ_self 2)
  have hdrains : Drains oneByOne (min 4048) True 0 2 :=
    oneByOne_works.drains (fun n hn ↦ Nat.lt_min.mpr ⟨by omega, hn⟩) True 0 2
  exact ⟨x, w', heq, hclosed.mpr fun _ _ ↦ hdrains⟩

/-- The first read of a file fails; and `writeFileSync(path)` has no data. -/
theorem left_open :
    (∃ e w', readFileSync ⟨.ok 3, fun _ ↦ .fails (.error "EIO, Input/output error")⟩ 2
      (.ofFile [1]) = some (.error e, w') ∧ w'.descriptors = [3]) ∧
    ∃ e w', writeFileSync oneByOne 1
      (.other (.error (.error "First argument needs to be a number, array or string.")))
      (.ofFile [1]) = some (.error e, w') ∧ w'.descriptors = [3] := by
  constructor
  · rcases readFileSync_cases (.ofFile [1])
      (show Kernel.opens ⟨.ok 3, fun _ ↦ .fails (.error "EIO, Input/output error")⟩ = .ok 3
        from rfl)
      (Nat.lt_succ_self 1) with ⟨-, -, -, -, -, -, hdrains⟩ | ⟨e, w', heq, hdescriptors, -⟩
    · exact absurd hdrains (not_drains rfl (.inl trivial))
    · exact ⟨e, w', heq, hdescriptors⟩
  · exact ⟨_, _, rfl, rfl⟩

end SpiderNode.Files
