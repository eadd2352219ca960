import SpiderNode.Buffer.Views
import SpiderNode.Files.Content
import Mathlib.Order.Lattice
import Mathlib.Data.Nat.Init

/-!
# System calls of whole files

The synchronous calls of `lib/fs.js` with the buffers that they are passed: `openSync`, `readSync`,
`writeSync` and `closeSync`. The kernel is asked for each answer. It can fail, and it can move fewer
bytes than it is asked to.

`exists_call` says that a range of a buffer gets through the checks of `src/node_file.cc` as it is.
`readSync_cases` and `writeSync_cases` say what is behind them.
-/

namespace SpiderNode.Buffer.Memory

variable (m : Memory)

@[simp] theorem length_read (buffer i n : ℕ) : (m.read buffer i n).length = n := by
  rw [read, List.length_map, List.length_range]

theorem read_add (buffer i n k : ℕ) :
    m.read buffer i (n + k) = m.read buffer i n ++ m.read buffer (i + n) k := by
  rw [read, List.range_add, List.map_append, List.map_map, read, read]
  congr 2
  funext j
  rw [Function.comp_apply, Nat.add_assoc]

theorem getElem?_read {buffer i n j : ℕ} (h : j < n) :
    (m.read buffer i n)[j]? = some (m buffer (i + j)) := by
  rw [read, List.getElem?_map, List.getElem?_range h, Option.map_some]

/-- Two memories that agree on a range are read the same there. -/
theorem read_congr {m m' : Memory} {buffer buffer' i j n : ℕ}
    (h : ∀ k < n, m buffer (i + k) = m' buffer' (j + k)) :
    m.read buffer i n = m'.read buffer' j n :=
  List.map_congr_left fun k hk ↦ h k (List.mem_range.mp hk)

theorem read_store_of_ne {buffer buffer' : ℕ} (h : buffer' ≠ buffer) (i j n : ℕ) (b : Bytes) :
    (m.store buffer i b).read buffer' j n = m.read buffer' j n :=
  read_congr fun _ _ ↦ if_neg fun h' ↦ h h'.1

theorem read_store_self (buffer i : ℕ) (b : Bytes) :
    (m.store buffer i b).read buffer i b.length = b := by
  apply List.ext_getElem?
  intro j
  by_cases hj : j < b.length
  · rw [getElem?_read _ hj, store, if_pos ⟨rfl, Nat.le_add_right i j⟩, Nat.add_sub_cancel_left,
      List.getElem?_eq_getElem hj, Option.getD_some]
  · rw [List.getElem?_eq_none (by rw [length_read]; omega), List.getElem?_eq_none (by omega)]

/-- What is moved arrives. -/
theorem read_move (source target i j n : ℕ) :
    (m.move source i target j n).read target j n = m.read source i n := by
  refine read_congr fun k hk ↦ ?_
  rw [move, if_pos ⟨rfl, Nat.le_add_right j k, by omega⟩, Nat.add_sub_cancel_left]

/-- The bytes before the target are kept. -/
theorem read_move_of_le {source target i j n k p : ℕ} (h : p + k ≤ j) :
    (m.move source i target j n).read target p k = m.read target p k := by
  refine read_congr fun q hq ↦ ?_
  rw [move, if_neg]
  omega

theorem read_move_of_ne {source target buffer : ℕ} (h : buffer ≠ target) (i j n p k : ℕ) :
    (m.move source i target j n).read buffer p k = m.read buffer p k :=
  read_congr fun _ _ ↦ if_neg fun h' ↦ h h'.1

end SpiderNode.Buffer.Memory

namespace SpiderNode.Files

open Buffer (Memory View)
open Net (JsError)

/-! ## The kernel -/

/-- What the kernel answers to a system call that moves bytes. -/
inductive Answer where
  | fails (e : JsError)
  | moves (n : ℕ)
  deriving DecidableEq, Repr

/-- How many bytes are moved: one at least if there is room, and not more than there is room for. -/
def amount (n room : ℕ) : ℕ := min (max 1 n) room

/-- What the kernel does with the calls that it gets. -/
structure Kernel where
  opens : Except JsError Int32
  answer : ℕ → Answer

/-- Nothing fails. -/
structure Kernel.Works (k : Kernel) : Prop where
  opens : ∃ fd, k.opens = .ok fd
  answer : ∀ i, ∃ n, k.answer i = .moves n

/-- The file at a path, the descriptors that are open, and the memory. -/
structure World where
  file : OpenFile
  descriptors : List Int32
  memory : Memory
  /-- The number of `ArrayBuffer`s. -/
  made : ℕ
  /-- The number of transfers that the kernel has been asked for. -/
  calls : ℕ

/-- What a call returns or throws. -/
abbrev Outcome (α : Type) := Except JsError α × World

/-- A program goes on unless something is thrown. `none` is a loop that has not come to its end. -/
def Outcome.andThen {α β : Type} (x : Outcome α) (f : α → World → Option (Outcome β)) :
    Option (Outcome β) :=
  match x with
  | (.error e, w) => some (.error e, w)
  | (.ok a, w) => f a w

namespace World

variable (k : Kernel) (w : World)

/-- What a buffer shows. -/
def bytes (v : View) : Bytes := w.memory.read v.buffer v.start v.length

/-- `createTypedArray(n)`. An `ArrayBuffer` takes its length for an `int32`. -/
def newBuffer (n : ℕ) : Outcome View :=
  if Buffer.toInt32 n < 0 then (.error (.error "invalid array length"), w)
  else
    let length := (Buffer.toInt32 n).toNat
    (.ok ⟨w.made, 0, length, length, 0⟩,
      { w with
        memory := fun buffer i ↦ if buffer = w.made then 0 else w.memory buffer i
        made := w.made + 1 })

/-- The file is open, from its beginning. -/
def opened (fd : Int32) (truncate : Bool) : World :=
  { w with
    descriptors := fd :: w.descriptors
    file := if truncate then .truncated else { w.file with offset := 0 } }

/-- `openSync`, with `O_TRUNC` or without. -/
def openSync (truncate : Bool) : Outcome Int32 :=
  match k.opens with
  | .error e => (.error e, w)
  | .ok fd => (.ok fd, w.opened fd truncate)

def closeSync (fd : Int32) : World := { w with descriptors := w.descriptors.erase fd }

/-- `read` and `pread` -/
def sysRead (v : View) (t : Transfer) : Outcome ℕ :=
  let w' := { w with calls := w.calls + 1 }
  match k.answer w.calls with
  | .fails e => (.error e, w')
  | .moves n =>
    let (b, file) := w.file.read t.place
      (amount n (w.file.available t.place t.range.2.toNat))
    (.ok b.length, { w' with
      file := file
      memory := w.memory.store v.buffer (v.start + t.range.1.toNat) b })

/-- `write` and `pwrite` -/
def sysWrite (v : View) (t : Transfer) : Outcome ℕ :=
  let w' := { w with calls := w.calls + 1 }
  match k.answer w.calls with
  | .fails e => (.error e, w')
  | .moves n =>
    let b := w.memory.read v.buffer (v.start + t.range.1.toNat) (amount n t.range.2.toNat)
    (.ok b.length, { w' with file := w.file.write t.place b })

/-- The arguments that a buffer is passed with. -/
def args (v : View) (offset length : ℕ) (position : JsVal) : Args :=
  .buffer v.rawLength (.number offset) (.number length) position

/-- What a call leads to behind its checks. -/
def transferred (sys : Transfer → Outcome ℕ) :
    Except JsError (Option Transfer) → Outcome ℕ
  | .error e => (.error e, w)
  | .ok none => (.ok 0, w)
  | .ok (some t) => sys t

def readSync (fd : Int32) (v : View) (offset length : ℕ) (position : JsVal) :
    Outcome ℕ :=
  w.transferred (w.sysRead k v)
    (IoFunction.readSync.call (.int fd) (args v offset length position))

def writeSync (fd : Int32) (v : View) (offset length : ℕ) (position : JsVal) :
    Outcome ℕ :=
  w.transferred (w.sysWrite k v)
    (IoFunction.writeSync.call (.int fd) (args v offset length position))

/-- `fs.write`: an exception, or what its callback is passed. -/
def write (fd : Int32) (v : View) (offset length : ℕ) (position : JsVal) :
    Except JsError (Outcome ℕ) :=
  (IoFunction.write.call (.int fd) (args v offset length position)).map fun t ↦
    match t with
    | none => (.ok 0, w)
    | some t => w.sysWrite k v t

end World

/-! ## What is behind the checks -/

/-- A range of a buffer is passed on as it is. -/
theorem exists_call (f : IoFunction) (fd : Int32) {v : View} (hv : v.rawLength < 2 ^ 31)
    {offset length : ℕ} (hpos : 0 < length) (hle : offset + length ≤ v.rawLength)
    (position : JsVal) :
    ∃ t, f.call (.int fd) (World.args v offset length position) = .ok (some t) ∧
      t.range.1.toNat = offset ∧ t.range.2.toNat = length ∧ t.place = place position.getOffset := by
  have hsizes (n : ℕ) (hn : n < 2 ^ 31) :
      (Native.sizeT (JsVal.number n).int32Value).toNat = n := by
    have hsize := Native.toNat_sizeT (.ofInt n)
    rw [toInt_of_lt hn, if_pos (by omega)] at hsize
    rw [number_of_lt hn]
    exact Int.ofNat_inj.mp hsize
  have hrange (g : Native.RangeFunction) :
      g.check (.ofNat v.rawLength) (JsVal.number offset).int32Value
        (JsVal.number length).int32Value =
      .ok (Native.sizeT (JsVal.number offset).int32Value,
        Native.sizeT (JsVal.number length).int32Value) := by
    obtain ⟨range, hrange⟩ := exists_check g hv hpos hle
    have hsame := hrange
    rw [Native.check_eq, Native.checkRange_eq_ok_iff] at hsame
    rw [hrange, hsame.2.2]
  have hoffset := hsizes offset (by omega)
  have hlength := hsizes length (by omega)
  refine ⟨⟨fd, (Native.sizeT (JsVal.number offset).int32Value,
    Native.sizeT (JsVal.number length).int32Value), place position.getOffset⟩, ?_, hoffset,
    hlength, rfl⟩
  cases f with
  | read | readSync =>
    rw [IoFunction.call, World.args, Args.size, Args.offset, Args.length, Args.position, transfer,
      hrange]
    rfl
  | write | writeSync =>
    rw [IoFunction.call, World.args, Args.size, Args.offset, Args.length, Args.position,
      if_pos (truthy_number hpos (by omega)), transfer, hrange]
    rfl

theorem amount_le (n room : ℕ) : amount n room ≤ room := Nat.min_le_right _ _

theorem amount_pos {room : ℕ} (h : 0 < room) (n : ℕ) : 0 < amount n room :=
  Nat.lt_min.mpr ⟨Nat.lt_of_lt_of_le Nat.one_pos (Nat.le_max_left 1 n), h⟩

namespace World

variable {k : Kernel} {w : World} {fd : Int32} {v : View} {offset length : ℕ}

/-- A new buffer is none of those that there are. -/
theorem newBuffer_eq (w : World) {n : ℕ} (hn : n < 2 ^ 31) :
    w.newBuffer n = (.ok ⟨w.made, 0, n, n, 0⟩,
      { w with
        memory := fun buffer i ↦ if buffer = w.made then 0 else w.memory buffer i
        made := w.made + 1 }) := by
  rw [newBuffer, Buffer.toInt32_of_lt hn, if_neg (by omega)]
  rfl

theorem read_newBuffer (w : World) {buffer : ℕ} (h : buffer < w.made) (i n : ℕ) :
    Memory.read (fun buffer i ↦ if buffer = w.made then 0 else w.memory buffer i) buffer i n =
      w.memory.read buffer i n :=
  Memory.read_congr fun _ _ ↦ if_neg h.ne

section

variable (hv : v.rawLength < 2 ^ 31) (hpos : 0 < length) (hle : offset + length ≤ v.rawLength)
include hv hpos hle

theorem readSync_of_fails {e : JsError} (h : k.answer w.calls = .fails e) :
    w.readSync k fd v offset length .null = (.error e, { w with calls := w.calls + 1 }) := by
  obtain ⟨t, ht, -⟩ := exists_call .readSync fd hv hpos hle .null
  rw [readSync, ht, transferred]
  rw [sysRead, h]

/-- Some bytes are read from the current position. -/
theorem readSync_of_moves {n : ℕ} (h : k.answer w.calls = .moves n) {content : Bytes} {p : ℕ}
    (hfile : w.file = ⟨content, p⟩) :
    w.readSync k fd v offset length .null =
      (.ok (amount n (min length (content.length - p))),
        { w with
          calls := w.calls + 1
          file := ⟨content, p + amount n (min length (content.length - p))⟩
          memory := w.memory.store v.buffer (v.start + offset)
            ((content.drop p).take (amount n (min length (content.length - p)))) }) := by
  obtain ⟨t, ht, hoffset, hlength, hplace⟩ := exists_call .readSync fd hv hpos hle .null
  have hcurrent : t.place = .current := hplace
  have hlen : ((content.drop p).take (amount n (min length (content.length - p)))).length =
      amount n (min length (content.length - p)) := by
    rw [List.length_take, List.length_drop]
    have := amount_le n (min length (content.length - p))
    omega
  rw [readSync, ht, transferred]
  rw [sysRead, h]
  dsimp only
  rw [hfile, hcurrent, hoffset, hlength]
  simp only [OpenFile.read, OpenFile.available, OpenFile.source, OpenFile.move, if_true, hlen]

theorem writeSync_of_fails {e : JsError} (h : k.answer w.calls = .fails e) (position : JsVal) :
    w.writeSync k fd v offset length position = (.error e, { w with calls := w.calls + 1 }) := by
  obtain ⟨t, ht, -⟩ := exists_call .writeSync fd hv hpos hle position
  rw [writeSync, ht, transferred]
  rw [sysWrite, h]

/-- Some bytes are written behind the last one. -/
theorem sysWrite_of_moves {t : Transfer} (hoffset : t.range.1.toNat = offset)
    (hlength : t.range.2.toNat = length)
    (hplace : t.place = place (JsVal.number offset).getOffset) {n : ℕ}
    (h : k.answer w.calls = .moves n) (hfile : w.file.content.length = offset) :
    w.sysWrite k v t =
      (.ok (amount n length),
        { w with
          calls := w.calls + 1
          file := ⟨w.file.content ++
            w.memory.read v.buffer (v.start + offset) (amount n length), w.file.offset⟩ }) := by
  have hat : t.place = .at offset := by
    rw [hplace, getOffset_number, if_pos (by omega), place, if_neg (by omega)]
  rw [sysWrite, h]
  dsimp only
  rw [hat, hoffset, hlength, Memory.length_read, OpenFile.write, OpenFile.source, OpenFile.move,
    if_neg Place.noConfusion, Int.toNat_natCast, ← hfile, overwrite_length]

theorem writeSync_of_moves {n : ℕ} (h : k.answer w.calls = .moves n)
    (hfile : w.file.content.length = offset) :
    w.writeSync k fd v offset length (.number offset) =
      (.ok (amount n length),
        { w with
          calls := w.calls + 1
          file := ⟨w.file.content ++
            w.memory.read v.buffer (v.start + offset) (amount n length), w.file.offset⟩ }) := by
  obtain ⟨t, ht, hoffset, hlength, hplace⟩ :=
    exists_call .writeSync fd hv hpos hle (.number offset)
  rw [writeSync, ht, transferred]
  exact sysWrite_of_moves hv hpos hle hoffset hlength hplace h hfile

theorem write_of_moves {n : ℕ} (h : k.answer w.calls = .moves n)
    (hfile : w.file.content.length = offset) :
    w.write k fd v offset length (.number offset) =
      .ok (.ok (amount n length),
        { w with
          calls := w.calls + 1
          file := ⟨w.file.content ++
            w.memory.read v.buffer (v.start + offset) (amount n length), w.file.offset⟩ }) := by
  obtain ⟨t, ht, hoffset, hlength, hplace⟩ := exists_call .write fd hv hpos hle (.number offset)
  rw [write, ht, Except.map]
  exact congrArg Except.ok (sysWrite_of_moves hv hpos hle hoffset hlength hplace h hfile)

end

/-- Nothing is written if there is nothing to write. -/
theorem write_zero (position : JsVal) :
    w.write k fd v offset 0 position = .ok (.ok 0, w) := rfl

end World

end SpiderNode.Files
