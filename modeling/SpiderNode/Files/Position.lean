import SpiderNode.Native.Ranges
import Mathlib.Data.Rat.Defs

/-!
# Positions in files

`fs.read`, `fs.readSync`, `fs.write` and `fs.writeSync` of `lib/fs.js`, down to the system call that
`src/node_file.cc` makes for them. A position is a number of JavaScript. The engine stores a number
as an integer if it fits in 32 bits and as a double if it does not, `GET_OFFSET` takes a position
only from an integer, and everything else is the current position of the file.

`honours_iff` says that this loses all positions from `2 ^ 31` on.
-/

namespace SpiderNode.Files

open Native (RangeFunction)
open Net (JsError)

/-! ## Values -/

/-- A value of the engine, as far as these functions are passed any. -/
inductive JsVal where
  | undefined
  | null
  | int (n : Int32)
  | double (x : ℚ)
  deriving DecidableEq, Repr

namespace JsVal

/-- A number, as the engine stores it. -/
def number (n : ℤ) : JsVal :=
  if -2 ^ 31 ≤ n ∧ n < 2 ^ 31 then int (.ofInt n) else double n

/-- `IsInt32`, which asks how a number is stored. -/
def isInt32 : JsVal → Bool
  | int _ => true
  | _ => false

/-- `Int32Value` -/
def int32Value : JsVal → Int32
  | undefined | null => 0
  | int n => n
  | double x => .ofInt (x.num.tdiv x.den)

/-- `IntegerValue`. There are no larger integers. -/
def integerValue : JsVal → ℤ
  | int n => n.toInt
  | v => v.int32Value.toInt

/-- `!!value` -/
def truthy : JsVal → Bool
  | undefined | null => false
  | int n => n != 0
  | double x => x != 0

/-- `GET_OFFSET` -/
def getOffset (v : JsVal) : ℤ := if v.isInt32 then v.integerValue else -1

end JsVal

/-! ## Transfers -/

/-- Where in a file bytes are read or written. -/
inductive Place where
  | current
  | at (offset : ℤ)
  deriving DecidableEq, Repr

/-- `read` or `pread`, `write` or `pwrite`. The thread pool makes the same choice. -/
def place (pos : ℤ) : Place := if pos < 0 then .current else .at pos

/-- A system call, with its range of the buffer. -/
structure Transfer where
  fd : Int32
  range : UInt64 × UInt64
  place : Place
  deriving DecidableEq, Repr

/-- `Read` and `Write` of `src/node_file.cc`. `buffer` is the size of the second argument if it is a
buffer. -/
def transfer (f : RangeFunction) (fd : JsVal) (buffer : Option UInt64)
    (offset length position : JsVal) : Except JsError Transfer :=
  match fd, buffer with
  | .int fd, some size =>
    match f.check size offset.int32Value length.int32Value with
    | .ok range => .ok ⟨fd, range, place position.getOffset⟩
    | .error e => .error e
  | .int _, none => .error (.error "Second argument needs to be a buffer")
  -- `THROW_BAD_ARGS`
  | _, _ => .error .typeError

/-- What is passed behind the descriptor. -/
inductive Args where
  /-- A buffer with a range of it, and the position. -/
  | buffer (size : ℕ) (offset length position : JsVal)
  /-- The interface for strings, of which a new buffer of that size is made. -/
  | string (size : ℕ) (position : JsVal)
  deriving DecidableEq, Repr

namespace Args

def size : Args → ℕ
  | buffer size _ _ _ | string size _ => size

def offset : Args → JsVal
  | buffer _ offset _ _ => offset
  | string _ _ => .number 0

def length : Args → JsVal
  | buffer _ _ length _ => length
  | string size _ => .number size

def position : Args → JsVal
  | buffer _ _ _ position | string _ position => position

end Args

/-- The functions of `lib/fs.js` that read and write. -/
inductive IoFunction where
  | read
  | readSync
  | write
  | writeSync
  deriving DecidableEq, Repr

/-- A call. Nothing is transferred where nothing is to be written. -/
def IoFunction.call (f : IoFunction) (fd : JsVal) (a : Args) : Except JsError (Option Transfer) :=
  match f with
  | read | readSync =>
    some <$> transfer .fsRead fd (some (.ofNat a.size)) a.offset a.length a.position
  | write | writeSync =>
    if a.length.truthy then
      some <$> transfer .fsWrite fd (some (.ofNat a.size)) a.offset a.length a.position
    else .ok none

/-! ## Requests -/

/-- A range of a buffer that is not empty, or a string that is not, for one of the functions. -/
structure Request where
  string : Bool
  size : ℕ
  offset : ℕ
  length : ℕ
  size_lt : size < 2 ^ 31
  length_pos : 0 < length
  range_le : offset + length ≤ size

/-- The arguments of a request at a position. -/
def Request.args (r : Request) (position : JsVal) : Args :=
  if r.string then .string r.size position
  else .buffer r.size (.number r.offset) (.number r.length) position

/-- The call is one transfer, at that place. -/
def TransfersAt (f : IoFunction) (fd : Int32) (r : Request) (position : JsVal) (p : Place) : Prop :=
  ∃ t, f.call (.int fd) (r.args position) = .ok (some t) ∧ t.place = p

/-- The position is honoured: bytes are transferred there, and at the current position if there is
none. -/
def Honours (f : IoFunction) (fd : Int32) (r : Request) (p : ℕ) : Prop :=
  TransfersAt f fd r (.number p) (.at p) ∧ TransfersAt f fd r .null .current ∧
    TransfersAt f fd r .undefined .current

theorem number_of_lt {n : ℕ} (h : n < 2 ^ 31) : JsVal.number n = .int (.ofInt n) := by
  rw [JsVal.number, if_pos (by omega)]

theorem toInt_of_lt {n : ℕ} (h : n < 2 ^ 31) : (Int32.ofInt n).toInt = n :=
  Int32.toInt_ofInt_of_le (by omega) (by omega)

/-- A position below `2 ^ 31` is an integer, and any other one is not. -/
theorem getOffset_number (p : ℕ) :
    (JsVal.number p).getOffset = if p < 2 ^ 31 then (p : ℤ) else -1 := by
  split_ifs with h
  · rw [number_of_lt h]
    exact toInt_of_lt h
  · rw [JsVal.number, if_neg (by omega)]
    rfl

theorem exists_check (f : RangeFunction) {size offset length : ℕ} (hsize : size < 2 ^ 31)
    (hpos : 0 < length) (hle : offset + length ≤ size) :
    ∃ range, f.check (.ofNat size) (JsVal.number offset).int32Value
      (JsVal.number length).int32Value = .ok range := by
  rw [Native.exists_check_iff, number_of_lt (by omega), number_of_lt (by omega)]
  have hoffset := Native.toNat_sizeT (.ofInt offset)
  have hlength := Native.toNat_sizeT (.ofInt length)
  rw [toInt_of_lt (by omega), if_pos (by omega)] at hoffset hlength
  have hbuffer : (UInt64.ofNat size).toNat = size := by
    rw [UInt64.toNat_ofNat']
    omega
  dsimp only [JsVal.int32Value]
  omega

theorem truthy_number {n : ℕ} (hpos : 0 < n) (h : n < 2 ^ 31) : (JsVal.number n).truthy = true := by
  rw [number_of_lt h, JsVal.truthy, bne_iff_ne]
  intro hzero
  have hn := toInt_of_lt h
  rw [hzero, Int32.toInt_zero] at hn
  omega

/-- The arguments of a request name a range of its buffer. -/
theorem exists_range (r : Request) (position : JsVal) :
    ∃ offset length : ℕ, 0 < length ∧ offset + length ≤ r.size ∧
      (r.args position).size = r.size ∧ (r.args position).offset = .number offset ∧
      (r.args position).length = .number length ∧ (r.args position).position = position := by
  have hpos := r.length_pos
  have hle := r.range_le
  rw [Request.args]
  split_ifs
  · exact ⟨0, r.size, by omega, by omega, rfl, rfl, rfl, rfl⟩
  · exact ⟨r.offset, r.length, hpos, hle, rfl, rfl, rfl, rfl⟩

/-- A request leads to a transfer, and the position alone decides where. -/
theorem transfersAt_iff {f : IoFunction} {fd : Int32} {r : Request} {position : JsVal} {p : Place} :
    TransfersAt f fd r position p ↔ place position.getOffset = p := by
  obtain ⟨offset, length, hpos, hle, hsize, hoffset, hlength, hposition⟩ := exists_range r position
  have hlt := r.size_lt
  have hcall : ∃ range, f.call (.int fd) (r.args position) =
      .ok (some ⟨fd, range, place position.getOffset⟩) := by
    cases f with
    | read | readSync =>
      obtain ⟨range, hrange⟩ := exists_check .fsRead hlt hpos hle
      refine ⟨range, ?_⟩
      rw [IoFunction.call, hsize, hoffset, hlength, hposition, transfer, hrange]
      rfl
    | write | writeSync =>
      obtain ⟨range, hrange⟩ := exists_check .fsWrite hlt hpos hle
      refine ⟨range, ?_⟩
      rw [IoFunction.call, hsize, hoffset, hlength, hposition,
        if_pos (truthy_number hpos (by omega)), transfer, hrange]
      rfl
  obtain ⟨range, hcall⟩ := hcall
  rw [TransfersAt, hcall]
  constructor
  · rintro ⟨t, ht, hplace⟩
    rw [← hplace, ← Option.some.inj (Except.ok.inj ht)]
  · exact fun hplace ↦ ⟨_, rfl, hplace⟩

/-- Positions are honoured below `2 ^ 31`, and nowhere else. -/
theorem honours_iff (f : IoFunction) (fd : Int32) (r : Request) {p : ℕ} (h : p < 2 ^ 53) :
    Honours f fd r p ↔ p < 2 ^ 31 := by
  have hcurrent : TransfersAt f fd r .null .current ∧ TransfersAt f fd r .undefined .current :=
    ⟨transfersAt_iff.mpr rfl, transfersAt_iff.mpr rfl⟩
  rw [Honours, and_iff_left hcurrent, transfersAt_iff, getOffset_number]
  split_ifs with hp
  · refine iff_of_true ?_ hp
    rw [place, if_neg (by omega)]
  · refine iff_of_false ?_ hp
    rw [place, if_pos (by decide)]
    exact fun he ↦ by cases he

/-- A whole buffer of ten bytes. -/
def tenBytes : Request := ⟨false, 10, 0, 10, by decide, by decide, by decide⟩

theorem honours_iff_megabyte : Honours .read 3 tenBytes (2 ^ 20) :=
  (honours_iff .read 3 tenBytes (by decide)).mpr (by decide)

/-- At two gigabytes, bytes are read from wherever the file is. -/
theorem gigabytes_not_honoured :
    TransfersAt .read 3 tenBytes (.number (2 ^ 31 : ℕ)) .current ∧
      ¬Honours .read 3 tenBytes (2 ^ 31) := by
  have hoffset : (JsVal.number (2 ^ 31 : ℕ)).getOffset = -1 := by
    rw [getOffset_number, if_neg (by decide)]
  refine ⟨?_, fun h ↦ ?_⟩
  · rw [transfersAt_iff, hoffset]
    rfl
  · have hplace := transfersAt_iff.mp h.1
    rw [hoffset] at hplace
    cases hplace

end SpiderNode.Files
