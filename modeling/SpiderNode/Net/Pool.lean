import SpiderNode.Text.Encoding
import Mathlib.Logic.Function.Basic

/-!
# The shared pool of `lib/net.js`

Strings written to a socket, and the bytes read from one, go through a module-level buffer, the
*pool*. A pool is filled from the front; `pool.used` says how far. When little space is left a new
pool is allocated and the old one lives on through the slices that refer to it.

A `Buffer` of the program is therefore either memory of its own or a window into some pool, and a
window reads whatever the pool holds *now*. `Pool.mem` records the contents of every pool allocated
so far, so that a slice can outlive the pool it was cut from, and so that nothing in the model
quietly copies what the program shares.
-/

namespace SpiderNode.Net

def kMinPoolSpace : ℕ := 128

def kPoolSize : ℕ := 40 * 1024

/-- The module-level `pool`, with the memory of the pools it has replaced. -/
structure Pool where
  /-- The bytes of each pool, by allocation number. -/
  mem : ℕ → ℕ → UInt8
  /-- How many pools have been allocated; none yet means that `pool` is still `null`. -/
  count : ℕ
  /-- `pool.used` of the newest one. -/
  used : ℕ

namespace Pool

/-- The allocation number of the current pool. -/
def current (p : Pool) : ℕ := p.count - 1

/-- `pool.length - pool.used`. -/
def room (p : Pool) : ℕ := kPoolSize - p.used

/-- `if (!pool || pool.length - pool.used < kMinPoolSpace) { pool = null; allocNewPool(); }` -/
def ensure (p : Pool) : Pool :=
  if p.count = 0 ∨ p.room < kMinPoolSpace then { p with count := p.count + 1, used := 0 } else p

/-- Store bytes at `pool.used`, without moving it. -/
def store (p : Pool) (b : Bytes) : Pool :=
  { p with
    mem := Function.update p.mem p.current fun i ↦
      if p.used ≤ i ∧ i < p.used + b.length then b.getD (i - p.used) 0 else p.mem p.current i }

/-- `pool.used += n`. -/
def advance (p : Pool) (n : ℕ) : Pool := { p with used := p.used + n }

/-- `pool.used -= n`. -/
def retreat (p : Pool) (n : ℕ) : Pool := { p with used := p.used - n }

@[simp] theorem store_count (p : Pool) (b : Bytes) : (p.store b).count = p.count := rfl

@[simp] theorem store_used (p : Pool) (b : Bytes) : (p.store b).used = p.used := rfl

theorem store_mem_current (p : Pool) (b : Bytes) (i : ℕ) :
    (p.store b).mem p.current i =
      if p.used ≤ i ∧ i < p.used + b.length then b.getD (i - p.used) 0 else p.mem p.current i := by
  simp only [store, Function.update_self]

theorem store_mem_of_ne {p : Pool} {id : ℕ} (h : id ≠ p.current) (b : Bytes) :
    (p.store b).mem id = p.mem id := by
  simp only [store, Function.update_of_ne h]

@[simp] theorem advance_count (p : Pool) (n : ℕ) : (p.advance n).count = p.count := rfl

@[simp] theorem advance_used (p : Pool) (n : ℕ) : (p.advance n).used = p.used + n := rfl

@[simp] theorem retreat_mem (p : Pool) (n : ℕ) : (p.retreat n).mem = p.mem := rfl

@[simp] theorem retreat_count (p : Pool) (n : ℕ) : (p.retreat n).count = p.count := rfl

@[simp] theorem retreat_used (p : Pool) (n : ℕ) : (p.retreat n).used = p.used - n := rfl

@[simp] theorem retreat_advance (p : Pool) (n : ℕ) : (p.advance n).retreat n = p := by
  simp [retreat, advance]

@[simp] theorem ensure_mem (p : Pool) : p.ensure.mem = p.mem := by
  unfold ensure
  split <;> rfl

theorem ensure_count_pos (p : Pool) : 0 < p.ensure.count := by
  unfold ensure
  split
  · exact Nat.succ_pos _
  · omega

theorem kMinPoolSpace_le_room_ensure (p : Pool) : kMinPoolSpace ≤ p.ensure.room := by
  unfold ensure
  split
  · simp only [room, kMinPoolSpace, kPoolSize]
    omega
  · omega

theorem ensure_used_lt (p : Pool) : p.ensure.used < kPoolSize := by
  have h := p.kMinPoolSpace_le_room_ensure
  simp only [room, kMinPoolSpace] at h
  omega

end Pool

/-! ## Buffers -/

/-- A `Buffer`: memory of its own, or a window into a pool. -/
inductive Buf where
  | own (b : Bytes)
  /-- The `len` bytes at `start` of pool number `id`. -/
  | window (id start len : ℕ)
  deriving DecidableEq, Repr

namespace Buf

def length : Buf → ℕ
  | own b => b.length
  | window _ _ len => len

/-- The bytes a buffer holds at the moment. -/
def read (p : Pool) : Buf → Bytes
  | own b => b
  | window id start len => (List.range' start len).map (p.mem id)

/-- `buffer.slice(start, end)`. -/
def slice (start stop : ℕ) : Buf → Buf
  | own b => own ((b.take stop).drop start)
  | window id st _ => window id (st + start) (stop - start)

/-- A buffer that is not going to be overwritten: a window lies below `pool.used`, or in a pool
that has been replaced. -/
def Live (p : Pool) : Buf → Prop
  | own _ => True
  | window id start len => id < p.count ∧ (id = p.current → start + len ≤ p.used)

@[simp] theorem length_read (p : Pool) (b : Buf) : (b.read p).length = b.length := by
  cases b <;> simp [read, length]

theorem length_slice {start stop : ℕ} {b : Buf} (h : stop ≤ b.length) :
    (b.slice start stop).length = stop - start := by
  cases b with
  | own b =>
    rw [length] at h
    simp [slice, length, h]
  | window id st len => rfl

theorem read_slice {start stop : ℕ} {b : Buf} (p : Pool) (h : stop ≤ b.length) :
    (b.slice start stop).read p = ((b.read p).take stop).drop start := by
  cases b with
  | own b => rfl
  | window id st len =>
    rw [length] at h
    apply List.ext_getElem
    · simp [slice, read, h]
    · intro i _ _
      simp [slice, read, Nat.add_assoc]

/-! ### What leaves a buffer alone -/

theorem Live.ensure {p : Pool} {b : Buf} (h : b.Live p) : b.Live p.ensure := by
  cases b with
  | own b => trivial
  | window id start len =>
    obtain ⟨hid, hused⟩ := h
    unfold Pool.ensure
    split
    · refine ⟨Nat.lt_succ_of_lt hid, fun hc ↦ ?_⟩
      -- a new pool has just been allocated, so the window is in an older one
      simp only [Pool.current] at hc
      omega
    · exact ⟨hid, hused⟩

theorem Live.advance {p : Pool} {b : Buf} (h : b.Live p) (n : ℕ) : b.Live (p.advance n) := by
  cases b with
  | own b => trivial
  | window id start len => exact ⟨h.1, fun hc ↦ Nat.le_trans (h.2 hc) (Nat.le_add_right _ _)⟩

theorem Live.store {p : Pool} {b : Buf} (h : b.Live p) (x : Bytes) : b.Live (p.store x) := by
  cases b with
  | own b => trivial
  | window id start len => exact h

@[simp] theorem read_ensure (p : Pool) (b : Buf) : b.read p.ensure = b.read p := by
  cases b <;> simp [read]

@[simp] theorem read_advance (p : Pool) (n : ℕ) (b : Buf) : b.read (p.advance n) = b.read p := by
  cases b <;> rfl

@[simp] theorem read_retreat (p : Pool) (n : ℕ) (b : Buf) : b.read (p.retreat n) = b.read p := by
  cases b <;> rfl

/-- Storing at `pool.used` does not touch a live buffer. -/
theorem Live.read_store {p : Pool} {b : Buf} (h : b.Live p) (x : Bytes) :
    b.read (p.store x) = b.read p := by
  cases b with
  | own b => rfl
  | window id start len =>
    apply List.map_congr_left
    intro i hi
    rw [List.mem_range'_1] at hi
    by_cases hc : id = p.current
    · have hle := h.2 hc
      rw [hc, Pool.store_mem_current, if_neg (by omega)]
    · rw [Pool.store_mem_of_ne hc]

/-- The bytes just stored are read back through a window at `pool.used`. -/
theorem read_window_store (p : Pool) (x : Bytes) :
    (window p.current p.used x.length).read (p.store x) = x := by
  apply List.ext_getElem
  · simp [read]
  · intro i hi hx
    have hx' : i < x.length := hx
    simp [read, Pool.store_mem_current, hx']

end Buf

end SpiderNode.Net
