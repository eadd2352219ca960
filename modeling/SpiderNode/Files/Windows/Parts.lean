import SpiderNode.Files.Normalize
import SpiderNode.Files.Windows.Device

/-!
# What stands behind a device

Behind its device, a path of Windows is one of POSIX in which some slashes are written as
backslashes: `slashes` reads it so, and `backslashes` writes it. `parts_eq` and `join_eq` say that
splitting and joining agree with what they are for POSIX.
-/

namespace SpiderNode.Files.Windows

open Trees

/-- `tail.split(/[\\\/]+/).filter(f)`; a run of separators makes no part. -/
def parts (tail : JSString) : List JSString := (tail.splitOnP isSeparator).filter (· ≠ [])

/-- `.join('\\')` -/
def join (parts : List JSString) : JSString := [backslash].intercalate parts

/-- With `/` for every separator. -/
def slashes (p : JSString) : JSString := p.map fun u ↦ if u = backslash then slash else u

/-- With `\` for every separator. -/
def backslashes (p : JSString) : JSString := p.map fun u ↦ if u = slash then backslash else u

/-- What following a path does. -/
def walk (tail : JSString) : Net JSString := Files.walk (slashes tail)

variable {p q r s tail part : JSString} {l : List JSString} {x : Net JSString}

/-! ## Reading and writing separators -/

theorem slashes_append (p q : JSString) : slashes (p ++ q) = slashes p ++ slashes q :=
  List.map_append

theorem backslashes_append (p q : JSString) :
    backslashes (p ++ q) = backslashes p ++ backslashes q := List.map_append

theorem backslashes_cons_slash (p : JSString) :
    backslashes (slash :: p) = backslash :: backslashes p :=
  rfl

theorem backslashes_of_notMem (h : slash ∉ p) : backslashes p = p := by
  conv_rhs => rw [← List.map_id p]
  exact List.map_congr_left fun u hu ↦ if_neg fun heq : u = slash ↦ h (heq ▸ hu)

theorem slashes_backslashes (h : backslash ∉ p) : slashes (backslashes p) = p := by
  rw [slashes, backslashes, List.map_map]
  conv_rhs => rw [← List.map_id p]
  refine List.map_congr_left fun u hu ↦ ?_
  have hne : u ≠ backslash := fun heq ↦ h (heq ▸ hu)
  by_cases hslash : u = slash
  · subst hslash
    rfl
  · simp [hslash, hne]

theorem backslash_notMem_slashes (p : JSString) : backslash ∉ slashes p := by
  intro h
  obtain ⟨u, -, hu⟩ := List.mem_map.mp h
  split_ifs at hu with heq
  · revert hu
    decide
  · exact heq hu

theorem isSeparator_iff {u : UInt16} : isSeparator u = true ↔ u = backslash ∨ u = slash := by
  simp [isSeparator]

/-! ## Parts -/

theorem splitOn_slashes (tail : JSString) :
    (slashes tail).splitOn slash = tail.splitOnP isSeparator := by
  induction tail with
  | nil => rw [slashes, List.map_nil, List.splitOn_nil, List.splitOnP_nil]
  | cons u tail ih =>
    have hcons : slashes (u :: tail) = (if u = backslash then slash else u) :: slashes tail := rfl
    rw [hcons, List.splitOn_cons_eq_if_modifyHead, List.splitOnP_cons_eq_if_modifyHead, ih]
    by_cases hu : isSeparator u = true
    · rw [if_pos hu, if_pos]
      rcases isSeparator_iff.mp hu with rfl | rfl
      · rfl
      · rfl
    · have hne : u ≠ backslash ∧ u ≠ slash := by
        rwa [isSeparator_iff, not_or] at hu
      rw [if_neg hu, if_neg hne.1, if_neg (by simpa using hne.2)]

theorem parts_eq (tail : JSString) : parts tail = segments (slashes tail) := by
  rw [parts, segments, splitOn_slashes]

/-- The parts of a path are made of its units. -/
theorem mem_of_mem_splitOn {u : UInt16} (hpart : part ∈ p.splitOn slash) (hu : u ∈ part) :
    u ∈ p := by
  induction p generalizing part with
  | nil =>
    rw [List.splitOn_nil, List.mem_singleton] at hpart
    rwa [hpart] at hu
  | cons v p ih =>
    rw [List.splitOn_cons_eq_if_modifyHead] at hpart
    split_ifs at hpart
    · rcases List.mem_cons.mp hpart with rfl | hpart
      · exact absurd hu List.not_mem_nil
      · exact List.mem_cons_of_mem _ (ih hpart hu)
    · rcases hsplit : p.splitOn slash with _ | ⟨first, others⟩
      · exact absurd hsplit (List.splitOn_ne_nil _ _)
      · rw [hsplit, List.modifyHead_cons] at hpart
        rcases List.mem_cons.mp hpart with rfl | hpart
        · rcases List.mem_cons.mp hu with rfl | hu
          · exact List.mem_cons_self
          · exact List.mem_cons_of_mem _ (ih (hsplit ▸ List.mem_cons_self) hu)
        · exact List.mem_cons_of_mem _ (ih (hsplit ▸ List.mem_cons_of_mem _ hpart) hu)

theorem mem_of_mem_downs {u : UInt16} (hq : q ∈ (Files.walk p).downs) (hu : u ∈ q) : u ∈ p := by
  obtain ⟨part, hpart, hstep⟩ := List.mem_map.mp (mem_downs_net hq)
  rw [step] at hstep
  split_ifs at hstep
  obtain rfl : part = q := by simpa using hstep
  exact mem_of_mem_splitOn (List.mem_filter.mp hpart).1 hu

/-- What stands behind a device leads down to names without separators. -/
theorem isName_of_mem_downs (h : q ∈ (walk tail).downs) : IsName q ∧ backslash ∉ q :=
  ⟨isName_of_mem_walk h, fun hu ↦ backslash_notMem_slashes tail (mem_of_mem_downs h hu)⟩

theorem notTerminator_of_mem_downs (htext : ∀ u ∈ tail, notTerminator u = true)
    (h : q ∈ (walk tail).downs) : ∀ u ∈ q, notTerminator u = true := by
  intro u hu
  obtain ⟨v, hv, rfl⟩ := List.mem_map.mp (mem_of_mem_downs h hu)
  split_ifs
  · decide
  · exact htext v hv

theorem join_eq (h : ∀ q ∈ l, slash ∉ q) : join l = backslashes (Files.join l) := by
  induction l with
  | nil => rfl
  | cons part l ih =>
    have hpart := backslashes_of_notMem (h part List.mem_cons_self)
    have hrest := ih fun q hq ↦ h q (List.mem_cons_of_mem _ hq)
    rcases eq_or_ne l [] with rfl | hne
    · rw [join, Files.join, List.intercalate_singleton, List.intercalate_singleton, hpart]
    · rw [join, Files.join, List.intercalate_cons_of_ne_nil hne,
        List.intercalate_cons_of_ne_nil hne, ← join, ← Files.join, hrest, backslashes_append,
        backslashes_append, hpart]
      rfl

end SpiderNode.Files.Windows
