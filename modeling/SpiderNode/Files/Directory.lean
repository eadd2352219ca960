import SpiderNode.Files.Path
import Mathlib.Data.List.Basic

/-!
# Directories

A directory is the list of the names from the root to it. Its path is what `resolve` makes of any
path that leads to it: `normal_iff`.
-/

namespace SpiderNode.Files

/-! ## Parts -/

theorem not_mem_of_mem_splitOn {p q : JSString} (h : q ∈ p.splitOn slash) : slash ∉ q := by
  induction p generalizing q with
  | nil =>
    rw [List.splitOn_nil, List.mem_singleton] at h
    rw [h]
    exact List.not_mem_nil
  | cons u rest ih =>
    rw [List.splitOn_cons_eq_if_modifyHead] at h
    split_ifs at h with hu
    · obtain rfl | h := List.mem_cons.mp h
      · exact List.not_mem_nil
      · exact ih h
    · rcases hsplit : rest.splitOn slash with _ | ⟨first, others⟩
      · exact absurd hsplit (List.splitOn_ne_nil _ _)
      · rw [hsplit, List.modifyHead_cons] at h
        obtain rfl | h := List.mem_cons.mp h
        · have hfirst := ih (hsplit ▸ List.mem_cons_self)
          have hne : u ≠ slash := by simpa using hu
          simpa [hfirst] using hne.symm
        · exact ih (hsplit ▸ List.mem_cons_of_mem _ h)

theorem normalizeParts_cons (q : JSString) (rest : List JSString) :
    normalizeParts (q :: rest) =
      let r := normalizeParts rest
      if q = js "." then r
      else if q = js ".." then (r.1, r.2 + 1)
      else if 0 < r.2 then (r.1, r.2 - 1)
      else (q :: r.1, r.2) := rfl

/-- What stays is one of the parts, and none of the two that are left out. -/
theorem mem_normalizeParts {parts : List JSString} {p : JSString}
    (h : p ∈ (normalizeParts parts).1) : p ∈ parts ∧ p ≠ js "." ∧ p ≠ js ".." := by
  induction parts with
  | nil => exact absurd h List.not_mem_nil
  | cons q rest ih =>
    have hrest (h : p ∈ (normalizeParts rest).1) :
        p ∈ q :: rest ∧ p ≠ js "." ∧ p ≠ js ".." :=
      ⟨List.mem_cons_of_mem _ (ih h).1, (ih h).2⟩
    rw [normalizeParts_cons] at h
    dsimp only at h
    split_ifs at h with hdot hdots hup
    · exact hrest h
    · exact hrest h
    · exact hrest h
    · obtain rfl | h := List.mem_cons.mp h
      · exact ⟨List.mem_cons_self, hdot, hdots⟩
      · exact hrest h

/-! ## Directories -/

/-- A name between two slashes that is no `'.'` and no `'..'`. -/
def IsName (p : JSString) : Prop := p ≠ [] ∧ slash ∉ p ∧ p ≠ js "." ∧ p ≠ js ".."

instance (p : JSString) : Decidable (IsName p) := inferInstanceAs (Decidable (_ ∧ _))

/-- A directory by the names from the root to it. -/
@[ext]
structure Directory where
  parts : List JSString
  named : ∀ p ∈ parts, IsName p

namespace Directory

variable (d : Directory)

/-- The absolute path without `'.'` and `'..'`. -/
def path : JSString := slash :: join d.parts

/-- An ancestor, `n` names from the root. -/
def take (n : ℕ) : Directory := ⟨d.parts.take n, fun p hp ↦ d.named p (List.mem_of_mem_take hp)⟩

/-- The directory and its ancestors, the nearest first. -/
def ancestors : List Directory := (List.range (d.parts.length + 1)).reverse.map d.take

def child (p : JSString) (hp : IsName p) : Directory :=
  ⟨d.parts ++ [p], fun q hq ↦ (List.mem_append.mp hq).elim (d.named q) fun hq ↦
    List.mem_singleton.mp hq ▸ hp⟩

theorem mem_ancestors {a : Directory} : a ∈ d.ancestors ↔ a.parts <+: d.parts := by
  rw [ancestors, List.mem_map]
  constructor
  · rintro ⟨n, -, rfl⟩
    exact List.take_prefix n d.parts
  · intro h
    refine ⟨a.parts.length, ?_, Directory.ext (List.prefix_iff_eq_take.mp h).symm⟩
    rw [List.mem_reverse, List.mem_range]
    exact Nat.lt_succ_of_le h.length_le

/-- The parts of the path of a directory that is not the root. -/
theorem splitOn_path (h : d.parts ≠ []) : d.path.splitOn slash = [] :: d.parts := by
  have hpath : d.path = [slash].intercalate ([] :: d.parts) := by
    rw [List.intercalate_cons_of_ne_nil h]
    rfl
  rw [hpath, List.splitOn_intercalate slash ?_ (List.cons_ne_nil _ _)]
  intro p hp
  obtain rfl | hp := List.mem_cons.mp hp
  · exact List.not_mem_nil
  · exact (d.named p hp).2.1

theorem segments_path : segments (d.path ++ [slash]) = d.parts := by
  have hfilter : d.parts.filter (· ≠ []) = d.parts :=
    List.filter_eq_self.mpr fun p hp ↦ by simpa using (d.named p hp).1
  rcases List.eq_nil_or_concat d.parts with hnil | ⟨_, _, hne⟩
  · rw [path, hnil]
    rfl
  · have hnil : d.parts ≠ [] := by
      rw [hne, List.concat_eq_append]
      exact List.append_ne_nil_of_right_ne_nil _ (List.cons_ne_nil _ _)
    rw [segments, List.splitOn_append_cons_self, d.splitOn_path hnil]
    simpa using hfilter

theorem normalizeParts_parts : normalizeParts d.parts = (d.parts, 0) := by
  obtain ⟨parts, hnamed⟩ := d
  induction parts with
  | nil => rfl
  | cons p rest ih =>
    have hrest := ih fun q hq ↦ hnamed q (List.mem_cons_of_mem _ hq)
    obtain ⟨-, -, hdot, hdots⟩ := hnamed p List.mem_cons_self
    rw [normalizeParts_cons, hrest]
    dsimp only
    rw [if_neg hdot, if_neg hdots, if_neg (Nat.lt_irrefl 0)]

/-- The path of a directory is resolved already. -/
theorem resolve_path (cwd : JSString) : resolve cwd [d.path] = d.path := by
  have hgather : gather ([d.path].reverse ++ [cwd]) [] = (d.path ++ [slash], true) := rfl
  rw [resolve, hgather]
  dsimp only
  rw [d.segments_path, normalizeArray, d.normalizeParts_parts]
  rfl

theorem path_injective {d e : Directory} (h : d.path = e.path) : d = e := by
  ext1
  rw [← d.segments_path, h, e.segments_path]

/-- An absolute path is resolved to that of a directory. -/
theorem exists_resolve (cwd : JSString) {p : JSString} (h : isAbsolute p = true) :
    ∃ d : Directory, resolve cwd [p] = d.path := by
  have hne : p ≠ [] := by
    rintro rfl
    cases h
  have hgather : gather ([p].reverse ++ [cwd]) [] = (p ++ [slash], true) := by
    rw [List.reverse_singleton, List.singleton_append, gather, if_neg hne, if_pos h]
  have hnamed : ∀ q ∈ (normalizeParts (segments (p ++ [slash]))).1, IsName q := by
    intro q hq
    obtain ⟨hmem, hdot, hdots⟩ := mem_normalizeParts hq
    rw [segments, List.mem_filter] at hmem
    exact ⟨by simpa using hmem.2, not_mem_of_mem_splitOn hmem.1, hdot, hdots⟩
  refine ⟨⟨_, hnamed⟩, ?_⟩
  rw [resolve, hgather]
  rfl

end Directory

/-- A path without `'.'` and `'..'`, and without a slash too much. -/
def Normal (cwd p : JSString) : Prop := isAbsolute p = true ∧ resolve cwd [p] = p

/-- The normal paths are those of the directories. -/
theorem normal_iff (cwd p : JSString) : Normal cwd p ↔ ∃ d : Directory, d.path = p := by
  constructor
  · rintro ⟨habsolute, hresolve⟩
    obtain ⟨d, hd⟩ := Directory.exists_resolve cwd habsolute
    exact ⟨d, hd.symm.trans hresolve⟩
  · rintro ⟨d, rfl⟩
    exact ⟨rfl, d.resolve_path cwd⟩

end SpiderNode.Files
