import SpiderNode.Modules.Candidates
import SpiderNode.Files.Directory
import Mathlib.Data.List.Nodup

/-!
# The directories that are searched for modules

`Module._nodeModulePaths` of `lib/module.js` splits a path at its slashes, and joins its beginnings
with `'node_modules'`, from the longest to where the first `'node_modules'` is.

`nodeModulePaths_iff` says that the paths are those of the directories that are to be searched,
unless the directory is the root: `'/'` has two parts, both of them empty, so that the root is
searched twice.
-/

namespace SpiderNode.Modules

open Files (Directory IsName Normal resolve slash)

/-! ## What is to be searched -/

def nodeModules : JSString := js "node_modules"

theorem isName_nodeModules : IsName nodeModules := by decide

/-- The parent of the top-most `node_modules`. -/
def top (d : Directory) : Directory :=
  ⟨d.parts.takeWhile (· ≠ nodeModules), fun p hp ↦ d.named p ((List.takeWhile_prefix _).subset hp)⟩

/-- An ancestor is searched unless it is a `node_modules` itself, or farther away than the top-most
one. -/
def Searched (d a : Directory) : Prop :=
  a.parts.getLast? ≠ some nodeModules ∧
    ¬(nodeModules ∈ d.parts ∧ a.parts <+: (top d).parts ∧ a.parts ≠ (top d).parts)

instance (d a : Directory) : Decidable (Searched d a) := inferInstanceAs (Decidable (_ ∧ _))

/-- Where modules are, the nearest first. -/
def lookup (d : Directory) : List Directory :=
  (d.ancestors.filter (Searched d ·)).map (·.child nodeModules isName_nodeModules)

variable {ε : Type} (w : World ε)

/-- These are searched, by paths that are normal, and no directory twice. -/
structure Looks (d : Directory) : Prop where
  paths_eq : w.nodeModulePaths d.path = (lookup d).map (·.path)
  normal : ∀ p ∈ w.nodeModulePaths d.path, Normal w.cwd p
  nodup : ((w.nodeModulePaths d.path).map fun p ↦ resolve w.cwd [p]).Nodup

/-! ## The loop -/

/-- `indexOf` of the first part. -/
theorem idxOf?_eq {l : List JSString} {p : JSString} (h : p ∈ l) :
    l.idxOf? p = some (l.takeWhile (· ≠ p)).length := by
  induction l with
  | nil => exact absurd h List.not_mem_nil
  | cons q rest ih =>
    rw [List.idxOf?_cons, List.takeWhile_cons]
    by_cases hq : q = p
    · simp [hq]
    · have hrest := ih ((List.mem_cons.mp h).resolve_left (Ne.symm hq))
      simp [hq, hrest]

/-- An index of the loop is that of an ancestor that is searched. -/
theorem searched_take_iff (d : Directory) {n : ℕ} (hn : n ≤ d.parts.length) :
    Searched d (d.take n) ↔
      (([] :: d.parts).idxOf? nodeModules).getD 0 - 1 ≤ n ∧
        ([] :: d.parts)[n]? ≠ some nodeModules := by
  have hlast : (d.take n).parts.getLast? = some nodeModules ↔
      ([] :: d.parts)[n]? = some nodeModules := by
    cases n with
    | zero => simp [Directory.take, show ([] : JSString) ≠ nodeModules by decide]
    | succ n =>
      have hget : (d.parts.take (n + 1)).getLast? = d.parts[n]? := by
        rw [List.getLast?_take, if_neg (Nat.succ_ne_zero n), Nat.add_sub_cancel,
          List.getElem?_eq_getElem hn, Option.some_or]
      rw [Directory.take, hget, List.getElem?_cons_succ]
  rw [Searched, ne_eq, hlast, and_comm]
  refine and_congr_left fun _ ↦ ?_
  by_cases hmem : nodeModules ∈ d.parts
  · have hidx : ([] :: d.parts).idxOf? nodeModules = some ((top d).parts.length + 1) := by
      rw [idxOf?_eq (List.mem_cons_of_mem [] hmem), List.takeWhile_cons_of_pos (by decide)]
      rfl
    have hprefix : (top d).parts <+: d.parts := List.takeWhile_prefix _
    have htop : (top d).parts = d.parts.take (top d).parts.length :=
      List.prefix_iff_eq_take.mp hprefix
    have hlength : (d.take n).parts.length = n := by
      rw [Directory.take, List.length_take, Nat.min_eq_left hn]
    rw [hidx, Option.getD_some, Nat.add_sub_cancel, ← Nat.not_lt, not_iff_not]
    constructor
    · rintro ⟨-, hle, hne⟩
      have hlt := hle.length_le
      rw [hlength] at hlt
      refine Nat.lt_of_le_of_ne hlt fun heq ↦ hne ?_
      rw [htop, ← heq]
      rfl
    · intro hlt
      refine ⟨hmem, ?_, fun heq ↦ ?_⟩
      · rw [htop]
        exact List.take_prefix_take_left hlt.le
      · rw [← heq, hlength] at hlt
        exact Nat.lt_irrefl n hlt
  · have hidx : ([] :: d.parts).idxOf? nodeModules = none := by
      rw [List.idxOf?_eq_none_iff, List.mem_cons, not_or]
      exact ⟨by decide, hmem⟩
    rw [hidx]
    exact iff_of_true (fun h ↦ hmem h.1) (Nat.zero_le n)

/-- What is joined is the path of a directory. -/
theorem join_eq (d : Directory) (n : ℕ) :
    Files.join (([] :: d.parts).take (n + 1) ++ [nodeModules]) =
      ((d.take n).child nodeModules isName_nodeModules).path := by
  rw [List.take_succ_cons, List.cons_append, Files.join,
    List.intercalate_cons_of_ne_nil (List.append_ne_nil_of_right_ne_nil _ (List.cons_ne_nil _ _))]
  rfl

theorem nodeModulePaths_eq (d : Directory) (h : d.parts ≠ []) :
    w.nodeModulePaths d.path = (lookup d).map (·.path) := by
  have hfilter : (List.range (d.parts.length + 1)).reverse.filter
      (fun n ↦ (([] :: d.parts).idxOf? nodeModules).getD 0 - 1 ≤ n ∧
        ([] :: d.parts)[n]? ≠ some nodeModules) =
      (List.range (d.parts.length + 1)).reverse.filter (fun n ↦ Searched d (d.take n)) := by
    refine List.filter_congr fun n hn ↦ ?_
    rw [List.mem_reverse, List.mem_range, Nat.lt_succ_iff] at hn
    exact decide_eq_decide.mpr (searched_take_iff d hn).symm
  have hpaths : w.nodeModulePaths d.path =
      ((List.range (d.parts.length + 1)).reverse.filter
        (fun n ↦ (([] :: d.parts).idxOf? nodeModules).getD 0 - 1 ≤ n ∧
          ([] :: d.parts)[n]? ≠ some nodeModules)).map
        fun n ↦ Files.join (([] :: d.parts).take (n + 1) ++ [nodeModules]) := by
    rw [World.nodeModulePaths, d.resolve_path, d.splitOn_path h]
    rfl
  rw [hpaths, hfilter, lookup, Directory.ancestors, List.filter_map, List.map_map, List.map_map]
  exact List.map_congr_left fun n _ ↦ join_eq d n

theorem lookup_nodup (d : Directory) : (lookup d).Nodup := by
  have hancestors : d.ancestors.Nodup := by
    refine List.Nodup.map_on (fun m hm n hn heq ↦ ?_) (List.nodup_reverse.mpr List.nodup_range)
    rw [List.mem_reverse, List.mem_range, Nat.lt_succ_iff] at hm hn
    have hlength := congrArg (fun a : Directory ↦ a.parts.length) heq
    simp only [Directory.take, List.length_take, Nat.min_eq_left hm, Nat.min_eq_left hn] at hlength
    exact hlength
  refine (hancestors.filter _).map fun a b heq ↦ Directory.ext ?_
  exact List.append_cancel_right (congrArg Directory.parts heq)

/-- The root is searched twice, once by a path with two slashes. -/
theorem not_looks_root {d : Directory} (hroot : d.parts = []) : ¬Looks w d := by
  intro h
  have hpath : d.path = [slash] := by
    rw [Directory.path, hroot]
    rfl
  have hpaths : w.nodeModulePaths d.path = [js "//node_modules", js "/node_modules"] := by
    rw [World.nodeModulePaths, d.resolve_path w.cwd, hpath]
    decide
  have hnormal := (h.normal (js "//node_modules") (hpaths ▸ List.mem_cons_self)).2
  have hgather : Files.gather ([js "//node_modules"].reverse ++ [w.cwd]) [] =
      (js "//node_modules/", true) := rfl
  have hdirect : resolve w.cwd [js "//node_modules"] = js "/node_modules" := by
    rw [resolve, hgather]
    decide
  exact absurd (hdirect.symm.trans hnormal) (by decide)

/-- The paths are right for every directory but the root. -/
theorem looks_iff (d : Directory) : Looks w d ↔ d.parts ≠ [] := by
  constructor
  · exact fun h hroot ↦ not_looks_root w hroot h
  · intro h
    have hpaths := nodeModulePaths_eq w d h
    refine ⟨hpaths, fun p hp ↦ ?_, ?_⟩
    · rw [hpaths] at hp
      obtain ⟨a, -, rfl⟩ := List.mem_map.mp hp
      exact (Files.normal_iff w.cwd a.path).mpr ⟨a, rfl⟩
    · have hsame : ((w.nodeModulePaths d.path).map fun p ↦ resolve w.cwd [p]) =
          (lookup d).map (·.path) := by
        rw [hpaths, List.map_map]
        exact List.map_congr_left fun a _ ↦ a.resolve_path w.cwd
      rw [hsame]
      exact (lookup_nodup d).map fun a b heq ↦ Directory.path_injective heq

example : (lookup ⟨[js "a", js "node_modules", js "b"], by decide⟩).map (·.path) =
    [js "/a/node_modules/b/node_modules", js "/a/node_modules"] := by decide

theorem root_twice :
    (World.sample []).nodeModulePaths (js "/") = [js "//node_modules", js "/node_modules"] ∧
      ¬Looks (World.sample []) ⟨[], fun _ hp ↦ absurd hp List.not_mem_nil⟩ :=
  ⟨by decide, not_looks_root _ rfl⟩

end SpiderNode.Modules
