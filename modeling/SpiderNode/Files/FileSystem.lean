import SpiderNode.Files.AsyncLoop
import SpiderNode.Files.Normalize
import SpiderNode.Trees.Links

/-!
# What the system calls are about

A file system is a tree with links (`FileSystem`). The path of a file leads there part by part, and
a `'..'` leads to the parent of the place that has been reached (`FileSystem.LeadsTo`).

`realpath` takes paths apart by `resolve`, without the file system. There a `'..'` takes back the
part before it. `run_of_resolves` says that a scan arrives where the path leads, if that part is no
link and no name has a line terminator: `Smooth`.
-/

namespace SpiderNode.Files

open Trees

structure Link where
  id : FileId
  target : JSString
  deriving DecidableEq

/-- What a path does. A slash at its end asks for a directory. -/
def stepsOf (p : JSString) : List (Step JSString) :=
  (segments p).map step ++ if Posix.endsInSlash p then [.stay] else []

def targetOf (p : JSString) : Target JSString := ⟨isAbsolute p, stepsOf p⟩

/-- The files, directories and links, by the names from the root. -/
structure FileSystem where
  node : List JSString → Option (Node Link)
  root : node [] = some .inner
  parent : ∀ d n, node (d ++ [n]) ≠ none → node d = some .inner
  named : ∀ d n, node (d ++ [n]) ≠ none → IsName n

namespace FileSystem

variable (fs : FileSystem)

def tree : LinkTree JSString Link := ⟨fs.node, fun l ↦ targetOf l.target, fs.root, fs.parent⟩

/-- A path leads from a directory to a file, and these links are met. -/
def LeadsTo (d : List JSString) (p : JSString) (met : List (List JSString × Link))
    (r : List JSString) : Prop :=
  Resolves fs.tree ((targetOf p).start d) (stepsOf p) met r

end FileSystem

/-- The system calls are about the files of a file system. -/
structure Serves {ε : Type} (os : Calls ε) (fs : FileSystem) : Prop where
  lstat_place : ∀ d, IsPlace fs.tree d → IsHard os (pathOf d)
  lstat_link : ∀ d n l, fs.node (d ++ [n]) = some (.link l) →
    os.lstat (pathOf (d ++ [n])) = .ok ⟨true, l.id⟩
  stat : ∀ d met r, Resolves fs.tree [] (d.map .down) met r → os.stat (pathOf d) = .ok ()
  readlink : ∀ d n l, fs.node (d ++ [n]) = some (.link l) →
    os.readlink (pathOf (d ++ [n])) = .ok l.target
  oneTarget : OneTarget os

/-- In a path from a directory no `'..'` takes back a link, and all names can be scanned. -/
structure Smooth (fs : FileSystem) (d : List JSString) (p : JSString) : Prop where
  plain : Plain fs.tree ((targetOf p).start d) (stepsOf p)
  oneLine : ∀ q ∈ (walk p).act ((targetOf p).start d), OneLine q

variable {ε : Type} {os : Calls ε} {fs : FileSystem} {cwd p : JSString}
  {d pre todo names r : List JSString} {n : JSString} {l : Link}
  {met : List (List JSString × Link)}

/-! ## Paths -/

theorem net_stepsOf (p : JSString) : net (stepsOf p) = walk p := by
  rw [stepsOf, net_append, walk]
  split_ifs
  · exact mul_one _
  · exact mul_one _

theorem named_of_isPlace (h : IsPlace fs.tree d) : ∀ q ∈ d, IsName q := by
  induction d using List.reverseRecOn with
  | nil => exact fun q hq ↦ absurd hq List.not_mem_nil
  | append_singleton d n ih =>
    have hparent := isPlace_dropLast h
    obtain ⟨x, hnode, -⟩ := h
    rw [List.dropLast_concat] at hparent
    intro q hq
    rcases List.mem_append.mp hq with hq | hq
    · exact ih hparent q hq
    · obtain rfl := List.mem_singleton.mp hq
      exact fs.named d q fun hnone ↦ Option.some_ne_none x (hnode.symm.trans hnone)

theorem map_clean_eq_self (h : ∀ q ∈ names, OneLine q) : names.map clean = names := by
  rw [List.map_congr_left fun q hq ↦ (h q hq).clean_eq, List.map_id']

theorem walk_text (h : ∀ q ∈ names, IsName q) : walk (text names) = ⟨0, names⟩ := by
  rcases eq_or_ne names [] with rfl | hne
  · rfl
  · rw [← pathOf_eq_text hne]
    exact Directory.walk_path ⟨names, h⟩

/-- Where a path leads from what has been scanned, by `resolve`. -/
theorem parts_follow (hpre : ∀ q ∈ pre, IsName q) (hclean : ∀ q ∈ pre, OneLine q) (p : JSString) :
    (follow cwd [previousOf pre, p]).parts = (walk p).act ((targetOf p).start pre) := by
  have hprevious : (Directory.root.goto cwd).goto (previousOf pre) = ⟨pre, hpre⟩ := by
    ext1
    have habs : isAbsolute (previousOf pre) = true := by
      rcases pre with _ | ⟨n, pre⟩ <;> rfl
    rw [Directory.parts_goto_of_isAbsolute _ habs, previousOf, map_clean_eq_self hclean,
      Posix.walk_concat_slash, walk_text hpre]
  show (((Directory.root.goto cwd).goto (previousOf pre)).goto p).parts = _
  rw [hprevious]
  rfl

theorem baseOf_eq_pathOf (h : ∀ q ∈ pre ++ [n], OneLine q) :
    baseOf pre n = pathOf (pre ++ [n]) := by
  rw [baseOf_eq, map_clean_eq_self h, pathOf_eq_text (by simp)]

/-! ## Kinds -/

section

variable (hos : Serves os fs) (hclean : ∀ q ∈ pre ++ [n], OneLine q)
include hos hclean

theorem kind_of_isPlace (h : IsPlace fs.tree (pre ++ [n])) : kind os cwd pre n = .hard := by
  rw [kind_eq_hard_iff, baseOf_eq_pathOf hclean]
  exact hos.lstat_place _ h

theorem kind_of_link (hnode : fs.node (pre ++ [n]) = some (.link l))
    (h : Resolves fs.tree pre [.down n] met r) :
    kind os cwd pre n = .link l.id ((walk l.target).act ((targetOf l.target).start pre)) := by
  have hparent : IsPlace fs.tree pre :=
    isPlace_of_inner (fs.parent pre n (hnode ▸ Option.some_ne_none _))
  have hroot := (Resolves.of_isPlace hparent).append h
  rw [← List.map_singleton, ← List.map_append] at hroot
  have hpre : ∀ q ∈ pre, OneLine q := fun q hq ↦ hclean q (List.mem_append_left _ hq)
  rw [kind, kindOf, baseOf_eq_pathOf hclean, hos.lstat_link pre n l hnode, hos.stat _ _ _ hroot,
    hos.readlink pre n l hnode, ← parts_follow (named_of_isPlace hparent) hpre l.target]
  rfl

end

/-- **The scan** arrives where the names lead, and meets the same links. -/
theorem run_of_resolves (hos : Serves os fs) (h : Resolves fs.tree pre (todo.map .down) met r)
    (hpre : IsPlace fs.tree pre) (hclean : ∀ q ∈ pre ++ todo, OneLine q)
    (hmet : ∀ m ∈ met, Smooth fs m.1 m.2.target) :
    Run os cwd pre todo (met.map (·.2.id)) (.ok r) := by
  induction hlength : met.length using Nat.strong_induction_on generalizing pre todo met with
  | _ length ihmet =>
  induction todo generalizing pre with
  | nil =>
    cases h
    exact .done _
  | cons n ns ih =>
    have hclean' : ∀ q ∈ pre ++ [n] ++ ns, OneLine q := by simpa using hclean
    have hfound : ∀ q ∈ pre ++ [n], OneLine q :=
      fun q hq ↦ hclean' q (List.mem_append_left ns hq)
    obtain ⟨met₁, e, -, hfirst, -⟩ : ∃ met₁ e met₂, Resolves fs.tree pre [.down n] met₁ e ∧
        Resolves fs.tree e (ns.map .down) met₂ r ∧ met = met₁ ++ met₂ := h.exists_of_append
    cases h with
    | down hnode hx hrest =>
      have hplace : IsPlace fs.tree (pre ++ [n]) := ⟨_, hnode, hx⟩
      exact .hard (kind_of_isPlace hos hfound hplace) (ih hrest hplace hclean')
    | @link _ _ l _ met _ hnode hrest =>
      have hsmooth := hmet (pre, l) List.mem_cons_self
      have hroot := hrest.from_root (isPlace_start hpre _) hsmooth.plain
      rw [show (fs.tree.target l).steps = stepsOf l.target from rfl, net_stepsOf] at hroot
      refine .link (kind_of_link hos hfound hnode hfirst) ?_
      refine ihmet met.length ?_ hroot (isPlace_of_inner fs.root) ?_ ?_ rfl
      · rw [← hlength]
        exact Nat.lt_succ_self _
      · intro q hq
        rcases List.mem_append.mp (List.nil_append _ ▸ hq) with hq | hq
        · exact hsmooth.oneLine q hq
        · exact hclean' q (List.mem_append_right (pre ++ [n]) hq)
      · exact fun m hm ↦ hmet m (List.mem_cons_of_mem _ hm)

end SpiderNode.Files
