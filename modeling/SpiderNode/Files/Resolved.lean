import SpiderNode.Files.Directory
import SpiderNode.Trees.Walk
import Mathlib.Data.List.Induction

/-!
# What paths resolve to

The parts of a path are the steps of a walk, and `normalizeArray` computes the net effect of the
walk from its end. A path leads from a directory to the place where its walk ends, or begins at the
root if it is absolute.

`resolve` reads its arguments from the last to the first until one of them is absolute.
`resolve_eq` says that it might as well follow them one after the other, from the working directory
on.
-/

namespace SpiderNode.Files

open Trees

/-! ## Paths as walks -/

/-- The step that a part of a path stands for. -/
def step (part : JSString) : Step JSString :=
  if part = js "." then .stay else if part = js ".." then .up else .down part

/-- What following a path does. -/
def walk (p : JSString) : Net JSString := net ((segments p).map step)

/-- **`normalizeArray`** computes what a walk does. -/
theorem normalizeParts_eq (parts : List JSString) :
    normalizeParts parts = ((net (parts.map step)).downs, (net (parts.map step)).ups) := by
  induction parts with
  | nil => rfl
  | cons q rest ih =>
    rw [normalizeParts_cons, ih, List.map_cons, net_cons, step]
    dsimp only
    split_ifs with hdot hdots hup
    · simp [Step.net]
    · simp [Step.net, Nat.add_comm]
    · simp [Step.net, show 1 - (net (rest.map step)).ups = 0 by omega]
    · simp [Step.net, show (net (rest.map step)).ups = 0 by omega]

variable {parts : List JSString} {p q part : JSString} {x : Net JSString}

theorem segments_append (p q : JSString) :
    segments (p ++ slash :: q) = segments p ++ segments q := by
  rw [segments, List.splitOn_append_cons_self, List.filter_append]
  rfl

theorem walk_append (p q : JSString) : walk (p ++ slash :: q) = walk p * walk q := by
  rw [walk, segments_append, List.map_append, net_append]
  rfl

@[simp] theorem walk_nil : walk [] = 1 := rfl

theorem walk_cons_slash (p : JSString) : walk (slash :: p) = walk p := by
  have h := walk_append [] p
  rwa [List.nil_append, walk_nil, one_mul] at h

theorem mem_segments (h : part ∈ segments p) : part ≠ [] ∧ slash ∉ part := by
  rw [segments, List.mem_filter] at h
  exact ⟨by simpa using h.2, not_mem_of_mem_splitOn h.1⟩

/-- What a path goes down to are names. -/
theorem isName_of_mem_walk (h : q ∈ (walk p).downs) : IsName q := by
  obtain ⟨part, hpart, hstep⟩ := List.mem_map.mp (mem_downs_net h)
  have hpart := mem_segments hpart
  rw [step] at hstep
  split_ifs at hstep with hdot hdots
  obtain rfl : part = q := by simpa using hstep
  exact ⟨hpart.1, hpart.2, hdot, hdots⟩

/-! ## Walks as paths -/

theorem join_cons (part : JSString) (h : parts ≠ []) :
    join (part :: parts) = part ++ slash :: join parts := by
  rw [join, List.intercalate_cons_of_ne_nil h]
  simp [join]

theorem segments_of_notMem (h : slash ∉ p) (hne : p ≠ []) : segments p = [p] := by
  have hone : [slash].intercalate [p] = p := by simp [List.intercalate]
  have hsplit : ([slash].intercalate [p]).splitOn slash = [p] :=
    List.splitOn_intercalate slash (by simpa using h) (by simp)
  rw [hone] at hsplit
  rw [segments, hsplit, List.filter_cons_of_pos (by simpa using hne), List.filter_nil]

/-- Parts that are joined are found again. -/
theorem segments_join (h : ∀ q ∈ parts, q ≠ [] ∧ slash ∉ q) : segments (join parts) = parts := by
  induction parts with
  | nil => rfl
  | cons part parts ih =>
    have hpart := h part List.mem_cons_self
    have hrest := ih fun q hq ↦ h q (List.mem_cons_of_mem _ hq)
    rcases eq_or_ne parts [] with rfl | hne
    · have hone : join [part] = part := by simp [join, List.intercalate]
      rw [hone, segments_of_notMem hpart.2 hpart.1]
    · rw [join_cons part hne, segments_append, hrest, segments_of_notMem hpart.2 hpart.1]
      rfl

/-- A slash stands only between two parts. -/
theorem getLast?_join (h : ∀ q ∈ parts, q ≠ [] ∧ slash ∉ q) :
    (join parts).getLast? ≠ some slash := by
  intro hlast
  rcases eq_or_ne parts [] with rfl | hne
  · cases hlast
  · have hsplit : (join parts).splitOn slash = parts :=
      List.splitOn_intercalate slash (fun q hq ↦ (h q hq).2) hne
    obtain ⟨init, hinit⟩ := List.getLast?_eq_some_iff.mp hlast
    rw [hinit, List.splitOn_append_cons_self] at hsplit
    exact (h [] (hsplit ▸ List.mem_append_right _ List.mem_cons_self)).1 rfl

/-- The parts of the shortest path with a net effect. -/
def route (x : Net JSString) : List JSString := List.replicate x.ups (js "..") ++ x.downs

theorem mem_route (hx : ∀ q ∈ x.downs, IsName q) (h : part ∈ route x) :
    part ≠ [] ∧ slash ∉ part := by
  rcases List.mem_append.mp h with h | h
  · rw [List.eq_of_mem_replicate h]
    decide
  · exact ⟨(hx part h).1, (hx part h).2.1⟩

theorem step_of_isName (h : IsName part) : step part = .down part := by
  rw [step, if_neg h.2.2.1, if_neg h.2.2.2]

/-- **The shortest path** does what it is made for. -/
theorem net_route (hx : ∀ q ∈ x.downs, IsName q) : net ((route x).map step) = x := by
  have hdowns : x.downs.map step = x.downs.map Step.down :=
    List.map_congr_left fun q hq ↦ step_of_isName (hx q hq)
  have hups : step (js "..") = .up := rfl
  rw [route, List.map_append, List.map_replicate, hups, hdowns, net_shortest]

theorem walk_route (hx : ∀ q ∈ x.downs, IsName q) : walk (join (route x)) = x := by
  rw [walk, segments_join fun q hq ↦ mem_route hx hq, net_route hx]

/-- It does not begin with a slash. -/
theorem isAbsolute_join (h : ∀ q ∈ parts, q ≠ [] ∧ slash ∉ q) :
    isAbsolute (join parts) = false := by
  rcases parts with _ | ⟨part, parts⟩
  · rfl
  · obtain ⟨hne, hs⟩ := h part List.mem_cons_self
    obtain ⟨u, rest, rfl⟩ := List.exists_cons_of_ne_nil hne
    have hu : u ≠ slash := fun heq ↦ hs (heq ▸ List.mem_cons_self)
    have hhead : (join ((u :: rest) :: parts)).head? = some u := by
      rcases eq_or_ne parts [] with rfl | hparts
      · simp [join, List.intercalate]
      · rw [join_cons _ hparts]
        rfl
    simpa [isAbsolute, hhead] using hu

/-! ## Directories -/

namespace Directory

def root : Directory := ⟨[], by simp⟩

/-- Where a path leads from a directory. -/
def goto (d : Directory) (p : JSString) : Directory where
  parts := (walk p).act (if isAbsolute p then [] else d.parts)
  named := by
    intro q hq
    rcases List.mem_append.mp hq with hq | hq
    · have hq := List.mem_of_mem_take hq
      split_ifs at hq
      · exact absurd hq List.not_mem_nil
      · exact d.named q hq
    · exact isName_of_mem_walk hq

variable (d : Directory)

theorem walk_path : walk d.path = ⟨0, d.parts⟩ := by
  have h := walk_route (x := ⟨0, d.parts⟩) d.named
  rw [path, walk_cons_slash]
  simpa [route] using h

theorem parts_goto (h : isAbsolute p = false) : (d.goto p).parts = (walk p).act d.parts := by
  show (walk p).act (if isAbsolute p then [] else d.parts) = _
  rw [if_neg (by simp [h])]

theorem parts_goto_of_isAbsolute (h : isAbsolute p = true) :
    (d.goto p).parts = (walk p).downs := by
  show (walk p).act (if isAbsolute p then [] else d.parts) = _
  rw [if_pos h, Net.act_nil]

theorem goto_nil : d.goto [] = d := by
  ext1
  rw [parts_goto d rfl, walk_nil, Net.act_one]

/-- The path of a directory leads there from everywhere. -/
theorem goto_path (e : Directory) : e.goto d.path = d := by
  ext1
  have habsolute : isAbsolute d.path = true := rfl
  rw [parts_goto_of_isAbsolute e habsolute, walk_path]

end Directory

open Directory

/-- Where the arguments of `resolve` lead, one after the other. -/
def follow (cwd : JSString) (paths : List JSString) : Directory :=
  paths.foldl goto (root.goto cwd)

theorem follow_concat (cwd : JSString) (paths : List JSString) (p : JSString) :
    follow cwd (paths ++ [p]) = (follow cwd paths).goto p := by
  rw [follow, List.foldl_append]
  rfl

/-- The loop collects the arguments from the last absolute one on. -/
theorem gather_eq {cwd : JSString} (h : isAbsolute cwd = true) (paths : List JSString)
    (resolvedPath : JSString) :
    ∃ path, gather (paths.reverse ++ [cwd]) resolvedPath = (path, true) ∧
      (walk path).downs = (walk resolvedPath).act (follow cwd paths).parts := by
  induction paths using List.reverseRecOn generalizing resolvedPath with
  | nil =>
    have hne : cwd ≠ [] := by
      rintro rfl
      cases h
    refine ⟨cwd ++ slash :: resolvedPath, ?_, ?_⟩
    · rw [List.reverse_nil, List.nil_append, gather, if_neg hne, if_pos h]
    · rw [walk_append, follow, List.foldl_nil, parts_goto_of_isAbsolute _ h, ← Net.act_nil,
        Net.act_mul, Net.act_nil]
  | append_singleton paths p ih =>
    rw [List.reverse_append, List.reverse_singleton, List.singleton_append, List.cons_append,
      gather, follow_concat]
    by_cases hnil : p = []
    · rw [if_pos hnil, hnil, goto_nil]
      exact ih resolvedPath
    · rw [if_neg hnil]
      by_cases hp : isAbsolute p = true
      · refine ⟨p ++ slash :: resolvedPath, if_pos hp, ?_⟩
        rw [walk_append, parts_goto_of_isAbsolute _ hp, ← Net.act_nil, Net.act_mul, Net.act_nil]
      · rw [if_neg hp, parts_goto _ (by simpa using hp), ← Net.act_mul, ← walk_append]
        exact ih _

/-- **`resolve` follows its arguments** one after the other. -/
theorem resolve_eq {cwd : JSString} (h : isAbsolute cwd = true) (paths : List JSString) :
    resolve cwd paths = (follow cwd paths).path := by
  obtain ⟨path, hgather, hwalk⟩ := gather_eq h paths []
  rw [walk_nil, Net.act_one] at hwalk
  have harray : normalizeArray (segments path) false = (follow cwd paths).parts := by
    rw [normalizeArray, normalizeParts_eq]
    exact hwalk
  rw [resolve, hgather]
  dsimp only
  rw [if_pos rfl, Bool.not_true, harray]
  rfl

/-! ## Canonical paths -/

/-- An absolute path without `'.'`, `'..'` and empty parts, and without a slash at its end unless it
is the root. -/
def Canonical (p : JSString) : Prop :=
  p.head? = some slash ∧
    (p = [slash] ∨ p.getLast? ≠ some slash ∧
      ∀ q ∈ (p.drop 1).splitOn slash, q ≠ [] ∧ q ≠ js "." ∧ q ≠ js "..")

theorem Directory.canonical (d : Directory) : Canonical d.path := by
  have hparts : ∀ q ∈ d.parts, q ≠ [] ∧ slash ∉ q := fun q hq ↦
    ⟨(d.named q hq).1, (d.named q hq).2.1⟩
  refine ⟨rfl, ?_⟩
  rcases eq_or_ne d.parts [] with hnil | hne
  · left
    rw [path, hnil]
    rfl
  · right
    have hsplit : (join d.parts).splitOn slash = d.parts :=
      List.splitOn_intercalate slash (fun q hq ↦ (hparts q hq).2) hne
    refine ⟨?_, fun q hq ↦ ?_⟩
    · have hlast := getLast?_join hparts
      rw [path, List.getLast?_cons]
      rcases hjoin : (join d.parts).getLast? with _ | u
      · rw [List.getLast?_eq_none_iff.mp hjoin] at hsplit
        exact absurd rfl (hparts [] (hsplit ▸ List.mem_cons_self)).1
      · rw [hjoin] at hlast
        exact hlast
    · rw [path, List.drop_one, List.tail_cons, hsplit] at hq
      exact ⟨(d.named q hq).1, (d.named q hq).2.2⟩

/-- The canonical paths are those of the directories. -/
theorem canonical_iff : Canonical p ↔ ∃ d : Directory, d.path = p := by
  constructor
  · rintro ⟨hhead, hp⟩
    obtain ⟨rest, rfl⟩ := List.head?_eq_some_iff.mp hhead
    rcases hp with hroot | ⟨-, hparts⟩
    · exact ⟨root, hroot.symm⟩
    · rw [List.drop_one, List.tail_cons] at hparts
      refine ⟨⟨rest.splitOn slash, fun q hq ↦ ?_⟩, ?_⟩
      · exact ⟨(hparts q hq).1, not_mem_of_mem_splitOn hq, (hparts q hq).2⟩
      · show slash :: [slash].intercalate (rest.splitOn slash) = _
        rw [List.intercalate_splitOn]
  · rintro ⟨d, rfl⟩
    exact d.canonical

/-- **`resolve` is canonical, and one argument more is resolved from there.** -/
theorem resolve_canonical_concat {cwd : JSString} (h : isAbsolute cwd = true)
    (paths : List JSString) :
    Canonical (resolve cwd paths) ∧
      ∀ p, resolve cwd (paths ++ [p]) = resolve cwd [resolve cwd paths, p] := by
  refine ⟨resolve_eq h paths ▸ Directory.canonical _, fun p ↦ ?_⟩
  have hfollow : follow cwd [(follow cwd paths).path] = follow cwd paths :=
    goto_path (follow cwd paths) (root.goto cwd)
  rw [resolve_eq h, resolve_eq h, resolve_eq h, follow_concat,
    show [(follow cwd paths).path, p] = [(follow cwd paths).path] ++ [p] from rfl, follow_concat,
    hfollow]

/-- Three arguments, of which one is empty and one goes up, and one more. -/
theorem resolve_canonical_concat_home :
    Canonical (resolve (js "/home") [js "a/../b", js "", js "./c/"]) ∧
      resolve (js "/home") [js "a/../b", js "", js "./c/", js ".."] =
        resolve (js "/home") [resolve (js "/home") [js "a/../b", js "", js "./c/"], js ".."] :=
  have hcwd : isAbsolute (js "/home") = true := by decide
  have h := resolve_canonical_concat hcwd [js "a/../b", js "", js "./c/"]
  ⟨h.1, h.2 (js "..")⟩

end SpiderNode.Files
