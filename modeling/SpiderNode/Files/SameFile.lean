import SpiderNode.Files.FileSystem
import SpiderNode.Files.RealpathCache

/-!
# The real path of a file

Without a cache, `realpathSync` and `realpath` return a path without links, and it is that of the
file that their path leads to (`realpath_sameFile`). This is so if no link is met twice on the way,
and if `resolve` and the scan lose nothing of the path and of the targets.

When `realpathSync` meets a link again, it goes on with what the link before has been resolved to.
-/

namespace SpiderNode.Files

open Trees

variable {ε : Type} {os : Calls ε} {fs : FileSystem} {p : JSString} {w names r : List JSString}
  {met : List (List JSString × Link)}

/-! ## Paths of names -/

theorem endsInSlash_pathOf (h : ∀ q ∈ names, IsName q) :
    Posix.endsInSlash (pathOf names) = decide (names = []) := by
  have hparts : ∀ q ∈ names, q ≠ [] ∧ slash ∉ q := fun q hq ↦ ⟨(h q hq).1, (h q hq).2.1⟩
  rcases eq_or_ne names [] with rfl | hne
  · rfl
  · have hjoin : join names ≠ [] := fun hnil ↦ hne ((Posix.join_eq_nil_iff hparts).mp hnil)
    have hlast : (pathOf names).getLast? = (join names).getLast? := by
      rw [pathOf, List.getLast?_cons_of_ne_nil hjoin]
    rw [Posix.endsInSlash, hlast, decide_eq_false (getLast?_join hparts), decide_eq_false hne]

theorem stepsOf_pathOf (h : ∀ q ∈ names, IsName q) :
    stepsOf (pathOf names) = names.map .down ++ if names = [] then [.stay] else [] := by
  have hmap : names.map step = names.map .down :=
    List.map_congr_left fun q hq ↦ step_of_isName (h q hq)
  rw [stepsOf, segments_pathOf h, hmap, endsInSlash_pathOf h]
  simp only [decide_eq_true_eq]

theorem parts_follow_pathOf (h : ∀ q ∈ w, IsName q) (p : JSString) :
    (follow (pathOf w) [p]).parts = (walk p).act ((targetOf p).start w) := by
  have hgoto := Directory.goto_path ⟨w, h⟩ Directory.root
  show ((Directory.root.goto (pathOf w)).goto p).parts = _
  rw [show pathOf w = Directory.path ⟨w, h⟩ from rfl, hgoto]
  rfl

/-- The path of a file leads there, and no link is met. -/
theorem leadsTo_pathOf (h : IsPlace fs.tree r) (d : List JSString) :
    fs.LeadsTo d (pathOf r) [] r := by
  rw [FileSystem.LeadsTo, stepsOf_pathOf (named_of_isPlace h)]
  show Resolves fs.tree [] _ [] r
  split_ifs with hnil
  · rw [hnil]
    exact .stay fs.root (.done _)
  · rw [List.append_nil]
    exact .of_isPlace h

/-- **The real path** is that of the same file, and has no links. -/
theorem realpath_sameFile (hos : Serves os fs) (hw : fs.node w = some .inner)
    (h : fs.LeadsTo w p met r) (hp : Smooth fs w p) (hmet : ∀ m ∈ met, Smooth fs m.1 m.2.target)
    (hnodup : (met.map (·.2.id)).Nodup) :
    (∃ k, realpathSync os (pathOf w) k p none = some (.ok (pathOf r), none)) ∧
      (∃ k, realpath os (pathOf w) k p none = some (.ok (pathOf r))) ∧
      ∀ d, fs.LeadsTo d (pathOf r) [] r := by
  have hplace : IsPlace fs.tree w := isPlace_of_inner hw
  have hcwd : isAbsolute (pathOf w) = true := rfl
  have hroot : IsHard os [slash] := hos.lstat_place [] (isPlace_of_inner fs.root)
  have hdowns : Resolves fs.tree [] (((walk p).act ((targetOf p).start w)).map .down) met r := by
    have hsteps : Resolves fs.tree ((targetOf p).start w)
        (stepsOf p ++ ([] : List JSString).map .down) met r := by
      rw [List.map_nil, List.append_nil]
      exact h
    have hfrom := hsteps.from_root (isPlace_start hplace _) hp.plain
    rwa [List.append_nil, net_stepsOf] at hfrom
  have hrun : Run os (pathOf w) [] (follow (pathOf w) [p]).parts (met.map (·.2.id)) (.ok r) := by
    rw [parts_follow_pathOf (named_of_isPlace hplace)]
    exact run_of_resolves hos hdowns (isPlace_of_inner fs.root) hp.oneLine hmet
  exact ⟨exists_realpathSync_none hcwd hroot hrun hnodup,
    exists_realpath hcwd hos.oneTarget hrun,
    leadsTo_pathOf (h.isPlace (isPlace_start hplace _))⟩

/-! ## Files in a list -/

abbrev Entries := List (List JSString × Node Link)

def nodeOf (entries : Entries) (d : List JSString) : Option (Node Link) :=
  if d = [] then some .inner else (entries.find? (·.1 = d)).map Prod.snd

/-- Each entry has a name, and is in a directory. -/
def WellListed (entries : Entries) : Prop :=
  ∀ e ∈ entries, nodeOf entries e.1.dropLast = some .inner ∧ ∀ q ∈ e.1, IsName q

instance (entries : Entries) : Decidable (WellListed entries) :=
  inferInstanceAs (Decidable (∀ e ∈ entries, _ ∧ _))

theorem mem_of_nodeOf {entries : Entries} {d : List JSString} {x : Node Link}
    (h : nodeOf entries d = some x) : d = [] ∧ x = .inner ∨ (d, x) ∈ entries := by
  rw [nodeOf] at h
  split_ifs at h with hnil
  · exact .inl ⟨hnil, (Option.some.inj h).symm⟩
  · obtain ⟨e, hfind, rfl⟩ := Option.map_eq_some_iff.mp h
    obtain rfl : e.1 = d := by simpa using List.find?_some hfind
    exact .inr (List.mem_of_find?_eq_some hfind)

theorem mem_of_nodeOf_concat {entries : Entries} {d : List JSString} {n : JSString}
    (h : nodeOf entries (d ++ [n]) ≠ none) : ∃ x, (d ++ [n], x) ∈ entries := by
  obtain ⟨x, hx⟩ := Option.ne_none_iff_exists'.mp h
  rcases mem_of_nodeOf hx with ⟨hnil, -⟩ | hmem
  · exact absurd hnil (by simp)
  · exact ⟨x, hmem⟩

def FileSystem.ofList (entries : Entries) (h : WellListed entries) : FileSystem where
  node := nodeOf entries
  root := rfl
  parent d n hne := by
    obtain ⟨x, hmem⟩ := mem_of_nodeOf_concat hne
    have hparent := (h _ hmem).1
    rwa [List.dropLast_concat] at hparent
  named d n hne := by
    obtain ⟨x, hmem⟩ := mem_of_nodeOf_concat hne
    exact (h _ hmem).2 n (List.mem_append_right d List.mem_cons_self)

/-- The links with their paths. -/
def linksOf (entries : Entries) : List (JSString × FileId × JSString) :=
  entries.filterMap fun e ↦ match e.2 with
    | .link l => some (pathOf e.1, l.id, l.target)
    | _ => none

/-- What the system calls say about an entry. -/
def Tells (os : Calls Unit) : List JSString × Node Link → Prop
  | (d, .link l) => os.lstat (pathOf d) = .ok ⟨true, l.id⟩ ∧ os.readlink (pathOf d) = .ok l.target
  | (d, _) => os.lstat (pathOf d) = .ok ⟨false, (0, 0)⟩

instance (os : Calls Unit) (e : List JSString × Node Link) : Decidable (Tells os e) :=
  match e with
  | (_, .link _) => inferInstanceAs (Decidable (_ ∧ _))
  | (_, .inner) => inferInstanceAs (Decidable (_ = _))
  | (_, .leaf) => inferInstanceAs (Decidable (_ = _))

theorem mem_of_linked {links : List (JSString × FileId × JSString)} {key target : JSString}
    {stat : LinkStat} (hlstat : (linked links).lstat key = .ok stat)
    (hlink : stat.isSymbolicLink = true) (hread : (linked links).readlink key = .ok target) :
    (key, stat.id, target) ∈ links := by
  rcases hfind : links.find? (·.1 = key) with _ | l
  · have hstat : ⟨false, (0, 0)⟩ = stat := by simpa [linked, hfind] using hlstat
    rw [← hstat] at hlink
    cases hlink
  · have hstat : ⟨true, l.2.1⟩ = stat := by simpa [linked, hfind] using hlstat
    have htarget : l.2.2 = target := by simpa [linked, hfind] using hread
    have hkey : l.1 = key := by simpa using List.find?_some hfind
    rw [← hstat, ← htarget, ← hkey]
    exact List.mem_of_find?_eq_some hfind

theorem oneTarget_linked {links : List (JSString × FileId × JSString)}
    (h : ∀ l ∈ links, ∀ l' ∈ links, l.2.1 = l'.2.1 → l.2.2 = l'.2.2) :
    OneTarget (linked links) := by
  intro key key' stat stat' target target' hlstat hlstat' hlink hlink' hid hread hread'
  exact h _ (mem_of_linked hlstat hlink hread) _ (mem_of_linked hlstat' hlink' hread') hid

theorem serves_ofList {entries : Entries} (h : WellListed entries)
    (htells : ∀ e ∈ entries, Tells (linked (linksOf entries)) e)
    (hroot : Tells (linked (linksOf entries)) ([], .inner))
    (hone : ∀ l ∈ linksOf entries, ∀ l' ∈ linksOf entries, l.2.1 = l'.2.1 → l.2.2 = l'.2.2) :
    Serves (linked (linksOf entries)) (.ofList entries h) where
  lstat_place d hd := by
    obtain ⟨x, hnode, hx⟩ := hd
    refine ⟨⟨false, (0, 0)⟩, ?_, rfl⟩
    rcases mem_of_nodeOf hnode with ⟨rfl, -⟩ | hmem
    · exact hroot
    · have htell := htells _ hmem
      cases x with
      | inner => exact htell
      | leaf => exact htell
      | link l => exact absurd rfl (hx l)
  lstat_link d n l hnode := by
    rcases mem_of_nodeOf hnode with ⟨hnil, -⟩ | hmem
    · exact absurd hnil (by simp)
    · exact (htells _ hmem).1
  stat _ _ _ _ := rfl
  readlink d n l hnode := by
    rcases mem_of_nodeOf hnode with ⟨hnil, -⟩ | hmem
    · exact absurd hnil (by simp)
    · exact (htells _ hmem).2
  oneTarget := oneTarget_linked hone

/-! ## A link to a directory -/

def homeEntries : Entries :=
  [([js "d"], .inner), ([js "d", js "f"], .leaf), ([js "l"], .link ⟨(0, 1), js "d"⟩)]

def home : FileSystem := .ofList homeEntries (by decide)

def homeCalls : Calls Unit := linked (linksOf homeEntries)

theorem serves_home : Serves homeCalls home := serves_ofList _ (by decide) rfl (by decide)

theorem realpath_sameFile_home :
    (∃ k, realpathSync homeCalls (js "/d") k (js "../l/f") none = some (.ok (js "/d/f"), none)) ∧
      (∃ k, realpath homeCalls (js "/d") k (js "../l/f") none = some (.ok (js "/d/f"))) ∧
      ∀ d, home.LeadsTo d (js "/d/f") [] [js "d", js "f"] := by
  have hl : home.node [js "l"] = some (.link ⟨(0, 1), js "d"⟩) := rfl
  have hd : home.node [js "d"] = some .inner := rfl
  have hf : home.node [js "d", js "f"] = some .leaf := rfl
  have hleads : home.LeadsTo [js "d"] (js "../l/f") [([], ⟨(0, 1), js "d"⟩)] [js "d", js "f"] :=
    .up hd (.link hl (.down hd (fun _ h ↦ by cases h) (.down hf (fun _ h ↦ by cases h) (.done _))))
  have hp : Smooth home [js "d"] (js "../l/f") :=
    ⟨plain_shortest ⟨1, [js "l", js "f"]⟩, by decide⟩
  have htarget : Smooth home [] (js "d") := ⟨plain_shortest ⟨0, [js "d"]⟩, by decide⟩
  exact realpath_sameFile serves_home hd hleads hp
    (fun m hm ↦ List.mem_singleton.mp hm ▸ htarget) (by decide)

/-! ## A link that is met twice -/

def twiceEntries : Entries :=
  [([js "d"], .inner), ([js "d", js "e"], .inner), ([js "d", js "f"], .leaf),
    ([js "d", js "e", js "f"], .leaf), ([js "d", js "n"], .link ⟨(0, 1), js "e"⟩),
    ([js "d", js "e", js "q"], .link ⟨(0, 2), js "/d"⟩)]

def twice : FileSystem := .ofList twiceEntries (by decide)

def twiceCalls : Calls Unit := linked (linksOf twiceEntries)

theorem serves_twice : Serves twiceCalls twice := serves_ofList _ (by decide) rfl (by decide)

theorem leadsTo_twice :
    twice.LeadsTo [] (js "/d/n/q/n/f")
      [([js "d"], ⟨(0, 1), js "e"⟩), ([js "d", js "e"], ⟨(0, 2), js "/d"⟩),
        ([js "d"], ⟨(0, 1), js "e"⟩)] [js "d", js "e", js "f"] := by
  have hd : twice.node [js "d"] = some .inner := rfl
  have he : twice.node [js "d", js "e"] = some .inner := rfl
  have hf : twice.node [js "d", js "e", js "f"] = some .leaf := rfl
  have hn : twice.node [js "d", js "n"] = some (.link ⟨(0, 1), js "e"⟩) := rfl
  have hq : twice.node [js "d", js "e", js "q"] = some (.link ⟨(0, 2), js "/d"⟩) := rfl
  have hlast : Resolves twice.tree [js "d", js "e"] [.down (js "f")] [] [js "d", js "e", js "f"] :=
    .down hf (fun _ h ↦ by cases h) (.done _)
  have hagain : Resolves twice.tree [js "d"] [.down (js "n"), .down (js "f")]
      [([js "d"], ⟨(0, 1), js "e"⟩)] [js "d", js "e", js "f"] :=
    .link hn (.down he (fun _ h ↦ by cases h) hlast)
  exact .down hd (fun _ h ↦ by cases h) (.link hn (.down he (fun _ h ↦ by cases h)
    (.link hq (.down hd (fun _ h ↦ by cases h) hagain))))

/-- The file is another one. -/
theorem not_sameFile_twice :
    Serves twiceCalls twice ∧
      (∃ met, twice.LeadsTo [] (js "/d/n/q/n/f") met [js "d", js "e", js "f"]) ∧
      (∃ k, realpath twiceCalls (js "/") k (js "/d/n/q/n/f") none = some (.ok (js "/d/e/f"))) ∧
      ¬∃ k, realpathSync twiceCalls (js "/") k (js "/d/n/q/n/f") none =
        some (.ok (js "/d/e/f"), none) := by
  refine ⟨serves_twice, ⟨_, leadsTo_twice⟩, ⟨40, ?_⟩, ?_⟩
  · have h : realpath twiceCalls (js "/") 40 (js "/d/n/q/n/f") none = some (.ok (js "/d/e/f")) := by
      decide +kernel
    exact h
  · rintro ⟨k, hcall⟩
    have h : (realpathSync twiceCalls (js "/") 40 (js "/d/n/q/n/f") none).map Prod.fst =
        some (.ok (js "/d/f")) := by decide +kernel
    obtain ⟨x, hx, hfst⟩ := Option.map_eq_some_iff.mp h
    rw [realpathSync_unique hx hcall] at hfst
    have heq : js "/d/e/f" = js "/d/f" := Except.ok.inj hfst
    exact absurd heq (by decide)

end SpiderNode.Files
