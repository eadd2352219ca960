import SpiderNode.Files.Normalize
import SpiderNode.Files.Realpath

/-!
# The parts that a scan finds

The expression for the next part of a path cannot read a line terminator. It skips to where it can
read, so of a name with terminators it finds what is behind the last of them: `clean`.

The names of a path are scanned one after the other. `At` relates the variables of a scan to the
names that have been scanned and to those that have not; `At.next` is one round.
-/

namespace SpiderNode.Files

open Regex Pattern

/-! ## One name -/

/-- The text has no line terminator. -/
def OneLine (n : JSString) : Prop := ∀ v ∈ n, notTerminator v = true

instance : DecidablePred OneLine := fun n ↦ inferInstanceAs (Decidable (∀ v ∈ n, _))

/-- A name from behind its last line terminator. -/
def clean : JSString → JSString
  | [] => []
  | u :: n => if OneLine (u :: n) then u :: n else clean n

variable {u : UInt16} {n part slashes rest : JSString}

theorem oneLine_nil : OneLine [] := fun _ hv ↦ absurd hv List.not_mem_nil

theorem oneLine_cons_iff : OneLine (u :: n) ↔ notTerminator u = true ∧ OneLine n :=
  List.forall_mem_cons

theorem OneLine.clean_eq (h : OneLine n) : clean n = n := by
  rcases n with _ | ⟨u, n⟩
  · rfl
  · exact if_pos h

theorem oneLine_clean (n : JSString) : OneLine (clean n) := by
  induction n with
  | nil => exact oneLine_nil
  | cons u n ih =>
    rw [clean]
    split_ifs with h
    · exact h
    · exact ih

theorem clean_clean (n : JSString) : clean (clean n) = clean n :=
  (oneLine_clean n).clean_eq

theorem clean_suffix (n : JSString) : clean n <:+ n := by
  induction n with
  | nil => exact List.suffix_rfl
  | cons u n ih =>
    rw [clean]
    split_ifs
    · exact List.suffix_rfl
    · exact ih.trans (List.suffix_cons u n)

theorem slash_not_mem_clean (h : slash ∉ n) : slash ∉ clean n :=
  fun hmem ↦ h ((clean_suffix n).subset hmem)

/-! ## The expression -/

/-- What is behind the part. -/
def behindRe (part : JSString) : Pattern UInt16 (JSString × JSString × JSString) := do
  let slashes ← orElse (plus (· = slash)) (atEnd >>= fun _ ↦ pure [])
  let rest ← here
  return (part, slashes, rest)

theorem notTerminator_slash : notTerminator slash = true := by decide

theorem exec_behindRe (part s : JSString) :
    exec (behindRe part) s =
      (orElse (plus (· = slash)) (atEnd >>= fun _ ↦ pure []) s).findSome? fun r ↦
        some (part, r.1, r.2) := by
  rw [behindRe, exec_bind]
  rfl

theorem exec_behindRe_nil (part : JSString) : exec (behindRe part) [] = some (part, [], []) := rfl

theorem exec_behindRe_slash (part : JSString) (hrest : rest.head? ≠ some slash) :
    exec (behindRe part) (slash :: rest) = some (part, [slash], rest) := by
  have hstar : star (· = slash) rest = [([], rest)] :=
    star_of_head fun u hu ↦ decide_eq_false fun heq ↦ hrest (heq ▸ hu)
  have hplus : plus (· = slash) (slash :: rest) = [([slash], rest)] := by
    rw [plus_cons, hstar]
    rfl
  rw [exec_behindRe, orElse, hplus]
  rfl

theorem exec_behindRe_of_ne (hu : u ≠ slash) (part s : JSString) :
    exec (behindRe part) (u :: s) = none := by
  have hplus : plus (· = slash) (u :: s) = [] := by
    rw [plus_cons, if_neg (by simpa using hu)]
  rw [exec_behindRe, orElse, hplus]
  rfl

/-- What follows a name: the end of the path, or a slash and another name. -/
def Follows (slashes rest : JSString) : Prop :=
  slashes = [] ∧ rest = [] ∨ slashes = [slash] ∧ rest.head? ≠ some slash

theorem exec_behindRe_of_follows (h : Follows slashes rest) (part : JSString) :
    exec (behindRe part) (slashes ++ rest) = some (part, slashes, rest) := by
  rcases h with ⟨rfl, rfl⟩ | ⟨rfl, hrest⟩
  · exact exec_behindRe_nil part
  · exact exec_behindRe_slash part hrest

/-- From its beginning, a name is read if there is no terminator in it. -/
theorem exec_name (h : Follows slashes rest) (hn : slash ∉ n) (before : JSString) :
    exec (starLazy notTerminator >>= fun part ↦ behindRe (before ++ part))
        (n ++ (slashes ++ rest)) =
      if OneLine n then some (before ++ n, slashes, rest) else none := by
  induction n generalizing before with
  | nil =>
    have hread := exec_behindRe_of_follows h (before ++ [])
    rw [if_pos oneLine_nil]
    rcases h with ⟨rfl, rfl⟩ | ⟨rfl, hrest⟩
    · rw [exec_bind]
      exact (List.findSome?_singleton ..).trans hread
    · rw [List.nil_append, List.singleton_append, exec_starLazy_bind_cons]
      rw [List.singleton_append] at hread
      rw [hread]
      rfl
  | cons u n ih =>
    obtain ⟨hu, hn⟩ : slash ≠ u ∧ slash ∉ n := by simpa using hn
    rw [List.cons_append, exec_starLazy_bind_cons, exec_behindRe_of_ne hu.symm, Option.none_or]
    have hrest := ih hn (before ++ [u])
    simp only [List.append_assoc, List.singleton_append] at hrest
    rw [hrest]
    by_cases hu' : notTerminator u = true
    · rw [if_pos hu']
      by_cases hall : OneLine n
      · rw [if_pos hall, if_pos (oneLine_cons_iff.mpr ⟨hu', hall⟩)]
      · rw [if_neg hall, if_neg fun h ↦ hall (oneLine_cons_iff.mp h).2]
    · rw [if_neg hu', if_neg fun h ↦ hu' (oneLine_cons_iff.mp h).1]

/-- **The search** finds what is behind the last terminator of a name. -/
theorem search_nextPartRe (h : Follows slashes rest) (hn : slash ∉ n) :
    nextPartRe.search (n ++ (slashes ++ rest)) = some (clean n, slashes, rest) := by
  induction n with
  | nil =>
    have hread := exec_name h hn []
    rw [if_pos oneLine_nil] at hread
    exact search_of_exec hread
  | cons u n ih =>
    have hread := exec_name h hn []
    rw [clean]
    split_ifs with hall
    · rw [if_pos hall] at hread
      exact search_of_exec hread
    · rw [if_neg hall] at hread
      have hskip : nextPartRe.search (u :: (n ++ (slashes ++ rest))) =
          nextPartRe.search (n ++ (slashes ++ rest)) := search_cons_of_exec_eq_none hread
      rw [List.cons_append, hskip]
      exact ih fun hmem ↦ hn (List.mem_cons_of_mem u hmem)

/-! ## Paths of names -/

/-- The absolute path of some names. -/
def pathOf (names : List JSString) : JSString := slash :: join names

/-- Each name with a slash in front of it. -/
def text (names : List JSString) : JSString := names.flatMap (slash :: ·)

/-- What stands between a name and the names behind it. -/
def slashesFor (names : List JSString) : JSString := if names = [] then [] else [slash]

variable {pre todo ns names : List JSString}

theorem text_nil : text [] = [] := rfl

theorem text_cons : text (n :: ns) = slash :: (n ++ text ns) := rfl

theorem text_append (names ns : List JSString) : text (names ++ ns) = text names ++ text ns :=
  List.flatMap_append

theorem text_eq (names : List JSString) : text names = slashesFor names ++ join names := by
  induction names with
  | nil => rfl
  | cons n ns ih =>
    rcases eq_or_ne ns [] with rfl | hne
    · simp [text, slashesFor, join, List.intercalate]
    · rw [text_cons, ih, slashesFor, if_neg hne, slashesFor, if_neg (List.cons_ne_nil n ns),
        join_cons n hne]
      rfl

theorem pathOf_eq_text (h : names ≠ []) : pathOf names = text names := by
  rw [text_eq, slashesFor, if_neg h]
  rfl

theorem join_cons_eq (n : JSString) (ns : List JSString) :
    join (n :: ns) = n ++ (slashesFor ns ++ join ns) := by
  rw [← text_eq]
  have h := text_eq (n :: ns)
  rw [text_cons, slashesFor, if_neg (List.cons_ne_nil n ns)] at h
  exact (List.cons.inj h).2.symm

theorem head?_join (h : ∀ q ∈ names, IsName q) : (join names).head? ≠ some slash := by
  have habs := isAbsolute_join fun q hq ↦ ⟨(h q hq).1, (h q hq).2.1⟩
  simpa [isAbsolute] using habs

theorem follows_join (h : ∀ q ∈ names, IsName q) : Follows (slashesFor names) (join names) := by
  rcases eq_or_ne names [] with rfl | hne
  · exact .inl ⟨rfl, rfl⟩
  · exact .inr ⟨if_neg hne, head?_join h⟩

/-- What has been scanned is in front of the other names. -/
theorem exists_pathOf_append (pre todo : List JSString) :
    ∃ front, pathOf (pre ++ todo) = front ++ join todo := by
  induction pre with
  | nil => exact ⟨[slash], rfl⟩
  | cons n pre ih =>
    obtain ⟨front, hfront⟩ := ih
    rcases eq_or_ne (pre ++ todo) [] with hnil | hne
    · obtain ⟨rfl, rfl⟩ := List.append_eq_nil_iff.mp hnil
      exact ⟨pathOf [n], by simp [join, List.intercalate]⟩
    · rw [pathOf] at hfront
      refine ⟨slash :: (n ++ front), ?_⟩
      rw [List.cons_append, pathOf, join_cons n hne, hfront]
      simp

theorem segments_pathOf (h : ∀ q ∈ names, IsName q) : segments (pathOf names) = names := by
  have hslash := segments_append [] (join names)
  rw [List.nil_append, segments_join fun q hq ↦ ⟨(h q hq).1, (h q hq).2.1⟩] at hslash
  exact hslash

/-- Names are resolved from a path by putting them behind it. -/
theorem resolve_pathOf {cwd : JSString} (hcwd : isAbsolute cwd = true)
    (hnames : ∀ q ∈ names, IsName q) (hns : ∀ q ∈ ns, IsName q) :
    resolve cwd [pathOf names, join ns] = pathOf (names ++ ns) := by
  have hwalk : walk (join ns) = ⟨0, ns⟩ := walk_route (x := ⟨0, ns⟩) hns
  have habs : isAbsolute (join ns) = false :=
    isAbsolute_join fun q hq ↦ ⟨(hns q hq).1, (hns q hq).2.1⟩
  have hgoto := Directory.goto_path ⟨names, hnames⟩ (Directory.root.goto cwd)
  have hfollow : follow cwd [pathOf names, join ns] =
      ((Directory.root.goto cwd).goto (Directory.path ⟨names, hnames⟩)).goto (join ns) := rfl
  have hparts := Directory.parts_goto ⟨names, hnames⟩ habs
  rw [resolve_eq hcwd, hfollow, hgoto, Directory.path, hparts, hwalk, Trees.Net.act, Nat.sub_zero,
    List.take_length]
  rfl

/-! ## A round of the scan -/

/-- `previous`, when names have been scanned. -/
def previousOf (pre : List JSString) : JSString := text (pre.map clean) ++ [slash]

/-- `base`, when one more has been found. -/
def baseOf (pre : List JSString) (n : JSString) : JSString := previousOf pre ++ clean n

theorem baseOf_eq (pre : List JSString) (n : JSString) :
    baseOf pre n = text ((pre ++ [n]).map clean) := by
  rw [baseOf, previousOf, List.map_append, text_append, List.append_assoc, List.map_singleton,
    text_cons, text_nil, List.append_nil]
  rfl

theorem previousOf_concat (pre : List JSString) (n : JSString) :
    previousOf (pre ++ [n]) = baseOf pre n ++ [slash] := by
  rw [previousOf, baseOf_eq]

/-- The names `pre` have been scanned, and `todo` are left. -/
structure At (s : Scan) (pre todo : List JSString) : Prop where
  named : ∀ q ∈ pre ++ todo, IsName q
  p : s.p = pathOf (pre ++ todo)
  pos : s.pos = s.p.length - (join todo).length
  current : todo ≠ [] → s.current = previousOf pre

namespace At

variable {s : Scan}

theorem drop_eq (h : At s pre todo) : s.p.drop s.pos = join todo := by
  obtain ⟨front, hfront⟩ := exists_pathOf_append pre todo
  rw [h.pos, h.p, hfront, List.length_append, Nat.add_sub_cancel, List.drop_left]

theorem named_todo (h : At s pre todo) : ∀ q ∈ todo, IsName q :=
  fun q hq ↦ h.named q (List.mem_append_right pre hq)

/-- The loop ends when no name is left. -/
theorem length_le_pos_iff (h : At s pre todo) : s.p.length ≤ s.pos ↔ todo = [] := by
  obtain ⟨front, hfront⟩ := exists_pathOf_append pre todo
  have hlength : s.p.length = front.length + (join todo).length := by
    rw [h.p, hfront, List.length_append]
  have hnil : join todo = [] ↔ todo = [] := Posix.join_eq_nil_iff fun q hq ↦
    ⟨(h.named_todo q hq).1, (h.named_todo q hq).2.1⟩
  rw [h.pos, hlength, ← hnil, ← List.length_eq_zero_iff]
  omega

theorem next_eq (h : At s pre (n :: ns)) :
    s.next =
      { s with
        previous := previousOf pre
        current := baseOf pre n ++ slashesFor ns
        base := baseOf pre n
        pos := s.p.length - (join ns).length } := by
  have hcurrent := h.current (List.cons_ne_nil n ns)
  have hns : ∀ q ∈ ns, IsName q := fun q hq ↦ h.named_todo q (List.mem_cons_of_mem n hq)
  have hn : slash ∉ n := (h.named_todo n List.mem_cons_self).2.1
  rw [Scan.next, h.drop_eq, join_cons_eq, search_nextPartRe (follows_join hns) hn, hcurrent]
  simp only [baseOf, List.append_assoc]

/-- **One round.** -/
theorem next (h : At s pre (n :: ns)) : At s.next (pre ++ [n]) ns := by
  have hnames : pre ++ [n] ++ ns = pre ++ n :: ns := by simp
  rw [h.next_eq]
  refine ⟨hnames ▸ h.named, hnames ▸ h.p, rfl, fun hne ↦ ?_⟩
  rw [previousOf_concat, slashesFor, if_neg hne]

end At

/-- The scan begins. -/
structure Starts (s : Scan) (names : List JSString) : Prop where
  named : ∀ q ∈ names, IsName q
  p : s.p = pathOf names
  pos : s.pos = 0
  current : s.current = []

namespace Starts

variable {s : Scan}

theorem next_eq (h : Starts s names) :
    s.next =
      { s with
        previous := []
        current := [slash]
        base := []
        pos := s.p.length - (join names).length } := by
  have hfollows : Follows [slash] (join names) := .inr ⟨rfl, head?_join h.named⟩
  have hsearch := search_nextPartRe hfollows (n := []) List.not_mem_nil
  have hp : s.p.drop s.pos = [] ++ ([slash] ++ join names) := by
    rw [h.pos, h.p]
    rfl
  rw [Scan.next, hp, hsearch, h.current]
  rfl

/-- The first round finds the slash of the root. -/
theorem next (h : Starts s names) : At s.next [] names := by
  rw [h.next_eq]
  exact ⟨h.named, h.p, rfl, fun _ ↦ rfl⟩

theorem not_length_le_pos (h : Starts s names) : ¬s.p.length ≤ s.pos := by
  rw [h.p, h.pos]
  exact Nat.not_succ_le_zero _

end Starts

end SpiderNode.Files
