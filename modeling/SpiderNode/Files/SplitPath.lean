import SpiderNode.Files.Resolved
import SpiderNode.Net.Socket
import SpiderNode.Regex.Backtracking

/-!
# Directory, name and extension

`dirname`, `basename` and `extname` of `lib/path.js`, for POSIX, all read their result from one
regular expression. Its `.` stands for every character but a line terminator, while the class
`[^.]` of the extension has those too. So a path with a line terminator is split as it should be
only if the terminator belongs to an extension; otherwise the expression does not match and the call
throws, or it takes a dot in the name of a directory for the beginning of the extension. For all
other paths `dirname_eq_ok` says where they are cut.
-/

namespace SpiderNode.Files

open Net (JsError)
open Regex Pattern

/-- `\n`, `\r`, and the separators of lines and of paragraphs. -/
def isLineTerminator (u : UInt16) : Bool := u = 0x0A ∨ u = 0x0D ∨ u = 0x2028 ∨ u = 0x2029

/-- `.` -/
def notTerminator (u : UInt16) : Bool := !isLineTerminator u

def dot : UInt16 := 0x2E

namespace Posix

/-- `.+\/(?!$)` -/
def longDirRe : Pattern UInt16 JSString := do
  let text ← plus notTerminator
  let u ← one (· = slash)
  notAtEnd
  return text ++ [u]

/-- `\/` -/
def rootRe : Pattern UInt16 JSString := do
  let u ← one (· = slash)
  return [u]

/-- `(.+\/(?!$)|\/)` -/
def dirRe : Pattern UInt16 JSString := orElse longDirRe rootRe

/-- `(\.[^.]*)` -/
def extRe : Pattern UInt16 JSString := do
  let u ← one (· = dot)
  let text ← star (· ≠ dot)
  return u :: text

/-- `((?:.+?)?(\.[^.]*)?)$`, with both groups. -/
def nameRe : Pattern UInt16 (JSString × Option JSString) := do
  let name ← opt (plusLazy notTerminator)
  let ext ← opt extRe
  atEnd
  return (name.getD [] ++ ext.getD [], ext)

/-- `splitPathRe`: the groups `dir`, `basename` and `ext`. -/
def splitPathRe : Pattern UInt16 (Option JSString × JSString × Option JSString) := do
  let dir ← opt dirRe
  let name ← nameRe
  return (dir, name)

/-- `splitPathRe.exec(path)`, of which a group is read. -/
def splitPath (p : JSString) : Except JsError (Option JSString × JSString × Option JSString) :=
  match exec splitPathRe p with
  | some groups => .ok groups
  | none => .error .typeError

/-- `path.dirname` -/
def dirname (p : JSString) : Except JsError JSString := do
  let (dir, _, _) ← splitPath p
  let dir := dir.getD []
  return if dir = [] then js "." else if dir.length = 1 then dir else dir.take (dir.length - 1)

/-- `path.basename` -/
def basename (p : JSString) (ext : Option JSString) : Except JsError JSString := do
  let (_, f, _) ← splitPath p
  let ext := ext.getD []
  return if ext ≠ [] ∧ f.drop (f.length - ext.length) = ext then f.take (f.length - ext.length)
    else f

/-- `path.extname` -/
def extname (p : JSString) : Except JsError JSString := do
  let (_, _, ext) ← splitPath p
  return ext.getD []

example : dirname (js "/a/b.tar.gz") = .ok (js "/a") ∧
    basename (js "/a/b.tar.gz") (some (js ".gz")) = .ok (js "b.tar") ∧
    extname (js "/a/b.tar.gz") = .ok (js ".gz") := by decide

variable {p r s dir base : JSString} {ext : Option JSString}

/-! ## The ways to read a path -/

/-- The text has no line terminator, except behind its last dot. -/
def Readable (s : JSString) : Prop :=
  ∃ a b, s = a ++ b ∧ (∀ u ∈ a, notTerminator u = true) ∧
    (b = [] ∨ ∃ c, b = dot :: c ∧ dot ∉ c)

theorem mem_extRe : (s, r) ∈ extRe p ↔ ∃ c, s = dot :: c ∧ dot ∉ c ∧ p = s ++ r := by
  rw [extRe, mem_bind]
  constructor
  · rintro ⟨u, p', hone, hrest⟩
    obtain ⟨c, r', hstar, hpure⟩ := mem_bind.mp hrest
    obtain ⟨rfl, rfl⟩ := mem_pure.mp hpure
    obtain ⟨rfl, hu⟩ := mem_one.mp hone
    obtain ⟨rfl, hc⟩ := mem_star.mp hstar
    obtain rfl : u = dot := by simpa using hu
    exact ⟨c, rfl, fun hmem ↦ by simpa using hc dot hmem, rfl⟩
  · rintro ⟨c, rfl, hc, rfl⟩
    refine ⟨dot, c ++ r, mem_one.mpr ⟨rfl, by simp⟩,
      mem_bind.mpr ⟨c, r, ?_, mem_pure.mpr ⟨rfl, rfl⟩⟩⟩
    refine mem_star.mpr ⟨rfl, fun u hu ↦ ?_⟩
    simpa using fun h : u = dot ↦ hc (h ▸ hu)

theorem mem_nameRe :
    ((base, ext), r) ∈ nameRe s ↔
      r = [] ∧ base = s ∧ ∃ name, s = name ++ ext.getD [] ∧ (∀ u ∈ name, notTerminator u = true) ∧
        (ext = none ∨ ∃ c, ext = some (dot :: c) ∧ dot ∉ c) := by
  rw [nameRe, mem_bind]
  constructor
  · rintro ⟨name, s₁, hname, hrest⟩
    obtain ⟨ext', s₂, hopt, hrest⟩ := mem_bind.mp hrest
    obtain ⟨u, s₃, hend, hpure⟩ := mem_bind.mp hrest
    obtain ⟨hgroups, rfl⟩ := mem_pure.mp hpure
    obtain ⟨rfl, rfl⟩ := Prod.mk.inj hgroups
    obtain ⟨rfl, rfl⟩ := mem_atEnd.mp hend
    have hs₁ : s₁ = ext.getD [] ∧ (ext = none ∨ ∃ c, ext = some (dot :: c) ∧ dot ∉ c) := by
      rcases mem_opt.mp hopt with ⟨e, rfl, he⟩ | ⟨rfl, rfl⟩
      · obtain ⟨c, rfl, hc, rfl⟩ := mem_extRe.mp he
        exact ⟨List.append_nil _, .inr ⟨c, rfl, hc⟩⟩
      · exact ⟨rfl, .inl rfl⟩
    obtain ⟨rfl, hext⟩ := hs₁
    rcases mem_opt.mp hname with ⟨n, rfl, hn⟩ | ⟨rfl, rfl⟩
    · obtain ⟨rfl, -, hn⟩ := mem_plusLazy.mp hn
      exact ⟨rfl, rfl, n, rfl, hn, hext⟩
    · exact ⟨rfl, rfl, [], rfl, by simp, hext⟩
  · rintro ⟨rfl, rfl, name, hs, hname, hext⟩
    have hopt : (ext, []) ∈ opt extRe (ext.getD []) := by
      rcases hext with rfl | ⟨c, rfl, hc⟩
      · exact mem_opt.mpr (.inr ⟨rfl, rfl⟩)
      · exact mem_opt.mpr (.inl ⟨_, rfl, mem_extRe.mpr ⟨c, rfl, hc, (List.append_nil _).symm⟩⟩)
    have hrest : ∀ n : Option JSString, n.getD [] = name → ((base, ext), []) ∈
        (do
          let ext ← opt extRe
          atEnd
          return (n.getD [] ++ ext.getD [], ext) : Pattern UInt16 (JSString × Option JSString))
          (ext.getD []) := fun n hn ↦
      mem_bind.mpr ⟨ext, [], hopt, mem_bind.mpr ⟨(), [], mem_atEnd.mpr ⟨rfl, rfl⟩,
        mem_pure.mpr ⟨by rw [hn, ← hs], rfl⟩⟩⟩
    rcases eq_or_ne name [] with rfl | hne
    · exact ⟨none, ext.getD [], mem_opt.mpr (.inr ⟨rfl, hs.symm⟩), hrest none rfl⟩
    · exact ⟨some name, ext.getD [],
        mem_opt.mpr (.inl ⟨name, rfl, mem_plusLazy.mpr ⟨hs, hne, hname⟩⟩), hrest (some name) rfl⟩

theorem readable_of_mem (h : ((base, ext), r) ∈ nameRe s) : Readable s := by
  obtain ⟨-, -, name, hs, hname, hext⟩ := mem_nameRe.mp h
  refine ⟨name, ext.getD [], hs, hname, ?_⟩
  rcases hext with rfl | ⟨c, rfl, hc⟩
  · exact .inl rfl
  · exact .inr ⟨c, rfl, hc⟩

theorem exec_nameRe_eq_none_iff : exec nameRe s = none ↔ ¬Readable s := by
  rw [exec_eq_none_iff]
  constructor
  · rintro h ⟨a, b, hs, ha, rfl | ⟨c, rfl, hc⟩⟩
    · exact h (s, none) [] (mem_nameRe.mpr ⟨rfl, rfl, a, hs, ha, .inl rfl⟩)
    · exact h (s, some (dot :: c)) [] (mem_nameRe.mpr ⟨rfl, rfl, a, hs, ha, .inr ⟨c, rfl, hc⟩⟩)
  · rintro h ⟨base, ext⟩ r hmem
    exact h (readable_of_mem hmem)

theorem mem_longDirRe :
    (dir, r) ∈ longDirRe p ↔
      ∃ t, t ≠ [] ∧ (∀ u ∈ t, notTerminator u = true) ∧ r ≠ [] ∧ dir = t ++ [slash] ∧
        p = t ++ slash :: r := by
  rw [longDirRe, mem_bind]
  constructor
  · rintro ⟨t, p₁, hplus, hrest⟩
    obtain ⟨u, p₂, hone, hrest⟩ := mem_bind.mp hrest
    obtain ⟨_, p₃, hend, hpure⟩ := mem_bind.mp hrest
    obtain ⟨rfl, rfl⟩ := mem_pure.mp hpure
    obtain ⟨hne, rfl⟩ := mem_notAtEnd.mp hend
    obtain ⟨rfl, hu⟩ := mem_one.mp hone
    obtain ⟨rfl, ht, hclass⟩ := mem_plus.mp hplus
    obtain rfl : u = slash := by simpa using hu
    exact ⟨t, ht, hclass, hne, rfl, rfl⟩
  · rintro ⟨t, ht, hclass, hne, rfl, rfl⟩
    exact ⟨t, slash :: r, mem_plus.mpr ⟨rfl, ht, hclass⟩,
      mem_bind.mpr ⟨slash, r, mem_one.mpr ⟨rfl, by simp⟩,
        mem_bind.mpr ⟨(), r, mem_notAtEnd.mpr ⟨hne, rfl⟩, mem_pure.mpr ⟨rfl, rfl⟩⟩⟩⟩

theorem mem_rootRe : (dir, r) ∈ rootRe p ↔ dir = [slash] ∧ p = slash :: r := by
  rw [rootRe, mem_bind]
  constructor
  · rintro ⟨u, p₁, hone, hpure⟩
    obtain ⟨rfl, rfl⟩ := mem_pure.mp hpure
    obtain ⟨rfl, hu⟩ := mem_one.mp hone
    obtain rfl : u = slash := by simpa using hu
    exact ⟨rfl, rfl⟩
  · rintro ⟨rfl, rfl⟩
    exact ⟨slash, r, mem_one.mpr ⟨rfl, by simp⟩, mem_pure.mpr ⟨rfl, rfl⟩⟩

theorem mem_dirRe :
    (dir, r) ∈ dirRe p ↔
      (∃ t, t ≠ [] ∧ (∀ u ∈ t, notTerminator u = true) ∧ r ≠ [] ∧ dir = t ++ [slash] ∧
        p = t ++ slash :: r) ∨ dir = [slash] ∧ p = slash :: r := by
  rw [dirRe, mem_orElse, mem_longDirRe, mem_rootRe]

theorem notTerminator_slash : notTerminator slash = true := by decide

/-- A directory is a beginning without line terminators. -/
theorem eq_of_mem_dir {o : Option JSString} (h : (o, r) ∈ opt dirRe p) :
    p = o.getD [] ++ r ∧ ∀ u ∈ o.getD [], notTerminator u = true := by
  rcases mem_opt.mp h with ⟨dir, rfl, hdir⟩ | ⟨rfl, rfl⟩
  · rcases mem_dirRe.mp hdir with ⟨t, -, ht, -, rfl, rfl⟩ | ⟨rfl, rfl⟩
    · refine ⟨by simp, fun u hu ↦ ?_⟩
      rcases List.mem_append.mp hu with hu | hu
      · exact ht u hu
      · rw [List.mem_singleton.mp hu, notTerminator_slash]
    · exact ⟨rfl, fun u hu ↦ List.mem_singleton.mp hu ▸ notTerminator_slash⟩
  · exact ⟨rfl, by simp⟩

/-! ## The way that is taken -/

/-- Longer directories are preferred. -/
theorem pairwise_longDirRe (p : JSString) :
    (longDirRe p).Pairwise fun x y ↦ y.1.length ≤ x.1.length := by
  have hlength : ∀ t s, ∀ x ∈ (do
      let u ← one (· = slash)
      notAtEnd
      return t ++ [u] : Pattern UInt16 JSString) s, x.1.length = t.length + 1 := by
    rintro t s ⟨dir, r⟩ hmem
    obtain ⟨u, p₂, -, hrest⟩ := mem_bind.mp hmem
    obtain ⟨_, p₃, -, hpure⟩ := mem_bind.mp hrest
    obtain ⟨rfl, -⟩ := mem_pure.mp hpure
    exact List.length_append
  refine pairwise_bind (pairwise_plus notTerminator p) (fun x _ ↦ ?_) ?_
  · refine List.pairwise_of_forall_mem_list fun y hy z hz ↦ ?_
    exact Nat.le_of_eq ((hlength _ _ z hz).trans (hlength _ _ y hy).symm)
  · intro x _ y _ hlt x' hx' y' hy'
    rw [hlength _ _ x' hx', hlength _ _ y' hy']
    omega

theorem pairwise_dir (p : JSString) :
    (opt dirRe p).Pairwise fun x y ↦ (y.1.getD []).length ≤ (x.1.getD []).length := by
  have hroot : ∀ x ∈ rootRe p, x.1.length = 1 := by
    rintro ⟨dir, r⟩ hx
    rw [(mem_rootRe.mp hx).1]
    rfl
  have hdir : (dirRe p).Pairwise fun x y ↦ y.1.length ≤ x.1.length := by
    refine List.pairwise_append.mpr ⟨pairwise_longDirRe p, ?_, ?_⟩
    · refine List.pairwise_of_forall_mem_list fun y hy z hz ↦ ?_
      exact Nat.le_of_eq ((hroot z hz).trans (hroot y hy).symm)
    · rintro ⟨dir, r⟩ hx y hy
      obtain ⟨t, -, -, -, rfl, -⟩ := mem_longDirRe.mp hx
      rw [hroot y hy, List.length_append]
      exact Nat.le_add_left _ _
  rw [opt, List.pairwise_append, List.pairwise_map]
  refine ⟨hdir, List.pairwise_singleton _ _, fun x _ y hy ↦ ?_⟩
  rw [List.mem_singleton.mp hy]
  exact Nat.zero_le _

/-- **What the expression captures.** Of the ways that can be read to the end it takes one with the
longest directory. -/
theorem splitPath_eq_ok {o : Option JSString} (h : splitPath p = .ok (o, base, ext)) :
    (o, base) ∈ opt dirRe p ∧ Readable base ∧ ext.getD [] <:+ base ∧
      ∀ y ∈ opt dirRe p, Readable y.2 → (y.1.getD []).length ≤ (o.getD []).length := by
  have hexec : exec splitPathRe p = some (o, base, ext) := by
    rw [splitPath] at h
    rcases hexec : exec splitPathRe p with _ | groups
    · rw [hexec] at h
      cases h
    · rw [hexec] at h
      rw [Except.ok.inj h]
  obtain ⟨x, hx, hname, hbest⟩ := exists_of_exec_bind (pairwise_dir p) hexec
  rw [exec_bind_pure] at hname
  obtain ⟨groups, hgroups, heq⟩ := Option.map_eq_some_iff.mp hname
  obtain ⟨rfl, rfl⟩ := Prod.mk.inj heq
  obtain ⟨r, hmem⟩ := mem_of_exec hgroups
  obtain ⟨rfl, rfl, name, hs, -, -⟩ := mem_nameRe.mp hmem
  refine ⟨hx, readable_of_mem hmem, ⟨name, hs.symm⟩, fun y hy hread ↦ ?_⟩
  have hne : exec (nameRe >>= fun name ↦ pure (y.1, name)) y.2 ≠ none := by
    rw [exec_bind_pure, ne_eq, Option.map_eq_none_iff, exec_nameRe_eq_none_iff, not_not]
    exact hread
  rcases hbest y hy hne with rfl | hle
  · exact Nat.le_refl _
  · exact hle

/-- A path that is not read is not split. -/
theorem splitPath_isOk_iff : (∃ groups, splitPath p = .ok groups) ↔ Readable p := by
  constructor
  · rintro ⟨⟨o, base, ext⟩, h⟩
    obtain ⟨hmem, ⟨a, b, rfl, ha, hb⟩, -, -⟩ := splitPath_eq_ok h
    obtain ⟨hp, hdir⟩ := eq_of_mem_dir hmem
    refine ⟨o.getD [] ++ a, b, by rw [List.append_assoc, hp], fun u hu ↦ ?_, hb⟩
    rcases List.mem_append.mp hu with hu | hu
    · exact hdir u hu
    · exact ha u hu
  · intro h
    rw [splitPath]
    rcases hexec : exec splitPathRe p with _ | groups
    · -- The way without a directory is there.
      rw [splitPathRe, exec_bind, List.findSome?_eq_none_iff] at hexec
      have hnone := hexec (none, p) (mem_opt.mpr (.inr ⟨rfl, rfl⟩))
      rw [exec_bind_pure, Option.map_eq_none_iff, exec_nameRe_eq_none_iff] at hnone
      exact absurd h hnone
    · exact ⟨groups, rfl⟩

/-! ## Paths that are split as they should be -/

/-- The three functions return, and what they return fits together. -/
def Consistent (cwd p : JSString) : Prop :=
  ∃ dir base ext, dirname p = .ok dir ∧ basename p none = .ok base ∧ extname p = .ok ext ∧
    ext <:+ base ∧
    (Canonical p → p ≠ [slash] → resolve cwd [dir, base] = p ∧ slash ∉ base)

/-- A line terminator stands only behind the last dot, and if the path is canonical, this dot is in
its last part. -/
def Splittable (p : JSString) : Prop :=
  ∃ a b, p = a ++ b ∧ (∀ u ∈ a, notTerminator u = true) ∧
    (b = [] ∨ ∃ c, b = dot :: c ∧ dot ∉ c ∧ (Canonical p → slash ∉ c))

theorem exists_last_slash (h : slash ∈ p) : ∃ a b, p = a ++ slash :: b ∧ slash ∉ b := by
  obtain ⟨b, a, hp, hb⟩ := List.eq_append_cons_of_mem (List.mem_reverse.mpr h)
  refine ⟨a.reverse, b.reverse, ?_, by simpa using hb⟩
  rw [← List.reverse_reverse p, hp]
  simp

/-- Nothing but the end of a path that is split at its last slash. -/
theorem eq_of_last_slash {a b a' b' : JSString} (h : a ++ slash :: b = a' ++ slash :: b')
    (hb : slash ∉ b) (hle : a.length ≤ a'.length) : a = a' ∧ b = b' := by
  obtain ⟨t, rfl⟩ : a <+: a' := List.prefix_of_prefix_length_le ⟨_, rfl⟩ ⟨_, h.symm⟩ hle
  rw [List.append_assoc, List.append_cancel_left_eq] at h
  rcases t with _ | ⟨u, t⟩
  · exact ⟨(List.append_nil a).symm, (List.cons.inj h).2⟩
  · rw [List.cons_append] at h
    exact absurd ((List.cons.inj h).2 ▸ List.mem_append_right _ List.mem_cons_self) hb

/-- A directory and a name in it. -/
theorem resolve_pair {cwd a b : JSString} (ha : isAbsolute a = true) (hb : isAbsolute b = false)
    (hne : b ≠ []) : resolve cwd [a, b] = slash :: Files.join (walk a * walk b).downs := by
  have hane : a ≠ [] := by
    rintro rfl
    cases ha
  have hgather : gather ([a, b].reverse ++ [cwd]) [] = (a ++ slash :: (b ++ [slash]), true) := by
    show gather [b, a, cwd] [] = _
    rw [gather, if_neg hne, if_neg (by simp [hb]), gather, if_neg hane, if_pos ha]
  rw [resolve, hgather]
  dsimp only
  rw [if_pos rfl, Bool.not_true, normalizeArray, normalizeParts_eq]
  show slash :: Files.join (walk (a ++ slash :: (b ++ [slash]))).downs = _
  rw [walk_append, walk_append, walk_nil, mul_one]

theorem isOk_of_dirname (h : dirname p = .ok dir) :
    ∃ o base ext, splitPath p = .ok (o, base, ext) := by
  rcases hs : splitPath p with e | ⟨o, base, ext⟩
  · rw [dirname, hs] at h
    cases h
  · exact ⟨o, base, ext, rfl⟩

theorem basename_none {o : Option JSString} (h : splitPath p = .ok (o, base, ext)) :
    basename p none = .ok base := by
  rw [basename, h]
  rfl

theorem extname_eq {o : Option JSString} (h : splitPath p = .ok (o, base, ext)) :
    extname p = .ok (ext.getD []) := by
  rw [extname, h]
  rfl

theorem dirname_eq {a : JSString} (h : splitPath p = .ok (some (a ++ [slash]), base, ext)) :
    dirname p = .ok (if a = [] then [slash] else a) := by
  rw [dirname, h]
  rcases a with _ | ⟨u, a⟩
  · rfl
  · show Except.ok _ = Except.ok _
    rw [if_neg (List.cons_ne_nil _ _)]
    simp

/-- Where the last slash is that has something in front of it and behind it. -/
def lastSlash (p : JSString) : Option ℕ :=
  (List.range (p.length - 1)).reverse.find? fun i ↦ 1 ≤ i ∧ p[i]? = some slash

/-- The directory of a path without line terminators. -/
def directoryOf (p : JSString) : JSString :=
  match lastSlash p with
  | some i => p.take i
  | none => if isAbsolute p then [slash] else js "."

theorem lastSlash_eq_some {i : ℕ} (h : lastSlash p = some i) :
    (1 ≤ i ∧ p[i]? = some slash ∧ i + 1 < p.length) ∧
      ∀ j, i < j → p[j]? = some slash → j + 1 = p.length := by
  rw [lastSlash, List.find?_eq_some_iff_append] at h
  obtain ⟨hi, before, after, hrange, hbefore⟩ := h
  have hmem : i ∈ (List.range (p.length - 1)).reverse := by
    rw [hrange]
    exact List.mem_append_right _ List.mem_cons_self
  rw [List.mem_reverse, List.mem_range] at hmem
  have hslash : 1 ≤ i ∧ p[i]? = some slash := by simpa using hi
  refine ⟨⟨hslash.1, hslash.2, by omega⟩, fun j hj hjslash ↦ ?_⟩
  have hlt := (List.getElem?_eq_some_iff.mp hjslash).1
  by_contra hne
  have hj' : j ∈ (List.range (p.length - 1)).reverse := by
    rw [List.mem_reverse, List.mem_range]
    omega
  rw [hrange, List.mem_append, List.mem_cons] at hj'
  rcases hj' with hj' | rfl | hj'
  · have hnot := hbefore j hj'
    simp [hjslash] at hnot
    omega
  · exact Nat.lt_irrefl _ hj
  · -- the candidates are tried in descending order
    have hsorted : (List.range (p.length - 1)).reverse.Pairwise (· > ·) :=
      List.pairwise_reverse.mpr List.pairwise_lt_range
    rw [hrange] at hsorted
    have hgt := (List.pairwise_cons.mp (List.pairwise_append.mp hsorted).2.1).1 j hj'
    omega

theorem lastSlash_eq_none (h : lastSlash p = none) {i : ℕ} (hi : 1 ≤ i)
    (hslash : p[i]? = some slash) : i + 1 = p.length := by
  rw [lastSlash, List.find?_eq_none] at h
  have hlt := (List.getElem?_eq_some_iff.mp hslash).1
  by_contra hne
  refine h i ?_ (by simpa using ⟨hi, hslash⟩)
  rw [List.mem_reverse, List.mem_range]
  omega

theorem readable_of_suffix (h : ∀ u ∈ p, notTerminator u = true) (hr : r <:+ p) : Readable r :=
  ⟨r, [], (List.append_nil r).symm, fun u hu ↦ h u (hr.subset hu), .inl rfl⟩

/-- Where no slash has something in front of it and behind it, the root is all there can be. -/
theorem dir_of_lastSlash_none {o : Option JSString} (h : ∀ u ∈ p, notTerminator u = true)
    (hlast : lastSlash p = none) (hok : splitPath p = .ok (o, base, ext)) :
    o = if isAbsolute p then some [slash] else none := by
  obtain ⟨hmem, -, -, hbest⟩ := splitPath_eq_ok hok
  rcases mem_opt.mp hmem with ⟨dir, rfl, hdir⟩ | ⟨rfl, rfl⟩
  · rcases mem_dirRe.mp hdir with ⟨t, ht, -, hr, -, hp⟩ | ⟨rfl, hp⟩
    · have hslash : p[t.length]? = some slash := by
        rw [hp]
        simp
      have hend := lastSlash_eq_none hlast (List.length_pos_iff.mpr ht) hslash
      have hlength := List.length_pos_iff.mpr hr
      rw [hp, List.length_append, List.length_cons] at hend
      omega
    · rw [if_pos (by rw [hp]; rfl)]
  · rw [if_neg]
    intro habs
    obtain ⟨r, hr⟩ : ∃ r, base = slash :: r :=
      List.head?_eq_some_iff.mp (by simpa [isAbsolute] using habs)
    have hway : (some [slash], r) ∈ opt dirRe base :=
      mem_opt.mpr (.inl ⟨_, rfl, mem_dirRe.mpr (.inr ⟨rfl, hr⟩)⟩)
    exact absurd (hbest _ hway (readable_of_suffix h ⟨[slash], hr.symm⟩)) (by simp)

/-- Otherwise the last one ends the longest directory. -/
theorem dir_of_lastSlash_some {o : Option JSString} {i : ℕ}
    (h : ∀ u ∈ p, notTerminator u = true) (hlast : lastSlash p = some i)
    (hok : splitPath p = .ok (o, base, ext)) : o = some (p.take i ++ [slash]) ∧ p.take i ≠ [] := by
  obtain ⟨hmem, -, -, hbest⟩ := splitPath_eq_ok hok
  obtain ⟨⟨hi, hslash, hlt⟩, hmax⟩ := lastSlash_eq_some hlast
  have hp : p = p.take i ++ slash :: p.drop (i + 1) := by
    obtain ⟨hlt, heq⟩ := List.getElem?_eq_some_iff.mp hslash
    rw [← heq, List.cons_getElem_drop_succ, List.take_append_drop]
  have htake : p.take i ≠ [] := List.length_pos_iff.mp (by rw [List.length_take]; omega)
  have hdrop : p.drop (i + 1) ≠ [] := List.length_pos_iff.mp (by rw [List.length_drop]; omega)
  have hway : (some (p.take i ++ [slash]), p.drop (i + 1)) ∈ opt dirRe p :=
    mem_opt.mpr (.inl ⟨_, rfl, mem_dirRe.mpr (.inl ⟨_, htake,
      fun u hu ↦ h u (List.mem_of_mem_take hu), hdrop, rfl, hp⟩)⟩)
  have hle := hbest _ hway (readable_of_suffix h (List.drop_suffix _ _))
  simp only [Option.getD_some, List.length_append, List.length_take, List.length_singleton] at hle
  refine ⟨?_, htake⟩
  rcases mem_opt.mp hmem with ⟨dir, rfl, hdir⟩ | ⟨rfl, -⟩
  · rcases mem_dirRe.mp hdir with ⟨t, ht, -, hr, rfl, hsplit⟩ | ⟨rfl, -⟩
    · simp only [Option.getD_some, List.length_append, List.length_singleton] at hle
      have hat : p[t.length]? = some slash := by
        rw [hsplit]
        simp
      have ht : t.length = i := by
        by_contra hne
        have hend := hmax t.length (by omega) hat
        have hlength := List.length_pos_iff.mpr hr
        rw [hsplit, List.length_append, List.length_cons] at hend
        omega
      rw [hsplit, List.take_left' ht]
    · simp only [Option.getD_some, List.length_singleton] at hle
      omega
  · simp only [Option.getD_none, List.length_nil] at hle
    omega

/-- Without line terminators, a path is cut at its last slash that has something in front of it and
behind it. -/
theorem dirname_eq_ok (h : ∀ u ∈ p, notTerminator u = true) :
    dirname p = .ok (directoryOf p) := by
  obtain ⟨⟨o, base, ext⟩, hok⟩ :=
    splitPath_isOk_iff.mpr (readable_of_suffix h (List.suffix_refl p))
  rcases hlast : lastSlash p with _ | i
  · have ho := dir_of_lastSlash_none h hlast hok
    have hdir : directoryOf p = if isAbsolute p then [slash] else js "." := by
      rw [directoryOf, hlast]
    rw [hdir, dirname, hok, ho]
    by_cases habs : isAbsolute p = true
    · rw [if_pos habs, if_pos habs]
      rfl
    · rw [if_neg habs, if_neg habs]
      rfl
  · obtain ⟨rfl, htake⟩ := dir_of_lastSlash_some h hlast hok
    rw [dirname_eq hok, if_neg htake, directoryOf, hlast]

/-- **A canonical path is split at its last slash** if it can be. -/
theorem splitPath_last {a b : JSString} (hb : slash ∉ b) (hne : b ≠ [])
    (ha : ∀ u ∈ a, notTerminator u = true) (hread : Readable b) :
    ∃ ext, splitPath (a ++ slash :: b) = .ok (some (a ++ [slash]), b, ext) := by
  have hway : (some (a ++ [slash]), b) ∈ opt dirRe (a ++ slash :: b) := by
    refine mem_opt.mpr (.inl ⟨_, rfl, mem_dirRe.mpr ?_⟩)
    rcases eq_or_ne a [] with rfl | hane
    · exact .inr ⟨rfl, rfl⟩
    · exact .inl ⟨a, hane, ha, hne, rfl, rfl⟩
  have hreads : Readable (a ++ slash :: b) := by
    obtain ⟨a', b', rfl, ha', hb'⟩ := hread
    refine ⟨a ++ slash :: a', b', by simp, fun u hu ↦ ?_, hb'⟩
    rcases List.mem_append.mp hu with hu | hu
    · exact ha u hu
    · rcases List.mem_cons.mp hu with rfl | hu
      · exact notTerminator_slash
      · exact ha' u hu
  obtain ⟨⟨o, base, ext⟩, hok⟩ := splitPath_isOk_iff.mpr hreads
  obtain ⟨hmem, -, -, hbest⟩ := splitPath_eq_ok hok
  have hle := hbest _ hway hread
  simp only [Option.getD_some, List.length_append, List.length_singleton] at hle
  rcases mem_opt.mp hmem with ⟨dir, rfl, hdir⟩ | ⟨rfl, -⟩
  · rcases mem_dirRe.mp hdir with ⟨t, -, -, -, rfl, hsplit⟩ | ⟨rfl, hsplit⟩
    · simp only [Option.getD_some, List.length_append, List.length_singleton] at hle
      obtain ⟨rfl, rfl⟩ := eq_of_last_slash hsplit hb (by omega)
      exact ⟨ext, hok⟩
    · simp only [Option.getD_some, List.length_singleton] at hle
      obtain rfl : a = [] := List.eq_nil_of_length_eq_zero (by omega)
      obtain rfl : b = base := (List.cons.inj hsplit).2
      exact ⟨ext, hok⟩
  · simp only [Option.getD_none, List.length_nil] at hle
    omega

/-- The parts of a canonical path that is not the root: its directory and its name. -/
theorem exists_split (hp : Canonical p) (hroot : p ≠ [slash]) :
    ∃ a b, p = a ++ slash :: b ∧ slash ∉ b ∧ b ≠ [] ∧ (a = [] ∨ isAbsolute a = true) := by
  have hmem : slash ∈ p := List.mem_of_mem_head? hp.1
  obtain ⟨a, b, rfl, hb⟩ := exists_last_slash hmem
  refine ⟨a, b, rfl, hb, ?_, ?_⟩
  · rintro rfl
    exact (hp.2.resolve_left hroot).1 (by simp)
  · rcases a with _ | ⟨u, a⟩
    · exact .inl rfl
    · have hu : some u = some slash := hp.1
      right
      simpa [isAbsolute] using hu

theorem consistent_of_splittable (cwd : JSString) (h : Splittable p) : Consistent cwd p := by
  obtain ⟨A, B, hp, hA, hB⟩ := h
  by_cases hcanonical : Canonical p ∧ p ≠ [slash]
  · obtain ⟨hcanonical, hroot⟩ := hcanonical
    obtain ⟨a, b, hsplit, hb, hne, habs⟩ := exists_split hcanonical hroot
    -- The last slash is in front of the dot.
    have hmemB : slash ∉ B := by
      rcases hB with rfl | ⟨c, rfl, -, hc⟩
      · exact List.not_mem_nil
      · rw [List.mem_cons, not_or]
        exact ⟨by decide, hc hcanonical⟩
    have hmemA : slash ∈ A := by
      have hmem : slash ∈ A ++ B := hp ▸ List.mem_of_mem_head? hcanonical.1
      exact (List.mem_append.mp hmem).resolve_right hmemB
    obtain ⟨a', b', rfl, hb'⟩ := exists_last_slash hmemA
    have hpb : a ++ slash :: b = a' ++ slash :: (b' ++ B) := by
      rw [← hsplit, hp, List.append_assoc, List.cons_append]
    have hboth : a = a' ∧ b = b' ++ B := by
      rcases Nat.le_total a.length a'.length with hle | hle
      · exact eq_of_last_slash hpb hb hle
      · have hswap := eq_of_last_slash hpb.symm (by simp [hb', hmemB]) hle
        exact ⟨hswap.1.symm, hswap.2.symm⟩
    obtain ⟨rfl, rfl⟩ := hboth
    have hread : Readable (b' ++ B) :=
      ⟨b', B, rfl, fun u hu ↦ hA u (by simp [hu]), hB.imp id (Exists.imp fun c hc ↦ ⟨hc.1, hc.2.1⟩)⟩
    have ha : ∀ u ∈ a, notTerminator u = true := fun u hu ↦ hA u (List.mem_append_left _ hu)
    obtain ⟨ext, hok⟩ := splitPath_last hb hne ha hread
    rw [← hsplit] at hok
    refine ⟨_, _, _, dirname_eq hok, basename_none hok, extname_eq hok,
      (splitPath_eq_ok hok).2.2.1, fun _ _ ↦ ⟨?_, hb⟩⟩
    obtain ⟨d, rfl⟩ := canonical_iff.mp hcanonical
    have hbrel : isAbsolute (b' ++ B) = false := by
      rcases hcons : b' ++ B with _ | ⟨u, rest⟩
      · rfl
      · rw [hcons] at hb
        have hu : u ≠ slash := fun heq ↦ hb (heq ▸ List.mem_cons_self)
        simpa [isAbsolute] using hu
    have hwalk := d.walk_path
    rw [hsplit, walk_append] at hwalk
    split_ifs with hnil
    · rw [hnil, walk_nil, one_mul] at hwalk
      have hone : walk [slash] = 1 := rfl
      rw [resolve_pair rfl hbrel hne, hone, one_mul, hwalk]
      rfl
    · rw [resolve_pair (habs.resolve_left hnil) hbrel hne, hwalk]
      rfl
  · have hread : Readable p := ⟨A, B, hp, hA, hB.imp id (Exists.imp fun c hc ↦ ⟨hc.1, hc.2.1⟩)⟩
    obtain ⟨⟨o, base, ext⟩, hok⟩ := splitPath_isOk_iff.mpr hread
    have hdir : ∃ dir, dirname p = .ok dir := by
      rw [dirname, hok]
      exact ⟨_, rfl⟩
    obtain ⟨dir, hdir⟩ := hdir
    exact ⟨dir, base, _, hdir, basename_none hok, extname_eq hok, (splitPath_eq_ok hok).2.2.1,
      fun hc hr ↦ absurd ⟨hc, hr⟩ hcanonical⟩

theorem splittable_of_consistent {cwd : JSString} (h : Consistent cwd p) : Splittable p := by
  obtain ⟨dir, base, ext, hdir, hbase, -, -, hcanonical⟩ := h
  obtain ⟨o, base', ext', hok⟩ := isOk_of_dirname hdir
  obtain rfl : base' = base := by
    rw [basename_none hok] at hbase
    exact Except.ok.inj hbase
  obtain ⟨hmem, ⟨a, b, hab, ha, hb⟩, -, -⟩ := splitPath_eq_ok hok
  obtain ⟨hp, hclass⟩ := eq_of_mem_dir hmem
  refine ⟨o.getD [] ++ a, b, ?_, fun u hu ↦ ?_, hb.imp id (Exists.imp fun c hc ↦ ⟨hc.1, hc.2, ?_⟩)⟩
  · rw [List.append_assoc, ← hab]
    exact hp
  · rcases List.mem_append.mp hu with hu | hu
    · exact hclass u hu
    · exact ha u hu
  · intro hcanon hslash
    have hmembase : slash ∈ base' := by
      rw [hab, hc.1]
      exact List.mem_append_right _ (List.mem_cons_of_mem _ hslash)
    by_cases hroot : p = [slash]
    · have hdotp : dot ∈ p := by
        rw [hp, hab, hc.1]
        simp
      rw [hroot] at hdotp
      exact absurd hdotp (by decide)
    · exact (hcanonical hcanon hroot).2 hmembase

/-- **`dirname`, `basename` and `extname` fit together** exactly if the regular expression can tell
the parts of the path. -/
theorem consistent_iff (cwd p : JSString) : Consistent cwd p ↔ Splittable p :=
  ⟨splittable_of_consistent, consistent_of_splittable cwd⟩

/-- A file name with a line feed. -/
theorem lineFeed_throws : ¬Consistent (js "/") [0x61, 0x0A, 0x62] := by
  rintro ⟨dir, base, ext, hdir, -⟩
  have hthrows : dirname [0x61, 0x0A, 0x62] = .error .typeError := by decide
  rw [hthrows] at hdir
  cases hdir

end Posix

end SpiderNode.Files
