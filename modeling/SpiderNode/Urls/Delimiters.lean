import Mathlib.Data.List.TakeWhile
import SpiderNode.Urls.Parse

/-!
# Delimiters

What the two searches find, the one for the end of the host and the one for the end of what follows
it. A character is found where it stands first; the regular expression among the delimiters is only
found as the four characters it is written with. So white space is kept in urls, and a url is cut
where it contains `/\s/`. `keepsOut_iff` says that the delimiters are otherwise kept out.
-/

namespace SpiderNode.Urls

open Files (slash)
open Regex Pattern

variable {s t : JSString} {units : List UInt16}

/-! ## Cutting -/

theorem begins_iff {u : UInt16} :
    (∃ pattern ∈ units.map ([·]) ++ [whiteRe], pattern <+: u :: s) ↔
      u ∈ units ∨ whiteRe <+: u :: s := by
  constructor
  · rintro ⟨pattern, hmem, hbegin⟩
    rcases List.mem_append.mp hmem with hmem | hmem
    · obtain ⟨v, hv, rfl⟩ := List.mem_map.mp hmem
      obtain rfl : v = u := (List.cons_prefix_cons.mp hbegin).1
      exact .inl hv
    · obtain rfl := List.mem_singleton.mp hmem
      exact .inr hbegin
  · rintro (hu | hbegin)
    · refine ⟨[u], List.mem_append_left _ (List.mem_map.mpr ⟨u, hu, rfl⟩), ?_⟩
      exact List.cons_prefix_cons.mpr ⟨rfl, List.nil_prefix⟩
    · exact ⟨whiteRe, List.mem_append_right _ List.mem_cons_self, hbegin⟩

theorem cut_units_cons (u : UInt16) (s : JSString) :
    cut (units.map ([·]) ++ [whiteRe]) (u :: s) =
      if u ∈ units ∨ whiteRe <+: u :: s then 0
      else cut (units.map ([·]) ++ [whiteRe]) s + 1 := by
  rw [cut_cons]
  exact if_congr begins_iff rfl rfl

/-- The regular expression begins with a slash, which ends a host anyway. -/
theorem cut_nonHostChars (s : JSString) :
    s.take (cut nonHostChars s) = s.takeWhile (· ∉ nonHostUnits) ∧
      s.drop (cut nonHostChars s) = s.dropWhile (· ∉ nonHostUnits) := by
  induction s with
  | nil => exact ⟨rfl, rfl⟩
  | cons u s ih =>
    rw [nonHostChars, cut_units_cons]
    by_cases hu : u ∈ nonHostUnits
    · rw [if_pos (.inl hu), List.takeWhile_cons_of_neg (by simpa using hu),
        List.dropWhile_cons_of_neg (by simpa using hu)]
      exact ⟨rfl, rfl⟩
    · have hwhite : ¬whiteRe <+: u :: s := by
        intro hbegin
        obtain rfl : slash = u := (List.cons_prefix_cons.mp hbegin).1
        exact hu (by decide)
      rw [if_neg (not_or.mpr ⟨hu, hwhite⟩), List.takeWhile_cons_of_pos (by simpa using hu),
        List.dropWhile_cons_of_pos (by simpa using hu), List.take_succ_cons, List.drop_succ_cons,
        ← nonHostChars, ih.1, ih.2]
      exact ⟨rfl, rfl⟩

theorem prefix_takeWhile_iff {p : UInt16 → Bool} (ht : ∀ u ∈ t, p u = true) :
    t <+: s.takeWhile p ↔ t <+: s := by
  refine ⟨fun h ↦ h.trans (List.takeWhile_prefix p), ?_⟩
  rintro ⟨r, rfl⟩
  rw [List.takeWhile_append_of_pos ht]
  exact List.prefix_append t _

/-- It is not cut before, if the regular expression is not found. -/
theorem take_cut_delims_iff (s : JSString) :
    s.take (cut delims s) = s.takeWhile (· ∉ delimUnits) ↔
      ¬whiteRe <:+: s.takeWhile (· ∉ delimUnits) := by
  induction s with
  | nil => exact iff_of_true rfl (by decide)
  | cons u s ih =>
    rw [delims, cut_units_cons]
    by_cases hu : u ∈ delimUnits
    · rw [if_pos (.inl hu), List.takeWhile_cons_of_neg (by simpa using hu)]
      exact iff_of_true rfl (by decide)
    · have hbegin := prefix_takeWhile_iff (s := u :: s) (t := whiteRe) (p := (· ∉ delimUnits))
        (by decide)
      rw [List.takeWhile_cons_of_pos (by simpa using hu)] at hbegin ⊢
      rw [List.infix_cons_iff, hbegin]
      by_cases hwhite : whiteRe <+: u :: s
      · rw [if_pos (.inr hwhite)]
        exact iff_of_false (List.cons_ne_nil _ _).symm fun h ↦ h (.inl hwhite)
      · rw [if_neg (not_or.mpr ⟨hu, hwhite⟩), List.take_succ_cons, List.cons_inj_right, ← delims,
          ih]
        exact not_congr (or_iff_right hwhite).symm

/-- Where it is cut before, the regular expression is found. -/
theorem whiteRe_prefix_drop (h : s.take (cut delims s) ≠ s.takeWhile (· ∉ delimUnits)) :
    whiteRe <+: s.drop (cut delims s) := by
  induction s with
  | nil => exact absurd rfl h
  | cons u s ih =>
    rw [delims, cut_units_cons] at h ⊢
    by_cases hu : u ∈ delimUnits
    · rw [if_pos (.inl hu), List.takeWhile_cons_of_neg (by simpa using hu)] at h
      exact absurd rfl h
    · by_cases hwhite : whiteRe <+: u :: s
      · rw [if_pos (.inr hwhite)]
        exact hwhite
      · rw [if_neg (not_or.mpr ⟨hu, hwhite⟩)] at h ⊢
        rw [List.take_succ_cons, List.takeWhile_cons_of_pos (by simpa using hu), ← delims] at h
        rw [List.drop_succ_cons, ← delims]
        exact ih fun heq ↦ h (congrArg _ heq)

theorem take_cut_delims_of_notMem (h : 0x5C ∉ s) :
    s.take (cut delims s) = s.takeWhile (· ∉ delimUnits) := by
  refine (take_cut_delims_iff s).mpr fun hfound ↦ h ?_
  exact (List.takeWhile_prefix _).subset (hfound.subset (by decide))

/-! ## Splitting -/

theorem splitAtUnit_append (u : UInt16) (s : JSString) :
    (splitAtUnit u s).1 ++ (splitAtUnit u s).2.getD [] = s := by
  rw [splitAtUnit]
  split_ifs with h
  · exact List.takeWhile_append_dropWhile
  · have hall : ∀ v ∈ s, decide (v ≠ u) = true := by
      intro v hv
      simpa using fun heq : v = u ↦ h (heq ▸ hv)
    rw [Option.getD_none, List.append_nil, List.takeWhile_eq_self_iff.mpr hall]

theorem head?_splitAtUnit {u : UInt16} {r : JSString} (h : (splitAtUnit u s).2 = some r) :
    r.head? = some u := by
  rw [splitAtUnit] at h
  split_ifs at h with hu
  obtain rfl := Option.some.inj h
  induction s with
  | nil => exact absurd hu List.not_mem_nil
  | cons v s ih =>
    by_cases hv : v = u
    · rw [hv, List.dropWhile_cons_of_neg (by simp)]
      rfl
    · rw [List.dropWhile_cons_of_pos (by simpa using hv)]
      exact ih ((List.mem_cons.mp hu).resolve_left fun h ↦ hv h.symm) rfl

theorem rest_eq (rest : JSString) :
    pathOf rest ++ (searchOf rest).getD [] ++ (hashOf rest).getD [] = rest := by
  rw [pathOf, searchOf, splitAtUnit_append, hashOf, splitAtUnit_append]

theorem pathOf_cons {u : UInt16} (h : u ≠ 0x23 ∧ u ≠ 0x3F) (s : JSString) :
    pathOf (u :: s) = u :: pathOf s := by
  show ((u :: s).takeWhile (· ≠ 0x23)).takeWhile (· ≠ 0x3F) = _
  rw [List.takeWhile_cons_of_pos (by simpa using h.1), List.takeWhile_cons_of_pos
    (by simpa using h.2)]
  rfl

theorem mem_of_mem_pathnameOf {protocol hostname : Option JSString} {rest : JSString} {u : UInt16}
    (h : u ∈ (pathnameOf protocol hostname rest).getD []) : u ∈ rest ∨ u = slash := by
  rw [pathnameOf] at h
  split_ifs at h
  · refine .inl ?_
    rw [← rest_eq rest]
    exact List.mem_append_left _ (List.mem_append_left _ h)
  · exact .inr (List.mem_singleton.mp h)
  · exact absurd h List.not_mem_nil

/-- The parts determine what was split, but for a slash. -/
theorem eq_of_parts {protocol hostname : Option JSString} (hbegin : s <+: t)
    (hpath : pathnameOf protocol hostname s = pathnameOf protocol hostname t)
    (hsearch : searchOf s = searchOf t) (hhash : hashOf s = hashOf t) :
    s = t ∨ s = [] ∧ t = [slash] := by
  have hs := rest_eq s
  have ht := rest_eq t
  rw [hsearch, hhash, List.append_assoc] at hs
  rw [List.append_assoc] at ht
  generalize (searchOf t).getD [] ++ (hashOf t).getD [] = r at hs ht
  rw [pathnameOf, pathnameOf] at hpath
  by_cases hs' : pathOf s = []
  · rw [hs', List.nil_append] at hs
    subst hs
    rw [if_neg (not_not.mpr hs')] at hpath
    by_cases ht' : pathOf t = []
    · rw [ht', List.nil_append] at ht
      exact .inl ht
    · rw [if_pos ht'] at hpath
      split_ifs at hpath
      have hslash := Option.some.inj hpath
      rw [← hslash] at ht
      rcases r with _ | ⟨u, r⟩
      · exact .inr ⟨rfl, ht.symm⟩
      · -- it would begin with a slash
        rw [← ht] at hbegin
        obtain rfl := (List.cons_prefix_cons.mp hbegin).1
        rw [pathOf_cons (by decide)] at hs'
        exact absurd hs' (List.cons_ne_nil _ _)
  · rw [if_pos hs'] at hpath
    by_cases ht' : pathOf t = []
    · rw [if_neg (not_not.mpr ht')] at hpath
      split_ifs at hpath
      rw [Option.some.inj hpath] at hs
      rw [ht', List.nil_append] at ht
      subst hs ht
      exact absurd hbegin.length_le (Nat.not_succ_le_self _)
    · rw [if_pos ht'] at hpath
      rw [← hs, ← ht, Option.some.inj hpath]
      exact .inl rfl

/-! ## The steps -/

/-- What `protocolPattern` matches. -/
def IsProtocol (p : JSString) : Prop :=
  ∃ name, p = name ++ [0x3A] ∧ name ≠ [] ∧ ∀ u ∈ name, isLowerAlnum u = true

theorem mem_protocolPattern {p r url : JSString} :
    (p, r) ∈ protocolPattern url ↔ url = p ++ r ∧ IsProtocol p := by
  rw [protocolPattern, mem_bind]
  constructor
  · rintro ⟨name, r', hname, hrest⟩
    obtain ⟨u, r', hu, hpure⟩ := mem_bind.mp hrest
    obtain ⟨rfl, rfl⟩ := mem_pure.mp hpure
    obtain ⟨rfl, hne, hall⟩ := mem_plus.mp hname
    obtain ⟨rfl, hcolon⟩ := mem_one.mp hu
    obtain rfl := of_decide_eq_true hcolon
    exact ⟨by rw [List.append_assoc]; rfl, name, rfl, hne, hall⟩
  · rintro ⟨rfl, name, rfl, hne, hall⟩
    refine ⟨name, [0x3A] ++ r, mem_plus.mpr ⟨List.append_assoc .., hne, hall⟩, ?_⟩
    exact mem_bind.mpr ⟨0x3A, r, mem_one.mpr ⟨rfl, rfl⟩, mem_pure.mpr ⟨rfl, rfl⟩⟩

/-- The name ends at the first colon, so there is at most one protocol. -/
theorem IsProtocol.eq {p q r r' : JSString} (hp : IsProtocol p) (hq : IsProtocol q)
    (h : p ++ r = q ++ r') : p = q := by
  obtain ⟨name, rfl, -, hname⟩ := hp
  obtain ⟨name', rfl, -, hname'⟩ := hq
  have hcolon (r : JSString) : ∀ u ∈ ([0x3A] ++ r).head?, isLowerAlnum u = false := by
    intro u hu
    obtain rfl : 0x3A = u := Option.some.inj hu
    rfl
  have hleft := (takeWhile_append_of_head _ hname (hcolon r)).1
  have hright := (takeWhile_append_of_head _ hname' (hcolon r')).1
  rw [← List.append_assoc, h, List.append_assoc, hright] at hleft
  rw [hleft]

theorem protocolOf_eq_some_iff {p url : JSString} :
    protocolOf url = some p ↔ p <+: url ∧ IsProtocol p := by
  constructor
  · intro h
    obtain ⟨r, hmem⟩ := mem_of_exec h
    obtain ⟨rfl, hp⟩ := mem_protocolPattern.mp hmem
    exact ⟨List.prefix_append p r, hp⟩
  · rintro ⟨⟨r, rfl⟩, hp⟩
    rcases hexec : protocolOf (p ++ r) with _ | q
    · exact absurd (mem_protocolPattern.mpr ⟨rfl, hp⟩) (exec_eq_none_iff.mp hexec p r)
    · obtain ⟨r', hmem⟩ := mem_of_exec hexec
      obtain ⟨heq, hq⟩ := mem_protocolPattern.mp hmem
      rw [hp.eq hq heq]

variable (b : Bool) (url : JSString)

theorem host_append : (hostOf b url).getD [] ++ afterHost b url = afterSlashes b url := by
  rw [hostOf, afterHost]
  split_ifs
  · rw [Option.getD_some, List.take_append_drop]
  · rfl

theorem mem_host {u : UInt16} (h : u ∈ (hostOf b url).getD []) : u ∉ nonHostUnits := by
  rw [hostOf] at h
  split_ifs at h
  · rw [Option.getD_some, (cut_nonHostChars _).1] at h
    simpa using List.mem_takeWhile_imp h
  · exact absurd h List.not_mem_nil

theorem chopped_isPrefix : chopped b url <+: afterHost b url := by
  rw [chopped]
  split_ifs
  · exact List.prefix_rfl
  · exact List.take_prefix _ _

/-! ## What is kept out -/

/-- One of the delimiters, or white space. -/
def isDelimiter (u : UInt16) : Bool := u ∈ delimUnits || isWhite u

/-- There is no delimiter in the parts of the url, and those behind the host are what comes before
the first one. -/
def KeepsOut : Prop :=
  let out := urlParse false url
  let rest := (afterHost false url).takeWhile (!isDelimiter ·)
  (∀ part ∈ [out.host, out.pathname, out.search, out.hash],
    ∀ u ∈ part.getD [], isDelimiter u = false) ∧
  out.pathname = pathnameOf out.protocol out.hostname rest ∧
    out.search = searchOf rest ∧ out.hash = hashOf rest

/-- What `url` has behind the protocol and the slashes, up to the first delimiter. -/
def body : JSString := (afterSlashes false url).takeWhile (· ∉ delimUnits)

variable {url}

theorem body_eq :
    body url = (hostOf false url).getD [] ++ (afterHost false url).takeWhile (· ∉ delimUnits) := by
  rw [body, ← host_append, List.takeWhile_append_of_pos]
  intro u hu
  have hu := mem_host false url hu
  exact decide_eq_true fun hmem ↦ hu (List.mem_append_right _ hmem)

/-- A host has no slash, so the regular expression is found behind it. -/
theorem whiteRe_infix_body :
    whiteRe <:+: body url ↔ whiteRe <:+: (afterHost false url).takeWhile (· ∉ delimUnits) := by
  rw [body_eq]
  have hhost : slash ∉ (hostOf false url).getD [] := fun h ↦ mem_host false url h (by decide)
  generalize (hostOf false url).getD [] = host at hhost ⊢
  induction host with
  | nil => exact Iff.rfl
  | cons u host ih =>
    rw [List.mem_cons, not_or] at hhost
    rw [List.cons_append, List.infix_cons_iff]
    refine (or_congr_right (ih hhost.2)).trans ?_
    exact or_iff_right fun hbegin ↦ hhost.1 (List.cons_prefix_cons.mp hbegin).1

theorem chopped_eq (h : protocolOf url ≠ some (js "javascript:")) :
    chopped b url = (afterHost b url).take (cut delims (afterHost b url)) := by
  rw [chopped]
  refine if_neg ?_
  rcases hp : protocolOf url with _ | p
  · exact Bool.false_ne_true
  · intro hlisted
    rcases List.mem_cons.mp (of_decide_eq_true hlisted) with rfl | hmem
    · obtain ⟨name, heq, -⟩ := (protocolOf_eq_some_iff.mp hp).2
      exact absurd (congrArg List.getLast? heq) (by rw [List.getLast?_concat]; decide)
    · exact h (hp.trans (congrArg some (List.mem_singleton.mp hmem)))

theorem isDelimiter_eq_false_iff {u : UInt16} :
    isDelimiter u = false ↔ u ∉ delimUnits ∧ isWhite u = false := by
  rw [isDelimiter, Bool.or_eq_false_iff, decide_eq_false_iff_not]

/-- Without white space, the first delimiter is the first of the units. -/
theorem takeWhile_isDelimiter (h : ∀ u ∈ s.takeWhile (· ∉ delimUnits), isWhite u = false) :
    s.takeWhile (!isDelimiter ·) = s.takeWhile (· ∉ delimUnits) := by
  induction s with
  | nil => rfl
  | cons u s ih =>
    by_cases hu : u ∈ delimUnits
    · rw [List.takeWhile_cons_of_neg (by simp [isDelimiter, hu]),
        List.takeWhile_cons_of_neg (by simpa using hu)]
    · rw [List.takeWhile_cons_of_pos (by simpa using hu)] at h
      obtain ⟨hwhite, h⟩ := List.forall_mem_cons.mp h
      have hclean : (!isDelimiter u) = true := by
        rw [isDelimiter_eq_false_iff.mpr ⟨hu, hwhite⟩]
        rfl
      rw [List.takeWhile_cons_of_pos (by rw [hclean]), ih h,
        List.takeWhile_cons_of_pos (by simpa using hu)]

/-- All that is left is in one of the parts. -/
theorem KeepsOut.chopped (hkeeps : KeepsOut url) {u : UInt16} (hu : u ∈ chopped false url) :
    isDelimiter u = false := by
  obtain ⟨hclean, -⟩ := hkeeps
  rw [← rest_eq (Urls.chopped false url), List.mem_append, List.mem_append] at hu
  rcases hu with (hu | hu) | hu
  · refine hclean (urlParse false url).pathname (by simp) u ?_
    show u ∈ (pathnameOf _ _ _).getD []
    rw [pathnameOf, if_pos (List.ne_nil_of_mem hu)]
    exact hu
  · exact hclean (urlParse false url).search (by simp) u hu
  · exact hclean (urlParse false url).hash (by simp) u hu

/-- It is cut at one of the units, or else the regular expression follows. -/
theorem chopped_or (h : protocolOf url ≠ some (js "javascript:"))
    (hclean : ∀ u ∈ chopped false url, isDelimiter u = false) :
    chopped false url = (afterHost false url).takeWhile (· ∉ delimUnits) ∨
      chopped false url ++ whiteRe <+: (afterHost false url).takeWhile (!isDelimiter ·) := by
  rw [or_iff_not_imp_left]
  intro hne
  have hall : ∀ u ∈ chopped false url ++ whiteRe, (!isDelimiter u) = true := by
    rw [List.forall_mem_append]
    exact ⟨fun u hu ↦ by rw [hclean u hu]; rfl, by decide⟩
  rw [prefix_takeWhile_iff hall]
  rw [chopped_eq false h] at hne ⊢
  have hdrop := whiteRe_prefix_drop hne
  have happend := (List.prefix_append_right_inj
    ((afterHost false url).take (cut delims (afterHost false url)))).mpr hdrop
  rwa [List.take_append_drop] at happend

theorem KeepsOut.chopped_eq (h : protocolOf url ≠ some (js "javascript:"))
    (hkeeps : KeepsOut url) :
    Urls.chopped false url = (afterHost false url).takeWhile (!isDelimiter ·) := by
  have hclean : ∀ u ∈ Urls.chopped false url, isDelimiter u = false := fun _ ↦ hkeeps.chopped
  have hbegin : Urls.chopped false url <+: (afterHost false url).takeWhile (!isDelimiter ·) :=
    (prefix_takeWhile_iff fun u hu ↦ by rw [hclean u hu]; rfl).mpr (chopped_isPrefix false url)
  obtain ⟨-, hpath, hsearch, hhash⟩ := hkeeps
  rcases eq_of_parts hbegin hpath hsearch hhash with heq | ⟨hnil, hslash⟩
  · exact heq
  · -- a single slash is left, which no delimiter follows at once
    rcases chopped_or h hclean with hwhole | hwhite
    · have hone : [slash] <+: (afterHost false url).takeWhile (· ∉ delimUnits) := by
        rw [prefix_takeWhile_iff (by decide), ← hslash]
        exact List.takeWhile_prefix _
      rw [← hwhole, hnil] at hone
      exact absurd hone.length_le (by decide)
    · rw [hnil, hslash] at hwhite
      exact absurd hwhite.length_le (by decide)

/-- **Delimiters are kept out** of a url exactly when there is neither white space nor the text of
the regular expression in front of the first delimiter that is a single character. -/
theorem keepsOut_iff (h : protocolOf url ≠ some (js "javascript:")) :
    KeepsOut url ↔ (∀ u ∈ body url, isWhite u = false) ∧ ¬whiteRe <:+: body url := by
  rw [whiteRe_infix_body, ← take_cut_delims_iff, ← chopped_eq false h, body_eq,
    List.forall_mem_append]
  constructor
  · intro hkeeps
    have hclean : ∀ u ∈ chopped false url, isDelimiter u = false := fun _ ↦ hkeeps.chopped
    have hwhole := (chopped_or h hclean).resolve_right fun hbegin ↦ by
      rw [← hkeeps.chopped_eq h] at hbegin
      have hlength := hbegin.length_le
      rw [List.length_append] at hlength
      exact absurd hlength (Nat.not_le.mpr (Nat.lt_add_of_pos_right (by decide)))
    refine ⟨⟨fun u hu ↦ ?_, fun u hu ↦ ?_⟩, hwhole⟩
    · exact (isDelimiter_eq_false_iff.mp
        (hkeeps.1 (hostOf false url) List.mem_cons_self u hu)).2
    · rw [← hwhole] at hu
      exact (isDelimiter_eq_false_iff.mp (hclean u hu)).2
  · rintro ⟨⟨hhost, hwhite⟩, hwhole⟩
    have hrest : ∀ u ∈ chopped false url, isDelimiter u = false := by
      rw [hwhole]
      exact fun u hu ↦ isDelimiter_eq_false_iff.mpr
        ⟨by simpa using List.mem_takeWhile_imp hu, hwhite u hu⟩
    rw [KeepsOut, takeWhile_isDelimiter hwhite, ← hwhole]
    refine ⟨?_, rfl, rfl, rfl⟩
    simp only [List.forall_mem_cons]
    have hparts := rest_eq (chopped false url)
    refine ⟨fun u hu ↦ ?_, fun u hu ↦ ?_, fun u hu ↦ ?_, fun u hu ↦ ?_, by simp⟩
    · exact isDelimiter_eq_false_iff.mpr
        ⟨fun hmem ↦ mem_host false url hu (List.mem_append_right _ hmem), hhost u hu⟩
    · rcases mem_of_mem_pathnameOf hu with hu | rfl
      · exact hrest u hu
      · rfl
    · refine hrest u ?_
      rw [← hparts]
      exact List.mem_append_left _ (List.mem_append_right _ hu)
    · refine hrest u ?_
      rw [← hparts]
      exact List.mem_append_right _ hu

theorem quoted_url : KeepsOut (js "http://a.com/b?c#d\"e f") :=
  (keepsOut_iff (by decide)).mpr ⟨by decide, by decide⟩

/-- A space is kept, and the text of the regular expression is cut off. -/
theorem spaced_url :
    protocolOf (js "http://a.com/b c") ≠ some (js "javascript:") ∧
      ¬KeepsOut (js "http://a.com/b c") ∧ ¬KeepsOut (js "http://a.com/b/\\s/c") := by
  refine ⟨by decide, fun h ↦ ?_, fun h ↦ ?_⟩
  · have hspace := h.1 (some (js "/b c")) (by decide) 0x20 (by decide)
    exact absurd hspace (by decide)
  · exact absurd h.2.1 (by decide)

end SpiderNode.Urls
