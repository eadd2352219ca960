import SpiderNode.Urls.Delimiters

/-!
# Formatting a url

`format` puts together what `parse` has taken apart, but for a slash that it may put in between the
host and the rest, and for the end that was chopped off. What it writes is read again in the same
way. There is one exception, a url without a protocol of which the slashes were read only because of
a user in it: when the user is cut off or gets a slash in front of it, the text has no host any more
and is all path.

`urlFormatString_urlFormatString` says that a formatted url stays as it is.
-/

namespace SpiderNode.Urls

open Files (slash)
open Regex Pattern

variable {b : Bool} {url p s t : JSString}

/-! ## What is written -/

/-- The slash that is put in front of `rest`. -/
def inserted (slashes : Bool) (protocol hostname : Option JSString) (rest : JSString) : JSString :=
  if pathOf rest = [] then
    if listed slashedProtocol protocol && hostname.getD [] ≠ [] then [slash] else []
  else if slashes ∧ (pathOf rest).head? ≠ some slash then [slash]
  else []

theorem inserted_or (slashes : Bool) (protocol hostname : Option JSString) (rest : JSString) :
    inserted slashes protocol hostname rest = [] ∨
      inserted slashes protocol hostname rest = [slash] := by
  rw [inserted]
  split_ifs
  · exact .inr rfl
  · exact .inl rfl
  · exact .inr rfl
  · exact .inl rfl

/-- There is none in front of a slash. -/
theorem inserted_inserted (slashes : Bool) (protocol hostname : Option JSString)
    (rest : JSString) :
    inserted slashes protocol hostname (inserted slashes protocol hostname rest ++ rest) = [] := by
  rcases inserted_or slashes protocol hostname rest with h | h
  · rw [h, List.nil_append, h]
  · rw [h, inserted, List.singleton_append, pathOf_cons (by decide), if_neg (List.cons_ne_nil _ _)]
    exact if_neg fun h ↦ h.2 rfl

/-- Neither is there without a host, unless the slashes are written. -/
theorem inserted_false (protocol : Option JSString) (rest : JSString) :
    inserted false protocol none rest = [] := by
  rw [inserted]
  simp

theorem withFirst_of_head {u : UInt16} (h : ∀ v ∈ s.head?, v = u) : withFirst u s = s := by
  rw [withFirst]
  refine if_neg ?_
  rintro ⟨hne, hhead⟩
  obtain ⟨v, s, rfl⟩ := List.exists_cons_of_ne_nil hne
  exact hhead (congrArg some (h v rfl))

theorem withFirst_splitAtUnit (u : UInt16) (s : JSString) :
    withFirst u ((splitAtUnit u s).2.getD []) = (splitAtUnit u s).2.getD [] := by
  refine withFirst_of_head fun v hv ↦ ?_
  rcases h : (splitAtUnit u s).2 with _ | r
  · rw [h] at hv
    exact absurd hv (by simp)
  · rw [h, Option.getD_some, head?_splitAtUnit h] at hv
    exact (Option.some.inj hv).symm

/-- The path as it is written. -/
theorem pathname_eq (slashes : Bool) (protocol hostname : Option JSString) (rest : JSString) :
    (if slashes then withFirst slash ((pathnameOf protocol hostname rest).getD [])
      else (pathnameOf protocol hostname rest).getD []) =
      inserted slashes protocol hostname rest ++ pathOf rest := by
  rw [pathnameOf, inserted]
  by_cases hpath : pathOf rest = []
  · rw [if_neg (not_not.mpr hpath), if_pos hpath, hpath]
    -- the path `/`, or none
    split_ifs
    · rfl
    · rfl
    · rfl
    · rfl
  · rw [if_pos hpath, if_neg hpath, Option.getD_some]
    rcases slashes with _ | _
    · rw [if_neg Bool.false_ne_true, if_neg fun h ↦ Bool.false_ne_true h.1]
      rfl
    · rw [if_pos rfl, withFirst]
      by_cases hhead : (pathOf rest).head? = some slash
      · rw [if_neg fun h ↦ h.2 hhead, if_neg fun h ↦ h.2 hhead]
        rfl
      · rw [if_pos ⟨hpath, hhead⟩, if_pos ⟨rfl, hhead⟩]
        rfl

theorem protocol_append (url : JSString) :
    (protocolOf url).getD [] ++ afterProtocol url = url := by
  rw [afterProtocol]
  rcases h : protocolOf url with _ | p
  · rfl
  · obtain ⟨r, hr⟩ := (protocolOf_eq_some_iff.mp h).1
    rw [Option.getD_some, ← hr, List.drop_left]

def slashesText (b : Bool) (url : JSString) : JSString :=
  if slashesOf b url then [slash, slash] else []

theorem slashes_append (b : Bool) (url : JSString) :
    slashesText b url ++ afterSlashes b url = afterProtocol url := by
  rw [slashesText, afterSlashes]
  split_ifs with h
  · rw [slashesOf, seesSlashes, Bool.and_eq_true, Bool.and_eq_true, decide_eq_true_eq] at h
    rw [← h.1.2, List.take_append_drop]
  · rfl

theorem isSome_hostOf (b : Bool) (url : JSString) :
    (hostOf b url).isSome = hasHost b url := by
  rw [hostOf]
  split_ifs with h
  · exact h.symm
  · exact (Bool.eq_false_iff.mpr h).symm

theorem hasHost_eq (b : Bool) (url : JSString) :
    hasHost b url = (slashesOf b url || ((protocolOf url).isSome &&
      !listed slashedProtocol (protocolOf url) && !listed hostlessProtocol (protocolOf url))) := by
  rw [hasHost, slashesOf]
  rcases listed hostlessProtocol (protocolOf url) with _ | _
  · simp
  · simp

/-- `format` writes the slashes that `parse` has read, and no others. -/
theorem slashed_eq (b : Bool) (url : JSString) :
    (slashesOf b url || ((protocolOf url).getD [] = [] ||
      listed slashedProtocol (some ((protocolOf url).getD []))) && (hostOf b url).isSome) =
      slashesOf b url := by
  rw [isSome_hostOf, hasHost_eq]
  rcases slashesOf b url with _ | _
  · rcases h : protocolOf url with _ | p
    · rfl
    · have hp : p ≠ [] := by
        obtain ⟨name, rfl, -⟩ := (protocolOf_eq_some_iff.mp h).2
        exact List.concat_ne_nil _ _
      rw [Option.getD_some, decide_eq_false hp]
      rcases listed slashedProtocol (some p) with _ | _
      · rfl
      · rfl
  · rfl

theorem protocol_colon (url : JSString) :
    ¬((protocolOf url).getD [] ≠ [] ∧ ((protocolOf url).getD []).getLast? ≠ some 0x3A) := by
  rintro ⟨hne, hlast⟩
  rcases h : protocolOf url with _ | p
  · rw [h] at hne
    exact hne rfl
  · obtain ⟨name, rfl, -⟩ := (protocolOf_eq_some_iff.mp h).2
    rw [h, Option.getD_some, List.getLast?_concat] at hlast
    exact hlast rfl

/-- `format` of an object whose protocol ends with a colon, and whose slashes are those that are
written. -/
theorem urlFormat_of_slashes {obj : Url}
    (hcolon : ¬(obj.protocol.getD [] ≠ [] ∧ (obj.protocol.getD []).getLast? ≠ some 0x3A))
    (hhost : obj.host = none → obj.hostname = none)
    (hslashes : (obj.slashes || (obj.protocol.getD [] = [] ||
      listed slashedProtocol (some (obj.protocol.getD []))) && obj.host.isSome) = obj.slashes) :
    urlFormat obj = obj.protocol.getD [] ++ (if obj.slashes then js "//" else []) ++
      obj.host.getD [] ++
      (if obj.slashes then withFirst slash (obj.pathname.getD []) else obj.pathname.getD []) ++
      withFirst 0x3F (obj.search.getD []) ++ withFirst 0x23 (obj.hash.getD []) := by
  obtain ⟨protocol, slashes, host, auth, port, hostname, hash, search, query, pathname, href⟩ := obj
  dsimp only at hcolon hhost hslashes
  unfold urlFormat
  dsimp only
  rw [if_neg hcolon]
  rcases host with _ | host
  · obtain rfl := hhost rfl
    dsimp only
    rw [hslashes]
  · dsimp only
    rw [hslashes]

/-- What `format` writes. -/
theorem urlFormat_urlParse (b : Bool) (url : JSString) :
    urlFormat (urlParse b url) = (protocolOf url).getD [] ++ slashesText b url ++
      (hostOf b url).getD [] ++
      (inserted (slashesOf b url) (protocolOf url) (hostnameOf b url) (chopped b url) ++
        chopped b url) := by
  have hname (h : hostOf b url = none) : hostnameOf b url = none := by
    rw [hostnameOf, h, Option.map_none]
  have hsearch := withFirst_splitAtUnit 0x3F (splitAtUnit 0x23 (chopped b url)).1
  have hhash := withFirst_splitAtUnit 0x23 (chopped b url)
  rw [← searchOf] at hsearch
  rw [← hashOf] at hhash
  rw [urlFormat_of_slashes (protocol_colon url) hname (slashed_eq b url)]
  show (protocolOf url).getD [] ++ slashesText b url ++ (hostOf b url).getD [] ++
    (if slashesOf b url then withFirst slash ((pathnameOf (protocolOf url) (hostnameOf b url)
      (chopped b url)).getD []) else (pathnameOf (protocolOf url) (hostnameOf b url)
      (chopped b url)).getD []) ++
    withFirst 0x3F ((searchOf (chopped b url)).getD []) ++
    withFirst 0x23 ((hashOf (chopped b url)).getD []) = _
  have hrest := rest_eq (chopped b url)
  rw [pathname_eq, hsearch, hhash]
  simp only [List.append_assoc] at hrest ⊢
  rw [hrest]

/-! ## What is read again -/

theorem isSome_exec_iff {α β : Type} {m : Pattern α β} {s : List α} :
    (m.exec s).isSome = true ↔ ∃ b r, (b, r) ∈ m s := by
  rw [Option.isSome_iff_ne_none, ne_eq, exec_eq_none_iff]
  simp only [not_forall, not_not]

/-- What `userPattern` matches. -/
theorem mem_userPattern {u : Unit} {s r : JSString} :
    (u, r) ∈ userPattern s ↔ ∃ user host, s = slash :: slash :: (user ++ 0x40 :: (host ++ r)) ∧
      (user ≠ [] ∧ ∀ v ∈ user, (decide (v ≠ 0x40) && decide (v ≠ slash)) = true) ∧
      host ≠ [] ∧ ∀ v ∈ host, (decide (v ≠ 0x40) && decide (v ≠ slash)) = true := by
  rw [userPattern, mem_bind]
  constructor
  · rintro ⟨_, _, hone, hrest⟩
    obtain ⟨_, _, htwo, hrest⟩ := mem_bind.mp hrest
    obtain ⟨user, _, huser, hrest⟩ := mem_bind.mp hrest
    obtain ⟨_, _, hat, hrest⟩ := mem_bind.mp hrest
    obtain ⟨host, _, hhost, hpure⟩ := mem_bind.mp hrest
    obtain ⟨-, rfl⟩ := mem_pure.mp hpure
    obtain ⟨rfl, hhost'⟩ := mem_plus.mp hhost
    obtain ⟨rfl, hat'⟩ := mem_one.mp hat
    obtain ⟨rfl, huser'⟩ := mem_plus.mp huser
    obtain ⟨rfl, htwo'⟩ := mem_one.mp htwo
    obtain ⟨rfl, hone'⟩ := mem_one.mp hone
    rw [of_decide_eq_true hone', of_decide_eq_true htwo', of_decide_eq_true hat']
    exact ⟨user, host, rfl, huser', hhost'⟩
  · rintro ⟨user, host, rfl, huser, hhost⟩
    refine ⟨slash, _, mem_one.mpr ⟨rfl, rfl⟩, mem_bind.mpr ⟨slash, _, mem_one.mpr ⟨rfl, rfl⟩, ?_⟩⟩
    refine mem_bind.mpr ⟨user, _, mem_plus.mpr ⟨rfl, huser⟩, ?_⟩
    refine mem_bind.mpr ⟨0x40, _, mem_one.mpr ⟨rfl, rfl⟩, ?_⟩
    exact mem_bind.mpr ⟨host, r, mem_plus.mpr ⟨rfl, hhost⟩, mem_pure.mpr ⟨rfl, rfl⟩⟩

theorem isSome_userPattern_append (h : (userPattern.exec s).isSome = true) (t : JSString) :
    (userPattern.exec (s ++ t)).isSome = true := by
  obtain ⟨u, r, hmem⟩ := isSome_exec_iff.mp h
  obtain ⟨user, host, rfl, huser, hhost⟩ := mem_userPattern.mp hmem
  refine isSome_exec_iff.mpr ⟨u, r ++ t, mem_userPattern.mpr ⟨user, host, ?_, huser, hhost⟩⟩
  simp

variable {w : JSString}

/-- If slashes are seen in the beginning of a text, then also in the text. -/
theorem seesSlashes_of_prefix (hp : protocolOf w = protocolOf url)
    (hbegin : afterProtocol w <+: afterProtocol url) (h : seesSlashes b w = true) :
    seesSlashes b url = true := by
  rw [seesSlashes, Bool.and_eq_true, decide_eq_true_eq] at h ⊢
  obtain ⟨r, hr⟩ := hbegin
  constructor
  · rw [Bool.or_eq_true, Bool.or_eq_true] at h ⊢
    rw [← hp, ← hr]
    exact h.1.imp_right fun huser ↦ isSome_userPattern_append huser r
  · have htwo : [slash, slash] <+: afterProtocol w := by
      rw [← h.2]
      exact List.take_prefix _ _
    exact (List.prefix_iff_eq_take.mp (htwo.trans ⟨r, hr⟩)).symm

theorem afterProtocol_of_eq (h : w = (protocolOf w).getD [] ++ s) : afterProtocol w = s := by
  have happend := protocol_append w
  exact List.append_cancel_left (happend.trans h)

theorem host_of_eq (h : hasHost b w = true) (hrest : afterSlashes b w = s ++ t)
    (hs : ∀ v ∈ s, v ∉ nonHostUnits) (ht : ∀ v ∈ t.head?, v ∈ nonHostUnits) :
    hostOf b w = some s ∧ afterHost b w = t := by
  obtain ⟨htake, hdrop⟩ := takeWhile_append_of_head (p := (· ∉ nonHostUnits)) t
    (fun v hv ↦ decide_eq_true (hs v hv)) (fun v hv ↦ decide_eq_false (not_not.mpr (ht v hv)))
  rw [hostOf, afterHost, if_pos h, if_pos h, hrest, (cut_nonHostChars _).1, (cut_nonHostChars _).2,
    htake, hdrop]
  exact ⟨rfl, rfl⟩

theorem host_of_not (h : hasHost b w = false) :
    hostOf b w = none ∧ afterHost b w = afterSlashes b w := by
  rw [hostOf, afterHost, h]
  exact ⟨rfl, rfl⟩

/-- There is nothing to chop off. -/
def Settled (protocol : Option JSString) (rest : JSString) : Prop :=
  listed unsafeProtocol protocol = true ∨ (∀ u ∈ rest, u ∉ delimUnits) ∧ 0x5C ∉ rest

theorem Settled.chopped (h : Settled (protocolOf w) (afterHost b w)) :
    chopped b w = afterHost b w := by
  rw [Urls.chopped]
  split_ifs with hunsafe
  · rfl
  · obtain ⟨hclean, hback⟩ := h.resolve_left hunsafe
    rw [take_cut_delims_of_notMem hback, List.takeWhile_eq_self_iff]
    exact fun u hu ↦ decide_eq_true (hclean u hu)

theorem mem_of_mem_afterHost {u : UInt16} (h : u ∈ afterHost b url) : u ∈ url := by
  rw [← protocol_append url, ← slashes_append b url, ← host_append b url]
  simp [h]

theorem settled_chopped (h : 0x5C ∉ url) : Settled (protocolOf url) (Urls.chopped b url) := by
  rw [Settled, or_iff_not_imp_left]
  intro hunsafe
  have hback : 0x5C ∉ afterHost b url := fun hmem ↦ h (mem_of_mem_afterHost hmem)
  rw [Urls.chopped, if_neg hunsafe, take_cut_delims_of_notMem hback]
  refine ⟨fun u hu ↦ by simpa using List.mem_takeWhile_imp hu, fun hmem ↦ hback ?_⟩
  exact (List.takeWhile_prefix _).subset hmem

/-- It is enough that the protocol, the slashes and the host are read again, and that the rest is
read with the slash that was put in. -/
theorem urlFormat_of_reread (hp : protocolOf w = protocolOf url)
    (hslashes : slashesOf b w = slashesOf b url) (hhost : hostOf b w = hostOf b url)
    (hrest : Urls.chopped b w = inserted (slashesOf b url) (protocolOf url) (hostnameOf b url)
      (Urls.chopped b url) ++ Urls.chopped b url) :
    urlFormat (urlParse b w) = urlFormat (urlParse b url) := by
  have hname : hostnameOf b w = hostnameOf b url := by rw [hostnameOf, hostnameOf, hhost]
  rw [urlFormat_urlParse, urlFormat_urlParse, slashesText, slashesText, hp, hslashes, hhost, hname,
    hrest, inserted_inserted]
  rfl

/-- What follows a host, with the slash put in, begins with a character that ends the host. -/
theorem head_inserted (h : hasHost b url = true) (slashes : Bool)
    (protocol hostname : Option JSString) :
    ∀ v ∈ (inserted slashes protocol hostname (Urls.chopped b url) ++
      Urls.chopped b url).head?, v ∈ nonHostUnits := by
  intro v hv
  rcases inserted_or slashes protocol hostname (Urls.chopped b url) with hi | hi
  · rw [hi, List.nil_append] at hv
    obtain ⟨r, hr⟩ := chopped_isPrefix b url
    obtain ⟨t, ht⟩ := List.head?_eq_some_iff.mp hv
    rw [ht, afterHost, if_pos h, (cut_nonHostChars _).2] at hr
    have hhead := List.head?_dropWhile_not (· ∉ nonHostUnits) (afterSlashes b url)
    rw [← hr] at hhead
    simpa using hhead
  · rw [hi] at hv
    obtain rfl : slash = v := Option.some.inj hv
    decide

theorem settled_inserted (h : 0x5C ∉ url) (slashes : Bool) (protocol hostname : Option JSString) :
    Settled (protocolOf url)
      (inserted slashes protocol hostname (Urls.chopped b url) ++ Urls.chopped b url) := by
  refine (settled_chopped (b := b) h).imp_right fun hsettled ↦ ?_
  rcases inserted_or slashes protocol hostname (Urls.chopped b url) with hi | hi
  · rwa [hi]
  · rw [hi, List.singleton_append, List.forall_mem_cons, List.mem_cons, not_or]
    exact ⟨⟨by decide, hsettled.1⟩, by decide, hsettled.2⟩

theorem protocolOf_append {p : Option JSString} (h : protocolOf url = p) (hp : p ≠ none)
    (s : JSString) : protocolOf (p.getD [] ++ s) = p := by
  obtain ⟨p, rfl⟩ := Option.ne_none_iff_exists'.mp hp
  exact protocolOf_eq_some_iff.mpr ⟨List.prefix_append p s, (protocolOf_eq_some_iff.mp h).2⟩

theorem protocolOf_slash (s : JSString) : protocolOf (slash :: s) = none := by
  rcases h : protocolOf (slash :: s) with _ | p
  · rfl
  · obtain ⟨hbegin, name, rfl, hne, hname⟩ := protocolOf_eq_some_iff.mp h
    obtain ⟨u, name, rfl⟩ := List.exists_cons_of_ne_nil hne
    obtain rfl := (List.cons_prefix_cons.mp hbegin).1
    exact absurd (hname slash List.mem_cons_self) (by decide)

/-- A text of which the slashes are not read is all path. -/
theorem urlFormat_of_path (hp : protocolOf (slash :: s) = none)
    (hsees : seesSlashes b (slash :: s) = false)
    (hsettled : Settled none (slash :: s)) :
    urlFormat (urlParse b (slash :: s)) = slash :: s := by
  have hslashes : slashesOf b (slash :: s) = false := by rw [slashesOf, hsees, Bool.false_and]
  have hhas : hasHost b (slash :: s) = false := by rw [hasHost_eq, hslashes, hp]; rfl
  obtain ⟨hhost, hafter⟩ := host_of_not hhas
  have hrest : afterHost b (slash :: s) = slash :: s := by
    rw [hafter, afterSlashes, hslashes, if_neg Bool.false_ne_true]
    exact afterProtocol_of_eq (by rw [hp]; rfl)
  have hchopped := Settled.chopped (w := slash :: s) (b := b) (by rw [hp, hrest]; exact hsettled)
  have hname : hostnameOf b (slash :: s) = none := by rw [hostnameOf, hhost, Option.map_none]
  rw [urlFormat_urlParse, slashesText, hchopped, hrest, hp, hhost, hname, hslashes, inserted_false]
  rfl

/-- A url with slashes. -/
theorem stable_of_slashes (h : 0x5C ∉ url) (hslashes : slashesOf b url = true) :
    urlFormat (urlParse b (urlFormat (urlParse b url))) = urlFormat (urlParse b url) := by
  have hhostless : listed hostlessProtocol (protocolOf url) = false := by
    rw [slashesOf, Bool.and_eq_true] at hslashes
    simpa using hslashes.2
  have hhas : hasHost b url = true := by rw [hasHost_eq, hslashes, Bool.true_or]
  obtain ⟨host, hhost⟩ := Option.isSome_iff_exists.mp ((isSome_hostOf b url).trans hhas)
  have hunits : ∀ v ∈ host, v ∉ nonHostUnits := fun v hv ↦ mem_host b url (by rwa [hhost])
  have hhead := head_inserted hhas (slashesOf b url) (protocolOf url) (hostnameOf b url)
  have hsettled := settled_inserted (b := b) h (slashesOf b url) (protocolOf url)
    (hostnameOf b url)
  have hformat := urlFormat_urlParse b url
  generalize ht : inserted (slashesOf b url) (protocolOf url) (hostnameOf b url)
    (Urls.chopped b url) ++ Urls.chopped b url = t at hhead hsettled hformat
  rw [slashesText, if_pos hslashes, hhost, Option.getD_some, List.append_assoc,
    List.append_assoc] at hformat
  generalize hw : urlFormat (urlParse b url) = w at hformat
  have hp : protocolOf w = protocolOf url := by
    rw [hformat]
    rcases hp : protocolOf url with _ | p
    · exact protocolOf_slash _
    · exact protocolOf_append hp (by simp) _
  have hafter : afterProtocol w = [slash, slash] ++ (host ++ t) :=
    afterProtocol_of_eq (by rw [hp]; exact hformat)
  rcases hsees : seesSlashes b w with _ | _
  · -- the slashes were read because of a user, who is no longer there
    have hnone : protocolOf w = none := by
      rw [seesSlashes, hafter, Bool.and_eq_false_iff, Bool.or_eq_false_iff,
        Bool.or_eq_false_iff] at hsees
      have hsome := (hsees.resolve_right (by simp)).1.2
      simpa using hsome
    have hurl : protocolOf url = none := hp.symm.trans hnone
    rw [hurl] at hformat hsettled
    obtain ⟨hclean, hback⟩ := hsettled.resolve_left Bool.false_ne_true
    have hsettled' : Settled none (slash :: slash :: (host ++ t)) := by
      refine .inr ⟨?_, ?_⟩
      · simp only [List.forall_mem_cons, List.forall_mem_append]
        refine ⟨by decide, by decide, fun u hu hmem ↦ ?_, hclean⟩
        exact hunits u hu (List.mem_append_right _ hmem)
      · simp only [List.mem_cons, List.mem_append, not_or]
        exact ⟨by decide, by decide, fun hmem ↦ hunits _ hmem (by decide), hback⟩
    have hw' : w = slash :: slash :: (host ++ t) := hformat
    rw [hw'] at hnone hsees ⊢
    exact urlFormat_of_path hnone hsees hsettled'
  · have hslashes' : slashesOf b w = true := by rw [slashesOf, hsees, hp, hhostless]; rfl
    have hrest : afterSlashes b w = host ++ t := by
      rw [afterSlashes, if_pos hslashes', hafter]
      rfl
    have hhas' : hasHost b w = true := by rw [hasHost_eq, hslashes', Bool.true_or]
    obtain ⟨hhost', hrest'⟩ := host_of_eq hhas' hrest hunits hhead
    rw [← hp, ← hrest'] at hsettled
    refine (urlFormat_of_reread hp (hslashes'.trans hslashes.symm)
      (hhost'.trans hhost.symm) ?_).trans hw
    rw [hsettled.chopped, hrest', ht]

/-- Without slashes a host name goes with a protocol that has none. -/
theorem inserted_of_not (h : slashesOf b url = false) (rest : JSString) :
    inserted (slashesOf b url) (protocolOf url) (hostnameOf b url) rest = [] := by
  rcases hhas : hasHost b url with _ | _
  · have hname : hostnameOf b url = none := by
      rw [hostnameOf, (host_of_not hhas).1, Option.map_none]
    rw [h, hname, inserted_false]
  · rw [hasHost_eq, h, Bool.false_or, Bool.and_eq_true, Bool.and_eq_true] at hhas
    have hunlisted : listed slashedProtocol (protocolOf url) = false := by simpa using hhas.1.2
    rw [inserted, h, hunlisted]
    simp

theorem protocolOf_of_prefix (h : protocolOf url = none) (hbegin : s <+: url) :
    protocolOf s = none := by
  rcases hp : protocolOf s with _ | p
  · rfl
  · obtain ⟨hp, hprotocol⟩ := protocolOf_eq_some_iff.mp hp
    have hsome := protocolOf_eq_some_iff.mpr ⟨hp.trans hbegin, hprotocol⟩
    exact absurd (h.symm.trans hsome) (by simp)

/-- A url without slashes. Nothing is put in, so the text is a beginning of the url. -/
theorem stable_of_not (h : 0x5C ∉ url) (hslashes : slashesOf b url = false) :
    urlFormat (urlParse b (urlFormat (urlParse b url))) = urlFormat (urlParse b url) := by
  have hins := inserted_of_not hslashes (Urls.chopped b url)
  have hformat := urlFormat_urlParse b url
  have hbegin : (hostOf b url).getD [] ++ Urls.chopped b url <+: afterProtocol url := by
    rw [← slashes_append b url, slashesText, hslashes, if_neg Bool.false_ne_true, ← host_append]
    exact (List.prefix_append_right_inj _).mpr (chopped_isPrefix b url)
  rw [hins, slashesText, hslashes, if_neg Bool.false_ne_true, List.nil_append, List.append_nil,
    List.append_assoc] at hformat
  generalize hw : urlFormat (urlParse b url) = w at hformat
  have hp : protocolOf w = protocolOf url := by
    rw [hformat]
    rcases hp : protocolOf url with _ | p
    · have hurl : afterProtocol url = url := afterProtocol_of_eq (by rw [hp]; rfl)
      exact protocolOf_of_prefix hp (by rwa [hurl] at hbegin)
    · exact protocolOf_append hp (by simp) _
  have hafter : afterProtocol w = (hostOf b url).getD [] ++ Urls.chopped b url :=
    afterProtocol_of_eq (by rw [hp]; exact hformat)
  have hslashes' : slashesOf b w = false := by
    rw [slashesOf, hp]
    rcases hsees : seesSlashes b w with _ | _
    · rfl
    · rw [← hafter] at hbegin
      rw [slashesOf, seesSlashes_of_prefix hp hbegin hsees] at hslashes
      exact hslashes
  have hhas' : hasHost b w = hasHost b url := by
    rw [hasHost_eq, hasHost_eq, hslashes', hslashes, hp]
  have hrest : afterSlashes b w = (hostOf b url).getD [] ++ Urls.chopped b url := by
    rw [afterSlashes, hslashes', if_neg Bool.false_ne_true, hafter]
  have hread : hostOf b w = hostOf b url ∧ afterHost b w = Urls.chopped b url := by
    rcases hhas : hasHost b url with _ | _
    · have hnone := (host_of_not hhas).1
      obtain ⟨hhost, hafter⟩ := host_of_not (hhas'.trans hhas)
      rw [hhost, hafter, hrest, hnone]
      exact ⟨rfl, rfl⟩
    · obtain ⟨host, hhost⟩ := Option.isSome_iff_exists.mp ((isSome_hostOf b url).trans hhas)
      have hhead := head_inserted hhas (slashesOf b url) (protocolOf url) (hostnameOf b url)
      rw [hins, List.nil_append] at hhead
      rw [hhost] at hrest ⊢
      refine host_of_eq (hhas'.trans hhas) hrest (fun v hv ↦ mem_host b url ?_) hhead
      rwa [hhost]
  have hsettled := settled_chopped (b := b) h
  rw [← hp, ← hread.2] at hsettled
  refine (urlFormat_of_reread hp (hslashes'.trans hslashes.symm) hread.1 ?_).trans hw
  rw [hsettled.chopped, hread.2, hins]
  rfl

theorem urlFormat_urlFormat (h : 0x5C ∉ url) :
    urlFormat (urlParse b (urlFormat (urlParse b url))) = urlFormat (urlParse b url) := by
  rcases hslashes : slashesOf b url with _ | _
  · exact stable_of_not h hslashes
  · exact stable_of_slashes h hslashes

theorem urlFormat_withHref (obj : Url) (href : Option JSString) :
    urlFormat { obj with href := href } = urlFormat obj := rfl

theorem href_urlParse (b : Bool) (url : JSString) :
    (urlParse b url).href = some (urlFormat (urlParse b url)) :=
  congrArg some (urlFormat_withHref (taken b url) _).symm

/-- **A formatted url stays as it is**: parsing it and formatting it again changes neither the
`href` of a parsed url nor a url that `format` has cleaned up. -/
theorem href_stable (h : 0x5C ∉ url) :
    (∃ href, (urlParse false url).href = some href ∧ (urlParse false href).href = some href) ∧
      urlFormat (urlParse false (urlFormatString url)) = urlFormatString url := by
  refine ⟨⟨urlFormat (urlParse false url), href_urlParse false url, ?_⟩, urlFormat_urlFormat h⟩
  rw [href_urlParse, urlFormat_urlFormat h]

theorem href_stable_user : (∃ href, (urlParse false (js "//a;b@c")).href = some href ∧
      (urlParse false href).href = some href) ∧
    urlFormat (urlParse false (urlFormatString (js "//a;b@c"))) = urlFormatString (js "//a;b@c") :=
  href_stable (by decide)

/-- A text with a backslash can get shorter each time. -/
example : urlFormatString (js "x:y\\s/") = js "x:y\\s/" ∧
    urlFormatString (js "http://a\\s/") = js "http://a/\\s/" ∧
    urlFormatString (js "http://a/\\s/") = js "http://a/" := by decide

end SpiderNode.Urls
