import SpiderNode.Files.Resolved
import SpiderNode.Urls.DotSegments
import SpiderNode.Urls.Stable

/-!
# Resolving a url

`resolve` of `lib/url.js`. A url is resolved from another one, the source. What is missing in it at
the front is taken from the source, and if it is a relative path, it replaces what follows the last
slash of the path of the source. The dots are then taken out as `normalizeArray` of `lib/path.js`
does, in an array in which an empty string stands for a slash at the beginning or at the end.

Where the protocol of the source is not one of those with slashes, the host becomes the first part
of the path while the dots are taken out. The source calls this case `psychotic`.
-/

namespace SpiderNode.Urls

open DotSegments (text merge removeDotSegments trailing)
open Files (slash join normalizeParts)
open Trees

/-- `pathname && pathname.split('/') || []` -/
def pathParts (pathname : Option JSString) : List JSString :=
  if pathname.getD [] = [] then [] else (pathname.getD []).splitOn slash

/-- `pathname && pathname.charAt(0) === '/'` -/
def startsWithSlash (pathname : Option JSString) : Bool := (pathname.getD []).head? = some slash

/-- The first part is empty or begins with a slash. -/
def isAbsoluteParts (parts : List JSString) : Bool :=
  match parts with
  | part :: _ => part = [] || part.head? = some slash
  | [] => false

/-! ## A change of the protocol -/

/-- The loop that takes a host from a path. -/
def takeHost : List JSString → JSString × List JSString
  | part :: parts => if part = [] then takeHost parts else (part, parts)
  | [] => ([], [])

/-- The protocol of `relative` is one of those with slashes, and another than that of the source. -/
def changeProtocol (source relative : Url) : Url :=
  let (host, pathname) :=
    if relative.host.getD [] = [] && !listed hostlessProtocol relative.protocol then
      let (host, relPath) := takeHost ((relative.pathname.getD []).splitOn slash)
      let relPath := if relPath.head? ≠ some [] then [] :: relPath else relPath
      let relPath := if relPath.length < 2 then [] :: relPath else relPath
      (host, some (join relPath))
    else (relative.host.getD [], relative.pathname)
  { source with
    protocol := relative.protocol
    pathname
    search := relative.search
    query := relative.query
    host := some host
    auth := none
    hostname := none
    port := relative.port }

/-! ## The path -/

/-- Takes the dots out, and sets the slashes at both ends. -/
def dotsTakenOut (mustEndAbs removeAllDots hasTrailingSlash : Bool) (srcPath : List JSString) :
    List JSString :=
  let (kept, up) := normalizeParts srcPath
  let srcPath := if !mustEndAbs && !removeAllDots then List.replicate up (js "..") ++ kept else kept
  let srcPath := if mustEndAbs && !isAbsoluteParts srcPath then [] :: srcPath else srcPath
  if hasTrailingSlash && (join srcPath).getLast? ≠ some slash then srcPath ++ [[]] else srcPath

/-- A host that is not empty becomes the first part. -/
def hostIntoPath (host : Option JSString) (parts : List JSString) : List JSString :=
  if host.getD [] = [] then parts
  else if parts.head? = some [] then host.getD [] :: parts.tail
  else host.getD [] :: parts

/-- `urlResolveObject` from the dot handling on. -/
def withPath (psychotic mustEndAbs removeAllDots : Bool) (source relative : Url)
    (srcPath : List JSString) : Url :=
  if srcPath = [] then { source with pathname := none }
  else
    let last := srcPath.getLast?
    let hasTrailingSlash :=
      (source.host.getD [] ≠ [] || relative.host.getD [] ≠ []) &&
        (last = some (js ".") || last = some (js "..")) || last = some []
    let srcPath := dotsTakenOut mustEndAbs removeAllDots hasTrailingSlash srcPath
    let isAbsolute := isAbsoluteParts srcPath
    let host :=
      if psychotic then if isAbsolute then some [] else srcPath.head? else source.host
    let srcPath := if psychotic && !isAbsolute then srcPath.tail else srcPath
    let mustEndAbs := mustEndAbs || host.getD [] ≠ [] && srcPath ≠ []
    let srcPath := if mustEndAbs && !isAbsolute then [] :: srcPath else srcPath
    { source with host, pathname := some (join srcPath) }

/-- `urlResolveObject` where the protocol stays. -/
def resolvePath (source relative : Url) : Url :=
  let isRelAbs := relative.host.isSome || startsWithSlash relative.pathname
  let removeAllDots := isRelAbs || startsWithSlash source.pathname ||
    source.host.getD [] ≠ [] && relative.pathname.getD [] ≠ []
  let psychotic := source.protocol.isSome && !listed slashedProtocol source.protocol &&
    source.host.isSome
  let srcPath := if psychotic then hostIntoPath source.host (pathParts source.pathname)
    else pathParts source.pathname
  let relPath := if psychotic && relative.protocol.isSome
    then hostIntoPath relative.host (pathParts relative.pathname)
    else pathParts relative.pathname
  let source := if psychotic
    then { source with hostname := none, auth := none, port := none, host := none } else source
  let relative := if psychotic && relative.protocol.isSome
    then { relative with hostname := none, auth := none, port := none, host := none } else relative
  let mustEndAbs := removeAllDots &&
    (!psychotic || relPath.head? = some [] || srcPath.head? = some [])
  if isRelAbs then
    let source := { source with
      host := relative.host <|> source.host, search := relative.search, query := relative.query }
    withPath psychotic mustEndAbs removeAllDots source relative relPath
  else if relPath ≠ [] then
    let source := { source with search := relative.search, query := relative.query }
    withPath psychotic mustEndAbs removeAllDots source relative (srcPath.dropLast ++ relPath)
  else if relative.search.isSome then
    { source with
      host := if psychotic then srcPath.head? else source.host
      search := relative.search
      query := relative.query }
  else withPath psychotic mustEndAbs removeAllDots source relative srcPath

/-! ## `resolve` -/

/-- `urlResolveObject` of what has been parsed. -/
def urlResolveObject (source relative : Url) : Url :=
  let source := { source with hash := relative.hash }
  if relative.href = some [] then source
  else if relative.slashes && relative.protocol.isNone then
    { relative with protocol := source.protocol }
  else if relative.protocol.isSome && relative.protocol ≠ source.protocol then
    if listed slashedProtocol relative.protocol then changeProtocol source relative else relative
  else resolvePath source relative

/-- `urlResolve` of strings. -/
def urlResolve (source relative : JSString) : JSString :=
  if source = [] then urlFormatString relative
  else urlFormat (urlResolveObject (urlParse true (urlFormatString source))
    (urlParse true (urlFormatString relative)))

/-! ## Dots -/

def dot : UInt16 := 0x2E

theorem step_eq : Files.step = DotSegments.step dot := rfl

/-- Parts in front of which there is an empty one. -/
theorem join_nil_cons (l : List JSString) : join ([] :: l) = text slash l := by
  rcases eq_or_ne l [] with rfl | hne
  · rfl
  · rw [join, List.intercalate_cons_of_ne_nil hne, DotSegments.text_eq_intercalate slash hne]
    rfl

variable {l : List JSString} {last : JSString}

/-- The steps down, if the last part is a name or empty. -/
theorem downs_concat (l : List JSString) (hlast : ¬(last = [dot] ∨ last = [dot, dot])) :
    (net ((l ++ [last]).map Files.step)).downs = (net (l.map Files.step)).downs ++ [last] := by
  rw [not_or] at hlast
  have hstep : Files.step last = .down last := by
    rw [step_eq, DotSegments.step, if_neg hlast.1, if_neg hlast.2]
  rw [List.map_append, net_append, List.map_singleton, hstep, net_cons, net_nil, mul_one,
    Net.downs_mul]
  show List.take (_ - 0) _ ++ [last] = _
  rw [Nat.sub_zero, List.take_length]

theorem mem_downs {q : JSString} (h : q ∈ (net (l.map Files.step)).downs) :
    q ∈ l ∧ ¬(q = [dot] ∨ q = [dot, dot]) := by
  obtain ⟨part, hpart, hstep⟩ := List.mem_map.mp (mem_downs_net h)
  rw [step_eq, DotSegments.step] at hstep
  split_ifs at hstep with hone htwo
  obtain rfl := Step.down.inj hstep
  exact ⟨hpart, not_or.mpr ⟨hone, htwo⟩⟩

/-- An empty part is the last one. -/
theorem nil_mem_downs (hl : ∀ q ∈ l, q ≠ [])
    (h : [] ∈ (net ((l ++ [last]).map Files.step)).downs) : last = [] := by
  rcases List.mem_append.mp (mem_downs h).1 with hmem | hmem
  · exact absurd rfl (hl [] hmem)
  · exact (List.mem_singleton.mp hmem).symm

theorem getLast_downs (hl : ∀ q ∈ l, q ≠ []) (last : JSString) :
    (net ((l ++ [last]).map Files.step)).downs.getLast? = some [] ↔ last = [] := by
  constructor
  · exact fun h ↦ nil_mem_downs hl (List.mem_of_getLast? h)
  · rintro rfl
    rw [downs_concat l (by simp), List.getLast?_concat]

theorem head_downs (hl : ∀ q ∈ l, q ≠ [])
    (h : (net ((l ++ [last]).map Files.step)).downs.head? = some []) :
    (net ((l ++ [last]).map Files.step)).downs = [[]] := by
  obtain rfl := nil_mem_downs hl (List.mem_of_head? h)
  rw [downs_concat l (by simp)] at h ⊢
  rcases hdowns : (net (l.map Files.step)).downs with _ | ⟨q, downs⟩
  · rfl
  · rw [hdowns] at h
    have hq : q ∈ l := (mem_downs (hdowns ▸ List.mem_cons_self)).1
    exact absurd (Option.some.inj h) (hl q hq)

theorem getLast_text (hl : ∀ q ∈ l, slash ∉ q) :
    (text slash l).getLast? = some slash ↔ l.getLast? = some [] := by
  rcases List.eq_nil_or_concat l with rfl | ⟨l, q, rfl⟩
  · exact iff_of_false (by simp [text]) (by simp)
  · rw [List.concat_eq_append] at hl ⊢
    rw [DotSegments.text_concat, List.getLast?_concat, Option.some_inj, List.getLast?_append]
    rcases List.eq_nil_or_concat q with rfl | ⟨q, u, rfl⟩
    · exact iff_of_true rfl rfl
    · have hu : u ≠ slash := fun heq ↦ hl (q.concat u) (by simp) (by simp [heq])
      refine iff_of_false ?_ (by simp)
      rw [List.concat_eq_append, ← List.cons_append, List.getLast?_concat]
      exact fun h ↦ hu (Option.some.inj h)

/-- An empty part is put in front of parts that do not begin with one. -/
def withRoot (parts : List JSString) : List JSString :=
  if !isAbsoluteParts parts then [] :: parts else parts

theorem dotsTakenOut_of_mustEndAbs (hasTrailingSlash : Bool) (srcPath : List JSString) :
    dotsTakenOut true true hasTrailingSlash srcPath =
      if hasTrailingSlash && (join (withRoot (normalizeParts srcPath).1)).getLast? ≠ some slash
      then withRoot (normalizeParts srcPath).1 ++ [[]] else withRoot (normalizeParts srcPath).1 :=
  rfl

theorem withRoot_of_head (h : ∀ q ∈ l.head?, q ≠ [] ∧ slash ∉ q) : withRoot l = [] :: l := by
  rcases l with _ | ⟨q, l⟩
  · rfl
  · obtain ⟨hne, hslash⟩ := h q rfl
    have hhead : q.head? ≠ some slash := fun h ↦ hslash (List.mem_of_head? h)
    rw [withRoot, isAbsoluteParts, decide_eq_false hne, decide_eq_false hhead]
    rfl

/-- The empty part in front is there again, or it is the last one. -/
theorem withRoot_or (hl : ∀ q ∈ l, q ≠ []) (hslash : ∀ q ∈ l ++ [last], slash ∉ q) :
    withRoot (normalizeParts ([] :: (l ++ [last]))).1 =
        [] :: (net ((l ++ [last]).map Files.step)).downs ∨
      withRoot (normalizeParts ([] :: (l ++ [last]))).1 = [[]] ∧
        (net ((l ++ [last]).map Files.step)).downs = [[]] := by
  have hhead : (net ((l ++ [last]).map Files.step)).downs.head? = some [] → _ := head_downs hl
  have hmem (q : JSString) (hq : q ∈ (net ((l ++ [last]).map Files.step)).downs) : slash ∉ q :=
    hslash q (mem_downs hq).1
  have hkept : (normalizeParts ([] :: (l ++ [last]))).1 =
      ([[]] : List JSString).take (1 - (net ((l ++ [last]).map Files.step)).ups) ++
        (net ((l ++ [last]).map Files.step)).downs := by
    rw [Files.normalizeParts_eq]
    rfl
  rw [hkept]
  generalize net ((l ++ [last]).map Files.step) = x at hhead hmem
  rcases x.ups with _ | n
  · exact .inl rfl
  · rw [Nat.sub_eq_zero_of_le (Nat.le_add_left 1 n), List.take_zero, List.nil_append]
    by_cases hnil : x.downs.head? = some []
    · rw [hhead hnil]
      exact .inr ⟨rfl, rfl⟩
    · refine .inl (withRoot_of_head fun q hq ↦ ⟨?_, hmem q (List.mem_of_mem_head? hq)⟩)
      rintro rfl
      exact hnil hq

/-- **The dots are taken out** as the RFC says. -/
theorem join_dotsTakenOut (hl : ∀ q ∈ l, q ≠ []) (hslash : ∀ q ∈ l ++ [last], slash ∉ q) :
    join (dotsTakenOut true true
      ((last = [dot] || last = [dot, dot]) || last = []) ([] :: (l ++ [last]))) =
      removeDotSegments slash dot (text slash (l ++ [last])) := by
  have hroot := withRoot_or hl hslash
  have hdowns := getLast_downs hl last
  have hmem : ∀ q ∈ (net ((l ++ [last]).map Files.step)).downs, slash ∉ q :=
    fun q hq ↦ hslash q (mem_downs hq).1
  rw [DotSegments.removeDotSegments_text (by decide)
    (fun q hq ↦ hslash q (List.mem_append_left _ hq)) (hslash last (by simp)), ← step_eq,
    dotsTakenOut_of_mustEndAbs]
  generalize (net ((l ++ [last]).map Files.step)).downs = downs at hroot hdowns hmem
  rcases hroot with hroot | ⟨hroot, rfl⟩
  · rw [hroot, join_nil_cons]
    have hend := (getLast_text hmem).trans hdowns
    by_cases hdots : last = [dot] ∨ last = [dot, dot]
    · have hne : last ≠ [] := by
        rintro rfl
        exact absurd hdots (by simp)
      rw [if_pos (by simpa [hend, hne] using hdots), trailing, if_pos hdots, List.cons_append,
        join_nil_cons]
    · have hstay : ¬(((decide (last = [dot]) || decide (last = [dot, dot])) ||
          decide (last = [])) && decide ((text slash downs).getLast? ≠ some slash)) = true := by
        rw [Bool.and_eq_true, Bool.or_eq_true, Bool.or_eq_true, decide_eq_true_eq,
          decide_eq_true_eq, decide_eq_true_eq, decide_eq_true_eq]
        rintro ⟨hlast, hslash⟩
        exact hslash (hend.mpr (hlast.resolve_left hdots))
      rw [if_neg hstay, trailing, if_neg hdots, List.append_nil, join_nil_cons]
  · obtain rfl := hdowns.mp rfl
    rw [hroot]
    rfl

theorem isAbsoluteParts_dotsTakenOut (hasTrailingSlash : Bool) (srcPath : List JSString) :
    isAbsoluteParts (dotsTakenOut true true hasTrailingSlash srcPath) = true := by
  have hroot (parts : List JSString) : isAbsoluteParts (withRoot parts) = true := by
    rw [withRoot]
    rcases h : isAbsoluteParts parts with _ | _
    · rfl
    · exact h
  have happend {parts : List JSString} (l : List JSString) (h : isAbsoluteParts parts = true) :
      isAbsoluteParts (parts ++ l) = true := by
    rcases parts with _ | ⟨q, parts⟩
    · exact absurd h (by simp [isAbsoluteParts])
    · exact h
  rw [dotsTakenOut_of_mustEndAbs]
  split_ifs
  · exact happend _ (hroot _)
  · exact hroot _

/-- The path of a url with a host. -/
theorem withPath_of_host {source relative : Url} {host : JSString}
    (hhost : source.host = some host) (hne : host ≠ []) (hl : ∀ q ∈ l, q ≠ [])
    (hslash : ∀ q ∈ l ++ [last], slash ∉ q) :
    withPath false true true source relative ([] :: (l ++ [last])) =
      { source with pathname := some (removeDotSegments slash dot (text slash (l ++ [last]))) } := by
  have hlast : ([] :: (l ++ [last])).getLast? = some last := by
    rw [← List.cons_append, List.getLast?_concat]
  have htrailing : ((decide (source.host.getD [] ≠ []) || decide (relative.host.getD [] ≠ [])) &&
      (decide (([] :: (l ++ [last])).getLast? = some (js ".")) ||
        decide (([] :: (l ++ [last])).getLast? = some (js ".."))) ||
      decide (([] :: (l ++ [last])).getLast? = some [])) =
      ((decide (last = [dot]) || decide (last = [dot, dot])) || decide (last = [])) := by
    rw [hhost, hlast, Option.getD_some, decide_eq_true hne, Bool.true_or, Bool.true_and]
    simp only [Option.some_inj]
    rfl
  rw [withPath, if_neg (List.cons_ne_nil _ _), ← join_dotsTakenOut hl hslash]
  dsimp only
  rw [htrailing, isAbsoluteParts_dotsTakenOut]
  rfl

/-! ## Paths -/

/-- `A-Z a-z 0-9 . _ - /` -/
def isPathUnit (u : UInt16) : Bool :=
  (0x41 ≤ u && u ≤ 0x5A) || isLowerAlnum u || u == dot || u == 0x5F || u == 0x2D || u == slash

/-- A path in which no segment is empty, but for the first and the last. -/
def IsPath (p : JSString) : Prop :=
  (∀ u ∈ p, isPathUnit u = true) ∧ ∀ q ∈ (p.splitOn slash).tail.dropLast, q ≠ []

/-- A host that is not empty. -/
def IsHost (host : JSString) : Prop := host ≠ [] ∧ ∀ u ∈ host, u ∉ nonHostUnits

variable {b : Bool} {p r host : JSString}

theorem notMem_of_isPathUnit (hp : ∀ u ∈ p, isPathUnit u = true) {u : UInt16}
    (hu : isPathUnit u = false) : u ∉ p :=
  fun hmem ↦ Bool.false_ne_true (hu.symm.trans (hp u hmem))

theorem splitAtUnit_of_notMem {u : UInt16} (h : u ∉ p) : splitAtUnit u p = (p, none) := by
  rw [splitAtUnit, if_neg h, List.takeWhile_eq_self_iff.mpr]
  exact fun v hv ↦ decide_eq_true fun heq ↦ h (heq ▸ hv)

theorem parts_of_path (hp : ∀ u ∈ p, isPathUnit u = true) :
    pathOf p = p ∧ searchOf p = none ∧ hashOf p = none := by
  have hhash := splitAtUnit_of_notMem (notMem_of_isPathUnit (u := 0x23) hp (by decide))
  have hsearch := splitAtUnit_of_notMem (notMem_of_isPathUnit (u := 0x3F) hp (by decide))
  rw [pathOf, searchOf, hashOf, hhash, hsearch]
  exact ⟨rfl, rfl, rfl⟩

theorem settled_of_path (hp : ∀ u ∈ p, isPathUnit u = true) (protocol : Option JSString) :
    Settled protocol p := by
  refine .inr ⟨fun u hu hmem ↦ ?_, notMem_of_isPathUnit hp (by decide)⟩
  have hdelim : ∀ v ∈ delimUnits, isPathUnit v = false := by decide
  exact notMem_of_isPathUnit hp (hdelim u hmem) hu

theorem splitOn_slash (p : JSString) : (slash :: p).splitOn slash = [] :: p.splitOn slash := by
  rw [← List.nil_append (slash :: p), List.splitOn_append_cons_self, List.splitOn_nil]
  rfl

/-- It does not begin with two slashes, since there would be an empty segment in between. -/
theorem IsPath.not_slashes (hp : IsPath p) : p.take 2 ≠ [slash, slash] := by
  intro h
  have hbegin : [slash, slash] <+: p := by
    rw [← h]
    exact List.take_prefix _ _
  obtain ⟨r, rfl⟩ := hbegin
  refine hp.2 [] ?_ rfl
  rw [List.cons_append, splitOn_slash, List.singleton_append, splitOn_slash, List.tail_cons,
    List.dropLast_cons_of_ne_nil (List.splitOn_ne_nil _ _)]
  exact List.mem_cons_self

/-! ## What is parsed -/

/-- A reference that is only a path. -/
theorem urlParse_path (hp : IsPath p) (hne : p ≠ []) (b : Bool) :
    urlParse b p = ⟨none, false, none, none, none, none, none, none, none, some p, some p⟩ := by
  have hprotocol : protocolOf p = none := by
    rcases h : protocolOf p with _ | q
    · rfl
    · obtain ⟨hbegin, name, rfl, -⟩ := protocolOf_eq_some_iff.mp h
      exact absurd (hbegin.subset (by simp)) (notMem_of_isPathUnit (u := 0x3A) hp.1 (by decide))
  have hafter : afterProtocol p = p := afterProtocol_of_eq (by rw [hprotocol]; rfl)
  have hslashes : slashesOf b p = false := by
    rw [slashesOf, seesSlashes, hafter, decide_eq_false hp.not_slashes, Bool.and_false,
      Bool.false_and]
  obtain ⟨hhost, hrest⟩ := host_of_not (b := b) (w := p)
    (by rw [hasHost_eq, hslashes, hprotocol]; rfl)
  rw [afterSlashes, hslashes, if_neg Bool.false_ne_true, hafter] at hrest
  have hchopped := Settled.chopped (b := b) (settled_of_path (p := afterHost b p)
    (by rw [hrest]; exact hp.1) (protocolOf p))
  rw [hrest] at hchopped
  have hname : hostnameOf b p = none := by rw [hostnameOf, hhost, Option.map_none]
  obtain ⟨hpath, hsearch, hhash⟩ := parts_of_path hp.1
  have htaken :
      taken b p = ⟨none, false, none, none, none, none, none, none, none, some p, none⟩ := by
    rw [taken, hprotocol, hslashes, hhost, hname, hchopped, hsearch, hhash, pathnameOf, hpath,
      if_pos hne]
    rfl
  have hformat : urlFormat (taken b p) = p := by
    rw [htaken, urlFormat_of_slashes (by simp) (fun _ ↦ rfl) rfl]
    simp [withFirst]
  rw [urlParse, hformat, htaken]

theorem urlFormat_http (auth port hostname href : Option JSString)
    (h : ∀ v ∈ p.head?, v = slash) :
    urlFormat ⟨some (js "http:"), true, some host, auth, port, hostname, none, none, none, some p,
      href⟩ = js "http://" ++ host ++ p := by
  rw [urlFormat_of_slashes (fun h ↦ h.2 rfl) (fun h ↦ absurd h (by simp)) rfl]
  show js "http:" ++ js "//" ++ host ++ withFirst slash p ++ [] ++ [] = _
  rw [withFirst_of_head h, List.append_nil, List.append_nil]
  rfl

/-- `http://`, a host and a path. -/
theorem urlParse_base (hhost : IsHost host) (hp : ∀ u ∈ p, isPathUnit u = true)
    (habs : p.head? = some slash) (b : Bool) :
    ∃ auth port hostname, urlParse b (js "http://" ++ host ++ p) =
      ⟨some (js "http:"), true, some host, auth, port, hostname, none, none, none, some p,
        some (js "http://" ++ host ++ p)⟩ := by
  obtain ⟨w, hw⟩ : ∃ w, w = js "http://" ++ host ++ p := ⟨_, rfl⟩
  have hw' : w = js "http:" ++ ([slash, slash] ++ (host ++ p)) := by
    rw [hw, List.append_assoc]
    rfl
  have hprotocol : protocolOf w = some (js "http:") :=
    protocolOf_eq_some_iff.mpr ⟨hw' ▸ List.prefix_append _ _, js "http", rfl, by decide, by decide⟩
  have hafter : afterProtocol w = [slash, slash] ++ (host ++ p) :=
    afterProtocol_of_eq (by rw [hprotocol]; exact hw')
  have hslashes : slashesOf b w = true := by
    rw [slashesOf, seesSlashes, hafter, hprotocol, Option.isSome_some, Bool.or_true, Bool.true_or]
    rfl
  have hrest : afterSlashes b w = host ++ p := by
    rw [afterSlashes, hslashes, if_pos rfl, hafter]
    rfl
  have hends : ∀ v ∈ p.head?, v ∈ nonHostUnits := by
    intro v hv
    rw [habs] at hv
    obtain rfl : slash = v := Option.some.inj hv
    decide
  obtain ⟨hhost', hrest'⟩ := host_of_eq (by rw [hasHost_eq, hslashes, Bool.true_or]) hrest hhost.2
    hends
  have hchopped := Settled.chopped (b := b) (settled_of_path (p := afterHost b w)
    (by rw [hrest']; exact hp) (protocolOf w))
  rw [hrest'] at hchopped
  obtain ⟨hpath, hsearch, hhash⟩ := parts_of_path hp
  have hne : p ≠ [] := by
    rintro rfl
    exact absurd habs (by simp)
  have htaken : ∃ auth port hostname, taken b w =
      ⟨some (js "http:"), true, some host, auth, port, hostname, none, none, none, some p,
        none⟩ := by
    rw [taken, hprotocol, hslashes, hhost', hchopped, hsearch, hhash, pathnameOf, hpath,
      if_pos hne]
    exact ⟨_, _, _, rfl⟩
  obtain ⟨auth, port, hostname, htaken⟩ := htaken
  have hformat : urlFormat (taken b w) = w := by
    rw [htaken, hw]
    refine urlFormat_http auth port hostname none fun v hv ↦ ?_
    rw [habs] at hv
    exact (Option.some.inj hv).symm
  rw [← hw]
  exact ⟨auth, port, hostname, by rw [urlParse, hformat, htaken]⟩

/-! ## `resolve` and the RFC -/

/-- Without the detour of the host, for a reference that is a path. -/
theorem resolvePath_of_slashed {source relative : Url}
    (hslashed : listed slashedProtocol source.protocol = true)
    (habs : startsWithSlash source.pathname = true) (hhost : relative.host = none)
    (hparts : pathParts relative.pathname ≠ []) :
    resolvePath source relative =
      withPath false true true
        { source with search := relative.search, query := relative.query } relative
        (if startsWithSlash relative.pathname then pathParts relative.pathname
          else (pathParts source.pathname).dropLast ++ pathParts relative.pathname) := by
  unfold resolvePath
  rw [hslashed, habs, hhost]
  simp only [Bool.not_true, Bool.and_false, Bool.false_and, Bool.false_eq_true, if_false,
    Bool.not_false, Bool.true_or, Bool.and_true, Option.isSome_none, Bool.false_or, Bool.or_true]
  rcases startsWithSlash relative.pathname with _ | _
  · rw [if_neg Bool.false_ne_true, if_pos hparts, if_neg Bool.false_ne_true]
  · rw [if_pos rfl, if_pos rfl, hhost]
    rfl

theorem exists_splitOn (p : JSString) : ∃ l last, p.splitOn slash = l ++ [last] := by
  rcases List.eq_nil_or_concat (p.splitOn slash) with h | ⟨l, last, h⟩
  · exact absurd h (List.splitOn_ne_nil _ _)
  · exact ⟨l, last, by rw [h, List.concat_eq_append]⟩

/-- The parts of a relative path are not empty, but for the last. -/
theorem IsPath.relative (hr : IsPath r) (habs : r.head? ≠ some slash)
    (h : r.splitOn slash = l ++ [last]) : ∀ q ∈ l, q ≠ [] := by
  rcases l with _ | ⟨q, l⟩
  · simp
  · have hinner := hr.2
    rw [h, List.cons_append, List.tail_cons, List.dropLast_concat] at hinner
    refine List.forall_mem_cons.mpr ⟨?_, hinner⟩
    rintro rfl
    have hjoin : join (r.splitOn slash) = r := List.intercalate_splitOn slash
    rw [h, List.cons_append, join_nil_cons,
      DotSegments.text_eq_intercalate slash (by simp)] at hjoin
    exact habs (by rw [← hjoin]; rfl)

/-- The parts of the array, and the path that the RFC merges. -/
theorem parts_merge (hp : IsPath p) (habs : p.head? = some slash) (hr : IsPath r) (hne : r ≠ []) :
    ∃ l last, (if startsWithSlash (some r) then pathParts (some r)
        else (pathParts (some p)).dropLast ++ pathParts (some r)) = [] :: (l ++ [last]) ∧
      text slash (l ++ [last]) = merge slash p r ∧ (∀ q ∈ l, q ≠ []) ∧
      ∀ q ∈ l ++ [last], slash ∉ q := by
  have hrel : pathParts (some r) = r.splitOn slash := if_neg hne
  rw [hrel, startsWithSlash, Option.getD_some]
  by_cases hslash : r.head? = some slash
  · obtain ⟨s, rfl⟩ := List.head?_eq_some_iff.mp hslash
    obtain ⟨l, last, hs⟩ := exists_splitOn s
    have hinner := hr.2
    rw [splitOn_slash, hs, List.tail_cons, List.dropLast_concat] at hinner
    refine ⟨l, last, ?_, ?_, hinner, fun q hq ↦ Files.not_mem_of_mem_splitOn (hs ▸ hq)⟩
    · rw [if_pos (decide_eq_true hslash), splitOn_slash, hs]
    · rw [← hs, DotSegments.text_splitOn, merge, if_pos hslash]
  · obtain ⟨t, rfl⟩ := List.head?_eq_some_iff.mp habs
    obtain ⟨base, b, ht⟩ := exists_splitOn t
    obtain ⟨l, last, hl⟩ := exists_splitOn r
    have hsrc : pathParts (some (slash :: t)) = [] :: (base ++ [b]) := by
      rw [← ht, ← splitOn_slash]
      exact if_neg (List.cons_ne_nil _ _)
    have hbase := hp.2
    rw [splitOn_slash, ht, List.tail_cons, List.dropLast_concat] at hbase
    have hmem : ∀ q ∈ base ++ [b], slash ∉ q :=
      fun q hq ↦ Files.not_mem_of_mem_splitOn (ht ▸ hq)
    refine ⟨base ++ l, last, ?_, ?_, ?_, ?_⟩
    · rw [if_neg (by simpa using hslash), hsrc, hl, ← List.cons_append, List.dropLast_concat]
      simp
    · rw [List.append_assoc, ← hl, ← DotSegments.merge_text (hmem b (by simp)) hslash, ← ht,
        DotSegments.text_splitOn]
    · exact List.forall_mem_append.mpr ⟨hbase, hr.relative hslash hl⟩
    · rw [List.append_assoc]
      refine List.forall_mem_append.mpr ⟨fun q hq ↦ hmem q (List.mem_append_left _ hq), ?_⟩
      exact fun q hq ↦ Files.not_mem_of_mem_splitOn (hl ▸ hq)

theorem urlFormatString_of_href {url href : JSString}
    (h : (urlParse false url).href = some href) : urlFormatString url = href :=
  Option.some.inj ((href_urlParse false url).symm.trans h)

theorem head_text (l : List JSString) : ∀ v ∈ (text slash l).head?, v = slash := by
  rcases l with _ | ⟨q, l⟩
  · simp [text]
  · exact fun v hv ↦ (Option.some.inj hv).symm

theorem urlResolveObject_path {auth port hostname href : Option JSString} (hhost : host ≠ [])
    (hp : IsPath p) (habs : p.head? = some slash) (hr : IsPath r) (hne : r ≠ []) :
    urlResolveObject ⟨some (js "http:"), true, some host, auth, port, hostname, none, none, none,
        some p, href⟩ ⟨none, false, none, none, none, none, none, none, none, some r, some r⟩ =
      ⟨some (js "http:"), true, some host, auth, port, hostname, none, none, none,
        some (removeDotSegments slash dot (merge slash p r)), href⟩ := by
  obtain ⟨l, last, hparts, htext, hl, hslash⟩ := parts_merge hp habs hr hne
  have hrest : pathParts (some r) ≠ [] := by
    rw [pathParts, Option.getD_some, if_neg hne]
    exact List.splitOn_ne_nil _ _
  have hsource : startsWithSlash (some p) = true := decide_eq_true habs
  have hslashed : listed slashedProtocol (some (js "http:")) = true := by decide
  rw [urlResolveObject, if_neg (by simpa using hne), if_neg (by simp), if_neg (by simp)]
  refine (resolvePath_of_slashed hslashed hsource rfl hrest).trans ?_
  dsimp only
  rw [hparts, ← htext]
  exact withPath_of_host rfl hhost hl hslash

/-- **`resolve`** of a path from a url with a host takes the dot segments out as RFC 3986 does. -/
theorem urlResolve_path (hhost : IsHost host) (hp : IsPath p) (habs : p.head? = some slash)
    (hr : IsPath r) (hne : r ≠ []) :
    urlResolve (js "http://" ++ host ++ p) r =
      js "http://" ++ host ++ removeDotSegments slash dot (merge slash p r) := by
  obtain ⟨l, last, -, htext, -, hslash⟩ := parts_merge hp habs hr hne
  obtain ⟨auth, port, hostname, hbase⟩ := urlParse_base hhost hp.1 habs true
  have hsource : urlFormatString (js "http://" ++ host ++ p) = js "http://" ++ host ++ p := by
    obtain ⟨_, _, _, h⟩ := urlParse_base hhost hp.1 habs false
    exact urlFormatString_of_href (by rw [h])
  have hrelative : urlFormatString r = r := urlFormatString_of_href (by rw [urlParse_path hr hne])
  rw [urlResolve, if_neg (by simp [hhost.1]), hsource, hrelative, hbase, urlParse_path hr hne,
    urlResolveObject_path hhost.1 hp habs hr hne]
  refine urlFormat_http auth port hostname _ ?_
  rw [← htext, DotSegments.removeDotSegments_text (by decide)
    (fun q hq ↦ hslash q (List.mem_append_left _ hq)) (hslash last (by simp))]
  exact head_text _

theorem urlResolve_path_above :
    urlResolve (js "http://" ++ js "h" ++ js "/a/b/c") (js "../../../d/./e/..") =
      js "http://" ++ js "h" ++ removeDotSegments slash dot (merge slash (js "/a/b/c")
        (js "../../../d/./e/..")) :=
  urlResolve_path ⟨by decide, by decide⟩ ⟨by decide, by decide⟩ (by decide) ⟨by decide, by decide⟩
    (by decide)

end SpiderNode.Urls
