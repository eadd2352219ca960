import SpiderNode.Modules.Resolve
import SpiderNode.Files.RealpathCache

/-!
# The candidates of a request

`_resolveFilename` comes down to a list of paths: the file it returns is the first one of them that
is a file, and there is an error if none is. This also holds of what comes out of the caches, in
every state that calls lead to, since the key of `Module._pathCache` tells the requests and the
directories apart.

What `fs.realpathSync` returns for the candidate is returned, and what it throws is thrown; a name
that it has given once is given again. So a call ends if that of `fs.realpathSync` does.
-/

namespace SpiderNode.Modules

open Files (resolve)
open Net (JsError)

namespace World

variable {ε : Type} (w : World ε)

/-- The paths that `package.json` gives. -/
def packageCandidates (basePath : JSString) : List JSString :=
  match (w.package basePath).bind mainOf with
  | none => []
  | some main =>
    let filename := resolveMain w.cwd basePath main
    filename :: w.exts.map (filename ++ ·) ++
      w.exts.map (resolve w.cwd [filename, js "index"] ++ ·)

/-- The paths of a file and of a directory; only the latter if the file is left out. -/
def candidatesAt (file : Bool) (basePath : JSString) : List JSString :=
  (if file then basePath :: w.exts.map (basePath ++ ·) else []) ++ w.packageCandidates basePath ++
    w.exts.map (resolve w.cwd [basePath, js "index"] ++ ·)

/-- The paths in some directories. -/
def candidates (request : JSString) (paths : List JSString) : List JSString :=
  paths.flatMap fun path ↦
    w.candidatesAt (!trailingSlash request) (resolve w.cwd [path, request])

/-- The request is relative to the module. -/
def Relative (request : JSString) : Prop :=
  js "./" <+: request ∨ js "../" <+: request ∨ request = js ".."

instance : DecidablePred Relative := fun request ↦
  inferInstanceAs (Decidable (js "./" <+: request ∨ js "../" <+: request ∨ request = js ".."))

/-- Where a request is looked up, if `path` can split the names of the module. -/
def directories (request id filename : JSString) (paths : List JSString) :
    Except JsError (List JSString) :=
  if Files.isAbsolute request then .ok [[]]
  else if Relative request then (parentDirectory id filename).map ([·])
  else .ok paths

/-- The caches that calls of `fs.realpathSync` lead to. -/
inductive Caches : Files.Cache → Prop
  | init : Caches fun _ ↦ none
  | step {cache cache' : Files.Cache} {n : ℕ} {p : JSString} {result : Except ε JSString}
      (h : Caches cache)
      (hcall : Files.realpathSync w.os w.cwd n p (some cache) = some (result, some cache')) :
      Caches cache'

/-- How a search ends: as `fs.realpathSync` does for the first path that is a file. -/
def first (n : ℕ) (l : List JSString) (cache : Files.Cache) : Lookup ε :=
  match l.find? w.isFile with
  | none => .missing
  | some p => (w.realpath n p cache).1

/-- The caches are right. -/
structure Coherent (s : Resolver) : Prop where
  packages : ∀ p pkg, s.packageCache p = some pkg → w.package p = some pkg
  paths : ∀ key name, s.pathCache key = some name → ∃ request paths,
    key = w.cacheKey request paths ∧ ∃ n cache, w.Caches cache ∧
      w.first n (w.candidates request paths) cache = .found name
  realpaths : w.Caches s.realpathCache

/-- A search looks at these paths. -/
def Searches (n : ℕ) (l : List JSString) (f : Resolver → Lookup ε × Resolver) : Prop :=
  ∀ s, w.Coherent s → (f s).1 = w.first n l s.realpathCache ∧
    ((f s).1 = .missing → (f s).2.realpathCache = s.realpathCache) ∧ w.Coherent (f s).2

variable {w} {n : ℕ} {l l' : List JSString} {s : Resolver} {cache : Files.Cache}
  {f g : Resolver → Lookup ε × Resolver}

/-! ## `fs.realpathSync` -/

theorem Caches.filled (h : w.Caches cache) : Files.Cache.Filled (some cache) := by
  induction h with
  | init => exact ⟨_, rfl, nofun⟩
  | step _ hcall ih => exact (Files.filled_realpathSync ih hcall).1

theorem Caches.realpath (h : w.Caches cache) (n : ℕ) (p : JSString) :
    (w.realpath n p cache).1 ≠ .missing ∧ w.Caches (w.realpath n p cache).2 := by
  unfold World.realpath
  split
  · rename_i filename cache' hcall
    obtain ⟨⟨c, rfl, -⟩, hne⟩ := Files.filled_realpathSync h.filled hcall
    rw [if_neg (hne filename rfl)]
    exact ⟨nofun, h.step hcall⟩
  · rename_i e cache' hcall
    obtain ⟨⟨c, rfl, -⟩, -⟩ := Files.filled_realpathSync h.filled hcall
    exact ⟨nofun, h.step hcall⟩
  · exact ⟨nofun, h⟩

/-! ## Searches -/

theorem first_append (hc : w.Caches cache) :
    w.first n l cache = .missing ∧ w.first n (l ++ l') cache = w.first n l' cache ∨
      w.first n l cache ≠ .missing ∧ w.first n (l ++ l') cache = w.first n l cache := by
  unfold first
  rw [List.find?_append]
  cases l.find? w.isFile with
  | none => exact .inl ⟨rfl, rfl⟩
  | some p => exact .inr ⟨(hc.realpath n p).1, rfl⟩

theorem Searches.orElse (hf : w.Searches n l f) (hg : w.Searches n l' g) :
    w.Searches n (l ++ l') fun s ↦ World.orElse (f s) g := by
  intro s hs
  obtain ⟨hfirst, hcache, hcoherent⟩ := hf s hs
  rcases hfs : f s with ⟨outcome, t⟩
  show (World.orElse (f s) g).1 = _ ∧ ((World.orElse (f s) g).1 = .missing →
    (World.orElse (f s) g).2.realpathCache = _) ∧ w.Coherent (World.orElse (f s) g).2
  rw [hfs] at hfirst hcache hcoherent ⊢
  obtain rfl : outcome = w.first n l s.realpathCache := hfirst
  obtain ⟨hmissing, happend⟩ | ⟨hne, happend⟩ :=
    first_append hs.realpaths
  · obtain ⟨hfirst', hcache', hcoherent'⟩ := hg t hcoherent
    have ht : t.realpathCache = s.realpathCache := hcache hmissing
    rw [happend, hmissing, ← ht]
    exact ⟨hfirst', hcache', hcoherent'⟩
  · have hsame : World.orElse (w.first n l s.realpathCache, t) g =
        (w.first n l s.realpathCache, t) := by
      unfold World.orElse
      split
      · rename_i heq
        exact absurd (Prod.mk.inj heq).1 hne
      · rfl
    rw [hsame, happend]
    exact ⟨rfl, hcache, hcoherent⟩

theorem searches_nothing : w.Searches n [] fun s ↦ (.missing, s) :=
  fun _ hs ↦ ⟨rfl, fun _ ↦ rfl, hs⟩

theorem searches_tryFile (p : JSString) : w.Searches n [p] (w.tryFile n p) := by
  intro s hs
  unfold tryFile first
  rw [List.find?_singleton]
  split_ifs with hfile
  · obtain ⟨hne, hcaches⟩ := hs.realpaths.realpath n p
    exact ⟨rfl, fun hmissing ↦ absurd hmissing hne, hs.packages, hs.paths, hcaches⟩
  · exact ⟨rfl, fun _ ↦ rfl, hs⟩

theorem searches_tryExtensions (p : JSString) (exts : List JSString) :
    w.Searches n (exts.map (p ++ ·)) (w.tryExtensions n p exts) := by
  induction exts with
  | nil => exact searches_nothing
  | cons ext exts ih => exact (searches_tryFile (p ++ ext)).orElse ih

theorem readPackage_eq (hs : w.Coherent s) (p : JSString) :
    (w.readPackage p s).1 = w.package p ∧
      (w.readPackage p s).2.realpathCache = s.realpathCache ∧ w.Coherent (w.readPackage p s).2 := by
  unfold readPackage
  split
  · rename_i pkg hpkg
    exact ⟨(hs.packages p pkg hpkg).symm, rfl, hs⟩
  · split
    · rename_i pkg hpkg
      refine ⟨hpkg.symm, rfl, fun q pkg' hq ↦ ?_, hs.paths, hs.realpaths⟩
      change Function.update s.packageCache p (some pkg) q = some pkg' at hq
      by_cases hqp : q = p
      · subst hqp
        rw [Function.update_self] at hq
        exact hpkg.trans hq
      · rw [Function.update_of_ne hqp] at hq
        exact hs.packages q pkg' hq
    · rename_i hpkg
      exact ⟨hpkg.symm, rfl, hs⟩

theorem searches_tryPackage (p : JSString) :
    w.Searches n (w.packageCandidates p) (w.tryPackage n p) := by
  intro s hs
  obtain ⟨hpkg, hcache, hcoherent⟩ := readPackage_eq hs p
  rcases hread : w.readPackage p s with ⟨pkg, s'⟩
  rw [hread] at hpkg hcache hcoherent
  obtain rfl : pkg = w.package p := hpkg
  rw [tryPackage, hread, packageCandidates, ← hcache]
  cases hmain : (w.package p).bind mainOf with
  | none =>
    simp only [hmain]
    exact ⟨rfl, fun _ ↦ trivial, hcoherent⟩
  | some main =>
    simp only [hmain]
    have hfile : w.Searches n [resolveMain w.cwd p main] _ := searches_tryFile _
    exact ((hfile.orElse (searches_tryExtensions _ w.exts)).orElse
      (searches_tryExtensions _ w.exts)) _ hcoherent

theorem searches_tryPath (trailingSlash : Bool) (p : JSString) :
    w.Searches n (w.candidatesAt (!trailingSlash) p) (w.tryPath n trailingSlash p) := by
  have hdirect : w.Searches n (if !trailingSlash then p :: w.exts.map (p ++ ·) else [])
      fun s ↦ if trailingSlash then (.missing, s) else
        World.orElse (w.tryFile n p s) (w.tryExtensions n p w.exts) := by
    cases trailingSlash with
    | false => exact (searches_tryFile p).orElse (searches_tryExtensions p w.exts)
    | true => exact searches_nothing
  exact (hdirect.orElse (searches_tryPackage p)).orElse (searches_tryExtensions _ w.exts)

theorem searches_tryPaths (request : JSString) (paths : List JSString) :
    w.Searches n (w.candidates request paths)
      (w.tryPaths n (trailingSlash request) request paths) := by
  induction paths with
  | nil => exact searches_nothing
  | cons path paths ih => exact (searches_tryPath _ _).orElse ih

/-- The key tells the requests and the directories apart. -/
theorem cacheKey_injective {request request' : JSString} {paths paths' : List JSString}
    (h : w.cacheKey request paths = w.cacheKey request' paths') :
    request = request' ∧ paths = paths' := by
  have hserialisable (request : JSString) (paths : List JSString) :
      (Json.object [(js "request", .string request),
        (js "paths", .array (paths.map .string))]).Serialisable w.doubles := by
    have hall : Json.AllSerialisable w.doubles (paths.map .string) := by
      induction paths with
      | nil => trivial
      | cons path paths ih => exact ⟨trivial, ih⟩
    have hnodup : [js "request", js "paths"].Nodup := by decide
    exact ⟨hnodup, trivial, hall, trivial⟩
  have hparse := congrArg (Json.parse w.doubles) h
  rw [cacheKey, cacheKey, Json.parse_stringify (hserialisable ..),
    Json.parse_stringify (hserialisable ..)] at hparse
  obtain ⟨hrequest, hpaths⟩ := List.cons.inj (Json.object.inj (Option.some.inj hparse))
  refine ⟨Json.string.inj (Prod.mk.inj hrequest).2, ?_⟩
  have harray := Json.array.inj (Prod.mk.inj (List.cons.inj hpaths).1).2
  exact List.map_injective_iff.mpr (fun _ _ ↦ Json.string.inj) harray

/-- A search, unless the request has been found before. -/
theorem findPath_cases (hs : w.Coherent s) (n : ℕ) (request : JSString) (paths : List JSString)
    {dirs : List JSString} (hdirs : (if Files.isAbsolute request then [[]] else paths) = dirs) :
    ((∃ name, s.pathCache (w.cacheKey request dirs) = some name ∧
        (w.findPath n request paths s).1 = .found name) ∨
      s.pathCache (w.cacheKey request dirs) = none ∧
        (w.findPath n request paths s).1 =
          w.first n (w.candidates request dirs) s.realpathCache) ∧
      w.Coherent (w.findPath n request paths s).2 := by
  unfold findPath
  rw [hdirs]
  dsimp only
  split
  · rename_i name hcached
    exact ⟨.inl ⟨name, hcached, rfl⟩, hs⟩
  · rename_i hnone
    obtain ⟨hfirst, -, hcoherent⟩ := searches_tryPaths (w := w) (n := n) request dirs s hs
    split <;> rename_i heq
    · rename_i name t
      rw [heq] at hfirst hcoherent
      refine ⟨.inr ⟨hnone, hfirst⟩, hcoherent.packages, fun key found hfound ↦ ?_,
        hcoherent.realpaths⟩
      change Function.update t.pathCache (w.cacheKey request dirs) (some name) key =
        some found at hfound
      by_cases hkey : key = w.cacheKey request dirs
      · subst hkey
        rw [Function.update_self] at hfound
        obtain rfl := Option.some.inj hfound
        exact ⟨request, dirs, rfl, n, s.realpathCache, hs.realpaths, hfirst.symm⟩
      · rw [Function.update_of_ne hkey] at hfound
        exact hcoherent.paths key found hfound
    · exact ⟨.inr ⟨hnone, hfirst⟩, hcoherent⟩

theorem Coherent.resolveFilename (hs : w.Coherent s) (n : ℕ) (request : JSString)
    (parent : Option Parent) (modulePaths : List JSString) :
    w.Coherent (w.resolveFilename n request parent modulePaths s).2 := by
  unfold World.resolveFilename
  split_ifs
  · exact hs
  · split
    · exact hs
    · exact (findPath_cases hs n request _ rfl).2

/-- No request has been resolved. -/
def init : Resolver := ⟨fun _ ↦ none, fun _ ↦ none, fun _ ↦ none⟩

theorem coherent_of_reaches (h : w.machine.Reaches init s) : w.Coherent s := by
  refine h.invariant (p := w.Coherent) ⟨fun _ _ hp ↦ absurd hp.symm (Option.some_ne_none _),
    fun _ _ hp ↦ absurd hp.symm (Option.some_ne_none _), .init⟩ ?_
  rintro s t c hs - ht
  obtain rfl := Except.ok.inj ht
  exact hs.resolveFilename ..

/-! ## What is returned -/

/-- The names of a module have no line terminators, and the directory is what is in front of the
last slash. -/
theorem parentDirectory_eq_ok {id filename : JSString}
    (hid : ∀ u ∈ id, Files.notTerminator u = true)
    (hfilename : ∀ u ∈ filename, Files.notTerminator u = true) :
    parentDirectory id filename = .ok (Files.Posix.directoryOf filename) := by
  obtain ⟨⟨o, base, ext⟩, hsplit⟩ := Files.Posix.splitPath_isOk_iff.mpr
    (Files.Posix.readable_of_suffix hfilename (List.suffix_refl filename))
  have hid' : ∃ dir, parentIdPath id base = .ok dir := by
    unfold parentIdPath
    split_ifs
    · exact ⟨id, rfl⟩
    · exact ⟨_, Files.Posix.dirname_eq_ok hid⟩
  obtain ⟨dir, hdir⟩ := hid'
  rw [parentDirectory, Files.Posix.basename_none hsplit]
  show (do let _ ← parentIdPath id base; Files.Posix.dirname filename) = _
  rw [hdir]
  exact Files.Posix.dirname_eq_ok hfilename

/-- Where the code looks a request up. -/
theorem lookupPaths_eq {request id filename : JSString} (paths modulePaths : List JSString)
    (hid : id ≠ []) (hfilename : filename ≠ [])
    (hdots : js ".." <+: request → Relative request) :
    (w.lookupPaths request (some ⟨id, some filename, some paths⟩) modulePaths).map
      (fun paths ↦ if Files.isAbsolute request then [[]] else paths) =
        directories request id filename (paths ++ modulePaths) := by
  have hother (hstart : request.take 2 ≠ js "./" ∧ request.take 2 ≠ js "..") :
      w.lookupPaths request (some ⟨id, some filename, some paths⟩) modulePaths =
        .ok (paths ++ modulePaths) := by
    simp only [lookupPaths, if_pos hstart, Option.getD_some]
  unfold directories
  split_ifs with habsolute hrelative
  · obtain ⟨t, rfl⟩ : ∃ t, request = Files.slash :: t :=
      List.head?_eq_some_iff.mp (by simpa [Files.isAbsolute] using habsolute)
    have hstart (p : UInt16) (hp : Files.slash ≠ p) (q : JSString) :
        (Files.slash :: t).take 2 ≠ p :: q := fun heq ↦ hp (List.cons.inj heq).1
    rw [hother ⟨hstart 0x2E (by decide) _, hstart 0x2E (by decide) _⟩]
    rfl
  · have hstart : ¬(request.take 2 ≠ js "./" ∧ request.take 2 ≠ js "..") := by
      rintro ⟨hdot, hdotdot⟩
      obtain ⟨t, rfl⟩ | ⟨t, rfl⟩ | rfl := hrelative
      · exact hdot rfl
      · exact hdotdot rfl
      · exact hdotdot rfl
    simp only [lookupPaths, if_neg hstart, if_neg (not_or.mpr ⟨hid, hfilename⟩)]
    cases parentDirectory id filename <;> rfl
  · rw [hother]
    · rfl
    · refine ⟨fun hdot ↦ hrelative (.inl ?_), fun hdotdot ↦ hrelative (hdots ?_)⟩
      · exact hdot ▸ List.take_prefix 2 request
      · exact hdotdot ▸ List.take_prefix 2 request

/-- What `_resolveFilename` makes of the result of `fs.realpathSync`. -/
def passOn : Except ε JSString → Except (Failure ε) (JSString × JSString)
  | .ok filename => .ok (filename, filename)
  | .error e => .error (.system e)

/-- `fs.realpathSync` ends for a path, and this is made of its result. -/
def PassesOn (w : World ε) (p : JSString) (cache : Files.Cache)
    (result : Except (Failure ε) (JSString × JSString)) : Prop :=
  ∃ n r, Files.realpathSync w.os w.cwd n p (some cache) = some r ∧ result = passOn r.1

theorem conclude_realpath (hc : w.Caches cache) (n : ℕ) (request p : JSString) :
    conclude request (w.realpath n p cache).1 =
      (Files.realpathSync w.os w.cwd n p (some cache)).map fun r ↦ passOn r.1 := by
  unfold World.realpath
  split <;> rename_i hcall
  · rw [if_neg ((Files.filled_realpathSync hc.filled hcall).2 _ rfl), hcall]
    rfl
  · rw [hcall]
    rfl
  · rw [hcall]
    rfl

/-- What is found ends as `fs.realpathSync` did when it was found. -/
theorem passesOn_iff_of_found {p name : JSString} (hc : w.Caches cache)
    (hfound : (w.realpath n p cache).1 = .found name)
    (result : Except (Failure ε) (JSString × JSString)) :
    w.PassesOn p cache result ↔ result = .ok (name, name) := by
  have hconclude := conclude_realpath hc n [] p
  rw [hfound] at hconclude
  obtain ⟨r, hcall, hr⟩ := Option.map_eq_some_iff.mp hconclude.symm
  constructor
  · rintro ⟨n', r', hcall', rfl⟩
    rw [Files.realpathSync_unique hcall' hcall]
    exact hr
  · rintro rfl
    exact ⟨n, r, hcall, hr.symm⟩

/-- In every state that calls lead to: a request that is not the name of a built-in module or of an
inherited property, and does not only begin like a relative one, comes down to the first of its
candidates that is a file. What `fs.realpathSync` returns for it, or throws, is returned or thrown.
If none is a file, there is an error that says so. Where `path` cannot split the names of the
module, this is thrown. -/
theorem resolves (h : w.machine.Reaches init s) (request id filename : JSString)
    (paths modulePaths : List JSString) (hnative : request ∉ w.natives)
    (hinherited : request ∉ objectPrototype) (hdots : js ".." <+: request → Relative request)
    (hid : id ≠ []) (hfilename : filename ≠ []) :
    let call n := (w.resolveFilename n request (some ⟨id, some filename, some paths⟩)
      modulePaths s).1
    match directories request id filename (paths ++ modulePaths) with
    | .error e => ∀ n, call n = some (.error (.unsplit e))
    | .ok dirs =>
      match (w.candidates request dirs).find? w.isFile with
      | some p => ∃ cache, w.Caches cache ∧
          (s.pathCache (w.cacheKey request dirs) = none → cache = s.realpathCache) ∧
            ∀ result, (∃ n, call n = some result) ↔ w.PassesOn p cache result
      | none => ∀ n, call n = some (.error (cannotFind request)) := by
  have hs := coherent_of_reaches h
  have hnative' : ¬w.nativeModuleExists request = true := by
    simp [nativeModuleExists, hnative, hinherited]
  have hlookup := lookupPaths_eq (w := w) paths modulePaths hid hfilename hdots
  intro call
  rcases hpaths : w.lookupPaths request (some ⟨id, some filename, some paths⟩) modulePaths with
    e | found
  · rw [hpaths] at hlookup
    rw [← hlookup]
    intro n
    simp only [call, World.resolveFilename, if_neg hnative', hpaths]
  · rw [hpaths] at hlookup
    rw [← hlookup]
    dsimp only [Except.map]
    generalize hdirs : (if Files.isAbsolute request then [[]] else found) = dirs
    have hcall (n : ℕ) : call n = conclude request (w.findPath n request found s).1 := by
      simp only [call, World.resolveFilename, if_neg hnative', hpaths]
    have hcases (n : ℕ) := (findPath_cases hs n request found hdirs).1
    -- Either nothing is in the cache under the key, or the name that an earlier call with the same
    -- candidates has returned.
    rcases hcached : s.pathCache (w.cacheKey request dirs) with _ | name
    · have hfirst (n : ℕ) : call n =
          conclude request (w.first n (w.candidates request dirs) s.realpathCache) := by
        obtain ⟨name, hname, -⟩ | ⟨-, hfirst⟩ := hcases n
        · cases hcached.symm.trans hname
        · rw [hcall, hfirst]
      split <;> rename_i hfind
      · refine ⟨s.realpathCache, hs.realpaths, fun _ ↦ rfl, fun result ↦ ?_⟩
        simp only [hfirst, first, hfind, conclude_realpath hs.realpaths, Option.map_eq_some_iff,
          PassesOn]
        exact exists_congr fun n ↦ exists_congr fun r ↦ and_congr_right' eq_comm
      · intro n
        rw [hfirst, first, hfind]
        rfl
    · have hname (n : ℕ) : call n = some (.ok (name, name)) := by
        obtain ⟨name', hname, hfound⟩ | ⟨hnone, -⟩ := hcases n
        · obtain rfl := Option.some.inj (hcached.symm.trans hname)
          rw [hcall, hfound]
          rfl
        · cases hcached.symm.trans hnone
      obtain ⟨request', paths', hkey, n, cache, hc, hfirst⟩ := hs.paths _ _ hcached
      obtain ⟨rfl, rfl⟩ := cacheKey_injective hkey
      rw [first] at hfirst
      split <;> rename_i hfind <;> rw [hfind] at hfirst
      · refine ⟨cache, hc, fun hnone ↦ absurd hnone (Option.some_ne_none _),
          fun result ↦ ?_⟩
        rw [passesOn_iff_of_found hc hfirst]
        simp only [hname, Option.some.injEq, exists_const]
        exact eq_comm
      · cases hfirst

/-- Some files without links, the extensions `.js` and `.node`, and two built-in modules. -/
def sample (files : List JSString) : World Unit where
  doubles := .naturals
  natives := [js "fs", js "path"]
  exts := [js ".js", js ".node"]
  cwd := js "/"
  os :=
    { lstat := fun p ↦ if files.any (p <+: ·) then .ok ⟨false, (0, 0)⟩ else .error ()
      stat := fun p ↦ if p ∈ files then .ok () else .error ()
      readlink := fun _ ↦ .error () }
  isDirectory _ := false
  readFileSync _ := none

/-- `require('./b')` in `/a/m.js` is `/a/b.js`. -/
theorem resolves_relative :
    ∃ n, ((sample [js "/a/b.js", js "/a/m.js"]).resolveFilename n (js "./b")
      (some ⟨js "/a/m.js", some (js "/a/m.js"), some []⟩) [] init).1 =
        some (.ok (js "/a/b.js", js "/a/b.js")) := by
  have hreaches : (sample [js "/a/b.js", js "/a/m.js"]).machine.Reaches init init := .init
  have hresolves := resolves hreaches (js "./b") (js "/a/m.js") (js "/a/m.js") [] [] (by decide)
    (by decide) (by decide) (by decide) (by decide)
  have hdirs : directories (js "./b") (js "/a/m.js") (js "/a/m.js") ([] ++ []) = .ok [js "/a"] := by
    decide
  have hfind : ((sample [js "/a/b.js", js "/a/m.js"]).candidates (js "./b") [js "/a"]).find?
      (sample [js "/a/b.js", js "/a/m.js"]).isFile = some (js "/a/b.js") := by decide
  simp only [hdirs, hfind] at hresolves
  obtain ⟨cache, -, hcache, hends⟩ := hresolves
  obtain rfl := hcache rfl
  exact (hends _).mpr ⟨10, _, rfl, rfl⟩

/-- `require('./b/')` in `/a/m.js` does not find the file `/a/b`. -/
theorem trailing_slash_missing :
    (∀ n, ((sample [js "/a/b", js "/a/m.js"]).resolveFilename n (js "./b/")
      (some ⟨js "/a/m.js", some (js "/a/m.js"), some []⟩) [] init).1 =
        some (.error (cannotFind (js "./b/")))) ∧
    (resolve (js "/") [js "/a", js "./b/"] = js "/a/b") ∧
      (sample [js "/a/b", js "/a/m.js"]).isFile (js "/a/b") = true := by
  have hs : (sample [js "/a/b", js "/a/m.js"]).Coherent init := coherent_of_reaches .init
  refine ⟨fun n ↦ ?_, by decide, by decide⟩
  obtain ⟨name, hname, -⟩ | ⟨-, hfirst⟩ :=
    (findPath_cases hs n (js "./b/") [js "/a"] (if_neg (by decide))).1
  · cases hname
  · have hmissing : (sample [js "/a/b", js "/a/m.js"]).first n
        ((sample [js "/a/b", js "/a/m.js"]).candidates (js "./b/") [js "/a"])
          (init : Resolver).realpathCache = .missing := by
      have hfind : ((sample [js "/a/b", js "/a/m.js"]).candidates (js "./b/") [js "/a"]).find?
          (sample [js "/a/b", js "/a/m.js"]).isFile = none := by decide
      rw [first, hfind]
    have hpaths : (sample [js "/a/b", js "/a/m.js"]).lookupPaths (js "./b/")
        (some ⟨js "/a/m.js", some (js "/a/m.js"), some []⟩) [] = .ok [js "/a"] := by decide
    have hnative : ¬(sample [js "/a/b", js "/a/m.js"]).nativeModuleExists (js "./b/") = true := by
      decide
    simp only [World.resolveFilename, if_neg hnative, hpaths, hfirst, hmissing]
    rfl

end World

end SpiderNode.Modules
