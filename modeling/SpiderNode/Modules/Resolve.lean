import SpiderNode.Files.Realpath
import SpiderNode.Machine.Runs
import SpiderNode.Text.Json

/-!
# Resolving requests

`Module._resolveFilename` of `lib/module.js` looks for the file that a request stands for. It tries
candidates in a fixed order, in each of some directories, and takes the first one that is a file. On
the way it keeps what it has found: the packages in `packageCache`, the filenames of requests in
`Module._pathCache`, and what `fs.realpathSync` keeps in `Module._realpathCache`.

The files do not change here, and neither do the extensions and the working directory, which the
caches know nothing of. `fs.realpathSync` is that of `lib/fs.js`: it may throw, and may go round in
links, so a call here is given a number of rounds. The id of a module that `_resolveLookupPaths`
makes up only goes to `debug`, but `path` may throw on the way to it.
-/

namespace SpiderNode.Modules

open Files (resolve)
open Net (JsError)

/-- What the resolution depends on, with errors of the system in `ε`. -/
structure World (ε : Type) where
  doubles : Doubles
  /-- The names of the built-in modules. -/
  natives : List JSString
  /-- `Object.keys(Module._extensions)` -/
  exts : List JSString
  cwd : JSString
  os : Files.Calls ε
  /-- What `fs.statSync` says of a path, if it does not throw. -/
  isDirectory : JSString → Bool
  /-- `fs.readFileSync(path, 'utf8')`, if it does not throw. -/
  readFileSync : JSString → Option JSString

/-- The caches. -/
structure Resolver where
  pathCache : JSString → Option JSString
  packageCache : JSString → Option Json
  realpathCache : Files.Cache

/-- How a search ends, if it has ended. -/
inductive Lookup (ε : Type) where
  | found (filename : JSString)
  | missing
  | thrown (e : ε)
  | running
  deriving DecidableEq

/-- What `_resolveFilename` throws. -/
inductive Failure (ε : Type) where
  /-- `path` cannot split a name of the module. -/
  | unsplit (e : JsError)
  /-- `fs.realpathSync` throws. -/
  | system (e : ε)
  /-- The `Error` that has this message. -/
  | notFound (message : JSString)
  deriving DecidableEq

/-- The module that requires another one. -/
structure Parent where
  id : JSString
  filename : Option JSString
  paths : Option (List JSString)

/-- `!!v` -/
def truthy : Json → Bool
  | .null => false
  | .bool b => b
  | .number x => x ≠ .nan ∧ x ≠ .finite 0
  | .string s => s ≠ []
  | _ => true

/-- `pkg && pkg.main`, unless that is falsy. -/
def mainOf (pkg : Json) : Option Json :=
  match pkg with
  | .object fields =>
    match fields.find? fun f ↦ f.1 = js "main" with
    | some f => if truthy f.2 then some f.2 else none
    | none => none
  | _ => none

/-- `path.resolve(requestPath, main)`, which skips what is not a string. -/
def resolveMain (cwd requestPath : JSString) : Json → JSString
  | .string s => resolve cwd [requestPath, s]
  | _ => resolve cwd [requestPath]

/-- `\w` -/
def isWord (u : UInt16) : Bool :=
  0x30 ≤ u && u ≤ 0x39 || 0x41 ≤ u && u ≤ 0x5A || u == 0x5F || 0x61 ≤ u && u ≤ 0x7A

/-- `/^index\.\w+?$/` -/
def isIndex (f : JSString) : Bool :=
  (js "index.").isPrefixOf f && f.drop 6 ≠ [] && (f.drop 6).all isWord

/-- `parentIdPath`, of a module whose file has this name. -/
def parentIdPath (id name : JSString) : Except JsError JSString :=
  if isIndex name then .ok id else Files.Posix.dirname id

/-- The directory that a request is relative to. -/
def parentDirectory (id filename : JSString) : Except JsError JSString := do
  let name ← Files.Posix.basename filename none
  let _ ← parentIdPath id name
  Files.Posix.dirname filename

namespace World

variable {ε : Type} (w : World ε)

/-- `NativeModule.exists`, which finds inherited properties too. -/
def nativeModuleExists (id : JSString) : Bool := id ∈ w.natives ∨ id ∈ objectPrototype

/-- A path that `tryFile` takes. -/
def isFile (p : JSString) : Bool := (w.os.stat p).isOk && !w.isDirectory p

/-- `fs.realpathSync(requestPath, Module._realpathCache)`, in so many rounds at most. -/
def realpath (n : ℕ) (requestPath : JSString) (cache : Files.Cache) : Lookup ε × Files.Cache :=
  match Files.realpathSync w.os w.cwd n requestPath (some cache) with
  | some (.ok filename, cache') =>
    (if filename = [] then .missing else .found filename, cache'.getD cache)
  | some (.error e, cache') => (.thrown e, cache'.getD cache)
  | none => (.running, cache)

/-- `a || b`, unless `a` throws. -/
def orElse (a : Lookup ε × Resolver) (b : Resolver → Lookup ε × Resolver) :
    Lookup ε × Resolver :=
  match a with
  | (.missing, s) => b s
  | _ => a

variable (n : ℕ)

/-- `tryFile` -/
def tryFile (requestPath : JSString) (s : Resolver) : Lookup ε × Resolver :=
  if w.isFile requestPath then
    let r := w.realpath n requestPath s.realpathCache
    (r.1, { s with realpathCache := r.2 })
  else (.missing, s)

/-- `tryExtensions`, with the extensions that are left. -/
def tryExtensions (p : JSString) (exts : List JSString) (s : Resolver) : Lookup ε × Resolver :=
  match exts with
  | [] => (.missing, s)
  | ext :: exts => orElse (w.tryFile n (p ++ ext) s) (tryExtensions p exts)

/-- What is in `package.json`. -/
def package (requestPath : JSString) : Option Json :=
  (w.readFileSync (resolve w.cwd [requestPath, js "package.json"])).bind (Json.parse w.doubles)

def readPackage (requestPath : JSString) (s : Resolver) : Option Json × Resolver :=
  match s.packageCache requestPath with
  | some pkg => (some pkg, s)
  | none =>
    match w.package requestPath with
    | some pkg =>
      (some pkg, { s with packageCache := Function.update s.packageCache requestPath (some pkg) })
    | none => (none, s)

def tryPackage (requestPath : JSString) (s : Resolver) : Lookup ε × Resolver :=
  match w.readPackage requestPath s with
  | (pkg, s) =>
    match pkg.bind mainOf with
    | none => (.missing, s)
    | some main =>
      let filename := resolveMain w.cwd requestPath main
      orElse (orElse (w.tryFile n filename s) (w.tryExtensions n filename w.exts))
        (w.tryExtensions n (resolve w.cwd [filename, js "index"]) w.exts)

/-- The body of the loop of `_findPath`. -/
def tryPath (trailingSlash : Bool) (basePath : JSString) (s : Resolver) : Lookup ε × Resolver :=
  let direct := if trailingSlash then (.missing, s) else
    orElse (w.tryFile n basePath s) (w.tryExtensions n basePath w.exts)
  orElse (orElse direct (w.tryPackage n basePath))
    (w.tryExtensions n (resolve w.cwd [basePath, js "index"]) w.exts)

/-- The loop of `_findPath`. -/
def tryPaths (trailingSlash : Bool) (request : JSString) (paths : List JSString) (s : Resolver) :
    Lookup ε × Resolver :=
  match paths with
  | [] => (.missing, s)
  | path :: paths =>
    orElse (w.tryPath n trailingSlash (resolve w.cwd [path, request]) s)
      (tryPaths trailingSlash request paths)

/-- `JSON.stringify({request: request, paths: paths})` -/
def cacheKey (request : JSString) (paths : List JSString) : JSString :=
  let key := [(js "request", .string request), (js "paths", .array (paths.map .string))]
  (Json.object key).stringify w.doubles

def trailingSlash (request : JSString) : Bool := request.getLast? = some Files.slash

/-- `Module._findPath` -/
def findPath (request : JSString) (paths : List JSString) (s : Resolver) : Lookup ε × Resolver :=
  let paths := if Files.isAbsolute request then [[]] else paths
  match s.pathCache (w.cacheKey request paths) with
  | some filename => (.found filename, s)
  | none =>
    match w.tryPaths n (trailingSlash request) request paths s with
    | (.found filename, s) =>
      (.found filename, { s with
        pathCache := Function.update s.pathCache (w.cacheKey request paths) (some filename) })
    | r => r

/-- `Module._nodeModulePaths` -/
def nodeModulePaths (start : JSString) : List JSString :=
  let nodeModules := js "node_modules"
  let parts := (resolve w.cwd [start]).splitOn Files.slash
  let root := (parts.idxOf? nodeModules).getD 0 - 1
  let tips := (List.range parts.length).reverse.filter fun tip ↦
    root ≤ tip ∧ parts[tip]? ≠ some nodeModules
  tips.map fun tip ↦ Files.join (parts.take (tip + 1) ++ [nodeModules])

/-- `Module._resolveLookupPaths`, for a request that is not built in. -/
def lookupPaths (request : JSString) (parent : Option Parent) (modulePaths : List JSString) :
    Except JsError (List JSString) :=
  let start := request.take 2
  if start ≠ js "./" ∧ start ≠ js ".." then
    match parent with
    | some parent => .ok (parent.paths.getD [] ++ modulePaths)
    | none => .ok modulePaths
  else
    match parent with
    | none => .ok (w.nodeModulePaths (js ".") ++ js "." :: modulePaths)
    | some parent =>
      match parent.filename with
      | some filename =>
        if parent.id = [] ∨ filename = [] then
          .ok (w.nodeModulePaths (js ".") ++ js "." :: modulePaths)
        else (parentDirectory parent.id filename).map ([·])
      | none => .ok (w.nodeModulePaths (js ".") ++ js "." :: modulePaths)

/-- The `Error` that there is no such module. -/
def cannotFind (request : JSString) : Failure ε :=
  .notFound (js "Cannot find module '" ++ request ++ js "'")

/-- What `_resolveFilename` makes of the outcome of the search: the id and the filename. -/
def conclude (request : JSString) :
    Lookup ε → Option (Except (Failure ε) (JSString × JSString))
  | .found filename => some (.ok (filename, filename))
  | .missing => some (.error (cannotFind request))
  | .thrown e => some (.error (.system e))
  | .running => none

/-- `Module._resolveFilename`, if it ends. -/
def resolveFilename (request : JSString) (parent : Option Parent) (modulePaths : List JSString)
    (s : Resolver) : Option (Except (Failure ε) (JSString × JSString)) × Resolver :=
  if w.nativeModuleExists request then (some (.ok (request, request)), s)
  else
    match w.lookupPaths request parent modulePaths with
    | .error e => (some (.error (.unsplit e)), s)
    | .ok paths =>
      let r := w.findPath n request paths s
      (conclude request r.1, r.2)

/-- A call of `_resolveFilename`, which ends in so many rounds. -/
structure Call where
  rounds : ℕ
  request : JSString
  parent : Option Parent
  /-- `Module._paths` -/
  modulePaths : List JSString

def machine : Machine Resolver Call Empty where
  guard s c := (w.resolveFilename c.rounds c.request c.parent c.modulePaths s).1 ≠ none
  step s c := .ok (w.resolveFilename c.rounds c.request c.parent c.modulePaths s).2

end World

end SpiderNode.Modules
