import Mathlib.Logic.Function.Basic
import SpiderNode.Files.SplitPath

/-!
# `realpath`

The POSIX parts of `fs.realpathSync` and `fs.realpath` in `lib/fs.js`. A path is scanned from the
front with a regular expression. When what has been scanned is a link, what it links to takes its
place, and the scan begins again. Links are told apart by device and inode, and none is read twice.

The two are written apart. In `realpathSync` the variable for what a link resolves to belongs to the
whole call, and is not assigned when a link has been read before; so it has the value for the link
that was met last. `realpath` resolves the target of the link again. Without a name for it, its
`gotTarget` stores what it has resolved under `'undefined'`.
-/

namespace SpiderNode.Files

open Function (update)
open Regex Pattern

/-! ## The next part of a path -/

/-- What is left. -/
def here : Pattern UInt16 JSString := fun s ↦ [(s, s)]

/-- `/(.*?)(?:[\/]+|$)/g`: the part, the slashes behind it, and what follows. -/
def nextPartRe : Pattern UInt16 (JSString × JSString × JSString) := do
  let part ← starLazy notTerminator
  let slashes ← orElse (plus (· = slash)) (atEnd >>= fun _ ↦ pure [])
  let rest ← here
  return (part, slashes, rest)

/-! ## System calls -/

/-- `dev` and `ino` of a file. -/
abbrev FileId := ℕ × ℕ

structure LinkStat where
  isSymbolicLink : Bool
  id : FileId
  deriving DecidableEq, Repr

/-- The system calls, with their errors. -/
structure Calls (ε : Type) where
  lstat : JSString → Except ε LinkStat
  stat : JSString → Except ε Unit
  readlink : JSString → Except ε JSString

/-! ## The scan -/

abbrev Cache := JSString → Option JSString

/-- The variables of a call. -/
structure Scan where
  p : JSString
  original : JSString
  pos : ℕ
  current : JSString
  base : JSString
  previous : JSString
  knownHard : JSString → Bool
  seenLinks : FileId → Option JSString
  resolvedLink : Option JSString
  cache : Option Cache

namespace Scan

def new (p : JSString) (cache : Option Cache) : Scan where
  p := p
  original := p
  pos := 0
  current := []
  base := []
  previous := []
  knownHard _ := false
  seenLinks _ := none
  resolvedLink := none
  cache := cache

variable (s : Scan)

/-- `cache[key]` -/
def cached (key : JSString) : Option JSString := s.cache.bind (· key)

/-- `if (cache) cache[key] = value` -/
def store (key value : JSString) : Scan :=
  { s with cache := s.cache.map fun cache ↦ update cache key (some value) }

/-- Finds the next part. -/
def next : Scan :=
  match nextPartRe.search (s.p.drop s.pos) with
  | some (part, slashes, rest) =>
    { s with
      previous := s.current
      current := s.current ++ (part ++ slashes)
      base := s.current ++ part
      pos := s.p.length - rest.length }
  | none => s

/-- The condition for `continue`. -/
def isHard : Bool := s.base = [] || s.knownHard s.base || s.cached s.base = some s.base

def markHard : Scan := { s with knownHard := update s.knownHard s.base true }.store s.base s.base

def see (id : FileId) (target : JSString) : Scan :=
  { s with seenLinks := update s.seenLinks id (some target) }

def setLink (resolvedLink : JSString) : Scan := { s with resolvedLink := some resolvedLink }

/-- `!seenLinks[id]`, also for an empty target. -/
def isUnseen (id : FileId) : Bool := (s.seenLinks id).getD [] = []

variable (cwd : JSString)

/-- The scan begins again, with a link resolved. -/
def restart (resolvedLink : JSString) : Scan :=
  { s with
    p := resolve cwd [resolvedLink, s.p.drop s.pos]
    pos := 0
    previous := []
    base := []
    current := [] }

end Scan

/-! ## The synchronous version -/

namespace Sync

variable {ε : Type} (os : Calls ε) (cwd : JSString) (s : Scan)

/-- A link that has not been read in this call. -/
def readLink (id : FileId) : Except ε Scan := do
  os.stat s.base
  let target ← os.readlink s.base
  let resolvedLink := resolve cwd [s.previous, target]
  return ((s.see id target).setLink resolvedLink).store s.base resolvedLink

/-- `path.resolve(resolvedLink, …)`, and what is behind it. -/
def restart : Scan := s.restart cwd (s.resolvedLink.getD [])

/-- The body of the loop behind the search for the next part. -/
def visit : Except ε Scan :=
  if s.isHard then return s
  else match s.cached s.base with
    | some resolvedLink => return restart cwd (s.setLink resolvedLink)
    | none => do
      let stat ← os.lstat s.base
      if !stat.isSymbolicLink then return s.markHard
      else if s.isUnseen stat.id then
        let s ← readLink os cwd s stat.id
        return restart cwd s
      else return restart cwd s

/-- The loop, for so many rounds at most. What is thrown leaves the cache as it was before. -/
def loop : ℕ → Scan → Option (Except ε JSString × Scan)
  | n, s =>
    if s.p.length ≤ s.pos then some (.ok s.p, s.store s.original s.p)
    else match n with
      | 0 => none
      | n + 1 => match visit os cwd s.next with
        | .ok s => loop n s
        | .error e => some (.error e, s)

end Sync

/-- `fs.realpathSync`: the outcome, and the cache behind it. -/
def realpathSync {ε : Type} (os : Calls ε) (cwd : JSString) (n : ℕ) (p : JSString)
    (cache : Option Cache) : Option (Except ε JSString × Option Cache) :=
  let p := resolve cwd [p]
  match cache.bind (· p) with
  | some value => some (.ok value, cache)
  | none => (Sync.loop os cwd n (Scan.new p cache)).map fun (result, s) ↦ (result, s.cache)

/-! ### No empty paths -/

theorem resolve_ne_nil (cwd : JSString) (paths : List JSString) : resolve cwd paths ≠ [] := by
  unfold resolve
  dsimp only
  split_ifs with habsolute hempty
  · exact List.cons_ne_nil _ _
  · decide
  · exact hempty

/-- There is a cache, and no value in it is empty. -/
def Cache.Filled (cache : Option Cache) : Prop :=
  ∃ c, cache = some c ∧ ∀ key value, c key = some value → value ≠ []

theorem Cache.Filled.store {s : Scan} (h : Cache.Filled s.cache) {key value : JSString}
    (hvalue : value ≠ []) : Cache.Filled (s.store key value).cache := by
  obtain ⟨old, hold, hfilled⟩ := h
  have hstore : (s.store key value).cache = some (update old key (some value)) := by
    rw [Scan.store, hold, Option.map_some]
  refine ⟨_, hstore, fun k v hv ↦ ?_⟩
  by_cases hk : k = key
  · rw [hk, Function.update_self] at hv
    exact Option.some.inj hv ▸ hvalue
  · rw [Function.update_of_ne hk] at hv
    exact hfilled k v hv

namespace Sync

variable {ε : Type} {os : Calls ε} {cwd : JSString} {s s' : Scan}

theorem cache_next (s : Scan) : s.next.cache = s.cache ∧ s.next.p = s.p := by
  unfold Scan.next
  split
  exacts [⟨rfl, rfl⟩, ⟨rfl, rfl⟩]

theorem restart_ne_nil (cwd : JSString) (s : Scan) : (restart cwd s).p ≠ [] :=
  resolve_ne_nil cwd [s.resolvedLink.getD [], s.p.drop s.pos]

/-- A round stores and scans no empty path. -/
theorem filled_visit (h : Cache.Filled s.cache) (hp : s.p ≠ [])
    (hvisit : visit os cwd s = .ok s') : Cache.Filled s'.cache ∧ s'.p ≠ [] := by
  unfold visit at hvisit
  split at hvisit
  · obtain rfl := Except.ok.inj hvisit
    exact ⟨h, hp⟩
  · rename_i hhard
    have hbase : s.base ≠ [] := fun hnil ↦ hhard (by simp [Scan.isHard, hnil])
    split at hvisit
    · obtain rfl := Except.ok.inj hvisit
      exact ⟨h, restart_ne_nil _ _⟩
    · rcases hlstat : os.lstat s.base with e | stat
      · rw [hlstat] at hvisit
        cases hvisit
      · rw [hlstat] at hvisit
        change (if (!stat.isSymbolicLink) = true then Except.ok s.markHard
          else if s.isUnseen stat.id = true then
            (readLink os cwd s stat.id).bind fun s ↦ .ok (restart cwd s)
          else .ok (restart cwd s)) = _ at hvisit
        split_ifs at hvisit
        · obtain rfl := Except.ok.inj hvisit
          exact ⟨Cache.Filled.store (s := { s with knownHard := update s.knownHard s.base true }) h
            hbase, hp⟩
        · rcases hstat : os.stat s.base with e | u
          · simp only [readLink, hstat] at hvisit
            cases hvisit
          · rcases hread : os.readlink s.base with e | target
            · simp only [readLink, hstat, hread] at hvisit
              cases hvisit
            · simp only [readLink, hstat, hread] at hvisit
              obtain rfl := Except.ok.inj hvisit
              refine ⟨?_, restart_ne_nil _ _⟩
              exact Cache.Filled.store (s := (s.see stat.id target).setLink
                (resolve cwd [s.previous, target])) h (resolve_ne_nil _ _)
        · obtain rfl := Except.ok.inj hvisit
          exact ⟨h, restart_ne_nil _ _⟩

theorem filled_loop (h : Cache.Filled s.cache) (hp : s.p ≠ []) {k : ℕ}
    {result : Except ε JSString} (hloop : loop os cwd k s = some (result, s')) :
    Cache.Filled s'.cache ∧ ∀ filename, result = .ok filename → filename ≠ [] := by
  induction k generalizing s with
  | zero =>
    rw [loop] at hloop
    split_ifs at hloop
    obtain ⟨rfl, rfl⟩ := Prod.mk.inj (Option.some.inj hloop)
    refine ⟨h.store hp, fun filename hfilename ↦ ?_⟩
    exact Except.ok.inj hfilename ▸ hp
  | succ k ih =>
    rw [loop] at hloop
    split_ifs at hloop
    · obtain ⟨rfl, rfl⟩ := Prod.mk.inj (Option.some.inj hloop)
      refine ⟨h.store hp, fun filename hfilename ↦ ?_⟩
      exact Except.ok.inj hfilename ▸ hp
    · rcases hvisit : visit os cwd s.next with e | t
      · rw [hvisit] at hloop
        obtain ⟨rfl, rfl⟩ := Prod.mk.inj (Option.some.inj hloop)
        exact ⟨h, nofun⟩
      · rw [hvisit] at hloop
        obtain ⟨hcache, hsame⟩ := cache_next s
        obtain ⟨ht, htp⟩ := filled_visit (hcache.symm ▸ h) (hsame.symm ▸ hp) hvisit
        exact ih ht htp hloop

end Sync

/-- No name that is returned is empty, and none in the cache. -/
theorem filled_realpathSync {ε : Type} {os : Calls ε} {cwd p : JSString} {n : ℕ}
    {cache cache' : Option Cache} {result : Except ε JSString} (h : Cache.Filled cache)
    (hcall : realpathSync os cwd n p cache = some (result, cache')) :
    Cache.Filled cache' ∧ ∀ filename, result = .ok filename → filename ≠ [] := by
  unfold realpathSync at hcall
  dsimp only at hcall
  rcases hentry : cache.bind (· (resolve cwd [p])) with _ | value
  · rw [hentry] at hcall
    obtain ⟨⟨r, s⟩, hloop, heq⟩ := Option.map_eq_some_iff.mp hcall
    obtain ⟨rfl, rfl⟩ := Prod.mk.inj heq
    exact Sync.filled_loop h (resolve_ne_nil cwd [p]) hloop
  · rw [hentry] at hcall
    obtain ⟨rfl, rfl⟩ := Prod.mk.inj (Option.some.inj hcall)
    refine ⟨h, fun filename hfilename ↦ ?_⟩
    obtain ⟨c, rfl, hfilled⟩ := h
    exact Except.ok.inj hfilename ▸ hfilled _ value hentry

/-! ## The asynchronous version -/

namespace Async

/-- What comes next: `LOOP`, which has been called or scheduled, the callback of a system call, or
nothing after the callback of the program. -/
inductive Pending (ε : Type) where
  | loop
  | lstat
  | stat (id : FileId)
  | readlink (id : FileId)
  | done (result : Except ε JSString)

variable {ε : Type} (os : Calls ε) (cwd : JSString) (s : Scan)

def gotResolvedLink (resolvedLink : JSString) : Scan × Pending ε :=
  (s.restart cwd resolvedLink, .loop)

/-- `gotTarget`, with the name for the cache. -/
def gotTarget (target base : JSString) : Scan × Pending ε :=
  let resolvedLink := resolve cwd [s.previous, target]
  gotResolvedLink cwd (s.store base resolvedLink) resolvedLink

def gotStat (stat : LinkStat) : Scan × Pending ε :=
  if !stat.isSymbolicLink then (s.markHard, .loop)
  else if s.isUnseen stat.id then (s, .stat stat.id)
  else gotTarget cwd s ((s.seenLinks stat.id).getD []) s.base

def loop : Scan × Pending ε :=
  if s.p.length ≤ s.pos then (s.store s.original s.p, .done (.ok s.p))
  else
    let s := s.next
    if s.isHard then (s, .loop)
    else match s.cached s.base with
      | some resolvedLink => gotResolvedLink cwd s resolvedLink
      | none => (s, .lstat)

/-- The next function is called. -/
def step : Scan × Pending ε → Scan × Pending ε
  | (s, .loop) => loop cwd s
  | (s, .lstat) =>
    match os.lstat s.base with
    | .ok stat => gotStat cwd s stat
    | .error e => (s, .done (.error e))
  | (s, .stat id) =>
    match os.stat s.base with
    | .ok _ => (s, .readlink id)
    | .error e => (s, .done (.error e))
  | (s, .readlink id) =>
    match os.readlink s.base with
    | .ok target => gotTarget cwd (s.see id target) target (js "undefined")
    | .error e => (s, .done (.error e))
  | (s, .done result) => (s, .done result)

end Async

/-- `fs.realpath`, after so many steps: what the callback of the program is called with. -/
def realpath {ε : Type} (os : Calls ε) (cwd : JSString) (n : ℕ) (p : JSString)
    (cache : Option Cache) : Option (Except ε JSString) :=
  let p := resolve cwd [p]
  match cache.bind (· p) with
  | some value => some (.ok value)
  | none =>
    match ((Async.step os cwd)^[n] (Scan.new p cache, .loop)).2 with
    | .done result => some result
    | _ => none

end SpiderNode.Files
