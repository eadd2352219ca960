import SpiderNode.Files.SyncLoop

/-!
# The cache of `realpathSync`

Calls that share a cache, in a file system that does not change. All of them are made with paths
where links are acyclic and none is met twice: `Settles`.

The cache is `Sound` after each of them, so a call that has to scan its path returns what it would
return without a cache. A call that finds its path in the cache returns the value there. For a link
that was met on the way to another file this is what the link resolves to in one step. So a call
returns what it would return without a cache if and only if its entry, if there is one, has no links
(`sameResult_iff`).
-/

namespace SpiderNode.Files

variable {ε : Type} (os : Calls ε) (cwd : JSString)

/-- The links on a path are acyclic, and none is met twice. -/
def Settles (p : JSString) : Prop :=
  ∃ met o, Run os cwd [] (follow cwd [p]).parts met o ∧ met.Nodup

/-- The caches that calls leave behind, one after the other. -/
inductive Reachable : Cache → Prop
  | empty : Reachable fun _ ↦ none
  | call {cache cache' p k result} (h : Reachable cache) (hp : Settles os cwd p)
      (hcall : realpathSync os cwd k p (some cache) = some (result, some cache')) : Reachable cache'

/-- A call returns, or throws, what it does without a cache. -/
def SameResult (cache : Cache) (p : JSString) : Prop :=
  ∃ k k' result cache', realpathSync os cwd k p none = some (result, none) ∧
    realpathSync os cwd k' p (some cache) = some (result, some cache')

variable {os cwd} {cache cache' : Cache} {p value : JSString} {s : Scan} {met : List FileId}
  {o : Except ε (List JSString)} {r r' : Except ε JSString}

/-! ## More rounds -/

theorem loop_of_le (h : s.p.length ≤ s.pos) (k : ℕ) :
    Sync.loop os cwd k s = some (.ok s.p, s.store s.original s.p) := by
  rw [Sync.loop.eq_def]
  exact if_pos h

theorem loop_add {x : Except ε JSString × Scan} {k : ℕ} (h : Sync.loop os cwd k s = some x)
    (j : ℕ) : Sync.loop os cwd (k + j) s = some x := by
  induction k generalizing s with
  | zero =>
    by_cases hle : s.p.length ≤ s.pos
    · rw [loop_of_le hle] at h ⊢
      exact h
    · rw [Sync.loop, if_neg hle] at h
      cases h
  | succ k ih =>
    by_cases hle : s.p.length ≤ s.pos
    · rw [loop_of_le hle] at h ⊢
      exact h
    · rw [Nat.succ_add, Sync.loop, if_neg hle]
      rw [Sync.loop, if_neg hle] at h
      rcases hvisit : Sync.visit os cwd s.next with e | s'
      · rw [hvisit] at h
        exact h
      · rw [hvisit] at h
        exact ih h

theorem realpathSync_add {x : Except ε JSString × Option Cache} {c : Option Cache} {k : ℕ}
    (h : realpathSync os cwd k p c = some x) (j : ℕ) :
    realpathSync os cwd (k + j) p c = some x := by
  unfold realpathSync at h ⊢
  dsimp only at h ⊢
  rcases hentry : c.bind (· (resolve cwd [p])) with _ | value
  · rw [hentry] at h
    obtain ⟨y, hloop, rfl⟩ := Option.map_eq_some_iff.mp h
    exact Option.map_eq_some_iff.mpr ⟨y, loop_add hloop j, rfl⟩
  · rw [hentry] at h
    exact h

/-- The number of rounds does not matter. -/
theorem realpathSync_unique {x y : Except ε JSString × Option Cache} {c : Option Cache} {k k' : ℕ}
    (h : realpathSync os cwd k p c = some x) (h' : realpathSync os cwd k' p c = some y) :
    x = y := by
  have hx := realpathSync_add h k'
  have hy := realpathSync_add h' k
  rw [Nat.add_comm, hx] at hy
  exact Option.some.inj hy

/-! ## One call -/

theorem realpathSync_of_entry (h : cache (resolve cwd [p]) = some value) (k : ℕ) :
    realpathSync os cwd k p (some cache) = some (.ok value, some cache) := by
  unfold realpathSync
  dsimp only
  rw [Option.bind_some, h]

section

variable (hcwd : isAbsolute cwd = true) (hroot : IsHard os [slash])
include hcwd hroot

/-- A call that scans its path, with a cache or without. -/
theorem exists_realpathSync (c : Option Cache)
    (hsound : ∀ cache, c = some cache → Sound os cwd cache)
    (hnone : c.bind (· (resolve cwd [p])) = none)
    (hrun : Run os cwd [] (follow cwd [p]).parts met o) (hnodup : met.Nodup) :
    ∃ k c', realpathSync os cwd k p c = some (result o, c') ∧ c'.isSome = c.isSome ∧
      ∀ cache, c' = some cache → Sound os cwd cache := by
  have hnamed : ∀ q ∈ (follow cwd [p]).parts, IsName q := (follow cwd [p]).named
  have hp : resolve cwd [p] = pathOf (follow cwd [p]).parts := resolve_eq hcwd [p]
  have hstarts : Starts (Scan.new (resolve cwd [p]) c) (follow cwd [p]).parts :=
    ⟨hnamed, hp, rfl, rfl⟩
  have hknows : Knows os cwd (follow cwd [p]).parts c.isSome (Scan.new (resolve cwd [p]) c) met :=
    ⟨hp, rfl, fun _ hkey ↦ absurd hkey Bool.false_ne_true, fun _ _ ↦ rfl, hsound⟩
  obtain ⟨k, s', hloop, hisSome, hsound'⟩ :=
    exists_loop hcwd hroot hnamed hrun hrun hard_nil hstarts.next hknows.next hnodup
  refine ⟨k + 1, s'.cache, ?_, hisSome, hsound'⟩
  unfold realpathSync
  dsimp only
  rw [hnone, loop_of_starts hstarts, hloop]
  rfl

theorem exists_realpathSync_none (hrun : Run os cwd [] (follow cwd [p]).parts met o)
    (hnodup : met.Nodup) : ∃ k, realpathSync os cwd k p none = some (result o, none) := by
  obtain ⟨k, c', hcall, hisSome, -⟩ :=
    exists_realpathSync hcwd hroot none (fun _ h ↦ absurd h.symm (Option.some_ne_none _)) rfl hrun
      hnodup
  rw [Option.isSome_none, Option.isSome_eq_false_iff, Option.isNone_iff_eq_none] at hisSome
  exact ⟨k, hisSome ▸ hcall⟩

/-- **All entries are sound**, whatever calls have been made. -/
theorem Reachable.sound (h : Reachable os cwd cache) : Sound os cwd cache := by
  induction h with
  | empty => exact fun _ _ h ↦ absurd h.symm (Option.some_ne_none _)
  | @call cache cache' p k result _ hp hcall ih =>
    rcases hentry : cache (resolve cwd [p]) with _ | value
    · obtain ⟨met, o, hrun, hnodup⟩ := hp
      have hsound : ∀ c, some cache = some c → Sound os cwd c :=
        fun _ heq ↦ Option.some.inj heq ▸ ih
      obtain ⟨k', c', hcall', -, hsound'⟩ :=
        exists_realpathSync hcwd hroot (some cache) hsound hentry hrun hnodup
      have heq := realpathSync_unique hcall hcall'
      exact hsound' cache' (congrArg Prod.snd heq).symm
    · have heq := realpathSync_unique hcall (realpathSync_of_entry hentry k)
      obtain rfl : cache' = cache := Option.some.inj (congrArg Prod.snd heq)
      exact ih

omit hcwd hroot in
/-- A result is the value of an entry only if the value has no links. -/
theorem result_eq_ok_iff {K ys : List JSString} (hK : ∀ q ∈ K, IsName q) (hys : ∀ q ∈ ys, IsName q)
    (hrun : Run os cwd [] K met o) (hleads : Leads os cwd K ys) :
    result o = .ok (pathOf ys) ↔ Hard os cwd ys := by
  constructor
  · intro hresult
    rcases o with e | r
    · cases hresult
    · have hpath : pathOf r = pathOf ys := Except.ok.inj hresult
      obtain rfl := pathOf_injective (hrun.named hK) hys hpath
      exact hrun.hard_of_ok hard_nil
  · intro hhard
    obtain ⟨met', hrun', -⟩ := hleads.run hrun
    obtain ⟨-, rfl⟩ := hrun'.unique (Run.of_hard hhard)
    rfl

/-- **The cache is transparent** for a call, whatever calls have been made before, if and only if
the entry for its path has no links. -/
theorem sameResult_iff (h : Reachable os cwd cache) (hp : Settles os cwd p) :
    SameResult os cwd cache p ↔
      ∀ value, cache (resolve cwd [p]) = some value → Hard os cwd (segments value) := by
  have hnamed : ∀ q ∈ (follow cwd [p]).parts, IsName q := (follow cwd [p]).named
  have hpath : pathOf (follow cwd [p]).parts = resolve cwd [p] := (resolve_eq hcwd [p]).symm
  obtain ⟨met, o, hrun, hnodup⟩ := hp
  obtain ⟨k, hcall⟩ := exists_realpathSync_none hcwd hroot hrun hnodup
  rcases hentry : cache (resolve cwd [p]) with _ | value
  · refine iff_of_true ?_ fun value hvalue ↦ absurd hvalue.symm (Option.some_ne_none value)
    have hsound : ∀ c, some cache = some c → Sound os cwd c :=
      fun _ heq ↦ Option.some.inj heq ▸ h.sound hcwd hroot
    obtain ⟨k', c', hcall', hisSome, -⟩ :=
      exists_realpathSync hcwd hroot (some cache) hsound hentry hrun hnodup
    obtain ⟨cache', rfl⟩ := Option.isSome_iff_exists.mp hisSome
    exact ⟨k, k', result o, cache', hcall, hcall'⟩
  · obtain ⟨ys, rfl, hys, hleads⟩ := (h.sound hcwd hroot _ _ hentry).whole hnamed hpath
    have hiff := result_eq_ok_iff hnamed hys hrun hleads
    have hlookup : ∀ k, realpathSync os cwd k p (some cache) = some (.ok (pathOf ys), some cache) :=
      realpathSync_of_entry hentry
    constructor
    · rintro ⟨k₁, k₂, r, cache', hnone, hsome⟩ value hvalue
      obtain rfl := Option.some.inj hvalue
      have hr : result o = r := congrArg Prod.fst (realpathSync_unique hcall hnone)
      have hr' : r = .ok (pathOf ys) := congrArg Prod.fst (realpathSync_unique hsome (hlookup k₂))
      rw [segments_pathOf hys]
      exact hiff.mp (hr.trans hr')
    · intro hhard
      have hys' := hhard _ rfl
      rw [segments_pathOf hys] at hys'
      exact ⟨k, 0, result o, cache, hcall, hiff.mpr hys' ▸ hlookup 0⟩

end

/-! ## Three links -/

/-- A file system with some links, where everything else is there and is no link. -/
def linked (links : List (JSString × FileId × JSString)) : Calls Unit where
  lstat p := .ok (((links.find? (·.1 = p)).map fun l ↦ ⟨true, l.2.1⟩).getD ⟨false, (0, 0)⟩)
  stat _ := .ok ()
  readlink p :=
    match links.find? (·.1 = p) with
    | some l => .ok l.2.2
    | none => .error ()

/-- Links, each to the next of them, and the last to a file. -/
def chain : Calls Unit :=
  linked [(js "/k", (0, 1), js "l"), (js "/l", (0, 2), js "m"), (js "/m", (0, 3), js "f")]

def chainCall : Option (Except Unit JSString × Option Cache) :=
  realpathSync chain (js "/") 20 (js "/k") (some fun _ ↦ none)

/-- The cache behind a call with the first link. -/
def chainCache : Cache := (chainCall.bind Prod.snd).getD fun _ ↦ none

theorem chainCall_eq : chainCall = some (.ok (js "/f"), some chainCache) := by
  have hresult : chainCall.map Prod.fst = some (.ok (js "/f")) := by decide +kernel
  have hcache : (chainCall.bind Prod.snd).isSome = true := by decide +kernel
  rw [chainCache]
  rcases hcall : chainCall with _ | ⟨result, _ | cache⟩
  · rw [hcall] at hresult
    cases hresult
  · rw [hcall] at hcache
    cases hcache
  · rw [hcall] at hresult
    obtain rfl := Option.some.inj hresult
    rfl

theorem run_chain_l : Run chain (js "/") [] [js "l"] [(0, 2), (0, 3)] (.ok [js "f"]) := by
  have hl : kind chain (js "/") [] (js "l") = .link (0, 2) [js "m"] := rfl
  have hm : kind chain (js "/") [] (js "m") = .link (0, 3) [js "f"] := rfl
  exact .link hl (.link hm (.hard rfl (.done _)))

theorem settles_chain_l : Settles chain (js "/") (js "/l") := ⟨_, _, run_chain_l, by decide⟩

theorem settles_chain_k : Settles chain (js "/") (js "/k") := by
  have hk : kind chain (js "/") [] (js "k") = .link (0, 1) [js "l"] := rfl
  exact ⟨_, _, .link hk run_chain_l, by decide⟩

theorem reachable_chainCache : Reachable chain (js "/") chainCache :=
  .call .empty settles_chain_k chainCall_eq

theorem sameResult_iff_chain :
    SameResult chain (js "/") chainCache (js "/l") ↔
      ∀ value, chainCache (js "/l") = some value → Hard chain (js "/") (segments value) :=
  sameResult_iff (by decide) ⟨⟨false, (0, 0)⟩, rfl, rfl⟩ reachable_chainCache settles_chain_l

/-- The second link is known as the third. -/
theorem not_sameResult_chain :
    ∃ cache, Reachable chain (js "/") cache ∧ Settles chain (js "/") (js "/l") ∧
      ¬SameResult chain (js "/") cache (js "/l") := by
  refine ⟨chainCache, reachable_chainCache, settles_chain_l, ?_⟩
  rintro ⟨k, k', result, cache', hnone, hsome⟩
  have h : (realpathSync chain (js "/") 20 (js "/l") none).map Prod.fst = some (.ok (js "/f")) := by
    decide +kernel
  have h' : (realpathSync chain (js "/") 20 (js "/l") (some chainCache)).map Prod.fst =
      some (.ok (js "/m")) := by decide +kernel
  obtain ⟨x, hx, hfst⟩ := Option.map_eq_some_iff.mp h
  obtain ⟨y, hy, hsnd⟩ := Option.map_eq_some_iff.mp h'
  rw [realpathSync_unique hx hnone] at hfst
  rw [realpathSync_unique hy hsome] at hsnd
  have heq : js "/f" = js "/m" := Except.ok.inj (hfst.symm.trans hsnd)
  exact absurd heq (by decide)

end SpiderNode.Files
