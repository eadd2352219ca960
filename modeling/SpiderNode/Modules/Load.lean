import SpiderNode.Machine.Runs
import SpiderNode.Text.Utf16
import Mathlib.Data.List.Nodup
import Mathlib.Logic.Function.Basic

/-!
# Loading modules

`Module._load` of `lib/module.js` keeps the modules in `Module._cache`, by their filenames. A module
is put there before its file is evaluated, so that a file that is required again on the way gets
what is exported so far; and it is taken out again when the evaluation throws.

The files that are being evaluated are the `stack`. Its top is the code that runs, or the program if
there is none: it calls `_load` again, assigns to `module.exports`, comes to its end, or throws. An
exception goes to the code that has called `_load`, which may catch it and do something else, or
throw in turn. What a request stands for is the business of `Module._resolveFilename`, and comes as
an argument of the event.
-/

namespace SpiderNode.Modules

open Function (update)

/-- An object that `require` returns. -/
inductive Exports (V : Type*) where
  /-- The object that the constructor makes for a module. -/
  | own (m : ℕ)
  | native (id : JSString)
  | value (v : V)
  deriving DecidableEq, Repr

/-- A `Module`. -/
structure Module (F V : Type*) where
  /-- The filename, or `'.'` for the main module. -/
  id : Option F
  filename : F
  /-- The module that was running. -/
  parent : Option ℕ
  exports : Exports V
  loaded : Bool

/-- What `Module._resolveFilename` makes of a request. -/
inductive Resolution (F : Type*) where
  | missing
  | native (id : JSString)
  | file (filename : F)

/-- How far an evaluation has come. -/
inductive Outcome where
  | started
  | completed
  | failed
  deriving DecidableEq, Repr

/-- The modules. They are numbered in the order in which they are made. -/
structure Loader (F V : Type*) where
  /-- `Module._cache` -/
  cache : F → Option ℕ
  modules : ℕ → Option (Module F V)
  created : ℕ
  /-- `process.mainModule` -/
  mainModule : Option ℕ
  /-- The files that are being evaluated, with their modules. -/
  stack : List (F × ℕ)
  /-- What the last call of `_load` has come to, if it has returned or thrown. -/
  result : Option (Except Unit (Exports V))
  /-- The evaluations, the last one first. -/
  history : List (F × Outcome)

namespace Loader

variable {F V : Type*} [DecidableEq F]

def init : Loader F V := ⟨fun _ ↦ none, fun _ ↦ none, 0, none, [], none, []⟩

variable (s : Loader F V)

/-- The number of evaluations that have begun. -/
def evaluations (f : F) : ℕ := s.history.count (f, .started)

/-- The outcome of the most recent evaluation. -/
def outcome (f : F) : Option Outcome := (s.history.find? (·.1 = f)).map (·.2)

def exportsOf (m : ℕ) : Exports V := ((s.modules m).map (·.exports)).getD (.own m)

/-- `Module._load` up to the evaluation of the file. -/
def load (filename : F) (isMain : Bool) : Loader F V :=
  match s.cache filename with
  | some m => { s with result := some (.ok (s.exportsOf m)) }
  | none =>
    { s with
      cache := update s.cache filename (some s.created)
      modules := update s.modules s.created (some
        { id := if isMain then none else some filename
          filename := filename
          parent := s.stack.head?.map (·.2)
          exports := .own s.created
          loaded := false })
      created := s.created + 1
      mainModule := if isMain then some s.created else s.mainModule
      stack := (filename, s.created) :: s.stack
      result := none
      history := (filename, .started) :: s.history }

/-- `Module._load` behind an evaluation that has come to its end. -/
def returns : Loader F V :=
  match s.stack with
  | (filename, m) :: stack =>
    { s with
      modules := update s.modules m ((s.modules m).map fun M ↦ { M with loaded := true })
      stack := stack
      result := some (.ok (s.exportsOf m))
      history := (filename, .completed) :: s.history }
  | [] => s

/-- `Module._load` behind an evaluation that has thrown. -/
def throws : Loader F V :=
  match s.stack with
  | (filename, _) :: stack =>
    { s with
      cache := update s.cache filename none
      stack := stack
      result := some (.error ())
      history := (filename, .failed) :: s.history }
  | [] => s

/-- An assignment to `module.exports`. -/
def setExports (v : V) : Loader F V :=
  match s.stack with
  | (_, m) :: _ =>
    { s with
      modules := update s.modules m ((s.modules m).map fun M ↦ { M with exports := .value v }) }
  | [] => s

inductive Event (F V : Type*) where
  | load (r : Resolution F) (isMain : Bool)
  | setExports (v : V)
  | returns
  | throws

def Allows : Event F V → Prop
  | .load _ _ => True
  | .setExports _ | .returns | .throws => s.stack ≠ []

omit [DecidableEq F] in
instance : ∀ ev, Decidable (s.Allows ev)
  | .load _ _ => .isTrue trivial
  | .setExports _ | .returns | .throws =>
    match h : s.stack with
    | [] => .isFalse fun hne ↦ hne h
    | _ :: _ => .isTrue fun hn ↦ by cases h.symm.trans hn

def step : Event F V → Loader F V
  | .load .missing _ => { s with result := some (.error ()) }
  | .load (.native id) _ => { s with result := some (.ok (.native id)) }
  | .load (.file filename) isMain => s.load filename isMain
  | .setExports v => s.setExports v
  | .returns => s.returns
  | .throws => s.throws

def machine (F V : Type*) [DecidableEq F] : Machine (Loader F V) (Event F V) Empty :=
  ⟨Allows, fun s ev ↦ .ok (s.step ev)⟩

instance (s : Loader F V) (ev : Event F V) : Decidable ((machine F V).guard s ev) :=
  inferInstanceAs (Decidable (s.Allows ev))

/-! ## The invariant -/

/-- The cache has the modules that are being evaluated and those of which the last evaluation has
completed. -/
structure Tracks : Prop where
  nodup : (s.stack.map (·.1)).Nodup
  created : ∀ f m, s.cache f = some m → m < s.created ∧
    ∃ M, s.modules m = some M ∧ M.filename = f
  running : ∀ f m, (f, m) ∈ s.stack → s.cache f = some m ∧ s.outcome f = some .started
  loaded : ∀ f m, s.cache f = some m → (f, m) ∉ s.stack →
    s.outcome f = some .completed ∧ ∃ M, s.modules m = some M ∧ M.loaded = true
  absent : ∀ f, s.cache f = none → s.outcome f ≠ some .completed

variable {s} {t : Loader F V} {ev : Event F V} {f g : F} {m n : ℕ}

theorem outcome_cons (o : Outcome) (hs : t.history = (g, o) :: s.history) :
    t.outcome f = if g = f then some o else s.outcome f := by
  unfold outcome
  rw [hs]
  by_cases h : g = f
  · simp [h]
  · simp [h]

/-- Different files have different modules. -/
theorem Tracks.cache_injective (h : s.Tracks) (hf : s.cache f = some m) (hg : s.cache g = some m) :
    f = g := by
  obtain ⟨-, M, hM, rfl⟩ := h.created f m hf
  obtain ⟨-, N, hN, rfl⟩ := h.created g m hg
  rw [Option.some.inj (hM.symm.trans hN)]

theorem tracks_init : (init : Loader F V).Tracks where
  nodup := List.nodup_nil
  created _ _ h := by cases h
  running _ _ h := by cases h
  loaded _ _ h := by cases h
  absent _ _ h := by cases h

/-- The invariant does not look at what is exported. -/
theorem Tracks.frame (h : s.Tracks) (hcache : t.cache = s.cache) (hcreated : t.created = s.created)
    (hstack : t.stack = s.stack) (hhistory : t.history = s.history)
    (hmodules : ∀ m M, s.modules m = some M →
      ∃ N, t.modules m = some N ∧ N.filename = M.filename ∧ N.loaded = M.loaded) : t.Tracks := by
  have houtcome : t.outcome = s.outcome := by
    funext f
    unfold outcome
    rw [hhistory]
  constructor
  · rw [hstack]
    exact h.nodup
  · intro f m hf
    rw [hcache] at hf
    obtain ⟨hm, M, hM, hfile⟩ := h.created f m hf
    obtain ⟨N, hN, hfile', -⟩ := hmodules m M hM
    exact ⟨hcreated ▸ hm, N, hN, hfile'.trans hfile⟩
  · rw [hstack, hcache, houtcome]
    exact h.running
  · rw [hstack, hcache, houtcome]
    intro f m hf hm
    obtain ⟨ho, M, hM, hloaded⟩ := h.loaded f m hf hm
    obtain ⟨N, hN, -, hloaded'⟩ := hmodules m M hM
    exact ⟨ho, N, hN, hloaded'.trans hloaded⟩
  · rw [hcache, houtcome]
    exact h.absent

theorem Tracks.load (h : s.Tracks) (filename : F) (isMain : Bool) :
    (s.load filename isMain).Tracks := by
  unfold Loader.load
  split
  · exact h.frame rfl rfl rfl rfl fun m M hM ↦ ⟨M, hM, rfl, rfl⟩
  · rename_i hcache
    have hfresh {f : F} {m : ℕ} (hm : s.cache f = some m) : m ≠ s.created :=
      Nat.ne_of_lt (h.created f m hm).1
    have hself : update s.cache filename (some s.created) filename = some s.created :=
      Function.update_self ..
    have hother {f : F} {m : ℕ} (hf : filename ≠ f)
        (hm : update s.cache filename (some s.created) f = some m) : s.cache f = some m :=
      (Function.update_of_ne hf.symm ..).symm.trans hm
    constructor
    · refine List.nodup_cons.mpr ⟨fun hmem ↦ ?_, h.nodup⟩
      obtain ⟨⟨f, m⟩, hm, rfl⟩ := List.mem_map.mp hmem
      exact absurd (hcache.symm.trans (h.running f m hm).1) (by rintro ⟨⟩)
    · intro f m hm
      by_cases hf : filename = f
      · subst hf
        obtain rfl := Option.some.inj (hself.symm.trans hm)
        exact ⟨Nat.lt_succ_self _, _, Function.update_self .., rfl⟩
      · obtain ⟨hlt, M, hM, hfile⟩ := h.created f m (hother hf hm)
        exact ⟨Nat.lt_succ_of_lt hlt, M,
          (Function.update_of_ne (hfresh (hother hf hm)) ..).trans hM, hfile⟩
    · intro f m hm
      rw [outcome_cons (s := s) .started rfl]
      obtain heq | hm := List.mem_cons.mp hm
      · obtain ⟨rfl, rfl⟩ := Prod.mk.inj heq
        exact ⟨Function.update_self .., if_pos rfl⟩
      · obtain ⟨hf, ho⟩ := h.running f m hm
        have hne : filename ≠ f := fun heq ↦ absurd (hcache.symm.trans (heq ▸ hf)) (by rintro ⟨⟩)
        exact ⟨(Function.update_of_ne hne.symm ..).trans hf, (if_neg hne).trans ho⟩
    · intro f m hm hnot
      rw [outcome_cons (s := s) .started rfl]
      by_cases hf : filename = f
      · subst hf
        obtain rfl := Option.some.inj (hself.symm.trans hm)
        exact absurd List.mem_cons_self hnot
      · obtain ⟨ho, M, hM, hloaded⟩ :=
          h.loaded f m (hother hf hm) fun hmem ↦ hnot (List.mem_cons_of_mem _ hmem)
        exact ⟨(if_neg hf).trans ho, M,
          (Function.update_of_ne (hfresh (hother hf hm)) ..).trans hM, hloaded⟩
    · intro f hf
      rw [outcome_cons (s := s) .started rfl]
      split_ifs with heq
      · rintro ⟨⟩
      · exact h.absent f ((Function.update_of_ne (Ne.symm heq) ..).symm.trans hf)

theorem Tracks.returns (h : s.Tracks) : s.returns.Tracks := by
  unfold Loader.returns
  split
  · rename_i filename m₀ stack hstack
    have hnodup := h.nodup
    rw [hstack, List.map_cons, List.nodup_cons] at hnodup
    obtain ⟨hcached, -⟩ := h.running filename m₀ (hstack ▸ List.mem_cons_self)
    obtain ⟨-, M₀, hM₀, hfile₀⟩ := h.created filename m₀ hcached
    have hmodule : update s.modules m₀ ((s.modules m₀).map fun M ↦ { M with loaded := true }) m₀ =
        some { M₀ with loaded := true } := by
      rw [Function.update_self, hM₀]
      rfl
    constructor
    · exact hnodup.2
    · intro f m hm
      by_cases hne : m = m₀
      · subst hne
        exact ⟨(h.created f m hm).1, _, hmodule, hfile₀.trans (h.cache_injective hcached hm)⟩
      · obtain ⟨hlt, M, hM, hfile⟩ := h.created f m hm
        exact ⟨hlt, M, (Function.update_of_ne hne ..).trans hM, hfile⟩
    · intro f m hm
      rw [outcome_cons (s := s) .completed rfl]
      have hne : filename ≠ f := fun heq ↦ hnodup.1 (List.mem_map.mpr ⟨(f, m), hm, heq.symm⟩)
      obtain ⟨hf, ho⟩ := h.running f m (hstack ▸ List.mem_cons_of_mem _ hm)
      exact ⟨hf, (if_neg hne).trans ho⟩
    · intro f m hm hnot
      rw [outcome_cons (s := s) .completed rfl]
      by_cases hf : filename = f
      · subst hf
        obtain rfl := Option.some.inj (hcached.symm.trans hm)
        exact ⟨if_pos rfl, _, hmodule, rfl⟩
      · have hne : m ≠ m₀ := fun heq ↦ hf (h.cache_injective hcached (heq ▸ hm))
        have hnot' : (f, m) ∉ s.stack := by
          rw [hstack]
          rintro (_ | ⟨_, hmem⟩)
          exacts [hf rfl, hnot hmem]
        obtain ⟨ho, M, hM, hloaded⟩ := h.loaded f m hm hnot'
        exact ⟨(if_neg hf).trans ho, M, (Function.update_of_ne hne ..).trans hM, hloaded⟩
    · intro f hf
      rw [outcome_cons (s := s) .completed rfl, if_neg]
      · exact h.absent f hf
      · rintro rfl
        cases hcached.symm.trans hf
  · exact h

theorem Tracks.throws (h : s.Tracks) : s.throws.Tracks := by
  unfold Loader.throws
  split
  · rename_i filename m₀ stack hstack
    have hnodup := h.nodup
    rw [hstack, List.map_cons, List.nodup_cons] at hnodup
    have hother {f : F} {m : ℕ} (hm : update s.cache filename none f = some m) :
        filename ≠ f ∧ s.cache f = some m := by
      have hne : filename ≠ f := by
        rintro rfl
        cases (Function.update_self ..).symm.trans hm
      exact ⟨hne, (Function.update_of_ne hne.symm ..).symm.trans hm⟩
    constructor
    · exact hnodup.2
    · exact fun f m hm ↦ h.created f m (hother hm).2
    · intro f m hm
      rw [outcome_cons (s := s) .failed rfl]
      have hne : filename ≠ f := fun heq ↦ hnodup.1 (List.mem_map.mpr ⟨(f, m), hm, heq.symm⟩)
      obtain ⟨hf, ho⟩ := h.running f m (hstack ▸ List.mem_cons_of_mem _ hm)
      exact ⟨(Function.update_of_ne hne.symm ..).trans hf, (if_neg hne).trans ho⟩
    · intro f m hm hnot
      obtain ⟨hne, hf⟩ := hother hm
      rw [outcome_cons (s := s) .failed rfl, if_neg hne]
      refine h.loaded f m hf ?_
      rw [hstack]
      rintro (_ | ⟨_, hmem⟩)
      exacts [hne rfl, hnot hmem]
    · intro f hf
      rw [outcome_cons (s := s) .failed rfl]
      split_ifs with heq
      · rintro ⟨⟩
      · exact h.absent f ((Function.update_of_ne (Ne.symm heq) ..).symm.trans hf)
  · exact h

theorem Tracks.setExports (h : s.Tracks) (v : V) : (s.setExports v).Tracks := by
  unfold Loader.setExports
  split
  · rename_i m₀ _ _
    refine h.frame rfl rfl rfl rfl fun m M hM ↦ ?_
    by_cases hm : m = m₀
    · subst hm
      refine ⟨{ M with exports := .value v }, ?_, rfl, rfl⟩
      exact (Function.update_self ..).trans (congrArg (Option.map _) hM)
    · exact ⟨M, (Function.update_of_ne hm ..).trans hM, rfl, rfl⟩
  · exact h

theorem Tracks.step (h : s.Tracks) (ev : Event F V) : (s.step ev).Tracks := by
  have hresult (r : Option (Except Unit (Exports V))) : Tracks { s with result := r } :=
    h.frame rfl rfl rfl rfl fun m M hM ↦ ⟨M, hM, rfl, rfl⟩
  cases ev with
  | load r isMain =>
    cases r with
    | missing | native => exact hresult _
    | file filename => exact h.load filename isMain
  | setExports v => exact h.setExports v
  | returns => exact h.returns
  | throws => exact h.throws

theorem tracks (h : (machine F V).Reaches init s) : s.Tracks := by
  refine h.invariant (p := Tracks) tracks_init ?_
  rintro s t ev hs - ht
  obtain rfl := Except.ok.inj ht
  exact hs.step ev

/-- A file is only evaluated when it is not in the cache. -/
theorem evaluations_step (hcache : s.cache f ≠ none) (ev : Event F V) :
    (s.step ev).evaluations f = s.evaluations f := by
  have hcons {g : F} {o : Outcome} (hne : (g, o) ≠ (f, .started)) :
      List.count (f, .started) ((g, o) :: s.history) = s.evaluations f :=
    List.count_cons_of_ne hne
  cases ev with
  | load r isMain =>
    cases r with
    | missing | native => rfl
    | file filename =>
      simp only [step, load]
      split
      · rfl
      · rename_i hnone
        exact hcons fun heq ↦ hcache ((Prod.mk.inj heq).1 ▸ hnone)
  | setExports v =>
    simp only [step, setExports]
    split
    exacts [rfl, rfl]
  | returns =>
    simp only [step, returns]
    split
    exacts [hcons (by rintro ⟨⟩), rfl]
  | throws =>
    simp only [step, throws]
    split
    exacts [hcons (by rintro ⟨⟩), rfl]

/-- In every run: a file is not evaluated as long as it is in the cache; a file that is being
evaluated is not evaluated again when it is required, and its module says what it exports; and when
no file is being evaluated, the cache has the files of which the last evaluation has completed, and
they are loaded. -/
theorem loads_once (h : (machine F V).Reaches init s) :
    (∀ f t, ((machine F V).restrict fun u _ ↦ u.cache f ≠ none).Reaches s t →
        t.evaluations f = s.evaluations f) ∧
      (∀ f m, (f, m) ∈ s.stack → ∀ isMain, s.step (.load (.file f) isMain) =
        { s with result := some (.ok (s.exportsOf m)) }) ∧
      (s.stack = [] → ∀ f, ((∃ m, s.cache f = some m) ↔ s.outcome f = some .completed) ∧
        ∀ m, s.cache f = some m → ∃ M, s.modules m = some M ∧ M.loaded = true) := by
  have htracks := tracks h
  refine ⟨fun f t ht ↦ ?_, fun f m hm isMain ↦ ?_, fun hstack f ↦ ?_⟩
  · refine ht.invariant (p := fun t ↦ t.evaluations f = s.evaluations f) rfl ?_
    rintro t u ev ht ⟨-, hcache⟩ hu
    obtain rfl := Except.ok.inj hu
    exact (evaluations_step hcache ev).trans ht
  · simp only [step, load, (htracks.running f m hm).1]
  · have hloaded (m : ℕ) (hm : s.cache f = some m) :=
      htracks.loaded f m hm (hstack ▸ List.not_mem_nil)
    refine ⟨⟨fun ⟨m, hm⟩ ↦ (hloaded m hm).1, fun ho ↦ ?_⟩, fun m hm ↦ (hloaded m hm).2⟩
    exact Option.ne_none_iff_exists'.mp fun hnone ↦ htracks.absent f hnone ho

/-- The file `false` requires `true`, which requires `false` and throws; it is required again, and
comes to its end. -/
theorem loads_once_cycle : ∃ s : Loader Bool ℕ, s.stack = [] ∧ s.evaluations true = 2 ∧
    (∃ m, s.cache true = some m) ∧ (∃ m, s.cache false = some m) := by
  have hrun := Machine.reaches_of_run (M := machine Bool ℕ) (s := init)
    (l := [.load (.file false) true, .load (.file true) false, .load (.file false) false, .throws,
      .load (.file true) false, .setExports 1, .returns, .returns]) rfl
  obtain ⟨-, -, hdone⟩ := loads_once hrun
  exact ⟨_, rfl, rfl, (hdone rfl true).1.mpr rfl, (hdone rfl false).1.mpr rfl⟩

end Loader

end SpiderNode.Modules
