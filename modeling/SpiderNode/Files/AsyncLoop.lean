import SpiderNode.Files.SyncLoop

/-!
# The loop of `realpath`

The asynchronous version without a cache. It resolves the target of a link each time that the link
is met, so it follows a run also if links are met twice (`exists_realpath`). But it reads each link
only once, and knows it by device and inode: `OneTarget`.
-/

namespace SpiderNode.Files

variable {ε : Type} (os : Calls ε) (cwd : JSString)

/-- Links that are the same file have the same target. -/
def OneTarget : Prop :=
  ∀ ⦃key key' stat stat' target target'⦄, os.lstat key = .ok stat → os.lstat key' = .ok stat' →
    stat.isSymbolicLink = true → stat'.isSymbolicLink = true → stat.id = stat'.id →
    os.readlink key = .ok target → os.readlink key' = .ok target' → target = target'

/-- What the variables of an asynchronous call know. -/
structure Remembers (s : Scan) : Prop where
  cache : s.cache = none
  knownHard : ∀ key, s.knownHard key = true → IsHard os key
  seen : ∀ {id target}, s.seenLinks id = some target → ∀ {pre n names},
    kind os cwd pre n = .link id names → names = (follow cwd [previousOf pre, target]).parts

variable {os cwd} {pre todo names ns r : List JSString} {n : JSString} {s : Scan}
  {met : List FileId} {id : FileId}

theorem Remembers.next (h : Remembers os cwd s) : Remembers os cwd s.next := by
  unfold Scan.next
  split
  · exact ⟨h.cache, h.knownHard, h.seen⟩
  · exact h

theorem Remembers.cached (h : Remembers os cwd s) (key : JSString) : s.cached key = none := by
  rw [Scan.cached, h.cache]
  rfl

/-- Without a cache, nothing is stored. -/
theorem Remembers.store_eq (h : Remembers os cwd s) (key value : JSString) :
    s.store key value = s := by
  have hcache : s.cache.map (fun cache ↦ Function.update cache key (some value)) = s.cache := by
    rw [h.cache]
    rfl
  rw [Scan.store, hcache]

theorem Remembers.restart (h : Remembers os cwd s) (resolvedLink : JSString) :
    Remembers os cwd (s.restart cwd resolvedLink) := ⟨h.cache, h.knownHard, h.seen⟩

/-- What is not a link is remembered. -/
theorem Remembers.markHard (h : Remembers os cwd s) (hbase : IsHard os s.base) :
    Remembers os cwd s.markHard := by
  have hknown : Remembers os cwd
      { s with knownHard := Function.update s.knownHard s.base true } := by
    refine ⟨h.cache, fun k hk ↦ ?_, h.seen⟩
    rcases eq_or_ne k s.base with rfl | hne
    · exact hbase
    · exact h.knownHard k ((Function.update_of_ne hne ..).symm.trans hk)
  rw [Scan.markHard, hknown.store_eq]
  exact hknown

/-- The target of a link is remembered. -/
theorem Remembers.see (h : Remembers os cwd s) (hone : OneTarget os) {target : JSString}
    {stat : LinkStat} (hlstat : os.lstat s.base = .ok stat) (hlink : stat.isSymbolicLink = true)
    (hread : os.readlink s.base = .ok target) : Remembers os cwd (s.see stat.id target) := by
  refine ⟨h.cache, h.knownHard, fun {id target'} hseen {pre n names} hkind ↦ ?_⟩
  rcases eq_or_ne id stat.id with rfl | hne
  · have hself : (s.see stat.id target).seenLinks stat.id = some target :=
      Function.update_self ..
    obtain rfl : target = target' := Option.some.inj (hself.symm.trans hseen)
    obtain ⟨stat', target', hlstat', hlink', hid, -, hread', rfl⟩ := exists_of_kind_eq_link hkind
    rw [hone hlstat hlstat' hlink hlink' hid.symm hread hread']
  · exact h.seen ((Function.update_of_ne hne ..).symm.trans hseen) hkind

/-! ## Steps -/

section

variable {x y z : Scan × Async.Pending ε}

/-- Steps lead from one point of a call to another. -/
def Steps (os : Calls ε) (cwd : JSString) (x y : Scan × Async.Pending ε) : Prop :=
  ∃ k, (Async.step os cwd)^[k] x = y

theorem Steps.refl (x : Scan × Async.Pending ε) : Steps os cwd x x := ⟨0, rfl⟩

theorem Steps.trans (h : Steps os cwd x y) (h' : Steps os cwd y z) : Steps os cwd x z := by
  obtain ⟨k, rfl⟩ := h
  obtain ⟨k', rfl⟩ := h'
  exact ⟨k' + k, Function.iterate_add_apply ..⟩

theorem Steps.cons (hstep : Async.step os cwd x = y) (h : Steps os cwd y z) : Steps os cwd x z :=
  Steps.trans ⟨1, hstep⟩ h

end

theorem step_lstat {stat : LinkStat} (h : os.lstat s.base = .ok stat) :
    Async.step os cwd (s, .lstat) = Async.gotStat cwd s stat := by
  unfold Async.step
  dsimp only
  rw [h]

theorem step_stat (h : os.stat s.base = .ok ()) :
    Async.step os cwd (s, .stat id) = (s, .readlink id) := by
  unfold Async.step
  dsimp only
  rw [h]

theorem step_readlink {target : JSString} (h : os.readlink s.base = .ok target) :
    Async.step os cwd (s, .readlink id) =
      Async.gotTarget cwd (s.see id target) target (js "undefined") := by
  unfold Async.step
  dsimp only
  rw [h]

theorem step_of_isHard (hle : ¬s.p.length ≤ s.pos) (hhard : s.next.isHard = true) :
    Async.step os cwd (s, .loop) = (s.next, .loop) := by
  show Async.loop cwd s = _
  rw [Async.loop, if_neg hle]
  exact if_pos hhard

theorem step_of_not_isHard (hm : Remembers os cwd s.next) (hle : ¬s.p.length ≤ s.pos)
    (hhard : ¬s.next.isHard = true) : Async.step os cwd (s, .loop) = (s.next, .lstat) := by
  show Async.loop cwd s = _
  rw [Async.loop, if_neg hle]
  dsimp only
  rw [if_neg hhard, hm.cached]

/-- The first round goes on, since the root is no link. -/
theorem step_of_starts (h : Starts s names) :
    Async.step os cwd (s, .loop) = (s.next, .loop) := by
  refine step_of_isHard h.not_length_le_pos ?_
  rw [h.next_eq]
  rfl

section

variable (hm : Remembers os cwd s) (h : Finds s pre n ns)
include hm h

theorem steps_of_hard (hkind : kind os cwd pre n = .hard) :
    Steps os cwd (s, .lstat) (s.markHard, .loop) ∧ At s.markHard (pre ++ [n]) ns ∧
      Remembers os cwd s.markHard := by
  obtain ⟨stat, hlstat, hlink⟩ := kind_eq_hard_iff.mp hkind
  rw [← h.base] at hlstat
  have hfinds : Finds s.markHard pre n ns := h.congr rfl rfl rfl rfl rfl
  refine ⟨⟨1, (step_lstat hlstat).trans ?_⟩, hfinds.at_next, hm.markHard ⟨stat, hlstat, hlink⟩⟩
  rw [Async.gotStat, if_pos (by simp [hlink])]

variable (hcwd : isAbsolute cwd = true)
include hcwd

/-- A target is resolved from where the link is. -/
theorem gotTarget_eq {target : JSString}
    (hnames : (follow cwd [previousOf pre, target]).parts = names) (base : JSString) :
    Async.gotTarget cwd s target base =
      ((s.restart cwd (pathOf names), .loop) : Scan × Async.Pending ε) := by
  have hresolve : resolve cwd [s.previous, target] = pathOf names := by
    rw [resolve_eq hcwd, h.previous, ← hnames]
    rfl
  rw [Async.gotTarget, hm.store_eq, hresolve]
  rfl

theorem steps_of_link (hone : OneTarget os) (hkind : kind os cwd pre n = .link id names) :
    ∃ s', Steps os cwd (s, .lstat) (s', .loop) ∧ Starts s' (names ++ ns) ∧ Remembers os cwd s' := by
  obtain ⟨stat, target, hlstat, hlink, rfl, hstat, hread, hnames⟩ := exists_of_kind_eq_link hkind
  rw [← h.base] at hlstat hstat hread
  have hgot : Async.step os cwd (s, .lstat) = Async.gotStat cwd s stat := step_lstat hlstat
  rw [Async.gotStat, if_neg (by simp [hlink])] at hgot
  have hnamed := named_of_kind_eq_link hkind
  by_cases hunseen : s.isUnseen stat.id = true
  · rw [if_pos hunseen] at hgot
    have hm' := hm.see hone hlstat hlink hread
    have hfinds : Finds (s.see stat.id target) pre n ns := h.congr rfl rfl rfl rfl rfl
    have htarget : Async.step os cwd (s, .readlink stat.id) =
        ((s.see stat.id target).restart cwd (pathOf names), .loop) :=
      (step_readlink hread).trans (gotTarget_eq hm' hfinds hcwd hnames _)
    exact ⟨_, .cons hgot (.cons (step_stat hstat) (.cons htarget (.refl _))),
      hfinds.starts_restart hcwd hnamed, hm'.restart _⟩
  · rw [if_neg hunseen] at hgot
    rcases hseen : s.seenLinks stat.id with _ | target'
    · rw [Scan.isUnseen, hseen] at hunseen
      exact absurd rfl hunseen
    · have hnames' := (hm.seen hseen hkind).symm
      rw [hseen] at hgot
      exact ⟨_, .cons (hgot.trans (gotTarget_eq hm h hcwd hnames' _)) (.refl _),
        h.starts_restart hcwd hnamed, hm.restart _⟩

end

/-- What is skipped is known to be no link. -/
theorem isHard_iff_knownHard (hm : Remembers os cwd s) (h : Finds s pre n ns) :
    s.isHard = true ↔ s.knownHard s.base = true := by
  rw [isHard_iff h, hm.cached]
  simp

/-- **The steps of a call** follow the run, also if links are met twice. -/
theorem steps_of_run (hcwd : isAbsolute cwd = true) (hone : OneTarget os)
    (h : Run os cwd pre todo met (.ok r)) (hat : At s pre todo) (hm : Remembers os cwd s) :
    ∃ s', Steps os cwd (s, .loop) (s', .done (.ok (pathOf r))) := by
  generalize ho : (Except.ok r : Except ε (List JSString)) = o at h
  induction h generalizing s with
  | done pre =>
    cases ho
    have hp : s.p = pathOf r := by rw [hat.p, List.append_nil]
    refine ⟨s.store s.original s.p, 1, ?_⟩
    show Async.loop cwd s = _
    rw [Async.loop, if_pos (hat.length_le_pos_iff.mpr rfl), hp]
  | @hard pre n ns _ _ hkind _ ih =>
    have hle : ¬s.p.length ≤ s.pos := fun hle ↦ List.cons_ne_nil n ns (hat.length_le_pos_iff.mp hle)
    by_cases hhard : s.next.isHard = true
    · obtain ⟨s', hsteps⟩ := ih hat.next hm.next ho
      exact ⟨s', .cons (step_of_isHard hle hhard) hsteps⟩
    · obtain ⟨hsteps, hat', hm'⟩ := steps_of_hard hm.next hat.finds hkind
      obtain ⟨s', hsteps'⟩ := ih hat' hm' ho
      exact ⟨s', .cons (step_of_not_isHard hm.next hle hhard) (hsteps.trans hsteps')⟩
  | @link pre n ns _ _ _ _ hkind _ ih =>
    have hle : ¬s.p.length ≤ s.pos := fun hle ↦ List.cons_ne_nil n ns (hat.length_le_pos_iff.mp hle)
    have hhard : ¬s.next.isHard = true := by
      rw [isHard_iff_knownHard hm.next hat.finds]
      intro hknown
      have hhard : kind os cwd pre n = .hard :=
        kind_eq_hard_iff.mpr (hat.finds.base ▸ hm.next.knownHard _ hknown)
      rw [hkind] at hhard
      cases hhard
    obtain ⟨s₁, hsteps, hstarts, hm₁⟩ := steps_of_link hm.next hat.finds hcwd hone hkind
    obtain ⟨s', hsteps'⟩ := ih hstarts.next hm₁.next ho
    exact ⟨s', .cons (step_of_not_isHard hm.next hle hhard)
      (hsteps.trans (.cons (step_of_starts hstarts) hsteps'))⟩
  | error => cases ho

/-- A call without a cache. -/
theorem exists_realpath (hcwd : isAbsolute cwd = true) (hone : OneTarget os) {p : JSString}
    (h : Run os cwd [] (follow cwd [p]).parts met (.ok r)) :
    ∃ k, realpath os cwd k p none = some (.ok (pathOf r)) := by
  have hp : resolve cwd [p] = pathOf (follow cwd [p]).parts := resolve_eq hcwd [p]
  have hstarts : Starts (Scan.new (resolve cwd [p]) none) (follow cwd [p]).parts :=
    ⟨(follow cwd [p]).named, hp, rfl, rfl⟩
  have hm : Remembers os cwd (Scan.new (resolve cwd [p]) none) :=
    ⟨rfl, fun _ hkey ↦ absurd hkey Bool.false_ne_true, fun hseen ↦ by cases hseen⟩
  obtain ⟨s', hsteps⟩ := steps_of_run hcwd hone h hstarts.next hm.next
  obtain ⟨k, hk⟩ : Steps os cwd _ _ := .cons (step_of_starts hstarts) hsteps
  refine ⟨k, ?_⟩
  unfold realpath
  dsimp only
  rw [Option.bind_none, hk]

end SpiderNode.Files
