import SpiderNode.Files.Cached

/-!
# The loop of `realpathSync`

What the variables of a scan know is true: `Knows`. Each round keeps it, whatever the next name is
(`visit_of_hard`, `visit_of_link`, `visit_of_error`). The links that a run meets become fewer with
each link that is resolved, also when an entry of the cache skips some of them; so the loop ends,
and where the run does (`exists_loop`).

This is so if no link is met twice. The variable for what a link resolves to is not read then before
it is assigned.
-/

namespace SpiderNode.Files

variable {ε : Type} (os : Calls ε) (cwd : JSString)

/-- What the variables know in a call for the path of some names, before the links `met` are met. -/
structure Knows (start : List JSString) (hasCache : Bool) (s : Scan) (met : List FileId) :
    Prop where
  original : s.original = pathOf start
  isSome_cache : s.cache.isSome = hasCache
  knownHard : ∀ key, s.knownHard key = true → IsHard os key
  seen : ∀ id ∈ met, s.seenLinks id = none
  sound : ∀ cache, s.cache = some cache → Sound os cwd cache

variable {os cwd} {start pre todo names ns r : List JSString} {n : JSString} {hasCache : Bool}
  {s : Scan} {met met' : List FileId} {o : Except ε (List JSString)} {id : FileId}
  {key value : JSString}

namespace Knows

theorem entry (h : Knows os cwd start hasCache s met) (hcached : s.cached key = some value) :
    Entry os cwd key value := by
  obtain ⟨cache, hcache, hvalue⟩ := Option.bind_eq_some_iff.mp hcached
  exact h.sound cache hcache key value hvalue

theorem mono (h : Knows os cwd start hasCache s met) (hmet : met' ⊆ met) :
    Knows os cwd start hasCache s met' :=
  ⟨h.original, h.isSome_cache, h.knownHard, fun id hid ↦ h.seen id (hmet hid), h.sound⟩

/-- An entry is stored. -/
theorem store (h : Knows os cwd start hasCache s met) (he : Entry os cwd key value) :
    Knows os cwd start hasCache (s.store key value) met := by
  refine ⟨h.original, ?_, h.knownHard, h.seen, fun cache hcache ↦ ?_⟩
  · rw [Scan.store, Option.isSome_map, h.isSome_cache]
  · obtain ⟨old, hold, rfl⟩ := Option.map_eq_some_iff.mp hcache
    intro k v hv
    rcases eq_or_ne k key with rfl | hne
    · rw [Function.update_self] at hv
      exact Option.some.inj hv ▸ he
    · rw [Function.update_of_ne hne] at hv
      exact h.sound old hold k v hv

/-- A round begins. -/
theorem next (h : Knows os cwd start hasCache s met) : Knows os cwd start hasCache s.next met := by
  unfold Scan.next
  split
  · exact ⟨h.original, h.isSome_cache, h.knownHard, h.seen, h.sound⟩
  · exact h

theorem setLink (h : Knows os cwd start hasCache s met) (resolvedLink : JSString) :
    Knows os cwd start hasCache (s.setLink resolvedLink) met :=
  ⟨h.original, h.isSome_cache, h.knownHard, h.seen, h.sound⟩

theorem restart (h : Knows os cwd start hasCache s met) (resolvedLink : JSString) :
    Knows os cwd start hasCache (s.restart cwd resolvedLink) met :=
  ⟨h.original, h.isSome_cache, h.knownHard, h.seen, h.sound⟩

/-- What is not a link is remembered. -/
theorem markHard (h : Knows os cwd start hasCache s met) (he : Entry os cwd s.base s.base)
    (hbase : IsHard os s.base) : Knows os cwd start hasCache s.markHard met := by
  have hknown : Knows os cwd start hasCache
      { s with knownHard := Function.update s.knownHard s.base true } met := by
    refine ⟨h.original, h.isSome_cache, fun k hk ↦ ?_, h.seen, h.sound⟩
    rcases eq_or_ne k s.base with rfl | hne
    · exact hbase
    · exact h.knownHard k ((Function.update_of_ne hne ..).symm.trans hk)
  exact hknown.store he

/-- A link is remembered, which is not met again. -/
theorem see (h : Knows os cwd start hasCache s (id :: met)) (hnodup : (id :: met).Nodup)
    (target : JSString) : Knows os cwd start hasCache (s.see id target) met := by
  refine ⟨h.original, h.isSome_cache, h.knownHard, fun id' hid' ↦ ?_, h.sound⟩
  have hne : id' ≠ id := fun heq ↦ (List.nodup_cons.mp hnodup).1 (heq ▸ hid')
  exact (Function.update_of_ne hne ..).trans (h.seen id' (List.mem_cons_of_mem id hid'))

theorem isUnseen (h : Knows os cwd start hasCache s met) (hid : id ∈ met) :
    s.isUnseen id = true := by
  rw [Scan.isUnseen, h.seen id hid]
  rfl

end Knows

/-! ## Names that are found -/

/-- A round has found a name. -/
structure Finds (s : Scan) (pre : List JSString) (n : JSString) (ns : List JSString) : Prop where
  at_next : At s (pre ++ [n]) ns
  base : s.base = baseOf pre n
  previous : s.previous = previousOf pre

theorem At.finds (h : At s pre (n :: ns)) : Finds s.next pre n ns :=
  ⟨h.next, by rw [h.next_eq], by rw [h.next_eq]⟩

namespace Finds

variable (h : Finds s pre n ns)
include h

/-- Other variables do not matter. -/
theorem congr {s' : Scan} (hp : s'.p = s.p) (hpos : s'.pos = s.pos)
    (hcurrent : s'.current = s.current) (hbase : s'.base = s.base)
    (hprevious : s'.previous = s.previous) : Finds s' pre n ns :=
  ⟨⟨h.at_next.named, hp.trans h.at_next.p, by rw [hpos, hp, h.at_next.pos],
    fun hne ↦ hcurrent.trans (h.at_next.current hne)⟩, hbase.trans h.base,
    hprevious.trans h.previous⟩

theorem named : ∀ q ∈ pre ++ [n], IsName q :=
  fun q hq ↦ h.at_next.named q (List.mem_append_left ns hq)

theorem base_ne_nil : s.base ≠ [] := by
  rw [h.base, baseOf, previousOf]
  simp

/-- The scan of what a link resolves to, and of the names behind the link. -/
theorem starts_restart (hcwd : isAbsolute cwd = true) (hnames : ∀ q ∈ names, IsName q) :
    Starts (s.restart cwd (pathOf names)) (names ++ ns) := by
  have hns := h.at_next.named_todo
  refine ⟨fun q hq ↦ ?_, ?_, rfl, rfl⟩
  · rcases List.mem_append.mp hq with hq | hq
    · exact hnames q hq
    · exact hns q hq
  · rw [Scan.restart, h.at_next.drop_eq]
    exact resolve_pathOf hcwd hnames hns

end Finds

theorem isHard_iff (h : Finds s pre n ns) :
    s.isHard = true ↔ s.knownHard s.base = true ∨ s.cached s.base = some s.base := by
  rw [Scan.isHard, Bool.or_eq_true, Bool.or_eq_true, decide_eq_true_iff, decide_eq_true_iff,
    or_iff_right h.base_ne_nil]

/-! ## What a round does -/

section

variable (hk : Knows os cwd start hasCache s met) (h : Finds s pre n ns)
include hk h

/-- The entry of a name that is found, if there is one. -/
theorem cached_eq_of_hard (hpre : Hard os cwd pre) (hkind : kind os cwd pre n = .hard)
    (hcached : s.cached s.base = some value) : value = s.base := by
  rcases (hk.entry hcached).ahead hpre h.named h.base.symm with ⟨-, hvalue⟩ | ⟨_, _, _, hlink, -⟩
  · exact hvalue
  · rw [hkind] at hlink
    cases hlink

theorem cached_eq_of_link (hpre : Hard os cwd pre) (hkind : kind os cwd pre n = .link id names)
    (hcached : s.cached s.base = some value) :
    ∃ ys, value = pathOf ys ∧ (∀ q ∈ ys, IsName q) ∧ Leads os cwd names ys := by
  rcases (hk.entry hcached).ahead hpre h.named h.base.symm with
    ⟨hhard, -⟩ | ⟨_, _, ys, hlink, hvalue, hys, hleads⟩
  · rw [hkind] at hhard
    cases hhard
  · rw [hkind] at hlink
    cases hlink
    exact ⟨ys, hvalue, hys, hleads⟩

theorem kind_of_knownHard (hknown : s.knownHard s.base = true) :
    kind os cwd pre n = .hard := kind_eq_hard_iff.mpr (h.base ▸ hk.knownHard _ hknown)

theorem visit_of_hard (hpre : Hard os cwd pre) (hkind : kind os cwd pre n = .hard) :
    ∃ s', Sync.visit os cwd s = .ok s' ∧ At s' (pre ++ [n]) ns ∧
      Knows os cwd start hasCache s' met := by
  rw [Sync.visit]
  by_cases hhard : s.isHard = true
  · rw [if_pos hhard]
    exact ⟨s, rfl, h.at_next, hk⟩
  rw [if_neg hhard]
  rcases hcached : s.cached s.base with _ | value
  · obtain ⟨stat, hlstat, hlink⟩ := kind_eq_hard_iff.mp hkind
    rw [← h.base] at hlstat
    have hentry : Entry os cwd s.base s.base := h.base ▸ entry_hard h.named hkind
    refine ⟨s.markHard, ?_, ⟨h.at_next.named, h.at_next.p, h.at_next.pos, h.at_next.current⟩,
      hk.markHard hentry ⟨stat, hlstat, hlink⟩⟩
    rw [hlstat]
    show (if (!stat.isSymbolicLink) = true then Except.ok s.markHard else _) = _
    rw [if_pos (by simp [hlink])]
  · rw [cached_eq_of_hard hk h hpre hkind hcached] at hcached
    exact absurd ((isHard_iff h).mpr (.inr hcached)) hhard

variable (hcwd : isAbsolute cwd = true) (hroot : IsHard os [slash])
include hcwd hroot

theorem visit_of_link (hpre : Hard os cwd pre) (hkind : kind os cwd pre n = .link id names)
    (hhard : ¬s.isHard = true) (hnodup : (id :: met').Nodup) (hmet : met = id :: met') :
    ∃ s' ys, Sync.visit os cwd s = .ok s' ∧ Starts s' (ys ++ ns) ∧ Leads os cwd names ys ∧
      Knows os cwd start hasCache s' met' := by
  rw [Sync.visit, if_neg hhard]
  rcases hcached : s.cached s.base with _ | value
  · obtain ⟨stat, target, hlstat, hlink, rfl, hstat, hread, hnames⟩ := exists_of_kind_eq_link hkind
    rw [← h.base] at hlstat hstat hread
    have hunseen := hk.isUnseen (hmet ▸ List.mem_cons_self)
    have hresolve : resolve cwd [s.previous, target] = pathOf names := by
      rw [resolve_eq hcwd, h.previous, ← hnames]
      rfl
    have hentry : Entry os cwd s.base (pathOf names) :=
      h.base ▸ entry_link hroot h.named hpre hkind
    have hread' : Sync.readLink os cwd s stat.id =
        .ok (((s.see stat.id target).setLink (pathOf names)).store s.base (pathOf names)) := by
      rw [Sync.readLink, hstat, hread, ← hresolve]
      rfl
    have hfinds : Finds (((s.see stat.id target).setLink (pathOf names)).store s.base
        (pathOf names)) pre n ns := h.congr rfl rfl rfl rfl rfl
    refine ⟨_, names, ?_, hfinds.starts_restart hcwd (named_of_kind_eq_link hkind), .refl names, ?_⟩
    · rw [hlstat]
      show (if (!stat.isSymbolicLink) = true then _ else _) = _
      rw [if_neg (by simp [hlink])]
      show (if s.isUnseen stat.id = true then _ else _) = _
      rw [if_pos hunseen, hread']
      rfl
    · exact ((((hmet ▸ hk).see hnodup target).setLink _).store hentry).restart _
  · obtain ⟨ys, rfl, hys, hleads⟩ := cached_eq_of_link hk h hpre hkind hcached
    have hfinds : Finds (s.setLink (pathOf ys)) pre n ns := h.congr rfl rfl rfl rfl rfl
    refine ⟨_, ys, rfl, hfinds.starts_restart hcwd hys, hleads, ?_⟩
    exact ((hk.setLink _).restart _).mono (hmet ▸ List.subset_cons_self _ _)

omit hcwd in
/-- The entry of a link is not the link itself, or the link would be met again. -/
theorem not_isHard_of_link (hpre : Hard os cwd pre) (hkind : kind os cwd pre n = .link id names)
    (hrun : Run os cwd [] (names ++ ns) met' o) (hnodup : (id :: met').Nodup) :
    ¬s.isHard = true := by
  rw [isHard_iff h]
  rintro (hknown | hcached)
  · have hhard := kind_of_knownHard hk h hknown
    rw [hkind] at hhard
    cases hhard
  · obtain ⟨ys, hpath, hys, hleads⟩ := cached_eq_of_link hk h hpre hkind hcached
    rw [h.base] at hpath
    rcases eq_map_clean hys h.named hpath.symm with ⟨-, hslash⟩ | rfl
    · have hhard : kind os cwd pre n = .hard := kind_eq_hard_iff.mpr (hslash ▸ hroot)
      rw [hkind] at hhard
      cases hhard
    · obtain ⟨met₁, hrun₁, hsuffix⟩ := (hleads.append ns).run hrun
      rw [List.append_assoc, Run.append_iff hpre.map_clean] at hrun₁
      obtain ⟨met₂, rfl, -⟩ := hrun₁.link_inv ((kind_map_clean pre n).trans hkind)
      exact (List.nodup_cons.mp hnodup).1 (hsuffix.subset List.mem_cons_self)

omit hcwd hroot in
theorem visit_of_error {e : ε} (hpre : Hard os cwd pre) (hkind : kind os cwd pre n = .error met e) :
    Sync.visit os cwd s = .error e := by
  have hcached : s.cached s.base = none := by
    rcases hcached : s.cached s.base with _ | value
    · rfl
    · rcases (hk.entry hcached).ahead hpre h.named h.base.symm with ⟨hhard, -⟩ | ⟨_, _, _, hlink, -⟩
      · rw [hkind] at hhard
        cases hhard
      · rw [hkind] at hlink
        cases hlink
  have hhard : ¬s.isHard = true := by
    rw [isHard_iff h, hcached]
    rintro (hknown | hnone)
    · have hhard := kind_of_knownHard hk h hknown
      rw [hkind] at hhard
      cases hhard
    · cases hnone
  rw [Sync.visit, if_neg hhard, hcached]
  rcases exists_of_kind_eq_error hkind with hlstat | ⟨stat, hlstat, hlink, hid, herror⟩
  · rw [← h.base] at hlstat
    rw [hlstat]
    rfl
  · rw [← h.base] at hlstat herror
    rw [hlstat]
    show (if (!stat.isSymbolicLink) = true then _ else _) = _
    rw [if_neg (by simp [hlink])]
    show (if s.isUnseen stat.id = true then _ else _) = _
    rw [if_pos (hk.isUnseen hid), Sync.readLink]
    rcases herror with hstat | ⟨hstat, hread⟩
    · rw [hstat]
      rfl
    · rw [hstat, hread]
      rfl

end

/-! ## The loop -/

/-- How a call ends for a scan that ends so. -/
def result (o : Except ε (List JSString)) : Except ε JSString := o.map pathOf

theorem loop_of_not_le (h : ¬s.p.length ≤ s.pos) {s' : Scan}
    (hvisit : Sync.visit os cwd s.next = .ok s') (k : ℕ) :
    Sync.loop os cwd (k + 1) s = Sync.loop os cwd k s' := by
  rw [Sync.loop, if_neg h, hvisit]

/-- The first round goes on, since the root is no link. -/
theorem loop_of_starts (h : Starts s names) (k : ℕ) :
    Sync.loop os cwd (k + 1) s = Sync.loop os cwd k s.next := by
  refine loop_of_not_le h.not_length_le_pos ?_ k
  have hbase : s.next.isHard = true := by
    rw [h.next_eq]
    rfl
  rw [Sync.visit, if_pos hbase]
  rfl

/-- What is left behind a call. -/
def Leaves (os : Calls ε) (cwd : JSString) (hasCache : Bool) (s : Scan) : Prop :=
  s.cache.isSome = hasCache ∧ ∀ cache, s.cache = some cache → Sound os cwd cache

section

variable {met₀ : List FileId} (hcwd : isAbsolute cwd = true) (hroot : IsHard os [slash])
  (hstart : ∀ q ∈ start, IsName q) (hrun₀ : Run os cwd [] start met₀ o)
include hcwd hroot hstart hrun₀

/-- **The loop ends where the run does.** -/
theorem exists_loop (h : Run os cwd pre todo met o) (hpre : Hard os cwd pre) (hat : At s pre todo)
    (hk : Knows os cwd start hasCache s met) (hnodup : met.Nodup) :
    ∃ k s', Sync.loop os cwd k s = some (result o, s') ∧ Leaves os cwd hasCache s' := by
  induction hlength : met.length using Nat.strong_induction_on generalizing pre todo s met with
  | _ length ihmet =>
  induction todo generalizing pre s with
  | nil =>
    obtain ⟨rfl, rfl⟩ := h.done_inv
    have hp : s.p = pathOf pre := by rw [hat.p, List.append_nil]
    have hentry : Entry os cwd s.original s.p := by
      rw [hk.original, hp]
      exact entry_run hroot hstart hrun₀
    have hstore := hk.store hentry
    refine ⟨0, s.store s.original s.p, ?_, hstore.isSome_cache, hstore.sound⟩
    rw [Sync.loop, if_pos (hat.length_le_pos_iff.mpr rfl), hp]
    rfl
  | cons n ns ih =>
    have hle : ¬s.p.length ≤ s.pos := fun hle ↦ List.cons_ne_nil n ns (hat.length_le_pos_iff.mp hle)
    rcases hkind : kind os cwd pre n with _ | ⟨id, names⟩ | ⟨met', e⟩
    · obtain ⟨s', hvisit, hat', hk'⟩ := visit_of_hard hk.next hat.finds hpre hkind
      obtain ⟨k, s₁, hloop, hleaves⟩ :=
        ih (h.hard_inv hkind) (hard_concat_iff.mpr ⟨hpre, hkind⟩) hat' hk'
      exact ⟨k + 1, s₁, (loop_of_not_le hle hvisit k).trans hloop, hleaves⟩
    · obtain ⟨met', rfl, hrest⟩ := h.link_inv hkind
      have hhard := not_isHard_of_link hk.next hat.finds hroot hpre hkind hrest hnodup
      obtain ⟨s', ys, hvisit, hstarts, hleads, hk'⟩ :=
        visit_of_link hk.next hat.finds hcwd hroot hpre hkind hhard hnodup rfl
      obtain ⟨met₁, hrun₁, hsuffix⟩ := (hleads.append ns).run hrest
      have hlt : met₁.length < length := by
        have hle := hsuffix.length_le
        rw [← hlength, List.length_cons]
        omega
      obtain ⟨k, s₁, hloop, hleaves⟩ :=
        ihmet met₁.length hlt hrun₁ hard_nil hstarts.next (hk'.mono hsuffix.subset).next
          ((List.nodup_cons.mp hnodup).2.sublist hsuffix.sublist) rfl
      exact ⟨k + 2, s₁, (loop_of_not_le hle hvisit (k + 1)).trans
        ((loop_of_starts hstarts k).trans hloop), hleaves⟩
    · obtain ⟨rfl, rfl⟩ := h.error_inv hkind
      have hvisit := visit_of_error hk.next hat.finds hpre hkind
      refine ⟨1, s, ?_, hk.isSome_cache, hk.sound⟩
      rw [Sync.loop, if_neg hle, hvisit]
      rfl

end

end SpiderNode.Files
