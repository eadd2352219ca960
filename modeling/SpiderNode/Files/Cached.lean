import SpiderNode.Files.Scanning

/-!
# `realpathSync` and its cache

The entries of a cache are of three kinds: what is no link stands for itself, a link for what it
resolves to in one step, and a path that a call was made with for the result. `Entry` is what they
have in common: from its key there is a way to its value, by replacing links. So a scan that takes
up an entry arrives where it would have arrived without (`exists_loop`).

But a call that is made with the key of an entry returns the value as it is, and it may be a link
again.
-/

namespace SpiderNode.Files

variable {ε : Type} (os : Calls ε) (cwd : JSString)

/-- A system call finds no link there. -/
def IsHard (key : JSString) : Prop := ∃ stat, os.lstat key = .ok stat ∧ stat.isSymbolicLink = false

/-- The value of an entry is where its key leads: as what is scanned in front of other names, and as
a whole path. -/
structure Entry (key value : JSString) : Prop where
  ahead : ∀ {pre n}, Hard os cwd pre → (∀ q ∈ pre ++ [n], IsName q) → baseOf pre n = key →
    kind os cwd pre n = .hard ∧ value = key ∨
      ∃ id names ys, kind os cwd pre n = .link id names ∧ value = pathOf ys ∧
        (∀ q ∈ ys, IsName q) ∧ Leads os cwd names ys
  whole : ∀ {names}, (∀ q ∈ names, IsName q) → pathOf names = key →
    ∃ ys, value = pathOf ys ∧ (∀ q ∈ ys, IsName q) ∧ Leads os cwd names ys

def Sound (cache : Cache) : Prop := ∀ key value, cache key = some value → Entry os cwd key value

variable {os cwd} {pre pre' todo names ns ys r : List JSString} {n n' : JSString}
  {met : List FileId} {o : Except ε (List JSString)} {id : FileId} {key value : JSString}

/-! ## Keys -/

theorem pathOf_injective (hnames : ∀ q ∈ names, IsName q) (hns : ∀ q ∈ ns, IsName q)
    (h : pathOf names = pathOf ns) : names = ns :=
  congrArg Directory.parts
    (Directory.path_injective (d := ⟨names, hnames⟩) (e := ⟨ns, hns⟩) h)

theorem splitOn_text (h : ∀ q ∈ names, slash ∉ q) : (text names).splitOn slash = [] :: names := by
  rcases eq_or_ne names [] with rfl | hne
  · rfl
  · have hsplit : (join names).splitOn slash = names := List.splitOn_intercalate slash h hne
    have htext : text names = [] ++ slash :: join names := (pathOf_eq_text hne).symm
    rw [htext, List.splitOn_append_cons_self, hsplit]
    rfl

theorem text_injective (hnames : ∀ q ∈ names, slash ∉ q) (hns : ∀ q ∈ ns, slash ∉ q)
    (h : text names = text ns) : names = ns := by
  have hsplit := splitOn_text hnames
  rw [h, splitOn_text hns] at hsplit
  exact (List.cons.inj hsplit).2.symm

theorem slash_not_mem_map_clean (h : ∀ q ∈ names, IsName q) : ∀ q ∈ names.map clean, slash ∉ q := by
  intro q hq
  obtain ⟨n, hn, rfl⟩ := List.mem_map.mp hq
  exact slash_not_mem_clean (h n hn).2.1

/-- What is scanned is known from its key, but for what is in front of line terminators. -/
theorem map_clean_eq (hpre : ∀ q ∈ pre ++ [n], IsName q) (hpre' : ∀ q ∈ pre' ++ [n'], IsName q)
    (h : baseOf pre n = baseOf pre' n') : pre.map clean = pre'.map clean ∧ clean n = clean n' := by
  rw [baseOf_eq, baseOf_eq] at h
  have hmap := text_injective (slash_not_mem_map_clean hpre) (slash_not_mem_map_clean hpre') h
  rw [List.map_append, List.map_append] at hmap
  obtain ⟨hfront, hlast⟩ := List.append_inj' hmap rfl
  exact ⟨hfront, (List.cons.inj hlast).1⟩

theorem kind_eq_of_map_clean_eq (hpre : pre.map clean = pre'.map clean) (hn : clean n = clean n') :
    kind os cwd pre n = kind os cwd pre' n' := by
  rw [kind, kind, baseOf, baseOf, previousOf, previousOf, hpre, hn]

theorem kind_map_clean (pre : List JSString) (n : JSString) :
    kind os cwd (pre.map clean) (clean n) = kind os cwd pre n := by
  refine kind_eq_of_map_clean_eq ?_ (clean_clean n)
  rw [List.map_map]
  exact List.map_congr_left fun q _ ↦ clean_clean q

theorem Hard.map_clean (h : Hard os cwd pre) : Hard os cwd (pre.map clean) := by
  induction pre using List.reverseRecOn with
  | nil => exact hard_nil
  | append_singleton pre n ih =>
    obtain ⟨hpre, hn⟩ := hard_concat_iff.mp h
    rw [List.map_append]
    exact hard_concat_iff.mpr ⟨ih hpre, (kind_map_clean pre n).trans hn⟩

/-- A path that a scan can find. -/
theorem eq_map_clean (hnames : ∀ q ∈ names, IsName q) (hpre : ∀ q ∈ pre ++ [n], IsName q)
    (h : pathOf names = baseOf pre n) :
    names = [] ∧ baseOf pre n = [slash] ∨ names = pre.map clean ++ [clean n] := by
  rcases eq_or_ne names [] with rfl | hne
  · exact .inl ⟨rfl, h.symm⟩
  · rw [pathOf_eq_text hne, baseOf_eq] at h
    have hmap := text_injective (fun q hq ↦ (hnames q hq).2.1) (slash_not_mem_map_clean hpre) h
    exact .inr (hmap.trans (List.map_append ..))

/-! ## Kinds -/

theorem kind_eq_hard_iff : kind os cwd pre n = .hard ↔ IsHard os (baseOf pre n) := by
  rw [kind, kindOf, IsHard]
  rcases os.lstat (baseOf pre n) with e | stat
  · simp
  · rcases hlink : stat.isSymbolicLink with _ | _
    · simp [hlink]
    · rcases os.stat (baseOf pre n) with e | u
      · simp [hlink]
      · rcases os.readlink (baseOf pre n) with e | target
        · simp [hlink]
        · simp [hlink]

/-- What is known when a link has been read. -/
theorem exists_of_kind_eq_link (h : kind os cwd pre n = .link id names) :
    ∃ stat target, os.lstat (baseOf pre n) = .ok stat ∧ stat.isSymbolicLink = true ∧ stat.id = id ∧
      os.stat (baseOf pre n) = .ok () ∧ os.readlink (baseOf pre n) = .ok target ∧
      (follow cwd [previousOf pre, target]).parts = names := by
  rw [kind, kindOf] at h
  rcases hlstat : os.lstat (baseOf pre n) with e | stat
  · simp [hlstat] at h
  · rcases hlink : stat.isSymbolicLink with _ | _
    · simp [hlstat, hlink] at h
    · rcases hstat : os.stat (baseOf pre n) with e | u
      · simp [hlstat, hlink, hstat] at h
      · rcases hread : os.readlink (baseOf pre n) with e | target
        · simp [hlstat, hlink, hstat, hread] at h
        · simp only [hlstat, hlink, hstat, hread, Bool.not_true, Bool.false_eq_true, if_false,
            Kind.link.injEq] at h
          exact ⟨stat, target, rfl, hlink, h.1, rfl, rfl, h.2⟩

/-- What is known when a system call has thrown. -/
theorem exists_of_kind_eq_error {e : ε} (h : kind os cwd pre n = .error met e) :
    os.lstat (baseOf pre n) = .error e ∨
      ∃ stat, os.lstat (baseOf pre n) = .ok stat ∧ stat.isSymbolicLink = true ∧ stat.id ∈ met ∧
        (os.stat (baseOf pre n) = .error e ∨
          os.stat (baseOf pre n) = .ok () ∧ os.readlink (baseOf pre n) = .error e) := by
  rw [kind, kindOf] at h
  rcases hlstat : os.lstat (baseOf pre n) with e' | stat
  · simp only [hlstat, Kind.error.injEq] at h
    exact .inl (congrArg _ h.2)
  · rcases hlink : stat.isSymbolicLink with _ | _
    · simp [hlstat, hlink] at h
    · rcases hstat : os.stat (baseOf pre n) with e' | u
      · simp only [hlstat, hlink, hstat, Bool.not_true, Bool.false_eq_true, if_false,
          Kind.error.injEq] at h
        exact .inr ⟨stat, rfl, hlink, h.1 ▸ List.mem_singleton_self _, .inl (congrArg _ h.2)⟩
      · rcases hread : os.readlink (baseOf pre n) with e' | target
        · simp only [hlstat, hlink, hstat, hread, Bool.not_true, Bool.false_eq_true, if_false,
            Kind.error.injEq] at h
          exact .inr ⟨stat, rfl, hlink, h.1 ▸ List.mem_singleton_self _,
            .inr ⟨rfl, congrArg _ h.2⟩⟩
        · simp [hlstat, hlink, hstat, hread] at h

theorem named_of_kind_eq_link (h : kind os cwd pre n = .link id names) : ∀ q ∈ names, IsName q := by
  obtain ⟨stat, target, -, -, -, -, -, rfl⟩ := exists_of_kind_eq_link h
  exact Directory.named _

theorem Run.named (h : Run os cwd pre todo met (.ok r)) (hnamed : ∀ q ∈ pre ++ todo, IsName q) :
    ∀ q ∈ r, IsName q := by
  generalize ho : (Except.ok r : Except ε (List JSString)) = o at h
  induction h with
  | done pre =>
    cases ho
    exact fun q hq ↦ hnamed q (List.mem_append_left _ hq)
  | hard _ _ ih => exact ih (by simpa using hnamed) ho
  | @link pre n ns id names _ _ hkind _ ih =>
    refine ih (fun q hq ↦ ?_) ho
    rw [List.nil_append] at hq
    rcases List.mem_append.mp hq with hq | hq
    · exact named_of_kind_eq_link hkind q hq
    · exact hnamed q (List.mem_append_right _ (List.mem_cons_of_mem n hq))
  | error => cases ho

/-! ## The entries that a call makes -/

theorem entry_hard (hpre : ∀ q ∈ pre ++ [n], IsName q) (hkind : kind os cwd pre n = .hard) :
    Entry os cwd (baseOf pre n) (baseOf pre n) where
  ahead {pre' n'} _ hnamed hbase := by
    obtain ⟨hfront, hlast⟩ := map_clean_eq hnamed hpre hbase
    exact .inl ⟨(kind_eq_of_map_clean_eq hfront hlast).trans hkind, rfl⟩
  whole {names} hnamed hpath := ⟨names, hpath.symm, hnamed, .refl names⟩

variable (hroot : IsHard os [slash])
include hroot

theorem entry_link (hpre : ∀ q ∈ pre ++ [n], IsName q) (hhard : Hard os cwd pre)
    (hkind : kind os cwd pre n = .link id names) :
    Entry os cwd (baseOf pre n) (pathOf names) where
  ahead {pre' n'} _ hnamed hbase := by
    obtain ⟨hfront, hlast⟩ := map_clean_eq hnamed hpre hbase
    exact .inr ⟨id, names, names, (kind_eq_of_map_clean_eq hfront hlast).trans hkind, rfl,
      named_of_kind_eq_link hkind, .refl names⟩
  whole {ns} hnamed hpath := by
    refine ⟨names, rfl, named_of_kind_eq_link hkind, ?_⟩
    rcases eq_map_clean hnamed hpre hpath with ⟨-, hbase⟩ | rfl
    · have hroot' : kind os cwd pre n = .hard := kind_eq_hard_iff.mpr (hbase ▸ hroot)
      rw [hkind] at hroot'
      cases hroot'
    · refine .step hhard.map_clean ((kind_map_clean pre n).trans hkind) ?_
      rw [List.append_nil]
      exact .refl names

theorem entry_run (hnames : ∀ q ∈ names, IsName q) (hrun : Run os cwd [] names met (.ok r)) :
    Entry os cwd (pathOf names) (pathOf r) where
  ahead {pre n} hhard hnamed hbase := by
    rcases eq_map_clean hnames hnamed hbase.symm with ⟨rfl, hslash⟩ | rfl
    · obtain ⟨-, hr⟩ := hrun.done_inv
      cases hr
      exact .inl ⟨kind_eq_hard_iff.mpr (hslash ▸ hroot), rfl⟩
    · have hrun' := (Run.append_iff hhard.map_clean).mp hrun
      have hkind : kind os cwd (pre.map clean) (clean n) = kind os cwd pre n := kind_map_clean pre n
      rcases hk : kind os cwd pre n with _ | ⟨id, ns⟩ | ⟨met', e⟩
      · rw [hk] at hkind
        obtain ⟨-, hr⟩ := (hrun'.hard_inv hkind).done_inv
        cases hr
        exact .inl ⟨rfl, rfl⟩
      · rw [hk] at hkind
        obtain ⟨met', -, hrest⟩ := hrun'.link_inv hkind
        have hleads := hrest.leads hard_nil
        rw [List.nil_append, List.append_nil] at hleads
        exact .inr ⟨id, ns, r, rfl, rfl, hrun.named hnames, hleads⟩
      · rw [hk] at hkind
        obtain ⟨-, hr⟩ := hrun'.error_inv hkind
        cases hr
  whole {ns} hnamed hpath := by
    obtain rfl := pathOf_injective hnamed hnames hpath
    exact ⟨r, rfl, hrun.named hnames, hrun.leads hard_nil⟩

end SpiderNode.Files
