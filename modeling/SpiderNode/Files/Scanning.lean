import SpiderNode.Files.NextPart

/-!
# Where a scan leads

A scan depends on the file system only by the `kind` of what it finds. `Run` is a scan without the
variables of the program: names that are no links stay, and a link is replaced by the names it
resolves to, from where the scan begins again. It records the links that are met.

`Leads` says that replacing links leads from one path to another. A run follows it, and other names
may stand behind both paths (`Leads.append`, `Leads.run`).
-/

namespace SpiderNode.Files

/-- What a scan finds. -/
inductive Kind (ε : Type) where
  | hard
  /-- A link, and the path that it resolves to. -/
  | link (id : FileId) (names : List JSString)
  /-- What a system call throws, and the link that could not be read. -/
  | error (met : List FileId) (e : ε)

variable {ε : Type} (os : Calls ε) (cwd : JSString)

def kindOf (previous base : JSString) : Kind ε :=
  match os.lstat base with
  | .error e => .error [] e
  | .ok stat =>
    if !stat.isSymbolicLink then .hard
    else match os.stat base with
      | .error e => .error [stat.id] e
      | .ok _ =>
        match os.readlink base with
        | .error e => .error [stat.id] e
        | .ok target => .link stat.id (follow cwd [previous, target]).parts

/-- What a name is, behind other names. -/
def kind (pre : List JSString) (n : JSString) : Kind ε :=
  kindOf os cwd (previousOf pre) (baseOf pre n)

/-- No name of the path is a link. -/
def Hard (names : List JSString) : Prop :=
  ∀ pre n ns, names = pre ++ n :: ns → kind os cwd pre n = .hard

/-- A scan of the names `todo` behind the hard names `pre`, with the links that it meets and where
it ends. -/
inductive Run : List JSString → List JSString → List FileId → Except ε (List JSString) → Prop
  | done (pre : List JSString) : Run pre [] [] (.ok pre)
  | hard {pre n ns met o} (hkind : kind os cwd pre n = .hard) (hrest : Run (pre ++ [n]) ns met o) :
      Run pre (n :: ns) met o
  | link {pre n ns id names met o} (hkind : kind os cwd pre n = .link id names)
      (hrest : Run [] (names ++ ns) met o) : Run pre (n :: ns) (id :: met) o
  | error {pre n ns met e} (hkind : kind os cwd pre n = .error met e) :
      Run pre (n :: ns) met (.error e)

/-- Replacing links leads from one path to another. -/
inductive Leads : List JSString → List JSString → Prop
  | refl (names : List JSString) : Leads names names
  | step {pre n ns id names ys} (hpre : Hard os cwd pre)
      (hkind : kind os cwd pre n = .link id names) (hrest : Leads (names ++ ns) ys) :
      Leads (pre ++ n :: ns) ys

variable {os cwd} {pre todo names ns xs ys rest r : List JSString} {n : JSString}
  {met met' : List FileId} {o o' : Except ε (List JSString)} {id : FileId}

/-! ## Hard names -/

theorem hard_nil : Hard os cwd [] := fun pre n ns h ↦ absurd h (by simp)

theorem hard_concat_iff :
    Hard os cwd (pre ++ [n]) ↔ Hard os cwd pre ∧ kind os cwd pre n = .hard := by
  constructor
  · refine fun h ↦ ⟨fun a m b hsplit ↦ ?_, h pre n [] rfl⟩
    exact h a m (b ++ [n]) (by rw [hsplit, List.append_assoc, List.cons_append])
  · rintro ⟨hpre, hn⟩ a m b hsplit
    rcases b.eq_nil_or_concat' with rfl | ⟨b, last, rfl⟩
    · obtain ⟨rfl, hlast⟩ := List.append_inj' hsplit rfl
      obtain rfl := List.singleton_inj.mp hlast
      exact hn
    · have hsplit' : pre ++ [n] = a ++ m :: b ++ [last] := by
        rw [hsplit, List.append_assoc, List.cons_append]
      exact hpre a m b (List.append_inj' hsplit' rfl).1

/-! ## Runs -/

namespace Run

/-! What is known about a run from the kind of the next name. -/

theorem done_inv (h : Run os cwd pre [] met o) : met = [] ∧ o = .ok pre := by
  cases h
  exact ⟨rfl, rfl⟩

theorem hard_inv (hkind : kind os cwd pre n = .hard) (h : Run os cwd pre (n :: ns) met o) :
    Run os cwd (pre ++ [n]) ns met o := by
  cases h with
  | hard _ hrest => exact hrest
  | link hlink _ => rw [hkind] at hlink; cases hlink
  | error herror => rw [hkind] at herror; cases herror

theorem link_inv (hkind : kind os cwd pre n = .link id names) (h : Run os cwd pre (n :: ns) met o) :
    ∃ met', met = id :: met' ∧ Run os cwd [] (names ++ ns) met' o := by
  cases h with
  | hard hhard _ => rw [hkind] at hhard; cases hhard
  | link hlink hrest =>
    rw [hkind] at hlink
    cases hlink
    exact ⟨_, rfl, hrest⟩
  | error herror => rw [hkind] at herror; cases herror

theorem error_inv {e : ε} (hkind : kind os cwd pre n = .error met' e)
    (h : Run os cwd pre (n :: ns) met o) : met = met' ∧ o = .error e := by
  cases h with
  | hard hhard _ => rw [hkind] at hhard; cases hhard
  | link hlink _ => rw [hkind] at hlink; cases hlink
  | error herror =>
    rw [hkind] at herror
    cases herror
    exact ⟨rfl, rfl⟩

/-- Hard names are scanned first. -/
theorem append_iff (h : Hard os cwd pre) :
    Run os cwd [] (pre ++ ys) met o ↔ Run os cwd pre ys met o := by
  induction pre using List.reverseRecOn generalizing ys with
  | nil => rfl
  | append_singleton pre n ih =>
    obtain ⟨hpre, hn⟩ := hard_concat_iff.mp h
    rw [List.append_assoc, List.singleton_append, ih hpre]
    exact ⟨hard_inv hn, .hard hn⟩

/-- The scan of a hard path ends there. -/
theorem of_hard (h : Hard os cwd names) : Run os cwd [] names [] (.ok names) := by
  have hrun : Run os cwd [] (names ++ []) [] (.ok names) := (append_iff h).mpr (.done names)
  rwa [List.append_nil] at hrun

theorem unique (h : Run os cwd pre todo met o) (h' : Run os cwd pre todo met' o') :
    met = met' ∧ o = o' := by
  induction h generalizing met' o' with
  | done =>
    obtain ⟨rfl, rfl⟩ := h'.done_inv
    exact ⟨rfl, rfl⟩
  | hard hkind _ ih => exact ih (h'.hard_inv hkind)
  | link hkind _ ih =>
    obtain ⟨met₁, rfl, hrest⟩ := h'.link_inv hkind
    obtain ⟨rfl, rfl⟩ := ih hrest
    exact ⟨rfl, rfl⟩
  | error hkind =>
    obtain ⟨rfl, rfl⟩ := h'.error_inv hkind
    exact ⟨rfl, rfl⟩

theorem leads (h : Run os cwd pre todo met (.ok r)) (hpre : Hard os cwd pre) :
    Leads os cwd (pre ++ todo) r := by
  generalize ho : (Except.ok r : Except ε (List JSString)) = o at h
  induction h with
  | done pre =>
    cases ho
    rw [List.append_nil]
    exact .refl r
  | hard hkind _ ih =>
    have hrest := ih (hard_concat_iff.mpr ⟨hpre, hkind⟩) ho
    rwa [List.append_assoc, List.singleton_append] at hrest
  | link hkind _ ih => exact .step hpre hkind (ih hard_nil ho)
  | error => cases ho

/-- Where a scan ends there are no links. -/
theorem hard_of_ok (h : Run os cwd pre todo met (.ok r)) (hpre : Hard os cwd pre) :
    Hard os cwd r := by
  generalize ho : (Except.ok r : Except ε (List JSString)) = o at h
  induction h with
  | done pre =>
    cases ho
    exact hpre
  | hard hkind _ ih => exact ih (hard_concat_iff.mpr ⟨hpre, hkind⟩) ho
  | link _ _ ih => exact ih hard_nil ho
  | error => cases ho

end Run

namespace Leads

theorem append (h : Leads os cwd xs ys) (rest : List JSString) :
    Leads os cwd (xs ++ rest) (ys ++ rest) := by
  induction h with
  | refl names => exact .refl _
  | step hpre hkind _ ih =>
    rw [List.append_assoc] at ih
    rw [List.append_assoc, List.cons_append]
    exact .step hpre hkind ih

/-- **A run goes on** where the links lead to. -/
theorem run (h : Leads os cwd xs ys) (hrun : Run os cwd [] xs met o) :
    ∃ met', Run os cwd [] ys met' o ∧ met' <:+ met := by
  induction h generalizing met with
  | refl names => exact ⟨met, hrun, List.suffix_rfl⟩
  | step hpre hkind _ ih =>
    obtain ⟨met₁, rfl, hrest⟩ := ((Run.append_iff hpre).mp hrun).link_inv hkind
    obtain ⟨met', hrun', hsuffix⟩ := ih hrest
    exact ⟨met', hrun', hsuffix.trans (List.suffix_cons ..)⟩

end Leads

end SpiderNode.Files
