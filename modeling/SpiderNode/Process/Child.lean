import SpiderNode.Text.Utf16
import Mathlib.Data.Int.Notation
import Mathlib.Data.List.Nodup
import Mathlib.Logic.Function.Basic

/-!
# Child processes

A `ChildProcess` of `lib/child_process.js` emits `'exit'` when the process is gone and its output
has come to an end. There are three listeners that may be the last one to run: `onexit`, which
`src/node_child_process.cc` calls, and those of `'close'` on `stdout` and on `stderr`. An output
that `spawn` is given a descriptor for is `null`, and nobody waits for it.

The listeners of `'close'` look at flags for what was closed, and `onexit` looks at
`stream.readable`. It turns false at the end of the output, in `_onReadable` of `lib/net.js`, and
`'close'` comes a tick later. `exits_once_iff` says in which orders of the events `'exit'` is
emitted once; in the others it is emitted twice.
-/

namespace SpiderNode

open Function (update)

namespace ChildProcess

inductive Output where
  | stdout
  | stderr
  deriving DecidableEq, Repr

namespace Output

def other : Output → Output
  | stdout => stderr
  | stderr => stdout

/-- The index in `customFds`. -/
def index : Output → ℕ
  | stdout => 1
  | stderr => 2

theorem other_ne (o : Output) : o.other ≠ o := by cases o <;> decide

theorem eq_or_eq_other (o p : Output) : p = o ∨ p = o.other := by cases o <;> cases p <;> decide

end Output

/-- The arguments of `onexit`, which can be `null`. -/
structure Exit where
  code : Option ℤ
  signal : Option JSString
  deriving DecidableEq, Repr

end ChildProcess

open ChildProcess (Output Exit)

/-- A `ChildProcess`, with the variables of its constructor. -/
structure ChildProcess where
  /-- `self.stdin` is not `null`. -/
  stdin : Bool
  /-- `self.stdout` or `self.stderr` is not `null`. -/
  output : Output → Bool
  readable : Output → Bool
  /-- `stdoutClosed` and `stderrClosed` -/
  closed : Output → Bool
  gotCHLD : Bool
  /-- `exitCode` and `termSignal`, which are `undefined` at first. -/
  exit : Option Exit
  /-- `self.stdin.end` was called. -/
  stdinEnded : Bool
  /-- The arguments of `'exit'`, each time it was emitted. -/
  emitted : List (Option Exit)

namespace ChildProcess

/-- `customFds[i] === -1 || customFds[i] === undefined` -/
def isPipe (customFds : List (Option ℤ)) (i : ℕ) : Bool :=
  match customFds[i]? with
  | some (some fd) => fd == -1
  | _ => true

/-- A new `ChildProcess` after `spawn`. -/
def spawn (customFds : List (Option ℤ)) : ChildProcess where
  stdin := isPipe customFds 0
  output o := isPipe customFds o.index
  readable o := isPipe customFds o.index
  closed _ := false
  gotCHLD := false
  exit := none
  stdinEnded := false
  emitted := []

variable (c : ChildProcess)

/-- `self.emit('exit', exitCode, termSignal)` -/
def emitExit : ChildProcess := { c with emitted := c.emitted ++ [c.exit] }

/-- The listener of `'close'` on an output. -/
def onclose (o : Output) : ChildProcess :=
  let c := { c with closed := update c.closed o true }
  if c.gotCHLD ∧ (c.output o.other = false ∨ c.closed o.other) then c.emitExit else c

/-- `internal.onexit`, up to its condition. -/
def setExit (exit : Exit) : ChildProcess :=
  { c with gotCHLD := true, exit := some exit, stdinEnded := c.stdinEnded || c.stdin }

/-- `internal.onexit` -/
def onexit (exit : Exit) : ChildProcess :=
  if (c.output .stdout = false ∨ c.readable .stdout = false) ∧
      (c.output .stderr = false ∨ c.readable .stderr = false) then (c.setExit exit).emitExit
  else c.setExit exit

inductive Event where
  /-- The end of the output has been read. -/
  | eof (o : Output)
  /-- The output emits `'close'`. -/
  | close (o : Output)
  | onexit (exit : Exit)
  deriving DecidableEq

def step : Event → ChildProcess
  | .eof o => { c with readable := update c.readable o false }
  | .close o => c.onclose o
  | .onexit exit => c.onexit exit

def run (es : List Event) : ChildProcess := es.foldl step c

/-- All that happens to a process, in any order: each output ends and is closed after that, and the
process exits. -/
structure Order (customFds : List (Option ℤ)) (exit : Exit) (es : List Event) : Prop where
  nodup : es.Nodup
  mem_eof : ∀ o, .eof o ∈ es ↔ isPipe customFds o.index = true
  mem_close : ∀ o, .close o ∈ es ↔ isPipe customFds o.index = true
  mem_onexit : ∀ e, .onexit e ∈ es ↔ e = exit
  eof_close : ∀ o, .close o ∈ es → [.eof o, .close o].Sublist es

/-- The events that come before the process exits. -/
def before (exit : Exit) (es : List Event) : List Event := es.takeWhile (· ≠ .onexit exit)

/-- When the process exits, an output is still to be read, or all outputs are closed. -/
def Apart (customFds : List (Option ℤ)) (exit : Exit) (es : List Event) : Prop :=
  (∃ o, isPipe customFds o.index = true ∧ .eof o ∉ before exit es) ∨
    ∀ o, isPipe customFds o.index = true → .close o ∈ before exit es

instance (customFds : List (Option ℤ)) (exit : Exit) (es : List Event) :
    Decidable (Apart customFds exit es) :=
  decidable_of_iff
    ((isPipe customFds 1 = true ∧ .eof .stdout ∉ before exit es ∨
        isPipe customFds 2 = true ∧ .eof .stderr ∉ before exit es) ∨
      (isPipe customFds 1 = true → .close .stdout ∈ before exit es) ∧
        (isPipe customFds 2 = true → .close .stderr ∈ before exit es)) <| by
    refine or_congr ⟨?_, ?_⟩ ⟨?_, ?_⟩
    · rintro (h | h)
      exacts [⟨.stdout, h⟩, ⟨.stderr, h⟩]
    · rintro ⟨_ | _, h⟩
      exacts [.inl h, .inr h]
    · rintro ⟨hout, herr⟩ (_ | _)
      exacts [hout, herr]
    · exact fun h ↦ ⟨h .stdout, h .stderr⟩

/-! ## Before the exit -/

theorem run_append (es fs : List Event) : c.run (es ++ fs) = (c.run es).run fs :=
  List.foldl_append

/-- What the flags say after the first events. -/
structure Before (customFds : List (Option ℤ)) (es : List Event) (c : ChildProcess) : Prop where
  output : ∀ o, c.output o = isPipe customFds o.index
  readable : ∀ o, c.readable o = true ↔ isPipe customFds o.index = true ∧ .eof o ∉ es
  closed : ∀ o, c.closed o = true ↔ .close o ∈ es
  gotCHLD : c.gotCHLD = false
  emitted : c.emitted = []

variable {c} {customFds : List (Option ℤ)} {es fs gs : List Event} {exit : Exit}

theorem Before.step (h : Before customFds es c) {ev : Event} (hev : ∀ e, ev ≠ .onexit e) :
    Before customFds (es ++ [ev]) (c.step ev) := by
  cases ev with
  | eof o =>
    refine ⟨h.output, fun p ↦ ?_, fun p ↦ ?_, h.gotCHLD, h.emitted⟩
    · change update c.readable o false p = true ↔ _
      by_cases hp : p = o
      · subst hp
        simp
      · rw [Function.update_of_ne hp, h.readable p]
        simp [hp]
    · change c.closed p = true ↔ _
      rw [h.closed p]
      simp
  | close o =>
    have hstep : c.step (.close o) = { c with closed := update c.closed o true } := by
      simp [ChildProcess.step, onclose, h.gotCHLD]
    rw [hstep]
    refine ⟨h.output, fun p ↦ ?_, fun p ↦ ?_, h.gotCHLD, h.emitted⟩
    · change c.readable p = true ↔ _
      rw [h.readable p]
      simp
    · change update c.closed o true p = true ↔ _
      by_cases hp : p = o
      · subst hp
        simp
      · rw [Function.update_of_ne hp, h.closed p]
        simp [hp]
  | onexit e => exact absurd rfl (hev e)

theorem before_spawn (customFds : List (Option ℤ)) : Before customFds [] (spawn customFds) :=
  ⟨fun _ ↦ rfl, fun _ ↦ ⟨fun h ↦ ⟨h, List.not_mem_nil⟩, And.left⟩,
    fun _ ↦ ⟨fun h ↦ absurd h Bool.false_ne_true, fun h ↦ absurd h List.not_mem_nil⟩, rfl, rfl⟩

theorem Before.run (h : Before customFds es c) (hfs : ∀ e, .onexit e ∉ fs) :
    Before customFds (es ++ fs) (c.run fs) := by
  induction fs generalizing es c with
  | nil => rwa [List.append_nil]
  | cons ev fs ih =>
    have hev : ∀ e, ev ≠ .onexit e := fun e he ↦ hfs e (he ▸ List.mem_cons_self)
    have hstep := h.step hev
    have hrun := ih hstep fun e he ↦ hfs e (List.mem_cons_of_mem _ he)
    rwa [List.append_assoc, List.singleton_append] at hrun

/-! ## After the exit -/

/-- Which outputs the events are going to close. -/
structure After (es : List Event) (c : ChildProcess) : Prop where
  gotCHLD : c.gotCHLD = true
  nodup : es.Nodup
  mem_close : ∀ o, .close o ∈ es ↔ c.output o = true ∧ c.closed o = false
  not_onexit : ∀ e, .onexit e ∉ es

theorem After.emitted_of_none (h : After es c) (hnone : ∀ o, .close o ∉ es) :
    (c.run es).emitted = c.emitted := by
  induction es generalizing c with
  | nil => rfl
  | cons ev es ih =>
    cases ev with
    | eof o =>
      have hmem (p : Output) : .close p ∈ Event.eof o :: es ↔ .close p ∈ es := by simp
      refine ih (c := c.step (.eof o)) ⟨h.gotCHLD, (List.nodup_cons.mp h.nodup).2, fun p ↦ ?_,
        fun e he ↦ h.not_onexit e (List.mem_cons_of_mem _ he)⟩ fun p hp ↦ hnone p ((hmem p).mpr hp)
      exact (hmem p).symm.trans (h.mem_close p)
    | close o => exact absurd List.mem_cons_self (hnone o)
    | onexit e => exact absurd List.mem_cons_self (h.not_onexit e)

/-- The last `'close'` emits `'exit'`. -/
theorem After.emitted_of_some (h : After es c) (hsome : ∃ o, .close o ∈ es) :
    (c.run es).emitted = c.emitted ++ [c.exit] := by
  induction es generalizing c with
  | nil =>
    obtain ⟨o, ho⟩ := hsome
    cases ho
  | cons ev es ih =>
    obtain ⟨hnotin, hnodup⟩ := List.nodup_cons.mp h.nodup
    have hnot (e : Exit) : .onexit e ∉ es := fun he ↦ h.not_onexit e (List.mem_cons_of_mem _ he)
    cases ev with
    | eof o =>
      have hmem (p : Output) : .close p ∈ Event.eof o :: es ↔ .close p ∈ es := by simp
      simp only [hmem] at hsome
      exact ih (c := c.step (.eof o))
        ⟨h.gotCHLD, hnodup, fun p ↦ (hmem p).symm.trans (h.mem_close p), hnot⟩ hsome
    | onexit e => exact absurd List.mem_cons_self (h.not_onexit e)
    | close o =>
      set t : ChildProcess := { c with closed := update c.closed o true } with ht
      have hclosed : t.closed o = true := Function.update_self ..
      have hother : t.closed o.other = c.closed o.other := Function.update_of_ne o.other_ne ..
      have hclose : .close o.other ∈ es ↔ t.output o.other = true ∧ t.closed o.other = false := by
        rw [hother, ← h.mem_close, List.mem_cons, Event.close.injEq, or_iff_right o.other_ne]
      have hafter : After es t := by
        refine ⟨h.gotCHLD, hnodup, fun p ↦ ?_, hnot⟩
        obtain rfl | rfl := o.eq_or_eq_other p
        · simp [hclosed, hnotin]
        · exact hclose
      by_cases hlast : c.output o.other = false ∨ t.closed o.other = true
      · -- The other output is not waited for, so this is the last event that counts.
        have hstep : c.step (.close o) = t.emitExit := if_pos ⟨h.gotCHLD, hlast⟩
        have hnone (p : Output) : .close p ∉ es := by
          intro hp
          obtain rfl | rfl := o.eq_or_eq_other p
          · exact hnotin hp
          · obtain ⟨hout, hopen⟩ := hclose.mp hp
            rcases hlast with hl | hl
            · exact absurd (hl.symm.trans hout) Bool.false_ne_true
            · exact absurd (hopen.symm.trans hl) Bool.false_ne_true
        change ((c.step (.close o)).run es).emitted = _
        exact (congrArg (fun c ↦ (run c es).emitted) hstep).trans
          (emitted_of_none (c := t.emitExit) ⟨h.gotCHLD, hnodup, hafter.mem_close, hnot⟩ hnone)
      · have hstep : c.step (.close o) = t := if_neg fun hc ↦ hlast hc.2
        obtain ⟨hout, hopen⟩ := not_or.mp hlast
        have hclosing : .close o.other ∈ es :=
          hclose.mpr ⟨(Bool.not_eq_false _).mp hout, (Bool.not_eq_true _).mp hopen⟩
        change ((c.step (.close o)).run es).emitted = _
        rw [hstep, ih hafter ⟨_, hclosing⟩]

/-! ## The whole run -/

/-- The events of a process, before and after its exit. -/
theorem Order.split (h : Order customFds exit es) :
    ∃ fs, es = before exit es ++ .onexit exit :: fs := by
  obtain ⟨as, bs, hes⟩ := List.append_of_mem ((h.mem_onexit exit).mpr rfl)
  have hnot : .onexit exit ∉ as := fun has ↦
    (List.disjoint_of_nodup_append (hes ▸ h.nodup)) has List.mem_cons_self
  have hbefore : before exit es = as := by
    unfold before
    rw [hes, List.takeWhile_append_of_pos, List.takeWhile_cons_of_neg (by simp), List.append_nil]
    intro ev hev
    exact decide_eq_true fun he ↦ hnot (he ▸ hev)
  exact ⟨bs, hbefore.symm ▸ hes⟩

/-- An output that is closed has come to its end before. -/
theorem Order.eof_mem (h : Order customFds exit es) (hes : es = fs ++ gs) {o : Output}
    (hclose : .close o ∈ fs) : .eof o ∈ fs := by
  have hsub := h.eof_close o (hes ▸ List.mem_append_left _ hclose)
  rw [hes, List.sublist_append_iff] at hsub
  obtain ⟨l₁, l₂, hl, h₁, h₂⟩ := hsub
  cases l₁ with
  | nil =>
    rw [List.nil_append] at hl
    have hmem : .close o ∈ gs := h₂.subset (hl ▸ by simp)
    exact absurd hmem (List.disjoint_of_nodup_append (hes ▸ h.nodup) hclose)
  | cons ev l =>
    obtain ⟨rfl, -⟩ := List.cons.inj hl
    exact h₁.subset List.mem_cons_self

/-- `onexit` finds out whether all outputs have come to their ends. -/
theorem Before.emitted_onexit (h : Before customFds es c) (exit : Exit) :
    ((∀ o, isPipe customFds o.index = true → .eof o ∈ es) →
        (c.onexit exit).emitted = [some exit]) ∧
      ((∃ o, isPipe customFds o.index = true ∧ .eof o ∉ es) → (c.onexit exit).emitted = []) := by
  have hdone (o : Output) : (c.output o = false ∨ c.readable o = false) ↔
      (isPipe customFds o.index = true → .eof o ∈ es) := by
    have hr := h.readable o
    rw [← Bool.not_eq_true, ← Bool.not_eq_true, h.output, hr]
    tauto
  refine ⟨fun hall ↦ ?_, fun ⟨o, hpipe, heof⟩ ↦ ?_⟩
  · have hc : c.onexit exit = (c.setExit exit).emitExit :=
      if_pos ⟨(hdone .stdout).mpr (hall .stdout), (hdone .stderr).mpr (hall .stderr)⟩
    rw [hc]
    exact congrArg (· ++ [some exit]) h.emitted
  · have hc : c.onexit exit = c.setExit exit := by
      refine if_neg fun ⟨hout, herr⟩ ↦ ?_
      cases o with
      | stdout => exact heof ((hdone .stdout).mp hout hpipe)
      | stderr => exact heof ((hdone .stderr).mp herr hpipe)
    rw [hc]
    exact h.emitted

theorem onexit_frame (c : ChildProcess) (exit : Exit) :
    (c.onexit exit).gotCHLD = true ∧ (c.onexit exit).exit = some exit ∧
      (c.onexit exit).output = c.output ∧ (c.onexit exit).closed = c.closed := by
  unfold onexit
  split_ifs
  exacts [⟨rfl, rfl, rfl, rfl⟩, ⟨rfl, rfl, rfl, rfl⟩]

/-- `'exit'` is emitted once, with the arguments of `onexit`, if and only if an output is still to
be read at that time, or all are closed. -/
theorem exits_once_iff (h : Order customFds exit es) :
    ((spawn customFds).run es).emitted = [some exit] ↔ Apart customFds exit es := by
  obtain ⟨fs, hes⟩ := h.split
  unfold Apart
  generalize before exit es = bs at hes ⊢
  have hnodup := h.nodup
  rw [hes, List.nodup_append, List.nodup_cons] at hnodup
  obtain ⟨-, ⟨hexit, hfs⟩, hdisjoint⟩ := hnodup
  have hbs (e : Exit) : .onexit e ∉ bs := fun he ↦ by
    obtain rfl := (h.mem_onexit e).mp (hes ▸ List.mem_append_left _ he)
    exact hdisjoint _ he _ List.mem_cons_self rfl
  have hfs' (e : Exit) : .onexit e ∉ fs := fun he ↦ by
    obtain rfl := (h.mem_onexit e).mp
      (hes ▸ List.mem_append_right _ (List.mem_cons_of_mem _ he))
    exact hexit he
  have hclose (o : Output) :
      .close o ∈ fs ↔ isPipe customFds o.index = true ∧ .close o ∉ bs := by
    rw [← h.mem_close, hes]
    simp only [List.mem_append, List.mem_cons, reduceCtorEq, false_or]
    exact ⟨fun ho ↦ ⟨.inr ho, fun hb ↦ hdisjoint _ hb _ (List.mem_cons_of_mem _ ho) rfl⟩,
      fun ⟨ho, hb⟩ ↦ ho.resolve_left hb⟩
  have hbefore := (before_spawn customFds).run hbs
  rw [List.nil_append] at hbefore
  rw [hes, run_append]
  generalize (spawn customFds).run bs = c at hbefore ⊢
  obtain ⟨hgot, hexit', houtput, hclosed⟩ := onexit_frame c exit
  have hafter : After fs (c.onexit exit) := by
    refine ⟨hgot, hfs, fun o ↦ ?_, hfs'⟩
    rw [hclose, houtput, hclosed, hbefore.output, ← hbefore.closed, Bool.not_eq_true]
  obtain ⟨hall, hsome⟩ := hbefore.emitted_onexit exit
  change ((c.onexit exit).run fs).emitted = _ ↔ _
  by_cases heof : ∀ o, isPipe customFds o.index = true → .eof o ∈ bs
  · by_cases hlater : ∃ o, .close o ∈ fs
    · -- It is emitted by `onexit` and by the last `'close'`.
      rw [hafter.emitted_of_some hlater, hall heof, hexit']
      obtain ⟨o, ho⟩ := hlater
      obtain ⟨hpipe, hnot⟩ := (hclose o).mp ho
      refine ⟨fun he ↦ absurd (congrArg List.length he) (by simp), ?_⟩
      rintro (⟨p, hp, hne⟩ | hc)
      exacts [absurd (heof p hp) hne, absurd (hc o hpipe) hnot]
    · rw [hafter.emitted_of_none fun o ho ↦ hlater ⟨o, ho⟩, hall heof]
      refine ⟨fun _ ↦ .inr fun o ho ↦ ?_, fun _ ↦ rfl⟩
      by_contra hnot
      exact hlater ⟨o, (hclose o).mpr ⟨ho, hnot⟩⟩
  · obtain ⟨o, ho⟩ := not_forall.mp heof
    obtain ⟨hpipe, hnot⟩ := Classical.not_imp.mp ho
    have hlater : .close o ∈ fs := (hclose o).mpr ⟨hpipe, fun hb ↦ hnot (h.eof_mem hes hb)⟩
    rw [hafter.emitted_of_some ⟨o, hlater⟩, hsome ⟨o, hpipe, hnot⟩, hexit']
    exact ⟨fun _ ↦ .inl ⟨o, hpipe, hnot⟩, fun _ ↦ rfl⟩

/-- Only `stdout` is a pipe; it is closed before the process exits. -/
theorem exits_once_of_closed :
    ((spawn [none, none, some 2]).run
      [.eof .stdout, .close .stdout, .onexit ⟨some 0, none⟩]).emitted = [some ⟨some 0, none⟩] := by
  refine (exits_once_iff
    ⟨by decide, fun o ↦ ?_, fun o ↦ ?_, fun e ↦ ?_, fun o ↦ ?_⟩).mpr (by decide)
  · cases o <;> decide
  · cases o <;> decide
  · simp
  · cases o <;> decide

/-- The process exits between the end of its output and the `'close'`. -/
theorem exits_twice : ∃ es, Order [none, none, some 2] ⟨some 0, none⟩ es ∧
    ((spawn [none, none, some 2]).run es).emitted = [some ⟨some 0, none⟩, some ⟨some 0, none⟩] := by
  refine ⟨[.eof .stdout, .onexit ⟨some 0, none⟩, .close .stdout],
    ⟨by decide, fun o ↦ ?_, fun o ↦ ?_, fun e ↦ ?_, fun o ↦ ?_⟩, rfl⟩
  · cases o <;> decide
  · cases o <;> decide
  · simp
  · cases o <;> decide

end ChildProcess

end SpiderNode
