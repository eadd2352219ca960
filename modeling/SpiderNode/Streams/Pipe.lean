import SpiderNode.Machine.Runs
import Mathlib.Logic.Function.Basic

/-!
# `Stream.pipe`

`pipe` of `lib/stream.js` adds a listener of `'data'` to the source, which writes to the destination
and pauses the source when `write` returns `false`, and a listener of `'drain'` to the destination,
which resumes the source. A source can have several destinations, and each pipe has listeners of its
own.

The source is paused as long as it is the last one that has refused. A pipe does not know of the
others: the `'drain'` of one destination resumes the source while another one is still waiting.
`respects_of_calm` says that this is the only way to lose a pause.

The destinations are the elements of a type. `write` runs code of the destination, so a call of it
is cut in two, and everything can happen in between. A source that has no `pause` and `resume` is
given such that emit events; what listens to them can only act as the program can anyway.
-/

namespace SpiderNode

open Function (update)

namespace Pipes

/-- A call of a method of the source. -/
inductive Call where
  | pause
  | resume
  deriving DecidableEq, Repr

/-- An `emit('data')` of the source that has not returned. -/
inductive Emission (δ : Type*) where
  /-- It is about to call the next one of these listeners. -/
  | looping (rest : List δ)
  /-- The listener of `dest` has called `dest.write`. -/
  | writing (dest : δ) (rest : List δ)
  deriving DecidableEq, Repr

end Pipes

/-- A source, and the destinations it is piped to. A listener that `pipe` adds goes by its
destination. -/
structure Pipes (δ : Type*) where
  /-- `source.readable` -/
  readable : Bool
  /-- The last call of `source.pause` or `source.resume`. -/
  lastCall : Option Pipes.Call
  /-- The listeners of `'data'` on the source. -/
  ondata : List δ
  /-- The listeners of `'end'` on the source. -/
  onend : List δ
  /-- The listeners of `'drain'` on the destinations. -/
  ondrain : List δ
  /-- The destinations with listeners of `'close'`, `'pause'` and `'resume'`. -/
  piped : List δ
  /-- `dest.writable` -/
  writable : δ → Bool
  /-- The last one is on top of the stack. -/
  emissions : List (Pipes.Emission δ)
  /-- All calls of `dest.end`. -/
  ended : List δ
  /-- `dest.write` has returned `false`, and there was no `'drain'` since. -/
  waiting : δ → Bool

namespace Pipes

variable {δ : Type*}

/-- A source that is not piped yet. -/
def start (readable : Bool) (writable : δ → Bool) : Pipes δ :=
  ⟨readable, none, [], [], [], [], writable, [], [], fun _ ↦ false⟩

variable (s : Pipes δ)

def pause : Pipes δ := { s with lastCall := some .pause }

def resume : Pipes δ := { s with lastCall := some .resume }

/-- `source.pipe(dest, options)`; `ends` is `!options || options.end !== false`. -/
def pipe (dest : δ) (ends : Bool) : Pipes δ :=
  { s with
    ondata := s.ondata ++ [dest]
    ondrain := s.ondrain ++ [dest]
    onend := if ends then s.onend ++ [dest] else s.onend
    piped := s.piped ++ [dest] }

/-- The listener of `'close'` that `pipe` adds. -/
def onclose [DecidableEq δ] (dest : δ) : Pipes δ :=
  { s with
    ondata := s.ondata.erase dest
    ondrain := s.ondrain.erase dest
    onend := s.onend.erase dest }

/-- `ondrain`, and the listener of `'resume'`. -/
def resumeIfReadable : Pipes δ := if s.readable then s.resume else s

/-- `emit('data')` goes on: it calls the next listener. -/
def next : Pipes δ :=
  match s.emissions with
  | .looping (dest :: rest) :: below =>
    if s.writable dest then { s with emissions := .writing dest rest :: below }
    else { s with emissions := .looping rest :: below }
  | .looping [] :: below => { s with emissions := below }
  | _ => s

/-- `dest.write` returns, and `ondata` goes on. -/
def returns [DecidableEq δ] (result : Bool) : Pipes δ :=
  match s.emissions with
  | .writing dest rest :: below =>
    if result then { s with emissions := .looping rest :: below }
    else pause
      { s with emissions := .looping rest :: below, waiting := update s.waiting dest true }
  | _ => s

inductive Event (δ : Type*) where
  | pipe (dest : δ) (ends : Bool)
  /-- The source emits `'data'`. -/
  | data
  | next
  | returns (result : Bool)
  /-- A destination emits one of these. -/
  | drain (dest : δ)
  | close (dest : δ)
  | pause (dest : δ)
  | resume (dest : δ)
  /-- The source emits `'end'`. -/
  | «end»
  | setReadable (b : Bool)
  | setWritable (dest : δ) (b : Bool)
  deriving DecidableEq

/-- The destinations are a set: a source is piped to each only once. -/
def Allows : Event δ → Prop
  | .pipe dest _ => dest ∉ s.piped
  | .next => ∃ rest below, s.emissions = .looping rest :: below
  | .returns _ => ∃ dest rest below, s.emissions = .writing dest rest :: below
  | _ => True

def step [DecidableEq δ] : Event δ → Pipes δ
  | .pipe dest ends => s.pipe dest ends
  | .data => { s with emissions := .looping s.ondata :: s.emissions }
  | .next => s.next
  | .returns result => s.returns result
  | .drain dest =>
    let t := { s with waiting := update s.waiting dest false }
    if dest ∈ s.ondrain then t.resumeIfReadable else t
  | .close dest => if dest ∈ s.piped then s.onclose dest else s
  | .pause dest => if dest ∈ s.piped then s.pause else s
  | .resume dest => if dest ∈ s.piped then s.resumeIfReadable else s
  | .end => { s with ended := s.ended ++ s.onend }
  | .setReadable b => { s with readable := b }
  | .setWritable dest b => { s with writable := update s.writable dest b }

/-- The source and its destinations. -/
def machine (δ : Type*) [DecidableEq δ] : Machine (Pipes δ) (Event δ) Empty :=
  ⟨Allows, fun s ev ↦ .ok (s.step ev)⟩

/-! ## Slow destinations -/

/-- The source is paused if a destination waits for its `'drain'`. -/
def Respects : Prop :=
  ∀ dest, s.writable dest = true → s.waiting dest = true → s.lastCall = some .pause

/-- The event calls `source.resume`. -/
def Resumes : Event δ → Prop
  | .drain dest => dest ∈ s.ondrain ∧ s.readable = true
  | .resume dest => dest ∈ s.piped ∧ s.readable = true
  | _ => False

/-- The source is only resumed when no other destination waits, and no destination that waits is
made writable while the source is not paused. -/
def Calm (ev : Event δ) : Prop :=
  (s.Resumes ev → ∀ dest, ev ≠ .drain dest → s.writable dest = true → s.waiting dest = false) ∧
    ∀ dest, ev = .setWritable dest true → s.waiting dest = true → s.lastCall = some .pause

variable {s} {t : Pipes δ} {ev : Event δ}

/-- A step that neither resumes the source nor lets a destination wait. -/
theorem Respects.frame (h : s.Respects) (hcall : t.lastCall = s.lastCall)
    (hwritable : ∀ dest, t.writable dest = true → s.writable dest = true)
    (hwaiting : ∀ dest, t.waiting dest = true → s.waiting dest = true) : t.Respects :=
  fun dest hd hw ↦ hcall.trans (h dest (hwritable dest hd) (hwaiting dest hw))

theorem respects_of_paused (h : t.lastCall = some .pause) : t.Respects := fun _ _ _ ↦ h

theorem respects_resume_iff :
    s.resume.Respects ↔ ∀ dest, s.writable dest = true → s.waiting dest = false := by
  refine ⟨fun h dest hd ↦ ?_, fun h dest hd hw ↦ ?_⟩
  · by_contra hw
    exact absurd (h dest hd ((Bool.not_eq_false _).mp hw)) (by rintro ⟨⟩)
  · exact absurd ((h dest hd).symm.trans hw) Bool.false_ne_true

theorem respects_resumeIfReadable_iff (h : s.Respects) :
    s.resumeIfReadable.Respects ↔
      (s.readable = true → ∀ dest, s.writable dest = true → s.waiting dest = false) := by
  unfold resumeIfReadable
  split_ifs with hr
  · rw [respects_resume_iff]
    exact ⟨fun h _ ↦ h, fun h ↦ h hr⟩
  · exact ⟨fun _ hr' ↦ absurd hr' hr, fun _ ↦ h⟩

theorem Respects.next (h : s.Respects) : s.next.Respects := by
  unfold Pipes.next
  split
  · split_ifs
    · exact h.frame rfl (fun _ hd ↦ hd) fun _ hw ↦ hw
    · exact h.frame rfl (fun _ hd ↦ hd) fun _ hw ↦ hw
  · exact h.frame rfl (fun _ hd ↦ hd) fun _ hw ↦ hw
  · exact h

variable [DecidableEq δ]

theorem Respects.returns (h : s.Respects) (result : Bool) : (s.returns result).Respects := by
  unfold Pipes.returns
  split
  · split_ifs
    · exact h.frame rfl (fun _ hd ↦ hd) fun _ hw ↦ hw
    · exact respects_of_paused rfl
  · exact h

theorem Respects.drained (h : s.Respects) (dest : δ) :
    Respects { s with waiting := update s.waiting dest false } := by
  refine h.frame rfl (fun _ hd ↦ hd) fun e hw ↦ ?_
  by_cases he : e = dest
  · subst he
    exact absurd ((Function.update_self ..).symm.trans hw) Bool.false_ne_true
  · exact (Function.update_of_ne he ..).symm.trans hw

/-- What one step does to the pauses. -/
theorem Respects.step_iff (h : s.Respects) (ev : Event δ) : (s.step ev).Respects ↔ s.Calm ev := by
  have hcalm (hr : ¬s.Resumes ev) (hset : ∀ dest, ev ≠ .setWritable dest true) : s.Calm ev :=
    ⟨fun hr' ↦ absurd hr' hr, fun dest he ↦ absurd he (hset dest)⟩
  cases ev with
  | pipe | data | «end» | setReadable =>
    exact ⟨fun _ ↦ hcalm id fun _ he ↦ (by cases he),
      fun _ ↦ h.frame rfl (fun _ hd ↦ hd) fun _ hw ↦ hw⟩
  | next => exact ⟨fun _ ↦ hcalm id fun _ he ↦ (by cases he), fun _ ↦ h.next⟩
  | returns result => exact ⟨fun _ ↦ hcalm id fun _ he ↦ (by cases he), fun _ ↦ h.returns result⟩
  | close dest =>
    refine ⟨fun _ ↦ hcalm id fun _ he ↦ (by cases he), fun _ ↦ ?_⟩
    simp only [step]
    split_ifs
    · exact h.frame rfl (fun _ hd ↦ hd) fun _ hw ↦ hw
    · exact h
  | pause dest =>
    refine ⟨fun _ ↦ hcalm id fun _ he ↦ (by cases he), fun _ ↦ ?_⟩
    simp only [step]
    split_ifs
    · exact respects_of_paused rfl
    · exact h
  | drain dest =>
    simp only [step]
    split_ifs with hd
    · rw [respects_resumeIfReadable_iff (h.drained dest)]
      refine ⟨fun hother ↦ ⟨fun hr e he hwe ↦ ?_, fun _ he ↦ (by cases he)⟩, fun hc hr e hwe ↦ ?_⟩
      · have hne : e ≠ dest := fun heq ↦ he (heq ▸ rfl)
        exact (Function.update_of_ne hne ..).symm.trans (hother hr.2 e hwe)
      · by_cases he : e = dest
        · subst he
          exact Function.update_self ..
        · have hother := hc.1 ⟨hd, hr⟩ e (fun heq ↦ he (Event.drain.inj heq).symm) hwe
          exact (Function.update_of_ne he ..).trans hother
    · exact ⟨fun _ ↦ hcalm (fun hr ↦ hd hr.1) fun _ he ↦ (by cases he), fun _ ↦ h.drained dest⟩
  | resume dest =>
    simp only [step]
    split_ifs with hd
    · rw [respects_resumeIfReadable_iff h]
      exact ⟨fun hother ↦ ⟨fun hr e _ ↦ hother hr.2 e, fun _ he ↦ (by cases he)⟩,
        fun hc hr e ↦ hc.1 ⟨hd, hr⟩ e (by rintro ⟨⟩)⟩
    · exact ⟨fun _ ↦ hcalm (fun hr ↦ hd hr.1) fun _ he ↦ (by cases he), fun _ ↦ h⟩
  | setWritable dest b =>
    refine ⟨fun ht ↦ ⟨False.elim, fun e he hw ↦ ?_⟩, fun hc e hwe hw ↦ ?_⟩
    · obtain ⟨rfl, rfl⟩ := Event.setWritable.inj he
      exact ht dest (Function.update_self ..) hw
    · by_cases he : e = dest
      · subst he
        obtain rfl : b = true := (Function.update_self ..).symm.trans hwe
        exact hc.2 e rfl hw
      · exact h e ((Function.update_of_ne he ..).symm.trans hwe) hw

/-- In every run in which no destination has the source resumed while another one waits, the source
is paused whenever a destination waits. -/
theorem respects_of_calm (readable : Bool) (writable : δ → Bool)
    (h : ((machine δ).restrict Calm).Reaches (start readable writable) s) : s.Respects := by
  refine h.invariant (p := Respects) (fun _ _ hw ↦ absurd hw Bool.false_ne_true) ?_
  rintro s t ev hs ⟨-, hcalm⟩ ht
  obtain rfl := Except.ok.inj ht
  exact (hs.step_iff ev).mpr hcalm

theorem reaches_calm {s₀ : Pipes δ} (ev : Event δ) (h : ((machine δ).restrict Calm).Reaches s₀ s)
    (hallows : s.Allows ev) (hcalm : s.Calm ev) :
    ((machine δ).restrict Calm).Reaches s₀ (s.step ev) :=
  h.step ⟨hallows, hcalm⟩ rfl

/-- Two destinations, of which the first refuses. -/
theorem respects_of_calm_pair : ∃ s : Pipes Bool, s.Respects ∧ s.waiting false = true ∧
    s.lastCall = some .pause := by
  have hcalm {s : Pipes Bool} {ev : Event Bool} (hr : ¬s.Resumes ev)
      (hset : ∀ dest, ev ≠ .setWritable dest true) : s.Calm ev :=
    ⟨fun hr' ↦ absurd hr' hr, fun dest he ↦ absurd he (hset dest)⟩
  have hinit : ((machine Bool).restrict Calm).Reaches (start true fun _ ↦ true)
      (start true fun _ ↦ true) := .init
  have hfirst := reaches_calm (.pipe false true) hinit (by rintro ⟨⟩) (hcalm id (by rintro _ ⟨⟩))
  have hsecond := reaches_calm (.pipe true true) hfirst (by rintro (_ | ⟨_, ⟨⟩⟩))
    (hcalm id (by rintro _ ⟨⟩))
  have hdata := reaches_calm .data hsecond trivial (hcalm id (by rintro _ ⟨⟩))
  have hnext := reaches_calm .next hdata ⟨_, _, rfl⟩ (hcalm id (by rintro _ ⟨⟩))
  have hrefuse := reaches_calm (.returns false) hnext ⟨_, _, _, rfl⟩
    (hcalm id (by rintro _ ⟨⟩))
  exact ⟨_, respects_of_calm _ _ hrefuse, rfl, rfl⟩

/-- The second destination drains while the first one waits. -/
theorem other_drain_resumes : ∃ s : Pipes Bool,
    (machine Bool).Reaches (start true fun _ ↦ true) s ∧ s.waiting false = true ∧
      s.lastCall = some .resume ∧ ¬s.Respects := by
  have hstep {s : Pipes Bool} (ev : Event Bool)
      (h : (machine Bool).Reaches (start true fun _ ↦ true) s) (hallows : s.Allows ev) :
      (machine Bool).Reaches (start true fun _ ↦ true) (s.step ev) := h.step hallows rfl
  have hfirst := hstep (.pipe false true) .init (by rintro ⟨⟩)
  have hsecond := hstep (.pipe true true) hfirst (by rintro (_ | ⟨_, ⟨⟩⟩))
  have hdata := hstep .data hsecond trivial
  have hwrite := hstep .next hdata ⟨_, _, rfl⟩
  have hrefuse := hstep (.returns false) hwrite ⟨_, _, _, rfl⟩
  have hwrite' := hstep .next hrefuse ⟨_, _, rfl⟩
  have hrefuse' := hstep (.returns false) hwrite' ⟨_, _, _, rfl⟩
  have hdrain := hstep (.drain true) hrefuse' trivial
  refine ⟨_, hdrain, rfl, rfl, fun h ↦ ?_⟩
  exact absurd (h false rfl rfl) (by decide)

end Pipes

end SpiderNode
