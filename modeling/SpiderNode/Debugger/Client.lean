import SpiderNode.Debugger.Protocol
import SpiderNode.Machine.Runs
import Mathlib.Data.List.Nodup
import Mathlib.Data.List.Perm.Basic
import Mathlib.Logic.Function.Basic

/-!
# Requests of the debugger client

`req` of `lib/_debugger.js` writes a request, marks a function with the `seq` of it and puts the
function into `_reqCallbacks`. `_onResponse` looks there for the function that a message is for.

Messages without a `request_seq` are events. Listeners of `'break'` and `'ready'` make requests, and
so do the functions that are called; after each message `_newRes` starts over, also with `reqSeq`.
None of these functions throws here.
-/

namespace SpiderNode.Debugger

open Function (update)

/-- `res`, as far as `_onResponse` reads it; a number is the only `request_seq` there is. -/
structure Res where
  /-- `res.headers.Type` -/
  type : Option JSString
  /-- `res.body.event` -/
  event : Option JSString
  /-- `res.body.request_seq` -/
  requestSeq : Option ℕ
  deriving DecidableEq

/-- A message during which listeners are called. -/
def Res.Emits (res : Res) : Prop := res.type = some (js "connect") ∨ res.event = some (js "break")

instance (res : Res) : Decidable res.Emits :=
  inferInstanceAs (Decidable (res.type = _ ∨ res.event = _))

/-- A request that has been written. -/
structure Request (κ : Type*) where
  seq : ℕ
  cb : κ
  deriving DecidableEq

/-- Where `_onResponse` is. -/
inductive Stage (κ : Type*) where
  | idle
  /-- Behind the loop, with `i` and `cb` as it leaves them, and the request that is answered. -/
  | found (i : ℕ) (cb : Option κ) (res : Res) (answers : Option (Request κ))
  /-- Behind the call of `cb`. -/
  | called
  deriving DecidableEq

namespace Stage

variable {κ : Type*}

/-- Functions run that may make requests. -/
def Runs : Stage κ → Prop
  | idle | called => True
  | found _ _ res _ => res.Emits

instance : (stage : Stage κ) → Decidable stage.Runs
  | idle | called => inferInstanceAs (Decidable True)
  | found _ _ res _ => inferInstanceAs (Decidable res.Emits)

/-- The request that is being answered. -/
def answers : Stage κ → List (Request κ)
  | found _ _ _ answers => answers.toList
  | _ => []

end Stage

/-- A client that has functions `κ` for its requests. What has become of the requests is kept
besides. -/
structure Client (κ : Type*) where
  protocol : Protocol
  /-- `_reqCallbacks` -/
  reqCallbacks : List κ
  /-- `cb.request_seq` -/
  requestSeq : κ → Option ℕ
  written : List JSString
  stage : Stage κ
  /-- All requests. -/
  requests : List (Request κ)
  /-- Those without an answer yet. -/
  outstanding : List (Request κ)
  /-- Those of which the answer has been dealt with. -/
  answered : List (Request κ × Res)
  /-- The calls of functions in `_reqCallbacks`. -/
  calls : List (κ × Res)

namespace Client

variable {κ : Type*}

def new : Client κ := ⟨.new, [], fun _ ↦ none, [], .idle, [], [], [], []⟩

/-- The loop of `_onResponse`: `i` and `cb` behind it. -/
def search (requestSeq : κ → Option ℕ) (target : Option ℕ) :
    List κ → ℕ → Option κ → ℕ × Option κ
  | [], i, cb => (i, cb)
  | k :: ks, i, _ =>
    if requestSeq k = target then (i, some k) else search requestSeq target ks (i + 1) (some k)

/-- `_onResponse`, up to what depends on the kind of the message. -/
def receive (res : Res) (answers : Option (Request κ)) (c : Client κ) : Client κ :=
  let (i, cb) := search c.requestSeq res.requestSeq c.reqCallbacks 0 none
  { c with stage := .found i cb res answers }

/-- The rest of `_onResponse`: the function is taken out and called. -/
def respond (i : ℕ) (cb : Option κ) (res : Res) (answers : Option (Request κ)) (c : Client κ) :
    Client κ :=
  let c := { c with
    stage := .called
    answered := c.answered ++ answers.toList.map fun r ↦ (r, res) }
  match cb with
  | some k =>
    { c with reqCallbacks := c.reqCallbacks.eraseIdx i, calls := c.calls ++ [(k, res)] }
  | none => c

section Events

variable [DecidableEq κ] (d : Doubles)

def req (fields : List (JSString × Json)) (cb : κ) (c : Client κ) : Client κ :=
  let (text, _, protocol) := c.protocol.serialize d fields
  let r : Request κ := ⟨c.protocol.reqSeq, cb⟩
  { c with
    written := c.written ++ [text]
    protocol := protocol
    requestSeq := update c.requestSeq cb (some r.seq)
    reqCallbacks := c.reqCallbacks ++ [cb]
    requests := c.requests ++ [r]
    outstanding := c.outstanding ++ [r] }

inductive Event (κ : Type*) where
  | req (fields : List (JSString × Json)) (cb : κ)
  /-- The answer to a request. -/
  | response (r : Request κ) (res : Res)
  /-- An event. `reqScripts` makes the function `cb`, if it is called. -/
  | notice (res : Res) (cb : κ)
  | respond
  /-- `_newRes`, with the text behind the message. -/
  | newRes (raw : JSString)

/-- What can happen. An answer is no event, and has the `seq` of the request. -/
def Can (c : Client κ) : Event κ → Prop
  | .req .. => c.stage.Runs
  | .response r res => c.stage = .idle ∧ r ∈ c.outstanding ∧ res.requestSeq = some r.seq ∧
      res.event = none ∧ res.type ≠ some (js "connect")
  | .notice res cb => c.stage = .idle ∧ res.requestSeq = none ∧ c.requestSeq cb = none
  | .respond => (c.stage matches .found ..)
  | .newRes _ => c.stage = .called

instance (c : Client κ) : DecidablePred c.Can
  | .req .. => inferInstanceAs (Decidable c.stage.Runs)
  | .response .. => inferInstanceAs (Decidable (_ ∧ _ ∧ _ ∧ _ ∧ _))
  | .notice .. => inferInstanceAs (Decidable (_ ∧ _ ∧ _))
  | .respond => inferInstanceAs (Decidable (_ = true))
  | .newRes _ => inferInstanceAs (Decidable (c.stage = .called))

/-- `{ command: 'scripts' }` -/
def scripts : List (JSString × Json) := [(js "command", .string (js "scripts"))]

def happen (c : Client κ) : Event κ → Client κ
  | .req fields cb => c.req d fields cb
  | .response r res => { c.receive res (some r) with outstanding := c.outstanding.erase r }
  | .notice res cb =>
    let c := c.receive res none
    if res.type = some (js "connect") then c.req d scripts cb else c
  | .respond =>
    match c.stage with
    | .found i cb res answers => c.respond i cb res answers
    | _ => c
  | .newRes raw => { c with protocol := c.protocol.newRes raw, stage := .idle }

def machine : Machine (Client κ) (Event κ) Empty := ⟨Can, fun c e ↦ .ok (c.happen d e)⟩

instance (c : Client κ) : DecidablePred ((machine d).guard c) :=
  inferInstanceAs (DecidablePred c.Can)

end Events

/-! ## One answer for each request -/

/-- Requests without an answer differ in their `seq`; of the others each has been called with the
message that has its `seq`, and no other call has been made. -/
structure Matched (c : Client κ) : Prop where
  nodup : (c.outstanding.map Request.seq).Nodup
  each : (c.answered.map Prod.fst ++ (c.stage.answers ++ c.outstanding)).Perm c.requests
  own : ∀ a ∈ c.answered, a.2.requestSeq = some a.1.seq
  calls : c.calls = c.answered.map fun a ↦ (a.1.cb, a.2)

/-- The counter has passed the requests without an answer; a function waits for one answer at a
time, and for none when there is an event. -/
def Calm (c : Client κ) : Event κ → Prop
  | .req _ cb => c.protocol.reqSeq ∉ c.outstanding.map Request.seq ∧ cb ∉ c.reqCallbacks
  | .notice .. => c.reqCallbacks = []
  | _ => True

/-- The functions that wait are those of the requests without an answer; the one that has been found
is that of the request which is answered. -/
def Waits (c : Client κ) : Stage κ → Prop
  | .found i (some k) res answers => ¬res.Emits ∧
      (∃ r, answers = some r ∧ res.requestSeq = some r.seq ∧ r.cb = k) ∧
        c.reqCallbacks.eraseIdx i = c.outstanding.map Request.cb
  | .found _ none _ answers => answers = none ∧ c.reqCallbacks = c.outstanding.map Request.cb
  | _ => c.reqCallbacks = c.outstanding.map Request.cb

/-- The invariant. -/
structure Kept (c : Client κ) : Prop extends c.Matched where
  functions : (c.outstanding.map Request.cb).Nodup
  marked : ∀ r ∈ c.outstanding, c.requestSeq r.cb = some r.seq
  waits : c.Waits c.stage

variable {c : Client κ} {r : Request κ} {res : Res} {cb : κ}

/-- While functions run, the functions in `_reqCallbacks` are those that wait. -/
theorem Kept.reqCallbacks_eq (h : c.Kept) (hruns : c.stage.Runs) :
    c.reqCallbacks = c.outstanding.map Request.cb := by
  have hwaits := h.waits
  match hs : c.stage, hruns, hwaits with
  | .idle, _, hwaits | .called, _, hwaits => exact hwaits
  | .found _ none _ _, _, hwaits => exact hwaits.2
  | .found _ (some _) res _, hruns, hwaits => exact absurd hruns hwaits.1

/-- An event finds no function. -/
theorem Kept.receive_notice (h : c.Kept) (hidle : c.stage = .idle) (hnone : c.reqCallbacks = []) :
    (c.receive res none).Kept ∧ (c.receive res none).outstanding = [] := by
  have hempty : c.outstanding = [] := by
    have hwaiting := h.reqCallbacks_eq (hidle ▸ trivial)
    exact List.map_eq_nil_iff.mp (hwaiting.symm.trans hnone)
  have hreceive : c.receive res none = { c with stage := .found 0 none res none } := by
    rw [receive, hnone, search]
  have heach := h.each
  rw [hidle] at heach
  rw [hreceive]
  exact ⟨⟨⟨h.nodup, heach, h.own, h.calls⟩, h.functions, h.marked, rfl, by rw [hnone, hempty]; rfl⟩,
    hempty⟩

theorem Kept.respond {i : ℕ} {k : Option κ} {answers : Option (Request κ)} (h : c.Kept)
    (hstage : c.stage = .found i k res answers) : (c.respond i k res answers).Kept := by
  have hwaits := h.waits
  have heach := h.each
  rw [hstage] at hwaits heach
  match k, hwaits with
  | none, ⟨hanswers, hwaiting⟩ =>
    subst hanswers
    refine ⟨⟨h.nodup, ?_, ?_, ?_⟩, h.functions, h.marked, hwaiting⟩
    · simpa [Client.respond, Stage.answers] using heach
    · simpa [Client.respond] using h.own
    · simpa [Client.respond] using h.calls
  | some k, ⟨_, ⟨r, hanswers, hseq, hcb⟩, hwaiting⟩ =>
    subst hanswers hcb
    refine ⟨⟨h.nodup, ?_, ?_, ?_⟩, h.functions, h.marked, hwaiting⟩
    · simpa [Client.respond, Stage.answers] using heach
    · intro a ha
      rcases List.mem_append.mp ha with ha | ha
      · exact h.own a ha
      · obtain rfl := List.mem_singleton.mp ha
        exact hseq
    · simp [Client.respond, h.calls]

theorem kept_new : (new : Client κ).Kept :=
  ⟨⟨List.nodup_nil, .nil, fun _ h ↦ absurd h List.not_mem_nil, rfl⟩, List.nodup_nil,
    fun _ h ↦ absurd h List.not_mem_nil, rfl⟩

variable [DecidableEq κ] {d : Doubles} {fields : List (JSString × Json)}

instance (c : Client κ) : DecidablePred c.Calm
  | .req .. => inferInstanceAs (Decidable (_ ∧ _))
  | .notice .. => inferInstanceAs (Decidable (c.reqCallbacks = []))
  | .response .. | .respond | .newRes _ => inferInstanceAs (Decidable True)

/-- The loop finds the function of a request, if the requests differ. -/
theorem search_of_mem {requestSeq : κ → Option ℕ} {l : List (Request κ)} (hr : r ∈ l)
    (hnodup : (l.map Request.seq).Nodup) (hmarked : ∀ x ∈ l, requestSeq x.cb = some x.seq)
    (n : ℕ) (k : Option κ) :
    ∃ i, search requestSeq (some r.seq) (l.map Request.cb) n k = (n + i, some r.cb) ∧
      (l.map Request.cb).eraseIdx i = (l.erase r).map Request.cb := by
  induction l generalizing n k with
  | nil => cases hr
  | cons x l ih =>
    rw [List.map_cons, List.nodup_cons] at hnodup
    rw [List.map_cons, search, hmarked x (List.mem_cons_self ..)]
    rcases List.mem_cons.mp hr with rfl | hr
    · exact ⟨0, if_pos rfl, by rw [List.erase_cons_head, List.eraseIdx_cons_zero]⟩
    · have hne : x.seq ≠ r.seq := fun h ↦ hnodup.1 (h ▸ List.mem_map_of_mem hr)
      obtain ⟨i, hi, herase⟩ := ih hr hnodup.2 (fun y hy ↦ hmarked y (List.mem_cons_of_mem x hy))
        (n + 1) (some x.cb)
      refine ⟨i + 1, ?_, ?_⟩
      · rw [if_neg (by simpa using hne), hi, Nat.add_assoc, Nat.add_comm 1 i]
      · rw [List.erase_cons_tail (by simpa using fun h ↦ hne (congrArg _ h)), List.map_cons,
          List.eraseIdx_cons_succ, herase]

theorem Kept.req (h : c.Kept) (hruns : c.stage.Runs)
    (hseq : c.protocol.reqSeq ∉ c.outstanding.map Request.seq) (hcb : cb ∉ c.reqCallbacks) :
    (c.req d fields cb).Kept where
  nodup := by
    have hnodup := List.Nodup.concat hseq h.nodup
    rw [List.concat_eq_append] at hnodup
    rwa [Client.req, List.map_append]
  each := by
    have hperm := h.each.append_right [⟨c.protocol.reqSeq, cb⟩]
    rwa [List.append_assoc, List.append_assoc] at hperm
  own := h.own
  calls := h.calls
  functions := by
    rw [h.reqCallbacks_eq hruns] at hcb
    have hnodup := List.Nodup.concat hcb h.functions
    rw [List.concat_eq_append] at hnodup
    rwa [Client.req, List.map_append]
  marked := by
    rw [h.reqCallbacks_eq hruns] at hcb
    intro r hr
    rcases List.mem_append.mp hr with hr | hr
    · have hne : r.cb ≠ cb := fun heq ↦ hcb (heq ▸ List.mem_map_of_mem hr)
      exact (Function.update_of_ne hne ..).trans (h.marked r hr)
    · obtain rfl := List.mem_singleton.mp hr
      exact Function.update_self ..
  waits := by
    have heq : (c.req d fields cb).reqCallbacks =
        (c.req d fields cb).outstanding.map Request.cb := by
      rw [Client.req, List.map_append, h.reqCallbacks_eq hruns]
      rfl
    have hstage : (c.req d fields cb).stage = c.stage := rfl
    have hwaits := h.waits
    rw [hstage]
    generalize c.stage = stage at hruns hwaits ⊢
    match stage, hruns, hwaits with
    | .idle, _, _ | .called, _, _ => exact heq
    | .found _ none _ _, _, hwaits => exact ⟨hwaits.1, heq⟩
    | .found _ (some _) _ _, hruns, hwaits => exact absurd hruns hwaits.1

/-- An answer finds the function of its request. -/
theorem Kept.response (h : c.Kept) (hidle : c.stage = .idle) (hr : r ∈ c.outstanding)
    (hseq : res.requestSeq = some r.seq) (hevent : ¬res.Emits) :
    Kept { c.receive res (some r) with outstanding := c.outstanding.erase r } := by
  have hwaiting := h.reqCallbacks_eq (hidle ▸ trivial)
  have hsub : (c.outstanding.erase r).Sublist c.outstanding := List.erase_sublist
  obtain ⟨i, hsearch, herase⟩ := search_of_mem hr h.nodup h.marked 0 none
  rw [← hwaiting, ← hseq, Nat.zero_add] at hsearch
  have hreceive :
      c.receive res (some r) = { c with stage := .found i (some r.cb) res (some r) } := by
    rw [receive, hsearch]
  rw [hreceive]
  refine ⟨⟨(hsub.map _).nodup h.nodup, ?_, h.own, h.calls⟩, (hsub.map _).nodup h.functions,
    fun x hx ↦ h.marked x (hsub.subset hx), ?_⟩
  · have heach := h.each
    rw [hidle] at heach
    exact ((List.perm_cons_erase hr).symm.append_left _).trans heach
  · exact ⟨hevent, ⟨r, rfl, hseq, rfl⟩, by rw [hwaiting, herase]⟩

theorem Kept.happen {e : Event κ} (h : c.Kept) (hcan : c.Can e) (hcalm : c.Calm e) :
    (c.happen d e).Kept := by
  cases e with
  | req fields cb => exact h.req hcan hcalm.1 hcalm.2
  | response r res =>
    obtain ⟨hidle, hr, hseq, hevent, htype⟩ := hcan
    have hemits : ¬res.Emits := by
      rintro (hconnect | hbreak)
      · exact htype hconnect
      · rw [hevent] at hbreak
        cases hbreak
    exact h.response hidle hr hseq hemits
  | notice res cb =>
    obtain ⟨hidle, -, -⟩ := hcan
    obtain ⟨hkept, hempty⟩ : (c.receive res none).Kept ∧ (c.receive res none).outstanding = [] :=
      h.receive_notice hidle hcalm
    rw [Client.happen]
    split_ifs with hconnect
    · refine hkept.req ?_ ?_ ?_
      · exact .inl hconnect
      · rw [hempty]
        exact List.not_mem_nil
      · exact hcalm ▸ List.not_mem_nil
    · exact hkept
  | respond =>
    have hfound : (c.stage matches .found ..) = true := hcan
    match hs : c.stage, hfound with
    | .found i k res answers, _ =>
      rw [Client.happen, hs]
      exact h.respond hs
  | newRes raw =>
    have hcalled : c.stage = .called := hcan
    have hwaits := h.waits
    have heach := h.each
    rw [hcalled] at hwaits heach
    exact ⟨⟨h.nodup, heach, h.own, h.calls⟩, h.functions, h.marked, hwaits⟩

/-- Requests are matched with their answers, as long as the counter has passed those without an
answer and no function waits when there is an event. -/
theorem matched_of_calm (h : ((machine d).restrict Calm).Reaches new c) : c.Matched := by
  have hkept : c.Kept := by
    refine h.invariant kept_new ?_
    intro s t e hs hg ht
    obtain rfl := Except.ok.inj ht
    exact hs.happen hg.1 hg.2
  exact hkept.toMatched

/-- Two requests, answered in the other order, with an event before and another request behind. -/
theorem matched_of_calm_crossed :
    ∃ c : Client ℕ, ((machine .naturals).restrict Calm).Reaches new c ∧ c.Matched ∧
      c.calls = [(1, ⟨none, none, some 2⟩), (0, ⟨none, none, some 1⟩)] ∧
      c.outstanding = [⟨1, 2⟩] := by
  have hrun := Machine.reaches_of_run (M := (machine .naturals).restrict Calm) (s := new)
    (l := [.notice ⟨none, some (js "break"), none⟩ 9, .respond, .newRes [],
      .req [(js "command", .string (js "version"))] 0, .req scripts 1,
      .response ⟨2, 1⟩ ⟨none, none, some 2⟩, .respond, .newRes [],
      .response ⟨1, 0⟩ ⟨none, none, some 1⟩, .respond, .newRes [], .req scripts 2]) rfl
  exact ⟨_, hrun, matched_of_calm hrun, rfl, rfl⟩

/-- An event calls the function of a request; a message sets the counter back. -/
theorem event_calls_callback :
    ¬∀ c : Client ℕ, (machine .naturals).Reaches new c → c.Matched := by
  intro hall
  have hrun := Machine.reaches_of_run (M := machine .naturals) (s := (new : Client ℕ))
    (l := [.req scripts 0, .notice ⟨none, some (js "break"), none⟩ 9, .respond]) rfl
  exact absurd (hall _ hrun).calls (by decide)

end Client

end SpiderNode.Debugger
