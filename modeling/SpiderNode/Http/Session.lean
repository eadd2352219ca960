import SpiderNode.Http.Trailers
import SpiderNode.HttpParser.Binding

/-!
# The parser of a connection

The callbacks of `lib/http.js` as functions of the parser object. Besides the lines of a message
they keep what `onHeadersComplete` is told and hand on the body; a message is received when it emits
`end`.

The callbacks are not lawful: a slice that is not UTF-8 makes them throw. On ASCII texts they do not
see how these are cut, so `callbacks`, taken with care, is lawful: `lawful_watcher`. What
`onIncoming` returns may be another thing for each message (the response to a `HEAD` request has no
body), so what is known of the answers is known for one message at a time: that is the `listener`.

What the user does with a message is left out, and so is what `onIncoming` does besides saying
whether there is a body.
-/

namespace SpiderNode.Http

open HttpParser (Info Callbacks Kind Notice Bound taken)
open Net (JsError)

/-- A message that has emitted `end`, with all that it has emitted before. -/
structure Received where
  message : IncomingMessage
  info : Option Info
  body : Bytes
  deriving DecidableEq, Repr

structure Session where
  parser : Parser
  /-- What `onHeadersComplete` has stored in `parser.incoming`. -/
  info : Option Info
  /-- The data of `parser.incoming` so far. -/
  body : Bytes
  received : List Received
  deriving DecidableEq, Repr

/-! ## The callbacks -/

namespace Session

/-- `parser.incoming.upgrade` -/
def upgraded (s : Session) : Bool := s.info.any Info.upgrade

/-- A callback that is about the lines only. -/
def lift (f : Parser → Except JsError Parser) : EStateM JsError Session Unit := fun s ↦
  match f s.parser with
  | .ok p => .ok () { s with parser := p }
  | .error e => .error e s

def onMessageBegin : EStateM JsError Session Unit := fun s ↦
  .ok () { s with parser := Parser.onMessageBegin, info := none, body := [] }

def onHeadersComplete (onIncoming : ℕ → Info → Bool) (info : Info) :
    EStateM JsError Session Bool := fun s ↦
  match s.parser.onHeadersComplete with
  | .ok p =>
    .ok (!info.upgrade && onIncoming s.received.length info)
      { s with parser := p, info := some info }
  | .error e => .error e s

def onBody (b : Bytes) : EStateM JsError Session Unit := fun s ↦
  .ok () { s with body := s.body ++ b }

def onMessageComplete : EStateM JsError Session Unit := fun s ↦
  match s.parser.onMessageComplete with
  | .ok p =>
    if s.upgraded then .ok () { s with parser := p }
    else .ok () { s with parser := p, received := s.received ++ [⟨p.incoming, s.info, s.body⟩] }
  | .error e => .error e { s with parser.incoming.complete := true }

end Session

/-- The functions in the parser object, given what `toLowerCase` does outside ASCII and whether
`onIncoming` returns `true` for the message behind so many others. -/
def callbacks (lower : UInt16 → UInt16) (onIncoming : ℕ → Info → Bool) :
    Callbacks JsError Session where
  onMessageBegin := some Session.onMessageBegin
  onText
    | .url => some fun b ↦ Session.lift (Parser.onURL b)
    | .headerField => some fun b ↦ Session.lift (Parser.onHeaderField lower b)
    | .headerValue => some fun b ↦ Session.lift (Parser.onHeaderValue b)
    | .path | .queryString | .fragment => none
  onHeadersComplete := some (Session.onHeadersComplete onIncoming)
  onBody := some Session.onBody
  onMessageComplete := some Session.onMessageComplete

/-! ## Taken with care -/

/-- What the callbacks return to the parser for one message. -/
def answer (onIncoming : Info → Bool) : Notice → ℤ
  | .headersComplete m => if !m.info.upgrade && onIncoming m.info then 1 else 0
  | _ => 0

/-- A text that can be cut anywhere. No function gets the parts of the URL. -/
def Plain (d : Kind) (b : Bytes) : Bool := d.IsPart || b.all (·.toNat < 0x80)

/-- A session of which `parser.incoming` has `Q`. -/
abbrev Having (Q : Option Info → Prop) := {s : Session // Q s.info}

/-- The session with other lines. -/
def Having.withParser {Q : Option Info → Prop} (s : Having Q) (p : Parser) : Having Q :=
  ⟨{ s.1 with parser := p }, s.2⟩

/-- The callbacks as long as texts are plain, `parser.incoming` has `Q` and none throws. -/
def watcher (Q : Option Info → Prop) [DecidablePred Q] (lower : UInt16 → UInt16)
    (onIncoming : ℕ → Info → Bool) : HttpParser.Settings (Option (Having Q)) :=
  (callbacks lower onIncoming).watched Plain fun s ↦ Q s.info

/-- The same, as long as they return what they return for the `i`-th message. -/
def listener (Q : Option Info → Prop) [DecidablePred Q] (strict : Bool) (lower : UInt16 → UInt16)
    (onIncoming : ℕ → Info → Bool) (i : ℕ) : HttpParser.Listener (Option (Having Q)) :=
  ⟨strict, (callbacks lower onIncoming).careful Plain (fun s ↦ Q s.info) (answer (onIncoming i)),
    answer (onIncoming i)⟩

/-- What a text does to the lines. -/
def stepText (lower : UInt16 → UInt16) (d : Kind) (b : Bytes) (p : Parser) :
    Except JsError Parser :=
  match d with
  | .url => p.onURL b
  | .headerField => p.onHeaderField lower b
  | .headerValue => p.onHeaderValue b
  | .path | .queryString | .fragment => .ok p

section

variable {Q : Option Info → Prop} [DecidablePred Q] {strict : Bool} {lower : UInt16 → UInt16}
  {onIncoming : ℕ → Info → Bool} {i : ℕ}

theorem taken_lift (f : Parser → Except JsError Parser) (s : Having Q) :
    taken (fun s ↦ Q s.info) ((⟨s.1, false⟩ : Bound Session).call (fun _ ↦ 0)
      (some (Session.lift f))) 0 = (f s.1.parser).toOption.map s.withParser := by
  unfold Bound.call Session.lift
  rcases h : f s.1.parser with e | p
  · simp [taken, h, Except.toOption]
  · simp [taken, h, Except.toOption, s.2, Having.withParser]

/-- **A text** that is taken with care. -/
theorem data_watcher (d : Kind) (b : Bytes) (s : Having Q) :
    ((watcher Q lower onIncoming).data d b (some s)).1 =
      if Plain d b then (stepText lower d b s.1.parser).toOption.map s.withParser else none := by
  change (if Plain d b then taken (fun s ↦ Q s.info)
    ((callbacks lower onIncoming).settings.data d b ⟨s.1, false⟩) 0 else none) = _
  congr 1
  cases d with
  | url => exact taken_lift (Parser.onURL b) s
  | headerField => exact taken_lift (Parser.onHeaderField lower b) s
  | headerValue => exact taken_lift (Parser.onHeaderValue b) s
  | path | queryString | fragment => exact dif_pos ⟨s.2, rfl, rfl⟩

theorem body_watcher (b : Bytes) (s : Having Q) :
    ((watcher Q lower onIncoming).body b (some s)).1 =
      some ⟨{ s.1 with body := s.1.body ++ b }, s.2⟩ :=
  dif_pos ⟨s.2, rfl, rfl⟩

theorem plain_append (d : Kind) (x y : Bytes) :
    Plain d (x ++ y) = (Plain d x && Plain d y) := by
  unfold Plain
  rw [List.all_append]
  cases d.IsPart <;> rfl

theorem ascii_of_plain {d : Kind} (hd : d.IsPart = false) {b : Bytes} (h : Plain d b) :
    ∀ x ∈ b, x.toNat < 0x80 := by
  simpa [Plain, hd] using h

/-- **A text in two slices.** -/
theorem stepText_append (d : Kind) {x y : Bytes} (hx : Plain d x) (hy : Plain d y) (p : Parser) :
    stepText lower d (x ++ y) p = stepText lower d x p >>= stepText lower d y := by
  have hslices : d.IsPart = false → asciiSlice x = .ok (asciiText x) ∧
      asciiSlice y = .ok (asciiText y) ∧
        asciiSlice (x ++ y) = .ok (asciiText x ++ asciiText y) := by
    intro hd
    have hxy : Plain d (x ++ y) := by rw [plain_append, hx, hy]; rfl
    refine ⟨asciiSlice_of_ascii (ascii_of_plain hd hx), asciiSlice_of_ascii (ascii_of_plain hd hy),
      ?_⟩
    rw [← asciiText_append]
    exact asciiSlice_of_ascii (ascii_of_plain hd hxy)
  cases d with
  | url =>
    obtain ⟨h₁, h₂, h₃⟩ := hslices rfl
    simp [stepText, Parser.onURL, h₁, h₂, h₃, Parser.extend_eq, bind, Except.bind, pure,
      Except.pure]
  | headerField =>
    obtain ⟨h₁, h₂, h₃⟩ := hslices rfl
    obtain ⟨i, field, value⟩ := p
    rcases value with _ | v
    · simp [stepText, Parser.onHeaderField, h₁, h₂, h₃, Parser.extend_eq, toLowerCase_append, bind,
        Except.bind, pure, Except.pure]
    · rcases field with _ | f
      · simp [stepText, Parser.onHeaderField, h₁, h₃, bind, Except.bind, throw, throwThe,
          MonadExceptOf.throw]
      · rcases ha : i.addHeaderLine f v with e | i' <;>
          simp [stepText, Parser.onHeaderField, Parser.addPending, ha, h₁, h₂, h₃,
            Parser.extend_eq, toLowerCase_append, bind, Except.bind, pure, Except.pure]
  | headerValue =>
    obtain ⟨h₁, h₂, h₃⟩ := hslices rfl
    simp [stepText, Parser.onHeaderValue, h₁, h₂, h₃, Parser.extend_eq, bind, Except.bind, pure,
      Except.pure]
  | path | queryString | fragment => rfl

/-- No function gets the parts of the URL. -/
theorem data_part {d : Kind} (hd : d.IsPart) (x : Bytes) (u : Option (Having Q)) :
    ((watcher Q lower onIncoming).data d x u).1 = u := by
  cases u with
  | none => rfl
  | some s =>
    have hplain : Plain d x := by simp [Plain, hd]
    have hstep : stepText lower d x s.1.parser = .ok s.1.parser := by cases d <;> first
      | rfl
      | cases hd
    rw [data_watcher, if_pos hplain, hstep]
    rfl

/-- **Taken with care, the callbacks are lawful.** -/
theorem lawful_watcher : (watcher Q lower onIncoming).Lawful Kind.Beside where
  quiet _ _ _ := rfl
  data_append d x y u _ := by
    cases u with
    | none => rfl
    | some s =>
      rw [data_watcher, data_watcher, plain_append]
      cases hx : Plain d x
      · rfl
      rcases h₁ : stepText lower d x s.1.parser with e | p
      · cases hy : Plain d y
        · simp [Except.toOption, watcher, Callbacks.watched]
        · simp [stepText_append d hx hy, h₁, Except.toOption, watcher, Callbacks.watched, bind,
            Except.bind]
      · have hp : (Except.ok p : Except JsError Parser).toOption.map s.withParser =
          some (s.withParser p) := rfl
        simp only [if_true, hp, Bool.true_and]
        rw [data_watcher]
        cases hy : Plain d y
        · rfl
        · simp only [if_true]
          rw [stepText_append d hx hy, h₁]
          rfl
  data_comm x y u h := by
    rcases h with ⟨-, hd⟩ | ⟨-, hd⟩
    · rw [data_part hd, data_part hd]
    · rw [data_part hd, data_part hd]
  body_append {x} y u _ := by
    cases u with
    | none => rfl
    | some s =>
      rw [body_watcher, body_watcher, body_watcher, List.append_assoc]

theorem lawful_listener : (listener Q strict lower onIncoming i).settings.Lawful Kind.Beside :=
  Callbacks.lawful_careful lawful_watcher _

/-- What the listener of a message takes, the watcher takes. -/
theorem follows_listener :
    (listener Q strict lower onIncoming i).settings.Follows (watcher Q lower onIncoming) some :=
  HttpParser.follows_careful _ _ _

end

end SpiderNode.Http
