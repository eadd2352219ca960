import SpiderNode.HttpParser.Messages
import SpiderNode.Machine.Following

/-!
# The object around the parser

`src/node_http_parser.cc` makes an object of the parser. The callbacks are functions that are stored
in the object, if there are any; a function may throw, and is then taken to refuse. `execute` reads
a part of a buffer and says how much of it, or that there was an error.

The functions of a connection need not be lawful. `Callbacks.watched` gives up where they throw and
where they are handed a text without a given property. If it is lawful and does not give up,
`execute_of_feed` is that the functions are called with what it is told, and that `execute` accepts
all of the input. `Callbacks.careful` also gives up where they return something unexpected, so that
its answers are known.
-/

namespace SpiderNode.HttpParser

open Scanner (Event Outcome)

/-! ## Functions in the object -/

/-- `method_to_str` -/
def methodToStr : Method → String
  | .delete => "DELETE"
  | .get => "GET"
  | .head => "HEAD"
  | .post => "POST"
  | .put => "PUT"
  | .connect => "CONNECT"
  | .options => "OPTIONS"
  | .trace => "TRACE"
  | .copy => "COPY"
  | .lock => "LOCK"
  | .mkcol => "MKCOL"
  | .move => "MOVE"
  | .propfind => "PROPFIND"
  | .proppatch => "PROPPATCH"
  | .unlock => "UNLOCK"
  | .report => "REPORT"
  | .mkactivity => "MKACTIVITY"
  | .checkout => "CHECKOUT"
  | .merge => "MERGE"
  | .msearch => "M-SEARCH"
  | .notify => "NOTIFY"
  | .subscribe => "SUBSCRIBE"
  | .unsubscribe => "UNSUBSCRIBE"

/-- `message_info` -/
structure Info where
  method : Option String
  statusCode : Option ℕ
  versionMajor : ℕ
  versionMinor : ℕ
  shouldKeepAlive : Bool
  upgrade : Bool
  deriving DecidableEq, Repr

def Message.info (m : Message) : Info where
  method := if m.type = .request then some (methodToStr m.method) else none
  statusCode := if m.type = .response then some m.statusCode else none
  versionMajor := m.httpMajor
  versionMinor := m.httpMinor
  shouldKeepAlive := m.shouldKeepAlive
  upgrade := m.upgrade

/-- The functions, on a state of their own. `onHeadersComplete` says whether it returns `true`. -/
structure Callbacks (ε σ : Type) where
  onMessageBegin : Option (EStateM ε σ Unit)
  onText : Kind → Option (List UInt8 → EStateM ε σ Unit)
  onHeadersComplete : Option (Info → EStateM ε σ Bool)
  onBody : Option (List UInt8 → EStateM ε σ Unit)
  onMessageComplete : Option (EStateM ε σ Unit)

/-- The state of the functions, and `got_exception_`. -/
structure Bound (σ : Type) where
  user : σ
  gotException : Bool

/-- `DEFINE_HTTP_CB` and `DEFINE_HTTP_DATA_CB` -/
def Bound.call {ε σ α : Type} (u : Bound σ) (value : α → ℤ) :
    Option (EStateM ε σ α) → Bound σ × ℤ
  | none => (u, 0)
  | some f =>
    match f u.user with
    | .ok a s => ({ u with user := s }, value a)
    | .error _ s => (⟨s, true⟩, -1)

variable {ε σ : Type}

/-- `settings` -/
def Callbacks.settings (cb : Callbacks ε σ) : Settings (Bound σ) where
  data d x u := u.call (fun _ ↦ 0) ((cb.onText d).map (· x))
  body x u := u.call (fun _ ↦ 0) (cb.onBody.map (· x))
  notify
    | .messageBegin _, u => u.call (fun _ ↦ 0) cb.onMessageBegin
    | .headersComplete m, u =>
      u.call (fun b ↦ if b then 1 else 0) (cb.onHeadersComplete.map (· m.info))
    | .messageComplete _, u => u.call (fun _ ↦ 0) cb.onMessageComplete

/-! ## Calls of the object -/

/-- How a call ends. -/
inductive Answer where
  | bytesParsed (n : ℕ)
  /-- The error that is returned. -/
  | parseError (bytesParsed : ℕ)
  /-- The exception of a function. -/
  | threw
  | invalid (message : String)
  deriving DecidableEq, Repr

inductive Execution (σ : Type) where
  | returned (parser : Parser) (user : σ) (answer : Answer)
  /-- The parser does not return. -/
  | aborted

/-- `Parser::Execute`, for a part of a buffer. -/
def Callbacks.execute (strict : Bool) (cb : Callbacks ε σ) (parser : Parser) (user : σ)
    (buffer : List UInt8) (off len : ℕ) : Execution σ :=
  if buffer.length ≤ off then .returned parser user (.invalid "Offset is out of bounds")
  else if buffer.length < off + len then
    .returned parser user (.invalid "Length is extends beyond buffer")
  else
    match HttpParser.execute strict cb.settings parser ((buffer.drop off).take len)
      ⟨user, false⟩ with
    | .returned parser n u =>
      .returned parser u.user
        (if u.gotException then .threw
        else if ¬parser.upgrade ∧ n ≠ len then .parseError n
        else .bytesParsed n)
    | .assertion _ | .overread _ => .aborted

/-- `Parser::Finish` -/
def Callbacks.finish (cb : Callbacks ε σ) (parser : Parser) (user : σ) : Execution σ :=
  match HttpParser.finish cb.settings parser ⟨user, false⟩ with
  | .returned parser n u =>
    .returned parser u.user
      (if u.gotException then .threw else if n ≠ 0 then .parseError 0 else .bytesParsed 0)
  | .assertion _ | .overread _ => .aborted

/-! ## Functions that are taken with care -/

variable {P : σ → Prop} [DecidablePred P]

/-- The state behind a call that returns what is expected. -/
def taken (P : σ → Prop) [DecidablePred P] (r : Bound σ × ℤ) (a : ℤ) : Option {s // P s} :=
  if h : P r.1.user ∧ r.1.gotException = false ∧ r.2 = a then some ⟨r.1.user, h.1⟩ else none

/-- The functions, up to where one throws, leaves a state without `P` or is handed a text without
`p`. -/
def Callbacks.watched (cb : Callbacks ε σ) (p : Kind → List UInt8 → Bool) (P : σ → Prop)
    [DecidablePred P] : Settings (Option {s // P s}) where
  data d x u :=
    (u.bind fun s ↦ if p d x then taken P (cb.settings.data d x ⟨s.1, false⟩) 0 else none, 0)
  body x u := (u.bind fun s ↦ taken P (cb.settings.body x ⟨s.1, false⟩) 0, 0)
  notify
    | _, none => (none, 0)
    | e, some s =>
      let r := cb.settings.notify e ⟨s.1, false⟩
      (taken P r r.2, r.2)

/-- The functions in the same way, and up to where one does not return `answer`. -/
def Callbacks.careful (cb : Callbacks ε σ) (p : Kind → List UInt8 → Bool) (P : σ → Prop)
    [DecidablePred P] (answer : Notice → ℤ) : Settings (Option {s // P s}) :=
  { cb.watched p P with
    notify := fun e u ↦
      (u.bind fun s ↦ taken P (cb.settings.notify e ⟨s.1, false⟩) (answer e), answer e) }

theorem eq_of_taken {r : Bound σ × ℤ} {a : ℤ} {s : {s // P s}} (h : taken P r a = some s) :
    r = (⟨s.1, false⟩, a) := by
  unfold taken at h
  split_ifs at h with hr
  obtain rfl := Option.some.inj h
  change r = (⟨r.1.user, false⟩, a)
  rw [← hr.2.1, ← hr.2.2]

theorem taken_of_eq {r : Bound σ × ℤ} {a : ℤ} {s : σ} (hs : P s) (h : r = (⟨s, false⟩, a)) :
    taken P r a = some ⟨s, hs⟩ := by
  rw [h]
  exact dif_pos ⟨hs, rfl, rfl⟩

theorem follows_watched (cb : Callbacks ε σ) (p : Kind → List UInt8 → Bool) :
    (cb.watched p P).Follows cb.settings fun s ↦ ⟨s.1, false⟩ where
  data_none _ _ := rfl
  body_none _ := rfl
  notify_none _ := rfl
  data d x t t' h := by
    replace h : (if p d x then taken P (cb.settings.data d x ⟨t.1, false⟩) 0 else none) =
      some t' := h
    split_ifs at h
    exact eq_of_taken h
  body x t t' h := congrArg Prod.fst (eq_of_taken (h : taken P _ _ = some t'))
  notify e t t' h := eq_of_taken (h : taken P _ _ = some t')

theorem follows_careful (cb : Callbacks ε σ) (p : Kind → List UInt8 → Bool) (answer : Notice → ℤ) :
    (cb.careful p P answer).Follows (cb.watched p P) some where
  data_none _ _ := rfl
  body_none _ := rfl
  notify_none _ := rfl
  data _ _ _ _ h := Prod.ext h rfl
  body _ _ _ h := h
  notify e t t' h := by
    have hr := eq_of_taken (h : taken P _ _ = some t')
    have htaken : taken P (cb.settings.notify e ⟨t.1, false⟩)
        (cb.settings.notify e ⟨t.1, false⟩).2 = some t' := taken_of_eq t'.2 (by rw [hr])
    have hanswer : (cb.settings.notify e ⟨t.1, false⟩).2 = answer e := by rw [hr]
    exact Prod.ext htaken hanswer

/-- With a weaker property, as much is taken. -/
theorem follows_mono {P' : σ → Prop} [DecidablePred P'] (hP : ∀ s, P s → P' s)
    (cb : Callbacks ε σ) (p : Kind → List UInt8 → Bool) :
    (cb.watched p P).Follows (cb.watched p P') fun s ↦ some ⟨s.1, hP _ s.2⟩ where
  data_none _ _ := rfl
  body_none _ := rfl
  notify_none _ := rfl
  data d x t t' h := by
    replace h : (if p d x then taken P (cb.settings.data d x ⟨t.1, false⟩) 0 else none) =
      some t' := h
    split_ifs at h with hp
    have htaken : (if p d x then taken P' (cb.settings.data d x ⟨t.1, false⟩) 0 else none) =
        some ⟨t'.1, hP _ t'.2⟩ := by
      rw [if_pos hp]
      exact taken_of_eq (hP _ t'.2) (eq_of_taken h)
    exact Prod.ext htaken rfl
  body x t t' h := taken_of_eq (hP _ t'.2) (eq_of_taken (h : taken P _ _ = some t'))
  notify e t t' h :=
    Prod.ext (taken_of_eq (hP _ t'.2) (eq_of_taken (h : taken P _ _ = some t'))) rfl

theorem Callbacks.lawful_careful {cb : Callbacks ε σ} {p : Kind → List UInt8 → Bool}
    (h : (cb.watched p P).Lawful Kind.Beside) (answer : Notice → ℤ) :
    (cb.careful p P answer).Lawful Kind.Beside :=
  ⟨h.quiet, h.data_append, h.data_comm, h.body_append⟩

/-! ## Input that is taken to its end -/

/-- **A call** with the first of the chunks. -/
theorem execute_of_feed {cb : Callbacks ε σ} {p : Kind → List UInt8 → Bool} {strict : Bool}
    {x : List UInt8} (hx : x ≠ []) {xs : List (List UInt8)} {parser c : Parser}
    (hp : parser.Sound) {s s' : {s // P s}}
    (h : (scanner strict).feed (cb.watched p P) (x :: xs) parser (some s) = .ok c (some s')) :
    ∃ parser' s₁, parser'.Sound ∧
      HttpParser.execute strict cb.settings parser x ⟨s.1, false⟩ =
        .returned parser' x.length ⟨s₁.1, false⟩ ∧
      (scanner strict).feed (cb.watched p P) xs parser' (some s₁) = .ok c (some s') := by
  have hfollows := follows_watched (P := P) cb p
  obtain ⟨c₁, s₁, hexec, hrest⟩ := Scanner.exists_execute_of_feed hfollows h
  have hends := Scanner.execute_ends (M := scanner strict) (k := cb.watched p P)
    (fun c b n hc ↦ keeps_step strict hc b n) (fun c _ ↦ (keeps_refused : Keeps (.stop .refused c)))
    x hp (some s)
  rw [hexec] at hends
  have hk := Scanner.execute_of_follows (o := .ok c₁ s₁) hfollows hexec
  refine ⟨c₁, s₁, hends, ?_, hrest⟩
  rw [HttpParser.execute, if_neg hx, hk]
  simp only [Outcome.mapUser, Parser.Sound.save hends]

end SpiderNode.HttpParser
