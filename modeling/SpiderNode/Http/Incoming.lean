import SpiderNode.Http.Outgoing
import Mathlib.Data.List.Forall2

/-!
# The head of an incoming message

The parser calls back with slices of the input: any number of slices of the URL, and for each header
slices of its name followed by slices of its value. Nothing says where a line ends; the callbacks of
`lib/http.js` infer it from the alternation, with the name and the value that are not complete yet
in `field` and `value`.

Each slice is turned into a string on its own. `toString('ascii')` makes the string that its bytes
are in UTF-8, and throws if they are not UTF-8. `parse_eq_expected_iff` is what follows: the headers
do not depend on where the input is cut exactly if the head consists of ASCII bytes.

What the parser reads besides the URL and the header lines is left out, and so is what the message
is passed on to.
-/

namespace SpiderNode.Http

open Net (JsError)

/-! ## Header lines -/

/-- An object of headers: its own keys with their values. -/
abbrev Headers := List (JSString × HeaderValue)

/-- `dest[field]`, for an own key. -/
def Headers.find (dest : Headers) (field : JSString) : Option HeaderValue :=
  (List.find? (·.1 = field) dest).map Prod.snd

/-- Headers of which several lines make an array. -/
def arrayHeaders : List JSString := [js "set-cookie"]

/-- Headers of which several lines are separated by commas. -/
def commaHeaders : List JSString :=
  [js "accept", js "accept-charset", js "accept-encoding", js "accept-language", js "connection",
    js "cookie", js "pragma"]

/-- `array.toString()` -/
def joinComma : List JSString → JSString
  | [] => []
  | [v] => v
  | v :: vs => v ++ js "," ++ joinComma vs

/-- `old + ', ' + value` -/
def HeaderValue.addComma (old : HeaderValue) (value : JSString) : HeaderValue :=
  match old with
  | .one v => .one (v ++ js ", " ++ value)
  | .many vs => .one (joinComma vs ++ js ", " ++ value)

/-- `old.push(value)`: a string has no such method. -/
def HeaderValue.push (old : HeaderValue) (value : JSString) : Except JsError HeaderValue :=
  match old with
  | .one _ => .error .typeError
  | .many vs => .ok (.many (vs ++ [value]))

/-- `_addHeaderLine`, on the object it chooses. No name of `Object.prototype` is among those that
are treated specially. -/
def addLine (dest : Headers) (field value : JSString) : Except JsError Headers :=
  if field ∈ arrayHeaders then
    match dest.find field with
    | some old => (old.push value).map fun v ↦ assign dest field v
    | none => .ok (assign dest field (.many [value]))
  else if field ∈ commaHeaders ∨ field.take 2 = js "x-" then
    match dest.find field with
    | some old => .ok (assign dest field (old.addComma value))
    | none => .ok (assign dest field (.one value))
  else if (dest.find field).isSome ∨ field ∈ objectPrototype then .ok dest
  else .ok (assign dest field (.one value))

/-! ## The callbacks -/

structure IncomingMessage where
  url : JSString
  headers : Headers
  trailers : Headers
  complete : Bool
  deriving DecidableEq, Repr

def IncomingMessage.addHeaderLine (incoming : IncomingMessage) (field value : JSString) :
    Except JsError IncomingMessage :=
  if incoming.complete then
    (addLine incoming.trailers field value).map fun trailers ↦
      { incoming with trailers := trailers }
  else (addLine incoming.headers field value).map fun headers ↦ { incoming with headers := headers }

structure Parser where
  incoming : IncomingMessage
  field : Option JSString
  value : Option JSString
  deriving DecidableEq, Repr

/-- A call of the parser. -/
inductive Callback where
  | url (b : Bytes)
  | headerField (b : Bytes)
  | headerValue (b : Bytes)
  deriving DecidableEq, Repr

def Callback.bytes : Callback → Bytes
  | url b | headerField b | headerValue b => b

/-- `toString('ascii')`. Which of three errors the engine reports for bytes that are not UTF-8 is
not told apart. -/
def asciiSlice (b : Bytes) : Except JsError JSString :=
  match utf8Decode b with
  | some s => .ok s
  | none => .error .typeError

/-- `toLowerCase`, unit by unit, given what it does outside ASCII. -/
def toLowerCase (lower : UInt16 → UInt16) (s : JSString) : JSString :=
  s.map fun u ↦ if u < 0x80 then foldCase u else lower u

namespace Parser

def onMessageBegin : Parser := ⟨⟨[], [], [], false⟩, none, none⟩

/-- `old += slice` or `old = slice`, by whether `old` is truthy. -/
def extend (old : Option JSString) (slice : JSString) : JSString :=
  match old with
  | some (u :: s) => (u :: s) ++ slice
  | _ => slice

def onURL (b : Bytes) (p : Parser) : Except JsError Parser := do
  let slice ← asciiSlice b
  return { p with incoming := { p.incoming with url := extend (some p.incoming.url) slice } }

/-- The line that is complete goes to the message. -/
def addPending (p : Parser) (field value : JSString) : Except JsError Parser := do
  let incoming ← p.incoming.addHeaderLine field value
  return ⟨incoming, none, none⟩

def onHeaderField (lower : UInt16 → UInt16) (b : Bytes) (p : Parser) : Except JsError Parser := do
  let slice ← asciiSlice b
  let slice := toLowerCase lower slice
  let p ← match p.value, p.field with
    | some value, some field => p.addPending field value
    | some _, none => throw .typeError
    | none, _ => pure p
  return { p with field := some (extend p.field slice) }

def onHeaderValue (b : Bytes) (p : Parser) : Except JsError Parser := do
  let slice ← asciiSlice b
  return { p with value := some (extend p.value slice) }

def onHeadersComplete (p : Parser) : Except JsError Parser :=
  match p.field, p.value with
  | some (u :: s), some value => p.addPending (u :: s) value
  | _, _ => .ok p

def step (lower : UInt16 → UInt16) (p : Parser) : Callback → Except JsError Parser
  | .url b => p.onURL b
  | .headerField b => p.onHeaderField lower b
  | .headerValue b => p.onHeaderValue b

/-- The callbacks of one head. -/
def parse (lower : UInt16 → UInt16) (callbacks : List Callback) : Except JsError IncomingMessage := do
  let p ← callbacks.foldlM (step lower) onMessageBegin
  let p ← p.onHeadersComplete
  return p.incoming

end Parser

/-! ## Heads and how they are cut -/

/-- A header of a head; a name has at least one byte. -/
structure HeaderField where
  name : Bytes
  value : Bytes
  name_ne_nil : name ≠ []

/-- What is to be parsed. -/
structure Head where
  url : Bytes
  fields : List HeaderField

/-- Consecutive slices, none of them empty. -/
def Cut (b : Bytes) (slices : List Bytes) : Prop := slices.flatten = b ∧ ∀ x ∈ slices, x ≠ []

/-- At least one slice, and any of them may be empty. -/
def ValueCut (b : Bytes) (slices : List Bytes) : Prop := slices.flatten = b ∧ slices ≠ []

/-- The callbacks for one header. -/
def headerCallbacks (slices : List Bytes × List Bytes) : List Callback :=
  slices.1.map .headerField ++ slices.2.map .headerValue

/-- A way of delivering a head. -/
def Delivers (h : Head) (callbacks : List Callback) : Prop :=
  ∃ url fields, Cut h.url url ∧
    List.Forall₂ (fun f s ↦ Cut f.name s.1 ∧ ValueCut f.value s.2) h.fields fields ∧
    callbacks = url.map .url ++ fields.flatMap headerCallbacks

/-- The lines of a head, with their names in lower case. -/
def Head.lines (lower : UInt16 → UInt16) (h : Head) : Except JsError (List (JSString × JSString)) :=
  h.fields.mapM fun f ↦ do
    let name ← asciiSlice f.name
    let value ← asciiSlice f.value
    return (toLowerCase lower name, value)

/-- What a head stands for: its URL and its lines, one after the other. -/
def Head.expected (lower : UInt16 → UInt16) (h : Head) : Except JsError (JSString × Headers) := do
  let url ← asciiSlice h.url
  let lines ← h.lines lower
  let headers ← lines.foldlM (fun dest l ↦ addLine dest l.1 l.2) []
  return (url, headers)

/-- Every byte of the URL, of a name or of a value is ASCII. -/
def Head.Ascii (h : Head) : Prop :=
  (∀ b ∈ h.url, b.toNat < 0x80) ∧
    ∀ f ∈ h.fields, (∀ b ∈ f.name, b.toNat < 0x80) ∧ ∀ b ∈ f.value, b.toNat < 0x80

/-! ## ASCII slices -/

theorem asciiSlice_of_ascii {b : Bytes} (h : ∀ x ∈ b, x.toNat < 0x80) :
    asciiSlice b = .ok (asciiText b) := by
  rw [asciiSlice, utf8Decode_of_ascii h]

theorem lt_of_asciiSlice_singleton {a : UInt8} {s : JSString} (h : asciiSlice [a] = .ok s) :
    a.toNat < 0x80 := by
  by_contra ha
  rw [asciiSlice, utf8Decode_singleton ha] at h
  simp at h

theorem ne_nil_of_asciiSlice {b : Bytes} {t : JSString} (hb : b ≠ []) (h : asciiSlice b = .ok t) :
    t ≠ [] := by
  rw [asciiSlice] at h
  rcases hd : utf8Decode b with _ | t'
  · simp [hd] at h
  · rw [hd] at h
    cases h
    exact utf8Decode_ne_nil hb hd

theorem asciiText_append (a b : Bytes) : asciiText (a ++ b) = asciiText a ++ asciiText b := by
  rw [asciiText, List.map_append, ← asciiText, ← asciiText]

theorem toLowerCase_append (lower : UInt16 → UInt16) (a b : JSString) :
    toLowerCase lower (a ++ b) = toLowerCase lower a ++ toLowerCase lower b := by
  rw [toLowerCase, List.map_append, ← toLowerCase, ← toLowerCase]

/-! ## What the callbacks do, whatever the cut -/

/-- The strings that slices are turned into, one by one. -/
def Texts (slices : List Bytes) (texts : List JSString) : Prop :=
  List.Forall₂ (fun b t ↦ asciiSlice b = .ok t) slices texts

theorem texts_of_ascii {slices : List Bytes} (h : ∀ x ∈ slices.flatten, x.toNat < 0x80) :
    Texts slices (slices.map asciiText) := by
  rw [Texts, List.forall₂_map_right_iff]
  refine List.forall₂_same.mpr fun b hb ↦ asciiSlice_of_ascii fun x hx ↦ ?_
  exact h x (List.mem_flatten.mpr ⟨b, hb, hx⟩)

theorem flatten_map_asciiText (slices : List Bytes) :
    (slices.map asciiText).flatten = asciiText slices.flatten := by
  induction slices with
  | nil => rfl
  | cons b slices ih =>
    rw [List.map_cons, List.flatten_cons, List.flatten_cons, asciiText_append, ih]

/-- The slices of a line, and the line that becomes of them. -/
structure LineOf (lower : UInt16 → UInt16) (s : List Bytes × List Bytes)
    (l : JSString × JSString) : Prop where
  texts : ∃ names values, Texts s.1 names ∧ Texts s.2 values ∧
    l = (toLowerCase lower names.flatten, values.flatten)
  named : s.1 ≠ []
  valued : s.2 ≠ []
  name_ne_nil : l.1 ≠ []

namespace Parser

variable {lower : UInt16 → UInt16} {p : Parser} {b : Bytes}

theorem extend_eq (old : Option JSString) (slice : JSString) :
    extend old slice = old.getD [] ++ slice := by
  rcases old with _ | _ | ⟨u, s⟩ <;> rfl

/-- The URL is the text of its slices. -/
theorem foldlM_url {slices : List Bytes} {texts : List JSString} (h : Texts slices texts)
    (p : Parser) :
    (slices.map Callback.url).foldlM (step lower) p =
      .ok { p with incoming.url := p.incoming.url ++ texts.flatten } := by
  induction h generalizing p with
  | nil => simp [pure, Except.pure]
  | @cons b t slices texts hb _ ih =>
    have hs : step lower p (.url b) =
        .ok { p with incoming.url := p.incoming.url ++ t } := by
      rw [step, onURL, hb]
      simp [extend_eq, bind, Except.bind, pure, Except.pure]
    rw [List.map_cons, List.foldlM_cons, hs]
    simp only [bind, Except.bind]
    rw [ih, List.flatten_cons]
    simp

/-- A value is the text of its slices. -/
theorem foldlM_value {slices : List Bytes} {texts : List JSString} (h : Texts slices texts)
    (hne : slices ≠ []) (p : Parser) :
    (slices.map Callback.headerValue).foldlM (step lower) p =
      .ok { p with value := some (p.value.getD [] ++ texts.flatten) } := by
  induction h generalizing p with
  | nil => exact absurd rfl hne
  | @cons b t slices texts hb hrest ih =>
    have hs : step lower p (.headerValue b) =
        .ok { p with value := some (p.value.getD [] ++ t) } := by
      rw [step, onHeaderValue, hb]
      simp [extend_eq, bind, Except.bind, pure, Except.pure]
    rw [List.map_cons, List.foldlM_cons, hs]
    simp only [bind, Except.bind]
    rcases eq_or_ne slices [] with rfl | hne'
    · cases hrest
      simp [pure, Except.pure]
    · rw [ih hne', List.flatten_cons]
      simp

/-- A name is the text of its slices, once the line before is out of the way. -/
theorem foldlM_field {slices : List Bytes} {texts : List JSString} (h : Texts slices texts)
    (hne : slices ≠ []) (i : IncomingMessage) (field : Option JSString) :
    (slices.map Callback.headerField).foldlM (step lower) ⟨i, field, none⟩ =
      .ok ⟨i, some (field.getD [] ++ toLowerCase lower texts.flatten), none⟩ := by
  induction h generalizing field with
  | nil => exact absurd rfl hne
  | @cons b t slices texts hb hrest ih =>
    have hs : step lower ⟨i, field, none⟩ (.headerField b) =
        .ok ⟨i, some (field.getD [] ++ toLowerCase lower t), none⟩ := by
      rw [step, onHeaderField, hb]
      simp [extend_eq, bind, Except.bind, pure, Except.pure]
    rw [List.map_cons, List.foldlM_cons, hs]
    simp only [bind, Except.bind]
    rcases eq_or_ne slices [] with rfl | hne'
    · cases hrest
      simp [pure, Except.pure]
    · rw [ih hne', List.flatten_cons, toLowerCase_append]
      simp

/-- Between two headers: nothing is pending, or a whole line is. -/
inductive Between : Parser → Prop where
  | start (i : IncomingMessage) : Between ⟨i, none, none⟩
  | line (i : IncomingMessage) (u : UInt16) (s value : JSString) :
    Between ⟨i, some (u :: s), some value⟩

/-- The first slice of a name completes the line that is pending. -/
theorem step_field_eq (hp : Between p) {t : JSString} (hb : asciiSlice b = .ok t) :
    step lower p (.headerField b) =
      p.onHeadersComplete >>= fun q ↦ step lower ⟨q.incoming, none, none⟩ (.headerField b) := by
  cases hp with
  | start i => rfl
  | line i u s value =>
    have ha : ∀ p : Parser, p.addPending (u :: s) value =
        p.incoming.addHeaderLine (u :: s) value >>= fun i' ↦ .ok ⟨i', none, none⟩ := fun _ ↦ rfl
    simp only [step, onHeaderField, hb, onHeadersComplete, ha]
    cases i.addHeaderLine (u :: s) value <;> rfl

/-- **One header.** The line before it is added and its own line becomes pending. -/
theorem foldlM_header (hp : Between p) {s : List Bytes × List Bytes} {l : JSString × JSString}
    (hl : LineOf lower s l) :
    (headerCallbacks s).foldlM (step lower) p =
      p.onHeadersComplete >>= fun q ↦ .ok ⟨q.incoming, some l.1, some l.2⟩ := by
  obtain ⟨slices, values⟩ := s
  obtain ⟨⟨texts, texts', hn, hv, rfl⟩, hne, hne', -⟩ := hl
  have hrest : ∀ i, (headerCallbacks (slices, values)).foldlM (step lower) ⟨i, none, none⟩ =
      .ok ⟨i, some (toLowerCase lower texts.flatten), some texts'.flatten⟩ := by
    intro i
    rw [headerCallbacks, List.foldlM_append, foldlM_field hn hne]
    simp only [bind, Except.bind]
    rw [foldlM_value hv hne']
    simp
  cases hn with
  | nil => exact absurd rfl hne
  | @cons b t slices texts hb hn =>
    have hcut : headerCallbacks (b :: slices, values) =
        .headerField b :: headerCallbacks (slices, values) := rfl
    rw [hcut, List.foldlM_cons, step_field_eq hp hb, bind_assoc]
    congr 1
    funext q
    rw [← hrest, hcut, List.foldlM_cons]

theorem between_line {l : JSString × JSString} (h : l.1 ≠ []) (i : IncomingMessage) :
    Between ⟨i, some l.1, some l.2⟩ := by
  obtain ⟨u, s, hs⟩ := List.exists_cons_of_ne_nil h
  rw [hs]
  exact .line _ _ _ _

/-- A line that is pending is added when the headers are complete. -/
theorem onHeadersComplete_line {l : JSString × JSString} (h : l.1 ≠ []) (i : IncomingMessage) :
    onHeadersComplete ⟨i, some l.1, some l.2⟩ =
      i.addHeaderLine l.1 l.2 >>= fun i' ↦ .ok ⟨i', none, none⟩ := by
  obtain ⟨u, s, hs⟩ := List.exists_cons_of_ne_nil h
  rw [hs]
  rfl

/-- **Several headers.** All lines but the last one are added, and that becomes pending. -/
theorem foldlM_pending {slices : List (List Bytes × List Bytes)}
    {lines : List (JSString × JSString)}
    (hc : List.Forall₂ (LineOf lower) slices lines) {s : List Bytes × List Bytes}
    {l : JSString × JSString} (hl : LineOf lower s l) (hp : Between p) :
    ((slices ++ [s]).flatMap headerCallbacks).foldlM (step lower) p =
      p.onHeadersComplete >>= fun q ↦
        lines.foldlM (fun i l ↦ IncomingMessage.addHeaderLine i l.1 l.2) q.incoming >>= fun i ↦
          .ok ⟨i, some l.1, some l.2⟩ := by
  induction hc generalizing p with
  | nil =>
    rw [List.nil_append, List.flatMap_cons, List.flatMap_nil, List.append_nil, foldlM_header hp hl]
    rfl
  | @cons s' l' slices lines hsl _ ih =>
    rw [List.cons_append, List.flatMap_cons, List.foldlM_append, foldlM_header hp hsl, bind_assoc]
    congr 1
    funext q
    refine (ih (between_line hsl.name_ne_nil q.incoming)).trans ?_
    rw [onHeadersComplete_line hsl.name_ne_nil, List.foldlM_cons, bind_assoc, bind_assoc]
    rfl

theorem exists_concat_of_forall₂ {slices : List (List Bytes × List Bytes)}
    {lines : List (JSString × JSString)} {l : JSString × JSString}
    (h : List.Forall₂ (LineOf lower) slices (lines ++ [l])) :
    ∃ slices' s, slices = slices' ++ [s] ∧ List.Forall₂ (LineOf lower) slices' lines ∧
      LineOf lower s l := by
  have htake := List.forall₂_take_append slices lines [l] h
  have hdrop := List.forall₂_drop_append slices lines [l] h
  rw [List.forall₂_cons_right_iff] at hdrop
  obtain ⟨s, rest, hl, hrest, hs⟩ := hdrop
  rw [List.forall₂_nil_right_iff] at hrest
  refine ⟨slices.take lines.length, s, ?_, htake, hl⟩
  rw [← hrest, ← hs, List.take_append_drop]

/-- **All headers.** Once the last line is added, what was pending and all lines have been added, in
order. -/
theorem foldlM_headers {slices : List (List Bytes × List Bytes)}
    {lines : List (JSString × JSString)}
    (hc : List.Forall₂ (LineOf lower) slices lines) (i : IncomingMessage) :
    ((slices.flatMap headerCallbacks).foldlM (step lower) ⟨i, none, none⟩ >>= onHeadersComplete) =
      (lines.foldlM (fun i l ↦ IncomingMessage.addHeaderLine i l.1 l.2) i >>= fun i' ↦
        .ok ⟨i', none, none⟩) := by
  rcases List.eq_nil_or_concat' lines with rfl | ⟨lines, l, rfl⟩
  · cases hc
    rfl
  · obtain ⟨slices, s, rfl, hc, hl⟩ := exists_concat_of_forall₂ hc
    rw [foldlM_pending hc hl (.start i), List.foldlM_append]
    show (lines.foldlM (fun i l ↦ IncomingMessage.addHeaderLine i l.1 l.2) i >>= fun i' ↦
      .ok ⟨i', some l.1, some l.2⟩) >>= onHeadersComplete = _
    rw [bind_assoc, bind_assoc]
    congr 1
    funext i'
    show onHeadersComplete ⟨i', some l.1, some l.2⟩ = _
    rw [onHeadersComplete_line hl.name_ne_nil]
    cases hadd : i'.addHeaderLine l.1 l.2 <;> simp [List.foldlM, hadd, bind, Except.bind, pure,
      Except.pure]

end Parser

/-! ## Lines never fail -/

theorem find_cons (x : JSString × HeaderValue) (dest : Headers) (field : JSString) :
    Headers.find (x :: dest) field = if x.1 = field then some x.2 else dest.find field := by
  rw [Headers.find, List.find?_cons]
  split_ifs with h <;> simp [h, Headers.find]

theorem find_append (dest dest' : Headers) (field : JSString) :
    Headers.find (dest ++ dest') field = (dest.find field).or (dest'.find field) := by
  rw [Headers.find, List.find?_append, Headers.find, Headers.find]
  cases List.find? (fun x : JSString × HeaderValue ↦ x.1 = field) dest <;> rfl

theorem find_eq_none {dest : Headers} {key : JSString} (h : dest.any (·.1 = key) = false) :
    dest.find key = none := by
  rw [Headers.find, Option.map_eq_none_iff, List.find?_eq_none]
  intro x hx
  have := List.any_eq_false.mp h x hx
  simpa using this

theorem find_map_self {dest : Headers} {key : JSString} (h : dest.any (·.1 = key) = true)
    (v : HeaderValue) :
    Headers.find (dest.map fun f ↦ if f.1 = key then (key, v) else f) key = some v := by
  induction dest with
  | nil => simp at h
  | cons x dest ih =>
    rw [List.map_cons, find_cons]
    rcases eq_or_ne x.1 key with hx | hx
    · simp [hx]
    · rw [if_neg hx, if_neg hx, ih (by simpa [hx] using h)]

theorem find_map_of_ne {key field : JSString} (h : field ≠ key) (dest : Headers) (v : HeaderValue) :
    Headers.find (dest.map fun f ↦ if f.1 = key then (key, v) else f) field = dest.find field := by
  induction dest with
  | nil => rfl
  | cons x dest ih =>
    rw [List.map_cons, find_cons, find_cons, ih]
    rcases eq_or_ne x.1 key with hx | hx
    · rw [if_pos hx, hx, if_neg h.symm, if_neg h.symm]
    · rw [if_neg hx]

theorem find_assign (dest : Headers) (key field : JSString) (v : HeaderValue) :
    Headers.find (assign dest key v) field = if field = key then some v else dest.find field := by
  rw [assign]
  cases h : dest.any (·.1 = key) with
  | true =>
    rcases eq_or_ne field key with rfl | hf
    · simp [find_map_self h]
    · simp [find_map_of_ne hf, hf]
  | false =>
    rw [if_neg (by simp), find_append, find_cons]
    rcases eq_or_ne field key with rfl | hf
    · simp [find_eq_none h]
    · simp [hf, hf.symm, Headers.find]

/-- Only an array is stored under the name of an array. -/
def ArraysOnly (dest : Headers) : Prop :=
  ∀ field ∈ arrayHeaders, ∀ v, dest.find field = some v → ∃ vs, v = .many vs

theorem ArraysOnly.assign {dest : Headers} (h : ArraysOnly dest) {field : JSString}
    {v : HeaderValue} (hv : field ∈ arrayHeaders → ∃ vs, v = .many vs) :
    ArraysOnly (assign dest field v) := by
  intro key hk w hw
  rw [find_assign] at hw
  split_ifs at hw with he
  · obtain rfl : v = w := by simpa using hw
    exact hv (he ▸ hk)
  · exact h key hk w hw

theorem addLine_ok {dest : Headers} (h : ArraysOnly dest) (field value : JSString) :
    ∃ dest', addLine dest field value = .ok dest' ∧ ArraysOnly dest' := by
  rw [addLine]
  split_ifs with ha hc hd
  · cases hf : dest.find field with
    | none => exact ⟨_, rfl, h.assign fun _ ↦ ⟨_, rfl⟩⟩
    | some old =>
      obtain ⟨vs, rfl⟩ := h field ha old hf
      exact ⟨_, rfl, h.assign fun _ ↦ ⟨_, rfl⟩⟩
  · cases hf : dest.find field with
    | none => exact ⟨_, rfl, h.assign fun hfa ↦ absurd hfa ha⟩
    | some old => exact ⟨_, rfl, h.assign fun hfa ↦ absurd hfa ha⟩
  · exact ⟨dest, rfl, h⟩
  · exact ⟨_, rfl, h.assign fun hfa ↦ absurd hfa ha⟩

theorem foldlM_addLine_ok (lines : List (JSString × JSString)) {dest : Headers}
    (h : ArraysOnly dest) :
    ∃ dest', lines.foldlM (fun dest l ↦ addLine dest l.1 l.2) dest = .ok dest' := by
  induction lines generalizing dest with
  | nil => exact ⟨dest, rfl⟩
  | cons l lines ih =>
    obtain ⟨dest', hl, hd⟩ := addLine_ok h l.1 l.2
    obtain ⟨dest'', hr⟩ := ih hd
    refine ⟨dest'', ?_⟩
    rw [List.foldlM_cons, hl]
    exact hr

/-! ## Cutting -/

section

variable {lower : UInt16 → UInt16} {h : Head} {callbacks : List Callback}

/-- While a head is read, lines go to `headers`. -/
theorem foldlM_addHeaderLine (lines : List (JSString × JSString)) (url : JSString)
    (headers : Headers) :
    lines.foldlM (fun (i : IncomingMessage) l ↦ i.addHeaderLine l.1 l.2) ⟨url, headers, [], false⟩ =
      (lines.foldlM (fun dest l ↦ addLine dest l.1 l.2) headers).map
        fun headers ↦ ⟨url, headers, [], false⟩ := by
  induction lines generalizing headers with
  | nil => rfl
  | cons l lines ih =>
    rw [List.foldlM_cons, List.foldlM_cons, IncomingMessage.addHeaderLine]
    cases addLine headers l.1 l.2 with
    | error e => rfl
    | ok headers' => exact ih headers'

/-- The lines of an ASCII head. -/
def Head.text (lower : UInt16 → UInt16) (h : Head) : List (JSString × JSString) :=
  h.fields.map fun f ↦ (toLowerCase lower (asciiText f.name), asciiText f.value)

theorem Head.lines_of_ascii (ha : h.Ascii) : h.lines lower = .ok (h.text lower) := by
  obtain ⟨-, ha⟩ := ha
  rw [Head.lines, Head.text]
  generalize h.fields = fields at ha
  induction fields with
  | nil => rfl
  | cons f fields ih =>
    obtain ⟨hn, hv⟩ := ha f (by simp)
    rw [List.mapM_cons, asciiSlice_of_ascii hn, asciiSlice_of_ascii hv,
      ih fun g hg ↦ ha g (by simp [hg])]
    rfl

/-- The slices of ASCII headers are those of their lines. -/
theorem lines_of_cuts {fields : List HeaderField} {slices : List (List Bytes × List Bytes)}
    (hs : List.Forall₂ (fun f s ↦ Cut f.name s.1 ∧ ValueCut f.value s.2) fields slices)
    (ha : ∀ f ∈ fields, (∀ b ∈ f.name, b.toNat < 0x80) ∧ ∀ b ∈ f.value, b.toNat < 0x80) :
    List.Forall₂ (LineOf lower) slices
      (fields.map fun f ↦ (toLowerCase lower (asciiText f.name), asciiText f.value)) := by
  induction hs with
  | nil => exact .nil
  | @cons f s fields slices hfs _ ih =>
    obtain ⟨⟨hn, -⟩, hv, hvne⟩ := hfs
    obtain ⟨han, hav⟩ := ha f (by simp)
    have hnne : s.1 ≠ [] := by
      intro hnil
      rw [hnil] at hn
      exact f.name_ne_nil hn.symm
    have htn := @texts_of_ascii s.1 (by rw [hn]; exact han)
    have htv := @texts_of_ascii s.2 (by rw [hv]; exact hav)
    refine .cons ⟨⟨_, _, htn, htv, ?_⟩, hnne, hvne, ?_⟩ (ih fun g hg ↦ ha g (by simp [hg]))
    · rw [flatten_map_asciiText, flatten_map_asciiText, hn, hv]
    · simpa [toLowerCase, asciiText] using f.name_ne_nil

/-- **However an ASCII head is cut**, its lines are added in order. -/
theorem parse_of_ascii (ha : h.Ascii) (hd : Delivers h callbacks) :
    Parser.parse lower callbacks =
      ((h.text lower).foldlM (fun dest l ↦ addLine dest l.1 l.2) []).map
        fun headers ↦ ⟨asciiText h.url, headers, [], false⟩ := by
  obtain ⟨url, slices, hu, hs, rfl⟩ := hd
  have hurl := @Parser.foldlM_url lower _ _ (texts_of_ascii (by rw [hu.1]; exact ha.1))
    Parser.onMessageBegin
  rw [flatten_map_asciiText, hu.1] at hurl
  have hlines : List.Forall₂ (LineOf lower) slices (h.text lower) := by
    exact lines_of_cuts hs ha.2
  have hheaders := Parser.foldlM_headers hlines ⟨asciiText h.url, [], [], false⟩
  rw [Parser.parse, List.foldlM_append, hurl]
  show ((slices.flatMap headerCallbacks).foldlM (Parser.step lower)
    ⟨⟨asciiText h.url, [], [], false⟩, none, none⟩ >>= fun p ↦ p.onHeadersComplete >>= fun p ↦
      pure p.incoming) = _
  rw [← bind_assoc, hheaders, ← foldlM_addHeaderLine]
  rw [bind_assoc]
  exact bind_pure (m := Except JsError) _

/-- A run that does not throw has made a string of each slice. -/
theorem asciiSlice_of_step {p p' : Parser} {c : Callback} (h : p.step lower c = .ok p') :
    ∃ s, asciiSlice c.bytes = .ok s := by
  cases c <;> simp only [Parser.step, Parser.onURL, Parser.onHeaderField, Parser.onHeaderValue] at h
  all_goals
    rename_i b
    cases hb : asciiSlice b with
    | ok s => exact ⟨s, hb⟩
    | error e => simp [hb, bind, Except.bind] at h

theorem asciiSlice_of_foldlM {p p' : Parser} (h : callbacks.foldlM (Parser.step lower) p = .ok p') :
    ∀ c ∈ callbacks, ∃ s, asciiSlice c.bytes = .ok s := by
  induction callbacks generalizing p with
  | nil => simp
  | cons c callbacks ih =>
    rw [List.foldlM_cons] at h
    cases hc : p.step lower c with
    | error e => simp [hc, bind, Except.bind] at h
    | ok q =>
      rw [hc] at h
      intro d hd
      rcases List.mem_cons.mp hd with rfl | hd
      · exact asciiSlice_of_step hc
      · exact ih h d hd

/-- Slices of one byte each. -/
def singles (b : Bytes) : List Bytes := b.map fun x ↦ [x]

theorem cut_singles (b : Bytes) : Cut b (singles b) := by
  constructor
  · induction b with
    | nil => rfl
    | cons a b ih => simpa [singles] using ih
  · simp [singles]

/-- The cut into single bytes; an empty value is one slice. -/
def bytewise (h : Head) : List Callback :=
  (singles h.url).map .url ++ (h.fields.map fun f ↦
    (singles f.name, if f.value = [] then [[]] else singles f.value)).flatMap headerCallbacks

theorem delivers_bytewise (h : Head) : Delivers h (bytewise h) := by
  refine ⟨_, _, cut_singles _, ?_, rfl⟩
  rw [List.forall₂_map_right_iff]
  refine List.forall₂_same.mpr fun f _ ↦ ⟨cut_singles _, ?_⟩
  split_ifs with hv
  · simp [ValueCut, hv]
  · exact ⟨(cut_singles _).1, by simpa [singles] using hv⟩

/-- If the bytes can be delivered one at a time, they are ASCII. -/
theorem ascii_of_bytewise {p : Parser}
    (h' : (bytewise h).foldlM (Parser.step lower) Parser.onMessageBegin = .ok p) : h.Ascii := by
  have hs := asciiSlice_of_foldlM h'
  have hbyte : ∀ {b : Bytes} {x : UInt8} (f : Bytes → Callback), (∀ y, (f y).bytes = y) →
      (∀ c ∈ (singles b).map f, c ∈ bytewise h) → x ∈ b → x.toNat < 0x80 := by
    intro b x f hf hm hx
    have hc : f [x] ∈ (singles b).map f := by simpa [singles] using ⟨x, hx, rfl⟩
    obtain ⟨s, hs⟩ := hs _ (hm _ hc)
    rw [hf] at hs
    exact lt_of_asciiSlice_singleton hs
  refine ⟨fun x hx ↦ hbyte .url (fun _ ↦ rfl) ?_ hx, fun f hf ↦ ⟨fun x hx ↦ ?_, fun x hx ↦ ?_⟩⟩
  · intro c hc
    exact List.mem_append_left _ hc
  · refine hbyte .headerField (fun _ ↦ rfl) (fun c hc ↦ ?_) hx
    refine List.mem_append_right _ (List.mem_flatMap.mpr ⟨_, List.mem_map.mpr ⟨f, hf, rfl⟩, ?_⟩)
    exact List.mem_append_left _ hc
  · refine hbyte .headerValue (fun _ ↦ rfl) (fun c hc ↦ ?_) hx
    refine List.mem_append_right _ (List.mem_flatMap.mpr ⟨_, List.mem_map.mpr ⟨f, hf, rfl⟩, ?_⟩)
    rw [if_neg (List.ne_nil_of_mem hx)]
    exact List.mem_append_right _ hc

end

/-- **Fragmentation.** Every way of cutting a head gives its URL and the headers of its whole lines
exactly if the head is ASCII. -/
theorem parse_eq_expected_iff (lower : UInt16 → UInt16) (h : Head) :
    (∃ r, h.expected lower = .ok r ∧ ∀ callbacks, Delivers h callbacks →
      (Parser.parse lower callbacks).map (fun i ↦ (i.url, i.headers)) = .ok r) ↔ h.Ascii := by
  constructor
  · rintro ⟨r, -, hall⟩
    have hb := hall _ (delivers_bytewise h)
    rw [Parser.parse] at hb
    cases hr : (bytewise h).foldlM (Parser.step lower) Parser.onMessageBegin with
    | error e => simp [hr, bind, Except.bind, Except.map] at hb
    | ok p => exact ascii_of_bytewise hr
  · intro ha
    have hnone : ArraysOnly [] := by simp [ArraysOnly, Headers.find]
    obtain ⟨headers, hh⟩ := foldlM_addLine_ok (h.text lower) hnone
    refine ⟨(asciiText h.url, headers), ?_, ?_⟩
    · rw [Head.expected, asciiSlice_of_ascii ha.1, Head.lines_of_ascii ha]
      simp only [bind, Except.bind, hh, pure, Except.pure]
    · intro callbacks hd
      rw [parse_of_ascii ha hd, hh]
      rfl

/-- A request for `/` with the header `a: é`. -/
def accented : Head := ⟨[0x2F], [⟨[0x61], [0xC3, 0xA9], by simp⟩]⟩

/-- A cut inside a character makes the parser throw where the whole value is read. -/
theorem cut_character_throws :
    Delivers accented [.url [0x2F], .headerField [0x61], .headerValue [0xC3, 0xA9]] ∧
    Delivers accented
      [.url [0x2F], .headerField [0x61], .headerValue [0xC3], .headerValue [0xA9]] ∧
    Parser.parse id [.url [0x2F], .headerField [0x61], .headerValue [0xC3, 0xA9]] =
      .ok ⟨[0x2F], [([0x61], .one [0xE9])], [], false⟩ ∧
    Parser.parse id [.url [0x2F], .headerField [0x61], .headerValue [0xC3], .headerValue [0xA9]] =
      .error .typeError := by
  refine ⟨⟨[[0x2F]], [([[0x61]], [[0xC3, 0xA9]])], ?_, ?_, rfl⟩,
    ⟨[[0x2F]], [([[0x61]], [[0xC3], [0xA9]])], ?_, ?_, rfl⟩, by decide, by decide⟩
  all_goals simp [accented, Cut, ValueCut]

end SpiderNode.Http
