import SpiderNode.Text.Json

/-!
# The debugger protocol

`Protocol` of `lib/_debugger.js` reads messages of headers and a JSON body, out of strings that cut
them anywhere. It keeps the text that is not used up in `res.raw`; when it has the body of a message
it calls `onResponse`, and `_newRes` starts over with the rest of the text.

`_newRes` and `execute` call each other once for each message that the text holds, so `execute` has
the depth that the stack has left for it.
-/

namespace SpiderNode.Debugger

/-- `\r\n\r\n` -/
def endOfHeaders : JSString := [0x0D, 0x0A, 0x0D, 0x0A]

/-- `s.indexOf('\r\n\r\n')` -/
def indexOfEnd : JSString → Option ℕ
  | [] => none
  | u :: s =>
    if endOfHeaders <+: u :: s then some 0 else (indexOfEnd s).map (· + 1)

/-- The pieces of a string between `\r\n`; `lf` if its first code unit is the end of one. -/
def splitFrom (lf : Bool) : JSString → List JSString
  | [] => [[]]
  | u :: s =>
    if lf then splitFrom false s
    else if u = 0x0D ∧ s.head? = some 0x0A then [] :: splitFrom true s
    else
      match splitFrom false s with
      | line :: lines => (u :: line) :: lines
      | [] => [[u]]

/-- `s.split('\r\n')` -/
def splitLines (s : JSString) : List JSString := splitFrom false s

/-- A string up to the first match of `/: +/`, and what follows the match. -/
def cutField : JSString → JSString × Option JSString
  | [] => ([], none)
  | u :: s =>
    if u = 0x3A ∧ s.head? = some 0x20 then ([], some (s.dropWhile (· == 0x20)))
    else (u :: (cutField s).1, (cutField s).2)

/-- `kv[0]` and `kv[1]` of `kv = line.split(/: +/)`. -/
def keyValue (line : JSString) : JSString × Option JSString :=
  ((cutField line).1, (cutField line).2.map fun s ↦ (cutField s).1)

/-- The fields of `res.headers`; a value may be `undefined`. -/
abbrev Headers := List (JSString × Option JSString)

/-- An assignment to `__proto__` of what is not an object has no effect. -/
def assign (headers : Headers) (kv : JSString × Option JSString) : Headers :=
  if kv.1 = js "__proto__" then headers else setField headers kv.1 kv.2

/-- `headers['Content-Length']` -/
def contentLengthOf (headers : Headers) : Option JSString :=
  (headers.find? fun f ↦ f.1 = js "Content-Length").bind (·.2)

/-- `s.slice(start, stop)` -/
def slice (s : JSString) (start stop : Number) : JSString :=
  (s.take (stop.index s.length)).drop (start.index s.length)

inductive State where
  | headers
  | body
  deriving DecidableEq

/-- `res`, when `onResponse` gets it. -/
structure Response where
  raw : JSString
  headers : Headers
  body : Json

inductive Fault where
  /-- `JSON.parse` throws. -/
  | syntaxError
  /-- The stack is used up. -/
  | depth
  deriving DecidableEq

structure Protocol where
  /-- `res.raw` -/
  raw : JSString
  /-- `res.headers` -/
  headers : Headers
  state : State
  reqSeq : ℕ
  contentLength : Number
  bodyStartIndex : ℕ

namespace Protocol

variable (d : Doubles)

/-- `_newRes` up to its call of `execute`. -/
def newRes (p : Protocol) (raw : JSString) : Protocol :=
  { p with raw := raw, headers := [], state := .headers, reqSeq := 1 }

/-- `new Protocol()` -/
def new : Protocol := ⟨[], [], .headers, 1, .nan, 0⟩

/-- The case `'headers'`, when the headers end at an index. -/
def readHeaders (p : Protocol) (endHeaderIndex : ℕ) : Protocol :=
  let headers := ((splitLines (p.raw.take endHeaderIndex)).map keyValue).foldl assign p.headers
  { p with
    headers := headers
    contentLength := d.toNumber (contentLengthOf headers)
    bodyStartIndex := endHeaderIndex + 4
    state := .body }

/-- `res.raw.length - this.bodyStartIndex` -/
def available (p : Protocol) : ℕ := p.raw.length - p.bodyStartIndex

/-- `this.bodyStartIndex + this.contentLength` -/
def bodyEnd (p : Protocol) : Number := d.add p.bodyStartIndex p.contentLength

/-- The text of the body. -/
def bodyText (p : Protocol) : JSString := slice p.raw (.finite p.bodyStartIndex) (p.bodyEnd d)

/-- What follows the body. -/
def rest (p : Protocol) : JSString := slice p.raw (p.bodyEnd d) (.infinity false)

/-- The body of a text: the empty text stands for `{}`. -/
def parseBody (text : JSString) : Option Json :=
  if text = [] then some (.object []) else Json.parse d text

/-- The case `'body'`; `execute('')` of `_newRes` is `next`. -/
def takeBody (p : Protocol) (next : Protocol → List Response × Except Fault Protocol) :
    List Response × Except Fault Protocol :=
  if p.contentLength.le p.available then
    match parseBody d (p.bodyText d) with
    | none => ([], .error .syntaxError)
    | some body =>
      let after := next (p.newRes (p.rest d))
      (⟨p.raw, p.headers, body⟩ :: after.1, after.2)
  else ([], .ok p)

/-- `execute`, which calls `onResponse` with some responses and then returns or throws. -/
def execute : ℕ → Protocol → JSString → List Response × Except Fault Protocol
  | 0, _, _ => ([], .error .depth)
  | depth + 1, p, s =>
    let next (p : Protocol) := execute depth p []
    let p := { p with raw := p.raw ++ s }
    match p.state with
    | .headers =>
      match indexOfEnd p.raw with
      | none => ([], .ok p)
      | some endHeaderIndex =>
        let p := p.readHeaders d endHeaderIndex
        if p.contentLength.gt p.available then ([], .ok p) else p.takeBody d next
    | .body => p.takeBody d next

/-- Calls of `execute`, up to one that throws. -/
def feed (depth : ℕ) (p : Protocol) : List JSString → List Response × Except Fault Protocol
  | [] => ([], .ok p)
  | s :: chunks =>
    match execute d depth p s with
    | (responses, .ok p) => (responses ++ (feed depth p chunks).1, (feed depth p chunks).2)
    | (responses, .error e) => (responses, .error e)

/-- `serialize`, with what becomes of `req`. -/
def serialize (p : Protocol) (req : List (JSString × Json)) :
    JSString × List (JSString × Json) × Protocol :=
  let req := setField req (js "type") (.string (js "request"))
  let req := setField req (js "seq") (.number (.finite p.reqSeq))
  let json := (Json.object req).stringify d
  (js "Content-Length: " ++ d.toString json.length ++ endOfHeaders ++ json, req,
    { p with reqSeq := p.reqSeq + 1 })

end Protocol

end SpiderNode.Debugger
