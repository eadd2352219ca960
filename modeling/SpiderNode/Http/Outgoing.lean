import SpiderNode.Net.Socket
import SpiderNode.Text.Inflate
import Mathlib.Data.Nat.Digits.Defs

/-!
# Outgoing messages of `lib/http.js`

A message renders its header block once, as text, and sends it together with the first piece of its
body. What it sends goes to its socket if it owns one, and is kept in `output` until then.

A call may throw, and then leaves the changes it made before that, so a call is a computation over
the state of the message that can fail. The socket does not change while a call runs: it is writable
or not, and each `write` on it is recorded in `wire`.

Some of what the program does with strings and values is kept out of the model: a header value is
what it is turned into when it is appended to a string, and what is written is a string or a
buffer.
-/

namespace SpiderNode.Http

open Net (JsError)

/-! ## Texts -/

def crlf : JSString := [0x0D, 0x0A]

/-- A hexadecimal digit. -/
def hexChar (d : ℕ) : UInt16 := .ofNat (if d < 10 then 0x30 + d else 0x57 + d)

/-- `n.toString(16)` -/
def hex (n : ℕ) : JSString :=
  if n = 0 then [0x30] else (Nat.digits 16 n).reverse.map hexChar

/-- A letter, without regard to case. -/
def foldCase (u : UInt16) : UInt16 := if 0x41 ≤ u ∧ u ≤ 0x5A then u + 0x20 else u

/-- `/pattern/i.test(s)`, for a pattern of letters and hyphens: it may stand anywhere in `s`. Only
ASCII letters match in both cases. -/
def test (pattern s : JSString) : Bool :=
  (s.map foldCase).tails.any fun t ↦ (pattern.map foldCase).isPrefixOf t

def connectionExpression : JSString := js "Connection"

def transferEncodingExpression : JSString := js "Transfer-Encoding"

def closeExpression : JSString := js "close"

def chunkExpression : JSString := js "chunk"

def contentLengthExpression : JSString := js "Content-Length"

def expectExpression : JSString := js "Expect"

def statusCodes : ℕ → Option String
  | 100 => "Continue"
  | 101 => "Switching Protocols"
  | 102 => "Processing"
  | 200 => "OK"
  | 201 => "Created"
  | 202 => "Accepted"
  | 203 => "Non-Authoritative Information"
  | 204 => "No Content"
  | 205 => "Reset Content"
  | 206 => "Partial Content"
  | 207 => "Multi-Status"
  | 300 => "Multiple Choices"
  | 301 => "Moved Permanently"
  | 302 => "Moved Temporarily"
  | 303 => "See Other"
  | 304 => "Not Modified"
  | 305 => "Use Proxy"
  | 307 => "Temporary Redirect"
  | 400 => "Bad Request"
  | 401 => "Unauthorized"
  | 402 => "Payment Required"
  | 403 => "Forbidden"
  | 404 => "Not Found"
  | 405 => "Method Not Allowed"
  | 406 => "Not Acceptable"
  | 407 => "Proxy Authentication Required"
  | 408 => "Request Time-out"
  | 409 => "Conflict"
  | 410 => "Gone"
  | 411 => "Length Required"
  | 412 => "Precondition Failed"
  | 413 => "Request Entity Too Large"
  | 414 => "Request-URI Too Large"
  | 415 => "Unsupported Media Type"
  | 416 => "Requested Range Not Satisfiable"
  | 417 => "Expectation Failed"
  | 418 => "I'm a teapot"
  | 422 => "Unprocessable Entity"
  | 423 => "Locked"
  | 424 => "Failed Dependency"
  | 425 => "Unordered Collection"
  | 426 => "Upgrade Required"
  | 500 => "Internal Server Error"
  | 501 => "Not Implemented"
  | 502 => "Bad Gateway"
  | 503 => "Service Unavailable"
  | 504 => "Gateway Time-out"
  | 505 => "HTTP Version not supported"
  | 506 => "Variant Also Negotiates"
  | 507 => "Insufficient Storage"
  | 509 => "Bandwidth Limit Exceeded"
  | 510 => "Not Extended"
  | _ => none

/-! ## Data -/

/-- What is written: a string or a `Buffer`. -/
inductive Chunk where
  | str (s : JSString)
  | buf (b : Bytes)
  deriving DecidableEq, Repr

/-- `chunk.length` -/
def Chunk.length : Chunk → ℕ
  | str s => s.length
  | buf b => b.length

/-- An entry of `output` with its entry of `outputEncodings`; also a call of `socket.write`. -/
abbrev Entry := Chunk × Option TextEncoding

/-- `Buffer.byteLength(s, encoding)` -/
def byteLength (encoding : Option TextEncoding) (s : JSString) : ℕ := (encodeText encoding s).length

/-- The value of a header: a string, or an array of them. -/
inductive HeaderValue where
  | one (v : JSString)
  | many (vs : List JSString)
  deriving DecidableEq, Repr

def HeaderValue.values : HeaderValue → List JSString
  | one v => [v]
  | many vs => vs

/-- The headers that are passed to `writeHead`. -/
inductive HeaderSet where
  | array (fields : List (JSString × HeaderValue))
  | object (fields : List (JSString × HeaderValue))
  deriving DecidableEq, Repr

def HeaderSet.fields : HeaderSet → List (JSString × HeaderValue)
  | array fields => fields
  | object fields => fields

/-- The fields and values in the order in which `_storeHeader` visits them. -/
def headerLines (fields : List (JSString × HeaderValue)) : List (JSString × JSString) :=
  fields.flatMap fun f ↦ f.2.values.map fun v ↦ (f.1, v)

/-- `object[key] = value`: an old key keeps its place. -/
def assign {α β : Type} [DecidableEq α] (l : List (α × β)) (key : α) (value : β) : List (α × β) :=
  if l.any (·.1 = key) then l.map fun f ↦ if f.1 = key then (key, value) else f
  else l ++ [(key, value)]

/-! ## Messages -/

inductive Role where
  /-- A `ServerResponse`. -/
  | response
  /-- A `ClientRequest`. -/
  | request (method path : JSString)
  deriving DecidableEq, Repr

/-- The socket of a message. -/
structure Link where
  /-- `connection._httpMessage === this` -/
  owned : Bool
  writable : Bool
  /-- What `connection.write` returns. -/
  flushes : Bool
  deriving DecidableEq, Repr

/-- A rendered header block. It ends in an empty line. -/
structure HeaderBlock where
  messageHeader : JSString
  deriving DecidableEq, Repr

def HeaderBlock.text (h : HeaderBlock) : JSString := h.messageHeader ++ crlf

structure Message where
  role : Role
  /-- `output` and `outputEncodings`. -/
  output : List Entry
  last : Bool
  chunkedEncoding : Bool
  shouldKeepAlive : Bool
  useChunkedEncodingByDefault : Bool
  hasBody : Bool
  trailer : JSString
  finished : Bool
  /-- `_header`, once it has been rendered. -/
  header : Option HeaderBlock
  headerSent : Bool
  /-- `_headers` and `_headerNames`: for each key the name and the value. -/
  headers : Option (List (JSString × JSString × HeaderValue))
  statusCode : ℕ
  expectContinue : Bool
  sent100 : Bool
  connection : Option Link
  /-- The calls of `connection.write`, in order. -/
  wire : List Entry
  /-- How many times `finish` and `drain` have been emitted. -/
  finishes : ℕ
  drains : ℕ
  deriving DecidableEq, Repr

/-- A call on a message. -/
abbrev Op := EStateM JsError Message

namespace Message

/-! ### Sending -/

/-- `connection && connection._httpMessage === this && connection.writable` -/
def attached (m : Message) : Bool :=
  match m.connection with
  | some c => c.owned && c.writable
  | none => false

/-- `connection.write(data, encoding)` -/
def socketWrite (data : Chunk) (encoding : Option TextEncoding) : Op Bool := do
  let m ← get
  match m.connection with
  | none => throw .typeError
  | some c =>
    set { m with wire := m.wire ++ [(data, encoding)] }
    return c.flushes

/-- What `_buffer` makes of `output`: a string may be joined to the last entry, and a buffer that
stands there is turned into a string for it. -/
def joinOutput (output : List Entry) (data : Chunk) (encoding : Option TextEncoding) :
    Except JsError (List Entry) :=
  if data.length = 0 then .ok output
  else
    match data, output.getLast? with
    | .str s, some (.str t, lastEncoding) =>
      if encoding.isSome ∧ lastEncoding = encoding ∨ encoding = none then
        .ok (output.dropLast ++ [(.str (t ++ s), lastEncoding)])
      else .ok (output ++ [(data, encoding)])
    | .str s, some (.buf b, lastEncoding) =>
      if encoding.isSome ∧ lastEncoding = encoding then
        match utf8Decode b with
        | some t => .ok (output.dropLast ++ [(.str (t ++ s), lastEncoding)])
        | none => .error .typeError
      else .ok (output ++ [(data, encoding)])
    | _, _ => .ok (output ++ [(data, encoding)])

def buffer (data : Chunk) (encoding : Option TextEncoding) : Op Unit := do
  let m ← get
  match joinOutput m.output data encoding with
  | .ok output => set { m with output := output }
  | .error e => throw e

/-- The loop of `_writeRaw` over the pending output; `false` if the socket is not writable. -/
def writePending : List Entry → Op Bool
  | [] => return true
  | (c, e) :: rest => do
    if (← get).attached then
      modify fun m ↦ { m with output := rest }
      let _ ← socketWrite c e
      writePending rest
    else return false

def writeRaw (data : Chunk) (encoding : Option TextEncoding) : Op Bool := do
  let m ← get
  if m.attached then
    if ← writePending m.output then socketWrite data encoding
    else
      buffer data encoding
      return false
  else
    buffer data encoding
    return false

/-- `_header`, as text. -/
def headerText (m : Message) : JSString := (m.header.map HeaderBlock.text).getD (js "undefined")

def send (data : Chunk) (encoding : Option TextEncoding) : Op Bool := do
  let m ← get
  if m.headerSent then writeRaw data encoding
  else
    match data with
    | .str s =>
      set { m with headerSent := true }
      writeRaw (.str (m.headerText ++ s)) encoding
    | .buf b =>
      set { m with output := (Chunk.str m.headerText, some .ascii) :: m.output, headerSent := true }
      writeRaw (.buf b) encoding

/-! ### The header block -/

/-- The variables of `_storeHeader`, with the fields of the message that `store` changes. -/
structure Draft where
  messageHeader : JSString
  sentConnectionHeader : Bool
  sentContentLengthHeader : Bool
  sentTransferEncodingHeader : Bool
  sentExpect : Bool
  last : Bool
  shouldKeepAlive : Bool
  chunkedEncoding : Bool
  deriving DecidableEq, Repr

/-- A line of the header block. -/
def headerLine (field value : JSString) : JSString := field ++ js ": " ++ value ++ crlf

/-- `store(field, value)` -/
def Draft.store (d : Draft) (line : JSString × JSString) : Draft :=
  let d := { d with messageHeader := d.messageHeader ++ headerLine line.1 line.2 }
  if test connectionExpression line.1 then
    let d := { d with sentConnectionHeader := true }
    if test closeExpression line.2 then { d with last := true }
    else { d with shouldKeepAlive := true }
  else if test transferEncodingExpression line.1 then
    let d := { d with sentTransferEncodingHeader := true }
    if test chunkExpression line.2 then { d with chunkedEncoding := true } else d
  else if test contentLengthExpression line.1 then { d with sentContentLengthHeader := true }
  else if test expectExpression line.1 then { d with sentExpect := true }
  else d

/-- The keep-alive logic. -/
def Draft.keepAlive (d : Draft) (useChunkedEncodingByDefault : Bool) : Draft :=
  if d.sentConnectionHeader then d
  else if d.shouldKeepAlive && (d.sentContentLengthHeader || useChunkedEncodingByDefault) then
    { d with messageHeader := d.messageHeader ++ js "Connection: keep-alive" ++ crlf }
  else
    { d with last := true, messageHeader := d.messageHeader ++ js "Connection: close" ++ crlf }

/-- How the end of the body is to be found. -/
def Draft.framing (d : Draft) (hasBody useChunkedEncodingByDefault : Bool) : Draft :=
  if d.sentContentLengthHeader || d.sentTransferEncodingHeader then d
  else if hasBody then
    if useChunkedEncodingByDefault then
      { d with
        messageHeader := d.messageHeader ++ js "Transfer-Encoding: chunked" ++ crlf
        chunkedEncoding := true }
    else { d with last := true }
  else { d with chunkedEncoding := false }

/-- What `_storeHeader` renders. -/
def draft (m : Message) (firstLine : JSString) (lines : List (JSString × JSString)) : Draft :=
  let d : Draft := ⟨firstLine, false, false, false, false, m.last, m.shouldKeepAlive,
    m.chunkedEncoding⟩
  ((lines.foldl Draft.store d).keepAlive m.useChunkedEncodingByDefault).framing m.hasBody
    m.useChunkedEncodingByDefault

/-- The message with a header block. -/
def withDraft (m : Message) (d : Draft) : Message :=
  { m with
    header := some ⟨d.messageHeader⟩
    headerSent := false
    last := d.last
    shouldKeepAlive := d.shouldKeepAlive
    chunkedEncoding := d.chunkedEncoding }

def storeHeader (firstLine : JSString) (lines : List (JSString × JSString)) : Op Unit := do
  let m ← get
  let d := m.draft firstLine lines
  set (m.withDraft d)
  if d.sentExpect then
    let _ ← send (.str []) none

/-- `setHeader(name, value)`, given `toLowerCase`. An assignment to `__proto__` adds no key. -/
def setHeader (lower : JSString → JSString) (name : JSString) (value : HeaderValue) : Op Unit := do
  let m ← get
  if m.header.isSome then throw (.error "Can't set headers after they are sent.")
  let key := lower name
  let headers := m.headers.getD []
  set { m with
    headers := some (if key = js "__proto__" then headers else assign headers key (name, value)) }

def removeHeader (lower : JSString → JSString) (name : JSString) : Op Unit := do
  let m ← get
  if m.header.isSome then throw (.error "Can't remove headers after they are sent.")
  set { m with headers := m.headers.map (List.filter (·.1 ≠ lower name)) }

def renderHeaders : Op (List (JSString × HeaderValue)) := do
  let m ← get
  if m.header.isSome then
    throw (.error "Can't render headers after they are sent to the client.")
  return (m.headers.getD []).foldl (fun hs h ↦ assign hs h.2.1 h.2.2) []

/-- The header fields that `writeHead` makes of those it is passed and those set before. With an
array, only its own fields count, each followed at the end by what was set under the same name;
`inherited` is the text of what every object has under a name. Of an object, the empty name is
skipped, and an assignment to `__proto__` adds no key. -/
def mergeHeaders (inherited : JSString → Option JSString)
    (headers : List (JSString × HeaderValue)) : HeaderSet → List (JSString × HeaderValue)
  | .array fields =>
    fields ++ fields.filterMap fun f ↦
      match headers.find? (·.1 = f.1) with
      | some h => some (f.1, h.2)
      | none => (inherited f.1).map fun v ↦ (f.1, .one v)
  | .object fields =>
    fields.foldl (fun hs f ↦ if f.1 = [] ∨ f.1 = js "__proto__" then hs else assign hs f.1 f.2)
      headers

/-- The statuses whose responses have no body. -/
def bodiless (statusCode : ℕ) : Bool :=
  statusCode = 204 || statusCode = 304 || (100 ≤ statusCode && statusCode ≤ 199)

def statusLine (statusCode : ℕ) (reasonPhrase : Option JSString) : JSString :=
  js "HTTP/1.1 " ++ js (toString statusCode) ++ js " " ++
    reasonPhrase.getD (js ((statusCodes statusCode).getD "unknown")) ++ crlf

/-- `ServerResponse.prototype.writeHead` -/
def writeHead (inherited : JSString → Option JSString) (statusCode : ℕ)
    (reasonPhrase : Option JSString) (obj : Option HeaderSet) : Op Unit := do
  let m ← get
  let fields ← match obj, m.headers with
    | some obj, some _ => do
      let headers ← renderHeaders
      pure (mergeHeaders inherited headers obj)
    | none, some _ => renderHeaders
    | some obj, none => pure obj.fields
    | none, none => pure []
  modify fun m ↦
    { m with
      hasBody := m.hasBody && !bodiless statusCode
      shouldKeepAlive := m.shouldKeepAlive && !(m.expectContinue && !m.sent100) }
  storeHeader (statusLine statusCode reasonPhrase) (headerLines fields)

def implicitHeader : Op Unit := do
  let m ← get
  match m.role with
  | .response => writeHead (fun _ ↦ none) m.statusCode none none
  | .request method path =>
    let headers ← renderHeaders
    storeHeader (method ++ js " " ++ path ++ js " HTTP/1.1" ++ crlf) (headerLines headers)

/-- `if (!this._header) this._implicitHeader();` -/
def ensureHeader : Op Unit := do
  if (← get).header.isNone then implicitHeader

/-! ### The body -/

/-- `ServerResponse.prototype.writeContinue` -/
def writeContinue : Op Unit := do
  let _ ← writeRaw (.str (js "HTTP/1.1 100 Continue" ++ crlf ++ crlf)) (some .ascii)
  modify fun m ↦ { m with sent100 := true }

/-- A string as a chunk of a chunked body. -/
def chunkText (encoding : Option TextEncoding) (s : JSString) : JSString :=
  hex (byteLength encoding s) ++ crlf ++ s ++ crlf

/-- `write`, once there is a header block. -/
def writeBody (chunk : Chunk) (encoding : Option TextEncoding) : Op Bool := do
  let m ← get
  if !m.hasBody then return true
  if chunk.length = 0 then return false
  if m.chunkedEncoding then
    match chunk with
    | .str s => send (.str (chunkText encoding s)) encoding
    | .buf b =>
      let _ ← send (.str (hex b.length ++ crlf)) none
      let _ ← send (.buf b) none
      send (.str crlf) none
  else send chunk encoding

/-- `OutgoingMessage.prototype.write` -/
def write (chunk : Chunk) (encoding : Option TextEncoding) : Op Bool := do
  ensureHeader
  writeBody chunk encoding

def addTrailers (fields : List (JSString × JSString)) : Op Unit :=
  modify fun m ↦ { m with trailer := fields.flatMap fun f ↦ headerLine f.1 f.2 }

/-- The last chunk, with the trailer. -/
def lastChunk (m : Message) : JSString := js "0" ++ crlf ++ m.trailer ++ crlf

/-- The string that `end` may send together with the header. -/
def hot (m : Message) (data : Option Chunk) : Option JSString :=
  match data with
  | some (.str s) =>
    if m.headerSent = false ∧ 0 < s.length ∧ m.output = [] ∧ m.attached = true then some s else none
  | _ => none

/-- `if (data)`, and then a body write. -/
def writeData (data : Option Chunk) (encoding : Option TextEncoding) : Op Unit :=
  match data with
  | none | some (.str []) => return
  | some c => do
    let _ ← write c encoding

/-- The last chunk, or a forced flush. -/
def sendLast : Op Bool := do
  let m ← get
  if m.chunkedEncoding then send (.str m.lastChunk) none else send (.str []) none

/-- The header block and all of the body in one string. -/
def sendHot (s : JSString) (encoding : Option TextEncoding) : Op Bool := do
  let m ← get
  let ret ← socketWrite (.str (m.headerText ++
    if m.chunkedEncoding then chunkText encoding s ++ m.lastChunk else s)) encoding
  modify fun m ↦ { m with headerSent := true }
  return ret

/-- `_finish`. The one listener of a response is the handler of its connection, which detaches it
from the socket. -/
def finish : Op Unit := do
  let m ← get
  match m.connection with
  | none => throw .assertion
  | some _ =>
    set { m with
      finishes := m.finishes + 1
      connection := if m.role = Role.response then none else m.connection }

/-- What `end` does once everything is sent or kept. -/
def endFinish : Op Unit := do
  modify fun m ↦ { m with finished := true }
  let m ← get
  if m.output = [] then
    match m.connection with
    | none => throw .typeError
    | some c => if c.owned then finish

/-- `OutgoingMessage.prototype.end` -/
def «end» (data : Option Chunk) (encoding : Option TextEncoding) : Op Bool := do
  ensureHeader
  let m ← get
  let ret ← match m.hot data with
    | some s => sendHot s encoding
    | none => do
      writeData data encoding
      sendLast
  endFinish
  return ret

/-! ### The socket -/

/-- The loop of `_flush`; the result is that of the last `write`, and whether the loop ran to its
end. -/
def flushOutput (ret : Bool) : List Entry → Op (Bool × Bool)
  | [] => return (ret, true)
  | (c, e) :: rest => do
    match (← get).connection with
    | some l =>
      if l.writable then
        modify fun m ↦ { m with output := rest }
        let ret ← socketWrite c e
        flushOutput ret rest
      else return (ret, false)
    | none => return (ret, false)

/-- `OutgoingMessage.prototype._flush` -/
def flush : Op Unit := do
  let m ← get
  if m.connection.isSome then
    let (ret, done) ← flushOutput false m.output
    if done then
      let m ← get
      if m.finished then finish
      else if ret then set { m with drains := m.drains + 1 }

/-- `OutgoingMessage.prototype.assignSocket`, for a socket without a message. -/
def assignSocket (writable flushes : Bool) : Op Unit := do
  modify fun m ↦ { m with connection := some ⟨true, writable, flushes⟩ }
  flush

end Message

/-- `new ServerResponse(req)`, for a request with the given method and version. -/
def serverResponse (isHead : Bool) (major minor : ℕ) : Message where
  role := .response
  output := []
  last := false
  chunkedEncoding := false
  shouldKeepAlive := !(major < 1 || minor < 1)
  useChunkedEncodingByDefault := !(major < 1 || minor < 1)
  hasBody := !isHead
  trailer := []
  finished := false
  header := none
  headerSent := false
  headers := none
  statusCode := 200
  expectContinue := false
  sent100 := false
  connection := none
  wire := []
  finishes := 0
  drains := 0

end SpiderNode.Http
