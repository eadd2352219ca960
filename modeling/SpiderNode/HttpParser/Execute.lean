import SpiderNode.Machine.Scanner
import Mathlib.Algebra.Group.Nat.Defs
import Mathlib.Data.Int.Init
import Mathlib.Order.Basic

/-!
# The HTTP parser

`http_parser_execute` of `deps/http_parser/http_parser.c` reads requests and responses in chunks. It
is a `Scanner`: `step` is what the loop does with one byte, and `Kind` are the texts that are handed
over from a mark on.

The function works on copies of four fields of the parser, and stores them at its end. Here the
copies stand in the fields themselves, and `leave` puts back what the parser still holds where the
function returns before it has stored them.

`strict` is `HTTP_PARSER_STRICT`. Two things end a run that no return value stands for: a failed
assertion, and the look at a byte behind the end of a method string. A callback that changes the
parser it is called by is left out.
-/

namespace SpiderNode.HttpParser

/-! ## Tables -/

/-- The bytes of an ASCII text. -/
def text (s : String) : List UInt8 := s.toList.map Char.toUInt8

def cr : UInt8 := 0x0D

def lf : UInt8 := 0x0A

/-- The first half of `tokens`; the other half is zero. -/
def tokens : List UInt8 :=
  List.replicate 32 0 ++
  text " !\"#$%&'" ++ [0, 0] ++ text "*+" ++ [0] ++ text "-./" ++
  text "0123456789" ++ [0, 0, 0, 0, 0, 0] ++
  [0] ++ text "abcdefghijklmnopqrstuvwxyz" ++ [0, 0, 0] ++ text "^_" ++
  text "`abcdefghijklmnopqrstuvwxyz" ++ [0] ++ text "|" ++ text "\x7d~" ++ [0]

/-- `TOKEN(c)`: the character in lower case, or zero. -/
def token (ch : UInt8) : UInt8 := tokens.getD ch.toNat 0

/-- The first half of `unhex`; the other half is zero. -/
def unhexTable : List ℤ :=
  List.replicate 48 (-1) ++ [0, 1, 2, 3, 4, 5, 6, 7, 8, 9] ++ List.replicate 7 (-1) ++
  [10, 11, 12, 13, 14, 15] ++ List.replicate 26 (-1) ++ [10, 11, 12, 13, 14, 15] ++
  List.replicate 25 (-1)

def unhex (ch : UInt8) : ℤ := unhexTable.getD ch.toNat 0

/-- `normal_url_char[c]` -/
def normalUrlChar (ch : UInt8) : Bool :=
  0x20 < ch ∧ ch < 0x7F ∧ ch ≠ '#'.toUInt8 ∧ ch ≠ '?'.toUInt8

/-- `LOWER(c)` -/
def lower (ch : UInt8) : UInt8 := ch ||| 0x20

def isDigit (ch : UInt8) : Bool := '0'.toUInt8 ≤ ch ∧ ch ≤ '9'.toUInt8

def isAlpha (ch : UInt8) : Bool := 'a'.toUInt8 ≤ lower ch ∧ lower ch ≤ 'z'.toUInt8

/-- `ch - '0'` -/
def digit (ch : UInt8) : ℕ := ch.toNat - 0x30

/-- A number as it is stored in 64 bits. -/
def int64 (n : ℤ) : ℤ := n.bmod (2 ^ 64)

/-- `HTTP_MAX_HEADER_SIZE` -/
def maxHeaderSize : ℕ := 80 * 1024

/-! ## The parser -/

inductive ParserType where
  | request
  | response
  | both
  deriving DecidableEq, Repr

inductive Method where
  | delete | get | head | post | put
  | connect | options | trace
  | copy | lock | mkcol | move | propfind | proppatch | unlock
  | report | mkactivity | checkout | merge
  | msearch | notify | subscribe | unsubscribe
  deriving DecidableEq, Repr

/-- `method_strings` -/
def Method.string : Method → String
  | delete => "DELETE"
  | get => "GET"
  | head => "HEAD"
  | post => "POST"
  | put => "PUT"
  | connect => "CONNECT"
  | options => "OPTIONS"
  | trace => "TRACE"
  | copy => "COPY"
  | lock => "LOCK"
  | mkcol => "MKCOL"
  | move => "MOVE"
  | propfind => "PROPFIND"
  | proppatch => "PROPPATCH"
  | unlock => "UNLOCK"
  | report => "REPORT"
  | mkactivity => "MKACTIVITY"
  | checkout => "CHECKOUT"
  | merge => "MERGE"
  | msearch => "M-SEARCH"
  | notify => "NOTIFY"
  | subscribe => "SUBSCRIBE"
  | unsubscribe => "UNSUBSCRIBE"

def Method.bytes (m : Method) : List UInt8 := text m.string

/-- `matcher[index]`, with the zero at the end of the string; nothing behind it. -/
def Method.matcher (m : Method) (index : ℕ) : Option UInt8 := (m.bytes ++ [0])[index]?

inductive State where
  | dead
  | startReqOrRes | resOrRespH | startRes
  | resH | resHT | resHTT | resHTTP
  | resFirstHttpMajor | resHttpMajor | resFirstHttpMinor | resHttpMinor
  | resFirstStatusCode | resStatusCode | resStatus | resLineAlmostDone
  | startReq
  | reqMethod | reqSpacesBeforeUrl
  | reqSchema | reqSchemaSlash | reqSchemaSlashSlash | reqHost | reqPort | reqPath
  | reqQueryStringStart | reqQueryString | reqFragmentStart | reqFragment
  | reqHttpStart | reqHttpH | reqHttpHT | reqHttpHTT | reqHttpHTTP
  | reqFirstHttpMajor | reqHttpMajor | reqFirstHttpMinor | reqHttpMinor | reqLineAlmostDone
  | headerFieldStart | headerField | headerValueStart | headerValue
  | headerAlmostDone | headersAlmostDone
  | chunkSizeStart | chunkSize | chunkSizeAlmostDone | chunkParameters
  | chunkData | chunkDataAlmostDone | chunkDataDone
  | bodyIdentity | bodyIdentityEof
  deriving DecidableEq, Repr

/-- `state <= s_headers_almost_done` -/
def State.isHeader : State → Bool
  | chunkSizeStart | chunkSize | chunkSizeAlmostDone | chunkParameters
  | chunkData | chunkDataAlmostDone | chunkDataDone | bodyIdentity | bodyIdentityEof => false
  | _ => true

inductive HeaderState where
  | general | c | co | con
  | matchingConnection | matchingProxyConnection | matchingContentLength
  | matchingTransferEncoding | matchingUpgrade
  | connection | contentLength | transferEncoding | upgrade
  | matchingTransferEncodingChunked | matchingConnectionKeepAlive | matchingConnectionClose
  | transferEncodingChunked | connectionKeepAlive | connectionClose
  deriving DecidableEq, Repr

structure Flags where
  chunked : Bool
  connectionKeepAlive : Bool
  connectionClose : Bool
  trailing : Bool
  upgrade : Bool
  skipbody : Bool
  deriving DecidableEq, Repr

def Flags.none : Flags := ⟨false, false, false, false, false, false⟩

/-- What the parser says about a message. -/
structure Message where
  type : ParserType
  flags : Flags
  contentLength : ℤ
  httpMajor : ℕ
  httpMinor : ℕ
  statusCode : ℕ
  method : Method
  upgrade : Bool
  deriving DecidableEq, Repr

/-- `struct http_parser` -/
structure Parser extends Message where
  state : State
  headerState : HeaderState
  index : ℕ
  nread : ℕ
  deriving DecidableEq, Repr

/-- `http_should_keep_alive` -/
def Message.shouldKeepAlive (m : Message) : Bool :=
  if m.httpMajor > 0 ∧ m.httpMinor > 0 then !m.flags.connectionClose
  else m.flags.connectionKeepAlive

/-- The texts that are handed over in parts. -/
inductive Kind where
  | headerField | headerValue | fragment | queryString | path | url
  deriving DecidableEq, Repr

/-- The callbacks without a text, and the message that they see. -/
inductive Notice where
  | messageBegin (m : Message)
  | headersComplete (m : Message)
  | messageComplete (m : Message)
  deriving DecidableEq, Repr

/-- Why the loop is left. -/
inductive Exit where
  | error
  /-- A callback has returned something else than zero. -/
  | refused
  /-- `on_headers_complete` has returned something else than zero and one. -/
  | halted
  | upgrade
  | assertion
  /-- A byte behind the end of a method string has been looked at. -/
  | overread
  deriving DecidableEq, Repr

abbrev Step := Scanner.Code Parser Kind Notice Exit

/-! ## Parts of a step -/

def error (c : Parser) : Step := .stop .error c

/-- `CALLBACK(FOR)` -/
def callback (d : Kind) (c : Parser) (rest : Step) : Step :=
  .callback d fun r ↦ if r = 0 then rest else .stop .refused c

/-- `CALLBACK2(FOR)` -/
def callback2 (e : Message → Notice) (c : Parser) (rest : Step) : Step :=
  .notify (e c.toMessage) fun r ↦ if r = 0 then rest else .stop .refused c

/-- `state = …; break;` -/
def goto (c : Parser) (s : State) : Step := .next { c with state := s }

/-- `STRICT_CHECK(cond)`, for the byte that is expected. -/
def strictCheck (strict : Bool) (ch expected : UInt8) (c : Parser) (rest : Step) : Step :=
  if strict ∧ ch ≠ expected then error c else rest

def Parser.startState (c : Parser) : State :=
  if c.type = .request then .startReq else .startRes

/-- `NEW_MESSAGE()` -/
def Parser.newMessage (strict : Bool) (c : Parser) : State :=
  if strict then if c.shouldKeepAlive then c.startState else .dead else c.startState

/-- The end of a message. -/
def complete (strict : Bool) (c : Parser) : Step :=
  callback2 .messageComplete c (goto c (c.newMessage strict))

/-! ## The first line -/

/-- `s_res_first_http_major` and `s_req_first_http_major` -/
def firstHttpMajor (c : Parser) (ch : UInt8) (s : State) : Step :=
  if ch < '1'.toUInt8 ∨ '9'.toUInt8 < ch then error c
  else .next { c with httpMajor := digit ch, state := s }

/-- `s_res_http_major` and `s_req_http_major` -/
def httpMajor (c : Parser) (ch : UInt8) (s : State) : Step :=
  if ch = '.'.toUInt8 then goto c s
  else if ¬isDigit ch then error c
  else
    let c := { c with httpMajor := (c.httpMajor * 10 + digit ch) % 2 ^ 16 }
    if c.httpMajor > 999 then error c else .next c

/-- `s_res_first_http_minor` and `s_req_first_http_minor` -/
def firstHttpMinor (c : Parser) (ch : UInt8) (s : State) : Step :=
  if ¬isDigit ch then error c else .next { c with httpMinor := digit ch, state := s }

/-- The digits of `s_res_http_minor` and `s_req_http_minor`. -/
def httpMinor (c : Parser) (ch : UInt8) : Step :=
  if ¬isDigit ch then error c
  else
    let c := { c with httpMinor := (c.httpMinor * 10 + digit ch) % 2 ^ 16 }
    if c.httpMinor > 999 then error c else .next c

def resFirstStatusCode (c : Parser) (ch : UInt8) : Step :=
  if ¬isDigit ch then if ch = ' '.toUInt8 then .next c else error c
  else .next { c with statusCode := digit ch, state := .resStatusCode }

def resStatusCode (c : Parser) (ch : UInt8) : Step :=
  if ¬isDigit ch then
    if ch = ' '.toUInt8 then goto c .resStatus
    else if ch = cr then goto c .resLineAlmostDone
    else if ch = lf then goto c .headerFieldStart
    else error c
  else
    let c := { c with statusCode := (c.statusCode * 10 + digit ch) % 2 ^ 16 }
    if c.statusCode > 999 then error c else .next c

/-- The method that the first byte is taken for. -/
def Method.first (ch : UInt8) : Option Method :=
  if ch = 'C'.toUInt8 then some .connect
  else if ch = 'D'.toUInt8 then some .delete
  else if ch = 'G'.toUInt8 then some .get
  else if ch = 'H'.toUInt8 then some .head
  else if ch = 'L'.toUInt8 then some .lock
  else if ch = 'M'.toUInt8 then some .mkcol
  else if ch = 'N'.toUInt8 then some .notify
  else if ch = 'O'.toUInt8 then some .options
  else if ch = 'P'.toUInt8 then some .post
  else if ch = 'R'.toUInt8 then some .report
  else if ch = 'S'.toUInt8 then some .subscribe
  else if ch = 'T'.toUInt8 then some .trace
  else if ch = 'U'.toUInt8 then some .unlock
  else none

/-- `start_req_method_assign` -/
def startReqMethodAssign (c : Parser) (ch : UInt8) : Step :=
  match Method.first ch with
  | some m => .next { c with method := m, index := 1, state := .reqMethod }
  | none => error { c with method := .delete, index := 1 }

/-- A new message. -/
def Parser.begin (c : Parser) : Parser := { c with flags := .none, contentLength := -1 }

def startReqOrRes (c : Parser) (ch : UInt8) : Step :=
  if ch = cr ∨ ch = lf then .next c
  else
    let c := c.begin
    callback2 .messageBegin c
      (if ch = 'H'.toUInt8 then goto c .resOrRespH
      else startReqMethodAssign { c with type := .request } ch)

def resOrRespH (c : Parser) (ch : UInt8) : Step :=
  if ch = 'T'.toUInt8 then .next { c with type := .response, state := .resHT }
  else if ch ≠ 'E'.toUInt8 then error c
  else .next { c with type := .request, method := .head, index := 2, state := .reqMethod }

def startRes (c : Parser) (ch : UInt8) : Step :=
  let c := c.begin
  callback2 .messageBegin c
    (if ch = 'H'.toUInt8 then goto c .resH
    else if ch = cr ∨ ch = lf then .next c
    else error c)

def startReq (c : Parser) (ch : UInt8) : Step :=
  if ch = cr ∨ ch = lf then .next c
  else
    let c := c.begin
    callback2 .messageBegin c
      (if ch < 'A'.toUInt8 ∨ 'Z'.toUInt8 < ch then error c else startReqMethodAssign c ch)

/-- The method after a byte that is not the one expected: one that begins in the same way, or for
two of the methods still the same one. -/
def Method.next (m : Method) (index : ℕ) (ch : UInt8) : Option Method :=
  if m = .connect then
    if index = 1 ∧ ch = 'H'.toUInt8 then some .checkout
    else if index = 2 ∧ ch = 'P'.toUInt8 then some .copy
    else some m
  else if m = .mkcol then
    if index = 1 ∧ ch = 'O'.toUInt8 then some .move
    else if index = 1 ∧ ch = 'E'.toUInt8 then some .merge
    else if index = 1 ∧ ch = '-'.toUInt8 then some .msearch
    else if index = 2 ∧ ch = 'A'.toUInt8 then some .mkactivity
    else some m
  else if index = 1 ∧ m = .post ∧ ch = 'R'.toUInt8 then some .propfind
  else if index = 1 ∧ m = .post ∧ ch = 'U'.toUInt8 then some .put
  else if index = 2 ∧ m = .unlock ∧ ch = 'S'.toUInt8 then some .unsubscribe
  else if index = 4 ∧ m = .propfind ∧ ch = 'P'.toUInt8 then some .proppatch
  else none

def reqMethod (c : Parser) (ch : UInt8) : Step :=
  if ch = 0 then error c
  else
    match c.method.matcher c.index with
    | none => .stop .overread c
    | some b =>
      if ch = ' '.toUInt8 ∧ b = 0 then
        .next { c with state := .reqSpacesBeforeUrl, index := c.index + 1 }
      else if ch = b then .next { c with index := c.index + 1 }
      else
        match c.method.next c.index ch with
        | some m => .next { c with method := m, index := c.index + 1 }
        | none => error c

/-! ## The URL -/

/-- Callbacks one after the other. -/
def callbacks (ds : List Kind) (c : Parser) (rest : Step) : Step :=
  ds.foldr (fun d rest ↦ callback d c rest) rest

/-- The end of a URL that is open together with `ds`: a version follows, or the line ends and the
version is 0.9. -/
def urlEnd (ds : List Kind) (c : Parser) (ch : UInt8) (other : Step) : Step :=
  if ch = ' '.toUInt8 then callbacks (.url :: ds) c (goto c .reqHttpStart)
  else if ch = cr then
    callbacks (.url :: ds) c
      (.next { c with httpMajor := 0, httpMinor := 9, state := .reqLineAlmostDone })
  else if ch = lf then
    callbacks (.url :: ds) c
      (.next { c with httpMajor := 0, httpMinor := 9, state := .headerFieldStart })
  else other

def reqSpacesBeforeUrl (c : Parser) (ch : UInt8) : Step :=
  if ch = ' '.toUInt8 then .next c
  else if ch = '/'.toUInt8 ∨ ch = '*'.toUInt8 then .mark .url (.mark .path (goto c .reqPath))
  else if isAlpha ch then .mark .url (goto c .reqSchema)
  else error c

def reqSchema (c : Parser) (ch : UInt8) : Step :=
  if isAlpha ch then .next c
  else if ch = ':'.toUInt8 then goto c .reqSchemaSlash
  else if ch = '.'.toUInt8 then goto c .reqHost
  else if isDigit ch then goto c .reqHost
  else error c

/-- The end of a host or of a port. -/
def authorityEnd (c : Parser) (ch : UInt8) (other : Step) : Step :=
  if ch = '/'.toUInt8 then .mark .path (goto c .reqPath)
  else if ch = ' '.toUInt8 then callback .url c (goto c .reqHttpStart)
  else other

def reqHost (c : Parser) (ch : UInt8) : Step :=
  if isAlpha ch then .next c
  else if isDigit ch ∨ ch = '.'.toUInt8 ∨ ch = '-'.toUInt8 then .next c
  else if ch = ':'.toUInt8 then goto c .reqPort
  else authorityEnd c ch (error c)

def reqPort (c : Parser) (ch : UInt8) : Step :=
  if isDigit ch then .next c else authorityEnd c ch (error c)

def reqPath (c : Parser) (ch : UInt8) : Step :=
  if normalUrlChar ch then .next c
  else urlEnd [.path] c ch
    (if ch = '?'.toUInt8 then callback .path c (goto c .reqQueryStringStart)
    else if ch = '#'.toUInt8 then callback .path c (goto c .reqFragmentStart)
    else error c)

def reqQueryStringStart (c : Parser) (ch : UInt8) : Step :=
  if normalUrlChar ch then .mark .queryString (goto c .reqQueryString)
  else urlEnd [] c ch
    (if ch = '?'.toUInt8 then .next c
    else if ch = '#'.toUInt8 then goto c .reqFragmentStart
    else error c)

def reqQueryString (c : Parser) (ch : UInt8) : Step :=
  if normalUrlChar ch then .next c
  else urlEnd [.queryString] c ch
    (if ch = '?'.toUInt8 then .next c
    else if ch = '#'.toUInt8 then callback .queryString c (goto c .reqFragmentStart)
    else error c)

def reqFragmentStart (c : Parser) (ch : UInt8) : Step :=
  if normalUrlChar ch then .mark .fragment (goto c .reqFragment)
  else urlEnd [] c ch
    (if ch = '?'.toUInt8 then .mark .fragment (goto c .reqFragment)
    else if ch = '#'.toUInt8 then .next c
    else error c)

def reqFragment (c : Parser) (ch : UInt8) : Step :=
  if normalUrlChar ch then .next c
  else urlEnd [.fragment] c ch
    (if ch = '?'.toUInt8 ∨ ch = '#'.toUInt8 then .next c else error c)

def reqHttpStart (c : Parser) (ch : UInt8) : Step :=
  if ch = 'H'.toUInt8 then goto c .reqHttpH
  else if ch = ' '.toUInt8 then .next c
  else error c

/-! ## Headers -/

/-- The next byte of a word that is being matched, in lower case. -/
def matchWord (word : String) (found : HeaderState) (c : Parser) (b : UInt8) : Parser :=
  let index := c.index + 1
  if index > word.length ∨ b ≠ (text word ++ [0]).getD index 0 then
    { c with index := index, headerState := .general }
  else if index = word.length - 1 then { c with index := index, headerState := found }
  else { c with index := index }

def headerFieldStart (c : Parser) (ch : UInt8) (headersAlmostDone : Parser → Step) : Step :=
  if ch = cr then goto c .headersAlmostDone
  else if ch = lf then headersAlmostDone { c with state := .headersAlmostDone }
  else if token ch = 0 then error c
  else
    let start (h : HeaderState) : Step :=
      .mark .headerField (.next { c with index := 0, state := .headerField, headerState := h })
    if token ch = 'c'.toUInt8 then start .c
    else if token ch = 'p'.toUInt8 then start .matchingProxyConnection
    else if token ch = 't'.toUInt8 then start .matchingTransferEncoding
    else if token ch = 'u'.toUInt8 then start .matchingUpgrade
    else start .general

/-- The names that `h_C`, `h_CO` and `h_CON` go on to. -/
def nextPrefix (c : Parser) (h : HeaderState) : Step :=
  .next { c with index := c.index + 1, headerState := h }

/-- A byte of the name of a header. -/
def headerName (c : Parser) (ch : UInt8) : Step :=
  let b := token ch
  match c.headerState with
  | .general => .next c
  | .c => nextPrefix c (if b = 'o'.toUInt8 then .co else .general)
  | .co => nextPrefix c (if b = 'n'.toUInt8 then .con else .general)
  | .con =>
    nextPrefix c
      (if b = 'n'.toUInt8 then .matchingConnection
      else if b = 't'.toUInt8 then .matchingContentLength
      else .general)
  | .matchingConnection => .next (matchWord "connection" .connection c b)
  | .matchingProxyConnection => .next (matchWord "proxy-connection" .connection c b)
  | .matchingContentLength => .next (matchWord "content-length" .contentLength c b)
  | .matchingTransferEncoding => .next (matchWord "transfer-encoding" .transferEncoding c b)
  | .matchingUpgrade => .next (matchWord "upgrade" .upgrade c b)
  | .connection | .contentLength | .transferEncoding | .upgrade =>
    if ch ≠ ' '.toUInt8 then .next { c with headerState := .general } else .next c
  | _ => .stop .assertion c

def headerField (c : Parser) (ch : UInt8) : Step :=
  if token ch ≠ 0 then headerName c ch
  else if ch = ':'.toUInt8 then callback .headerField c (goto c .headerValueStart)
  else if ch = cr then
    let c := { c with state := .headerAlmostDone }
    callback .headerField c (.next c)
  else if ch = lf then callback .headerField c (goto c .headerFieldStart)
  else error c

def headerValueStart (c : Parser) (ch : UInt8) : Step :=
  if ch = ' '.toUInt8 then .next c
  else
    .mark .headerValue
      (let c := { c with state := .headerValue, index := 0 }
      if ch = cr then
        callback .headerValue c
          (.next { c with headerState := .general, state := .headerAlmostDone })
      else if ch = lf then callback .headerValue c (goto c .headerFieldStart)
      else
        match c.headerState with
        | .upgrade => .next { c with flags.upgrade := true, headerState := .general }
        | .transferEncoding =>
          if lower ch = 'c'.toUInt8 then
            .next { c with headerState := .matchingTransferEncodingChunked }
          else .next { c with headerState := .general }
        | .contentLength =>
          if ¬isDigit ch then error c else .next { c with contentLength := digit ch }
        | .connection =>
          if lower ch = 'k'.toUInt8 then
            .next { c with headerState := .matchingConnectionKeepAlive }
          else if lower ch = 'c'.toUInt8 then
            .next { c with headerState := .matchingConnectionClose }
          else .next { c with headerState := .general }
        | _ => .next { c with headerState := .general })

def headerAlmostDone (strict : Bool) (c : Parser) (ch : UInt8) : Step :=
  strictCheck strict ch lf c
    (let c := { c with state := .headerFieldStart }
    match c.headerState with
    | .connectionKeepAlive => .next { c with flags.connectionKeepAlive := true }
    | .connectionClose => .next { c with flags.connectionClose := true }
    | .transferEncodingChunked => .next { c with flags.chunked := true }
    | _ => .next c)

def headerValue (strict : Bool) (c : Parser) (ch : UInt8) : Step :=
  let b := lower ch
  if ch = cr then callback .headerValue c (goto c .headerAlmostDone)
  else if ch = lf then callback .headerValue c (headerAlmostDone strict c ch)
  else
    match c.headerState with
    | .general => .next c
    | .connection | .transferEncoding => .stop .assertion c
    | .contentLength =>
      if ch = ' '.toUInt8 then .next c
      else if ¬isDigit ch then error c
      else .next { c with contentLength := int64 (c.contentLength * 10 + digit ch) }
    | .matchingTransferEncodingChunked =>
      .next (matchWord "chunked" .transferEncodingChunked c b)
    | .matchingConnectionKeepAlive => .next (matchWord "keep-alive" .connectionKeepAlive c b)
    | .matchingConnectionClose => .next (matchWord "close" .connectionClose c b)
    | .transferEncodingChunked | .connectionKeepAlive | .connectionClose =>
      if ch ≠ ' '.toUInt8 then .next { c with headerState := .general } else .next c
    | _ => .next { c with headerState := .general }

/-- What follows the headers. -/
def headersCompleted (strict : Bool) (c : Parser) : Step :=
  if c.upgrade then callback2 .messageComplete c (.stop .upgrade c)
  else if c.flags.skipbody then complete strict c
  else if c.flags.chunked then goto c .chunkSizeStart
  else if c.contentLength = 0 then complete strict c
  else if c.contentLength > 0 then goto c .bodyIdentity
  else if c.type = .request ∨ c.shouldKeepAlive then complete strict c
  else goto c .bodyIdentityEof

def headersAlmostDone (strict : Bool) (ch : UInt8) (c : Parser) : Step :=
  strictCheck strict ch lf c
    (if c.flags.trailing then complete strict c
    else
      let c := { c with nread := 0 }
      let c := if c.flags.upgrade ∨ c.method = .connect then { c with upgrade := true } else c
      .notify (.headersComplete c.toMessage) fun r ↦
        if r = 0 then headersCompleted strict c
        else if r = 1 then headersCompleted strict { c with flags.skipbody := true }
        else .stop .halted c)

/-! ## Bodies -/

def bodyIdentity (strict : Bool) (c : Parser) (left : ℕ) : Step :=
  let toRead := min (left : ℤ) c.contentLength
  if toRead > 0 then
    .body toRead.toNat
      (let c := { c with contentLength := c.contentLength - toRead }
      if c.contentLength = 0 then complete strict c else .next c)
  else .next c

def chunkSizeStart (c : Parser) (ch : UInt8) : Step :=
  if unhex ch = -1 then error c
  else .next { c with contentLength := unhex ch, state := .chunkSize }

def chunkSize (c : Parser) (ch : UInt8) : Step :=
  if ch = cr then goto c .chunkSizeAlmostDone
  else if unhex ch = -1 then
    if ch = ';'.toUInt8 ∨ ch = ' '.toUInt8 then goto c .chunkParameters else error c
  else .next { c with contentLength := int64 (c.contentLength * 16 + unhex ch) }

def chunkSizeAlmostDone (c : Parser) : Step :=
  if c.contentLength = 0 then .next { c with flags.trailing := true, state := .headerFieldStart }
  else goto c .chunkData

def chunkData (c : Parser) (left : ℕ) : Step :=
  let toRead := min (left : ℤ) c.contentLength
  let c' := { c with
    state := if toRead = c.contentLength then .chunkDataAlmostDone else c.state
    contentLength := c.contentLength - toRead }
  if toRead > 0 then .body toRead.toNat (.next c') else .next c'

/-- `assert(parser->flags & F_CHUNKED)` -/
def assertChunked (c : Parser) (rest : Step) : Step :=
  if c.flags.chunked then rest else .stop .assertion c

/-! ## The loop -/

/-- `switch (state)` -/
def switch (strict : Bool) (c : Parser) (ch : UInt8) (left : ℕ) : Step :=
  match c.state with
  | .dead => error c
  | .startReqOrRes => startReqOrRes c ch
  | .resOrRespH => resOrRespH c ch
  | .startRes => startRes c ch
  | .resH => strictCheck strict ch 'T'.toUInt8 c (goto c .resHT)
  | .resHT => strictCheck strict ch 'T'.toUInt8 c (goto c .resHTT)
  | .resHTT => strictCheck strict ch 'P'.toUInt8 c (goto c .resHTTP)
  | .resHTTP => strictCheck strict ch '/'.toUInt8 c (goto c .resFirstHttpMajor)
  | .resFirstHttpMajor => firstHttpMajor c ch .resHttpMajor
  | .resHttpMajor => httpMajor c ch .resFirstHttpMinor
  | .resFirstHttpMinor => firstHttpMinor c ch .resHttpMinor
  | .resHttpMinor => if ch = ' '.toUInt8 then goto c .resFirstStatusCode else httpMinor c ch
  | .resFirstStatusCode => resFirstStatusCode c ch
  | .resStatusCode => resStatusCode c ch
  | .resStatus =>
    if ch = cr then goto c .resLineAlmostDone
    else if ch = lf then goto c .headerFieldStart
    else .next c
  | .resLineAlmostDone => strictCheck strict ch lf c (goto c .headerFieldStart)
  | .startReq => startReq c ch
  | .reqMethod => reqMethod c ch
  | .reqSpacesBeforeUrl => reqSpacesBeforeUrl c ch
  | .reqSchema => reqSchema c ch
  | .reqSchemaSlash => strictCheck strict ch '/'.toUInt8 c (goto c .reqSchemaSlashSlash)
  | .reqSchemaSlashSlash => strictCheck strict ch '/'.toUInt8 c (goto c .reqHost)
  | .reqHost => reqHost c ch
  | .reqPort => reqPort c ch
  | .reqPath => reqPath c ch
  | .reqQueryStringStart => reqQueryStringStart c ch
  | .reqQueryString => reqQueryString c ch
  | .reqFragmentStart => reqFragmentStart c ch
  | .reqFragment => reqFragment c ch
  | .reqHttpStart => reqHttpStart c ch
  | .reqHttpH => strictCheck strict ch 'T'.toUInt8 c (goto c .reqHttpHT)
  | .reqHttpHT => strictCheck strict ch 'T'.toUInt8 c (goto c .reqHttpHTT)
  | .reqHttpHTT => strictCheck strict ch 'P'.toUInt8 c (goto c .reqHttpHTTP)
  | .reqHttpHTTP => strictCheck strict ch '/'.toUInt8 c (goto c .reqFirstHttpMajor)
  | .reqFirstHttpMajor => firstHttpMajor c ch .reqHttpMajor
  | .reqHttpMajor => httpMajor c ch .reqFirstHttpMinor
  | .reqFirstHttpMinor => firstHttpMinor c ch .reqHttpMinor
  | .reqHttpMinor =>
    if ch = cr then goto c .reqLineAlmostDone
    else if ch = lf then goto c .headerFieldStart
    else httpMinor c ch
  | .reqLineAlmostDone => if ch ≠ lf then error c else goto c .headerFieldStart
  | .headerFieldStart => headerFieldStart c ch (headersAlmostDone strict ch)
  | .headerField => headerField c ch
  | .headerValueStart => headerValueStart c ch
  | .headerValue => headerValue strict c ch
  | .headerAlmostDone => headerAlmostDone strict c ch
  | .headersAlmostDone => headersAlmostDone strict ch c
  | .bodyIdentity => bodyIdentity strict c left
  | .bodyIdentityEof => if left > 0 then .body left (.next c) else .next c
  | .chunkSizeStart => assertChunked c (chunkSizeStart c ch)
  | .chunkSize => assertChunked c (chunkSize c ch)
  | .chunkParameters =>
    assertChunked c (if ch = cr then goto c .chunkSizeAlmostDone else .next c)
  | .chunkSizeAlmostDone =>
    assertChunked c (strictCheck strict ch lf c (chunkSizeAlmostDone c))
  | .chunkData => assertChunked c (chunkData c left)
  | .chunkDataAlmostDone =>
    assertChunked c (strictCheck strict ch cr c (goto c .chunkDataDone))
  | .chunkDataDone => assertChunked c (strictCheck strict ch lf c (goto c .chunkSizeStart))

/-- One turn of the loop. -/
def step (strict : Bool) (c : Parser) (ch : UInt8) (left : ℕ) : Step :=
  if c.state.isHeader ∧ ¬c.flags.trailing then
    let c := { c with nread := c.nread + 1 }
    if c.nread > maxHeaderSize then error c else switch strict c ch left
  else switch strict c ch left

/-- The marks that a chunk begins with. -/
def opens : State → Finset Kind
  | .headerField => {.headerField}
  | .headerValue => {.headerValue}
  | .reqFragment => {.url, .fragment}
  | .reqQueryString => {.url, .queryString}
  | .reqPath => {.url, .path}
  | .reqSchema | .reqSchemaSlash | .reqSchemaSlashSlash | .reqPort | .reqQueryStringStart
  | .reqHost | .reqFragmentStart => {.url}
  | _ => ∅

def scanner (strict : Bool) : Scanner UInt8 Parser Kind Notice Exit where
  step := step strict
  opens c := opens c.state
  order := [.headerField, .headerValue, .fragment, .queryString, .path, .url]
  refused := .refused

/-! ## Calls -/

abbrev Settings (σ : Type*) := Scanner.Consumer UInt8 Kind Notice σ

/-- What a call leaves in the parser where it does not store its copies. -/
def leave (before : Parser) (r : Exit) (c : Parser) : Parser :=
  { c with
    state := match r with
      | .error => .dead
      | .halted => c.state
      | _ => before.state
    headerState := before.headerState
    index := before.index
    nread := before.nread }

/-- What the copies are stored in: eight bits for `index`, 32 bits for `nread`. -/
def save (c : Parser) : Parser := { c with index := c.index % 2 ^ 8, nread := c.nread % 2 ^ 32 }

/-- The result of a call. -/
inductive Result (σ : Type*) where
  /-- The number of bytes that is returned. -/
  | returned (parser : Parser) (nparsed : ℕ) (user : σ)
  | assertion (user : σ)
  | overread (user : σ)
  deriving DecidableEq, Repr

variable {σ : Type*}

/-- The end of the input: a call without a byte. -/
def finish (settings : Settings σ) (parser : Parser) (user : σ) : Result σ :=
  match parser.state with
  | .bodyIdentityEof =>
    .returned parser 0 (settings.notify (.messageComplete parser.toMessage) user).1
  | .dead | .startReqOrRes | .startRes | .startReq => .returned parser 0 user
  | _ => .returned parser 1 user

/-- `http_parser_execute` -/
def execute (strict : Bool) (settings : Settings σ) (parser : Parser) (data : List UInt8)
    (user : σ) : Result σ :=
  if data = [] then finish settings parser user
  else
    match (scanner strict).execute settings data parser user with
    | .ok c user => .returned (save c) data.length user
    | .stopped .assertion _ _ user => .assertion user
    | .stopped .overread _ _ user => .overread user
    | .stopped r c p user => .returned (leave parser r c) p user

/-- `http_parser_init`; the fields that are not set keep what they hold. -/
def Parser.init (parser : Parser) (t : ParserType) : Parser :=
  { parser with
    type := t
    state := match t with
      | .request => .startReq
      | .response => .startRes
      | .both => .startReqOrRes
    nread := 0
    upgrade := false
    flags := .none
    method := .delete }

end SpiderNode.HttpParser
