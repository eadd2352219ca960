import SpiderNode.Http.Ending
import SpiderNode.Http.Framing

/-!
# Responses without a body

A response to a `HEAD` request has no body, and neither has one with status 204, 304 or 1xx. `write`
ignores what it is passed then. `end` does not: its shortcut sends the data along with the header
block, and it sends the last chunk of a chunked message even if nothing but a header made it
chunked.

A handler sets headers and a status, may write the head, writes and ends. `bodiless_iff` says for
which of them nothing follows the header block.
-/

namespace SpiderNode.Http

open Net (JsError)

/-! ## Handlers -/

/-- A call on a response without a header block. -/
inductive HeaderCall where
  | setHeader (name : JSString) (value : HeaderValue)
  | removeHeader (name : JSString)
  /-- `res.statusCode = statusCode` -/
  | statusCode (statusCode : ℕ)

/-- The arguments of `writeHead`. -/
structure WriteHead where
  statusCode : ℕ
  reasonPhrase : Option JSString
  headers : Option HeaderSet

/-- What the handler of a request does. -/
structure Handler where
  calls : List HeaderCall
  head : Option WriteHead
  writes : List Entry
  data : Option Chunk
  encoding : Option TextEncoding

/-- A request, and where its response stands: it owns the socket or waits for it. -/
structure Exchange where
  isHead : Bool
  major : ℕ
  minor : ℕ
  shouldKeepAlive : Bool
  expectContinue : Bool
  attached : Bool
  flushes : Bool

/-- The response that the handler gets. -/
def Exchange.response (x : Exchange) : Message :=
  { serverResponse x.isHead x.major x.minor with
    shouldKeepAlive := x.shouldKeepAlive
    expectContinue := x.expectContinue
    connection := if x.attached then some ⟨true, true, x.flushes⟩ else none }

section

variable (lower : JSString → JSString) (inherited : JSString → Option JSString)

def HeaderCall.run : HeaderCall → Op Unit
  | setHeader name value => Message.setHeader lower name value
  | removeHeader name => Message.removeHeader lower name
  | statusCode code => modify fun m ↦ { m with statusCode := code }

def runHead : Option WriteHead → Op Unit
  | some h => Message.writeHead inherited h.statusCode h.reasonPhrase h.headers
  | none => return

def runCalls : List HeaderCall → Op Unit
  | [] => return
  | c :: calls => do
    c.run lower
    runCalls calls

def runWrites : List Entry → Op Unit
  | [] => return
  | (c, e) :: writes => do
    let _ ← Message.write c e
    runWrites writes

def Handler.run (h : Handler) : Op Unit := do
  runCalls lower h.calls
  runHead inherited h.head
  runWrites h.writes
  let _ ← Message.end h.data h.encoding

/-- The handler, and then the socket if the response had to wait for it. -/
def Exchange.run (x : Exchange) (h : Handler) : Op Unit := do
  h.run lower inherited
  if !x.attached then Message.assignSocket true x.flushes

end

namespace Message

variable {lower : JSString → JSString} {inherited : JSString → Option JSString}
variable {m : Message} {e : Option TextEncoding}

/-! ## Before the header block -/

/-- The fields that calls on the headers change. -/
theorem runCalls_apply (lower : JSString → JSString) (calls : List HeaderCall)
    (h : m.header = none) :
    ∃ headers code, runCalls lower calls m =
      .ok ⟨⟩ { m with headers := headers, statusCode := code } := by
  induction calls generalizing m with
  | nil => exact ⟨m.headers, m.statusCode, rfl⟩
  | cons c calls ih =>
    have hc : ∃ headers code, c.run lower m =
        .ok ⟨⟩ { m with headers := headers, statusCode := code } := by
      cases c with
      | setHeader name value =>
        exact ⟨_, m.statusCode, by simp [HeaderCall.run, setHeader, h]; rfl⟩
      | removeHeader name => exact ⟨_, m.statusCode, by simp [HeaderCall.run, removeHeader, h]; rfl⟩
      | statusCode code => exact ⟨m.headers, code, rfl⟩
    obtain ⟨headers, code, hc⟩ := hc
    obtain ⟨headers', code', hr⟩ := ih (m := { m with headers := headers, statusCode := code }) h
    exact ⟨headers', code', by simp only [runCalls, Op.bind_apply, hc, hr]⟩

/-- The message that `writeHead`, called or implied, leaves. -/
def headed (m : Message) (inherited : JSString → Option JSString) (head : Option WriteHead) :
    Message :=
  let code := (head.map WriteHead.statusCode).getD m.statusCode
  after (storeHeader (statusLine code (head.bind WriteHead.reasonPhrase))
    (headerLines (headFields inherited m (head.bind WriteHead.headers))) (m.withStatus code))

theorem storeHeader_apply (firstLine : JSString) (lines : List (JSString × JSString))
    (m : Message) :
    storeHeader firstLine lines m = .ok ⟨⟩ (after (storeHeader firstLine lines m)) ∧
      (after (storeHeader firstLine lines m)).header.isSome = true := by
  obtain ⟨m', hm, hf, -⟩ := storeHeader_ok firstLine lines m
  rw [hm, after_ok]
  refine ⟨rfl, ?_⟩
  rw [hf.eq]
  rfl

/-- Whether or not the handler writes the head, the header block is the same afterwards. -/
theorem runHead_ensured (inherited : JSString → Option JSString) (hr : m.role = .response)
    (h : m.header = none)
    (head : Option WriteHead) :
    ∃ m', runHead inherited head m = .ok ⟨⟩ m' ∧ m'.ensured = m.headed inherited head := by
  cases head with
  | none =>
    refine ⟨m, rfl, ?_⟩
    have hi : implicitHeader m = storeHeader (statusLine m.statusCode none)
        (headerLines (headFields inherited m none)) (m.withStatus m.statusCode) := by
      simp only [implicitHeader, Op.bind_apply, Op.get_apply, hr, writeHead_apply h]
      cases hh : m.headers <;> simp [headFields, hh]
    simp only [ensured, ensureHeader, Op.bind_apply, Op.get_apply, h, Option.isNone_none, if_true,
      hi]
    rfl
  | some head =>
    obtain ⟨hs, hsome⟩ := storeHeader_apply (statusLine head.statusCode head.reasonPhrase)
      (headerLines (headFields inherited m head.headers)) (m.withStatus head.statusCode)
    refine ⟨_, ?_, ensured_of_isSome hsome⟩
    rw [runHead, writeHead_apply h]
    exact hs

/-! ## Writing nothing -/

theorem write_bodiless (h : m.ensured.hasBody = false) (c : Chunk) (e : Option TextEncoding) :
    write c e m = .ok true m.ensured := by
  simp only [write, Op.bind_apply, (ensureHeader_apply m).1, writeBody_bodiless h]

theorem runWrites_bodiless (writes : List Entry) (h : m.ensured.hasBody = false) :
    ∃ m', runWrites writes m = .ok ⟨⟩ m' ∧ m'.ensured = m.ensured := by
  induction writes generalizing m with
  | nil => exact ⟨m, rfl, rfl⟩
  | cons w writes ih =>
    have hi := ensured_of_isSome (ensureHeader_apply m).2
    obtain ⟨m', hr, hm⟩ := ih (m := m.ensured) (by rw [hi]; exact h)
    refine ⟨m', ?_, by rw [hm, hi]⟩
    simp only [runWrites, Op.bind_apply, write_bodiless h, hr]

theorem writeData_bodiless (hh : m.header.isSome = true) (h : m.hasBody = false)
    (data : Option Chunk) (e : Option TextEncoding) : writeData data e m = .ok ⟨⟩ m := by
  have hw : ∀ c, write c e m = .ok true m := fun c ↦ by
    rw [write_apply hh, writeBody_bodiless h]
  rcases data with _ | (_ | ⟨u, s⟩) | b
  · rfl
  · rfl
  · simp only [writeData, Op.bind_apply, hw, Op.pure_apply]
  · simp only [writeData, Op.bind_apply, hw, Op.pure_apply]

/-! ## Ending -/

/-- `end` on a message without a body that waits for its socket: the last chunk joins the header
block. -/
theorem end_bodiless_kept (hh : m.header.isSome = true) (hb : m.hasBody = false)
    (data : Option Chunk) (hc : m.connection = none)
    (ho : m.headerSent = false ∧ m.output = [] ∨
      m.headerSent = true ∧ m.output = [(.str m.headerText, none)]) :
    ∃ r, «end» data e m =
      .ok r { m with
        output := [(.str (m.headerText ++ m.lastText), none)], headerSent := true
        finished := true } := by
  have ha : m.attached = false := by simp [attached, hc]
  have hot : m.hot data = none := hot_eq_none_of_not_attached data ha
  obtain ⟨t, ht⟩ := headerText_eq hh
  have hjoin : joinOutput m.output (.str (m.unsent ++ m.lastText)) none =
      .ok [(.str (m.headerText ++ m.lastText), none)] := by
    rcases ho with ⟨hs, ho⟩ | ⟨hs, ho⟩
    · rw [ho, unsent, hs]
      simp [joinOutput, Chunk.length, ht]
    · rw [ho, unsent, hs]
      rcases eq_or_ne m.lastText [] with hl | hl
      · simp [joinOutput, Chunk.length, hl]
      · simp [joinOutput, Chunk.length, hl]
  have hsend : sendLast m =
      .ok false { m with
        output := [(.str (m.headerText ++ m.lastText), none)], headerSent := true } := by
    rw [sendLast_eq, send_str_kept ha, hjoin]
  refine ⟨false, ?_⟩
  simp only [«end», Op.bind_apply, ensureHeader_of_isSome hh, Op.get_apply, hot,
    writeData_bodiless hh hb, Op.pure_apply, hsend]
  simp [endFinish]

/-! ## What follows the header block -/

/-- The header block is sent once, at the start, and no byte follows it. -/
def OnlyHeader (m : Message) : Prop :=
  m.output = [] ∧ ∃ x e rest, m.wire = (.str (m.headerText ++ x), e) :: rest ∧
    encodeText e x ++ entriesBytes rest = []

theorem onlyHeader_iff (x : JSString) (rest : List Entry) (ho : m.output = [])
    (hw : m.wire = (.str (m.headerText ++ x), e) :: rest) :
    OnlyHeader m ↔ encodeText e x ++ entriesBytes rest = [] := by
  constructor
  · rintro ⟨-, x', e', rest', hw', h⟩
    rw [hw] at hw'
    obtain ⟨⟨hx, rfl⟩, rfl⟩ : (x = x' ∧ e = e') ∧ rest = rest' := by simpa using hw'
    rw [hx]
    exact h
  · exact fun h ↦ ⟨ho, x, e, rest, hw, h⟩

theorem encodeText_lastText_eq_nil (m : Message) :
    encodeText none m.lastText = [] ↔ m.chunkedEncoding = false := by
  rw [lastText]
  cases m.chunkedEncoding with
  | false => simp
  | true => simp [encodeText_lastChunk, latin1Bytes, crlf]

theorem encodeText_hotText_eq_nil (m : Message) (e : Option TextEncoding) (s : JSString) :
    encodeText e (m.hotText e s) = [] ↔ m.chunkedEncoding = false ∧ encodeText e s = [] := by
  rw [hotText]
  cases m.chunkedEncoding with
  | false => simp
  | true => simp [encodeText_chunkText, latin1Bytes, crlf]

/-- A message that has a header block and nothing else yet; the block is sent already if the other
side is to be asked to go on. -/
structure Ready (m : Message) (expect attached : Bool) : Prop where
  role : m.role = .response
  header : m.header.isSome = true
  hasBody : m.hasBody = false
  headerSent : m.headerSent = expect
  connection : m.connection = none ∧ attached = false ∨ m.attached = true ∧ attached = true
  entries : m.wire ++ m.output = if expect then [(.str m.headerText, none)] else []
  output : attached = true → m.output = []
  wire : attached = false → m.wire = []

theorem storeHeader_ready {attached : Bool} (firstLine : JSString)
    (lines : List (JSString × JSString)) (hr : m.role = .response) (hb : m.hasBody = false)
    (hc : m.connection = none ∧ attached = false ∨ m.attached = true ∧ attached = true)
    (hw : m.wire = []) (ho : m.output = []) :
    Ready (after (storeHeader firstLine lines m)) (lines.any isExpect) attached := by
  have hse : (m.draft firstLine lines).sentExpect = lines.any isExpect := by rw [draft_eq]; rfl
  have hH : (m.withDraft (m.draft firstLine lines)).header.isSome = true := rfl
  have hout : (m.withDraft (m.draft firstLine lines)).output = [] := ho
  have hwire : (m.withDraft (m.draft firstLine lines)).wire = [] := hw
  have hun : (m.withDraft (m.draft firstLine lines)).unsent =
      (m.withDraft (m.draft firstLine lines)).headerText := rfl
  simp only [storeHeader, Op.bind_apply, Op.get_apply, Op.set_apply, hse]
  have hrole : (m.withDraft (m.draft firstLine lines)).role = .response := hr
  have hbody : (m.withDraft (m.draft firstLine lines)).hasBody = false := hb
  have hsent : (m.withDraft (m.draft firstLine lines)).headerSent = false := rfl
  have hcon : (m.withDraft (m.draft firstLine lines)).connection = none ∧ attached = false ∨
      (m.withDraft (m.draft firstLine lines)).attached = true ∧ attached = true := hc
  generalize m.withDraft (m.draft firstLine lines) = w at *
  -- with `Expect` the header is sent at once, by a call without data
  cases lines.any isExpect with
  | false =>
    simp only [Bool.false_eq_true, if_false, Op.pure_apply, after_ok]
    exact ⟨hrole, hH, hbody, hsent, hcon, by simp [hwire, hout], fun _ ↦ hout, fun _ ↦ hwire⟩
  | true =>
    simp only [if_true, Op.bind_apply]
    rcases hcon with ⟨hcon, rfl⟩ | ⟨hcon, rfl⟩
    · have ha : w.attached = false := by simp [attached, hcon]
      obtain ⟨t, ht⟩ := headerText_eq hH
      have hjoin : joinOutput w.output (.str (w.unsent ++ [])) none =
          .ok [(.str w.headerText, none)] := by
        rw [hout, hun]
        simp [joinOutput, Chunk.length, ht]
      rw [send_str_kept ha, hjoin]
      simp only [Op.pure_apply, after_ok]
      exact ⟨hrole, hH, hbody, rfl, .inl ⟨hcon, rfl⟩, by simp [hwire, headerText], by simp,
        fun _ ↦ hwire⟩
    · obtain ⟨r, hs⟩ := send_str_attached hcon [] none
      rw [hs]
      simp only [Op.pure_apply, after_ok]
      exact ⟨hrole, hH, hbody, rfl, .inr ⟨hcon, rfl⟩, by
        simp [passed, hwire, hout, hun, headerText], fun _ ↦ rfl, by simp⟩

/-- Without a body, only a header makes a message chunked. -/
theorem chunkedEncoding_storeHeader (firstLine : JSString) (lines : List (JSString × JSString))
    (hb : m.hasBody = false) (hc : m.chunkedEncoding = false) :
    (after (storeHeader firstLine lines m)).chunkedEncoding = lines.any isChunked := by
  obtain ⟨m', hm, hf, -⟩ := storeHeader_ok firstLine lines m
  have hd : m'.chunkedEncoding = (m.draft firstLine lines).chunkedEncoding := by
    rw [hf.eq, withDraft]
  rw [hm, after_ok, hd, draft_eq, hb, hc]
  cases hfr : framed lines with
  | true => simp
  | false =>
    have hno : lines.any isChunked = false := by
      rw [framed, Bool.or_eq_false_iff, List.any_eq_false, List.any_eq_false] at hfr
      rw [List.any_eq_false]
      intro l hl
      simp [isChunked, hfr.2 l hl]
    simp [hno]

/-- A response that has sent nothing and has no header block yet. -/
structure Unstarted (m : Message) (attached : Bool) : Prop where
  role : m.role = .response
  header : m.header = none
  chunkedEncoding : m.chunkedEncoding = false
  connection : m.connection = none ∧ attached = false ∨ m.attached = true ∧ attached = true
  wire : m.wire = []
  output : m.output = []

/-- What `writeHead` makes of it, if the status and the request leave it without a body. -/
theorem Unstarted.headed {attached : Bool} (h : Unstarted m attached)
    (inherited : JSString → Option JSString) (head : Option WriteHead)
    (hb : (m.withStatus ((head.map WriteHead.statusCode).getD m.statusCode)).hasBody = false) :
    Ready (m.headed inherited head)
        ((headerLines (headFields inherited m (head.bind WriteHead.headers))).any isExpect) attached ∧
      (m.headed inherited head).chunkedEncoding =
        (headerLines (headFields inherited m (head.bind WriteHead.headers))).any isChunked :=
  ⟨storeHeader_ready _ _ h.role hb h.connection h.wire h.output,
    chunkedEncoding_storeHeader _ _ hb h.chunkedEncoding⟩

/-- `end` on a message that is ready, and then the socket if the message had to wait for it. -/
theorem end_ready {expect attached f : Bool} (h : Ready m expect attached) (data : Option Chunk)
    (e : Option TextEncoding) :
    ∃ r m', «end» data e m = .ok r m' ∧
      ∃ m'', (if !attached then assignSocket true f else pure ⟨⟩ : Op Unit) m' = .ok ⟨⟩ m'' ∧
        (OnlyHeader m'' ↔ m.chunkedEncoding = false ∧ (attached = true → expect = false →
          ∀ s, data = some (.str s) → encodeText e s = [])) := by
  have hnil := encodeText_lastText_eq_nil m
  rcases h.connection with ⟨hc, rfl⟩ | ⟨ha, rfl⟩
  -- without a socket everything is kept until one is assigned
  · have hw := h.wire rfl
    have ho : m.headerSent = false ∧ m.output = [] ∨
        m.headerSent = true ∧ m.output = [(.str m.headerText, none)] := by
      have he := h.entries
      rw [hw, List.nil_append] at he
      rw [h.headerSent]
      cases expect
      · exact .inl ⟨rfl, he⟩
      · exact .inr ⟨rfl, he⟩
    obtain ⟨r, hr⟩ := end_bodiless_kept (e := e) h.header h.hasBody data hc ho
    refine ⟨r, _, hr, _, assignSocket_finished f rfl h.role, ?_⟩
    rw [onlyHeader_iff (e := none) m.lastText [] rfl (by rw [hw]; rfl)]
    simp [hnil]
  · have ho := h.output rfl
    have he := h.entries
    rw [ho, List.append_nil] at he
    have hun : m.unsent = if expect then [] else m.headerText := by rw [unsent, h.headerSent]
    -- the shortcut sends the data whether there is to be a body or not
    cases hhot : m.hot data with
    | some s =>
      obtain ⟨rfl, hs, hne, -⟩ := hot_eq_some hhot
      obtain rfl : expect = false := by rw [← h.headerSent, hs]
      obtain ⟨r, hr⟩ := end_hot (e := e) h.header hhot
      refine ⟨r, _, hr, _, rfl, ?_⟩
      rw [onlyHeader_iff (e := e) (m.hotText e s) [] rfl (by
        simp [passed, ended, he, ho, hun, headerText])]
      simp [encodeText_hotText_eq_nil]
    | none =>
      obtain ⟨r, hr⟩ := end_cold h.header hhot (writeData_bodiless h.header h.hasBody data e) ha
      refine ⟨r, _, hr, _, rfl, ?_⟩
      cases expect with
      | true =>
        rw [onlyHeader_iff (e := none) [] [(.str m.lastText, none)] rfl (by
          simp [passed, ended, he, ho, hun, headerText])]
        simp [entryBytes, hnil]
      | false =>
        rw [onlyHeader_iff (e := none) m.lastText [] rfl (by
          simp [passed, ended, he, ho, hun, headerText])]
        have hdata : ∀ s, data = some (.str s) → encodeText e s = [] := by
          rintro s rfl
          cases s with
          | nil => simp
          | cons u s => simp [hot, h.headerSent, ho, ha] at hhot
        simpa [hnil] using fun _ ↦ hdata

end Message

/-! ## Handlers of bodiless responses -/

/-- The response when its header block is rendered. -/
def Exchange.prepared (lower : JSString → JSString) (x : Exchange) (h : Handler) : Message :=
  Message.after (runCalls lower h.calls x.response)

/-- The status of the response. -/
def Exchange.status (lower : JSString → JSString) (x : Exchange) (h : Handler) : ℕ :=
  (h.head.map WriteHead.statusCode).getD (x.prepared lower h).statusCode

/-- The header lines of the response. -/
def Exchange.lines (lower : JSString → JSString) (inherited : JSString → Option JSString)
    (x : Exchange) (h : Handler) : List (JSString × JSString) :=
  headerLines (Message.headFields inherited (x.prepared lower h) (h.head.bind WriteHead.headers))

/-- **Responses without a body.** Nothing follows the header block exactly if no header asks for
chunks, and a response that owns its socket and has not sent the block yet is not ended with a
string that has bytes. -/
theorem bodiless_iff (lower : JSString → JSString) (inherited : JSString → Option JSString)
    (x : Exchange) (h : Handler)
    (hb : x.isHead = true ∨ Message.bodiless (x.status lower h) = true) :
    ∃ m, x.run lower inherited h x.response = .ok ⟨⟩ m ∧
      (m.OnlyHeader ↔ (x.lines lower inherited h).any Message.isChunked = false ∧
        (x.attached = true → (x.lines lower inherited h).any Message.isExpect = false →
          ∀ s, h.data = some (.str s) → encodeText h.encoding s = [])) := by
  obtain ⟨headers, code, hcalls⟩ :=
    Message.runCalls_apply (m := x.response) lower h.calls rfl
  have hprep : x.prepared lower h = { x.response with headers := headers, statusCode := code } := by
    rw [Exchange.prepared, hcalls, Message.after_ok]
  rw [Exchange.lines]
  rw [Exchange.status] at hb
  rw [← hprep] at hcalls
  have hstart : (x.prepared lower h).Unstarted x.attached := by
    rw [hprep]
    refine ⟨rfl, rfl, rfl, ?_, rfl, rfl⟩
    cases hx : x.attached <;> simp [Exchange.response, Message.attached, hx]
  have hbody : (x.prepared lower h).hasBody = !x.isHead := by rw [hprep]; rfl
  generalize x.prepared lower h = m₀ at *
  have hnobody : (m₀.withStatus ((h.head.map WriteHead.statusCode).getD m₀.statusCode)).hasBody =
      false := by
    rw [Message.withStatus, hbody]
    rcases hb with hb | hb <;> simp [hb]
  obtain ⟨hready, hchunked⟩ := hstart.headed inherited h.head hnobody
  obtain ⟨m₁, hhead, hens₁⟩ :=
    Message.runHead_ensured inherited hstart.role hstart.header h.head
  rw [← hens₁] at hready hchunked
  obtain ⟨m₂, hwrites, hens₂⟩ := Message.runWrites_bodiless (m := m₁) h.writes hready.hasBody
  obtain ⟨r, m', hend, m'', hassign, hiff⟩ :=
    Message.end_ready (f := x.flushes) hready h.data h.encoding
  rw [← hens₂, ← Message.end_apply] at hend
  refine ⟨m'', ?_, by rw [hiff, hchunked]⟩
  simp only [Exchange.run, Handler.run, Op.bind_apply, hcalls, hhead, hwrites, hend, Op.pure_apply]
  exact hassign

/-- A handler that ends a response to a `HEAD` request without data. -/
theorem bodiless_iff_head :
    ∃ m, Exchange.run id (fun _ ↦ none) ⟨true, 1, 1, true, false, true, true⟩
        ⟨[], none, [], none, none⟩ (Exchange.response ⟨true, 1, 1, true, false, true, true⟩) =
          .ok ⟨⟩ m ∧ m.OnlyHeader := by
  obtain ⟨m, hm, h⟩ := bodiless_iff id (fun _ ↦ none) ⟨true, 1, 1, true, false, true, true⟩
    ⟨[], none, [], none, none⟩ (.inl rfl)
  exact ⟨m, hm, h.mpr ⟨rfl, by simp⟩⟩

/-- A response to a `HEAD` request that is ended with data sends it. -/
theorem head_response_sends_body :
    ∃ m, Exchange.run id (fun _ ↦ none) ⟨true, 1, 1, true, false, true, true⟩
        ⟨[], none, [], some (.str (js "x")), none⟩
        (Exchange.response ⟨true, 1, 1, true, false, true, true⟩) = .ok ⟨⟩ m ∧ ¬m.OnlyHeader := by
  refine ⟨_, rfl, ?_⟩
  rw [Message.onlyHeader_iff (e := none) (js "x") [] rfl rfl]
  decide

end SpiderNode.Http
