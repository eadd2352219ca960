import SpiderNode.Http.Sending

/-!
# How the end of a body is marked

`_storeHeader` classifies each header line by what its name contains, in a fixed order, and decides
from the classes it has seen whether the connection can be kept and whether the body goes out in
chunks. `draft_eq` says what it renders and decides for a whole list of lines.

A receiver recognises a field by its whole name. `delimits_iff` compares the two: a kept connection
has a body whose end can be found, except if the decision rests on a name that only contains the
name of a framing field, or on a transfer encoding that is not chunked.
-/

namespace SpiderNode.Http.Message

open Net (JsError)

variable {m : Message} {lines : List (JSString × JSString)} {firstLine : JSString}

/-! ## The classes of a line -/

def isConnection (line : JSString × JSString) : Bool := test connectionExpression line.1

def isTransferEncoding (line : JSString × JSString) : Bool :=
  !isConnection line && test transferEncodingExpression line.1

def isContentLength (line : JSString × JSString) : Bool :=
  !isConnection line && !test transferEncodingExpression line.1 &&
    test contentLengthExpression line.1

def isExpect (line : JSString × JSString) : Bool :=
  !isConnection line && !test transferEncodingExpression line.1 &&
    !test contentLengthExpression line.1 && test expectExpression line.1

/-- A line that asks to close the connection. -/
def isClose (line : JSString × JSString) : Bool := isConnection line && test closeExpression line.2

/-- A line that asks for chunks. -/
def isChunked (line : JSString × JSString) : Bool :=
  isTransferEncoding line && test chunkExpression line.2

/-- What one line adds to a draft. -/
theorem store_eq (d : Draft) (line : JSString × JSString) :
    d.store line =
      { messageHeader := d.messageHeader ++ headerLine line.1 line.2
        sentConnectionHeader := d.sentConnectionHeader || isConnection line
        sentContentLengthHeader := d.sentContentLengthHeader || isContentLength line
        sentTransferEncodingHeader := d.sentTransferEncodingHeader || isTransferEncoding line
        sentExpect := d.sentExpect || isExpect line
        last := d.last || isClose line
        shouldKeepAlive := d.shouldKeepAlive || (isConnection line && !isClose line)
        chunkedEncoding := d.chunkedEncoding || isChunked line } := by
  unfold Draft.store isClose isChunked isExpect isContentLength isTransferEncoding isConnection
  cases test connectionExpression line.1 <;> cases test transferEncodingExpression line.1 <;>
    cases test contentLengthExpression line.1 <;> cases test expectExpression line.1 <;>
    cases test closeExpression line.2 <;> cases test chunkExpression line.2 <;> simp

/-- What all lines add to a draft. -/
theorem foldl_store (lines : List (JSString × JSString)) (d : Draft) :
    lines.foldl Draft.store d =
      { messageHeader := d.messageHeader ++ lines.flatMap fun l ↦ headerLine l.1 l.2
        sentConnectionHeader := d.sentConnectionHeader || lines.any isConnection
        sentContentLengthHeader := d.sentContentLengthHeader || lines.any isContentLength
        sentTransferEncodingHeader := d.sentTransferEncodingHeader || lines.any isTransferEncoding
        sentExpect := d.sentExpect || lines.any isExpect
        last := d.last || lines.any isClose
        shouldKeepAlive := d.shouldKeepAlive || lines.any fun l ↦ isConnection l && !isClose l
        chunkedEncoding := d.chunkedEncoding || lines.any isChunked } := by
  induction lines generalizing d with
  | nil => simp
  | cons line lines ih =>
    rw [List.foldl_cons, ih, store_eq]
    simp [Bool.or_assoc]

/-! ## What is decided -/

/-- Without a `Connection` line, whether the connection is kept. -/
def keeps (m : Message) (lines : List (JSString × JSString)) : Bool :=
  m.shouldKeepAlive && (lines.any isContentLength || m.useChunkedEncodingByDefault)

/-- Whether a line says how the end of the body is found. -/
def framed (lines : List (JSString × JSString)) : Bool :=
  lines.any isContentLength || lines.any isTransferEncoding

/-- The `Connection` field that is added. -/
def connectionField (m : Message) (lines : List (JSString × JSString)) :
    List (JSString × JSString) :=
  if lines.any isConnection then []
  else [(js "Connection", if m.keeps lines then js "keep-alive" else js "close")]

/-- The `Transfer-Encoding` field that is added. -/
def transferEncodingField (m : Message) (lines : List (JSString × JSString)) :
    List (JSString × JSString) :=
  if framed lines || !m.hasBody || !m.useChunkedEncodingByDefault then []
  else [(js "Transfer-Encoding", js "chunked")]

/-- The fields of the header block. -/
def fields (m : Message) (lines : List (JSString × JSString)) : List (JSString × JSString) :=
  lines ++ m.connectionField lines ++ m.transferEncodingField lines

/-- The message is the last one because of its `Connection` field, given or added. -/
def closes (m : Message) (lines : List (JSString × JSString)) : Bool :=
  m.last || lines.any isClose || (!lines.any isConnection && !m.keeps lines)

/-- The draft once all lines are stored and the `Connection` field is there. -/
def stored (m : Message) (firstLine : JSString) (lines : List (JSString × JSString)) : Draft where
  messageHeader :=
    firstLine ++ (lines ++ m.connectionField lines).flatMap fun l ↦ headerLine l.1 l.2
  sentConnectionHeader := lines.any isConnection
  sentContentLengthHeader := lines.any isContentLength
  sentTransferEncodingHeader := lines.any isTransferEncoding
  sentExpect := lines.any isExpect
  last := m.closes lines
  shouldKeepAlive := m.shouldKeepAlive || lines.any fun l ↦ isConnection l && !isClose l
  chunkedEncoding := m.chunkedEncoding || lines.any isChunked

theorem keepAlive_foldl_store (m : Message) (firstLine : JSString)
    (lines : List (JSString × JSString)) :
    (lines.foldl Draft.store ⟨firstLine, false, false, false, false, m.last, m.shouldKeepAlive,
      m.chunkedEncoding⟩).keepAlive m.useChunkedEncodingByDefault = m.stored firstLine lines := by
  have hk : headerLine (js "Connection") (js "keep-alive") =
      js "Connection: keep-alive" ++ crlf := by decide
  have hc : headerLine (js "Connection") (js "close") = js "Connection: close" ++ crlf := by decide
  rw [foldl_store, Draft.keepAlive, stored, connectionField, closes]
  cases hcon : lines.any isConnection with
  | true => simp
  | false =>
    have hno : (lines.any fun l ↦ isConnection l && !isClose l) = false := by
      rw [List.any_eq_false] at hcon ⊢
      intro l hl
      simp [hcon l hl]
    have hd : ((m.shouldKeepAlive || lines.any fun l ↦ isConnection l && !isClose l) &&
        (false || lines.any isContentLength || m.useChunkedEncodingByDefault)) = m.keeps lines := by
      simp [hno, keeps]
    simp only [hd]
    cases m.keeps lines <;> simp [hk, hc]

/-- **The rendered header block.** It has the given fields, in order, and those that are added. -/
theorem draft_eq (m : Message) (firstLine : JSString) (lines : List (JSString × JSString)) :
    m.draft firstLine lines =
      { m.stored firstLine lines with
        messageHeader := firstLine ++ (m.fields lines).flatMap fun l ↦ headerLine l.1 l.2
        last := m.closes lines || (!framed lines && m.hasBody && !m.useChunkedEncodingByDefault)
        chunkedEncoding :=
          if !framed lines && !m.hasBody then false
          else m.chunkedEncoding || lines.any isChunked ||
            (!framed lines && m.useChunkedEncodingByDefault) } := by
  have ht : headerLine (js "Transfer-Encoding") (js "chunked") =
      js "Transfer-Encoding: chunked" ++ crlf := by decide
  have hf : ((m.stored firstLine lines).sentContentLengthHeader ||
      (m.stored firstLine lines).sentTransferEncodingHeader) = framed lines := rfl
  rw [draft, keepAlive_foldl_store, Draft.framing, hf, fields, transferEncodingField]
  cases framed lines <;> cases m.hasBody <;> cases m.useChunkedEncodingByDefault <;>
    simp [stored, ht]

/-! ## What a receiver sees -/

/-- The name of a field, without regard to case. -/
def named (name field : JSString) : Bool := field.map foldCase = name.map foldCase

/-- A receiver can find the end of the body. -/
def SelfDelimiting (fields : List (JSString × JSString)) (chunkedEncoding : Bool) : Prop :=
  (∃ f ∈ fields, named (js "Content-Length") f.1 = true) ∨
    (∃ f ∈ fields, named (js "Transfer-Encoding") f.1 = true ∧ test chunkExpression f.2 = true) ∧
      chunkedEncoding = true

theorem test_congr {name field : JSString} (h : named name field = true) (pattern : JSString) :
    test pattern field = test pattern name := by
  have h' : field.map foldCase = name.map foldCase := by simpa [named] using h
  rw [test, test, h']

theorem isTransferEncoding_of_named {line : JSString × JSString}
    (h : named (js "Transfer-Encoding") line.1 = true) : isTransferEncoding line = true := by
  rw [isTransferEncoding, isConnection, test_congr h, test_congr h]
  decide

/-- The fields that are given tell where the body ends, or none of them is taken to. -/
def Delimited (lines : List (JSString × JSString)) : Prop :=
  (∃ l ∈ lines, named (js "Content-Length") l.1 = true) ∨
    (∃ l ∈ lines, named (js "Transfer-Encoding") l.1 = true ∧ test chunkExpression l.2 = true) ∨
    framed lines = false

/-- The `Connection` field that is added frames nothing. -/
theorem not_named_connectionField {f : JSString × JSString} (h : f ∈ m.connectionField lines) :
    named (js "Content-Length") f.1 = false ∧ named (js "Transfer-Encoding") f.1 = false := by
  rw [connectionField] at h
  split_ifs at h <;> simp at h <;> subst h <;> decide

theorem selfDelimiting_iff (hb : m.hasBody = true) (firstLine : JSString) :
    SelfDelimiting (m.fields lines) (m.draft firstLine lines).chunkedEncoding ↔
      (∃ l ∈ lines, named (js "Content-Length") l.1 = true) ∨
      (∃ l ∈ lines, named (js "Transfer-Encoding") l.1 = true ∧ test chunkExpression l.2 = true) ∨
      framed lines = false ∧ m.useChunkedEncodingByDefault = true := by
  have hc : (m.draft firstLine lines).chunkedEncoding =
      (m.chunkedEncoding || lines.any isChunked ||
        (!framed lines && m.useChunkedEncodingByDefault)) := by
    simp [draft_eq, hb]
  constructor
  · rintro (⟨f, hf, hn⟩ | ⟨⟨f, hf, hn, ht⟩, -⟩)
    · rw [fields, List.mem_append, List.mem_append] at hf
      rcases hf with (hf | hf) | hf
      · exact .inl ⟨f, hf, hn⟩
      · simp [(not_named_connectionField hf).1] at hn
      · rw [transferEncodingField] at hf
        split_ifs at hf
        · simp at hf
        · obtain rfl := List.mem_singleton.mp hf
          exact absurd hn (by decide)
    · rw [fields, List.mem_append, List.mem_append] at hf
      rcases hf with (hf | hf) | hf
      · exact .inr (.inl ⟨f, hf, hn, ht⟩)
      · simp [(not_named_connectionField hf).2] at hn
      · rw [transferEncodingField] at hf
        split_ifs at hf with hno
        · simp at hf
        · exact .inr (.inr (by simpa [hb] using hno))
  -- a field of the caller, or the one that is added by default
  · rintro (⟨l, hl, hn⟩ | ⟨l, hl, hn, ht⟩ | ⟨hf, hu⟩)
    · exact .inl ⟨l, by simp [fields, hl], hn⟩
    · refine .inr ⟨⟨l, by simp [fields, hl], hn, ht⟩, ?_⟩
      have ha : lines.any isChunked = true :=
        List.any_eq_true.mpr ⟨l, hl, by simp [isChunked, isTransferEncoding_of_named hn, ht]⟩
      rw [hc, ha, Bool.or_true, Bool.true_or]
    · refine .inr ⟨⟨(js "Transfer-Encoding", js "chunked"), ?_, by decide, by decide⟩, ?_⟩
      · simp [fields, transferEncodingField, hf, hb, hu]
      · simp [hc, hf, hu]

/-- **Self-delimiting messages.** If the message has a body, a receiver of its header block can
find the end of that body or the connection is closed behind it, exactly if the connection is closed
for a reason of its own or no name is mistaken for that of a framing field. -/
theorem delimits_iff (m : Message) (hb : m.hasBody = true) (firstLine : JSString)
    (lines : List (JSString × JSString)) :
    ∃ m', storeHeader firstLine lines m = .ok ⟨⟩ m' ∧
      m'.headerText = firstLine ++ ((m.fields lines).flatMap fun l ↦ headerLine l.1 l.2) ++ crlf ∧
      ((m'.last = false → SelfDelimiting (m.fields lines) m'.chunkedEncoding) ↔
        m.closes lines = true ∨ Delimited lines) := by
  obtain ⟨m', hm, hf, -⟩ := storeHeader_ok firstLine lines m
  refine ⟨m', hm, ?_, ?_⟩
  · rw [hf.eq]
    simp [headerText, withDraft, draft_eq, HeaderBlock.text]
  · have hl : m'.last = (m.draft firstLine lines).last := by rw [hf.eq, withDraft]
    have hc : m'.chunkedEncoding = (m.draft firstLine lines).chunkedEncoding := by
      rw [hf.eq, withDraft]
    rw [hl, hc, selfDelimiting_iff hb, draft_eq, hb, Delimited]
    cases m.closes lines <;> cases framed lines <;> cases m.useChunkedEncodingByDefault <;> simp

theorem delimits_iff_plain :
    ∃ m', storeHeader (statusLine 200 none) [] (serverResponse false 1 1) = .ok ⟨⟩ m' ∧
      (m'.last = false →
        SelfDelimiting ((serverResponse false 1 1).fields []) m'.chunkedEncoding) := by
  obtain ⟨m', hm, -, h⟩ := delimits_iff (serverResponse false 1 1) rfl (statusLine 200 none) []
  exact ⟨m', hm, h.mpr (.inr (.inr (.inr rfl)))⟩

/-- A field whose name only contains `Content-Length` keeps the connection, and nothing marks the
end of the body. -/
theorem extended_name_not_delimited :
    ∃ m', storeHeader (statusLine 200 none) [(js "X-Content-Length", js "5")]
        (serverResponse false 1 1) = .ok ⟨⟩ m' ∧
      m'.hasBody = true ∧ m'.last = false ∧
      ¬SelfDelimiting ((serverResponse false 1 1).fields [(js "X-Content-Length", js "5")])
        m'.chunkedEncoding := by
  refine ⟨_, rfl, by decide, by decide, ?_⟩
  rw [SelfDelimiting]
  decide

end SpiderNode.Http.Message
