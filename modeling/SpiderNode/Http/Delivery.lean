import SpiderNode.Http.Chunks
import SpiderNode.Http.Framing
import SpiderNode.Http.Receiving

/-!
# Delivery

Both ends of a connection. `receive_written` is that a message which is sent in chunks is received
with the body that was written: what `write`, `addTrailers` and `end` send behind the header block
is what the parser on the other side reads, however the bytes are cut into slices on the way. A
trailer of several lines is not received as it was sent: all its lines but the last one become
headers.

`sent` is the message on the wire.
-/

namespace SpiderNode.Http

open HttpParser (Info Wire Header FirstLine hexFrom unhex)

variable {lower : UInt16 → UInt16}

/-! ## Sizes -/

theorem unhex_digit : ∀ d < 16, unhex (Chunked.digit d) = d := by decide

theorem hexFrom_append (n : ℤ) (ds : Bytes) (d : UInt8) :
    hexFrom n (ds ++ [d]) = HttpParser.int64 (hexFrom n ds * 16 + unhex d) := by
  simp [hexFrom]

/-- The parser reads the digits of a number as this number. -/
theorem hexFrom_ofDigits {ds : List ℕ} (hds : ∀ d ∈ ds, d < 16)
    (h : Nat.ofDigits 16 ds < 2 ^ 63) :
    hexFrom 0 (ds.reverse.map Chunked.digit) = (Nat.ofDigits 16 ds : ℕ) := by
  induction ds with
  | nil => rfl
  | cons d ds ih =>
    have hd := unhex_digit d (hds d (by simp))
    rw [Nat.ofDigits_cons] at h ⊢
    have hrest := ih (fun d' hd' ↦ hds d' (by simp [hd'])) (by omega)
    have hint := HttpParser.int64_of_lt (n := (Nat.ofDigits 16 ds : ℕ) * 16 + d) (by omega)
      (by omega)
    rw [List.reverse_cons, List.map_append, List.map_singleton, hexFrom_append, hrest, hd, hint]
    omega

theorem hexFrom_digits {n : ℕ} (h : n < 2 ^ 63) : hexFrom 0 (Chunked.digits n) = n := by
  rw [Chunked.digits]
  split_ifs with hn
  · subst hn
    decide
  · have hds := @hexFrom_ofDigits (Nat.digits 16 n)
      (fun d hd ↦ Nat.digits_lt_base (by omega) hd) (by rwa [Nat.ofDigits_digits])
    rwa [Nat.ofDigits_digits] at hds

/-- The line in front of a chunk. -/
def sizeLine (n : ℕ) : HttpParser.Size := ⟨Chunked.digits n, []⟩

theorem digits_ne_nil (n : ℕ) : Chunked.digits n ≠ [] := by
  rw [Chunked.digits]
  split_ifs with h
  · simp
  · simpa [Nat.digits_ne_nil_iff_ne_zero] using h

theorem unhex_of_mem_digits {n : ℕ} {b : UInt8} (hb : b ∈ Chunked.digits n) : unhex b ≠ -1 := by
  have hdigit : ∀ d < 16, unhex (Chunked.digit d) ≠ -1 := by decide
  rw [Chunked.digits] at hb
  split_ifs at hb
  · obtain rfl := List.mem_singleton.mp hb
    decide
  · obtain ⟨d, hd, rfl⟩ := List.mem_map.mp hb
    exact hdigit d (Chunked.lt_of_mem_digits hd)

theorem good_sizeLine {n : ℕ} (h : n < 2 ^ 63) : (sizeLine n).Good n where
  ne_nil := digits_ne_nil n
  digit _ hd := unhex_of_mem_digits hd
  eq := hexFrom_digits h
  head := by simp [sizeLine]
  params := by simp [sizeLine]

/-! ## The message on the wire -/

def chunkOf (b : Bytes) : HttpParser.Chunk := ⟨sizeLine b.length, b⟩

theorem bytes_chunkOf (b : Bytes) : (chunkOf b).bytes = Chunked.encodeChunk b := by
  simp [chunkOf, HttpParser.Chunk.bytes, HttpParser.Size.bytes, sizeLine, Chunked.encodeChunk]
  rfl

theorem good_chunkOf {b : Bytes} (hne : b ≠ []) (h : b.length < 2 ^ 63) : (chunkOf b).Good :=
  ⟨hne, good_sizeLine h⟩

/-- A field as it is sent. -/
def headerOf (f : JSString × JSString) : Header := ⟨utf8Bytes f.1, 1, utf8Bytes f.2⟩

theorem bytes_headerOf (f : JSString × JSString) :
    (headerOf f).bytes = utf8Bytes (f.1 ++ js ": " ++ f.2) ++ Chunked.crlf := by
  have hname := encodeText_append_of_splits (e := none)
    (splits_of_head_lt (u := 0x3A) (by decide) f.1 (0x20 :: f.2))
  have hvalue := encodeText_ascii_append (a := [0x3A, 0x20]) (by decide) none f.2
  have hline : utf8Bytes (f.1 ++ js ": " ++ f.2) =
      encodeText none (f.1 ++ 0x3A :: 0x20 :: f.2) := by
    rw [List.append_assoc]
    rfl
  have hcolon : (0x3A : UInt16) :: 0x20 :: f.2 = [0x3A, 0x20] ++ f.2 := rfl
  rw [hline, hname, hcolon, hvalue]
  simp [headerOf, Header.bytes, latin1Bytes, Chunked.crlf]
  rfl

/-- A field of the trailer as a header. -/
def TrailerField.header (f : TrailerField) : Header := headerOf (f.name, f.value)

theorem TrailerField.bytes_header (f : TrailerField) : f.header.bytes = f.line ++ Chunked.crlf :=
  bytes_headerOf _

/-- The lines of a header block, and what follows them. -/
theorem utf8Bytes_headerLines (fields : List (JSString × JSString)) (x : JSString) :
    utf8Bytes ((fields.flatMap fun l ↦ Message.headerLine l.1 l.2) ++ x) =
      (fields.map headerOf).flatMap Header.bytes ++ utf8Bytes x := by
  induction fields with
  | nil => rfl
  | cons f fields ih =>
    rw [List.flatMap_cons, List.append_assoc, utf8Bytes_headerLine, ih, List.map_cons,
      List.flatMap_cons, bytes_headerOf]
    simp only [List.append_assoc]

/-- A message whose body is sent in chunks. -/
def sent (first : FirstLine) (headers : List Header) (chunks : List Bytes)
    (fields : List TrailerField) : Wire :=
  ⟨first, headers, .chunked (chunks.map chunkOf) ⟨sizeLine 0, fields.map TrailerField.header⟩⟩

theorem bytes_sent (first : FirstLine) (headers : List Header) (chunks : List Bytes)
    (fields : List TrailerField) :
    (sent first headers chunks fields).bytes =
      (sent first headers [] []).head ++ Chunked.encode chunks (fields.map TrailerField.line) := by
  have hchunks : (chunks.map chunkOf).flatMap HttpParser.Chunk.bytes =
      chunks.flatMap Chunked.encodeChunk := by
    rw [List.flatMap_map]
    exact congrArg (List.flatMap · chunks) (funext bytes_chunkOf)
  have hfields : (fields.map TrailerField.header).flatMap Header.bytes =
      (fields.map TrailerField.line).flatMap fun l ↦ l ++ Chunked.crlf := by
    rw [List.flatMap_map, List.flatMap_map]
    exact congrArg (List.flatMap · fields) (funext TrailerField.bytes_header)
  have hbody : (sent first headers chunks fields).body.bytes =
      (chunks.map chunkOf).flatMap HttpParser.Chunk.bytes ++
        (Chunked.digits 0 ++ Chunked.crlf ++
          ((fields.map TrailerField.header).flatMap Header.bytes ++ Chunked.crlf)) := rfl
  rw [Wire.bytes, hbody, hchunks, hfields, Chunked.encode, Chunked.encodeLast]
  simp [sent, Wire.head]

theorem contentOf_sent (first : FirstLine) (headers : List Header) (chunks : List Bytes)
    (fields : List TrailerField) :
    contentOf (sent first headers chunks fields).body = chunks.flatten := by
  simp only [sent, contentOf, List.flatMap_def, List.map_map]
  exact congrArg List.flatten (List.map_id chunks)

/-- The head of a message says how its body is sent, so the body may be any in chunks. -/
theorem good_sent {answer : HttpParser.Notice → ℤ} {first : FirstLine} {headers : List Header}
    {m : HttpParser.Message} (h : (sent first headers [] []).Good answer m) {chunks : List Bytes}
    {fields : List TrailerField} (hne : ∀ b ∈ chunks, b ≠ [])
    (hsize : ∀ b ∈ chunks, b.length < 2 ^ 63) (hfields : ∀ f ∈ fields, f.header.Good) :
    (sent first headers chunks fields).Good answer m where
  first := h.first
  headers := h.headers
  room := h.room
  upgrade := h.upgrade
  answers := h.answers
  body := by
    refine ⟨h.body.1, ?_, good_sizeLine (by decide), ?_⟩
    · intro c hc
      obtain ⟨b, hb, rfl⟩ := List.mem_map.mp hc
      exact good_chunkOf (hne b hb) (hsize b hb)
    · intro x hx
      obtain ⟨f, hf, rfl⟩ := List.mem_map.mp hx
      exact hfields f hf

/-! ## From end to end -/

theorem mem_pieceChunks {d : Piece} {b : Bytes} (h : b ∈ Message.pieceChunks d) :
    b ≠ [] ∧ b = d.bytes := by
  rw [Message.pieceChunks] at h
  split_ifs at h with hd
  · cases h
  · obtain rfl := List.mem_singleton.mp h
    exact ⟨hd, rfl⟩

/-- The chunks of the calls and of `end`. -/
def chunksOf (calls : List BodyCall) (data : Option Piece) : List Bytes :=
  calls.flatMap Message.callChunks ++ data.toList.flatMap Message.pieceChunks

/-- All bytes that are written. -/
def written (calls : List BodyCall) (data : Option Piece) : Bytes :=
  calls.flatMap BodyCall.bytes ++ data.toList.flatMap Piece.bytes

/-- Each chunk is a piece that was written, and not empty. -/
theorem mem_chunksOf {calls : List BodyCall} {data : Option Piece} {b : Bytes}
    (h : b ∈ chunksOf calls data) :
    b ≠ [] ∧ ∃ d : Piece, (.write d ∈ calls ∨ d ∈ data) ∧ b = d.bytes := by
  rcases List.mem_append.mp h with h | h
  · obtain ⟨c, hc, hb⟩ := List.mem_flatMap.mp h
    cases c with
    | write d => exact ⟨(mem_pieceChunks hb).1, d, .inl hc, (mem_pieceChunks hb).2⟩
    | addTrailers fields => cases hb
  · obtain ⟨d, hd, hb⟩ := List.mem_flatMap.mp h
    exact ⟨(mem_pieceChunks hb).1, d, .inr (Option.mem_toList.mp hd), (mem_pieceChunks hb).2⟩

theorem flatten_chunksOf (calls : List BodyCall) (data : Option Piece) :
    (chunksOf calls data).flatten = written calls data := by
  rw [chunksOf, List.flatten_append, Message.flatten_callChunks, written]
  cases data with
  | none => rfl
  | some d => simp [Message.flatten_pieceChunks]

theorem expectedAll_singleton {onIncoming : ℕ → Info → Bool} {i : ℕ} {w : Wire}
    {m : HttpParser.Message} {rs : List Received}
    (h : expectedAll lower onIncoming i [w] m = .ok rs) :
    ∃ r, expected lower w m = .ok r ∧ rs = [r] := by
  rw [expectedAll] at h
  cases hr : expected lower w m with
  | error e =>
    rw [hr] at h
    cases h
  | ok r =>
    rw [hr] at h
    cases h
    exact ⟨r, rfl, rfl⟩

theorem body_of_expected {w : Wire} {m : HttpParser.Message} {r : Received}
    (h : expected lower w m = .ok r) : r.body = contentOf w.body := by
  simp only [expected, bind, Except.bind, pure, Except.pure] at h
  split at h
  · cases h
  split at h
  · cases h
  cases h
  rfl

/-- The header block has been rendered, and is still to be sent or already sent. -/
theorem storeHeader_streams {m : Message} (ha : m.attached = true) (hb : m.hasBody = true)
    (ht : m.trailer = []) (line : JSString) {lines : List (JSString × JSString)}
    (hc : (m.draft (line ++ crlf) lines).chunkedEncoding = true) :
    ∃ m', Message.storeHeader (line ++ crlf) lines m = .ok ⟨⟩ m' ∧ m'.Streaming [] ∧
      m'.begun = m.carried ++ (utf8Bytes (line ++ crlf) ++
        (((m.fields lines).map headerOf).flatMap Header.bytes ++ Chunked.crlf)) := by
  have hs : (m.withDraft (m.draft (line ++ crlf) lines)).Streaming [] := ⟨rfl, hc, hb, ha, ht⟩
  have hfirst : Splits (line ++ crlf)
      (((m.fields lines).flatMap fun l ↦ Message.headerLine l.1 l.2) ++ crlf) := by
    have hl := splits_of_getLast_lt (u := 0x0A) (by decide) (line ++ [0x0D])
      (((m.fields lines).flatMap fun l ↦ Message.headerLine l.1 l.2) ++ crlf)
    rwa [List.append_assoc line] at hl
  have hbegun : (m.withDraft (m.draft (line ++ crlf) lines)).begun =
      m.carried ++ (utf8Bytes (line ++ crlf) ++
        (((m.fields lines).map headerOf).flatMap Header.bytes ++ Chunked.crlf)) := by
    have htext : (m.withDraft (m.draft (line ++ crlf) lines)).unsent =
        line ++ crlf ++
          (((m.fields lines).flatMap fun l ↦ Message.headerLine l.1 l.2) ++ crlf) := by
      rw [← List.append_assoc, Message.draft_eq]
      rfl
    have hcrlf : utf8Bytes crlf = Chunked.crlf := by decide
    have hutf8 : ∀ s, encodeText none s = utf8Bytes s := fun _ ↦ rfl
    rw [Message.begun, htext, hutf8, utf8Bytes_append hfirst, utf8Bytes_headerLines, hcrlf]
    rfl
  simp only [Message.storeHeader, Op.bind_apply, Op.get_apply, Op.set_apply]
  split_ifs
  · obtain ⟨r, hr⟩ := Message.send_str_attached hs.attached [] none
    refine ⟨_, by simp only [Op.bind_apply, hr, Op.pure_apply], hs.passed [] none, ?_⟩
    rw [Message.begun_passed hs.header rfl, hbegun, encodeText_nil, List.append_nil]
  · exact ⟨_, rfl, hs, hbegun⟩

/-- What a message in chunks sends is received, if its header block is the head of a message with a
body in chunks. -/
theorem receive_streaming (strict : Bool) (lower : UInt16 → UInt16) (e : Endpoint)
    {parser : HttpParser.Parser} (hp : parser.index < 2 ^ 8) {first : FirstLine}
    {headers : List Header} (session : Session)
    (hgood : (sent first headers [] []).Good (answer (e.onIncoming session.received.length))
      (parser.init first.type).toMessage)
    (hascii : AsciiValues (sent first headers [] [])) {m : Message} {fields : List TrailerField}
    (hm : m.Streaming fields) (hhead : m.begun = (sent first headers [] []).head)
    (calls : List BodyCall) (data : Option Piece)
    (hsize : ∀ d : Piece, .write d ∈ calls ∨ d ∈ data → d.bytes.length < 2 ^ 63)
    (htrailer : ∀ f ∈ lastTrailers fields calls, f.header.Good)
    (hvalues : ∀ f ∈ lastTrailers fields calls, ∀ b ∈ utf8Bytes f.value, b.toNat < 0x80)
    (hs : session.upgraded = false) :
    ∃ m', runBody data calls m = .ok ⟨⟩ m' ∧ m'.output = [] ∧
      ∀ ds : List Slice, ds.flatMap Slice.bytes = Message.entriesBytes m'.wire →
        ∃ r c, expected lower (sent first headers (chunksOf calls data)
            (lastTrailers fields calls)) (parser.init first.type).toMessage = .ok r ∧
          ds.foldlM (Reception.read strict lower e)
            ⟨parser.init first.type, session, false, none⟩ = .ok c ∧
          c.session.received = session.received ++ [r] ∧
          r.body = written calls data := by
  obtain ⟨m', hrun, houtput, hcarried⟩ := Message.runBody_encodes hm calls data
  refine ⟨m', hrun, houtput, fun ds hcut ↦ ?_⟩
  rw [← chunksOf] at hcarried
  have hflatten := flatten_chunksOf calls data
  generalize hchunks : chunksOf calls data = chunks at *
  have hne : ∀ b ∈ chunks, b ≠ [] := fun b hb ↦ (mem_chunksOf (hchunks ▸ hb)).1
  have hlt : ∀ b ∈ chunks, b.length < 2 ^ 63 := by
    intro b hb
    obtain ⟨-, d, hd, rfl⟩ := mem_chunksOf (hchunks ▸ hb)
    exact hsize d hd
  have hw := good_sent hgood hne hlt htrailer
  have hfollow : Follow strict e.onIncoming session.received.length
      [sent first headers chunks (lastTrailers fields calls)]
      (parser.init first.type).toMessage := ⟨rfl, hw, fun h ↦ absurd rfl h, trivial⟩
  have hasciis : ∀ w ∈ [sent first headers chunks (lastTrailers fields calls)],
      AsciiValues w := by
    intro w hmem
    obtain rfl := List.mem_singleton.mp hmem
    intro h hh
    rcases List.mem_append.mp hh with hh | hh
    · exact hascii h (List.mem_append_left _ hh)
    · obtain ⟨f, hf, rfl⟩ := List.mem_map.mp hh
      exact hvalues f hf
  have hends : ∀ w ∈ [sent first headers chunks (lastTrailers fields calls)], Ends w.body := by
    intro w hmem
    obtain rfl := List.mem_singleton.mp hmem
    rfl
  have hwire : ds.flatMap Slice.bytes =
      [sent first headers chunks (lastTrailers fields calls)].flatMap Wire.bytes := by
    rw [Message.carried, houtput, List.append_nil, hhead] at hcarried
    rw [hcut, hcarried, List.flatMap_singleton, bytes_sent]
  obtain ⟨rs, c, hrs, hread, hreceived, -⟩ := receive_messages strict lower e hp session
    hfollow hasciis hends ds hwire hs
  obtain ⟨r, hr, rfl⟩ := expectedAll_singleton hrs
  refine ⟨r, c, hr, hread, hreceived, ?_⟩
  rw [body_of_expected hr, contentOf_sent, hflatten]

/-- **What is written is received.** Take a new message that owns its socket, any first line and
header lines that make it send its body in chunks, any calls of `write` and `addTrailers`, and `end`
with or without a last piece. If the fields of its header block make a head that the parser reads,
then the other side receives exactly one message, with this first line and the body that was
written, however the bytes are cut into slices on the way. Of the trailer that was last given it has
the last line; the lines in front of it come behind the headers of the head. -/
theorem receive_written (strict : Bool) (lower : UInt16 → UInt16) (e : Endpoint)
    {parser : HttpParser.Parser} (hp : parser.index < 2 ^ 8) {m : Message}
    (hattached : m.attached = true) (hbody : m.hasBody = true) (htrailer : m.trailer = [])
    (hnew : m.carried = []) {line : JSString} {lines : List (JSString × JSString)}
    (hchunked : (m.draft (line ++ crlf) lines).chunkedEncoding = true) {first : FirstLine}
    (hfirst : utf8Bytes (line ++ crlf) = first.bytes)
    (session : Session)
    (hgood : (sent first ((m.fields lines).map headerOf) [] []).Good
      (answer (e.onIncoming session.received.length)) (parser.init first.type).toMessage)
    (hascii : AsciiValues (sent first ((m.fields lines).map headerOf) [] []))
    (calls : List BodyCall) (data : Option Piece)
    (hsize : ∀ d : Piece, .write d ∈ calls ∨ d ∈ data → d.bytes.length < 2 ^ 63)
    (htrailers : ∀ f ∈ lastTrailers [] calls, f.header.Good)
    (hvalues : ∀ f ∈ lastTrailers [] calls, ∀ b ∈ utf8Bytes f.value, b.toNat < 0x80)
    (hs : session.upgraded = false) :
    ∃ m', (do Message.storeHeader (line ++ crlf) lines; runBody data calls) m = .ok ⟨⟩ m' ∧
      m'.output = [] ∧
      ∀ ds : List Slice, ds.flatMap Slice.bytes = Message.entriesBytes m'.wire →
        ∃ r c, expected lower (sent first ((m.fields lines).map headerOf)
            (chunksOf calls data) (lastTrailers [] calls)) (parser.init first.type).toMessage =
              .ok r ∧
          ds.foldlM (Reception.read strict lower e)
            ⟨parser.init first.type, session, false, none⟩ = .ok c ∧
          c.session.received = session.received ++ [r] ∧
          r.body = written calls data := by
  obtain ⟨m₁, hstore, hstreaming, hbegun⟩ := storeHeader_streams hattached hbody htrailer line
    hchunked
  have hhead : m₁.begun = (sent first ((m.fields lines).map headerOf) [] []).head := by
    rw [hbegun, hnew, List.nil_append, hfirst]
    rfl
  obtain ⟨m', hrun, hrest⟩ := receive_streaming strict lower e hp session hgood hascii
    hstreaming hhead calls data hsize htrailers hvalues hs
  refine ⟨m', ?_, hrest⟩
  rw [Op.bind_apply, hstore]
  exact hrun

/-- A response that has got its socket. -/
def newResponse : Message :=
  Message.after (Message.assignSocket true true (serverResponse false 1 1))

/-- The status line of the response, as a client reads it. -/
def okLine : FirstLine :=
  .status ⟨⟨HttpParser.text "1", HttpParser.text "1"⟩, HttpParser.text "200",
    some (HttpParser.text "OK")⟩

def oneTrailer : List TrailerField :=
  [⟨[0x78], [0x79], fun _ h ↦ List.mem_singleton.mp h ▸ ⟨by decide, by decide⟩,
    fun _ h ↦ List.mem_singleton.mp h ▸ ⟨by decide, by decide⟩⟩]

theorem receive_written_response : ∃ m',
    (do Message.storeHeader (js "HTTP/1.1 200 OK" ++ crlf) []
        runBody (some (.buf (HttpParser.text "there")))
          [.write (.text (js "hi ") none rfl rfl), .addTrailers oneTrailer]) newResponse =
      .ok ⟨⟩ m' ∧
    ∀ ds : List Slice, ds.flatMap Slice.bytes = Message.entriesBytes m'.wire →
      ∃ c, ds.foldlM (Reception.read true id ⟨.client true, fun _ _ ↦ false, 0⟩)
          ⟨HttpParser.Parser.blank.init .response, ⟨Parser.onMessageBegin, none, [], []⟩, false,
            none⟩ = .ok c ∧
        c.session.received.map Received.body = [HttpParser.text "hi there"] := by
  have hascii : AsciiValues
      (sent okLine ((newResponse.fields []).map headerOf) [] []) := by
    unfold AsciiValues
    decide +kernel
  have hsize : ∀ d : Piece, .write d ∈ [BodyCall.write (.text (js "hi ") none rfl rfl),
      .addTrailers oneTrailer] ∨ d ∈ some (Piece.buf (HttpParser.text "there")) →
        d.bytes.length < 2 ^ 63 := by
    rintro d (hd | hd)
    · obtain rfl : d = .text (js "hi ") none rfl rfl := by simpa using hd
      decide +kernel
    · obtain rfl := Option.some.inj hd
      decide +kernel
  obtain ⟨m', hrun, -, hreceive⟩ := @receive_written true id ⟨.client true, fun _ _ ↦ false, 0⟩
    HttpParser.Parser.blank (by decide) newResponse rfl rfl rfl rfl (js "HTTP/1.1 200 OK") []
    (by decide +kernel) okLine (by decide +kernel) ⟨Parser.onMessageBegin, none, [], []⟩
    (by decide +kernel) hascii [.write (.text (js "hi ") none rfl rfl), .addTrailers oneTrailer]
    (some (.buf (HttpParser.text "there"))) hsize (by decide +kernel) (by decide +kernel) rfl
  refine ⟨m', hrun, fun ds hcut ↦ ?_⟩
  obtain ⟨r, c, -, hread, hreceived, hbody⟩ := hreceive ds hcut
  refine ⟨c, hread, ?_⟩
  rw [hreceived, List.nil_append, List.map_singleton, hbody]
  decide +kernel

end SpiderNode.Http
