import SpiderNode.Codec.Chunked
import SpiderNode.Http.Ending

/-!
# Chunked bodies

A message with `chunkedEncoding` sends each piece of its body as a chunk: a string in one go, a
buffer in three, and nothing for a piece that is empty, because an empty chunk is the last one.
`end` adds the last chunk and the trailer, and its shortcut builds all of it in one string.

`end_decodes` says that a reader of the format gets back what was written, for every sequence of
calls on a message that owns its socket.
-/

namespace SpiderNode.Http

open Net (JsError)

/-! ## What is written -/

/-- What is passed to `write` or `end`: a string that has UTF-8 bytes, or a buffer. -/
inductive Piece where
  | text (s : JSString) (encoding : Option TextEncoding) (utf8 : isUtf8 encoding = true)
    (wellFormed : WellFormed s = true)
  | buf (b : Bytes)

def Piece.chunk : Piece → Chunk
  | text s _ _ _ => .str s
  | buf b => .buf b

def Piece.encoding : Piece → Option TextEncoding
  | text _ e _ _ => e
  | buf _ => none

def Piece.bytes : Piece → Bytes
  | text s _ _ _ => utf8Bytes s
  | buf b => b

/-- A field of a trailer, without line ends. -/
structure TrailerField where
  name : JSString
  value : JSString
  name_line : ∀ u ∈ name, u ≠ 0x0D ∧ u ≠ 0x0A
  value_line : ∀ u ∈ value, u ≠ 0x0D ∧ u ≠ 0x0A

/-- Its line, as a reader sees it. -/
def TrailerField.line (f : TrailerField) : Bytes := utf8Bytes (f.name ++ js ": " ++ f.value)

/-- A call before `end`. -/
inductive BodyCall where
  | write (d : Piece)
  | addTrailers (fields : List TrailerField)

def BodyCall.run : BodyCall → Op Unit
  | write d => do let _ ← Message.write d.chunk d.encoding
  | addTrailers fields => Message.addTrailers (fields.map fun f ↦ (f.name, f.value))

/-- The calls on a message, the last of which is `end`. -/
def runBody (data : Option Piece) : List BodyCall → Op Unit
  | [] => do let _ ← Message.end (data.map Piece.chunk) (data.bind Piece.encoding)
  | c :: calls => do
    c.run
    runBody data calls

/-- The bytes of the pieces, in order. -/
def BodyCall.bytes : BodyCall → Bytes
  | write d => d.bytes
  | addTrailers _ => []

/-- The trailer after the calls, given the one before. -/
def lastTrailers (fields : List TrailerField) : List BodyCall → List TrailerField
  | [] => fields
  | .write _ :: calls => lastTrailers fields calls
  | .addTrailers fields :: calls => lastTrailers fields calls

/-! ## Texts and their bytes -/

theorem latin1Bytes_hex (n : ℕ) : latin1Bytes (hex n) = Chunked.digits n := by
  have hd : ∀ d < 16, (hexChar d).toUInt8 = Chunked.digit d := by decide
  rw [hex, Chunked.digits]
  split_ifs
  · rfl
  · rw [latin1Bytes, List.map_map]
    exact List.map_congr_left fun d hm ↦ hd d (Chunked.lt_of_mem_digits hm)

theorem latin1Bytes_crlf : latin1Bytes crlf = Chunked.crlf := rfl

/-- A string as a chunk is the chunk of its bytes. -/
theorem encodeText_chunkText_eq (e : Option TextEncoding) (s x : JSString) :
    encodeText e (Message.chunkText e s ++ x) =
      Chunked.encodeChunk (encodeText e s) ++ encodeText e x := by
  rw [encodeText_chunkText, Chunked.encodeChunk, byteLength, latin1Bytes_crlf]
  have hl : latin1Bytes (hex (encodeText e s).length ++ crlf) =
      Chunked.digits (encodeText e s).length ++ Chunked.crlf := by
    rw [← latin1Bytes_hex, ← latin1Bytes_crlf, latin1Bytes, List.map_append]
    rfl
  rw [hl]

/-- A byte below `0x80` is a character of its own. -/
theorem eq_of_mem_codePointBytes {v : ℕ} {x : UInt8} (hv : v < 0x110000)
    (hx : x ∈ codePointBytes v) (hlt : x.toNat < 0x80) : v = x.toNat := by
  rcases Nat.lt_or_ge v 0x80 with hv' | hv'
  · rw [codePointBytes_of_lt hv', List.mem_singleton] at hx
    rw [hx, UInt8.toNat_ofNat']
    omega
  · have := le_of_mem_codePointBytes hv' hv x hx
    omega

theorem mem_of_mem_utf8Bytes {s : JSString} {x : UInt8} (hx : x ∈ utf8Bytes s)
    (hlt : x.toNat < 0x80) : ∃ u ∈ s, u.toNat = x.toNat := by
  have hbig : ∀ u : UInt16, u.toNat < 0x110000 := fun u ↦ Nat.lt_trans u.toNat_lt (by decide)
  fun_induction utf8Bytes s with
  | case1 => simp at hx
  | case2 u hu => simp at hx
  | case3 u hu => exact ⟨u, by simp, eq_of_mem_codePointBytes (hbig u) hx hlt⟩
  | case4 u v rest hp ih =>
    obtain ⟨hu, hv⟩ : isHigh u = true ∧ isLow v = true := by simpa using hp
    obtain ⟨hge, hlt'⟩ := pairCodePoint_lt hu hv
    rcases List.mem_append.mp hx with hx | hx
    · have := le_of_mem_codePointBytes (by omega) hlt' x hx
      omega
    · obtain ⟨w, hw, hwx⟩ := ih hx
      exact ⟨w, by simp [hw], hwx⟩
  | case5 u v rest hp hs ih =>
    obtain ⟨w, hw, hwx⟩ := ih hx
    exact ⟨w, List.mem_cons_of_mem _ hw, hwx⟩
  | case6 u v rest hp hs ih =>
    rcases List.mem_append.mp hx with hx | hx
    · exact ⟨u, by simp, eq_of_mem_codePointBytes (hbig u) hx hlt⟩
    · obtain ⟨w, hw, hwx⟩ := ih hx
      exact ⟨w, List.mem_cons_of_mem _ hw, hwx⟩

theorem utf8Bytes_headerLine (f v x : JSString) :
    utf8Bytes (Message.headerLine f v ++ x) =
      utf8Bytes (f ++ js ": " ++ v) ++ Chunked.crlf ++ utf8Bytes x := by
  have hs : Splits (Message.headerLine f v) x := by
    have hl := splits_of_getLast_lt (u := 0x0A) (by decide) (f ++ js ": " ++ v ++ [0x0D]) x
    rwa [List.append_assoc _ [0x0D]] at hl
  have hc : utf8Bytes (f ++ js ": " ++ v ++ crlf) = utf8Bytes (f ++ js ": " ++ v) ++ Chunked.crlf :=
    encodeText_append_ascii isAscii_crlf none (f ++ js ": " ++ v)
  rw [utf8Bytes_append hs, Message.headerLine, hc]

/-- The trailer, as it is sent. -/
def trailerText (fields : List TrailerField) : JSString :=
  (fields.map fun f ↦ (f.name, f.value)).flatMap fun f ↦ Message.headerLine f.1 f.2

theorem utf8Bytes_trailerText (fields : List TrailerField) :
    utf8Bytes (trailerText fields) =
      (fields.map TrailerField.line).flatMap fun l ↦ l ++ Chunked.crlf := by
  induction fields with
  | nil => rfl
  | cons f fields ih =>
    rw [trailerText, List.map_cons, List.flatMap_cons, utf8Bytes_headerLine, ← trailerText, ih]
    rfl

theorem encodeText_lastChunk_eq {m : Message} {fields : List TrailerField}
    (h : m.trailer = trailerText fields) {e : Option TextEncoding} (he : isUtf8 e = true) :
    encodeText e m.lastChunk = Chunked.encodeLast (fields.map TrailerField.line) := by
  have hz : latin1Bytes (js "0" ++ crlf) = Chunked.digits 0 ++ Chunked.crlf := by decide
  rw [Message.encodeText_lastChunk, hz, h, encodeText, if_pos he, utf8Bytes_trailerText,
    latin1Bytes_crlf]
  rfl

/-- A line of a trailer is not empty, and the next line end is the one behind it. -/
theorem TrailerField.line_ne_nil (f : TrailerField) : f.line ≠ [] := by
  have ha := encodeText_append_of_splits (e := none)
    (splits_of_head_lt (u := 0x3A) (by decide) f.name (0x20 :: f.value))
  have hc := encodeText_ascii_append (a := [0x3A]) (by decide) none (0x20 :: f.value)
  have hl : f.line = encodeText none (f.name ++ 0x3A :: 0x20 :: f.value) := by
    rw [line, List.append_assoc]
    rfl
  rw [hl, ha]
  have hcol : (0x3A : UInt16) :: 0x20 :: f.value = [0x3A] ++ (0x20 :: f.value) := rfl
  rw [hcol, hc]
  simp [latin1Bytes]

theorem TrailerField.cr_not_mem_line (f : TrailerField) : (0x0D : UInt8) ∉ f.line := by
  intro h
  obtain ⟨u, hu, hn⟩ := mem_of_mem_utf8Bytes h (by decide)
  have h13 : u = 0x0D := UInt16.toNat_inj.mp hn
  subst h13
  rcases List.mem_append.mp hu with hu | hu
  · rcases List.mem_append.mp hu with hu | hu
    · exact (f.name_line _ hu).1 rfl
    · exact absurd hu (by decide)
  · exact (f.value_line _ hu).1 rfl

/-! ## One call -/

namespace Message

variable {m : Message} {fields : List TrailerField} {e : Option TextEncoding}

/-- What the socket has got once the header block is out. -/
def begun (m : Message) : Bytes := m.carried ++ encodeText none m.unsent

/-- A message in the middle of a chunked body. -/
structure Streaming (m : Message) (fields : List TrailerField) : Prop where
  header : m.header.isSome = true
  chunkedEncoding : m.chunkedEncoding = true
  hasBody : m.hasBody = true
  attached : m.attached = true
  trailer : m.trailer = trailerText fields

theorem Streaming.passed (h : Streaming m fields) (s : JSString) (e : Option TextEncoding) :
    Streaming (m.passed s e) fields :=
  ⟨h.header, h.chunkedEncoding, h.hasBody, h.attached, h.trailer⟩

theorem begun_passed (hh : m.header.isSome = true) (he : isUtf8 e = true) (s : JSString) :
    (m.passed s e).begun = m.begun ++ encodeText e s := by
  have hu : (m.passed s e).unsent = [] := rfl
  have hs : encodeText e (m.unsent ++ s) = encodeText e m.unsent ++ encodeText e s := by
    rw [unsent]
    split_ifs
    · simp
    · exact encodeText_headerText hh e s
  rw [begun, carried_passed, hs, hu, begun, encodeText_of_isUtf8 he m.unsent]
  simp

theorem send_buf_attached (h : m.attached = true) (hs : m.headerSent = true) (b : Bytes)
    (e : Option TextEncoding) : ∃ r, send (.buf b) e m = .ok r (m.pushed (.buf b, e)) := by
  simp only [send, Op.bind_apply, Op.get_apply, hs, if_true]
  exact writeRaw_attached h

theorem carried_pushed (m : Message) (x : Entry) :
    (m.pushed x).carried = m.carried ++ entryBytes x := by
  simp [carried, pushed]

/-- The chunks of a piece: none if it is empty. -/
def pieceChunks (d : Piece) : List Bytes := if d.bytes = [] then [] else [d.bytes]

theorem length_chunk_eq_zero (d : Piece) : d.chunk.length = 0 ↔ d.bytes = [] := by
  cases d with
  | buf b => simp [Piece.chunk, Chunk.length, Piece.bytes]
  | text s e hu hw =>
    simp only [Piece.chunk, Chunk.length, Piece.bytes, List.length_eq_zero_iff]
    constructor
    · rintro rfl
      rfl
    · intro h
      by_contra hs
      exact encodeText_ne_nil (e := none) (by simp [Encodable, hw]) hs h

theorem writeBody_piece (h : Streaming m fields) (d : Piece) :
    ∃ r m', writeBody d.chunk d.encoding m = .ok r m' ∧ Streaming m' fields ∧
      m'.begun = m.begun ++ (pieceChunks d).flatMap Chunked.encodeChunk := by
  simp only [writeBody, Op.bind_apply, Op.get_apply, h.hasBody, h.chunkedEncoding, Bool.not_true,
    Bool.false_eq_true, if_false, if_true]
  split_ifs with hl
  · have hb := (length_chunk_eq_zero d).mp hl
    exact ⟨false, m, rfl, h, by simp [pieceChunks, hb]⟩
  · have hb : d.bytes ≠ [] := fun hb ↦ hl ((length_chunk_eq_zero d).mpr hb)
    cases d with
    | text s e hu hw =>
      obtain ⟨r, hr⟩ := send_str_attached h.attached (chunkText e s) e
      have hc := encodeText_chunkText_eq e s []
      rw [List.append_nil, encodeText_nil, List.append_nil] at hc
      refine ⟨r, _, hr, h.passed _ _, ?_⟩
      rw [begun_passed h.header hu, hc]
      have he : encodeText e s = utf8Bytes s := by rw [encodeText, if_pos hu]
      simp only [Piece.bytes] at hb
      simp [pieceChunks, Piece.bytes, hb, he]
    | buf b =>
      -- the size, the bytes and the end of the line are sent one after the other
      obtain ⟨r₁, h₁⟩ := send_str_attached h.attached (hex b.length ++ crlf) none
      have hs₁ := h.passed (hex b.length ++ crlf) none
      have hb₁ := begun_passed h.header (e := none) rfl (hex b.length ++ crlf)
      have hsent : (m.passed (hex b.length ++ crlf) none).headerSent = true := rfl
      generalize m.passed (hex b.length ++ crlf) none = m₁ at *
      obtain ⟨r₂, h₂⟩ := send_buf_attached hs₁.attached hsent b none
      have hs₂ : Streaming (m₁.pushed (.buf b, none)) fields :=
        ⟨hs₁.header, hs₁.chunkedEncoding, hs₁.hasBody, hs₁.attached, hs₁.trailer⟩
      have hb₂ : (m₁.pushed (.buf b, none)).begun = m₁.begun ++ b := by
        have hu₁ : m₁.unsent = [] := by rw [unsent, hsent, if_pos rfl]
        have hu : (m₁.pushed (.buf b, none)).unsent = [] := hu₁
        simp [begun, hu, hu₁, carried_pushed, entryBytes]
      generalize m₁.pushed (.buf b, none) = m₂ at *
      obtain ⟨r₃, h₃⟩ := send_str_attached hs₂.attached crlf none
      refine ⟨r₃, _, ?_, hs₂.passed crlf none, ?_⟩
      · simp only [Piece.chunk, Op.bind_apply, h₁, h₂, h₃]
      · have hhex : encodeText none (hex b.length ++ crlf) =
            Chunked.digits b.length ++ Chunked.crlf := by
          rw [encodeText_of_isAscii ((isAscii_hex _).append isAscii_crlf), ← latin1Bytes_hex,
            ← latin1Bytes_crlf, latin1Bytes, List.map_append]
          rfl
        have hcr : encodeText none crlf = Chunked.crlf := rfl
        simp only [Piece.bytes] at hb
        rw [begun_passed hs₂.header rfl, hb₂, hb₁, hhex, hcr]
        simp [pieceChunks, Piece.bytes, hb, Chunked.encodeChunk]

theorem write_piece (h : Streaming m fields) (d : Piece) :
    ∃ r m', write d.chunk d.encoding m = .ok r m' ∧ Streaming m' fields ∧
      m'.begun = m.begun ++ (pieceChunks d).flatMap Chunked.encodeChunk := by
  rw [write_apply h.header]
  exact writeBody_piece h d

/-- What the socket has got once the last chunk is out. -/
theorem carried_ended (h : Streaming m fields) :
    (m.passed m.lastText none).ended.carried =
      m.begun ++ Chunked.encodeLast (fields.map TrailerField.line) := by
  have hb := begun_passed h.header (e := none) rfl m.lastText
  have hu : (m.passed m.lastText none).unsent = [] := rfl
  have hc : (m.passed m.lastText none).ended.carried = (m.passed m.lastText none).carried := rfl
  rw [begun, hu, encodeText_nil, List.append_nil] at hb
  rw [hc, hb, lastText, if_pos h.chunkedEncoding, encodeText_lastChunk_eq h.trailer rfl]

/-- Nothing is written for an empty piece. -/
theorem writeData_empty (h : Streaming m fields) {c : Chunk} (hc : c.length = 0)
    (e : Option TextEncoding) : writeData (some c) e m = .ok ⟨⟩ m := by
  rcases c with (_ | ⟨u, s⟩) | b
  · rfl
  · simp [Chunk.length] at hc
  · simp only [writeData, Op.bind_apply, write_apply h.header, writeBody, Op.get_apply, h.hasBody,
      Bool.not_true, Bool.false_eq_true, if_false, hc, if_true, Op.pure_apply]

theorem hot_empty {c : Chunk} (hc : c.length = 0) : m.hot (some c) = none := by
  rcases c with (_ | ⟨u, s⟩) | b
  · simp [hot]
  · simp [Chunk.length] at hc
  · rfl

/-- `end` adds its data and the last chunk. -/
theorem end_piece (h : Streaming m fields) (data : Option Piece) :
    ∃ r m', «end» (data.map Piece.chunk) (data.bind Piece.encoding) m = .ok r m' ∧
      m'.output = [] ∧ m'.carried = m.begun ++
        Chunked.encode (data.toList.flatMap pieceChunks) (fields.map TrailerField.line) := by
  rcases data with _ | d
  · obtain ⟨r, hr⟩ := end_none_attached h.header h.attached
    exact ⟨r, _, hr, rfl, carried_ended h⟩
  · simp only [Option.map_some, Option.bind_some, Option.toList_some, List.flatMap_singleton]
    by_cases hl : d.chunk.length = 0
    · obtain ⟨r, hr⟩ :=
        end_cold h.header (hot_empty hl) (writeData_empty h hl d.encoding) h.attached
      refine ⟨r, _, hr, rfl, ?_⟩
      simp [carried_ended h, pieceChunks, (length_chunk_eq_zero d).mp hl, Chunked.encode]
    · have hb : d.bytes ≠ [] := fun hb ↦ hl ((length_chunk_eq_zero d).mpr hb)
      cases hhot : m.hot (some d.chunk) with
      | none =>
        -- without the shortcut, `end` is `write` and then an `end` without data
        obtain ⟨r₁, m₁, hw, hs, hb₁⟩ := write_piece h d
        obtain ⟨r, hr⟩ := end_none_attached hs.header hs.attached
        have hhot' : m.ensured.hot (some d.chunk) = none := by rwa [ensured_of_isSome h.header]
        refine ⟨r, (m₁.passed m₁.lastText none).ended, ?_, rfl, ?_⟩
        · rw [end_eq_of_not_hot hl hhot']
          simp only [Op.bind_apply, hw, hr]
        · rw [carried_ended hs, hb₁, Chunked.encode, List.append_assoc]
      | some s =>
        obtain ⟨hd, -⟩ := hot_eq_some hhot
        cases d with
        | buf b => simp [Piece.chunk] at hd
        | text t e hu hw =>
          obtain rfl : t = s := by simpa [Piece.chunk] using hd
          obtain ⟨r, hr⟩ := end_hot (e := e) h.header hhot
          refine ⟨r, _, hr, rfl, ?_⟩
          have hpb := begun_passed h.header hu (m.hotText e t)
          have hun : (m.passed (m.hotText e t) e).unsent = [] := rfl
          have hc : (m.passed (m.hotText e t) e).ended.carried =
              (m.passed (m.hotText e t) e).carried := rfl
          have he : encodeText e t = utf8Bytes t := by rw [encodeText, if_pos hu]
          rw [begun, hun, encodeText_nil, List.append_nil] at hpb
          simp only [Piece.bytes] at hb
          rw [hc, hpb, hotText, if_pos h.chunkedEncoding, encodeText_chunkText_eq,
            encodeText_lastChunk_eq h.trailer hu, he]
          simp [pieceChunks, Piece.bytes, hb, Chunked.encode]

theorem flatten_pieceChunks (d : Piece) : (pieceChunks d).flatten = d.bytes := by
  rw [pieceChunks]
  split_ifs with h
  · exact h.symm
  · simp

theorem ne_nil_of_mem_pieceChunks {d : Piece} {b : Bytes} (h : b ∈ pieceChunks d) : b ≠ [] := by
  rw [pieceChunks] at h
  split_ifs at h with hne
  · simp at h
  · rw [List.mem_singleton.mp h]
    exact hne

/-! ## All calls -/

/-- The chunks of a call before `end`. -/
def callChunks : BodyCall → List Bytes
  | .write d => pieceChunks d
  | .addTrailers _ => []

/-- **One call** adds its chunks. -/
theorem run_call (h : Streaming m fields) (c : BodyCall) :
    ∃ m', c.run m = .ok ⟨⟩ m' ∧ Streaming m' (lastTrailers fields [c]) ∧
      m'.begun = m.begun ++ (callChunks c).flatMap Chunked.encodeChunk := by
  cases c with
  | write d =>
    obtain ⟨r, m', hw, hs, hb⟩ := write_piece h d
    refine ⟨m', ?_, hs, hb⟩
    simp only [BodyCall.run, Op.bind_apply, hw, Op.pure_apply]
  | addTrailers fields' =>
    refine ⟨{ m with trailer := trailerText fields' }, rfl,
      ⟨h.header, h.chunkedEncoding, h.hasBody, h.attached, rfl⟩, ?_⟩
    simp [begun, carried, unsent, headerText, callChunks]

theorem lastTrailers_cons (fields : List TrailerField) (c : BodyCall) (calls : List BodyCall) :
    lastTrailers fields (c :: calls) = lastTrailers (lastTrailers fields [c]) calls := by
  cases c <;> rfl

/-- **All calls** add their chunks, and `end` the last one. -/
theorem runBody_encodes (h : Streaming m fields) (calls : List BodyCall) (data : Option Piece) :
    ∃ m', runBody data calls m = .ok ⟨⟩ m' ∧ m'.output = [] ∧
      m'.carried = m.begun ++
        Chunked.encode (calls.flatMap callChunks ++ data.toList.flatMap pieceChunks)
          ((lastTrailers fields calls).map TrailerField.line) := by
  induction calls generalizing m fields with
  | nil =>
    obtain ⟨r, m', he, ho, hc⟩ := end_piece h data
    refine ⟨m', ?_, ho, hc⟩
    simp only [runBody, Op.bind_apply, he, Op.pure_apply]
  | cons c calls ih =>
    obtain ⟨m₁, hr, hs, hb⟩ := run_call h c
    obtain ⟨m', hr', ho, hc⟩ := ih hs
    refine ⟨m', ?_, ho, ?_⟩
    · simp only [runBody, Op.bind_apply, hr, hr']
    · rw [hc, hb, lastTrailers_cons fields c calls]
      simp [Chunked.encode]

theorem flatten_callChunks (calls : List BodyCall) :
    (calls.flatMap callChunks).flatten = calls.flatMap BodyCall.bytes := by
  induction calls with
  | nil => rfl
  | cons c calls ih =>
    rw [List.flatMap_cons, List.flatten_append, ih, List.flatMap_cons]
    cases c with
    | write d => rw [callChunks, flatten_pieceChunks, BodyCall.bytes]
    | addTrailers fields => rfl

/-- **Chunked bodies are read back.** Behind the header block the socket gets a body that a reader
accepts to its end: no chunk of it is empty, together they are what was written, and the trailer is
the one that was last given. -/
theorem end_decodes (h : Streaming m fields) (calls : List BodyCall) (data : Option Piece) :
    ∃ m' body chunks, runBody data calls m = .ok ⟨⟩ m' ∧ m'.output = [] ∧
      entriesBytes m'.wire = m.carried ++ encodeText none m.unsent ++ body ∧
      Chunked.decode body =
        some ⟨chunks, (lastTrailers fields calls).map TrailerField.line, []⟩ ∧
      (∀ b ∈ chunks, b ≠ []) ∧
      chunks.flatten = calls.flatMap BodyCall.bytes ++ data.toList.flatMap Piece.bytes := by
  obtain ⟨m', hr, ho, hc⟩ := runBody_encodes h calls data
  have hne : ∀ b ∈ calls.flatMap callChunks ++ data.toList.flatMap pieceChunks, b ≠ [] := by
    intro b hb
    rcases List.mem_append.mp hb with hb | hb
    · obtain ⟨c, -, hbc⟩ := List.mem_flatMap.mp hb
      cases c with
      | write d => exact ne_nil_of_mem_pieceChunks hbc
      | addTrailers fields => simp [callChunks] at hbc
    · obtain ⟨d, -, hbd⟩ := List.mem_flatMap.mp hb
      exact ne_nil_of_mem_pieceChunks hbd
  have hlines : ∀ l ∈ (lastTrailers fields calls).map TrailerField.line,
      l ≠ [] ∧ (0x0D : UInt8) ∉ l := by
    intro l hl
    obtain ⟨f, -, rfl⟩ := List.mem_map.mp hl
    exact ⟨f.line_ne_nil, f.cr_not_mem_line⟩
  have hd := Chunked.decode_encode hne (fun l hl ↦ (hlines l hl).1) (fun l hl ↦ (hlines l hl).2) []
  rw [List.append_nil] at hd
  refine ⟨m', _, _, hr, ho, ?_, hd, hne, ?_⟩
  · rw [← begun, ← hc, carried, ho, List.append_nil]
  · rw [List.flatten_append, flatten_callChunks]
    cases data with
    | none => rfl
    | some d => simp [flatten_pieceChunks]

/-- A response that owns its socket and has written its head. -/
def openResponse : Message :=
  after (writeHead (fun _ ↦ none) 200 none none
    (after (assignSocket true true (serverResponse false 1 1))))

theorem end_decodes_hi :
    ∃ m' body chunks,
      runBody none [.write (.text (js "hi") none rfl rfl)] openResponse = .ok ⟨⟩ m' ∧
      m'.output = [] ∧
      entriesBytes m'.wire =
        openResponse.carried ++ encodeText none openResponse.unsent ++ body ∧
      Chunked.decode body = some ⟨chunks, [], []⟩ ∧ (∀ b ∈ chunks, b ≠ []) ∧
      chunks.flatten = [0x68, 0x69] :=
  @end_decodes _ [] ⟨rfl, rfl, rfl, rfl, rfl⟩ [.write (.text (js "hi") none rfl rfl)] none

end Message

end SpiderNode.Http
