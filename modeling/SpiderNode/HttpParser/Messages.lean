import SpiderNode.HttpParser.FirstLine
import SpiderNode.HttpParser.Bodies
import SpiderNode.HttpParser.Calls

/-!
# Messages

What a parser of requests or of responses is told by the bytes of messages that follow each other
on a connection. `executeAll_messages` is that all of it gets to the user, and in these texts,
however the bytes are cut into chunks.
-/

namespace SpiderNode.HttpParser

open Scanner (Code Event texts parts)

variable {σ : Type*} {L : Listener σ} {strict : Bool} {answer : Notice → ℤ} {m : Message}

/-! ## The parts of a message -/

inductive FirstLine where
  | request (l : RequestLine)
  | status (l : StatusLine)
  deriving DecidableEq, Repr

namespace FirstLine

def bytes : FirstLine → List UInt8
  | request l => l.bytes
  | status l => l.bytes

def Good : FirstLine → Prop
  | request l => l.Good
  | status l => l.Good

instance (l : FirstLine) : Decidable l.Good := by
  unfold Good
  cases l <;> infer_instance

def store : FirstLine → Message → Message
  | request l, m => l.store m
  | status l, m => l.store m

def told : FirstLine → Message → List (Event UInt8 Kind Notice)
  | request l, m => l.told m
  | status _, m => StatusLine.told m

/-- The type of the parser that reads the line. -/
def type : FirstLine → ParserType
  | request _ => .request
  | status _ => .response

/-- The state in which the line is read. -/
def start : FirstLine → State
  | request _ => .startReq
  | status _ => .startRes

end FirstLine

inductive Body where
  | none
  | identity (data : List UInt8)
  | chunked (chunks : List Chunk) (last : LastChunk)
  | untilEof (data : List UInt8)
  deriving DecidableEq, Repr

namespace Body

def bytes : Body → List UInt8
  | none => []
  | identity data | untilEof data => data
  | chunked chunks last => chunks.flatMap Chunk.bytes ++ last.bytes

/-- The body is of the kind that the head says. -/
def Fits (m : Message) : Body → Prop
  | none => m.bodyKind = .none
  | identity data => m.bodyKind = .identity ∧ m.contentLength = data.length
  | chunked chunks last => m.bodyKind = .chunked ∧ (∀ c ∈ chunks, c.Good) ∧ last.Good
  | untilEof _ => m.bodyKind = .untilEof

instance (m : Message) (b : Body) : Decidable (b.Fits m) := by
  unfold Fits
  cases b <;> infer_instance

/-- The message behind the body. -/
def store (m : Message) : Body → Message
  | none | untilEof _ => m
  | identity _ => { m with contentLength := 0 }
  | chunked _ last => last.store m

/-- The state behind the body. -/
def after (strict : Bool) (m : Message) : Body → State
  | untilEof _ => .bodyIdentityEof
  | body => (body.store m).next strict

def told (m : Message) : Body → List (Event UInt8 Kind Notice)
  | none => [.notify (.messageComplete m)]
  | identity data => parts data ++ [.notify (.messageComplete { m with contentLength := 0 })]
  | chunked chunks last => parts (chunks.flatMap Chunk.data) ++ last.told m
  | untilEof data => parts data

end Body

/-- A message as it is sent. -/
structure Wire where
  first : FirstLine
  headers : List Header
  body : Body
  deriving DecidableEq, Repr

namespace Wire

def head (w : Wire) : List UInt8 :=
  w.first.bytes ++ (w.headers.flatMap Header.bytes ++ [cr, lf])

def bytes (w : Wire) : List UInt8 := w.head ++ w.body.bytes

/-- What the user is told when the head is complete. -/
def headed (w : Wire) (m : Message) : Message :=
  (storeHeaders w.headers (w.first.store m)).headed

/-- The message behind the head, by the answer of the user. -/
def answered (answer : Notice → ℤ) (w : Wire) (m : Message) : Message :=
  (w.headed m).skipped (answer (.headersComplete (w.headed m)) = 1)

/-- A message that the parser reads: its parts are good, its head has room, the body fits the head,
and it is no upgrade. -/
@[mk_iff]
structure Good (answer : Notice → ℤ) (w : Wire) (m : Message) : Prop where
  first : w.first.Good
  headers : ∀ h ∈ w.headers, h.Good
  room : w.head.length ≤ maxHeaderSize
  upgrade : (w.headed m).upgrade = false
  answers : answer (.headersComplete (w.headed m)) = 0 ∨
    answer (.headersComplete (w.headed m)) = 1
  body : w.body.Fits (w.answered answer m)

instance (answer : Notice → ℤ) (w : Wire) (m : Message) : Decidable (w.Good answer m) :=
  decidable_of_iff _ (good_iff answer w m).symm

/-- The message behind the last byte. -/
def store (answer : Notice → ℤ) (w : Wire) (m : Message) : Message :=
  w.body.store (w.answered answer m)

/-- The state behind the last byte. -/
def after (strict : Bool) (answer : Notice → ℤ) (w : Wire) (m : Message) : State :=
  w.body.after strict (w.answered answer m)

/-- All that the user is told. -/
def told (answer : Notice → ℤ) (w : Wire) (m : Message) : List (Event UInt8 Kind Notice) :=
  w.first.told m ++ w.headers.flatMap Header.told ++
    .notify (.headersComplete (w.headed m)) :: w.body.told (w.answered answer m)

end Wire

/-! ## One message -/

/-- The callbacks that have to return zero. -/
structure Accepts (answer : Notice → ℤ) : Prop where
  messageBegin (m : Message) : answer (.messageBegin m) = 0
  messageComplete (m : Message) : answer (.messageComplete m) = 0

theorem reads_firstLine (hk : L.settings.Lawful Kind.Beside) (ha : Accepts L.answer)
    {l : FirstLine} (hl : l.Good) {r : ℕ} (hr : l.bytes.length + r ≤ maxHeaderSize) :
    L.Reads (Ready l.start m) l.bytes
      (At .headerFieldStart (l.store m) anyWord r) (l.told m) := by
  cases l with
  | request l => exact reads_requestLine hk ha.messageBegin hl hr
  | status l => exact reads_statusLine ha.messageBegin hl hr

theorem trailing_firstLine (l : FirstLine) (m : Message) :
    (l.store m).flags.trailing = false := by
  cases l <;> rfl

/-- **The head.** -/
theorem reads_head (hk : L.settings.Lawful Kind.Beside) (ha : Accepts L.answer) {w : Wire}
    (hw : w.Good L.answer m) :
    L.Reads (Ready w.first.start m) w.head
      (Ready ((w.answered L.answer m).bodyKind.state L.strict (w.answered L.answer m))
        (w.answered L.answer m))
      (w.first.told m ++ w.headers.flatMap Header.told ++
        .notify (.headersComplete (w.headed m)) ::
          (w.answered L.answer m).bodyKind.told (w.answered L.answer m)) := by
  have hroom := hw.room
  simp only [Wire.head, List.length_append, List.length_cons, List.length_nil] at hroom
  have hfirst := reads_firstLine (L := L) (m := m)
    (r := (w.headers.flatMap Header.bytes).length + (0 + 2)) hk ha hw.first (by omega)
  have hheaders := reads_headers (L := L) (r := 0 + 2)
    (m := w.first.store m) hk hw.headers
  have hskip : L.answer (.headersComplete (w.headed m)) =
      if decide (L.answer (.headersComplete (w.headed m)) = 1) then 1 else 0 := by
    rcases hw.answers with h | h <;> rw [h] <;> rfl
  have hend := reads_headEnd (L := L) (r := 0)
    (m := storeHeaders w.headers (w.first.store m)) ha.messageComplete
    ((trailing_storeHeaders _ _).trans (trailing_firstLine _ _)) hw.upgrade hskip
  have hall := (hfirst.append hheaders).append hend
  rwa [List.append_assoc] at hall

theorem chunked_of_bodyKind (h : m.bodyKind = .chunked) : m.flags.chunked := by
  unfold Message.bodyKind at h
  split_ifs at h with h₁ h₂
  exact h₂

theorem contentLength_of_bodyKind (h : m.bodyKind = .identity) : 0 < m.contentLength := by
  unfold Message.bodyKind at h
  split_ifs at h with h₁ h₂ h₃ h₄
  exact h₄

/-- **The body**, of the kind that the head says. -/
theorem reads_body (hk : L.settings.Lawful Kind.Beside) (ha : Accepts L.answer) {body : Body}
    (hb : body.Fits m) :
    ∃ es, body.told m = m.bodyKind.told m ++ es ∧
      L.Reads (Ready (m.bodyKind.state L.strict m) m) body.bytes
        (Ready (body.after L.strict m) (body.store m)) es := by
  cases body with
  | none =>
    have hb' : m.bodyKind = .none := hb
    refine ⟨[], by rw [hb']; rfl, ?_⟩
    rw [hb']
    exact Scanner.Reads.nil fun c hc ↦ hc
  | identity data =>
    obtain ⟨hkind, hl⟩ := hb
    have hpos := contentLength_of_bodyKind hkind
    have hne : data ≠ [] := by
      rintro rfl
      rw [hl] at hpos
      exact absurd hpos (by decide)
    refine ⟨_, by rw [hkind]; rfl, ?_⟩
    rw [hkind]
    exact reads_identity hk ha.messageComplete hne hl
  | chunked chunks last =>
    obtain ⟨hkind, hchunks, hlast⟩ := hb
    have hch := chunked_of_bodyKind hkind
    refine ⟨_, by rw [hkind]; rfl, ?_⟩
    rw [hkind]
    obtain ⟨n, hread⟩ := reads_chunks (L := L) hk hch hchunks
    exact hread.append (reads_lastChunk (m := { m with contentLength := n }) hk ha.messageComplete
      hch hlast)
  | untilEof data =>
    have hb' : m.bodyKind = .untilEof := hb
    refine ⟨_, by rw [hb']; rfl, ?_⟩
    rw [hb']
    exact reads_untilEof hk data

/-- **A message.** -/
theorem reads_message (hk : L.settings.Lawful Kind.Beside) (ha : Accepts L.answer) {w : Wire}
    (hw : w.Good L.answer m) :
    L.Reads (Ready w.first.start m) w.bytes
      (Ready (w.after L.strict L.answer m) (w.store L.answer m)) (w.told L.answer m) := by
  obtain ⟨es, htold, hbody⟩ := reads_body (L := L) hk ha hw.body
  have hall := (reads_head hk ha hw).append hbody
  rw [List.append_assoc, List.cons_append] at hall
  rw [Wire.told, htold]
  exact hall

/-! ## Messages one after the other -/

/-- The state in which messages begin. -/
def ParserType.start : ParserType → State
  | request => .startReq
  | response => .startRes
  | both => .startReqOrRes

theorem FirstLine.start_eq (l : FirstLine) : l.start = l.type.start := by
  cases l <;> rfl

/-- Another message can begin behind this one. -/
def Wire.Continues (strict : Bool) (answer : Notice → ℤ) (w : Wire) (m : Message) : Prop :=
  (w.answered answer m).bodyKind ≠ .untilEof ∧ (strict → (w.store answer m).shouldKeepAlive)

instance (answer : Notice → ℤ) (w : Wire) (m : Message) :
    Decidable (w.Continues strict answer m) :=
  inferInstanceAs (Decidable (_ ∧ _))

theorem type_header (h : Header) (m : Message) : (h.store m).type = m.type := by
  unfold Header.store
  split_ifs
  · rfl
  · cases fieldKind h.name <;> first
      | rfl
      | simp only [Header.effect]
        split_ifs <;> rfl

theorem type_storeHeaders (hs : List Header) (m : Message) :
    (storeHeaders hs m).type = m.type := by
  induction hs generalizing m with
  | nil => rfl
  | cons h hs ih => exact (ih _).trans (type_header h m)

theorem type_store (w : Wire) (m : Message) : (w.store answer m).type = m.type := by
  have hfirst : (w.first.store m).type = m.type := by
    cases w.first <;> rfl
  have hhead : (w.answered answer m).type = m.type := by
    unfold Wire.answered Wire.headed Message.skipped Message.headed
    split_ifs <;> exact (type_storeHeaders _ _).trans hfirst
  unfold Wire.store
  cases w.body with
  | chunked chunks last => exact (type_storeHeaders _ _).trans hhead
  | _ => exact hhead

theorem after_eq {w : Wire} (ht : w.first.type = m.type) (hw : w.Good answer m)
    (hc : w.Continues strict answer m) : w.after strict answer m = m.type.start := by
  obtain ⟨hkind, hkeep⟩ := hc
  have hnext : (w.store answer m).next strict = m.type.start := by
    unfold Message.next
    rw [if_neg fun h ↦ h.2 (hkeep h.1), type_store]
    rcases hl : w.first with l | l <;> rw [hl] at ht <;> rw [← ht] <;> rfl
  have hbody := hw.body
  unfold Wire.after
  unfold Wire.store at hnext
  cases hb : w.body with
  | untilEof data =>
    rw [hb] at hbody
    exact absurd hbody hkind
  | _ => rw [hb] at hnext; exact hnext

/-- Messages that follow each other: each is one that the parser reads, and another one can begin
behind each but the last. -/
def Follow (strict : Bool) (answer : Notice → ℤ) : List Wire → Message → Prop
  | [], _ => True
  | w :: ws, m => w.first.type = m.type ∧ w.Good answer m ∧
      (ws ≠ [] → w.Continues strict answer m) ∧ Follow strict answer ws (w.store answer m)

instance decidableFollow (strict : Bool) (answer : Notice → ℤ) :
    ∀ ws m, Decidable (Follow strict answer ws m)
  | [], _ => instDecidableTrue
  | _ :: ws, _ =>
    have := decidableFollow strict answer ws
    inferInstanceAs (Decidable (_ ∧ _ ∧ (_ → _) ∧ _))

/-- All that the user is told. -/
def tellAll (answer : Notice → ℤ) : List Wire → Message → List (Event UInt8 Kind Notice)
  | [], _ => []
  | w :: ws, m => w.told answer m ++ tellAll answer ws (w.store answer m)

/-- The message behind the last byte. -/
def storeAll (answer : Notice → ℤ) (ws : List Wire) (m : Message) : Message :=
  ws.foldl (fun m w ↦ w.store answer m) m

theorem reads_messages (hk : L.settings.Lawful Kind.Beside) (ha : Accepts L.answer)
    {ws : List Wire} (h : Follow L.strict L.answer ws m) :
    L.Reads (Ready m.type.start m) (ws.flatMap Wire.bytes)
      (fun c ↦ c.toMessage = storeAll L.answer ws m) (tellAll L.answer ws m) := by
  induction ws generalizing m with
  | nil => exact Scanner.Reads.nil fun c hc ↦ hc.message
  | cons w ws ih =>
    obtain ⟨ht, hw, hcontinues, hrest⟩ := h
    have hfirst := reads_message (L := L) hk ha hw
    rw [w.first.start_eq, ht] at hfirst
    rw [List.flatMap_cons]
    rcases eq_or_ne ws [] with rfl | hne
    · have hlast := hfirst.mono (fun c hc ↦ hc) fun c hc ↦ hc.message
      simpa [tellAll, storeAll] using hlast
    · have hnext := ih hrest
      rw [type_store] at hnext
      rw [after_eq ht hw (hcontinues hne)] at hfirst
      exact hfirst.append hnext

/-- **Messages are read as they are sent.** A parser that has been initialised reads all bytes of
messages that follow each other, and the user is told their texts, whatever the chunks are. -/
theorem executeAll_messages (hk : L.settings.Lawful Kind.Beside)
    (hans : L.settings.Answers L.answer)
    (ha : Accepts L.answer) {parser : Parser} (hp : parser.index < 2 ^ 8) {t : ParserType}
    {ws : List Wire} (h : Follow L.strict L.answer ws (parser.init t).toMessage)
    {chunks : List (List UInt8)} (hall : ∀ x ∈ chunks, x ≠ [])
    (hcut : chunks.flatten = ws.flatMap Wire.bytes) (user : σ) :
    ∃ parser', executeAll L.strict L.settings chunks (parser.init t) user =
        .returned parser' chunks.flatten.length
          (L.settings.play (tellAll L.answer ws (parser.init t).toMessage) user) ∧
      parser'.toMessage = storeAll L.answer ws (parser.init t).toMessage := by
  have hready : Ready t.start (parser.init t).toMessage (parser.init t) :=
    ⟨by cases t <;> rfl, rfl, rfl⟩
  obtain ⟨c, hfeed, hc⟩ := Scanner.feed_of_reads (lawful L.strict) hk hans (reads_messages hk ha h)
    hall hcut hready user
  have hreports := reports_executeAll L.strict hk hall (Parser.init_sound hp t) user
  rw [hfeed] at hreports
  generalize hr : executeAll L.strict L.settings chunks (parser.init t) user = result
    at hreports ⊢
  cases hreports with
  | ok c user => exact ⟨c, rfl, hc⟩

/-- A request with a chunk and a trailer, and one without a body. -/
def twoRequests : List Wire :=
  [⟨.request ⟨.post, .origin (text "/a?b"), ⟨text "1", text "1"⟩⟩,
    [⟨text "Transfer-Encoding", 1, text "chunked"⟩],
    .chunked [⟨⟨text "2", []⟩, text "hi"⟩] ⟨⟨text "0", []⟩, [⟨text "X", 1, text "y"⟩]⟩⟩,
   ⟨.request ⟨.get, .origin (text "/"), ⟨text "1", text "1"⟩⟩, [], .none⟩]

/-- The bytes of `twoRequests`, cut in the middle of a header and of the chunk. -/
def threeChunks : List (List UInt8) :=
  [text "POST /a?b HTTP/1.1\r\nTransfer-", text "Encoding: chunked\r\n\r\n2\r\nh",
    text "i\r\n0\r\nX: y\r\n\r\nGET / HTTP/1.1\r\n\r\n"]

/-- What the callbacks of `record` have been told of `twoRequests`. -/
theorem executeAll_messages_twoRequests : ∃ parser' user,
    executeAll true record threeChunks (Parser.blank.init .request) .empty =
      .returned parser' threeChunks.flatten.length user ∧
    user.texts = [(.url, text "/"), (.headerValue, text "y"), (.headerField, text "X"),
      (.headerValue, text "chunked"), (.headerField, text "Transfer-Encoding"),
      (.url, text "/a?b")] ∧ user.body = text "hi" := by
  have hfollow : Follow true (fun _ ↦ 0) twoRequests (Parser.blank.init .request).toMessage := by
    decide +kernel
  have hcut : threeChunks.flatten = twoRequests.flatMap Wire.bytes := by decide +kernel
  obtain ⟨parser', h, -⟩ := executeAll_messages (L := ⟨true, record, fun _ ↦ 0⟩) record_lawful
    (fun _ _ ↦ rfl) ⟨fun _ ↦ rfl, fun _ ↦ rfl⟩ (by decide) hfollow (by decide) hcut .empty
  refine ⟨parser', _, h, ?_⟩
  decide +kernel

end SpiderNode.HttpParser
