import SpiderNode.Http.Session

/-!
# What a connection receives

`socket.ondata` of `lib/http.js` gives each slice of a buffer that is read to the parser. At an
upgrade it hands the connection over to the user, or destroys the socket if nobody listens.
`receive_messages` is that messages which follow each other are received as they are sent, in order
and complete, however their bytes are cut into slices.

`expected` says what becomes of a message. The headers get all trailer lines but the last one, as in
`message_eq`. What the parser is answered may change from one message to the next, so messages are
read one by one (`execute_message`) and then cut as they come.
-/

namespace SpiderNode.Http

open HttpParser (Info Kind Notice FirstLine Wire Header)
open Net (JsError)

/-! ## The contents of a message -/

/-- The URL of a request. -/
def urlOf : FirstLine → Bytes
  | .request l => l.target.bytes
  | .status _ => []

def contentOf : HttpParser.Body → Bytes
  | .none => []
  | .identity data | .untilEof data => data
  | .chunked chunks _ => chunks.flatMap HttpParser.Chunk.data

def trailersOf : HttpParser.Body → List Header
  | .chunked _ last => last.trailers
  | _ => []

/-- The end of the body does not need the end of the input. -/
def Ends : HttpParser.Body → Bool
  | .untilEof _ => false
  | _ => true

/-- A header as a line. -/
def lineOf (lower : UInt16 → UInt16) (h : Header) : JSString × JSString :=
  (toLowerCase lower (asciiText h.name), asciiText h.value)

/-- The values of all lines are ASCII. -/
def AsciiValues (w : Wire) : Prop :=
  ∀ h ∈ w.headers ++ trailersOf w.body, ∀ b ∈ h.value, b.toNat < 0x80

/-- What becomes of a message. -/
def expected (lower : UInt16 → UInt16) (w : Wire) (m : HttpParser.Message) :
    Except JsError Received := do
  let lines := (trailersOf w.body).map (lineOf lower)
  let headers ← addLines [] (w.headers.map (lineOf lower) ++ lines.dropLast)
  let trailers ← addLines [] lines.getLast?.toList
  return ⟨⟨asciiText (urlOf w.first), headers, trailers, true⟩, some (w.headed m).info,
    contentOf w.body⟩

/-! ## Messages that follow each other -/

/-- Messages that follow each other, of which the first is the `i`-th of its connection: each is one
that the parser reads, and another one can begin behind each but the last. -/
def Follow (strict : Bool) (onIncoming : ℕ → Info → Bool) :
    ℕ → List Wire → HttpParser.Message → Prop
  | _, [], _ => True
  | i, w :: ws, m => w.first.type = m.type ∧ w.Good (answer (onIncoming i)) m ∧
      (ws ≠ [] → w.Continues strict (answer (onIncoming i)) m) ∧
      Follow strict onIncoming (i + 1) ws (w.store (answer (onIncoming i)) m)

instance decidableFollow (strict : Bool) (onIncoming : ℕ → Info → Bool) :
    ∀ i ws m, Decidable (Follow strict onIncoming i ws m)
  | _, [], _ => instDecidableTrue
  | i, _ :: ws, _ =>
    have := decidableFollow strict onIncoming (i + 1) ws
    inferInstanceAs (Decidable (_ ∧ _ ∧ (_ → _) ∧ _))

/-- What becomes of messages that follow each other. -/
def expectedAll (lower : UInt16 → UInt16) (onIncoming : ℕ → Info → Bool) :
    ℕ → List Wire → HttpParser.Message → Except JsError (List Received)
  | _, [], _ => return []
  | i, w :: ws, m => do
    let r ← expected lower w m
    let rs ← expectedAll lower onIncoming (i + 1) ws (w.store (answer (onIncoming i)) m)
    return r :: rs

/-! ## Connections -/

/-- A part of a buffer that has been read into. -/
structure Slice where
  buffer : Bytes
  start : ℕ
  stop : ℕ
  start_lt : start < stop
  stop_le : stop ≤ buffer.length

def Slice.bytes (d : Slice) : Bytes := (d.buffer.drop d.start).take (d.stop - d.start)

structure Reception where
  parser : HttpParser.Parser
  session : Session
  destroyed : Bool
  /-- What the user gets of a connection that has been upgraded. -/
  handed : Option Bytes

/-- Who reads: a server, or a client, with whether `socket._httpMessage` is set at an upgrade. -/
inductive Side where
  | server
  | client (httpMessage : Bool)
  deriving DecidableEq, Repr

/-- The end of a connection that reads. -/
structure Endpoint where
  side : Side
  /-- Whether `onIncoming` returns `true` for the message behind so many others. A client does so
  for a response to `HEAD`, and for one with the status 100. -/
  onIncoming : ℕ → Info → Bool
  /-- `self.listeners('upgrade').length` -/
  upgradeListeners : ℕ

/-- Why a call of `ondata` does not return. -/
inductive Uncaught where
  | exception
  | error (message : String)
  | assertion
  | aborted
  deriving DecidableEq, Repr

variable {Q : Option Info → Prop} [DecidablePred Q] {strict : Bool} {lower : UInt16 → UInt16}
  {onIncoming : ℕ → Info → Bool} {i : ℕ} {e : Endpoint}

/-- `socket.ondata` -/
def Reception.ondata (strict : Bool) (lower : UInt16 → UInt16) (e : Endpoint) (c : Reception)
    (d : Slice) : Except Uncaught Reception :=
  match (callbacks lower e.onIncoming).execute strict c.parser c.session d.buffer d.start
    (d.stop - d.start) with
  | .returned parser session (.bytesParsed n) =>
    if ¬session.upgraded then .ok ⟨parser, session, c.destroyed, none⟩
    else if e.side = .client false then .error .assertion
    else if d.stop < d.start + n + 1 then .error (.error "oob")
    else if 0 < e.upgradeListeners then .ok ⟨parser, session, c.destroyed,
      some ((d.buffer.drop (d.start + n + 1)).take (d.stop - (d.start + n + 1)))⟩
    else .ok ⟨parser, session, true, none⟩
  | .returned parser session (.parseError _) => .ok ⟨parser, session, true, none⟩
  | .returned _ _ .threw => .error .exception
  | .returned _ _ (.invalid message) => .error (.error message)
  | .aborted => .error .aborted

/-- Data for the connection: nothing is read once it is destroyed, and behind an upgrade there is
only the user. -/
def Reception.read (strict : Bool) (lower : UInt16 → UInt16) (e : Endpoint) (c : Reception)
    (d : Slice) : Except Uncaught Reception :=
  match c.handed with
  | some head => .ok { c with handed := some (head ++ d.bytes) }
  | none => if c.destroyed then .ok c else c.ondata strict lower e d

theorem Slice.length_bytes (d : Slice) : d.bytes.length = d.stop - d.start := by
  have h₁ := d.start_lt
  have h₂ := d.stop_le
  rw [bytes, List.length_take, List.length_drop]
  omega

theorem Slice.bytes_ne_nil (d : Slice) : d.bytes ≠ [] := by
  have h := d.start_lt
  rw [← List.length_pos_iff, length_bytes]
  omega

/-! ## ASCII -/

theorem lt_of_token {b : UInt8} (h : HttpParser.token b ≠ 0) : b.toNat < 0x80 := by
  by_contra hb
  have hlen : HttpParser.tokens.length = 0x80 := by decide +kernel
  refine h ?_
  rw [HttpParser.token, List.getD_eq_getElem?_getD, List.getElem?_eq_none (by omega)]
  rfl

theorem lt_of_isAlpha {b : UInt8} (h : HttpParser.isAlpha b) : b.toNat < 0x80 := by
  have hle : b.toNat ≤ (b ||| 0x20).toNat := by
    rw [UInt8.toNat_or]
    exact Nat.left_le_or
  have hz : (b ||| 0x20).toNat ≤ 'z'.toUInt8.toNat := by
    have := of_decide_eq_true h
    exact UInt8.le_iff_toNat_le.mp this.2
  exact lt_of_le_of_lt (hle.trans hz) (by decide)

theorem lt_of_isDigit {b : UInt8} (h : HttpParser.isDigit b) : b.toNat < 0x80 := by
  have := of_decide_eq_true h
  exact lt_of_le_of_lt (UInt8.le_iff_toNat_le.mp this.2) (by decide)

theorem lt_of_printable {b : UInt8} (h : HttpParser.printable b) : b.toNat < 0x80 := by
  rcases of_decide_eq_true h with h | rfl | rfl
  · have := of_decide_eq_true h
    exact lt_trans (UInt8.lt_iff_toNat_lt.mp this.2.1) (by decide)
  · decide
  · decide

theorem ascii_target {t : HttpParser.Target} (h : t.Good) : ∀ b ∈ t.bytes, b.toNat < 0x80 := by
  intro b hb
  cases t with
  | origin path => exact lt_of_printable (h.2 b hb)
  | absolute schema host port path =>
    obtain ⟨-, hschema, hhost, hport, hpath⟩ := h
    have hsep : ∀ b ∈ HttpParser.text "://", b.toNat < 0x80 := by decide
    simp only [HttpParser.Target.bytes, List.mem_append] at hb
    rcases hb with hb | hb | hb | hb | hb
    · exact lt_of_isAlpha (hschema b hb)
    · exact hsep b hb
    · rcases of_decide_eq_true (hhost b hb) with h | h | rfl | rfl
      · exact lt_of_isAlpha h
      · exact lt_of_isDigit h
      · decide
      · decide
    · rcases port with _ | port
      · cases hb
      · rcases List.mem_cons.mp hb with rfl | hb
        · decide
        · exact lt_of_isDigit (hport port rfl b hb)
    · rcases hpath with rfl | ⟨-, hpath⟩
      · cases hb
      · exact lt_of_printable (hpath b hb)

/-! ## What the session is told -/

/-- The slices of a line that is told at once. -/
def slicesOf (h : Header) : List Bytes × List Bytes := ([h.name], [h.value])

theorem lineOf_header {h : Header} (hg : h.Good) (ha : ∀ b ∈ h.value, b.toNat < 0x80) :
    LineOf lower (slicesOf h) (lineOf lower h) where
  texts := by
    have hn : ∀ b ∈ [h.name].flatten, b.toNat < 0x80 := by
      intro b hb
      exact lt_of_token (hg.name b (by simpa using hb))
    have hv : ∀ b ∈ [h.value].flatten, b.toNat < 0x80 := by
      intro b hb
      exact ha b (by simpa using hb)
    exact ⟨_, _, texts_of_ascii hn, texts_of_ascii hv, by simp [lineOf, slicesOf]⟩
  named := by simp [slicesOf]
  valued := by simp [slicesOf]
  name_ne_nil := by simpa [lineOf, toLowerCase, asciiText] using hg.ne_nil

theorem forall₂_lines {hs : List Header} (hg : ∀ h ∈ hs, h.Good)
    (ha : ∀ h ∈ hs, ∀ b ∈ h.value, b.toNat < 0x80) :
    List.Forall₂ (LineOf lower) (hs.map slicesOf) (hs.map (lineOf lower)) := by
  rw [List.forall₂_map_left_iff, List.forall₂_map_right_iff]
  exact List.forall₂_same.mpr fun h hh ↦ lineOf_header (hg h hh) (ha h hh)

/-- A text that is taken. -/
theorem data_of_stepText (Q : Option Info → Prop) [DecidablePred Q] (strict : Bool)
    (lower : UInt16 → UInt16) (onIncoming : ℕ → Info → Bool) (i : ℕ) {d : Kind} {b : Bytes}
    (hb : Plain d b) (s : Having Q) {p : Parser} (h : stepText lower d b s.1.parser = .ok p) :
    ((listener Q strict lower onIncoming i).settings.data d b (some s)).1 =
      some (s.withParser p) := by
  change ((watcher Q lower onIncoming).data d b (some s)).1 = _
  rw [data_watcher, if_pos hb, h]
  rfl

theorem plain_of_ascii {d : Kind} {b : Bytes} (h : ∀ x ∈ b, x.toNat < 0x80) : Plain d b := by
  simpa [Plain] using .inr h

/-- **Lines.** -/
theorem play_lines {hs : List Header} (hg : ∀ h ∈ hs, h.Good)
    (ha : ∀ h ∈ hs, ∀ b ∈ h.value, b.toNat < 0x80) {s : Having Q} {p : Parser}
    (h : ((hs.map slicesOf).flatMap headerCallbacks).foldlM (Parser.step lower) s.1.parser =
      .ok p) :
    (listener Q strict lower onIncoming i).settings.play (hs.flatMap Header.told) (some s) =
      some (s.withParser p) := by
  induction hs generalizing s with
  | nil =>
    cases h
    rfl
  | cons x hs ih =>
    have hname : Plain .headerField x.name :=
      plain_of_ascii fun b hb ↦ lt_of_token ((hg x (by simp)).name b hb)
    have hvalue : Plain .headerValue x.value := plain_of_ascii (ha x (by simp))
    have hcons : ((x :: hs).map slicesOf).flatMap headerCallbacks =
        .headerField x.name :: .headerValue x.value ::
          (hs.map slicesOf).flatMap headerCallbacks := rfl
    rw [hcons, List.foldlM_cons] at h
    rcases h₁ : Parser.step lower s.1.parser (.headerField x.name) with e | p₁
    · rw [h₁] at h
      cases h
    rw [h₁] at h
    replace h : ((Callback.headerValue x.value) ::
      (hs.map slicesOf).flatMap headerCallbacks).foldlM (Parser.step lower) p₁ = .ok p := h
    rw [List.foldlM_cons] at h
    rcases h₂ : Parser.step lower p₁ (.headerValue x.value) with e | p₂
    · rw [h₂] at h
      cases h
    rw [h₂] at h
    have htold : (x :: hs).flatMap Header.told =
        .data .headerField x.name :: .data .headerValue x.value :: hs.flatMap Header.told := rfl
    have hfirst := data_of_stepText Q strict lower onIncoming i hname s h₁
    have hsecond := data_of_stepText Q strict lower onIncoming i hvalue (s.withParser p₁) h₂
    rw [htold, Scanner.Consumer.play_cons, Scanner.Consumer.play_cons]
    simp only [Scanner.Consumer.tell]
    rw [hfirst, hsecond]
    exact ih (fun h hh ↦ hg h (by simp [hh])) (fun h hh ↦ ha h (by simp [hh])) h

theorem notify_listener {e : Notice} {s : Having Q} (s' : Session) (hs : Q s'.info)
    (h : (callbacks lower onIncoming).settings.notify e ⟨s.1, false⟩ =
      (⟨s', false⟩, answer (onIncoming i) e)) :
    ((listener Q strict lower onIncoming i).settings.notify e (some s)).1 = some ⟨s', hs⟩ :=
  HttpParser.taken_of_eq (P := fun s : Session ↦ Q s.info) hs h

theorem notify_messageBegin (hQ : Q none) (m : HttpParser.Message) (s : Having Q) :
    ((listener Q strict lower onIncoming i).settings.notify (.messageBegin m) (some s)).1 =
      some ⟨{ s.1 with parser := Parser.onMessageBegin, info := none, body := [] }, hQ⟩ :=
  notify_listener _ hQ rfl

theorem notify_headersComplete {m : HttpParser.Message} (hm : Q (some m.info)) {s : Having Q}
    (hi : s.1.received.length = i) {p : Parser} (h : s.1.parser.onHeadersComplete = .ok p) :
    ((listener Q strict lower onIncoming i).settings.notify (.headersComplete m) (some s)).1 =
      some ⟨{ s.1 with parser := p, info := some m.info }, hm⟩ := by
  refine notify_listener { s.1 with parser := p, info := some m.info } hm ?_
  change (⟨s.1, false⟩ : HttpParser.Bound Session).call _
    (some (Session.onHeadersComplete onIncoming m.info)) = _
  simp [HttpParser.Bound.call, Session.onHeadersComplete, h, hi, answer]

theorem notify_messageComplete (m : HttpParser.Message) {s : Having Q}
    (hs : s.1.upgraded = false) {p : Parser} (h : s.1.parser.onMessageComplete = .ok p) :
    ((listener Q strict lower onIncoming i).settings.notify (.messageComplete m) (some s)).1 =
      some ⟨{ s.1 with
        parser := p
        received := s.1.received ++ [⟨p.incoming, s.1.info, s.1.body⟩] }, s.2⟩ := by
  refine notify_listener { s.1 with
    parser := p
    received := s.1.received ++ [⟨p.incoming, s.1.info, s.1.body⟩] } s.2 ?_
  change (⟨s.1, false⟩ : HttpParser.Bound Session).call _ (some Session.onMessageComplete) = _
  simp [HttpParser.Bound.call, Session.onMessageComplete, h, hs, answer]

theorem play_parts (x : Bytes) (s : Having Q) :
    (listener Q strict lower onIncoming i).settings.play (Scanner.parts x) (some s) =
      some ⟨{ s.1 with body := s.1.body ++ x }, s.2⟩ := by
  unfold Scanner.parts
  split_ifs with hx
  · rw [hx, List.append_nil]
    rfl
  · exact body_watcher x s

/-! ## What becomes of one message -/

theorem inner_pathParts (p : Bytes) : HttpParser.Inner (HttpParser.pathParts p) := by
  intro x hx
  simp only [HttpParser.pathParts, HttpParser.queryParts, HttpParser.fragmentParts,
    HttpParser.part] at hx
  grind [HttpParser.Kind.IsPart]

theorem inner_parts (t : HttpParser.Target) : HttpParser.Inner t.parts := by
  cases t with
  | origin path => exact inner_pathParts path
  | absolute schema host port path =>
    simp only [HttpParser.Target.parts]
    split_ifs
    · exact HttpParser.inner_nil
    · exact inner_pathParts path

theorem play_partsTold {ps : HttpParser.Parts} (h : HttpParser.Inner ps) (u : Option (Having Q)) :
    (listener Q strict lower onIncoming i).settings.play (HttpParser.partsTold ps) u = u := by
  induction ps with
  | nil => rfl
  | cons p ps ih =>
    have hp : ((listener Q strict lower onIncoming i).settings.data p.1 p.2 u).1 = u :=
      data_part (h p (by simp)) p.2 u
    rw [HttpParser.partsTold, List.map_cons, Scanner.Consumer.play_cons]
    simp only [Scanner.Consumer.tell]
    rw [hp]
    exact ih fun q hq ↦ h q (by simp [hq])

/-- A session that has read the first line of a message. -/
def Having.opened (s : Having Q) (url : Bytes) (hQ : Q none) : Having Q :=
  ⟨{ s.1 with
    parser := ⟨⟨asciiText url, [], [], false⟩, none, none⟩
    info := none
    body := [] }, hQ⟩

theorem play_firstLine (hQ : Q none) {l : FirstLine} (hl : l.Good) (m : HttpParser.Message)
    (s : Having Q) :
    (listener Q strict lower onIncoming i).settings.play (l.told m) (some s) =
      some (s.opened (urlOf l) hQ) := by
  cases l with
  | status l => exact notify_messageBegin hQ m.fresh s
  | request l =>
    have hascii := ascii_target hl.target
    rw [FirstLine.told, HttpParser.RequestLine.told, HttpParser.urlTold,
      Scanner.Consumer.play_cons, Scanner.Consumer.play_cons]
    simp only [Scanner.Consumer.tell]
    rw [notify_messageBegin hQ,
      data_of_stepText Q strict lower onIncoming i (plain_of_ascii hascii) _
      (p := ⟨⟨asciiText l.target.bytes, [], [], false⟩, none, none⟩), play_partsTold
        (inner_parts l.target)]
    · rfl
    · simp [stepText, Parser.onURL, asciiSlice_of_ascii hascii, Parser.onMessageBegin,
        Parser.extend_eq, bind, Except.bind, pure, Except.pure]

/-- A session that has read the head of a message. -/
def Having.headed (s : Having Q) (url : Bytes) (headers : Headers) {m : HttpParser.Message}
    (hm : Q (some m.info)) : Having Q :=
  ⟨{ s.1 with
    parser := ⟨⟨asciiText url, headers, [], false⟩, none, none⟩
    info := some m.info
    body := [] }, hm⟩

/-- The head of a message up to its end. -/
theorem play_lines_head (Q : Option Info → Prop) [DecidablePred Q] (strict : Bool)
    (onIncoming : ℕ → Info → Bool) (i : ℕ) (hQ : Q none) {w : Wire} (m : HttpParser.Message)
    (hfirst : w.first.Good) (hheaders : ∀ h ∈ w.headers, h.Good) (ha : AsciiValues w)
    {headers : Headers} (hh : addLines [] (w.headers.map (lineOf lower)) = .ok headers)
    (s : Having Q) :
    ∃ p : Parser, p.onHeadersComplete =
        .ok ⟨⟨asciiText (urlOf w.first), headers, [], false⟩, none, none⟩ ∧
      (listener Q strict lower onIncoming i).settings.play
        (w.first.told m ++ w.headers.flatMap Header.told) (some s) =
          some ((s.opened (urlOf w.first) hQ).withParser p) := by
  have hvalues : ∀ h ∈ w.headers, ∀ b ∈ h.value, b.toNat < 0x80 := fun h hh ↦ ha h (by simp [hh])
  have hlines := @forall₂_lines lower _ hheaders hvalues
  have hfold := Parser.foldlM_headers hlines ⟨asciiText (urlOf w.first), [], [], false⟩
  rw [foldlM_addHeaderLine, ← addLines, hh] at hfold
  rcases hp : ((w.headers.map slicesOf).flatMap headerCallbacks).foldlM (Parser.step lower)
    (⟨⟨asciiText (urlOf w.first), [], [], false⟩, none, none⟩ : Parser) with e | p
  · rw [hp] at hfold
    cases hfold
  · rw [hp] at hfold
    refine ⟨p, hfold, ?_⟩
    rw [Scanner.Consumer.play_append, play_firstLine hQ hfirst]
    exact play_lines hheaders hvalues hp

theorem play_head (hQ : Q none) {w : Wire} {m : HttpParser.Message} (hfirst : w.first.Good)
    (hheaders : ∀ h ∈ w.headers, h.Good) (hm : Q (some (w.headed m).info)) (ha : AsciiValues w)
    {headers : Headers} (hh : addLines [] (w.headers.map (lineOf lower)) = .ok headers)
    {s : Having Q} (hi : s.1.received.length = i) :
    (listener Q strict lower onIncoming i).settings.play
        (w.first.told m ++ w.headers.flatMap Header.told ++
          [.notify (.headersComplete (w.headed m))]) (some s) =
      some (s.headed (urlOf w.first) headers hm) := by
  obtain ⟨p, hp, hplay⟩ := play_lines_head Q strict onIncoming i hQ m hfirst hheaders ha hh s
  rw [Scanner.Consumer.play_append, hplay]
  exact notify_headersComplete (s := (s.opened (urlOf w.first) hQ).withParser p) hm hi hp

/-- The message that is received. -/
def receivedOf (w : Wire) (m : HttpParser.Message) (headers trailers : Headers) : Received :=
  ⟨⟨asciiText (urlOf w.first), headers, trailers, true⟩, some (w.headed m).info,
    contentOf w.body⟩

theorem play_complete (strict : Bool) (onIncoming : ℕ → Info → Bool) (i : ℕ) {w : Wire}
    {m : HttpParser.Message} (m' : HttpParser.Message) (hm : Q (some (w.headed m).info))
    (hu : (w.headed m).upgrade = false) {T : List Header} (hT : ∀ h ∈ T, h.Good)
    (ha : ∀ h ∈ T, ∀ b ∈ h.value, b.toNat < 0x80)
    {dest headers trailers : Headers}
    (hh : addLines dest (T.map (lineOf lower)).dropLast = .ok headers)
    (ht : addLines [] (T.map (lineOf lower)).getLast?.toList = .ok trailers) (s : Having Q) :
    ∃ s' : Having Q, (listener Q strict lower onIncoming i).settings.play
        (Scanner.parts (contentOf w.body) ++ (T.flatMap Header.told ++
          [.notify (.messageComplete m')])) (some (s.headed (urlOf w.first) dest hm)) = some s' ∧
      s'.1.received = s.1.received ++ [receivedOf w m headers trailers] := by
  have hlines := @forall₂_lines lower _ hT ha
  have hfold := trailer_eq hlines (asciiText (urlOf w.first)) dest
  rw [hh] at hfold
  simp only [bind, Except.bind] at hfold
  rw [ht] at hfold
  rw [Scanner.Consumer.play_append, Scanner.Consumer.play_append, play_parts]
  rcases hp : ((T.map slicesOf).flatMap headerCallbacks).foldlM (Parser.step lower)
    (⟨⟨asciiText (urlOf w.first), dest, [], false⟩, none, none⟩ : Parser) with e | p
  · simp [hp] at hfold
  · rw [hp] at hfold
    rw [play_lines hT ha hp]
    refine ⟨_, notify_messageComplete m' ?_ hfold, rfl⟩
    exact hu

theorem arraysOnly_nil : ArraysOnly [] := by simp [ArraysOnly, Headers.find]

theorem good_trailersOf {w : Wire} {m : HttpParser.Message} {answer : Notice → ℤ}
    (hw : w.Good answer m) : ∀ h ∈ trailersOf w.body, h.Good := by
  have hbody := hw.body
  cases hb : w.body with
  | chunked chunks last =>
    rw [hb] at hbody
    exact hbody.2.2.trailers
  | _ => exact fun h hh ↦ by cases hh

/-- What is told of a body that ends: its data, its trailer and the end of the message. -/
theorem told_of_ends {b : HttpParser.Body} (he : Ends b) (m : HttpParser.Message) :
    ∃ m', b.told m = Scanner.parts (contentOf b) ++
      ((trailersOf b).flatMap Header.told ++ [.notify (.messageComplete m')]) := by
  cases b with
  | none => exact ⟨_, rfl⟩
  | identity data => exact ⟨_, rfl⟩
  | chunked chunks last => exact ⟨_, rfl⟩
  | untilEof data => cases he

/-- **One message.** -/
theorem play_message (hQ : Q none) {w : Wire} {m : HttpParser.Message}
    (hw : w.Good (answer (onIncoming i)) m)
    (hm : Q (some (w.headed m).info)) (ha : AsciiValues w) (he : Ends w.body) {s : Having Q}
    (hi : s.1.received.length = i) :
    ∃ r s', expected lower w m = .ok r ∧
      (listener Q strict lower onIncoming i).settings.play (w.told (answer (onIncoming i)) m)
        (some s) = some s' ∧ s'.1.received = s.1.received ++ [r] := by
  obtain ⟨dest, hdest⟩ := foldlM_addLine_ok (w.headers.map (lineOf lower)) arraysOnly_nil
  obtain ⟨headers, hheaders⟩ := foldlM_addLine_ok
    (w.headers.map (lineOf lower) ++ ((trailersOf w.body).map (lineOf lower)).dropLast)
    arraysOnly_nil
  obtain ⟨trailers, htrailers⟩ := foldlM_addLine_ok
    ((trailersOf w.body).map (lineOf lower)).getLast?.toList arraysOnly_nil
  rw [← addLines] at hdest hheaders htrailers
  have hrest : addLines dest ((trailersOf w.body).map (lineOf lower)).dropLast = .ok headers := by
    rw [addLines_append, hdest] at hheaders
    exact hheaders
  have hvalues : ∀ h ∈ trailersOf w.body, ∀ b ∈ h.value, b.toNat < 0x80 :=
    fun h hh ↦ ha h (by simp [hh])
  obtain ⟨m', hbody⟩ := told_of_ends he (w.answered (answer (onIncoming i)) m)
  obtain ⟨s', hplay, hreceived⟩ := play_complete strict onIncoming i m' hm hw.upgrade
    (good_trailersOf hw) hvalues hrest htrailers s
  refine ⟨receivedOf w m headers trailers, s', ?_, ?_, hreceived⟩
  · rw [expected]
    simp only [hheaders, htrailers, bind, Except.bind]
    rfl
  · have hsplit : w.told (answer (onIncoming i)) m =
        (w.first.told m ++ w.headers.flatMap Header.told ++
          [.notify (.headersComplete (w.headed m))]) ++
            w.body.told (w.answered (answer (onIncoming i)) m) := by
      rw [Wire.told, List.append_assoc _ [_], List.singleton_append]
    rw [hsplit, Scanner.Consumer.play_append, play_head hQ hw.first hw.headers hm ha hdest hi,
      hbody]
    exact hplay

/-! ## Messages that follow each other -/

/-- All bodies end before the connection does. -/
def AllEnd (ws : List Wire) : Bool := ws.all fun w ↦ Ends w.body

theorem allEnd_cons (w : Wire) (ws : List Wire) : AllEnd (w :: ws) = (Ends w.body && AllEnd ws) :=
  rfl

theorem ends_of_continues {w : Wire} {m : HttpParser.Message} {answer : Notice → ℤ}
    (hw : w.Good answer m) (hc : w.Continues strict answer m) : Ends w.body := by
  have hbody := hw.body
  cases hb : w.body with
  | untilEof data =>
    rw [hb] at hbody
    exact absurd hbody hc.1
  | _ => rfl

/-- The message in the parser, if it is completed now, is `r`. -/
def Pending (s : Session) (r : Received) : Prop :=
  ∃ p, s.parser.onMessageComplete = .ok p ∧ r = ⟨p.incoming, s.info, s.body⟩

/-- The session behind messages, of which `rs` are to be received in the end. -/
def Awaits (ws : List Wire) (s s' : Session) (rs : List Received) : Prop :=
  if AllEnd ws then s'.received = s.received ++ rs
  else ∃ init r, rs = init ++ [r] ∧ s'.received = s.received ++ init ∧ Pending s' r

/-- A message that ends with the connection. -/
theorem play_untilEof (hQ : Q none) {w : Wire} {m : HttpParser.Message}
    (hw : w.Good (answer (onIncoming i)) m) (hm : Q (some (w.headed m).info)) (ha : AsciiValues w)
    (he : Ends w.body = false) {s : Having Q} (hi : s.1.received.length = i) :
    ∃ r s', expected lower w m = .ok r ∧
      (listener Q strict lower onIncoming i).settings.play (w.told (answer (onIncoming i)) m)
        (some s) = some s' ∧ s'.1.received = s.1.received ∧ Pending s'.1 r := by
  obtain ⟨headers, hheaders⟩ := foldlM_addLine_ok (w.headers.map (lineOf lower)) arraysOnly_nil
  rw [← addLines] at hheaders
  cases hb : w.body with
  | untilEof data =>
    have hsplit : w.told (answer (onIncoming i)) m =
        (w.first.told m ++ w.headers.flatMap Header.told ++
          [.notify (.headersComplete (w.headed m))]) ++ Scanner.parts data := by
      rw [Wire.told, hb, List.append_assoc _ [_], List.singleton_append]
      rfl
    refine ⟨⟨⟨asciiText (urlOf w.first), headers, [], true⟩, some (w.headed m).info, data⟩,
      ⟨{ (s.headed (urlOf w.first) headers hm).1 with body := [] ++ data }, hm⟩, ?_, ?_, rfl, ?_⟩
    · have hnil : addLines [] [] = .ok [] := rfl
      simp only [expected, hb, trailersOf, contentOf, List.map_nil, List.dropLast_nil,
        List.append_nil, List.getLast?_nil, Option.toList_none, hheaders, hnil, bind, Except.bind]
      rfl
    · rw [hsplit, Scanner.Consumer.play_append,
        play_head hQ hw.first hw.headers hm ha hheaders hi]
      exact play_parts data _
    · exact ⟨_, rfl, rfl⟩
  | _ =>
    rw [hb] at he
    cases he

/-! ## The bytes of messages -/

theorem accepts_answer (onIncoming : Info → Bool) : HttpParser.Accepts (answer onIncoming) :=
  ⟨fun _ ↦ rfl, fun _ ↦ rfl⟩

/-- Bytes that the parser reads with the answers of a message, if it is this message that comes. -/
theorem execute_of_reads {bytes : Bytes} (hne : bytes ≠ []) {P P' : HttpParser.Parser → Prop}
    {es : List (Scanner.Event UInt8 Kind Notice)}
    (h : (listener Q strict lower onIncoming i).Reads P bytes P' es) {c : HttpParser.Parser}
    (hc : P c) {s s' : Having Q}
    (hplay : (listener Q strict lower onIncoming i).settings.play es (some s) = some s') :
    ∃ c', P' c' ∧
      (HttpParser.scanner strict).execute (watcher Q lower onIncoming) bytes c (some s) =
        .ok c' (some s') := by
  obtain ⟨c', es', hr, hc', hes⟩ := h c hc
  have hexec := Scanner.execute_of_reads (HttpParser.lawful strict)
    (k := (listener Q strict lower onIncoming i).settings) lawful_listener (fun _ _ ↦ rfl) hne hr
    (some s)
  rw [hes, hplay] at hexec
  exact ⟨c', hc', Scanner.execute_of_follows (o := .ok c' s') follows_listener hexec⟩

theorem bytes_ne_nil (w : Wire) : w.bytes ≠ [] := by
  simp [Wire.bytes, Wire.head]

theorem ne_nil_of_mem_messages (ws : List Wire) : ∀ x ∈ ws.map Wire.bytes, x ≠ [] := by
  intro x hx
  obtain ⟨w, -, rfl⟩ := List.mem_map.mp hx
  exact bytes_ne_nil w

/-- **One message**, read by itself. -/
theorem execute_message (hQ : Q none) {w : Wire} {m : HttpParser.Message}
    (hw : w.Good (answer (onIncoming i)) m) (hm : Q (some (w.headed m).info)) (ha : AsciiValues w)
    (he : Ends w.body) {s : Having Q} (hi : s.1.received.length = i) {c : HttpParser.Parser}
    (hc : HttpParser.Ready w.first.start m c) :
    ∃ r c', ∃ s' : Having Q, expected lower w m = .ok r ∧
      (HttpParser.scanner strict).execute (watcher Q lower onIncoming) w.bytes c (some s) =
        .ok c' (some s') ∧
      HttpParser.Ready (w.after strict (answer (onIncoming i)) m)
        (w.store (answer (onIncoming i)) m) c' ∧
      s'.1.received = s.1.received ++ [r] := by
  obtain ⟨r, s', hr, hplay, hreceived⟩ := @play_message Q _ strict lower onIncoming i hQ w m hw hm
    ha he s hi
  obtain ⟨c', hc', hexec⟩ := execute_of_reads (bytes_ne_nil w)
    (HttpParser.reads_message (L := listener Q strict lower onIncoming i) lawful_listener
      (accepts_answer _) hw) hc hplay
  exact ⟨r, c', s', hr, hexec, hc', hreceived⟩

/-- **A message with another one behind it.** -/
theorem execute_continues (hQ : Q none) (hcalm : ∀ m : HttpParser.Message, m.upgrade = false →
    Q (some m.info)) {w : Wire} {m : HttpParser.Message} (ht : w.first.type = m.type)
    (hw : w.Good (answer (onIncoming i)) m)
    (hcontinues : w.Continues strict (answer (onIncoming i)) m) (ha : AsciiValues w) {s : Having Q}
    (hi : s.1.received.length = i) {c : HttpParser.Parser}
    (hc : HttpParser.Ready m.type.start m c) :
    ∃ r c', ∃ s' : Having Q, expected lower w m = .ok r ∧
      (HttpParser.scanner strict).execute (watcher Q lower onIncoming) w.bytes c (some s) =
        .ok c' (some s') ∧
      HttpParser.Ready (w.store (answer (onIncoming i)) m).type.start
        (w.store (answer (onIncoming i)) m) c' ∧
      s'.1.received = s.1.received ++ [r] ∧ s'.1.received.length = i + 1 := by
  rw [← ht, ← w.first.start_eq] at hc
  obtain ⟨r, c', s', hr, hexec, hc', hreceived⟩ := execute_message hQ hw (hcalm _ hw.upgrade) ha
    (ends_of_continues hw hcontinues) hi hc
  have htype : (w.store (answer (onIncoming i)) m).type = m.type := HttpParser.type_store w m
  rw [HttpParser.after_eq ht hw hcontinues, ← htype] at hc'
  refine ⟨r, c', s', hr, hexec, hc', hreceived, ?_⟩
  rw [hreceived, List.length_append, hi, List.length_singleton]

/-- The states in which a connection may end. -/
def Idle (s : HttpParser.State) : Prop :=
  s = .dead ∨ s = .startReqOrRes ∨ s = .startRes ∨ s = .startReq

/-- The state behind messages. -/
def Behind (ws : List Wire) (c : HttpParser.Parser) : Prop :=
  if AllEnd ws then Idle c.state else c.state = .bodyIdentityEof

theorem idle_next (strict : Bool) (m : HttpParser.Message) : Idle (m.next strict) := by
  unfold HttpParser.Message.next
  split_ifs
  · exact .inl rfl
  · exact .inr (.inr (.inr rfl))
  · exact .inr (.inr (.inl rfl))

theorem idle_start (t : HttpParser.ParserType) : Idle t.start := by
  cases t <;> simp [Idle, HttpParser.ParserType.start]

theorem behind_singleton {w : Wire} {m : HttpParser.Message} {answer : Notice → ℤ}
    {c : HttpParser.Parser} (hc : c.state = w.after strict answer m) : Behind [w] c := by
  have hall : AllEnd [w] = Ends w.body := Bool.and_true _
  unfold Behind
  rw [hall, hc]
  unfold HttpParser.Wire.after
  cases w.body with
  | untilEof data => simp [Ends, HttpParser.Body.after]
  | _ => simpa [Ends, HttpParser.Body.after] using idle_next strict _

/-- **The last message**, with or without an end of its body. -/
theorem execute_last (hQ : Q none) {w : Wire} {m : HttpParser.Message}
    (hw : w.Good (answer (onIncoming i)) m) (hm : Q (some (w.headed m).info)) (ha : AsciiValues w)
    {s : Having Q} (hi : s.1.received.length = i) {c : HttpParser.Parser}
    (hc : HttpParser.Ready w.first.start m c) :
    ∃ r c', ∃ s' : Having Q, expected lower w m = .ok r ∧
      (HttpParser.scanner strict).execute (watcher Q lower onIncoming) w.bytes c (some s) =
        .ok c' (some s') ∧
      HttpParser.Ready (w.after strict (answer (onIncoming i)) m)
        (w.store (answer (onIncoming i)) m) c' ∧
      Awaits [w] s.1 s'.1 [r] := by
  have hall : AllEnd [w] = Ends w.body := Bool.and_true _
  cases he : Ends w.body with
  | false =>
    obtain ⟨r, s', hr, hplay, hreceived, hpending⟩ := @play_untilEof Q _ strict lower onIncoming i
      hQ w m hw hm ha he s hi
    obtain ⟨c', hc', hexec⟩ := execute_of_reads (bytes_ne_nil w)
      (HttpParser.reads_message (L := listener Q strict lower onIncoming i) lawful_listener
        (accepts_answer _) hw) hc hplay
    refine ⟨r, c', s', hr, hexec, hc', ?_⟩
    unfold Awaits
    rw [hall, he, if_neg (by decide)]
    exact ⟨[], r, rfl, hreceived.trans (List.append_nil _).symm, hpending⟩
  | true =>
    obtain ⟨r, c', s', hr, hexec, hc', hreceived⟩ := execute_message hQ hw hm ha he hi hc
    refine ⟨r, c', s', hr, hexec, hc', ?_⟩
    unfold Awaits
    rw [hall, he, if_pos rfl]
    exact hreceived

/-- **Messages up to the end of a connection**, read one by one. All are received but a last one
without an end. -/
theorem feed_follow (hQ : Q none) (hcalm : ∀ m : HttpParser.Message, m.upgrade = false →
    Q (some m.info)) {ws : List Wire} {m : HttpParser.Message}
    (h : Follow strict onIncoming i ws m) (ha : ∀ w ∈ ws, AsciiValues w) {s : Having Q}
    (hi : s.1.received.length = i) {c : HttpParser.Parser}
    (hc : HttpParser.Ready m.type.start m c) :
    ∃ rs c', ∃ s' : Having Q, expectedAll lower onIncoming i ws m = .ok rs ∧
      (HttpParser.scanner strict).feed (watcher Q lower onIncoming) (ws.map Wire.bytes) c
        (some s) = .ok c' (some s') ∧
      Behind ws c' ∧ Awaits ws s.1 s'.1 rs := by
  induction ws generalizing i m s c with
  | nil =>
    refine ⟨[], c, s, rfl, rfl, ?_, (List.append_nil _).symm⟩
    simpa [Behind, AllEnd, hc.state] using idle_start m.type
  | cons w ws ih =>
    obtain ⟨ht, hw, hcontinues, hrest⟩ := h
    -- The body of each message ends, as another one follows, but that of the last need not.
    rcases eq_or_ne ws [] with rfl | hne
    · rw [← ht, ← w.first.start_eq] at hc
      obtain ⟨r, c', s', hr, hexec, hc', hawaits⟩ := @execute_last Q _ strict lower onIncoming i hQ
        w m hw (hcalm _ hw.upgrade) (ha w (by simp)) s hi c hc
      refine ⟨[r], c', s', ?_, Scanner.feed_singleton_eq_ok.mpr hexec, behind_singleton hc'.state,
        hawaits⟩
      simp only [expectedAll, hr, bind, Except.bind]
      rfl
    · have he := ends_of_continues hw (hcontinues hne)
      obtain ⟨r, c₁, s₁, hr, hexec, hc₁, hreceived, hi₁⟩ := @execute_continues Q _ strict lower
        onIncoming i hQ hcalm w m ht hw (hcontinues hne) (ha w (by simp)) s hi c hc
      obtain ⟨rs, c₂, s₂, hrs, hfeed, hbehind, hawaits⟩ := ih hrest
        (fun w hw ↦ ha w (by simp [hw])) hi₁ hc₁
      refine ⟨r :: rs, c₂, s₂, ?_, ?_, ?_, ?_⟩
      · simp only [expectedAll, hr, hrs, bind, Except.bind]
        rfl
      · exact Scanner.feed_cons_eq_ok.mpr ⟨c₁, some s₁, hexec, hfeed⟩
      · unfold Behind at hbehind ⊢
        rwa [allEnd_cons, he, Bool.true_and]
      · unfold Awaits at hawaits ⊢
        rw [allEnd_cons, he, Bool.true_and]
        split_ifs at hawaits ⊢
        · rw [hawaits, hreceived, List.append_assoc]
          rfl
        · obtain ⟨init, x, rfl, hinit, hpending⟩ := hawaits
          refine ⟨r :: init, x, rfl, ?_, hpending⟩
          rw [hinit, hreceived, List.append_assoc]
          rfl

/-! ## Slices -/

/-- The message in the parser is no upgrade. -/
def Calm (i : Option Info) : Prop := i.any Info.upgrade = false

instance : DecidablePred Calm := fun i ↦ inferInstanceAs (Decidable (i.any Info.upgrade = false))

/-- A slice of which the parser reads all bytes. -/
theorem read_of_execute {c : Reception} (hc : c.destroyed = false ∧ c.handed = none) (d : Slice)
    {parser : HttpParser.Parser} {s : Having Calm}
    (h : HttpParser.execute strict (callbacks lower e.onIncoming).settings c.parser d.bytes
      ⟨c.session, false⟩ = .returned parser d.bytes.length ⟨s.1, false⟩) :
    c.read strict lower e d = .ok ⟨parser, s.1, false, none⟩ := by
  have hlt := d.start_lt
  have hle := d.stop_le
  have hoff : ¬d.buffer.length ≤ d.start := by omega
  have hlen : ¬d.buffer.length < d.start + (d.stop - d.start) := by omega
  have hupgraded : s.1.upgraded = false := s.2
  rw [d.length_bytes, Slice.bytes] at h
  simp [Reception.read, Reception.ondata, HttpParser.Callbacks.execute, hc.1, hc.2, hoff, hlen, h,
    hupgraded]

/-- **All slices**, of which the watcher takes all bytes. -/
theorem foldlM_read {ds : List Slice} {c : Reception} (hc : c.destroyed = false ∧ c.handed = none)
    (hp : c.parser.Sound) {parser : HttpParser.Parser} {s s' : Having Calm} (hs : c.session = s.1)
    (h : (HttpParser.scanner strict).feed (watcher Calm lower e.onIncoming) (ds.map Slice.bytes)
      c.parser (some s) = .ok parser (some s')) :
    ds.foldlM (Reception.read strict lower e) c = .ok ⟨parser, s'.1, false, none⟩ := by
  induction ds generalizing c s with
  | nil =>
    cases h
    obtain ⟨p, session, destroyed, handed⟩ := c
    obtain ⟨rfl, rfl⟩ := hc
    cases hs
    rfl
  | cons d ds ih =>
    rw [List.map_cons] at h
    obtain ⟨p, s₁, hp₁, hexec, hfeed⟩ := HttpParser.execute_of_feed d.bytes_ne_nil hp h
    rw [← hs] at hexec
    rw [List.foldlM_cons, read_of_execute hc d hexec]
    exact ih ⟨rfl, rfl⟩ hp₁ rfl hfeed

theorem ne_nil_of_mem_slices (ds : List Slice) : ∀ x ∈ ds.map Slice.bytes, x ≠ [] := by
  intro x hx
  obtain ⟨d, -, rfl⟩ := List.mem_map.mp hx
  exact d.bytes_ne_nil

theorem ready_init (parser : HttpParser.Parser) (t : HttpParser.ParserType) :
    HttpParser.Ready t.start (parser.init t).toMessage (parser.init t) :=
  ⟨by cases t <;> rfl, rfl, rfl⟩

/-- **Messages in slices.** -/
theorem foldlM_read_of_feed {parser : HttpParser.Parser} (hp : parser.index < 2 ^ 8)
    {t : HttpParser.ParserType} {ws : List Wire} {c : HttpParser.Parser} {s s' : Having Calm}
    (h : (HttpParser.scanner strict).feed (watcher Calm lower e.onIncoming) (ws.map Wire.bytes)
      (parser.init t) (some s) = .ok c (some s')) {ds : List Slice}
    (hcut : ds.flatMap Slice.bytes = ws.flatMap Wire.bytes) :
    ds.foldlM (Reception.read strict lower e) ⟨parser.init t, s.1, false, none⟩ =
      .ok ⟨c, s'.1, false, none⟩ := by
  have hfeed := Scanner.feed_of_flatten_eq (HttpParser.lawful strict) lawful_watcher
    (ne_nil_of_mem_messages ws) (ne_nil_of_mem_slices ds)
    (by rw [← List.flatMap_def, ← List.flatMap_def, hcut]) h
  exact foldlM_read ⟨rfl, rfl⟩ (HttpParser.Parser.init_sound hp t) rfl hfeed

/-- **Messages are received as they are sent.** However the bytes of messages that follow each other
are cut into slices, each message is received with its URL and its body, with its headers and all
lines of its trailer but the last one as headers, and with the last line as its trailer, and nothing
else is. -/
theorem receive_messages (strict : Bool) (lower : UInt16 → UInt16) (e : Endpoint)
    {parser : HttpParser.Parser} (hp : parser.index < 2 ^ 8) {t : HttpParser.ParserType}
    {ws : List Wire} (session : Session)
    (h : Follow strict e.onIncoming session.received.length ws (parser.init t).toMessage)
    (ha : ∀ w ∈ ws, AsciiValues w) (he : ∀ w ∈ ws, Ends w.body) (ds : List Slice)
    (hcut : ds.flatMap Slice.bytes = ws.flatMap Wire.bytes) (hs : session.upgraded = false) :
    ∃ rs c, expectedAll lower e.onIncoming session.received.length ws (parser.init t).toMessage =
        .ok rs ∧
      ds.foldlM (Reception.read strict lower e) ⟨parser.init t, session, false, none⟩ = .ok c ∧
      c.session.received = session.received ++ rs ∧ c.destroyed = false ∧ c.handed = none := by
  obtain ⟨rs, c, s', hrs, hfeed, -, hawaits⟩ := @feed_follow Calm _ strict lower e.onIncoming _ rfl
    (fun _ hm ↦ hm) ws _ h ha ⟨session, hs⟩ rfl _ (ready_init parser t)
  have hall : AllEnd ws = true := List.all_eq_true.mpr he
  unfold Awaits at hawaits
  rw [if_pos hall] at hawaits
  exact ⟨rs, _, hrs, foldlM_read_of_feed hp hfeed hcut, hawaits, rfl, rfl⟩

/-- The bytes of two requests in one buffer, cut in the middle of a header. -/
def twoSlices : List Slice :=
  [⟨HttpParser.threeChunks.flatten, 0, 30, by decide, by decide +kernel⟩,
    ⟨HttpParser.threeChunks.flatten, 30, 86, by decide, by decide +kernel⟩]

/-- Two requests to a server; the first one has a chunk and a trailer. -/
theorem receive_messages_twoRequests : ∃ c,
    twoSlices.foldlM (Reception.read true id ⟨.server, fun _ _ ↦ false, 0⟩)
      ⟨HttpParser.Parser.blank.init .request, ⟨Parser.onMessageBegin, none, [], []⟩, false, none⟩ =
        .ok c ∧
      c.session.received.map (fun r ↦ (r.message, r.body)) =
        [(⟨js "/a?b", [(js "transfer-encoding", .one (js "chunked"))],
            [(js "x", .one (js "y"))], true⟩, HttpParser.text "hi"),
          (⟨js "/", [], [], true⟩, [])] := by
  have hfollow : Follow true (fun _ _ ↦ false) 0 HttpParser.twoRequests
      (HttpParser.Parser.blank.init .request).toMessage := by decide +kernel
  have hascii : ∀ w ∈ HttpParser.twoRequests, AsciiValues w := by
    unfold AsciiValues
    decide +kernel
  obtain ⟨rs, c, hrs, hread, hreceived, -⟩ := receive_messages true id ⟨.server, fun _ _ ↦ false, 0⟩
    (by decide) ⟨Parser.onMessageBegin, none, [], []⟩ hfollow hascii (by decide) twoSlices
    (by decide +kernel) rfl
  refine ⟨c, hread, ?_⟩
  have hexpected : (expectedAll id (fun _ _ ↦ false) 0 HttpParser.twoRequests
      (HttpParser.Parser.blank.init .request).toMessage).map
        (List.map fun r ↦ (r.message, r.body)) = .ok
        [(⟨js "/a?b", [(js "transfer-encoding", .one (js "chunked"))],
            [(js "x", .one (js "y"))], true⟩, HttpParser.text "hi"),
          (⟨js "/", [], [], true⟩, [])] := by decide +kernel
  rw [hreceived]
  exact Except.ok.inj ((congrArg (Except.map _) hrs).symm.trans hexpected)

end SpiderNode.Http
