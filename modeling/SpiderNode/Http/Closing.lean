import SpiderNode.Http.Receiving

/-!
# The end of a connection

A response may have a body that goes on up to the end of the connection. `socket.onend` tells the
parser, and the parser completes the message. `receive_close` is that messages which follow each
other are received as they are sent when the connection ends behind them, whatever their bodies are.
-/

namespace SpiderNode.Http

open HttpParser (Wire)

variable {lower : UInt16 → UInt16} {e : Endpoint}

/-- `parser.finish()` in `socket.onend`, with whether it returns an error. -/
def Reception.finish (lower : UInt16 → UInt16) (e : Endpoint) (c : Reception) :
    Except Uncaught (Reception × Bool) :=
  match (callbacks lower e.onIncoming).finish c.parser c.session with
  | .returned parser session (.bytesParsed _) =>
    .ok (⟨parser, session, c.destroyed, c.handed⟩, false)
  | .returned parser session (.parseError _) =>
    .ok (⟨parser, session, c.destroyed, c.handed⟩, true)
  | .returned _ _ .threw => .error .exception
  | .returned _ _ (.invalid message) => .error (.error message)
  | .aborted => .error .aborted

/-! ## The end -/

theorem finish_of_idle {c : Reception} (hc : Idle c.parser.state) :
    c.finish lower e = .ok (c, false) := by
  have hparser : HttpParser.finish (callbacks lower e.onIncoming).settings c.parser
      ⟨c.session, false⟩ = .returned c.parser 0 ⟨c.session, false⟩ := by
    unfold HttpParser.finish
    rcases hc with hc | hc | hc | hc <;> rw [hc]
  simp [Reception.finish, HttpParser.Callbacks.finish, hparser]

theorem finish_of_pending {c : Reception} (hc : c.parser.state = .bodyIdentityEof) {r : Received}
    (hr : Pending c.session r) (hcalm : c.session.upgraded = false) :
    ∃ c', c.finish lower e = .ok (c', false) ∧
      c'.session.received = c.session.received ++ [r] ∧ c'.destroyed = c.destroyed ∧
      c'.handed = c.handed := by
  obtain ⟨p, hp, rfl⟩ := hr
  refine ⟨⟨c.parser, { c.session with
    parser := p
    received := c.session.received ++ [⟨p.incoming, c.session.info, c.session.body⟩] },
      c.destroyed, c.handed⟩, ?_, rfl, rfl, rfl⟩
  simp [Reception.finish, HttpParser.Callbacks.finish, HttpParser.finish, hc,
    HttpParser.Callbacks.settings, HttpParser.Bound.call, callbacks, Session.onMessageComplete, hp,
    hcalm]

/-- **A connection that ends completes its last message.** However the bytes of messages that follow
each other are cut into slices, when the connection ends behind them there is no error, and every
message has been received as in `receive_messages`, also a last one whose body goes on up to the
end. -/
theorem receive_close (strict : Bool) (lower : UInt16 → UInt16) (e : Endpoint)
    {parser : HttpParser.Parser} (hp : parser.index < 2 ^ 8) {t : HttpParser.ParserType}
    {ws : List Wire} (session : Session)
    (h : Follow strict e.onIncoming session.received.length ws (parser.init t).toMessage)
    (ha : ∀ w ∈ ws, AsciiValues w) (ds : List Slice)
    (hcut : ds.flatMap Slice.bytes = ws.flatMap Wire.bytes) (hs : session.upgraded = false) :
    ∃ rs c c', expectedAll lower e.onIncoming session.received.length ws
        (parser.init t).toMessage = .ok rs ∧
      ds.foldlM (Reception.read strict lower e) ⟨parser.init t, session, false, none⟩ =
        .ok c ∧
      c.destroyed = false ∧ c.handed = none ∧ c.finish lower e = .ok (c', false) ∧
      c'.session.received = session.received ++ rs := by
  obtain ⟨rs, c, s', hrs, hfeed, hbehind, hawaits⟩ := @feed_follow Calm _ strict lower e.onIncoming
    _ rfl (fun _ hm ↦ hm) ws _ h ha ⟨session, hs⟩ rfl _ (ready_init parser t)
  have hread := foldlM_read_of_feed hp hfeed hcut
  unfold Behind at hbehind
  unfold Awaits at hawaits
  split_ifs at hbehind hawaits
  · exact ⟨rs, _, _, hrs, hread, rfl, rfl, finish_of_idle hbehind, hawaits⟩
  · obtain ⟨init, r, rfl, hinit, hpending⟩ := hawaits
    obtain ⟨c', hfinish, hreceived, -⟩ := @finish_of_pending lower e
      ⟨c, s'.1, false, none⟩ hbehind r hpending s'.2
    refine ⟨init ++ [r], _, c', hrs, hread, rfl, rfl, hfinish, ?_⟩
    rw [hreceived, hinit, List.append_assoc]

/-- Three responses: the second one is to a `HEAD` request, and the body of the last one goes on up
to the end. -/
def threeResponses : List Wire :=
  [⟨.status ⟨⟨HttpParser.text "1", HttpParser.text "1"⟩, HttpParser.text "200",
      some (HttpParser.text "OK")⟩,
    [⟨HttpParser.text "Content-Length", 1, HttpParser.text "2"⟩],
    .identity (HttpParser.text "hi")⟩,
  ⟨.status ⟨⟨HttpParser.text "1", HttpParser.text "1"⟩, HttpParser.text "200",
      some (HttpParser.text "OK")⟩,
    [⟨HttpParser.text "Content-Length", 1, HttpParser.text "5"⟩], .none⟩,
  ⟨.status ⟨⟨HttpParser.text "1", HttpParser.text "0"⟩, HttpParser.text "200", none⟩, [],
    .untilEof (HttpParser.text "bye")⟩]

/-- The bytes of all, cut in the middle of the last body. -/
def closingSlices : List Slice :=
  [⟨threeResponses.flatMap Wire.bytes, 0, 95, by decide, by decide +kernel⟩,
    ⟨threeResponses.flatMap Wire.bytes, 95, 97, by decide, by decide +kernel⟩]

theorem receive_close_threeResponses : ∃ c c',
    closingSlices.foldlM (Reception.read true id ⟨.client true, fun i _ ↦ i = 1, 0⟩)
      ⟨HttpParser.Parser.blank.init .response, ⟨Parser.onMessageBegin, none, [], []⟩, false, none⟩ =
        .ok c ∧
      c.finish id ⟨.client true, fun i _ ↦ i = 1, 0⟩ = .ok (c', false) ∧
      c'.session.received.map Received.body =
        [HttpParser.text "hi", [], HttpParser.text "bye"] := by
  have hfollow : Follow true (fun i _ ↦ i = 1) 0 threeResponses
      (HttpParser.Parser.blank.init .response).toMessage := by decide +kernel
  have hascii : ∀ w ∈ threeResponses, AsciiValues w := by
    unfold AsciiValues
    decide +kernel
  obtain ⟨rs, c, c', hrs, hread, -, -, hfinish, hreceived⟩ := receive_close true id
    ⟨.client true, fun i _ ↦ i = 1, 0⟩ (by decide) ⟨Parser.onMessageBegin, none, [], []⟩ hfollow
    hascii closingSlices (by decide +kernel) rfl
  refine ⟨c, c', hread, hfinish, ?_⟩
  have hexpected : (expectedAll id (fun i _ ↦ i = 1) 0 threeResponses
      (HttpParser.Parser.blank.init .response).toMessage).map (List.map Received.body) =
        .ok [HttpParser.text "hi", [], HttpParser.text "bye"] := by decide +kernel
  rw [hreceived]
  exact Except.ok.inj ((congrArg (Except.map _) hrs).symm.trans hexpected)

end SpiderNode.Http
