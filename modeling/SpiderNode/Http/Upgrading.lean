import SpiderNode.Http.Receiving
import SpiderNode.HttpParser.Upgrades

/-!
# Connections that are handed over

At an upgrade `socket.ondata` is taken away, and a listener of `upgrade` gets the rest of the slice,
as `upgradeHead`, and whatever is read after it. `receive_upgrade` is that this is exactly what
follows the head of the upgrade, wherever the slices are cut: no byte is lost between the two, none
is given to both. Without a listener the socket is destroyed, and nobody gets anything.

The parser stands on the last byte of the head when it returns, and the callbacks of the upgrade run
before that. So the slice of that byte is the only one after which the session is upgraded.
-/

namespace SpiderNode.Http

open HttpParser (Info Notice Wire storeHeaders headInit)

variable {Q : Option Info → Prop} [DecidablePred Q] {strict : Bool} {lower : UInt16 → UInt16}
  {onIncoming : ℕ → Info → Bool} {i : ℕ} {e : Endpoint}

/-! ## Where a byte is -/

/-- The slice of a byte. -/
theorem exists_split {α β : Type*} (f : α → List β) {ds : List α} {a rest : List β} {x : β}
    (h : ds.flatMap f = a ++ x :: rest) :
    ∃ ds₁ d ds₂ y z, ds = ds₁ ++ d :: ds₂ ∧ f d = y ++ x :: z ∧ ds₁.flatMap f ++ y = a ∧
      z ++ ds₂.flatMap f = rest := by
  induction ds generalizing a with
  | nil => simp at h
  | cons d ds ih =>
    rw [List.flatMap_cons, List.append_eq_append_iff] at h
    rcases h with ⟨b, rfl, hrest⟩ | ⟨b, hd, hrest⟩
    -- `x` is behind the first slice.
    · obtain ⟨ds₁, d', ds₂, y, z, rfl, hd', rfl, rfl⟩ := ih hrest
      exact ⟨d :: ds₁, d', ds₂, y, z, rfl, hd', by simp, rfl⟩
    -- Or it is in it, or `a` ends with it.
    · rcases b with _ | ⟨b, z⟩
      · obtain ⟨ds₁, d', ds₂, y, z, rfl, hd', hnil, rfl⟩ := ih (a := []) hrest.symm
        refine ⟨d :: ds₁, d', ds₂, y, z, rfl, hd', ?_, rfl⟩
        rw [List.flatMap_cons, List.append_assoc, hnil, hd, List.append_nil, List.append_nil]
      · obtain ⟨rfl, rfl⟩ := List.cons.inj hrest
        exact ⟨[], d, ds, a, z, rfl, hd, rfl, rfl⟩

/-! ## Messages in front of an upgrade -/

/-- Messages that follow each other, of which the first is the `i`-th of its connection, with
another one behind the last. -/
def Lead (strict : Bool) (onIncoming : ℕ → Info → Bool) :
    ℕ → List Wire → HttpParser.Message → Prop
  | _, [], _ => True
  | i, w :: ws, m => w.first.type = m.type ∧ w.Good (answer (onIncoming i)) m ∧
      w.Continues strict (answer (onIncoming i)) m ∧
      Lead strict onIncoming (i + 1) ws (w.store (answer (onIncoming i)) m)

instance decidableLead (strict : Bool) (onIncoming : ℕ → Info → Bool) :
    ∀ i ws m, Decidable (Lead strict onIncoming i ws m)
  | _, [], _ => instDecidableTrue
  | i, _ :: ws, _ =>
    have := decidableLead strict onIncoming (i + 1) ws
    inferInstanceAs (Decidable (_ ∧ _ ∧ _ ∧ _))

/-- What the parser has stored behind them. -/
def storeAll (onIncoming : ℕ → Info → Bool) :
    ℕ → List Wire → HttpParser.Message → HttpParser.Message
  | _, [], m => m
  | i, w :: ws, m => storeAll onIncoming (i + 1) ws (w.store (answer (onIncoming i)) m)

/-- **The messages in front of an upgrade**, read one by one. -/
theorem feed_lead (hQ : Q none) (hcalm : ∀ m : HttpParser.Message, m.upgrade = false →
    Q (some m.info)) {ws : List Wire} {m : HttpParser.Message}
    (h : Lead strict onIncoming i ws m) (ha : ∀ w ∈ ws, AsciiValues w) {s : Having Q}
    (hi : s.1.received.length = i) {c : HttpParser.Parser}
    (hc : HttpParser.Ready m.type.start m c) :
    ∃ rs c', ∃ s' : Having Q, expectedAll lower onIncoming i ws m = .ok rs ∧
      (HttpParser.scanner strict).feed (watcher Q lower onIncoming) (ws.map Wire.bytes) c
        (some s) = .ok c' (some s') ∧
      HttpParser.Ready m.type.start (storeAll onIncoming i ws m) c' ∧
      s'.1.received = s.1.received ++ rs := by
  induction ws generalizing i m s c with
  | nil => exact ⟨[], c, s, rfl, rfl, hc, (List.append_nil _).symm⟩
  | cons w ws ih =>
    obtain ⟨ht, hw, hcontinues, hrest⟩ := h
    obtain ⟨r, c₁, s₁, hr, hexec, hc₁, hreceived, hi₁⟩ := @execute_continues Q _ strict lower
      onIncoming i hQ hcalm w m ht hw hcontinues (ha w (by simp)) s hi c hc
    obtain ⟨rs, c₂, s₂, hrs, hfeed, hready, hreceived'⟩ := ih hrest
      (fun w hw ↦ ha w (by simp [hw])) hi₁ hc₁
    rw [HttpParser.type_store] at hready
    refine ⟨r :: rs, c₂, s₂, ?_, ?_, hready, ?_⟩
    · simp only [expectedAll, hr, hrs, bind, Except.bind]
      rfl
    · exact Scanner.feed_cons_eq_ok.mpr ⟨c₁, some s₁, hexec, hfeed⟩
    · rw [hreceived', hreceived, List.append_assoc]
      rfl

/-! ## The upgrade -/

/-- Any message in the parser. -/
def Any : Option Info → Prop := fun _ ↦ True

instance : DecidablePred Any := fun _ ↦ instDecidableTrue

theorem notify_upgraded (m : HttpParser.Message) {s : Having Any} (hs : s.1.upgraded = true)
    {p : Parser} (h : s.1.parser.onMessageComplete = .ok p) :
    ((listener Any strict lower onIncoming i).settings.notify (.messageComplete m) (some s)).1 =
      some ⟨{ s.1 with parser := p }, trivial⟩ := by
  refine notify_listener { s.1 with parser := p } trivial ?_
  change (⟨s.1, false⟩ : HttpParser.Bound Session).call _ (some Session.onMessageComplete) = _
  simp [HttpParser.Bound.call, Session.onMessageComplete, h, hs, answer]

/-- The session behind an upgrade. -/
def Session.handOver (s : Session) (w : Wire) (m : HttpParser.Message) (headers : Headers) :
    Session :=
  { s with
    parser := ⟨⟨asciiText (urlOf w.first), headers, [], true⟩, none, none⟩
    info := some (w.headed m).info
    body := [] }

/-- **The callbacks of an upgrade**, behind the lines of its head. -/
theorem play_upgrade {w : Wire} {m : HttpParser.Message} (hu : (w.headed m).upgrade = true)
    {headers : Headers} {p : Parser} (hp : p.onHeadersComplete =
      .ok ⟨⟨asciiText (urlOf w.first), headers, [], false⟩, none, none⟩) (s : Having Any) :
    (listener Any strict lower onIncoming s.1.received.length).settings.play
        [.notify (.headersComplete (w.headed m)), .notify (.messageComplete (w.headed m))]
        (some ((s.opened (urlOf w.first) trivial).withParser p)) =
      some ⟨s.1.handOver w m headers, trivial⟩ := by
  have hcomplete := @notify_headersComplete Any _ strict lower onIncoming s.1.received.length
    (w.headed m) trivial ((s.opened (urlOf w.first) trivial).withParser p) rfl _ hp
  rw [Scanner.Consumer.play_cons]
  simp only [Scanner.Consumer.tell]
  rw [hcomplete]
  refine notify_upgraded (w.headed m) ?_ rfl
  exact hu

/-- The connection behind an upgrade, with the bytes that follow its head. -/
def Endpoint.upgraded (e : Endpoint) (parser : HttpParser.Parser) (session : Session)
    (head : Bytes) : Reception :=
  if 0 < e.upgradeListeners then ⟨parser, session, false, some head⟩
  else ⟨parser, session, true, none⟩

/-- A slice with the last byte of the head of an upgrade. -/
theorem read_of_upgrade (he : e.side ≠ .client false) {c : Reception}
    (hc : c.destroyed = false ∧ c.handed = none) (d : Slice) {y z : Bytes} {x : UInt8}
    (hd : d.bytes = y ++ x :: z) {parser : HttpParser.Parser} (hparser : parser.upgrade = true)
    {s : Session} (hs : s.upgraded = true)
    (h : HttpParser.execute strict (callbacks lower e.onIncoming).settings c.parser d.bytes
      ⟨c.session, false⟩ = .returned parser y.length ⟨s, false⟩) :
    c.read strict lower e d = .ok (e.upgraded parser s z) := by
  have hlt := d.start_lt
  have hle := d.stop_le
  have hlength : y.length + (z.length + 1) = d.stop - d.start := by
    rw [← d.length_bytes, hd, List.length_append, List.length_cons]
  have hoff : ¬d.buffer.length ≤ d.start := by omega
  have hlen : ¬d.buffer.length < d.start + (d.stop - d.start) := by omega
  have hoob : ¬d.stop < d.start + y.length + 1 := by omega
  have hrest : (d.buffer.drop (d.start + y.length + 1)).take
      (d.stop - (d.start + y.length + 1)) = z := by
    have hdrop : d.bytes.drop (y.length + 1) = z := by
      rw [hd, List.drop_append, List.drop_of_length_le (by omega)]
      simp
    rw [Slice.bytes, List.drop_take, List.drop_drop] at hdrop
    rw [← hdrop]
    congr 1
    omega
  rw [Slice.bytes] at h
  unfold Endpoint.upgraded
  split_ifs with hl
  · simp [Reception.read, Reception.ondata, HttpParser.Callbacks.execute, hc.1, hc.2, hoff, hlen,
      h, hs, hparser, he, hoob, hrest, hl]
  · simp [Reception.read, Reception.ondata, HttpParser.Callbacks.execute, hc.1, hc.2, hoff, hlen,
      h, hs, hparser, he, hoob, hl]

/-- Behind an upgrade all data is for the user, and there is none on a socket that is destroyed. -/
theorem foldlM_upgraded (ds : List Slice) (parser : HttpParser.Parser) (session : Session)
    (head : Bytes) :
    ds.foldlM (Reception.read strict lower e) (e.upgraded parser session head) =
      .ok (e.upgraded parser session (head ++ ds.flatMap Slice.bytes)) := by
  induction ds generalizing head with
  | nil => simp [pure, Except.pure]
  | cons d ds ih =>
    have hread : (e.upgraded parser session head).read strict lower e d =
        .ok (e.upgraded parser session (head ++ d.bytes)) := by
      unfold Endpoint.upgraded
      split_ifs <;> rfl
    rw [List.foldlM_cons, List.flatMap_cons, ← List.append_assoc, hread]
    exact ih (head ++ d.bytes)

/-- **The head of an upgrade** up to its last byte, behind other messages. -/
theorem feed_headInit {ws : List Wire} {m : HttpParser.Message}
    (h : Lead strict onIncoming i ws m) (ha : ∀ w ∈ ws, AsciiValues w) {w : Wire}
    (ht : w.first.type = m.type) (hw : w.Upgrades (storeAll onIncoming i ws m))
    (hascii : AsciiValues w) {headers : Headers}
    (hheaders : addLines [] (w.headers.map (lineOf lower)) = .ok headers) {s : Having Calm}
    (hi : s.1.received.length = i) {c : HttpParser.Parser}
    (hc : HttpParser.Ready m.type.start m c) :
    ∃ rs c' p, ∃ s' : Having Calm, expectedAll lower onIncoming i ws m = .ok rs ∧
      (HttpParser.scanner strict).feed (watcher Calm lower onIncoming)
        (ws.map Wire.bytes ++ [headInit w.first w.headers]) c (some s) =
          .ok c' (some ((s'.opened (urlOf w.first) rfl).withParser p)) ∧
      HttpParser.At .headersAlmostDone
        (storeHeaders w.headers (w.first.store (storeAll onIncoming i ws m)))
        HttpParser.anyWord 1 c' ∧
      p.onHeadersComplete =
        .ok ⟨⟨asciiText (urlOf w.first), headers, [], false⟩, none, none⟩ ∧
      s'.1.received = s.1.received ++ rs := by
  obtain ⟨rs, c₁, s₁, hrs, hfeed, hc₁, hreceived⟩ := @feed_lead Calm _ strict lower onIncoming i
    rfl (fun _ hm ↦ hm) ws m h ha s hi c hc
  rw [← ht, ← w.first.start_eq] at hc₁
  obtain ⟨p, hp, hplay⟩ := play_lines_head Calm strict onIncoming s₁.1.received.length rfl
    (storeAll onIncoming i ws m) hw.first hw.headers hascii hheaders s₁
  have hroom : (headInit w.first w.headers).length < HttpParser.maxHeaderSize := by
    have hle := hw.room
    rw [w.head_eq, List.length_append, List.length_singleton] at hle
    exact hle
  obtain ⟨c₂, hc₂, hexec⟩ := execute_of_reads (by simp [headInit])
    (HttpParser.reads_headInit (L := listener Calm strict lower onIncoming s₁.1.received.length)
      lawful_listener (accepts_answer _) hw.first hw.headers hroom) hc₁ hplay
  refine ⟨rs, c₂, p, s₁, hrs, ?_, hc₂, hp, hreceived⟩
  exact Scanner.feed_append_eq_ok.mpr ⟨c₁, some s₁, hfeed, Scanner.feed_singleton_eq_ok.mpr hexec⟩

/-- The same bytes, cut as they come: slices, and the part of one more slice. -/
theorem exists_feed_cut {ws : List Wire} {head : Bytes} (hhead : head ≠ []) {ds : List Slice}
    {y : Bytes} (hcut : ds.flatMap Slice.bytes ++ y = ws.flatMap Wire.bytes ++ head)
    {c c' : HttpParser.Parser} {s s' : Having Q}
    (h : (HttpParser.scanner strict).feed (watcher Q lower onIncoming) (ws.map Wire.bytes ++ [head])
      c (some s) = .ok c' (some s')) :
    ∃ c₁, ∃ s₁ : Having Q,
      (HttpParser.scanner strict).feed (watcher Q lower onIncoming) (ds.map Slice.bytes) c
        (some s) = .ok c₁ (some s₁) ∧
      (HttpParser.scanner strict).feed (watcher Q lower onIncoming) (Scanner.pieces y) c₁
        (some s₁) = .ok c' (some s') := by
  have hmessages : ∀ x ∈ ws.map Wire.bytes ++ [head], x ≠ [] := by
    intro x hx
    rcases List.mem_append.mp hx with hx | hx
    · exact ne_nil_of_mem_messages ws x hx
    · rwa [List.mem_singleton.mp hx]
  have hslices : ∀ x ∈ ds.map Slice.bytes ++ Scanner.pieces y, x ≠ [] := by
    intro x hx
    rcases List.mem_append.mp hx with hx | hx
    · exact ne_nil_of_mem_slices ds x hx
    · exact Scanner.ne_nil_of_mem_pieces hx
  have hflatten : (ws.map Wire.bytes ++ [head]).flatten =
      (ds.map Slice.bytes ++ Scanner.pieces y).flatten := by
    rw [List.flatten_append, List.flatten_append, Scanner.flatten_pieces, ← List.flatMap_def,
      ← List.flatMap_def, hcut, List.flatten_singleton]
  have hfeed := Scanner.feed_of_flatten_eq (HttpParser.lawful strict) lawful_watcher hmessages
    hslices hflatten h
  exact Scanner.exists_feed_of_append
    (HttpParser.follows_watched (callbacks lower onIncoming) Plain) hfeed

/-- **The slice with the last byte of the head.** -/
theorem execute_of_upgrade {m : HttpParser.Message} {w : Wire} (hw : w.Upgrades m) {y : Bytes}
    (z : Bytes) {c c' : HttpParser.Parser} {s : Session} {s' : Having Any} {headers : Headers}
    {p : Parser} (hp : p.onHeadersComplete =
      .ok ⟨⟨asciiText (urlOf w.first), headers, [], false⟩, none, none⟩)
    (hfeed : (HttpParser.scanner strict).feed (watcher Any lower onIncoming) (Scanner.pieces y) c
      (some ⟨s, trivial⟩) = .ok c' (some ((s'.opened (urlOf w.first) trivial).withParser p)))
    (hc : HttpParser.At .headersAlmostDone (storeHeaders w.headers (w.first.store m))
      HttpParser.anyWord 1 c') :
    ∃ parser, parser.upgrade = true ∧
      HttpParser.execute strict (callbacks lower onIncoming).settings c (y ++ HttpParser.lf :: z)
        ⟨s, false⟩ = .returned parser y.length ⟨s'.1.handOver w m headers, false⟩ := by
  have hzero : answer (onIncoming s'.1.received.length) (.headersComplete (w.headed m)) = 0 := by
    have hu : (w.headed m).info.upgrade = true := hw.upgrade
    simp [answer, hu]
  have htrailing : (storeHeaders w.headers (w.first.store m)).flags.trailing = false :=
    (HttpParser.trailing_storeHeaders _ _).trans (HttpParser.trailing_firstLine _ _)
  obtain ⟨c'', hupgrade, hstop⟩ := HttpParser.execute_upgrade
    (L := listener Any strict lower onIncoming s'.1.received.length) (fun _ _ ↦ rfl) hc htrailing
    hw.upgrade hzero rfl z (some ((s'.opened (urlOf w.first) trivial).withParser p))
  have hplay : (listener Any strict lower onIncoming s'.1.received.length).settings.play
      [.notify (.headersComplete (storeHeaders w.headers (w.first.store m)).headed),
        .notify (.messageComplete (storeHeaders w.headers (w.first.store m)).headed)]
      (some ((s'.opened (urlOf w.first) trivial).withParser p)) =
        some ⟨s'.1.handOver w m headers, trivial⟩ := play_upgrade hw.upgrade hp s'
  rw [hplay] at hstop
  have hlast := Scanner.execute_of_follows
    (o := .stopped HttpParser.Exit.upgrade c'' 0 ⟨s'.1.handOver w m headers, trivial⟩)
    follows_listener hstop
  have hall := Scanner.execute_append_of_stopped (HttpParser.lawful strict) lawful_watcher
    (List.cons_ne_nil HttpParser.lf z) hfeed (by decide) hlast
  have hk := Scanner.execute_of_follows (o := .stopped HttpParser.Exit.upgrade c'' (y.length + 0)
    ⟨s'.1.handOver w m headers, trivial⟩)
    (HttpParser.follows_watched (callbacks lower onIncoming) Plain) hall
  refine ⟨HttpParser.leave c .upgrade c'', hupgrade, ?_⟩
  rw [HttpParser.execute, if_neg (by simp), hk]
  simp [Scanner.Outcome.mapUser]

/-- **An upgrade hands over what follows its head.** However the bytes of a connection are cut into
slices, the messages in front of an upgrade are received as in `receive_messages`, and the upgrade
itself has its URL and its headers. A listener of `upgrade` gets all that stands behind it, in
order. Without one the socket is destroyed. -/
theorem receive_upgrade (strict : Bool) (lower : UInt16 → UInt16) (e : Endpoint)
    (he : e.side ≠ .client false) {parser : HttpParser.Parser} (hp : parser.index < 2 ^ 8)
    {t : HttpParser.ParserType} {ws : List Wire} (session : Session)
    (h : Lead strict e.onIncoming session.received.length ws (parser.init t).toMessage)
    (ha : ∀ w ∈ ws, AsciiValues w) {w : Wire} (ht : w.first.type = t)
    (hw : w.Upgrades
      (storeAll e.onIncoming session.received.length ws (parser.init t).toMessage))
    (hascii : AsciiValues w) (rest : Bytes) (ds : List Slice)
    (hcut : ds.flatMap Slice.bytes = ws.flatMap Wire.bytes ++ (w.head ++ rest))
    (hs : session.upgraded = false) :
    ∃ rs headers c, expectedAll lower e.onIncoming session.received.length ws
        (parser.init t).toMessage = .ok rs ∧
      addLines [] (w.headers.map (lineOf lower)) = .ok headers ∧
      ds.foldlM (Reception.read strict lower e) ⟨parser.init t, session, false, none⟩ = .ok c ∧
      c.session.received = session.received ++ rs ∧
      c.session.parser.incoming = ⟨asciiText (urlOf w.first), headers, [], true⟩ ∧
      c.session.info = some (w.headed
        (storeAll e.onIncoming session.received.length ws (parser.init t).toMessage)).info ∧
      (0 < e.upgradeListeners → c.destroyed = false ∧ c.handed = some rest) ∧
      (e.upgradeListeners = 0 → c.destroyed = true ∧ c.handed = none) := by
  obtain ⟨headers, hheaders⟩ := foldlM_addLine_ok (w.headers.map (lineOf lower)) arraysOnly_nil
  rw [w.head_eq, List.append_assoc, List.singleton_append, ← List.append_assoc] at hcut
  obtain ⟨ds₁, d, ds₂, y, z, rfl, hd, hy, rfl⟩ := exists_split Slice.bytes hcut
  obtain ⟨rs, c', p, s', hrs, hfeed, hat, hp', hreceived⟩ := @feed_headInit strict lower
    e.onIncoming _ ws _ h ha w ht hw hascii headers hheaders ⟨session, hs⟩ rfl _
    (ready_init parser t)
  obtain ⟨c₁, s₁, hbefore, hpiece⟩ := exists_feed_cut (by simp [headInit]) hy hfeed
  have hread₁ := foldlM_read (c := ⟨parser.init t, session, false, none⟩) ⟨rfl, rfl⟩
    (HttpParser.Parser.init_sound hp t) rfl hbefore
  -- The callbacks of the upgrade leave a session that is not calm.
  have hmono : (watcher Calm lower e.onIncoming).Follows (watcher Any lower e.onIncoming)
      fun s ↦ some ⟨s.1, trivial⟩ :=
    HttpParser.follows_mono (fun _ _ ↦ trivial) (callbacks lower e.onIncoming) Plain
  have hany := Scanner.feed_of_follows hmono hpiece
  obtain ⟨parser', hparser, hexec⟩ := @execute_of_upgrade strict lower e.onIncoming _ w hw y z c₁
    c' s₁.1 ⟨s'.1, trivial⟩ headers p hp' hany hat
  rw [← hd] at hexec
  have hupgraded : (s'.1.handOver w
    (storeAll e.onIncoming session.received.length ws (parser.init t).toMessage) headers).upgraded =
      true := hw.upgrade
  have hread := read_of_upgrade he (c := ⟨c₁, s₁.1, false, none⟩) ⟨rfl, rfl⟩ d hd hparser hupgraded
    hexec
  have hall : (ds₁ ++ d :: ds₂).foldlM (Reception.read strict lower e)
      ⟨parser.init t, session, false, none⟩ =
        .ok (e.upgraded parser' (s'.1.handOver w
          (storeAll e.onIncoming session.received.length ws (parser.init t).toMessage) headers)
          (z ++ ds₂.flatMap Slice.bytes)) := by
    rw [List.foldlM_append, hread₁]
    simp only [bind, Except.bind]
    rw [List.foldlM_cons, hread]
    exact foldlM_upgraded ds₂ _ _ z
  refine ⟨rs, headers, _, hrs, hheaders, hall, ?_⟩
  unfold Endpoint.upgraded
  split_ifs with hl
  · exact ⟨hreceived, rfl, rfl, fun _ ↦ ⟨rfl, rfl⟩, fun h0 ↦ absurd hl (by omega)⟩
  · exact ⟨hreceived, rfl, rfl, fun h0 ↦ absurd h0 hl, fun _ ↦ ⟨rfl, rfl⟩⟩

/-- A request without a body. -/
def getRequest : Wire :=
  ⟨.request ⟨.get, .origin (HttpParser.text "/"), ⟨HttpParser.text "1", HttpParser.text "1"⟩⟩, [],
    .none⟩

/-- A request to go on with another protocol. -/
def chatRequest : Wire :=
  ⟨.request ⟨.get, .origin (HttpParser.text "/chat"), ⟨HttpParser.text "1", HttpParser.text "1"⟩⟩,
    [⟨HttpParser.text "Upgrade", 1, HttpParser.text "chat"⟩], .none⟩

/-- A buffer with both requests and the first bytes of the other protocol. -/
def chatBuffer : Bytes :=
  HttpParser.text
    "GET / HTTP/1.1\r\n\r\nGET /chat HTTP/1.1\r\nUpgrade: chat\r\n\r\nhello"

/-- The buffer, cut in front of the last byte of the head and behind the first one after it. -/
def chatSlices : List Slice :=
  [⟨chatBuffer, 0, 54, by decide, by decide +kernel⟩,
    ⟨chatBuffer, 54, 56, by decide, by decide +kernel⟩,
    ⟨chatBuffer, 56, 60, by decide, by decide +kernel⟩]

/-- A server that listens, and one that does not. -/
theorem receive_upgrade_chat :
    (∃ c, chatSlices.foldlM (Reception.read true id ⟨.server, fun _ _ ↦ false, 1⟩)
        ⟨HttpParser.Parser.blank.init .request, ⟨Parser.onMessageBegin, none, [], []⟩, false,
          none⟩ = .ok c ∧
      c.session.parser.incoming =
        ⟨js "/chat", [(js "upgrade", .one (js "chat"))], [], true⟩ ∧
      c.handed = some (HttpParser.text "hello")) ∧
    ∃ c, chatSlices.foldlM (Reception.read true id ⟨.server, fun _ _ ↦ false, 0⟩)
        ⟨HttpParser.Parser.blank.init .request, ⟨Parser.onMessageBegin, none, [], []⟩, false,
          none⟩ = .ok c ∧
      c.destroyed = true ∧ c.handed = none := by
  have hlead : Lead true (fun _ _ ↦ false) 0 [getRequest]
      (HttpParser.Parser.blank.init .request).toMessage := by decide +kernel
  have hupgrades : chatRequest.Upgrades (storeAll (fun _ _ ↦ false) 0 [getRequest]
      (HttpParser.Parser.blank.init .request).toMessage) := by decide +kernel
  have hget : ∀ w ∈ [getRequest], AsciiValues w := by
    unfold AsciiValues
    decide +kernel
  have hchat : AsciiValues chatRequest := by
    unfold AsciiValues
    decide +kernel
  have hone : addLines [] (chatRequest.headers.map (lineOf id)) =
      .ok [(js "upgrade", .one (js "chat"))] := by decide +kernel
  constructor
  · obtain ⟨rs, headers, c, -, hheaders, hread, -, hincoming, -, hhanded, -⟩ :=
      receive_upgrade true id ⟨.server, fun _ _ ↦ false, 1⟩ (by decide) (by decide)
        ⟨Parser.onMessageBegin, none, [], []⟩ hlead hget rfl hupgrades hchat
        (HttpParser.text "hello") chatSlices (by decide +kernel) rfl
    obtain rfl := Except.ok.inj (hone.symm.trans hheaders)
    exact ⟨c, hread, hincoming, (hhanded Nat.one_pos).2⟩
  · obtain ⟨rs, headers, c, -, -, hread, -, -, -, -, hdestroyed⟩ :=
      receive_upgrade true id ⟨.server, fun _ _ ↦ false, 0⟩ (by decide) (by decide)
        ⟨Parser.onMessageBegin, none, [], []⟩ hlead hget rfl hupgrades hchat
        (HttpParser.text "hello") chatSlices (by decide +kernel) rfl
    exact ⟨c, hread, hdestroyed rfl⟩

end SpiderNode.Http
