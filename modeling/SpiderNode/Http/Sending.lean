import SpiderNode.Http.Outgoing
import Mathlib.Data.Nat.Digits.Lemmas

/-!
# Sending

What the calls of a message do, said once: a message that owns a writable socket passes everything
on, and one that does not keeps everything in `output`. Either way only `output`, `wire` and
`headerSent` change.
-/

namespace SpiderNode.Http

open Net (JsError)

/-! ## Texts -/

theorem isAscii_crlf : IsAscii crlf := by decide

theorem toNat_hexChar_lt : ∀ d < 16, (hexChar d).toNat < 0x80 := by decide

theorem isAscii_hex (n : ℕ) : IsAscii (hex n) := by
  rw [hex]
  split_ifs
  · decide
  · intro u hu
    obtain ⟨d, hd, rfl⟩ := List.mem_map.mp hu
    exact toNat_hexChar_lt d (Nat.digits_lt_base (by omega) (List.mem_reverse.mp hd))

/-- A size other than zero does not begin with the digit zero. -/
theorem head?_hex {n : ℕ} (h : n ≠ 0) : (hex n).head? ≠ some 0x30 := by
  have hne : Nat.digits 16 n ≠ [] := Nat.digits_ne_nil_iff_ne_zero.mpr h
  have hlast : ∀ d < 16, d ≠ 0 → hexChar d ≠ 0x30 := by decide
  rw [hex, if_neg h, List.head?_map, List.head?_reverse, List.getLast?_eq_some_getLast hne,
    Option.map_some]
  intro hd
  exact hlast _ (Nat.digits_lt_base (by omega) (List.getLast_mem hne))
    (Nat.getLast_digit_ne_zero 16 h) (Option.some.inj hd)

/-- The bytes of a chunk. -/
theorem encodeText_chunkText (e e' : Option TextEncoding) (s x : JSString) :
    encodeText e (Message.chunkText e' s ++ x) =
      latin1Bytes (hex (byteLength e' s) ++ crlf) ++ encodeText e s ++ latin1Bytes crlf ++
        encodeText e x := by
  have hsplit : Splits (hex (byteLength e' s) ++ crlf ++ s ++ crlf) x := by
    have hl := splits_of_getLast_lt (u := 0x0A) (by decide)
      (hex (byteLength e' s) ++ crlf ++ s ++ [0x0D]) x
    rwa [List.append_assoc _ [0x0D]] at hl
  rw [Message.chunkText, encodeText_append_of_splits hsplit, encodeText_append_ascii isAscii_crlf,
    encodeText_ascii_append ((isAscii_hex _).append isAscii_crlf)]

/-! ## Calls as functions -/

namespace Op

variable {α β : Type}

@[simp] theorem bind_apply (x : Op α) (f : α → Op β) (m : Message) :
    (x >>= f) m =
      match x m with
      | .ok a m' => f a m'
      | .error e m' => .error e m' := by
  show EStateM.bind x f m = _
  unfold EStateM.bind
  cases x m <;> rfl

@[simp] theorem map_apply (f : α → β) (x : Op α) (m : Message) :
    (f <$> x) m =
      match x m with
      | .ok a m' => .ok (f a) m'
      | .error e m' => .error e m' := by
  show EStateM.map f x m = _
  unfold EStateM.map
  cases x m <;> rfl

@[simp] theorem pure_apply (a : α) (m : Message) : (pure a : Op α) m = .ok a m := rfl

@[simp] theorem get_apply (m : Message) : (get : Op Message) m = .ok m m := rfl

@[simp] theorem set_apply (m' m : Message) : (set m' : Op PUnit) m = .ok ⟨⟩ m' := rfl

@[simp] theorem modify_apply (f : Message → Message) (m : Message) :
    (modify f : Op PUnit) m = .ok ⟨⟩ (f m) := rfl

@[simp] theorem throw_apply (e : JsError) (m : Message) : (throw e : Op α) m = .error e m := rfl

end Op

namespace Message

/-! ## A message with a socket -/

variable {m : Message} {c : Chunk} {e : Option TextEncoding}

/-- A message that owns a writable socket. -/
theorem attached_iff : m.attached = true ↔
    ∃ f, m.connection = some ⟨true, true, f⟩ := by
  unfold attached
  cases hc : m.connection with
  | none => simp
  | some l =>
    obtain ⟨o, w, f⟩ := l
    simp

theorem socketWrite_apply {l : Link} (h : m.connection = some l) :
    socketWrite c e m = .ok l.flushes { m with wire := m.wire ++ [(c, e)] } := by
  simp [socketWrite, h]

theorem writePending_apply (h : m.attached = true) :
    writePending m.output m = .ok true { m with output := [], wire := m.wire ++ m.output } := by
  obtain ⟨f, hc⟩ := attached_iff.mp h
  suffices hs : ∀ (out wire : List Entry), writePending out { m with output := out, wire := wire } =
      .ok true { m with output := [], wire := wire ++ out } by
    exact hs m.output m.wire
  intro out
  induction out with
  | nil => intro wire; simp [writePending]
  | cons x out ih =>
    intro wire
    have hw := @socketWrite_apply { m with output := out, wire := wire } x.1 x.2 _ hc
    have ha : attached { m with output := x :: out, wire := wire } = true := h
    simp only [writePending, Op.bind_apply, Op.get_apply, ha, if_true, Op.modify_apply, hw, ih]
    simp

/-- The message once an entry has gone to the socket, and before it whatever was kept. -/
def pushed (m : Message) (x : Entry) : Message :=
  { m with output := [], wire := m.wire ++ m.output ++ [x] }

/-- **With a socket.** Everything that was kept goes first. -/
theorem writeRaw_attached (h : m.attached = true) :
    ∃ r, writeRaw c e m = .ok r (m.pushed (c, e)) := by
  obtain ⟨f, hc⟩ := attached_iff.mp h
  refine ⟨f, ?_⟩
  have hw := @socketWrite_apply { m with output := [], wire := m.wire ++ m.output } c e _ hc
  simp only [writeRaw, Op.bind_apply, Op.get_apply, h, if_true, writePending_apply h, hw, pushed]

/-- The message once everything that was kept has gone to the socket. -/
def flushed (m : Message) : Message := { m with output := [], wire := m.wire ++ m.output }

/-- `_flush` sends everything that was kept. -/
theorem flushOutput_apply {l : Link} (hc : m.connection = some l) (hw : l.writable = true)
    (ret : Bool) :
    flushOutput ret m.output m =
      .ok (if m.output = [] then ret else l.flushes, true) m.flushed := by
  suffices hs : ∀ (out : List Entry) (m : Message) (ret : Bool), m.connection = some l →
      flushOutput ret out m =
        .ok (if out = [] then ret else l.flushes, true)
          { m with output := if out = [] then m.output else [], wire := m.wire ++ out } by
    rw [hs m.output m ret hc]
    split_ifs with ho <;> simp [flushed, ho]
  intro out
  induction out with
  | nil => intro m ret _; simp [flushOutput]
  | cons x out ih =>
    intro m ret hc
    have hx : ∀ m : Message, m.connection = some l → flushOutput ret (x :: out) m =
        flushOutput l.flushes out { m with output := out, wire := m.wire ++ [x] } := by
      intro m hc
      simp only [flushOutput, Op.bind_apply, Op.get_apply, hc, hw, if_true, Op.modify_apply]
      rw [← hc, socketWrite_apply (m := { m with output := out }) hc]
    rw [hx m hc, ih { m with output := out, wire := m.wire ++ [x] } _ hc]
    cases out <;> simp

theorem finish_apply {l : Link} (hc : m.connection = some l) :
    finish m =
      .ok ⟨⟩ { m with
        finishes := m.finishes + 1
        connection := if m.role = Role.response then none else m.connection } := by
  simp only [finish, Op.bind_apply, Op.get_apply]
  rw [hc]
  rfl

theorem flush_apply {l : Link} (hc : m.connection = some l) (hw : l.writable = true) :
    flush m =
      if m.finished then finish m.flushed
      else .ok ⟨⟩ (if m.output ≠ [] ∧ l.flushes = true then
        { m.flushed with drains := m.drains + 1 } else m.flushed) := by
  have hs : m.connection.isSome = true := by rw [hc]; rfl
  have hfin : m.flushed.finished = m.finished := rfl
  simp only [flush, Op.bind_apply, Op.get_apply, hs, if_true, flushOutput_apply hc hw, hfin]
  cases m.finished with
  | true => rfl
  | false =>
    rcases eq_or_ne m.output [] with ho | ho
    · simp [ho]
    · cases hf : l.flushes <;> simp [ho, flushed]

/-- The socket comes: everything that was kept goes out, and the response is done. -/
theorem assignSocket_finished (f : Bool) (hf : m.finished = true) (hr : m.role = .response) :
    assignSocket true f m =
      .ok ⟨⟩ { m with
        connection := none, output := [], wire := m.wire ++ m.output
        finishes := m.finishes + 1 } := by
  have hflush := flush_apply (m := { m with connection := some ⟨true, true, f⟩ }) rfl rfl
  have hfin := finish_apply (m := flushed { m with connection := some ⟨true, true, f⟩ }) rfl
  simp only [assignSocket, Op.bind_apply, Op.modify_apply]
  rw [hflush, if_pos hf, hfin]
  simp [flushed, hr]

/-- **Without a socket.** -/
theorem writeRaw_kept (h : m.attached = false) :
    writeRaw c e m =
      match joinOutput m.output c e with
      | .ok out => .ok false { m with output := out }
      | .error err => .error err m := by
  simp only [writeRaw, Op.bind_apply, Op.get_apply, h, Bool.false_eq_true, if_false, buffer]
  cases joinOutput m.output c e <;> rfl

/-- The part of the header block that goes out in front of the next string. -/
def unsent (m : Message) : JSString := if m.headerSent then [] else m.headerText

/-- The message once a string has gone to the socket, behind the header block. -/
def passed (m : Message) (s : JSString) (e : Option TextEncoding) : Message :=
  { m with
    output := []
    wire := m.wire ++ m.output ++ [(.str (m.unsent ++ s), e)]
    headerSent := true }

theorem send_str_attached (h : m.attached = true) (s : JSString) (e : Option TextEncoding) :
    ∃ r, send (.str s) e m = .ok r (m.passed s e) := by
  simp only [send, Op.bind_apply, Op.get_apply, passed, unsent]
  cases hs : m.headerSent with
  | true =>
    obtain ⟨r, hr⟩ := writeRaw_attached (c := .str s) (e := e) h
    refine ⟨r, ?_⟩
    simp only [if_true, hr, List.nil_append, pushed]
    rw [← hs]
  | false =>
    obtain ⟨r, hr⟩ := writeRaw_attached (m := { m with headerSent := true })
      (c := .str (m.headerText ++ s)) (e := e) h
    exact ⟨r, hr⟩

theorem send_str_kept (h : m.attached = false) (s : JSString) (e : Option TextEncoding) :
    send (.str s) e m =
      match joinOutput m.output (.str (m.unsent ++ s)) e with
      | .ok out => .ok false { m with output := out, headerSent := true }
      | .error err => .error err { m with headerSent := true } := by
  simp only [send, Op.bind_apply, Op.get_apply, unsent]
  cases hs : m.headerSent with
  | true =>
    have hm : { m with headerSent := true } = m := by rw [← hs]
    simp only [if_true, List.nil_append, writeRaw_kept h]
    rw [hm]
    cases joinOutput m.output (.str s) e with
    | ok out => rw [← hs]
    | error err => rfl
  | false => exact writeRaw_kept (m := { m with headerSent := true }) h

/-! ## What does not change -/

/-- The fields that sending leaves alone. -/
structure SameFace (m m' : Message) : Prop where
  eq : m' = { m with output := m'.output, wire := m'.wire, headerSent := m'.headerSent }

theorem SameFace.refl (m : Message) : SameFace m m := ⟨rfl⟩

theorem SameFace.trans {m₁ m₂ m₃ : Message} (h : SameFace m₁ m₂) (h' : SameFace m₂ m₃) :
    SameFace m₁ m₃ := by
  constructor
  rw [h'.eq, h.eq]

/-- The state a call leaves, whether or not it throws. -/
def after {α : Type} : EStateM.Result JsError Message α → Message
  | .ok _ m => m
  | .error _ m => m

@[simp] theorem after_ok {α : Type} (a : α) (m : Message) :
    after (.ok a m : EStateM.Result JsError Message α) = m := rfl

@[simp] theorem after_error {α : Type} (e : JsError) (m : Message) :
    after (.error e m : EStateM.Result JsError Message α) = m := rfl

theorem writeRaw_sameFace (c : Chunk) (e : Option TextEncoding) (m : Message) :
    SameFace m (after (writeRaw c e m)) := by
  cases h : m.attached with
  | true =>
    obtain ⟨r, hr⟩ := writeRaw_attached (c := c) (e := e) h
    rw [hr]
    exact ⟨rfl⟩
  | false =>
    rw [writeRaw_kept h]
    cases joinOutput m.output c e <;> exact ⟨rfl⟩

theorem send_sameFace (c : Chunk) (e : Option TextEncoding) (m : Message) :
    SameFace m (after (send c e m)) := by
  simp only [send, Op.bind_apply, Op.get_apply]
  split
  · exact writeRaw_sameFace c e m
  · cases c with
    | str s => exact SameFace.trans ⟨rfl⟩ (writeRaw_sameFace _ e { m with headerSent := true })
    | buf b =>
      exact SameFace.trans ⟨rfl⟩ (writeRaw_sameFace _ e
        { m with output := (.str m.headerText, some .ascii) :: m.output, headerSent := true })

/-! ## Strings without an encoding -/

/-- A string without an encoding can always be kept. -/
theorem joinOutput_none (out : List Entry) (s : JSString) :
    ∃ out', joinOutput out (.str s) none = .ok out' := by
  rcases eq_or_ne s [] with rfl | hs
  · exact ⟨out, rfl⟩
  · have hl : (Chunk.str s).length ≠ 0 := by simpa [Chunk.length] using hs
    unfold joinOutput
    rw [if_neg hl]
    rcases out.getLast? with _ | ⟨t | b, e⟩
    · exact ⟨_, rfl⟩
    · exact ⟨_, if_pos (.inr rfl)⟩
    · exact ⟨_, if_neg (by simp)⟩

theorem writeRaw_none_ok (s : JSString) (m : Message) :
    ∃ r m', writeRaw (.str s) none m = .ok r m' := by
  cases h : m.attached with
  | true =>
    obtain ⟨r, hr⟩ := writeRaw_attached (c := .str s) (e := none) h
    exact ⟨r, _, hr⟩
  | false =>
    obtain ⟨out, ho⟩ := joinOutput_none m.output s
    rw [writeRaw_kept h, ho]
    exact ⟨_, _, rfl⟩

theorem send_none_ok (s : JSString) (m : Message) : ∃ r m', send (.str s) none m = .ok r m' := by
  simp only [send, Op.bind_apply, Op.get_apply]
  split
  · exact writeRaw_none_ok s m
  · exact writeRaw_none_ok _ _

/-! ## The header block -/

/-- **`_storeHeader` does not throw.** It leaves a header block, and sends it only to have a
`100 Continue` asked for. -/
theorem storeHeader_ok (firstLine : JSString) (lines : List (JSString × JSString)) (m : Message) :
    ∃ m', storeHeader firstLine lines m = .ok ⟨⟩ m' ∧
      SameFace (m.withDraft (m.draft firstLine lines)) m' ∧
      ((m.draft firstLine lines).sentExpect = false →
        m' = m.withDraft (m.draft firstLine lines)) := by
  simp only [storeHeader, Op.bind_apply, Op.get_apply, Op.set_apply]
  cases hs : (m.draft firstLine lines).sentExpect with
  | false => exact ⟨_, rfl, SameFace.refl _, fun _ ↦ rfl⟩
  | true =>
    have hf := send_sameFace (.str []) none (m.withDraft (m.draft firstLine lines))
    obtain ⟨r, m', hm⟩ := send_none_ok [] (m.withDraft (m.draft firstLine lines))
    rw [hm] at hf
    refine ⟨m', ?_, hf, by simp⟩
    simp only [if_true, Op.bind_apply, hm, Op.pure_apply]

/-- The headers that have been set, in the order in which they are rendered. -/
def rendered (m : Message) : List (JSString × HeaderValue) :=
  (m.headers.getD []).foldl (fun hs h ↦ assign hs h.2.1 h.2.2) []

theorem renderHeaders_apply (h : m.header = none) : renderHeaders m = .ok m.rendered m := by
  simp [renderHeaders, h, rendered]

/-- The fields `writeHead` renders. -/
def headFields (inherited : JSString → Option JSString) (m : Message) (obj : Option HeaderSet) :
    List (JSString × HeaderValue) :=
  match obj, m.headers with
  | some obj, some _ => mergeHeaders inherited m.rendered obj
  | none, some _ => m.rendered
  | some obj, none => obj.fields
  | none, none => []

/-- The message once `writeHead` has looked at the status. -/
def withStatus (m : Message) (statusCode : ℕ) : Message :=
  { m with
    hasBody := m.hasBody && !bodiless statusCode
    shouldKeepAlive := m.shouldKeepAlive && !(m.expectContinue && !m.sent100) }

theorem writeHead_apply_of_or (h : m.header = none ∨ m.headers = none)
    (inherited : JSString → Option JSString) (statusCode : ℕ) (reasonPhrase : Option JSString)
    (obj : Option HeaderSet) :
    writeHead inherited statusCode reasonPhrase obj m =
      storeHeader (statusLine statusCode reasonPhrase) (headerLines (headFields inherited m obj))
        (m.withStatus statusCode) := by
  unfold writeHead headFields
  cases hh : m.headers with
  | none => cases obj <;> simp [hh, withStatus]
  | some headers =>
    have hn : m.header = none := by simpa [hh] using h
    cases obj <;> simp [hh, renderHeaders_apply hn, withStatus]

theorem writeHead_apply (h : m.header = none) (inherited : JSString → Option JSString)
    (statusCode : ℕ) (reasonPhrase : Option JSString) (obj : Option HeaderSet) :
    writeHead inherited statusCode reasonPhrase obj m =
      storeHeader (statusLine statusCode reasonPhrase) (headerLines (headFields inherited m obj))
        (m.withStatus statusCode) :=
  writeHead_apply_of_or (.inl h) inherited statusCode reasonPhrase obj

/-- The headers that were set cannot be rendered twice. -/
theorem writeHead_throws (h : m.header.isSome = true) (h' : m.headers.isSome = true)
    (inherited : JSString → Option JSString) (statusCode : ℕ) (reasonPhrase : Option JSString)
    (obj : Option HeaderSet) :
    writeHead inherited statusCode reasonPhrase obj m =
      .error (.error "Can't render headers after they are sent to the client.") m := by
  obtain ⟨headers, hh⟩ := Option.isSome_iff_exists.mp h'
  unfold writeHead
  cases obj <;> simp [hh, renderHeaders, h]

theorem ensureHeader_of_isSome (h : m.header.isSome = true) : ensureHeader m = .ok ⟨⟩ m := by
  obtain ⟨b, hb⟩ := Option.isSome_iff_exists.mp h
  simp [ensureHeader, hb]

/-- The header block that is rendered if there is none yet. -/
theorem implicitHeader_ok (h : m.header = none) :
    ∃ m', implicitHeader m = .ok ⟨⟩ m' ∧ m'.header.isSome = true := by
  have key : ∀ firstLine lines (m : Message), ∃ m', storeHeader firstLine lines m = .ok ⟨⟩ m' ∧
      m'.header.isSome = true := by
    intro firstLine lines m
    obtain ⟨m', hm, hf, -⟩ := storeHeader_ok firstLine lines m
    refine ⟨m', hm, ?_⟩
    rw [hf.eq]
    rfl
  cases hr : m.role with
  | response =>
    simp only [implicitHeader, Op.bind_apply, Op.get_apply, hr, writeHead_apply h]
    exact key _ _ _
  | request method path =>
    simp only [implicitHeader, Op.bind_apply, Op.get_apply, hr, renderHeaders_apply h]
    exact key _ _ _

/-- The message with a header block. -/
def ensured (m : Message) : Message := after (ensureHeader m)

theorem ensured_of_isSome (h : m.header.isSome = true) : m.ensured = m := by
  rw [ensured, ensureHeader_of_isSome h, after_ok]

theorem ensureHeader_apply (m : Message) :
    ensureHeader m = .ok ⟨⟩ m.ensured ∧ m.ensured.header.isSome = true := by
  cases h : m.header with
  | none =>
    obtain ⟨m', hm, hs⟩ := implicitHeader_ok h
    have he : ensureHeader m = .ok ⟨⟩ m' := by
      simp only [ensureHeader, Op.bind_apply, Op.get_apply, h, Option.isNone_none, if_true, hm]
    rw [ensured, he]
    exact ⟨rfl, hs⟩
  | some b =>
    have hs : m.header.isSome = true := by rw [h]; rfl
    rw [ensured, ensureHeader_of_isSome hs]
    exact ⟨rfl, hs⟩

/-- Making sure that there is a header block leaves the place of the message alone. -/
theorem ensured_eq (m : Message) :
    m.ensured =
      { m.ensured with
        role := m.role, connection := m.connection, finishes := m.finishes
        finished := m.finished, trailer := m.trailer } := by
  have key : ∀ firstLine lines (w : Message), after (storeHeader firstLine lines w) =
      { after (storeHeader firstLine lines w) with
        role := w.role, connection := w.connection, finishes := w.finishes
        finished := w.finished, trailer := w.trailer } := by
    intro firstLine lines w
    obtain ⟨m', hm, hf, -⟩ := storeHeader_ok firstLine lines w
    rw [hm, after_ok, hf.eq]
    rfl
  cases h : m.header with
  | some b => rw [ensured_of_isSome (by rw [h]; rfl)]
  | none =>
    cases hr : m.role with
    | response =>
      simp only [ensured, ensureHeader, implicitHeader, Op.bind_apply, Op.get_apply, h,
        Option.isNone_none, if_true, hr, writeHead_apply h]
      rw [← hr]
      exact key _ _ _
    | request method path =>
      simp only [ensured, ensureHeader, implicitHeader, Op.bind_apply, Op.get_apply, h,
        Option.isNone_none, if_true, hr, renderHeaders_apply h]
      rw [← hr]
      exact key _ _ _

theorem writeBody_bodiless (hb : m.hasBody = false) : writeBody c e m = .ok true m := by
  simp [writeBody, hb]

theorem writeBody_empty (hb : m.hasBody = true) (hl : c.length = 0) :
    writeBody c e m = .ok false m := by
  simp [writeBody, hb, hl]

theorem writeBody_plain (hb : m.hasBody = true) (hl : c.length ≠ 0)
    (hc : m.chunkedEncoding = false) : writeBody c e m = send c e m := by
  simp [writeBody, hb, hl, hc]

theorem writeBody_str {s : JSString} (hb : m.hasBody = true) (hs : s ≠ [])
    (hc : m.chunkedEncoding = true) :
    writeBody (.str s) e m = send (.str (chunkText e s)) e m := by
  have hl : (Chunk.str s).length ≠ 0 := by simpa [Chunk.length] using hs
  simp [writeBody, hb, hl, hc]

theorem writeBody_buf {b : Bytes} (hb : m.hasBody = true) (hne : b ≠ [])
    (hc : m.chunkedEncoding = true) :
    writeBody (.buf b) e m =
      (do
        let _ ← send (.str (hex b.length ++ crlf)) none
        let _ ← send (.buf b) none
        send (.str crlf) none : Op Bool) m := by
  have hl : (Chunk.buf b).length ≠ 0 := by simpa [Chunk.length] using hne
  simp [writeBody, hb, hl, hc]

theorem writeBody_sameFace (c : Chunk) (e : Option TextEncoding) (m : Message) :
    SameFace m (after (writeBody c e m)) := by
  have hseq : ∀ {α : Type} (c : Chunk) (e : Option TextEncoding) (f : Bool → Op α) (m : Message),
      (∀ b m', SameFace m' (after (f b m'))) → SameFace m (after ((send c e >>= f) m)) := by
    intro α c e f m hf
    have hs := send_sameFace c e m
    rw [Op.bind_apply]
    cases hm : send c e m with
    | ok b m' =>
      rw [hm] at hs
      exact hs.trans (hf b m')
    | error err m' =>
      rw [hm] at hs
      exact hs
  simp only [writeBody, Op.bind_apply, Op.get_apply]
  split_ifs
  · exact SameFace.refl m
  · exact SameFace.refl m
  · cases c with
    | str s => exact send_sameFace _ e m
    | buf b =>
      exact hseq _ _ _ _ fun _ _ ↦ hseq _ _ _ _ fun _ _ ↦ send_sameFace _ _ _
  · exact send_sameFace c e m

/-! ## What a message carries -/

/-- The bytes of an entry. -/
def entryBytes : Entry → Bytes
  | (.str s, e) => encodeText e s
  | (.buf b, _) => b

def entriesBytes (l : List Entry) : Bytes := l.flatMap entryBytes

@[simp] theorem entriesBytes_nil : entriesBytes [] = [] := rfl

@[simp] theorem entriesBytes_append (l l' : List Entry) :
    entriesBytes (l ++ l') = entriesBytes l ++ entriesBytes l' := List.flatMap_append

@[simp] theorem entriesBytes_cons (x : Entry) (l : List Entry) :
    entriesBytes (x :: l) = entryBytes x ++ entriesBytes l := rfl

/-- The bytes that the socket gets for the message: what it was passed, and what is kept for it. -/
def carried (m : Message) : Bytes := entriesBytes (m.wire ++ m.output)

theorem carried_passed (m : Message) (s : JSString) (e : Option TextEncoding) :
    (m.passed s e).carried = m.carried ++ encodeText e (m.unsent ++ s) := by
  simp [carried, passed, entryBytes]

end Message

end SpiderNode.Http
