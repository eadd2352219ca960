import SpiderNode.Http.Ending
import SpiderNode.Http.Finished

/-!
# Queued and direct output

A response that waits for its socket joins what it is passed to one string where it can, and sends
it when its turn comes. A response that owns its socket passes everything on at once. Both are meant
to send the same bytes.

A queued message and its direct twin go through the same calls here. `Twin` says that they differ in
their socket and in where the bytes are, and it is kept by every call whose pieces can be joined
without changing bytes. `queued_eq_direct` is the result for whole runs.
-/

namespace SpiderNode.Http

open Net (JsError)

namespace Message

variable {m q d : Message} {c : Chunk} {e : Option TextEncoding} {f : Bool}

/-! ## Joining -/

/-- A piece that is joined to the last entry has the bytes it would have on its own: a string does
not complete a pair of surrogates and is encoded as the entry is, and a buffer it is joined to has
the same bytes as a string. -/
def JoinsCleanly (out : List Entry) (c : Chunk) (e : Option TextEncoding) : Prop :=
  match c, out.getLast? with
  | .str s, some (.str t, le) =>
    e = none ∨ le = e → (isUtf8 le = true → Splits t s) ∧ encodeText le s = encodeText e s
  | .str s, some (.buf b, le) =>
    e.isSome = true ∧ le = e → ∃ t, utf8Decode b = some t ∧ encodeText e t = b ∧
      (isUtf8 e = true → Splits t s)
  | _, _ => True

theorem encodeText_append_of_imp_splits {s t : JSString} (h : isUtf8 e = true → Splits t s) :
    encodeText e (t ++ s) = encodeText e t ++ encodeText e s := by
  cases he : isUtf8 e with
  | true => exact encodeText_append_of_splits (h he)
  | false => simp [encodeText, he, latin1Bytes]

theorem entriesBytes_of_getLast? {out : List Entry} {x : Entry} (h : out.getLast? = some x) :
    entriesBytes out = entriesBytes out.dropLast ++ entryBytes x := by
  obtain ⟨l, rfl⟩ : ∃ l, out = l ++ [x] := ⟨out.dropLast, (List.dropLast_append_getLast? x h).symm⟩
  simp

theorem joinOutput_bytes {out : List Entry} (h : JoinsCleanly out c e) :
    ∃ out', joinOutput out c e = .ok out' ∧
      entriesBytes out' = entriesBytes out ++ entryBytes (c, e) := by
  have hpush : entriesBytes (out ++ [(c, e)]) = entriesBytes out ++ entryBytes (c, e) := by simp
  by_cases hl : c.length = 0
  · refine ⟨out, by simp [joinOutput, hl], ?_⟩
    rcases c with s | b
    · have hs : s = [] := by simpa [Chunk.length] using hl
      simp [entryBytes, hs]
    · have hb : b = [] := by simpa [Chunk.length] using hl
      simp [entryBytes, hb]
  · unfold joinOutput
    rw [if_neg hl]
    rcases c with s | b
    -- a string is joined to the last entry, which becomes a string if it is a buffer
    · rcases hlast : out.getLast? with _ | ⟨t | b, le⟩
      · exact ⟨_, rfl, hpush⟩
      · simp only
        split_ifs with hj
        · simp only [JoinsCleanly, hlast] at h
          have hclean := h (hj.symm.imp id And.right)
          refine ⟨_, rfl, ?_⟩
          rw [entriesBytes_of_getLast? hlast]
          simp [entryBytes, encodeText_append_of_imp_splits hclean.1, hclean.2]
        · exact ⟨_, rfl, hpush⟩
      · simp only
        split_ifs with hj
        · simp only [JoinsCleanly, hlast] at h
          obtain ⟨t, ht, hb, hsplit⟩ := h hj
          rw [ht]
          refine ⟨_, rfl, ?_⟩
          have hle : le = e := hj.2
          have hs := encodeText_append_of_imp_splits hsplit
          rw [entriesBytes_of_getLast? hlast]
          simp [entryBytes, hle, hs, hb]
        · exact ⟨_, rfl, hpush⟩
    · exact ⟨_, rfl, hpush⟩

/-! ## Twins -/

/-- The direct twin of a queued message: it owns its socket, and has sent what the other keeps. -/
def direct (q : Message) (wire : List Entry) (f : Bool) : Message :=
  { q with connection := some ⟨true, true, f⟩, wire := wire, output := [] }

/-- `q` is queued and `d` is its direct twin. -/
structure Twin (f : Bool) (d q : Message) : Prop where
  eq : d = q.direct d.wire f
  connection : q.connection = none
  wire : q.wire = []
  bytes : entriesBytes d.wire = entriesBytes q.output
  role : q.role = .response

theorem Twin.attached (h : Twin f d q) : d.attached = true := by
  rw [h.eq]
  rfl

theorem Twin.queued (h : Twin f d q) : q.attached = false := by
  rw [Message.attached, h.connection]

theorem Twin.output (h : Twin f d q) : d.output = [] := by
  rw [h.eq]
  rfl

/-- A change of the fields that have nothing to do with the socket. -/
theorem Twin.map (h : Twin f d q) (g : Message → Message)
    (hg : ∀ (q : Message) wire, g (q.direct wire f) = (g q).direct wire f)
    (hc : (g q).connection = q.connection) (hw : (g q).wire = q.wire)
    (ho : (g q).output = q.output) (hr : (g q).role = q.role) : Twin f (g d) (g q) := by
  have hd : g d = (g q).direct d.wire f := by
    rw [← hg]
    exact congrArg g h.eq
  refine ⟨?_, by rw [hc, h.connection], by rw [hw, h.wire], ?_, by rw [hr, h.role]⟩
  · rw [hd]
    rfl
  · rw [hd, ho]
    exact h.bytes

/-- Both twins have made a call, and are twins again. -/
def Both {α : Type} (f : Bool) (x : Op α) (d q : Message) (P : Message → Prop) : Prop :=
  ∃ r r' d' q', x d = .ok r d' ∧ x q = .ok r' q' ∧ Twin f d' q' ∧ P q'

theorem Twin.writeRaw (h : Twin f d q) (hj : JoinsCleanly q.output c e) :
    Both f (Message.writeRaw c e) d q fun q' ↦ q' = { q with output := q'.output } := by
  obtain ⟨out, ho, hb⟩ := joinOutput_bytes hj
  obtain ⟨r, hr⟩ := writeRaw_attached (c := c) (e := e) h.attached
  refine ⟨r, false, d.pushed (c, e), { q with output := out }, hr, ?_, ?_, rfl⟩
  · rw [writeRaw_kept h.queued, ho]
  · have hout := h.output
    have hd := h.eq
    refine ⟨?_, h.connection, h.wire, ?_, h.role⟩
    · rw [pushed, hout]
      rw [hd]
      rfl
    · rw [pushed, hout]
      simp [h.bytes, hb]

/-! ## Sending -/

/-- A piece can be sent, behind the header block if that has not been sent. In front of a buffer the
block is put before everything that is kept. -/
def SendClean (q : Message) (c : Chunk) (e : Option TextEncoding) : Prop :=
  match q.headerSent, c with
  | true, c => JoinsCleanly q.output c e
  | false, .str s => JoinsCleanly q.output (.str (q.headerText ++ s)) e
  | false, .buf _ => q.output = []

/-- What sending leaves. -/
def AfterSend (q q' : Message) : Prop := SameFace q q' ∧ q'.headerSent = true

theorem Twin.setSent (h : Twin f d q) :
    Twin f { d with headerSent := true } { q with headerSent := true } :=
  h.map (fun m ↦ { m with headerSent := true }) (fun _ _ ↦ rfl) rfl rfl rfl rfl

theorem Twin.headerSent (h : Twin f d q) : d.headerSent = q.headerSent := by
  rw [h.eq]
  rfl

theorem Twin.headerText (h : Twin f d q) : d.headerText = q.headerText := by
  rw [h.eq]
  rfl

theorem Twin.send (h : Twin f d q) (hj : SendClean q c e) :
    Both f (Message.send c e) d q (AfterSend q) := by
  unfold SendClean at hj
  cases hs : q.headerSent with
  | true =>
    rw [hs] at hj
    obtain ⟨r, r', d', q', hd, hq, ht, hf⟩ := h.writeRaw hj
    have hd' : Message.send c e d = .ok r d' := by
      simp only [Message.send, Op.bind_apply, Op.get_apply, h.headerSent, hs, if_true, hd]
    have hq' : Message.send c e q = .ok r' q' := by
      simp only [Message.send, Op.bind_apply, Op.get_apply, hs, if_true, hq]
    refine ⟨r, r', d', q', hd', hq', ht, ⟨?_⟩, ?_⟩
    · rw [hf]
    · rw [hf]
      exact hs
  | false =>
    rw [hs] at hj
    cases c with
    -- the header goes into the string itself
    | str s =>
      obtain ⟨r, r', d', q', hd, hq, ht, hf⟩ :=
        h.setSent.writeRaw (c := .str (q.headerText ++ s)) (e := e) hj
      refine ⟨r, r', d', q', ?_, ?_, ht, ⟨?_⟩, ?_⟩
      · simp only [Message.send, Op.bind_apply, Op.get_apply, h.headerSent, hs, Bool.false_eq_true,
          if_false, Op.set_apply, h.headerText, hd]
      · simp only [Message.send, Op.bind_apply, Op.get_apply, hs, Bool.false_eq_true, if_false,
          Op.set_apply, hq]
      · rw [hf]
      · rw [hf]
    -- the header is put before whatever is queued, which has to be nothing
    | buf b =>
      have hout : q.output = [] := hj
      have hd : Message.send (.buf b) e d =
          Message.writeRaw (.buf b) e
            { d with output := [(.str q.headerText, some .ascii)], headerSent := true } := by
        simp only [Message.send, Op.bind_apply, Op.get_apply, h.headerSent, hs, Bool.false_eq_true,
          if_false, Op.set_apply, h.headerText, h.output]
      have hq : Message.send (.buf b) e q =
          Message.writeRaw (.buf b) e
            { q with output := [(.str q.headerText, some .ascii)], headerSent := true } := by
        simp only [Message.send, Op.bind_apply, Op.get_apply, hs, Bool.false_eq_true, if_false,
          Op.set_apply, hout]
      have hjoin : JoinsCleanly [(.str q.headerText, some .ascii)] (.buf b) e := trivial
      obtain ⟨out, ho, hb⟩ := joinOutput_bytes hjoin
      obtain ⟨r, hr⟩ := writeRaw_attached (c := .buf b) (e := e) (m :=
        { d with output := [(.str q.headerText, some .ascii)], headerSent := true }) h.attached
      have hk := writeRaw_kept (c := .buf b) (e := e) (m :=
        { q with output := [(.str q.headerText, some .ascii)], headerSent := true }) h.queued
      rw [ho] at hk
      refine ⟨r, false, _, _, hd.trans hr, hq.trans hk, ⟨?_, h.connection, h.wire, ?_, h.role⟩,
        ⟨rfl⟩, rfl⟩
      · rw [pushed]
        rw [h.eq]
        rfl
      · have hbytes := h.bytes
        rw [hout] at hbytes
        simp [pushed, hb, hbytes]

/-- ASCII text without an encoding joins anything. -/
theorem joinsCleanly_of_isAscii {s : JSString} (hs : IsAscii s) (out : List Entry) :
    JoinsCleanly out (.str s) none := by
  unfold JoinsCleanly
  rcases out.getLast? with _ | ⟨t | b, le⟩
  · trivial
  · intro _
    refine ⟨fun _ ↦ ?_, by rw [encodeText_of_isAscii hs, encodeText_of_isAscii hs]⟩
    cases s with
    | nil => simp
    | cons u s => exact splits_of_head_lt (hs u (by simp)) t s
  · intro h
    simp at h

/-! ## The body -/

/-- The first piece that a write sends joins cleanly; what follows it in a chunk always does. -/
def BodyClean (q : Message) (c : Chunk) (e : Option TextEncoding) : Prop :=
  q.hasBody = true → c.length ≠ 0 →
    if q.chunkedEncoding then
      match c with
      | .str s => SendClean q (.str (chunkText e s)) e
      | .buf b => SendClean q (.str (hex b.length ++ crlf)) none
    else SendClean q c e

theorem Twin.hasBody (h : Twin f d q) : d.hasBody = q.hasBody := by
  rw [h.eq]
  rfl

theorem Twin.chunkedEncoding (h : Twin f d q) : d.chunkedEncoding = q.chunkedEncoding := by
  rw [h.eq]
  rfl

theorem Twin.writeBody (h : Twin f d q) (hj : BodyClean q c e) :
    Both f (Message.writeBody c e) d q (SameFace q) := by
  cases hb : q.hasBody with
  | false =>
    exact ⟨true, true, d, q, writeBody_bodiless (h.hasBody.trans hb), writeBody_bodiless hb, h,
      SameFace.refl q⟩
  | true =>
    have hb' := h.hasBody.trans hb
    by_cases hl : c.length = 0
    · exact ⟨false, false, d, q, writeBody_empty hb' hl, writeBody_empty hb hl, h, SameFace.refl q⟩
    · replace hj := hj hb hl
      cases hc : q.chunkedEncoding with
      | false =>
        have hc' := h.chunkedEncoding.trans hc
        rw [hc] at hj
        obtain ⟨r, r', d', q', hd, hq, ht, hf, -⟩ := h.send hj
        exact ⟨r, r', d', q', (writeBody_plain hb' hl hc').trans hd,
          (writeBody_plain hb hl hc).trans hq, ht, hf⟩
      | true =>
        have hc' := h.chunkedEncoding.trans hc
        rw [hc] at hj
        cases c with
        | str s =>
          have hs : s ≠ [] := by simpa [Chunk.length] using hl
          obtain ⟨r, r', d', q', hd, hq, ht, hf, -⟩ := h.send hj
          exact ⟨r, r', d', q', (writeBody_str hb' hs hc').trans hd,
            (writeBody_str hb hs hc).trans hq, ht, hf⟩
        | buf b =>
          have hs : b ≠ [] := by simpa [Chunk.length] using hl
          -- three calls of `send`: the size, the bytes, and the end of the line
          obtain ⟨_, _, d₁, q₁, hd₁, hq₁, ht₁, hf₁, hs₁⟩ := h.send hj
          have hj₂ : SendClean q₁ (.buf b) none := by
            unfold SendClean
            rw [hs₁]
            trivial
          obtain ⟨_, _, d₂, q₂, hd₂, hq₂, ht₂, hf₂, hs₂⟩ := ht₁.send hj₂
          have hj₃ : SendClean q₂ (.str crlf) none := by
            unfold SendClean
            rw [hs₂]
            exact joinsCleanly_of_isAscii isAscii_crlf _
          obtain ⟨r, r', d₃, q₃, hd₃, hq₃, ht₃, hf₃, -⟩ := ht₂.send hj₃
          refine ⟨r, r', d₃, q₃, ?_, ?_, ht₃, (hf₁.trans hf₂).trans hf₃⟩
          · rw [writeBody_buf hb' hs hc']
            simp only [Op.bind_apply, hd₁, hd₂, hd₃]
          · rw [writeBody_buf hb hs hc]
            simp only [Op.bind_apply, hq₁, hq₂, hq₃]

/-! ## The header block -/

/-- If the header block is sent on its own, it joins cleanly. -/
def StoreClean (q : Message) (firstLine : JSString) (lines : List (JSString × JSString)) : Prop :=
  (q.draft firstLine lines).sentExpect = true →
    SendClean (q.withDraft (q.draft firstLine lines)) (.str []) none

theorem Twin.storeHeader (h : Twin f d q) {firstLine : JSString}
    {lines : List (JSString × JSString)} (hj : StoreClean q firstLine lines) :
    Both f (Message.storeHeader firstLine lines) d q
      (SameFace (q.withDraft (q.draft firstLine lines))) := by
  have hdraft : d.draft firstLine lines = q.draft firstLine lines := by
    rw [h.eq]
    rfl
  have ht :
      Twin f (d.withDraft (q.draft firstLine lines)) (q.withDraft (q.draft firstLine lines)) :=
    h.map (fun m ↦ m.withDraft (q.draft firstLine lines)) (fun _ _ ↦ rfl) rfl rfl rfl rfl
  simp only [Both, Message.storeHeader, Op.bind_apply, Op.get_apply, Op.set_apply, hdraft]
  cases hs : (q.draft firstLine lines).sentExpect with
  | false => exact ⟨_, _, _, _, rfl, rfl, ht, SameFace.refl _⟩
  | true =>
    obtain ⟨r, r', d', q', hd, hq, ht', hf, -⟩ := ht.send (hj hs)
    refine ⟨⟨⟩, ⟨⟩, d', q', ?_, ?_, ht', hf⟩
    · simp only [if_true, Op.bind_apply, hd, Op.pure_apply]
    · simp only [if_true, Op.bind_apply, hq, Op.pure_apply]

def HeadClean (inherited : JSString → Option JSString) (q : Message) (statusCode : ℕ)
    (reasonPhrase : Option JSString) (obj : Option HeaderSet) : Prop :=
  q.header = none ∨ q.headers = none →
    StoreClean (q.withStatus statusCode) (statusLine statusCode reasonPhrase)
      (headerLines (headFields inherited q obj))

theorem Twin.withStatus (h : Twin f d q) (code : ℕ) :
    Twin f (d.withStatus code) (q.withStatus code) :=
  h.map (fun m ↦ m.withStatus code) (fun _ _ ↦ rfl) rfl rfl rfl rfl

theorem Twin.header (h : Twin f d q) : d.header = q.header := by
  rw [h.eq]
  rfl

theorem Twin.headers (h : Twin f d q) : d.headers = q.headers := by
  rw [h.eq]
  rfl

theorem Twin.headFields (h : Twin f d q) (inherited : JSString → Option JSString)
    (obj : Option HeaderSet) : headFields inherited d obj = headFields inherited q obj := by
  rw [h.eq]
  rfl

/-- `writeHead` either renders the header block of both or throws for both. -/
theorem Twin.writeHead (h : Twin f d q) {inherited : JSString → Option JSString} {statusCode : ℕ}
    {reasonPhrase : Option JSString} {obj : Option HeaderSet}
    (hj : HeadClean inherited q statusCode reasonPhrase obj) :
    Twin f (after (Message.writeHead inherited statusCode reasonPhrase obj d))
      (after (Message.writeHead inherited statusCode reasonPhrase obj q)) := by
  by_cases hn : q.header = none ∨ q.headers = none
  · have hn' : d.header = none ∨ d.headers = none := by rwa [h.header, h.headers]
    obtain ⟨r, r', d', q', hd, hq, ht, -⟩ := (h.withStatus statusCode).storeHeader (hj hn)
    rw [writeHead_apply_of_or hn', writeHead_apply_of_or hn, h.headFields, hd, hq]
    exact ht
  · rw [not_or] at hn
    have h₁ := Option.isSome_iff_ne_none.mpr hn.1
    have h₂ := Option.isSome_iff_ne_none.mpr hn.2
    rw [writeHead_throws (by rwa [h.header]) (by rwa [h.headers]), writeHead_throws h₁ h₂]
    exact h

/-- The header block of a response is there, or can be rendered. -/
def EnsureClean (q : Message) : Prop :=
  q.header = none → HeadClean (fun _ ↦ none) q q.statusCode none none

theorem Twin.ensured (h : Twin f d q) (hj : EnsureClean q) :
    Twin f d.ensured q.ensured := by
  cases hh : q.header with
  | some b =>
    have hs : q.header.isSome = true := by rw [hh]; rfl
    rw [ensured_of_isSome hs, ensured_of_isSome (by rwa [h.header])]
    exact h
  | none =>
    have hd : d.header = none := h.header.trans hh
    have hr' : d.role = .response := by rw [h.eq]; exact h.role
    have hcode : d.statusCode = q.statusCode := by rw [h.eq]; rfl
    have key : ∀ m : Message, m.header = none → m.role = .response →
        m.ensured = after (Message.writeHead (fun _ ↦ none) m.statusCode none none m) := by
      intro m hm hr
      simp only [Message.ensured, ensureHeader, implicitHeader, Op.bind_apply, Op.get_apply, hm,
        Option.isNone_none, if_true, hr]
    rw [key d hd hr', key q hh h.role, hcode]
    exact h.writeHead (hj hh)

/-! ## Calls -/

/-- `write` on both. -/
theorem Twin.write (h : Twin f d q) (he : EnsureClean q) (hb : BodyClean q.ensured c e) :
    Both f (Message.write c e) d q (SameFace q.ensured) := by
  obtain ⟨r, r', d', q', hd, hq, ht, hf⟩ := (h.ensured he).writeBody hb
  refine ⟨r, r', d', q', ?_, ?_, ht, hf⟩
  · simp only [Message.write, Op.bind_apply, (ensureHeader_apply d).1, hd]
  · simp only [Message.write, Op.bind_apply, (ensureHeader_apply q).1, hq]

end Message

/-- A call on a response before `end`. -/
inductive ResponseCall where
  | writeContinue
  | writeHead (statusCode : ℕ) (reasonPhrase : Option JSString) (headers : Option HeaderSet)
  | write (chunk : Chunk) (encoding : Option TextEncoding)

section

variable (inherited : JSString → Option JSString)

def ResponseCall.run : ResponseCall → Op Unit
  | .writeContinue => Message.writeContinue
  | .writeHead statusCode reasonPhrase headers =>
    Message.writeHead inherited statusCode reasonPhrase headers
  | .write c e => do let _ ← Message.write c e

/-- The state that calls leave; one that throws does not keep the handler from going on. -/
def Message.play (m : Message) (calls : List ResponseCall) : Message :=
  calls.foldl (fun m c ↦ Message.after (c.run inherited m)) m

/-- The pieces of a call join cleanly. -/
def Message.CallClean (q : Message) : ResponseCall → Prop
  | .writeContinue =>
    Message.JoinsCleanly q.output (.str (js "HTTP/1.1 100 Continue" ++ crlf ++ crlf)) (some .ascii)
  | .writeHead statusCode reasonPhrase headers =>
    Message.HeadClean inherited q statusCode reasonPhrase headers
  | .write c e => Message.EnsureClean q ∧ Message.BodyClean q.ensured c e

def Message.CallsClean (q : Message) : List ResponseCall → Prop
  | [] => True
  | c :: calls =>
    q.CallClean inherited c ∧ Message.CallsClean (Message.after (c.run inherited q)) calls

end

namespace Message

variable {m q d : Message} {e : Option TextEncoding} {f : Bool}
variable {inherited : JSString → Option JSString}

/-- **One call** keeps twins twins. -/
theorem Twin.call (h : Twin f d q) {c : ResponseCall} (hc : q.CallClean inherited c) :
    Twin f (after (c.run inherited d)) (after (c.run inherited q)) := by
  cases c with
  | writeContinue =>
    obtain ⟨r, r', d', q', hd, hq, ht, -⟩ := h.writeRaw hc
    simp only [ResponseCall.run, writeContinue, Op.bind_apply, hd, hq, Op.modify_apply, after_ok]
    exact ht.map (fun m ↦ { m with sent100 := true }) (fun _ _ ↦ rfl) rfl rfl rfl rfl
  | writeHead statusCode reasonPhrase headers => exact h.writeHead hc
  | write c e =>
    obtain ⟨r, r', d', q', hd, hq, ht, -⟩ := h.write hc.1 hc.2
    simp only [ResponseCall.run, Op.bind_apply, hd, hq, Op.pure_apply, after_ok]
    exact ht

/-- **All calls** keep twins twins. -/
theorem Twin.play (h : Twin f d q) {calls : List ResponseCall} (hc : q.CallsClean inherited calls) :
    Twin f (d.play inherited calls) (q.play inherited calls) := by
  induction calls generalizing d q with
  | nil => exact h
  | cons c calls ih => exact ih (h.call hc.1) hc.2

/-! ## Ending -/

theorem carried_endFinish (m : Message) : (after (endFinish m)).carried = m.carried := by
  by_cases ho : m.output = []
  · rcases hc : m.connection with _ | l
    · rw [endFinish_detached hc ho]
      rfl
    · cases hown : l.owned with
      | true =>
        rw [endFinish_owned hc hown ho]
        rfl
      | false =>
        simp [endFinish, ho, hc, hown, carried]
  · rw [endFinish_kept ho]
    rfl

/-- What the slow path of `end` sends or keeps. -/
theorem carried_end {data : Option Chunk} {m' m'' : Message} {r : Bool}
    (hh : m.header.isSome = true) (hot : m.hot data = none)
    (hw : writeData data e m = .ok ⟨⟩ m') (hs : sendLast m' = .ok r m'') :
    (after («end» data e m)).carried = m''.carried := by
  have hf := carried_endFinish m''
  simp only [«end», Op.bind_apply, ensureHeader_of_isSome hh, Op.get_apply, hot, hw, hs]
  cases he : endFinish m'' with
  | ok u m₃ =>
    rw [he] at hf
    exact hf
  | error err m₃ =>
    rw [he] at hf
    exact hf

/-- The shortcut that the direct twin takes is harmless, the data joins cleanly, and so does the
last chunk behind it. -/
def EndClean (q : Message) (data : Option Chunk) (e : Option TextEncoding) : Prop :=
  EnsureClean q ∧
  (∀ s, data = some (.str s) → s ≠ [] → q.ensured.headerSent = false →
    if q.ensured.hasBody then
      q.ensured.chunkedEncoding = true →
        encodeText e q.ensured.trailer = encodeText none q.ensured.trailer
    else q.ensured.chunkedEncoding = false ∧ encodeText e s = []) ∧
  (∀ c, data = some c → BodyClean q.ensured c e) ∧
  SendClean (after (writeData data e q.ensured))
    (.str (after (writeData data e q.ensured)).lastText) none

theorem Twin.writeData (h : Twin f d q) (hh : q.header.isSome = true) {data : Option Chunk}
    (hb : ∀ c, data = some c → BodyClean q c e) :
    Both f (Message.writeData data e) d q (SameFace q) := by
  have hh' : d.header.isSome = true := by rwa [h.header]
  have hw : ∀ c, data = some c →
      Both f (do let _ ← Message.write c e : Op Unit) d q (SameFace q) := by
    intro c hc
    obtain ⟨r, r', d', q', hd, hq, ht, hf⟩ := h.writeBody (hb c hc)
    refine ⟨⟨⟩, ⟨⟩, d', q', ?_, ?_, ht, hf⟩
    · simp only [Op.bind_apply, write_apply hh', hd, Op.pure_apply]
    · simp only [Op.bind_apply, write_apply hh, hq, Op.pure_apply]
  rcases data with _ | (_ | ⟨u, s⟩) | b
  · exact ⟨⟨⟩, ⟨⟩, d, q, rfl, rfl, h, SameFace.refl q⟩
  · exact ⟨⟨⟩, ⟨⟩, d, q, rfl, rfl, h, SameFace.refl q⟩
  · exact hw _ rfl
  · exact hw _ rfl

theorem Twin.carried (h : Twin f d q) : d.carried = q.carried := by
  simp [Message.carried, h.output, h.wire, h.bytes]

theorem outcome_sent {α : Type} (r : EStateM.Result JsError Message α) :
    (outcome r).sent = (after r).carried := by
  cases r <;> rfl

/-- **`end`** sends the same bytes for both. -/
theorem Twin.end (h : Twin f d q) {data : Option Chunk} (hc : EndClean q data e) :
    (after («end» data e d)).carried = (after («end» data e q)).carried ∧
      (after («end» data e d)).output = [] := by
  obtain ⟨hens, hshort, hbody, hlast⟩ := hc
  have ht := h.ensured hens
  have hh := (ensureHeader_apply q).2
  rw [end_apply d, end_apply q]
  generalize q.ensured = q₁ at *
  generalize d.ensured = d₁ at *
  have hh' : d₁.header.isSome = true := by rwa [ht.header]
  obtain ⟨⟨⟩, ⟨⟩, d₂, q₂, hd₂, hq₂, ht₂, hf₂⟩ := ht.writeData hh hbody
  rw [hq₂, after_ok] at hlast
  have hltext : d₂.lastText = q₂.lastText := by rw [ht₂.eq]; rfl
  obtain ⟨r, r', d₃, q₃, hd₃, hq₃, ht₃, -⟩ := ht₂.send hlast
  rw [← sendLast_eq] at hq₃
  rw [← hltext, ← sendLast_eq] at hd₃
  have hq := carried_end hh (hot_eq_none_of_not_attached data ht.queued) hq₂ hq₃
  rw [hq]
  -- the queued message is not attached, so that only the other one can take the shortcut
  cases hhot : d₁.hot data with
  | none =>
    obtain ⟨r'', hr⟩ := end_cold hh' hhot hd₂ ht₂.attached
    exact ⟨(carried_end hh' hhot hd₂ hd₃).trans ht₃.carried, by rw [hr]; rfl⟩
  | some s =>
    obtain ⟨rfl, hsent, hne, -⟩ := hot_eq_some hhot
    have hl : (Chunk.str s).length ≠ 0 := by simpa [Chunk.length] using hne
    have htrailer : d₁.trailer = q₁.trailer := by rw [ht.eq]; rfl
    have hharm : ShortcutHarmless d₁.ensured (.str s) e := by
      rw [ensured_of_isSome hh', ShortcutHarmless, hhot]
      simp only [ht.hasBody, ht.chunkedEncoding, htrailer]
      exact hshort s rfl hne (ht.headerSent ▸ hsent)
    have hout := congrArg Outcome.sent (outcome_end_of_harmless hl hharm)
    rw [outcome_sent, outcome_sent] at hout
    obtain ⟨r₁, hw⟩ : ∃ r₁, Message.write (.str s) e d₁ = .ok r₁ d₂ := by
      rw [writeData_eq hl, Op.bind_apply] at hd₂
      cases hw : Message.write (.str s) e d₁ with
      | ok r₁ d' =>
        rw [hw] at hd₂
        cases hd₂
        exact ⟨r₁, rfl⟩
      | error err d' =>
        rw [hw] at hd₂
        cases hd₂
    have hh₂ : d₂.header.isSome = true := by
      rw [ht₂.header, hf₂.eq]
      exact hh
    -- the way round the shortcut: `write` and then `end` without data
    have hslow := @carried_end d₂ none none _ _ _ hh₂ rfl rfl hd₃
    obtain ⟨r'', hr⟩ := end_hot (e := e) hh' hhot
    refine ⟨?_, by rw [hr]; rfl⟩
    rw [hout]
    simp only [Op.bind_apply, hw]
    exact hslow.trans ht₃.carried

/-! ## Both ways -/

/-- When its turn comes, a response sends what it has kept. -/
theorem wire_assignSocket (f : Bool) (m : Message) :
    entriesBytes (after (assignSocket true f m)).wire = m.carried := by
  have hflush := flush_apply (m := { m with connection := some ⟨true, true, f⟩ }) rfl rfl
  have hfin := finish_apply (m := flushed { m with connection := some ⟨true, true, f⟩ }) rfl
  simp only [assignSocket, Op.bind_apply, Op.modify_apply]
  rw [hflush, hfin]
  split_ifs <;> rfl

/-- **Queued output is direct output.** A response that has sent nothing goes through any calls and
`end`, once with its socket and once waiting for it. If all pieces join cleanly, the socket gets the
same bytes. -/
theorem queued_eq_direct (inherited : JSString → Option JSString) (m : Message)
    (hr : m.role = .response) (hc : m.connection = none) (hw : m.wire = []) (ho : m.output = [])
    (f : Bool) (calls : List ResponseCall) (data : Option Chunk) (e : Option TextEncoding)
    (hcalls : m.CallsClean inherited calls) (hend : EndClean (m.play inherited calls) data e) :
    entriesBytes (after («end» data e ((m.direct [] f).play inherited calls))).wire =
      entriesBytes (after (assignSocket true f
        (after («end» data e (m.play inherited calls))))).wire := by
  have h : Twin f (m.direct [] f) m := ⟨rfl, hc, hw, by rw [ho]; rfl, hr⟩
  obtain ⟨hcarried, hout⟩ := (h.play hcalls).end hend
  rw [wire_assignSocket, ← hcarried, carried, hout, List.append_nil]

/-- A response to a request of version 1.0 writes a text and ends. -/
theorem queued_eq_direct_hi :
    entriesBytes (after («end» none none
        (((serverResponse false 1 0).direct [] true).play (fun _ ↦ none)
          [.write (.str (js "hi")) none]))).wire =
      entriesBytes (after (assignSocket true true (after («end» none none
        ((serverResponse false 1 0).play (fun _ ↦ none)
          [.write (.str (js "hi")) none]))))).wire :=
  queued_eq_direct (fun _ ↦ none) (serverResponse false 1 0) rfl rfl rfl rfl true
    [.write (.str (js "hi")) none] none none
    ⟨⟨fun _ _ h ↦ absurd h (by decide), fun _ _ ↦ trivial⟩, trivial⟩
    ⟨fun h ↦ absurd h (by decide), fun _ h ↦ absurd h (by simp), fun _ h ↦ absurd h (by simp),
      fun _ ↦ ⟨fun _ ↦ splits_nil_right _, rfl⟩⟩

/-- Queued behind another response, a `100 Continue` and a text that is not ASCII go out in one
string, in the encoding of the former. -/
theorem continue_changes_encoding :
    entriesBytes (after («end» none none
        (((serverResponse false 1 0).direct [] true).play (fun _ ↦ none)
          [.writeContinue, .write (.str [0xE9]) none]))).wire ≠
      entriesBytes (after (assignSocket true true (after («end» none none
        ((serverResponse false 1 0).play (fun _ ↦ none)
          [.writeContinue, .write (.str [0xE9]) none]))))).wire := by
  decide

end Message

end SpiderNode.Http
