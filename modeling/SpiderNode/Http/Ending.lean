import SpiderNode.Http.Sending

/-!
# Ending with data

`end(data)` is meant to be `write(data)` followed by `end()`. For a message that has sent nothing
yet and owns its socket it takes a shortcut, the hot path: the header block, the data and the last
chunk go out in one string. The shortcut does not ask whether the message may have a body, and the
trailer goes out in the encoding of the data.

`end_eq_write_end_iff` says exactly when that makes no difference.
-/

namespace SpiderNode.Http.Message

open Net (JsError)

variable {m : Message} {c : Chunk} {e : Option TextEncoding} {s : JSString}

/-! ## Without the shortcut -/

/-- Data that is not empty is written. -/
theorem writeData_eq (h : c.length ≠ 0) (e : Option TextEncoding) :
    writeData (some c) e = (do let _ ← write c e) := by
  rcases c with _ | b
  · rename_i s
    cases s with
    | nil => exact absurd rfl h
    | cons u s => rfl
  · rfl

theorem write_apply (hh : m.header.isSome = true) (c : Chunk) (e : Option TextEncoding) :
    write c e m = writeBody c e m := by
  simp only [write, Op.bind_apply, ensureHeader_of_isSome hh]

theorem end_apply (m : Message) (data : Option Chunk) (e : Option TextEncoding) :
    «end» data e m = «end» data e m.ensured := by
  obtain ⟨he, hs⟩ := ensureHeader_apply m
  simp only [«end», Op.bind_apply, he, ensureHeader_of_isSome hs]

/-- **The slow path** is a write and an end. -/
theorem end_eq_of_not_hot (hl : c.length ≠ 0) (h : m.ensured.hot (some c) = none) :
    «end» (some c) e m = (do let _ ← write c e; «end» none none) m := by
  obtain ⟨he, hs⟩ := ensureHeader_apply m
  have hw : write c e m = writeBody c e m.ensured := by
    simp only [write, Op.bind_apply, he]
  have hface := writeBody_sameFace c e m.ensured
  simp only [«end», Op.bind_apply, he, Op.get_apply, h, writeData_eq hl, write_apply hs, hw]
  cases hb : writeBody c e m.ensured with
  | error err m' => rfl
  | ok b m' =>
    rw [hb, after_ok] at hface
    have hs' : m'.header.isSome = true := by
      rw [hface.eq]
      exact hs
    simp only [Op.pure_apply, ensureHeader_of_isSome hs', hot, writeData, Op.bind_apply]

/-! ## The shortcut -/

/-- The message once it is finished. -/
def ended (m : Message) : Message :=
  { m with
    finished := true
    finishes := m.finishes + 1
    connection := if m.role = Role.response then none else m.connection }

theorem endFinish_owned {l : Link} (hc : m.connection = some l) (hown : l.owned = true)
    (ho : m.output = []) : endFinish m = .ok ⟨⟩ m.ended := by
  simp [endFinish, ho, hc, hown, finish, ended]

theorem endFinish_detached (hc : m.connection = none) (ho : m.output = []) :
    endFinish m = .error .typeError { m with finished := true } := by
  simp [endFinish, ho, hc]

theorem endFinish_kept (ho : m.output ≠ []) :
    endFinish m = .ok ⟨⟩ { m with finished := true } := by
  simp [endFinish, ho]

theorem endFinish_attached (h : m.attached = true) (ho : m.output = []) :
    endFinish m = .ok ⟨⟩ m.ended := by
  obtain ⟨f, hc⟩ := attached_iff.mp h
  exact endFinish_owned hc rfl ho

/-- The last chunk, if there are chunks. -/
def lastText (m : Message) : JSString := if m.chunkedEncoding then m.lastChunk else []

theorem sendLast_eq (m : Message) : sendLast m = send (.str m.lastText) none m := by
  simp only [sendLast, Op.bind_apply, Op.get_apply, lastText]
  split_ifs <;> rfl

theorem sendLast_attached (h : m.attached = true) :
    ∃ r, sendLast m = .ok r (m.passed m.lastText none) := by
  rw [sendLast_eq]
  exact send_str_attached h _ _

/-- What the hot path appends to the header block. -/
def hotText (m : Message) (e : Option TextEncoding) (s : JSString) : JSString :=
  if m.chunkedEncoding then chunkText e s ++ m.lastChunk else s

theorem hot_eq_some {data : Option Chunk} (h : m.hot data = some s) :
    data = some (.str s) ∧ m.headerSent = false ∧ s ≠ [] ∧ m.output = [] ∧ m.attached = true := by
  rcases data with _ | t | b
  · simp [hot] at h
  · simp only [hot] at h
    split_ifs at h with hc
    obtain ⟨hs, hl, ho, ha⟩ := hc
    obtain rfl : t = s := by simpa using h
    exact ⟨rfl, hs, List.ne_nil_of_length_pos hl, ho, ha⟩
  · simp [hot] at h

theorem hot_eq_none_of_not_attached (data : Option Chunk) (ha : m.attached = false) :
    m.hot data = none := by
  cases hd : m.hot data with
  | none => rfl
  | some s =>
    obtain ⟨-, -, -, -, ha'⟩ := hot_eq_some hd
    rw [ha] at ha'
    cases ha'

/-- **The hot path** sends one string. -/
theorem end_hot (hh : m.header.isSome = true) (h : m.hot (some (.str s)) = some s) :
    ∃ r, «end» (some (.str s)) e m = .ok r (m.passed (m.hotText e s) e).ended := by
  obtain ⟨-, hs, -, ho, ha⟩ := hot_eq_some h
  obtain ⟨f, hc⟩ := attached_iff.mp ha
  have hp : m.passed (m.hotText e s) e =
      { m with
        wire := m.wire ++ [(.str (m.headerText ++ if m.chunkedEncoding then
          chunkText e s ++ m.lastChunk else s), e)]
        headerSent := true } := by
    simp [passed, unsent, hs, ho, hotText]
  have hf := endFinish_attached (m := m.passed (m.hotText e s) e) ha rfl
  refine ⟨f, ?_⟩
  simp only [«end», Op.bind_apply, ensureHeader_of_isSome hh, Op.get_apply, h, sendHot,
    socketWrite_apply hc, Op.modify_apply, Op.pure_apply]
  rw [← hp, hf]

/-- `end` on a message that owns its socket, where the shortcut is not taken. -/
theorem end_cold {data : Option Chunk} {m' : Message} (hh : m.header.isSome = true)
    (hot : m.hot data = none) (hd : writeData data e m = .ok ⟨⟩ m') (ha : m'.attached = true) :
    ∃ r, «end» data e m = .ok r (m'.passed m'.lastText none).ended := by
  obtain ⟨r, hr⟩ := sendLast_attached ha
  have hf := endFinish_attached (m := m'.passed m'.lastText none) ha rfl
  refine ⟨r, ?_⟩
  simp only [«end», Op.bind_apply, ensureHeader_of_isSome hh, Op.get_apply, hot, hd, Op.pure_apply,
    hr, hf]

/-- `end()` on a message that owns its socket. -/
theorem end_none_attached (hh : m.header.isSome = true) (ha : m.attached = true) :
    ∃ r, «end» none none m = .ok r (m.passed m.lastText none).ended :=
  end_cold hh rfl rfl ha

/-- What a write appends to the header block, if there is a body. -/
def bodyText (m : Message) (e : Option TextEncoding) (s : JSString) : JSString :=
  if m.chunkedEncoding then chunkText e s else s

theorem writeBody_attached (ha : m.attached = true) (hs : s ≠ []) (hb : m.hasBody = true) :
    ∃ r, writeBody (.str s) e m = .ok r (m.passed (m.bodyText e s) e) := by
  rw [bodyText]
  cases hc : m.chunkedEncoding with
  | true =>
    rw [writeBody_str hb hs hc]
    exact send_str_attached ha _ _
  | false =>
    rw [writeBody_plain hb (by simpa [Chunk.length] using hs) hc]
    exact send_str_attached ha _ _

/-! ## The bytes -/

theorem headerText_eq (hh : m.header.isSome = true) :
    ∃ t, m.headerText = t ++ [0x0D] ++ [0x0A] := by
  obtain ⟨b, hb⟩ := Option.isSome_iff_exists.mp hh
  exact ⟨b.messageHeader, by simp [headerText, hb, HeaderBlock.text, crlf]⟩

theorem encodeText_headerText (hh : m.header.isSome = true) (e : Option TextEncoding)
    (x : JSString) :
    encodeText e (m.headerText ++ x) = encodeText e m.headerText ++ encodeText e x := by
  obtain ⟨t, ht⟩ := headerText_eq hh
  rw [ht]
  exact encodeText_append_of_splits (splits_of_getLast_lt (by decide) _ _)

theorem encodeText_lastChunk (m : Message) (e : Option TextEncoding) :
    encodeText e m.lastChunk =
      latin1Bytes (js "0" ++ crlf) ++ encodeText e m.trailer ++ latin1Bytes crlf := by
  rw [lastChunk, encodeText_append_ascii isAscii_crlf, encodeText_ascii_append (by decide)]

theorem hotText_eq (m : Message) (e : Option TextEncoding) (s : JSString) :
    encodeText e (m.hotText e s) =
      encodeText e (m.bodyText e s) ++ encodeText e m.lastText := by
  rw [hotText, bodyText, lastText]
  cases m.chunkedEncoding with
  | false => simp
  | true =>
    have hc := encodeText_chunkText e e s []
    rw [List.append_nil, encodeText_nil, List.append_nil] at hc
    simp only [if_true]
    rw [encodeText_chunkText, hc]

/-- The trailer has the same bytes under both encodings. -/
theorem encodeText_lastText_iff (m : Message) (e : Option TextEncoding) :
    encodeText e m.lastText = encodeText none m.lastText ↔
      (m.chunkedEncoding = true → encodeText e m.trailer = encodeText none m.trailer) := by
  rw [lastText]
  cases m.chunkedEncoding with
  | false => simp
  | true => simp [encodeText_lastChunk]

/-- A chunk is never lost in front of the last one. -/
theorem encodeText_hotText_ne (hs : s ≠ []) (hc : m.chunkedEncoding = true) :
    encodeText e (m.hotText e s) ≠ encodeText none m.lastText := by
  intro h
  have hz : (latin1Bytes (js "0" ++ crlf) : Bytes) = [0x30, 0x0D, 0x0A] := by decide
  have hcr : (latin1Bytes crlf : Bytes) = [0x0D, 0x0A] := by decide
  rw [hotText, if_pos hc, encodeText_chunkText, lastText, if_pos hc, encodeText_lastChunk,
    encodeText_lastChunk, hz, hcr] at h
  rcases eq_or_ne (encodeText e s) [] with he | he
  · -- Only characters without bytes: UTF-8, and the two sides differ in length.
    have hn := encodeText_of_isUtf8 (isUtf8_of_encodeText_eq_nil hs he) m.trailer
    have hl := congrArg List.length h
    rw [he, hn] at hl
    simp [latin1Bytes] at hl
    omega
  · have hne : byteLength e s ≠ 0 := by
      rw [byteLength]
      simpa using he
    -- a size that is not zero does not begin with the digit of the last chunk
    have hh := congrArg List.head? h
    obtain ⟨u, t, ht⟩ := List.exists_cons_of_ne_nil (l := hex (byteLength e s)) (by
      rw [hex, if_neg hne]
      simpa [Nat.digits_ne_nil_iff_ne_zero] using hne)
    have hu := head?_hex hne
    have hlt := isAscii_hex (byteLength e s) u (by simp [ht])
    rw [ht] at hh hu
    simp only [latin1Bytes, List.map_append, List.map_cons, List.cons_append, List.head?_cons,
      Option.some.injEq] at hh hu
    have h8 : u.toUInt8.toNat = 0x30 := by rw [hh]; rfl
    rw [UInt16.toNat_toUInt8] at h8
    refine hu (congrArg some (UInt16.toNat_inj.mp ?_))
    show u.toNat = 0x30
    omega

/-! ## Both ways -/

/-- What a caller and the other side of the connection can tell about a call. -/
structure Outcome where
  thrown : Option JsError
  sent : Bytes
  finished : Bool
  headerSent : Bool

def outcome {α : Type} : EStateM.Result JsError Message α → Outcome
  | .ok _ m => ⟨none, m.carried, m.finished, m.headerSent⟩
  | .error err m => ⟨some err, m.carried, m.finished, m.headerSent⟩

/-- The shortcut makes no difference: it is not taken; or there is a body, and the trailer of a
chunked one has the bytes it would have on its own; or there is none, and no byte is sent for it. -/
def ShortcutHarmless (m : Message) (c : Chunk) (e : Option TextEncoding) : Prop :=
  match m.hot (some c) with
  | none => True
  | some s =>
    if m.hasBody then m.chunkedEncoding = true → encodeText e m.trailer = encodeText none m.trailer
    else m.chunkedEncoding = false ∧ encodeText e s = []

/-- The bytes that `end(data)` and `write(data); end()` send, where the shortcut is taken. -/
theorem outcome_hot_iff (hh : m.header.isSome = true) (h : m.hot (some (.str s)) = some s) :
    outcome («end» (some (.str s)) e m) =
        outcome ((do let _ ← write (.str s) e; «end» none none : Op Bool) m) ↔
      encodeText e m.headerText ++ encodeText e (m.hotText e s) =
        if m.hasBody then
          encodeText e m.headerText ++ encodeText e (m.bodyText e s) ++ encodeText none m.lastText
        else encodeText none m.headerText ++ encodeText none m.lastText := by
  obtain ⟨-, hs, hne, -, ha⟩ := hot_eq_some h
  have hu : m.unsent = m.headerText := by simp [unsent, hs]
  obtain ⟨r, hr⟩ := end_hot (e := e) hh h
  have hcar : ∀ m' : Message, m'.ended.carried = m'.carried := fun _ ↦ rfl
  rw [hr, Op.bind_apply, write_apply hh]
  -- without a body, `write` returns before the header has been sent
  cases hb : m.hasBody with
  | true =>
    obtain ⟨r', hr'⟩ := writeBody_attached (e := e) ha hne hb
    obtain ⟨r'', hr''⟩ := end_none_attached (m := m.passed (m.bodyText e s) e) hh ha
    rw [hr']
    have hu' : (m.passed (m.bodyText e s) e).unsent = [] := rfl
    have hl : (m.passed (m.bodyText e s) e).lastText = m.lastText := rfl
    simp only [hr'', outcome, hcar, carried_passed, hu, hu', hl, encodeText_headerText hh]
    simp [ended, passed]
  | false =>
    obtain ⟨r', hr'⟩ := end_none_attached hh ha
    simp only [writeBody_bodiless hb, hr', outcome, hcar, carried_passed, hu,
      encodeText_headerText hh]
    simp [ended, passed]

theorem write_end_apply (m : Message) (c : Chunk) (e : Option TextEncoding) :
    (do let _ ← write c e; «end» none none : Op Bool) m =
      (do let _ ← write c e; «end» none none : Op Bool) m.ensured := by
  obtain ⟨he, hs⟩ := ensureHeader_apply m
  simp only [write, Op.bind_apply, he, ensureHeader_of_isSome hs]

/-- If the shortcut is harmless, it does what the slow path does. -/
theorem outcome_end_of_harmless (hl : c.length ≠ 0) (h : ShortcutHarmless m.ensured c e) :
    outcome («end» (some c) e m) =
      outcome ((do let _ ← write c e; «end» none none : Op Bool) m) := by
  cases hot : m.ensured.hot (some c) with
  | none => rw [end_eq_of_not_hot hl hot]
  | some s =>
    have hh := (ensureHeader_apply m).2
    obtain ⟨hc, -, hne, -⟩ := hot_eq_some hot
    obtain rfl : c = .str s := by simpa using hc
    rw [end_apply, write_end_apply, outcome_hot_iff hh hot]
    rw [ShortcutHarmless, hot] at h
    generalize m.ensured = m at *
    cases hb : m.hasBody with
    | true =>
      simp only [hb, if_true] at h ⊢
      rw [hotText_eq, (encodeText_lastText_iff m e).mpr h, List.append_assoc]
    | false =>
      simp only [hb, Bool.false_eq_true, if_false] at h ⊢
      obtain ⟨hchunk, hs⟩ := h
      rw [hotText, lastText, hchunk]
      simp only [Bool.false_eq_true, if_false]
      rw [hs, encodeText_of_isUtf8 (isUtf8_of_encodeText_eq_nil hne hs), encodeText_nil]

/-- If it does, it is harmless, whenever the header block is a text that has bytes. -/
theorem harmless_of_outcome_end (hw : WellFormed m.ensured.headerText = true)
    (h : outcome («end» (some c) e m) =
      outcome ((do let _ ← write c e; «end» none none : Op Bool) m)) :
    ShortcutHarmless m.ensured c e := by
  rw [ShortcutHarmless]
  cases hot : m.ensured.hot (some c) with
  | none => trivial
  | some s =>
    have hh := (ensureHeader_apply m).2
    obtain ⟨hc, -, hne, -⟩ := hot_eq_some hot
    obtain rfl : c = .str s := by simpa using hc
    rw [end_apply, write_end_apply, outcome_hot_iff hh hot] at h
    generalize m.ensured = m at *
    cases hb : m.hasBody with
    | true =>
      simp only [hb, if_true] at h ⊢
      rw [hotText_eq, List.append_assoc] at h
      exact (encodeText_lastText_iff m e).mp
        (List.append_cancel_left (List.append_cancel_left h))
    | false =>
      simp only [hb, Bool.false_eq_true, if_false] at h ⊢
      obtain ⟨t, ht⟩ := headerText_eq hh
      rw [ht] at hw h
      have hrest := append_cancel_encodeText (by decide) hw e h
      cases hchunk : m.chunkedEncoding with
      | true => exact absurd hrest (encodeText_hotText_ne hne hchunk)
      | false => exact ⟨rfl, by simpa [hotText, lastText, hchunk] using hrest⟩

/-- **Ending with data.** `end(data)` does what `write(data); end()` does if the shortcut is
harmless, and, whenever the header block is a text that has bytes, only then. -/
theorem end_eq_write_end_iff (m : Message) (c : Chunk) (hl : c.length ≠ 0)
    (e : Option TextEncoding) :
    (ShortcutHarmless m.ensured c e →
      outcome («end» (some c) e m) =
        outcome ((do let _ ← write c e; «end» none none : Op Bool) m)) ∧
    (WellFormed m.ensured.headerText = true →
      outcome («end» (some c) e m) =
        outcome ((do let _ ← write c e; «end» none none : Op Bool) m) →
      ShortcutHarmless m.ensured c e) :=
  ⟨outcome_end_of_harmless hl, harmless_of_outcome_end⟩

/-- A response that has its socket takes the shortcut, and may. -/
theorem end_eq_write_end_attached :
    (after (assignSocket true true (serverResponse false 1 1))).ensured.hot
        (some (.str (js "x"))) = some (js "x") ∧
      outcome («end» (some (.str (js "x"))) (some .utf8)
          (after (assignSocket true true (serverResponse false 1 1)))) =
        outcome ((do let _ ← write (.str (js "x")) (some .utf8); «end» none none : Op Bool)
          (after (assignSocket true true (serverResponse false 1 1)))) := by
  have hot : (after (assignSocket true true (serverResponse false 1 1))).ensured.hot
      (some (.str (js "x"))) = some (js "x") := by decide
  refine ⟨hot, (end_eq_write_end_iff (after (assignSocket true true (serverResponse false 1 1)))
    (.str (js "x")) (by decide) (some .utf8)).1 ?_⟩
  rw [ShortcutHarmless, hot]
  decide

/-- A response to a `HEAD` request sends the data it is ended with, and not what is written. -/
theorem end_head_ne_write_end :
    outcome («end» (some (.str (js "x"))) (some .utf8)
        (after (assignSocket true true (serverResponse true 1 1)))) ≠
      outcome ((do let _ ← write (.str (js "x")) (some .utf8); «end» none none : Op Bool)
        (after (assignSocket true true (serverResponse true 1 1)))) := by
  intro h
  exact absurd (congrArg Outcome.sent h) (by decide)

end SpiderNode.Http.Message
