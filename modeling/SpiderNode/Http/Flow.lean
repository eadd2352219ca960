import SpiderNode.Http.Ending

/-!
# What a call does to the socket

For the other responses on a connection it does not matter what a call sends, only where it goes. A
response that owns the socket passes everything on and keeps nothing; one that waits keeps
everything and leaves the socket alone. `Flows` says so for the calls before `end`, and
`end_attached` and `end_waiting` say what `end` does in the two places.
-/

namespace SpiderNode.Http

open Net (JsError)

namespace Message

variable {m m' m'' : Message} {c : Chunk} {e : Option TextEncoding}

/-! ## Calls before `end` -/

/-- A call leaves the place of a message alone. It writes to the socket only if the message owns it,
and then it keeps nothing. -/
structure Flows (m m' : Message) : Prop where
  role : m'.role = m.role
  connection : m'.connection = m.connection
  finishes : m'.finishes = m.finishes
  finished : m'.finished = m.finished
  wire : m.wire <+: m'.wire
  kept : m.attached = false → m'.wire = m.wire
  passed : m.attached = true → m.output = [] → m'.output = []

theorem Flows.refl (m : Message) : Flows m m :=
  ⟨rfl, rfl, rfl, rfl, List.prefix_refl _, fun _ ↦ rfl, fun _ h ↦ h⟩

theorem attached_congr (h : m'.connection = m.connection) : m'.attached = m.attached := by
  rw [attached, attached, h]

theorem Flows.trans (h : Flows m m') (h' : Flows m' m'') : Flows m m'' where
  role := h'.role.trans h.role
  connection := h'.connection.trans h.connection
  finishes := h'.finishes.trans h.finishes
  finished := h'.finished.trans h.finished
  wire := h.wire.trans h'.wire
  kept ha := (h'.kept (by rwa [attached_congr h.connection])).trans (h.kept ha)
  passed ha ho := h'.passed (by rwa [attached_congr h.connection]) (h.passed ha ho)

/-- A change of fields that have nothing to do with the socket. -/
theorem Flows.of_eq (hr : m'.role = m.role) (hc : m'.connection = m.connection)
    (hf : m'.finishes = m.finishes) (hd : m'.finished = m.finished) (hw : m'.wire = m.wire)
    (ho : m'.output = m.output) : Flows m m' :=
  ⟨hr, hc, hf, hd, by rw [hw], fun _ ↦ hw, fun _ h ↦ by rw [ho, h]⟩

/-- Two calls in a row. -/
theorem Flows.bind {α β : Type} {x : Op α} {g : α → Op β} (hx : Flows m (after (x m)))
    (hg : ∀ a m', Flows m' (after (g a m'))) : Flows m (after ((x >>= g) m)) := by
  rw [Op.bind_apply]
  cases hm : x m with
  | ok a m' =>
    rw [hm] at hx
    exact hx.trans (hg a m')
  | error err m' =>
    rw [hm] at hx
    exact hx

theorem writeRaw_flows (c : Chunk) (e : Option TextEncoding) (m : Message) :
    Flows m (after (writeRaw c e m)) ∧
      (m.attached = true → (after (writeRaw c e m)).output = []) := by
  cases ha : m.attached with
  | true =>
    obtain ⟨r, hr⟩ := writeRaw_attached (c := c) (e := e) ha
    rw [hr, after_ok]
    refine ⟨⟨rfl, rfl, rfl, rfl, ?_, by simp [ha], fun _ _ ↦ rfl⟩, fun _ ↦ rfl⟩
    rw [pushed, List.append_assoc]
    exact List.prefix_append _ _
  | false =>
    rw [writeRaw_kept ha]
    cases joinOutput m.output c e with
    | ok out => exact ⟨⟨rfl, rfl, rfl, rfl, List.prefix_refl _, fun _ ↦ rfl, by simp [ha]⟩, by simp⟩
    | error err => exact ⟨Flows.refl m, by simp⟩

theorem send_flows (c : Chunk) (e : Option TextEncoding) (m : Message) :
    Flows m (after (send c e m)) := by
  simp only [send, Op.bind_apply, Op.get_apply]
  split
  · exact (writeRaw_flows c e m).1
  · cases c with
    | str s =>
      have hs : Flows m { m with headerSent := true } := Flows.of_eq rfl rfl rfl rfl rfl rfl
      exact hs.trans (writeRaw_flows (.str (m.headerText ++ s)) e { m with headerSent := true }).1
    | buf b =>
      -- The header block is kept for a moment, so the message is not in order in between.
      obtain ⟨h, ho⟩ := writeRaw_flows (.buf b) e
        { m with output := (.str m.headerText, some .ascii) :: m.output, headerSent := true }
      exact ⟨h.role, h.connection, h.finishes, h.finished, h.wire, h.kept, fun ha _ ↦ ho ha⟩

theorem storeHeader_flows (firstLine : JSString) (lines : List (JSString × JSString))
    (m : Message) : Flows m (after (storeHeader firstLine lines m)) := by
  have hd : Flows m (m.withDraft (m.draft firstLine lines)) :=
    Flows.of_eq rfl rfl rfl rfl rfl rfl
  simp only [storeHeader, Op.bind_apply, Op.get_apply, Op.set_apply]
  split_ifs
  · exact hd.trans ((send_flows _ _ _).bind fun _ m' ↦ Flows.refl m')
  · exact hd

theorem writeHead_flows (inherited : JSString → Option JSString) (statusCode : ℕ)
    (reasonPhrase : Option JSString) (obj : Option HeaderSet) (m : Message) :
    Flows m (after (writeHead inherited statusCode reasonPhrase obj m)) := by
  by_cases hn : m.header = none ∨ m.headers = none
  · rw [writeHead_apply_of_or hn]
    have hs : Flows m (m.withStatus statusCode) := Flows.of_eq rfl rfl rfl rfl rfl rfl
    exact hs.trans (storeHeader_flows _ _ _)
  · rw [not_or] at hn
    rw [writeHead_throws (Option.isSome_iff_ne_none.mpr hn.1) (Option.isSome_iff_ne_none.mpr hn.2)]
    exact Flows.refl m

theorem ensureHeader_flows (m : Message) : Flows m (after (ensureHeader m)) := by
  cases h : m.header with
  | some b =>
    rw [ensureHeader_of_isSome (by rw [h]; rfl)]
    exact Flows.refl m
  | none =>
    cases hr : m.role with
    | response =>
      simp only [ensureHeader, implicitHeader, Op.bind_apply, Op.get_apply, h, Option.isNone_none,
        if_true, hr]
      exact writeHead_flows _ _ _ _ m
    | request method path =>
      simp only [ensureHeader, implicitHeader, Op.bind_apply, Op.get_apply, h, Option.isNone_none,
        if_true, hr, renderHeaders_apply h]
      exact storeHeader_flows _ _ m

theorem writeBody_flows (c : Chunk) (e : Option TextEncoding) (m : Message) :
    Flows m (after (writeBody c e m)) := by
  simp only [writeBody, Op.bind_apply, Op.get_apply]
  split_ifs
  · exact Flows.refl m
  · exact Flows.refl m
  · cases c with
    | str s => exact send_flows _ e m
    | buf b =>
      exact (send_flows _ _ _).bind fun _ _ ↦ (send_flows _ _ _).bind fun _ _ ↦ send_flows _ _ _
  · exact send_flows c e m

theorem write_flows (c : Chunk) (e : Option TextEncoding) (m : Message) :
    Flows m (after (write c e m)) :=
  (ensureHeader_flows m).bind fun _ m' ↦ writeBody_flows c e m'

theorem writeData_flows (data : Option Chunk) (e : Option TextEncoding) (m : Message) :
    Flows m (after (writeData data e m)) := by
  rcases data with _ | (_ | ⟨u, s⟩) | b
  · exact Flows.refl m
  · exact Flows.refl m
  · exact (write_flows _ e m).bind fun _ m' ↦ Flows.refl m'
  · exact (write_flows _ e m).bind fun _ m' ↦ Flows.refl m'

/-! ## `end` -/

theorem send_ok_of_attached (ha : m.attached = true) (c : Chunk) (e : Option TextEncoding) :
    ∃ r m', send c e m = .ok r m' := by
  cases c with
  | str s =>
    obtain ⟨r, hr⟩ := send_str_attached ha s e
    exact ⟨r, _, hr⟩
  | buf b =>
    simp only [send, Op.bind_apply, Op.get_apply]
    split
    · obtain ⟨r, hr⟩ := writeRaw_attached (c := .buf b) (e := e) ha
      exact ⟨r, _, hr⟩
    · obtain ⟨r, hr⟩ := writeRaw_attached (c := .buf b) (e := e) (m :=
        { m with output := (.str m.headerText, some .ascii) :: m.output, headerSent := true }) ha
      exact ⟨r, _, hr⟩

/-- A message that owns its socket can always write. -/
theorem writeBody_ok_of_attached (ha : m.attached = true) (c : Chunk) (e : Option TextEncoding) :
    ∃ r m', writeBody c e m = .ok r m' := by
  cases hb : m.hasBody with
  | false => exact ⟨_, _, writeBody_bodiless hb⟩
  | true =>
    by_cases hl : c.length = 0
    · exact ⟨_, _, writeBody_empty hb hl⟩
    · cases hc : m.chunkedEncoding with
      | false =>
        rw [writeBody_plain hb hl hc]
        exact send_ok_of_attached ha c e
      | true =>
        cases c with
        | str s =>
          rw [writeBody_str hb (by simpa [Chunk.length] using hl) hc]
          exact send_ok_of_attached ha _ e
        | buf b =>
          rw [writeBody_buf hb (by simpa [Chunk.length] using hl) hc]
          obtain ⟨r₁, m₁, h₁⟩ := send_ok_of_attached ha (.str (hex b.length ++ crlf)) none
          have hf₁ := send_flows (.str (hex b.length ++ crlf)) none m
          rw [h₁, after_ok] at hf₁
          have ha₁ : m₁.attached = true := by rwa [attached_congr hf₁.connection]
          obtain ⟨r₂, m₂, h₂⟩ := send_ok_of_attached ha₁ (.buf b) none
          have hf₂ := send_flows (.buf b) none m₁
          rw [h₂, after_ok] at hf₂
          have ha₂ : m₂.attached = true := by rwa [attached_congr hf₂.connection]
          obtain ⟨r₃, m₃, h₃⟩ := send_ok_of_attached ha₂ (.str crlf) none
          exact ⟨r₃, m₃, by simp only [Op.bind_apply, h₁, h₂, h₃]⟩

theorem writeData_ok_of_attached (ha : m.attached = true) (hh : m.header.isSome = true)
    (data : Option Chunk) (e : Option TextEncoding) : ∃ m', writeData data e m = .ok ⟨⟩ m' := by
  have hw : ∀ c, ∃ m', (do let _ ← write c e : Op Unit) m = .ok ⟨⟩ m' := by
    intro c
    obtain ⟨r, m', h⟩ := writeBody_ok_of_attached ha c e
    exact ⟨m', by simp only [Op.bind_apply, write_apply hh, h, Op.pure_apply]⟩
  rcases data with _ | (_ | ⟨u, s⟩) | b
  · exact ⟨m, rfl⟩
  · exact ⟨m, rfl⟩
  · exact hw _
  · exact hw _

/-- **`end` with a socket** finishes the response. -/
theorem end_attached (hr : m.role = .response) (ha : m.attached = true) (ho : m.output = [])
    (data : Option Chunk) (e : Option TextEncoding) :
    (after («end» data e m)).role = .response ∧ (after («end» data e m)).connection = none ∧
      (after («end» data e m)).finishes = m.finishes + 1 ∧
      (after («end» data e m)).finished = true ∧ (after («end» data e m)).output = [] ∧
      m.wire <+: (after («end» data e m)).wire := by
  have hens := ensureHeader_flows m
  have hh := (ensureHeader_apply m).2
  rw [end_apply]
  rw [← ensured] at hens
  generalize m.ensured = w at *
  have haw : w.attached = true := by rwa [attached_congr hens.connection]
  have how := hens.passed ha ho
  have hrole : w.role = .response := hens.role.trans hr
  -- both ways end alike: a last text passes, and the response is over
  have key : ∀ (m' : Message) (s : JSString) (e : Option TextEncoding), Flows w m' →
      (m'.passed s e).ended.role = .response ∧ (m'.passed s e).ended.connection = none ∧
      (m'.passed s e).ended.finishes = m.finishes + 1 ∧ (m'.passed s e).ended.finished = true ∧
      (m'.passed s e).ended.output = [] ∧ m.wire <+: (m'.passed s e).ended.wire := by
    intro m' s e hf
    have hrole' : m'.role = .response := hf.role.trans hrole
    refine ⟨hrole', if_pos hrole', ?_, rfl, rfl, ?_⟩
    · have : m'.finishes = m.finishes := hf.finishes.trans hens.finishes
      simp [ended, passed, this]
    · refine (hens.wire.trans hf.wire).trans ?_
      simp only [ended, passed, List.append_assoc]
      exact List.prefix_append _ _
  cases hhot : w.hot data with
  | some s =>
    obtain ⟨rfl, -⟩ := hot_eq_some hhot
    obtain ⟨r, h⟩ := end_hot (e := e) hh hhot
    rw [h]
    exact key w _ _ (Flows.refl w)
  | none =>
    obtain ⟨m', hw⟩ := writeData_ok_of_attached haw hh data e
    have hf := writeData_flows data e w
    rw [hw, after_ok] at hf
    obtain ⟨r, h⟩ := end_cold hh hhot hw (by rwa [attached_congr hf.connection])
    rw [h]
    exact key m' _ _ hf

/-- **`end` without a socket** sends nothing. -/
theorem end_waiting (hc : m.connection = none) (data : Option Chunk) (e : Option TextEncoding) :
    (after («end» data e m)).role = m.role ∧ (after («end» data e m)).connection = none ∧
      (after («end» data e m)).finishes = m.finishes ∧
      (after («end» data e m)).wire = m.wire := by
  have hens := ensureHeader_flows m
  have hh := (ensureHeader_apply m).2
  rw [end_apply]
  rw [← ensured] at hens
  generalize m.ensured = w at *
  have haw : ∀ {m' : Message}, Flows m m' → m'.attached = false := by
    intro m' hf
    rw [attached, hf.connection, hc]
  have hhot : w.hot data = none := hot_eq_none_of_not_attached data (haw hens)
  -- without a socket every call keeps what it is given
  have key : ∀ {m' : Message}, Flows m m' →
      m'.role = m.role ∧ m'.connection = none ∧ m'.finishes = m.finishes ∧ m'.wire = m.wire :=
    fun hf ↦ ⟨hf.role, hf.connection.trans hc, hf.finishes, hf.kept (haw (Flows.refl m))⟩
  simp only [«end», Op.bind_apply, ensureHeader_of_isSome hh, Op.get_apply, hhot]
  have hf₁ := hens.trans (writeData_flows data e w)
  cases hw : writeData data e w with
  | error err m₁ =>
    rw [hw] at hf₁
    exact key hf₁
  | ok u m₁ =>
    rw [hw, after_ok] at hf₁
    have hf₂ := hf₁.trans (send_flows (.str m₁.lastText) none m₁)
    rw [← sendLast_eq] at hf₂
    simp only
    cases hs : sendLast m₁ with
    | error err m₂ =>
      rw [hs] at hf₂
      exact key hf₂
    | ok r m₂ =>
      rw [hs, after_ok] at hf₂
      obtain ⟨h₁, h₂, h₃, h₄⟩ := key hf₂
      simp only
      by_cases ho : m₂.output = []
      · rw [endFinish_detached h₂ ho]
        exact ⟨h₁, h₂, h₃, h₄⟩
      · rw [endFinish_kept ho]
        exact ⟨h₁, h₂, h₃, h₄⟩

end Message

end SpiderNode.Http
