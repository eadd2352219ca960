import SpiderNode.Http.Ending

/-!
# After `end`

Neither `write` nor `end` looks at `finished`. What a late call does depends on where the response
stands. It is gone once everything was sent: it has no socket any more, and what it keeps is never
sent. It is waiting if other responses are before it: what it keeps is sent when its turn comes. It
is stuck if its socket is no longer writable.

`Allowed` says which late calls are harmless in which of these, and `finished_of_meets` that a run
of such calls never throws, never adds to what the connection carries and finishes the response at
most once.
-/

namespace SpiderNode.Http

open Net (JsError)

/-! ## Keeping -/

namespace Message

variable {m m₁ : Message} {c : Chunk} {e : Option TextEncoding}

/-- The last entry is not a buffer that would have to become a string and cannot. -/
def joinable (out : List Entry) (c : Chunk) (e : Option TextEncoding) : Bool :=
  match c, e, out.getLast? with
  | .str _, some x, some (.buf b, some y) => x ≠ y || (utf8Decode b).isSome
  | _, _, _ => true

theorem joinOutput_of_joinable {out : List Entry} (h : joinable out c e = true) :
    ∃ out', joinOutput out c e = .ok out' ∧ (c.length = 0 → out' = out) ∧
      (c.length ≠ 0 → out' ≠ []) := by
  by_cases hl : c.length = 0
  · exact ⟨out, by simp [joinOutput, hl], fun _ ↦ rfl, fun h ↦ absurd hl h⟩
  · unfold joinOutput
    rw [if_neg hl]
    have hne : ∀ (l : List Entry) (x : Entry), l ++ [x] ≠ [] := by simp
    rcases c with s | b
    · rcases hlast : out.getLast? with _ | ⟨t | b, y⟩
      · exact ⟨_, rfl, by simp [hl], fun _ ↦ hne _ _⟩
      · simp only
        split_ifs
        · exact ⟨_, rfl, by simp [hl], fun _ ↦ hne _ _⟩
        · exact ⟨_, rfl, by simp [hl], fun _ ↦ hne _ _⟩
      · simp only
        split_ifs with he
        · obtain ⟨x, rfl⟩ := Option.isSome_iff_exists.mp he.1
          obtain rfl : y = some x := he.2
          have hb : (utf8Decode b).isSome = true := by simpa [joinable, hlast] using h
          obtain ⟨t, ht⟩ := Option.isSome_iff_exists.mp hb
          rw [ht]
          exact ⟨_, rfl, by simp [hl], fun _ ↦ hne _ _⟩
        · exact ⟨_, rfl, by simp [hl], fun _ ↦ hne _ _⟩
    · exact ⟨_, rfl, by simp [hl], fun _ ↦ hne _ _⟩

/-- A response that is finished and sends nothing: it has no socket, or one that is not writable. -/
structure Silent (m : Message) : Prop where
  role : m.role = .response
  header : m.header.isSome = true
  headerSent : m.headerSent = true
  finished : m.finished = true
  attached : m.attached = false

/-- The message with something else to keep. -/
def keeping (m : Message) (out : List Entry) : Message := { m with output := out }

@[simp] theorem keeping_output (m : Message) : m.keeping m.output = m := rfl

@[simp] theorem output_keeping (m : Message) (out : List Entry) :
    (m.keeping out).output = out := rfl

@[simp] theorem keeping_keeping (m : Message) (out out' : List Entry) :
    (m.keeping out).keeping out' = m.keeping out' := rfl

theorem Silent.keeping (h : Silent m) (out : List Entry) : Silent (m.keeping out) :=
  ⟨h.role, h.header, h.headerSent, h.finished, h.attached⟩

theorem Silent.send (h : Silent m) (hj : joinable m.output c e = true) :
    ∃ out, send c e m = .ok false (m.keeping out) ∧ (c.length = 0 → out = m.output) ∧
      (c.length ≠ 0 → out ≠ []) := by
  obtain ⟨out, ho, hz, hne⟩ := joinOutput_of_joinable hj
  refine ⟨out, ?_, hz, hne⟩
  simp only [Message.send, Op.bind_apply, Op.get_apply, h.headerSent, if_true]
  rw [writeRaw_kept h.attached, ho]
  rfl

theorem joinable_none (out : List Entry) (c : Chunk) : joinable out c none = true := by
  cases c <;> simp [joinable]

theorem joinable_str (out : List Entry) (s t : JSString) (e : Option TextEncoding) :
    joinable out (.str s) e = joinable out (.str t) e := by
  rcases e with _ | e
  · simp [joinable]
  · rcases hl : out.getLast? with _ | ⟨_ | _, _ | _⟩ <;> simp [joinable, hl]

/-- A late `write` only changes what is kept. -/
theorem Silent.write (h : Silent m)
    (hj : m.hasBody = true → c.length ≠ 0 → joinable m.output c e = true) :
    ∃ r out, write c e m = .ok r (m.keeping out) ∧
      (m.hasBody = false ∨ c.length = 0 → out = m.output) ∧
      (m.hasBody = true → c.length ≠ 0 → out ≠ []) := by
  rw [write_apply h.header]
  cases hb : m.hasBody with
  | false => exact ⟨true, m.output, writeBody_bodiless hb, fun _ ↦ rfl, by simp⟩
  | true =>
    by_cases hl : c.length = 0
    · exact ⟨false, m.output, writeBody_empty hb hl, fun _ ↦ rfl, fun _ hne ↦ absurd hl hne⟩
    · replace hj := hj hb hl
      suffices hw : ∃ out, out ≠ [] ∧ writeBody c e m = .ok false (m.keeping out) by
        obtain ⟨out, hne, hw⟩ := hw
        exact ⟨false, out, hw, fun h ↦ absurd h (by simp [hl]), fun _ _ ↦ hne⟩
      cases hc : m.chunkedEncoding with
      | false =>
        obtain ⟨out, hs, -, hne⟩ := h.send hj
        exact ⟨out, hne hl, by rw [writeBody_plain hb hl hc, hs]⟩
      | true =>
        cases c with
        | str s =>
          rw [joinable_str _ s (chunkText e s)] at hj
          obtain ⟨out, hs, -, hne⟩ := h.send hj
          refine ⟨out, hne (by simp [Chunk.length, chunkText, crlf]), ?_⟩
          rw [writeBody_str hb (by simpa [Chunk.length] using hl) hc, hs]
        | buf b =>
          obtain ⟨out₁, h₁, -⟩ := h.send (joinable_none m.output (.str (hex b.length ++ crlf)))
          obtain ⟨out₂, h₂, -⟩ := (h.keeping out₁).send (joinable_none out₁ (.buf b))
          obtain ⟨out₃, h₃, -, hne⟩ := (h.keeping out₂).send (joinable_none out₂ (.str crlf))
          refine ⟨out₃, hne (by decide), ?_⟩
          rw [keeping_keeping] at h₂ h₃
          rw [writeBody_buf hb (by simpa [Chunk.length] using hl) hc]
          simp only [Op.bind_apply, h₁, h₂, h₃]

/-- `end` has data to write. -/
def Effective (m : Message) (data : Option Chunk) : Prop :=
  m.hasBody = true ∧ ∃ c, data = some c ∧ c.length ≠ 0

theorem Silent.writeData (h : Silent m) {data : Option Chunk}
    (hj : ∀ c, data = some c → m.hasBody = true → c.length ≠ 0 → joinable m.output c e = true) :
    ∃ out, writeData data e m = .ok ⟨⟩ (m.keeping out) ∧ (¬Effective m data → out = m.output) ∧
      (Effective m data → out ≠ []) := by
  rcases data with _ | c
  · exact ⟨m.output, rfl, fun _ ↦ rfl, by simp [Effective]⟩
  · by_cases hl : c.length = 0
    · refine ⟨m.output, ?_, fun _ ↦ rfl, by simp [Effective, hl]⟩
      rcases c with (_ | ⟨u, s⟩) | b
      · rfl
      · simp [Chunk.length] at hl
      · obtain ⟨r, out, hw, hz, -⟩ := h.write (c := .buf b) (e := e) fun _ hne ↦ absurd hl hne
        rw [hz (.inr hl), keeping_output] at hw
        simp only [Message.writeData, Op.bind_apply, hw, Op.pure_apply, keeping_output]
    · obtain ⟨r, out, hw, hz, hne⟩ := h.write (hj c rfl)
      refine ⟨out, ?_, fun hn ↦ hz ?_, ?_⟩
      · simp only [writeData_eq hl, Op.bind_apply, hw, Op.pure_apply]
      · left
        by_contra hb
        exact hn ⟨by simpa using hb, c, rfl, hl⟩
      · rintro ⟨hb, -⟩
        exact hne hb hl

theorem Silent.sendLast (h : Silent m) :
    ∃ out, sendLast m = .ok false (m.keeping out) ∧
      (m.chunkedEncoding = false → out = m.output) ∧ (m.chunkedEncoding = true → out ≠ []) := by
  simp only [Message.sendLast, Op.bind_apply, Op.get_apply]
  cases hc : m.chunkedEncoding with
  | true =>
    obtain ⟨out, hs, -, hne⟩ := h.send (joinable_none m.output (.str m.lastChunk))
    exact ⟨out, hs, by simp, fun _ ↦ hne (by simp [Chunk.length, lastChunk, crlf])⟩
  | false =>
    obtain ⟨out, hs, hz, -⟩ := h.send (joinable_none m.output (.str []))
    exact ⟨out, hs, fun _ ↦ hz rfl, by simp⟩

/-- A late `end` only changes what is kept, as long as something is kept afterwards. -/
theorem Silent.end (h : Silent m) {data : Option Chunk}
    (hj : ∀ c, data = some c → m.hasBody = true → c.length ≠ 0 → joinable m.output c e = true)
    (hne : m.output ≠ [] ∨ m.chunkedEncoding = true ∨ Effective m data) :
    ∃ r out, «end» data e m = .ok r (m.keeping out) ∧ out ≠ [] ∧
      (m.chunkedEncoding = false → ¬Effective m data → out = m.output) := by
  obtain ⟨out₁, hw, hz₁, hne₁⟩ := h.writeData hj
  obtain ⟨out₂, hl, hz₂, hne₂⟩ := (h.keeping out₁).sendLast
  have hout : out₂ ≠ [] := by
    by_cases hc : m.chunkedEncoding = true
    · exact hne₂ hc
    · have hc' : (m.keeping out₁).chunkedEncoding = false := Bool.eq_false_iff.mpr hc
      rw [hz₂ hc', output_keeping]
      by_cases he : Effective m data
      · exact hne₁ he
      · rw [hz₁ he]
        simpa [hc, he] using hne
  have hhot : m.hot data = none := hot_eq_none_of_not_attached data h.attached
  have hfin : endFinish (m.keeping out₂) = .ok ⟨⟩ (m.keeping out₂) := by
    have hf : { m.keeping out₂ with finished := true } = m.keeping out₂ := by
      rw [← (h.keeping out₂).finished]
    rw [endFinish_kept hout, hf]
  refine ⟨false, out₂, ?_, hout, ?_⟩
  · rw [keeping_keeping] at hl
    simp only [Message.end, Op.bind_apply, ensureHeader_of_isSome h.header, Op.get_apply, hhot, hw,
      hl, hfin, Op.pure_apply]
  · intro hc he
    rw [hz₂ hc, output_keeping, hz₁ he]

end Message

/-! ## Late calls -/

/-- What can happen to a response after `end`. -/
inductive Late where
  | write (chunk : Chunk) (encoding : Option TextEncoding)
  | end (data : Option Chunk) (encoding : Option TextEncoding)
  /-- The connection gives the response its socket. -/
  | assignSocket (writable flushes : Bool)

def Late.run : Late → Op Unit
  | .write c e => do let _ ← Message.write c e
  | .end data e => do let _ ← Message.end data e
  | .assignSocket writable flushes => Message.assignSocket writable flushes

def runLate : List Late → Op Unit
  | [] => return
  | l :: late => do
    l.run
    runLate late

namespace Message

variable {m m₁ : Message} {e : Option TextEncoding}

/-- The response waits for its turn: it is kept in `outgoing`. -/
def Waiting (m : Message) : Prop := m.connection = none ∧ m.finishes = 0

/-- The late calls that do no harm. While the response is waiting, they have nothing to send. At any
other time they may have something to keep, and `end` has to: it takes a response that keeps nothing
for one that is about to finish, and looks for its socket. What is kept is never joined to a buffer
that is no string. -/
def Allowed (m : Message) : Late → Prop
  | .write c e => m.hasBody = true → c.length ≠ 0 → ¬Waiting m ∧ joinable m.output c e = true
  | .end data e =>
    (Waiting m → m.chunkedEncoding = false) ∧
    (∀ c, data = some c → m.hasBody = true → c.length ≠ 0 →
      ¬Waiting m ∧ joinable m.output c e = true) ∧
    (m.output ≠ [] ∨ m.chunkedEncoding = true ∨ Effective m data)
  | .assignSocket _ _ => Waiting m

/-- Each call is allowed in the state it is made in. -/
def Meets (m : Message) : List Late → Prop
  | [] => True
  | l :: late => Allowed m l ∧ ∀ m', l.run m = .ok ⟨⟩ m' → Meets m' late

/-- Where a response can stand after `end`, compared with the state that `end` left. -/
inductive Place (m₁ : Message) : Message → Prop where
  | gone {m : Message} (h : Silent m) (connection : m.connection = none) (finishes : m.finishes = 1)
    (wire : m.wire = m₁.wire ++ m₁.output) : Place m₁ m
  | waiting {m : Message} (h : Silent m) (connection : m.connection = none)
    (finishes : m.finishes = 0) (wire : m.wire = m₁.wire) (output : m.output = m₁.output)
    (kept : m.output ≠ []) : Place m₁ m
  | stuck {m : Message} (h : Silent m) (flushes : Bool)
    (connection : m.connection = some ⟨true, false, flushes⟩) (finishes : m.finishes = 0)
    (wire : m.wire = m₁.wire) (kept : m.output ≠ []) : Place m₁ m

theorem Place.silent (h : Place m₁ m) : Silent m := by
  cases h <;> assumption

/-- What a call keeps does not move the response, as long as a waiting one keeps what it had. -/
theorem Place.keeping (h : Place m₁ m) {out : List Entry} (hw : Waiting m → out = m.output)
    (hne : m.output ≠ [] → out ≠ []) : Place m₁ (m.keeping out) := by
  cases h with
  | gone h hc hf hwire => exact .gone (h.keeping out) hc hf hwire
  | waiting h hc hf hwire ho hk =>
    rw [hw ⟨hc, hf⟩]
    exact .waiting h hc hf hwire ho hk
  | stuck h f hc hf hwire hk => exact .stuck (h.keeping out) f hc hf hwire (hne hk)

/-- The socket comes, but it is not writable. -/
theorem assignSocket_unwritable (f : Bool) (h : m.output ≠ []) :
    assignSocket false f m = .ok ⟨⟩ { m with connection := some ⟨true, false, f⟩ } := by
  obtain ⟨⟨c, e⟩, out, ho⟩ := List.exists_cons_of_ne_nil h
  simp [assignSocket, flush, ho, flushOutput]

/-- **One late call** that is allowed does not throw, and moves the response at most from waiting to
gone or stuck. -/
theorem Place.step (h : Place m₁ m) {l : Late} (ha : Allowed m l) :
    ∃ m', l.run m = .ok ⟨⟩ m' ∧ Place m₁ m' := by
  cases l with
  | write c e =>
    obtain ⟨r, out, hw, hz, hne⟩ := h.silent.write (e := e) fun hb hl ↦ (ha hb hl).2
    refine ⟨m.keeping out, ?_, h.keeping ?_ ?_⟩
    · simp only [Late.run, Op.bind_apply, hw, Op.pure_apply]
    · intro hwait
      refine hz ?_
      by_contra hn
      rw [not_or] at hn
      exact (ha (by simpa using hn.1) hn.2).1 hwait
    · intro ho
      by_cases hn : m.hasBody = false ∨ c.length = 0
      · rwa [hz hn]
      · rw [not_or] at hn
        exact hne (by simpa using hn.1) hn.2
  | «end» data e =>
    obtain ⟨hchunk, hdata, hkeep⟩ := ha
    obtain ⟨r, out, he, hne, hz⟩ :=
      h.silent.end (fun c hd hb hl ↦ (hdata c hd hb hl).2) hkeep
    refine ⟨m.keeping out, ?_, h.keeping ?_ fun _ ↦ hne⟩
    · simp only [Late.run, Op.bind_apply, he, Op.pure_apply]
    · intro hwait
      refine hz (hchunk hwait) ?_
      rintro ⟨hb, c, hd, hl⟩
      exact (hdata c hd hb hl).1 hwait
  | assignSocket w f =>
    obtain ⟨hc, hf⟩ := ha
    cases h with
    | gone h hc' hf' _ => omega
    | stuck h f' hc' _ _ _ => simp [hc] at hc'
    -- what was kept goes to a socket that can be written to
    | waiting h _ _ hwire ho hk =>
      cases w with
      | true =>
        refine ⟨_, assignSocket_finished f h.finished h.role, .gone ?_ rfl (by simp [hf]) ?_⟩
        · exact ⟨h.role, h.header, h.headerSent, h.finished, rfl⟩
        · simp [hwire, ho]
      | false =>
        refine ⟨_, assignSocket_unwritable f hk, .stuck ?_ f rfl hf hwire hk⟩
        exact ⟨h.role, h.header, h.headerSent, h.finished, rfl⟩

/-- **A run of late calls.** -/
theorem Place.run (h : Place m₁ m) {late : List Late} (hm : Meets m late) :
    ∃ m', runLate late m = .ok ⟨⟩ m' ∧ Place m₁ m' := by
  induction late generalizing m with
  | nil => exact ⟨m, rfl, h⟩
  | cons l late ih =>
    obtain ⟨ha, hrest⟩ := hm
    obtain ⟨m', hl, hp⟩ := h.step ha
    obtain ⟨m'', hr, hp'⟩ := ih hp (hrest m' hl)
    exact ⟨m'', by simp only [runLate, Op.bind_apply, hl, hr], hp'⟩

/-! ## The first `end` -/

theorem sendLast_inv {r : Bool} {m' : Message} (h : sendLast m = .ok r m') :
    SameFace m m' ∧ m'.headerSent = true ∧ (m.attached = true → m'.output = []) := by
  cases ha : m.attached with
  | true =>
    obtain ⟨r', hr⟩ := sendLast_attached ha
    rw [hr] at h
    cases h
    exact ⟨⟨rfl⟩, rfl, fun _ ↦ rfl⟩
  | false =>
    rw [sendLast_eq, send_str_kept ha] at h
    cases hj : joinOutput m.output (.str (m.unsent ++ m.lastText)) none with
    | error err => simp [hj] at h
    | ok out =>
      rw [hj] at h
      cases h
      exact ⟨⟨rfl⟩, rfl, by simp⟩

theorem writeData_sameFace (hh : m.header.isSome = true) (data : Option Chunk)
    (e : Option TextEncoding) : SameFace m (after (writeData data e m)) := by
  have hw : ∀ c, SameFace m (after ((do let _ ← write c e : Op Unit) m)) := by
    intro c
    have hs := writeBody_sameFace c e m
    simp only [Op.bind_apply, write_apply hh]
    cases hb : writeBody c e m with
    | ok r m' =>
      rw [hb] at hs
      exact hs
    | error err m' =>
      rw [hb] at hs
      exact hs
  rcases data with _ | (_ | ⟨u, s⟩) | b
  · exact SameFace.refl m
  · exact SameFace.refl m
  · exact hw _
  · exact hw _

/-- An `end` that returns has sent or kept everything. -/
theorem end_inv {data : Option Chunk} {r : Bool} {m' : Message}
    (h : «end» data e m = .ok r m') :
    ∃ m₂, SameFace m.ensured m₂ ∧ m₂.headerSent = true ∧
      (m.ensured.attached = true → m₂.output = []) ∧ endFinish m₂ = .ok ⟨⟩ m' := by
  have hh := (ensureHeader_apply m).2
  rw [end_apply] at h
  generalize m.ensured = w at *
  cases hhot : w.hot data with
  | some s =>
    obtain ⟨rfl, hs, hne, ho, ha⟩ := hot_eq_some hhot
    obtain ⟨r', hr⟩ := end_hot (e := e) hh hhot
    rw [hr] at h
    cases h
    exact ⟨_, ⟨rfl⟩, rfl, fun _ ↦ rfl, endFinish_attached ha rfl⟩
  | none =>
    have hf := writeData_sameFace hh data e
    simp only [«end», Op.bind_apply, ensureHeader_of_isSome hh, Op.get_apply, hhot] at h
    cases hw : writeData data e w with
    | error err m'' => simp [hw] at h
    | ok u m₁ =>
      rw [hw, after_ok] at hf
      simp only [hw] at h
      cases hl : sendLast m₁ with
      | error err m'' => simp [hl] at h
      | ok r₂ m₂ =>
        obtain ⟨hf₂, hsent, hout⟩ := sendLast_inv hl
        simp only [hl] at h
        cases hfin : endFinish m₂ with
        | error err m'' => simp [hfin] at h
        | ok u' m₃ =>
          simp only [hfin, Op.pure_apply] at h
          cases h
          refine ⟨m₂, hf.trans hf₂, hsent, fun ha ↦ hout ?_, hfin⟩
          rw [hf.eq]
          exact ha

/-- **After the first `end`** the response is gone, waiting or stuck. -/
theorem place_of_end (hr : m.role = .response) (hf : m.finishes = 0)
    (hc : ∀ l ∈ m.connection, l.owned = true) {data : Option Chunk} {r : Bool}
    (h : «end» data e m = .ok r m₁) : Place m₁ m₁ := by
  obtain ⟨m₂, hface, hsent, hout, hfin⟩ := end_inv h
  have hens := ensured_eq m
  have hh := (ensureHeader_apply m).2
  generalize m.ensured = w at *
  have hrole : m₂.role = .response := by rw [hface.eq, hens]; exact hr
  have hfin₀ : m₂.finishes = 0 := by rw [hface.eq, hens]; exact hf
  have hcon : m₂.connection = m.connection := by rw [hface.eq, hens]
  have hheader : m₂.header.isSome = true := by rw [hface.eq]; exact hh
  have hatt : m₂.attached = w.attached := by rw [attached, attached, hface.eq]
  rcases hm : m.connection with _ | l
  · rw [hm] at hcon
    by_cases ho : m₂.output = []
    -- without a socket and with nothing kept, `end` throws
    · simp [endFinish_detached hcon ho] at hfin
    · rw [endFinish_kept ho] at hfin
      cases hfin
      have ha : m₂.attached = false := by rw [attached, hcon]
      exact .waiting ⟨hrole, hheader, hsent, rfl, ha⟩ hcon hfin₀ rfl rfl ho
  · have hown : l.owned = true := hc l (by rw [hm]; rfl)
    rw [hm] at hcon
    by_cases ho : m₂.output = []
    · rw [endFinish_owned hcon hown ho] at hfin
      cases hfin
      refine .gone ⟨hrole, hheader, hsent, rfl, ?_⟩ (if_pos hrole) (by simp [ended, hfin₀])
        (by simp [ended, ho])
      simp [ended, attached, hrole]
    · rw [endFinish_kept ho] at hfin
      cases hfin
      obtain ⟨o, w', f⟩ := l
      obtain rfl : o = true := hown
      have ha : m₂.attached = w' := by rw [attached, hcon]; rfl
      -- a socket that can be written to would have got what is kept
      obtain rfl : w' = false := by
        cases w' with
        | false => rfl
        | true => exact absurd (hout (hatt ▸ ha)) ho
      exact .stuck ⟨hrole, hheader, hsent, rfl, ha⟩ f hcon hfin₀ rfl ho

/-- **A finished response stays finished.** After the first `end` of a response, in whatever place
it is, a run of late calls that are each allowed does not throw, sends at most what was kept at that
time, and emits `finish` at most once. -/
theorem finished_of_meets (m : Message) (hr : m.role = .response) (hf : m.finishes = 0)
    (hc : ∀ l ∈ m.connection, l.owned = true) (data : Option Chunk) (e : Option TextEncoding)
    (r : Bool) (m₁ : Message) (h : «end» data e m = .ok r m₁) (late : List Late)
    (hm : Meets m₁ late) :
    ∃ m', runLate late m₁ = .ok ⟨⟩ m' ∧
      (m'.wire = m₁.wire ∨ m'.wire = m₁.wire ++ m₁.output) ∧ m'.finishes ≤ 1 := by
  obtain ⟨m', hrun, hp⟩ := (place_of_end hr hf hc h).run hm
  refine ⟨m', hrun, ?_⟩
  cases hp with
  | gone _ _ hf hw => exact ⟨.inr hw, by omega⟩
  | waiting _ _ hf hw _ _ => exact ⟨.inl hw, by omega⟩
  | stuck _ _ _ hf hw _ => exact ⟨.inl hw, by omega⟩

/-- A chunked response that is ended twice. -/
theorem finished_of_meets_twice :
    ∃ m', runLate [.end none none]
        (after («end» none none (after (assignSocket true true (serverResponse false 1 1))))) =
          .ok ⟨⟩ m' ∧
      (m'.wire =
          (after («end» none none (after (assignSocket true true (serverResponse false 1 1))))).wire ∨
        m'.wire =
          (after («end» none none (after (assignSocket true true (serverResponse false 1 1))))).wire ++
          (after («end» none none
            (after (assignSocket true true (serverResponse false 1 1))))).output) ∧
      m'.finishes ≤ 1 :=
  finished_of_meets (after (assignSocket true true (serverResponse false 1 1))) rfl rfl
    (fun _ hl ↦ by obtain rfl := Option.mem_some_iff.mp hl; rfl) none none true _ rfl
    [.end none none]
    ⟨⟨fun hw ↦ absurd hw.2 (by decide), fun _ h ↦ absurd h (by simp), .inr (.inl rfl)⟩,
      fun _ _ ↦ trivial⟩

/-- A response to a `HEAD` request cannot be ended twice. -/
theorem end_twice_throws :
    ∃ r m₁ m', «end» none none (after (assignSocket true true (serverResponse true 1 1))) =
        .ok r m₁ ∧ runLate [.end none none] m₁ = .error .typeError m' :=
  ⟨_, _, _, rfl, rfl⟩

end Message

end SpiderNode.Http
