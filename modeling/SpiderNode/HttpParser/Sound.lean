import SpiderNode.HttpParser.Execute

/-!
# What holds of the parser between two bytes

`Parser.Sound` is the invariant of the loop: the name that is being matched is not longer than the
word it is matched with, and a chunk is read only while `F_CHUNKED` is set. No assertion of the
loop fails in a sound parser, and the four fields that are stored at the end of a call have room for
what is stored in them.
-/

namespace SpiderNode.HttpParser

open Scanner (Code)

/-- What is known of the word that is being matched, at an index, while a name is read. -/
def HeaderState.InName (h : HeaderState) (index : ℕ) : Prop :=
  match h with
  | .general | .connection | .contentLength | .transferEncoding | .upgrade => True
  | .c => index = 0
  | .co => index = 1
  | .con => index = 2
  | .matchingConnection => index + 1 < "connection".length
  | .matchingProxyConnection => index + 1 < "proxy-connection".length
  | .matchingContentLength => index + 1 < "content-length".length
  | .matchingTransferEncoding => index + 1 < "transfer-encoding".length
  | .matchingUpgrade => index + 1 < "upgrade".length
  | _ => False

/-- The same while a value is read. -/
def HeaderState.InValue (h : HeaderState) (index : ℕ) : Prop :=
  match h with
  | .general | .contentLength | .transferEncodingChunked | .connectionKeepAlive
  | .connectionClose => True
  | .matchingTransferEncodingChunked => index + 1 < "chunked".length
  | .matchingConnectionKeepAlive => index + 1 < "keep-alive".length
  | .matchingConnectionClose => index + 1 < "close".length
  | _ => False

/-- What each state says about the other fields. -/
def Parser.Fits (c : Parser) : Prop :=
  match c.state with
  | .reqMethod => c.index ≤ c.method.bytes.length + 1
  | .headerField => c.headerState.InName c.index
  | .headerValue => c.headerState.InValue c.index
  | .chunkSizeStart | .chunkSize | .chunkSizeAlmostDone | .chunkParameters
  | .chunkData | .chunkDataAlmostDone | .chunkDataDone => c.flags.chunked
  | _ => True

/-- The states that say nothing about the other fields. -/
def State.Free (s : State) : Bool :=
  match s with
  | .reqMethod | .headerField | .headerValue | .chunkSizeStart | .chunkSize | .chunkSizeAlmostDone
  | .chunkParameters | .chunkData | .chunkDataAlmostDone | .chunkDataDone => false
  | _ => true

theorem Parser.fits_of_free {c : Parser} {s : State} (hc : c.state = s) (h : s.Free) : c.Fits := by
  rw [Parser.Fits, hc]
  cases s <;> trivial

/-- The fields that are stored have room for their values. -/
structure Parser.Small (c : Parser) : Prop where
  nread_le : c.nread ≤ maxHeaderSize
  index_lt : c.index < 2 ^ 8

structure Parser.Sound (c : Parser) : Prop extends Parser.Small c where
  fits : c.Fits

theorem Parser.Sound.save {c : Parser} (h : c.Sound) : save c = c := by
  have hn : c.nread % 2 ^ 32 = c.nread :=
    Nat.mod_eq_of_lt (lt_of_le_of_lt h.nread_le (by decide))
  rw [HttpParser.save, hn, Nat.mod_eq_of_lt h.index_lt]

theorem Parser.init_sound {parser : Parser} (h : parser.index < 2 ^ 8) (t : ParserType) :
    (parser.init t).Sound := by
  refine ⟨⟨Nat.zero_le _, h⟩, ?_⟩
  cases t <;> trivial

/-- Where a sound parser stops: not by an assertion, and with the state that is stored if the
headers are refused. -/
def Exit.Allowed (r : Exit) (c : Parser) : Prop :=
  r ≠ .assertion ∧ (r = .halted → c.state = .headersAlmostDone)

/-- The step goes on with a sound parser. -/
def Keeps (k : Step) : Prop := k.Ends Parser.Sound Exit.Allowed

section

variable {c : Parser} {ch : UInt8} {strict : Bool} {n : ℕ}

theorem keeps_ite {p : Prop} [Decidable p] {k k' : Step} (h : p → Keeps k) (h' : ¬p → Keeps k') :
    Keeps (if p then k else k') := by
  split_ifs with hp
  · exact h hp
  · exact h' hp

theorem keeps_error : Keeps (error c) := ⟨by decide, by simp⟩

theorem keeps_refused : Keeps (.stop .refused c) := ⟨by decide, by simp⟩

theorem keeps_next (h : c.Small) (hf : c.Fits) : Keeps (.next c) := ⟨h, hf⟩

theorem keeps_goto {s : State} (h : c.Small) (hs : Parser.Fits { c with state := s }) :
    Keeps (goto c s) := ⟨⟨h.nread_le, h.index_lt⟩, hs⟩

theorem keeps_callback {d : Kind} {rest : Step} (h : Keeps rest) : Keeps (callback d c rest) :=
  fun _ ↦ keeps_ite (fun _ ↦ h) fun _ ↦ keeps_refused

theorem keeps_callback2 {e : Message → Notice} {rest : Step} (h : Keeps rest) :
    Keeps (callback2 e c rest) := fun _ ↦ keeps_ite (fun _ ↦ h) fun _ ↦ keeps_refused

theorem keeps_mark {d : Kind} {rest : Step} (h : Keeps rest) : Keeps (.mark d rest) := h

theorem keeps_strictCheck {b : UInt8} {rest : Step} (h : Keeps rest) :
    Keeps (strictCheck strict ch b c rest) := keeps_ite (fun _ ↦ keeps_error) fun _ ↦ h

theorem keeps_free {s : State} (h : c.Small) (hc : c.state = s) (hs : s.Free) : Keeps (.next c) :=
  keeps_next h (Parser.fits_of_free hc hs)

theorem keeps_goto_free {s : State} (h : c.Small) (hs : s.Free) : Keeps (goto c s) :=
  keeps_goto h (Parser.fits_of_free rfl hs)

theorem keeps_callbacks {ds : List Kind} {rest : Step} (h : Keeps rest) :
    Keeps (callbacks ds c rest) := by
  induction ds with
  | nil => exact h
  | cons d ds ih => exact keeps_callback ih

theorem free_newMessage : (c.newMessage strict).Free := by
  rw [Parser.newMessage, Parser.startState]
  split_ifs <;> rfl

theorem keeps_complete (h : c.Small) : Keeps (complete strict c) :=
  keeps_callback2 (keeps_goto_free h free_newMessage)

/-! ## The first line -/

theorem keeps_startReqMethodAssign (h : c.Small) : Keeps (startReqMethodAssign c ch) := by
  rw [startReqMethodAssign]
  rcases Method.first ch with _ | m
  · exact keeps_error
  · exact keeps_next ⟨h.nread_le, show 1 < 2 ^ 8 by decide⟩ (Nat.succ_le_succ (Nat.zero_le _))

theorem keeps_firstHttpMajor {s : State} (h : c.Small) (hs : s.Free) :
    Keeps (firstHttpMajor c ch s) :=
  keeps_ite (fun _ ↦ keeps_error) fun _ ↦ keeps_free ⟨h.nread_le, h.index_lt⟩ rfl hs

theorem keeps_httpMajor {s t : State} (h : c.Small) (hc : c.state = t) (ht : t.Free) (hs : s.Free) :
    Keeps (httpMajor c ch s) := by
  refine keeps_ite (fun _ ↦ keeps_goto_free h hs) fun _ ↦ keeps_ite (fun _ ↦ keeps_error) fun _ ↦ ?_
  exact keeps_ite (fun _ ↦ keeps_error) fun _ ↦ keeps_free ⟨h.nread_le, h.index_lt⟩ hc ht

theorem keeps_firstHttpMinor {s : State} (h : c.Small) (hs : s.Free) :
    Keeps (firstHttpMinor c ch s) :=
  keeps_ite (fun _ ↦ keeps_error) fun _ ↦ keeps_free ⟨h.nread_le, h.index_lt⟩ rfl hs

theorem keeps_httpMinor {t : State} (h : c.Small) (hc : c.state = t) (ht : t.Free) :
    Keeps (httpMinor c ch) :=
  keeps_ite (fun _ ↦ keeps_error) fun _ ↦ keeps_ite (fun _ ↦ keeps_error) fun _ ↦
    keeps_free ⟨h.nread_le, h.index_lt⟩ hc ht

theorem keeps_resFirstStatusCode (h : c.Small) (hc : c.state = .resFirstStatusCode) :
    Keeps (resFirstStatusCode c ch) := by
  refine keeps_ite (fun _ ↦ ?_) fun _ ↦ keeps_free ⟨h.nread_le, h.index_lt⟩ rfl rfl
  exact keeps_ite (fun _ ↦ keeps_free h hc rfl) fun _ ↦ keeps_error

theorem keeps_resStatusCode (h : c.Small) (hc : c.state = .resStatusCode) :
    Keeps (resStatusCode c ch) := by
  refine keeps_ite (fun _ ↦ ?_) fun _ ↦ ?_
  · refine keeps_ite (fun _ ↦ keeps_goto_free h rfl) fun _ ↦ ?_
    refine keeps_ite (fun _ ↦ keeps_goto_free h rfl) fun _ ↦ ?_
    exact keeps_ite (fun _ ↦ keeps_goto_free h rfl) fun _ ↦ keeps_error
  · exact keeps_ite (fun _ ↦ keeps_error) fun _ ↦ keeps_free ⟨h.nread_le, h.index_lt⟩ hc rfl

theorem keeps_startReqOrRes (h : c.Small) (hc : c.state = .startReqOrRes) :
    Keeps (startReqOrRes c ch) := by
  have hbegin : c.begin.Small := ⟨h.nread_le, h.index_lt⟩
  refine keeps_ite (fun _ ↦ keeps_free h hc rfl) fun _ ↦ keeps_callback2 ?_
  refine keeps_ite (fun _ ↦ keeps_goto_free hbegin rfl) fun _ ↦ ?_
  exact keeps_startReqMethodAssign ⟨h.nread_le, h.index_lt⟩

theorem keeps_resOrRespH (h : c.Small) : Keeps (resOrRespH c ch) := by
  refine keeps_ite (fun _ ↦ keeps_free ⟨h.nread_le, h.index_lt⟩ rfl rfl) fun _ ↦ ?_
  refine keeps_ite (fun _ ↦ keeps_error) fun _ ↦ ?_
  exact keeps_next ⟨h.nread_le, show 2 < 2 ^ 8 by decide⟩
    (show 2 ≤ Method.head.bytes.length + 1 by decide)

theorem keeps_startRes (h : c.Small) (hc : c.state = .startRes) : Keeps (startRes c ch) := by
  have hbegin : c.begin.Small := ⟨h.nread_le, h.index_lt⟩
  refine keeps_callback2 (keeps_ite (fun _ ↦ keeps_goto_free hbegin rfl) fun _ ↦ ?_)
  exact keeps_ite (fun _ ↦ keeps_free hbegin hc rfl) fun _ ↦ keeps_error

theorem keeps_startReq (h : c.Small) (hc : c.state = .startReq) : Keeps (startReq c ch) := by
  refine keeps_ite (fun _ ↦ keeps_free h hc rfl) fun _ ↦ keeps_callback2 ?_
  refine keeps_ite (fun _ ↦ keeps_error) fun _ ↦ ?_
  exact keeps_startReqMethodAssign ⟨h.nread_le, h.index_lt⟩

/-- A method with more than one name is told apart before the end of each of them. -/
theorem Method.index_lt_of_next {m m' : Method} {index : ℕ} (h : m.next index ch = some m')
    (hm : m' ≠ m) : index + 1 ≤ m'.bytes.length := by
  unfold Method.next at h
  split_ifs at h <;> cases h
  all_goals first
    | exact absurd rfl hm
    | (rename_i hi
       obtain ⟨rfl, -⟩ := hi
       decide)

theorem Method.length_le (m : Method) : m.bytes.length ≤ 11 := by
  cases m <;> decide

theorem Method.index_le_of_matcher {m : Method} {index : ℕ} {b : UInt8}
    (h : m.matcher index = some b) : index ≤ m.bytes.length := by
  obtain ⟨hlt, -⟩ := List.getElem?_eq_some_iff.mp h
  simpa [Nat.lt_succ_iff] using hlt

theorem keeps_reqMethod (h : c.Small) (hc : c.state = .reqMethod) : Keeps (reqMethod c ch) := by
  have hfits : ∀ {c : Parser}, c.state = .reqMethod → c.index ≤ c.method.bytes.length + 1 →
      c.Fits := by
    intro c hc hi
    rwa [Parser.Fits, hc]
  refine keeps_ite (fun _ ↦ keeps_error) fun _ ↦ ?_
  rcases hm : c.method.matcher c.index with _ | b
  · exact ⟨by decide, by simp⟩
  · have hi := Method.index_le_of_matcher hm
    have hsmall : c.index + 1 < 2 ^ 8 := by
      have := c.method.length_le
      omega
    refine keeps_ite (fun _ ↦ keeps_free ⟨h.nread_le, hsmall⟩ rfl rfl) fun _ ↦ ?_
    refine keeps_ite (fun _ ↦ keeps_next ⟨h.nread_le, hsmall⟩ ?_) fun _ ↦ ?_
    · exact hfits hc (Nat.succ_le_succ hi)
    rcases hn : c.method.next c.index ch with _ | m
    · exact keeps_error
    · refine keeps_next ⟨h.nread_le, hsmall⟩ (hfits hc ?_)
      rcases eq_or_ne m c.method with rfl | hne
      · exact Nat.succ_le_succ hi
      · exact Nat.le_succ_of_le (Method.index_lt_of_next hn hne)

/-! ## The URL -/

theorem keeps_urlEnd {ds : List Kind} {other : Step} (h : c.Small) (ho : Keeps other) :
    Keeps (urlEnd ds c ch other) := by
  refine keeps_ite (fun _ ↦ keeps_callbacks (keeps_goto_free h rfl)) fun _ ↦ ?_
  refine keeps_ite (fun _ ↦ keeps_callbacks ?_) fun _ ↦ keeps_ite (fun _ ↦ keeps_callbacks ?_)
    fun _ ↦ ho
  · exact keeps_free ⟨h.nread_le, h.index_lt⟩ rfl rfl
  · exact keeps_free ⟨h.nread_le, h.index_lt⟩ rfl rfl

theorem keeps_reqSpacesBeforeUrl (h : c.Small) (hc : c.state = .reqSpacesBeforeUrl) :
    Keeps (reqSpacesBeforeUrl c ch) := by
  refine keeps_ite (fun _ ↦ keeps_free h hc rfl) fun _ ↦ ?_
  refine keeps_ite (fun _ ↦ keeps_mark (keeps_mark (keeps_goto_free h rfl))) fun _ ↦ ?_
  exact keeps_ite (fun _ ↦ keeps_mark (keeps_goto_free h rfl)) fun _ ↦ keeps_error

theorem keeps_reqSchema (h : c.Small) (hc : c.state = .reqSchema) : Keeps (reqSchema c ch) := by
  refine keeps_ite (fun _ ↦ keeps_free h hc rfl) fun _ ↦ ?_
  repeat' refine keeps_ite (fun _ ↦ keeps_goto_free h rfl) fun _ ↦ ?_
  exact keeps_error

theorem keeps_authorityEnd (h : c.Small) : Keeps (authorityEnd c ch (error c)) := by
  refine keeps_ite (fun _ ↦ keeps_mark (keeps_goto_free h rfl)) fun _ ↦ ?_
  exact keeps_ite (fun _ ↦ keeps_callback (keeps_goto_free h rfl)) fun _ ↦ keeps_error

theorem keeps_reqHost (h : c.Small) (hc : c.state = .reqHost) : Keeps (reqHost c ch) := by
  refine keeps_ite (fun _ ↦ keeps_free h hc rfl) fun _ ↦ ?_
  refine keeps_ite (fun _ ↦ keeps_free h hc rfl) fun _ ↦ ?_
  exact keeps_ite (fun _ ↦ keeps_goto_free h rfl) fun _ ↦ keeps_authorityEnd h

theorem keeps_reqPort (h : c.Small) (hc : c.state = .reqPort) : Keeps (reqPort c ch) :=
  keeps_ite (fun _ ↦ keeps_free h hc rfl) fun _ ↦ keeps_authorityEnd h

theorem keeps_reqPath (h : c.Small) (hc : c.state = .reqPath) : Keeps (reqPath c ch) := by
  refine keeps_ite (fun _ ↦ keeps_free h hc rfl) fun _ ↦ keeps_urlEnd h ?_
  refine keeps_ite (fun _ ↦ keeps_callback (keeps_goto_free h rfl)) fun _ ↦ ?_
  exact keeps_ite (fun _ ↦ keeps_callback (keeps_goto_free h rfl)) fun _ ↦ keeps_error

theorem keeps_reqQueryStringStart (h : c.Small) (hc : c.state = .reqQueryStringStart) :
    Keeps (reqQueryStringStart c ch) := by
  refine keeps_ite (fun _ ↦ keeps_mark (keeps_goto_free h rfl)) fun _ ↦ keeps_urlEnd h ?_
  refine keeps_ite (fun _ ↦ keeps_free h hc rfl) fun _ ↦ ?_
  exact keeps_ite (fun _ ↦ keeps_goto_free h rfl) fun _ ↦ keeps_error

theorem keeps_reqQueryString (h : c.Small) (hc : c.state = .reqQueryString) :
    Keeps (reqQueryString c ch) := by
  refine keeps_ite (fun _ ↦ keeps_free h hc rfl) fun _ ↦ keeps_urlEnd h ?_
  refine keeps_ite (fun _ ↦ keeps_free h hc rfl) fun _ ↦ ?_
  exact keeps_ite (fun _ ↦ keeps_callback (keeps_goto_free h rfl)) fun _ ↦ keeps_error

theorem keeps_reqFragmentStart (h : c.Small) (hc : c.state = .reqFragmentStart) :
    Keeps (reqFragmentStart c ch) := by
  refine keeps_ite (fun _ ↦ keeps_mark (keeps_goto_free h rfl)) fun _ ↦ keeps_urlEnd h ?_
  refine keeps_ite (fun _ ↦ keeps_mark (keeps_goto_free h rfl)) fun _ ↦ ?_
  exact keeps_ite (fun _ ↦ keeps_free h hc rfl) fun _ ↦ keeps_error

theorem keeps_reqFragment (h : c.Small) (hc : c.state = .reqFragment) :
    Keeps (reqFragment c ch) := by
  refine keeps_ite (fun _ ↦ keeps_free h hc rfl) fun _ ↦ keeps_urlEnd h ?_
  exact keeps_ite (fun _ ↦ keeps_free h hc rfl) fun _ ↦ keeps_error

theorem keeps_reqHttpStart (h : c.Small) (hc : c.state = .reqHttpStart) :
    Keeps (reqHttpStart c ch) := by
  refine keeps_ite (fun _ ↦ keeps_goto_free h rfl) fun _ ↦ ?_
  exact keeps_ite (fun _ ↦ keeps_free h hc rfl) fun _ ↦ keeps_error

/-! ## Headers -/

/-- A word that is matched byte by byte: it goes on, ends or fails. -/
theorem matchWord_cases (word : String) (found : HeaderState) (b : UInt8)
    (h : c.index + 1 < word.length) :
    matchWord word found c b = { c with index := c.index + 1, headerState := .general } ∨
    matchWord word found c b = { c with index := c.index + 1, headerState := found } ∨
    matchWord word found c b = { c with index := c.index + 1 } ∧ c.index + 2 < word.length := by
  rw [matchWord]
  split_ifs with h₁ h₂
  · exact .inl rfl
  · exact .inr (.inl rfl)
  · exact .inr (.inr ⟨rfl, by omega⟩)

theorem keeps_headersCompleted (h : c.Small) : Keeps (headersCompleted strict c) := by
  refine keeps_ite (fun _ ↦ keeps_callback2 ⟨by decide, by simp⟩) fun _ ↦ ?_
  refine keeps_ite (fun _ ↦ keeps_complete h) fun _ ↦ keeps_ite (fun hc ↦ keeps_goto h hc)
    fun _ ↦ ?_
  refine keeps_ite (fun _ ↦ keeps_complete h) fun _ ↦ keeps_ite (fun _ ↦ keeps_goto_free h rfl)
    fun _ ↦ ?_
  exact keeps_ite (fun _ ↦ keeps_complete h) fun _ ↦ keeps_goto_free h rfl

theorem keeps_headersAlmostDone (h : c.Small) (hc : c.state = .headersAlmostDone) :
    Keeps (headersAlmostDone strict ch c) := by
  refine keeps_strictCheck (keeps_ite (fun _ ↦ keeps_complete h) fun _ ↦ ?_)
  have hsmall : Parser.Small
      (if c.flags.upgrade ∨ c.method = .connect then { c with nread := 0, upgrade := true }
      else { c with nread := 0 }) := by
    split_ifs <;> exact ⟨Nat.zero_le _, h.index_lt⟩
  have hstate : Parser.state
      (if c.flags.upgrade ∨ c.method = .connect then { c with nread := 0, upgrade := true }
      else { c with nread := 0 }) = .headersAlmostDone := by
    split_ifs <;> exact hc
  intro r
  refine keeps_ite (fun _ ↦ keeps_headersCompleted hsmall) fun _ ↦ keeps_ite (fun _ ↦ ?_) fun _ ↦ ?_
  · exact keeps_headersCompleted ⟨hsmall.nread_le, hsmall.index_lt⟩
  · exact ⟨by decide, fun _ ↦ hstate⟩

theorem keeps_headerFieldStart (h : c.Small) :
    Keeps (headerFieldStart c ch (headersAlmostDone strict ch)) := by
  have hstart : ∀ s : HeaderState, s.InName 0 → Keeps (.mark .headerField
      (.next { c with index := 0, state := .headerField, headerState := s })) :=
    fun s hs ↦ keeps_mark (keeps_next ⟨h.nread_le, show 0 < 2 ^ 8 by decide⟩ hs)
  refine keeps_ite (fun _ ↦ keeps_goto_free h rfl) fun _ ↦ ?_
  refine keeps_ite (fun _ ↦ keeps_headersAlmostDone ⟨h.nread_le, h.index_lt⟩ rfl) fun _ ↦ ?_
  refine keeps_ite (fun _ ↦ keeps_error) fun _ ↦ ?_
  refine keeps_ite (fun _ ↦ hstart _ rfl) fun _ ↦ keeps_ite (fun _ ↦ hstart _ ?_) fun _ ↦ ?_
  · exact show 0 + 1 < "proxy-connection".length by decide
  refine keeps_ite (fun _ ↦ hstart _ ?_) fun _ ↦ keeps_ite (fun _ ↦ hstart _ ?_) fun _ ↦ ?_
  · exact show 0 + 1 < "transfer-encoding".length by decide
  · exact show 0 + 1 < "upgrade".length by decide
  · exact hstart _ trivial

/-- A word of a name goes on as a name. -/
theorem keeps_matchWord_name {word : String} {found : HeaderState} (h : c.Small)
    (hc : c.state = .headerField) (hw : c.index + 1 < word.length) (hlen : word.length < 2 ^ 8)
    (hfound : ∀ i, found.InName i)
    (hgo : c.index + 2 < word.length → c.headerState.InName (c.index + 1)) (b : UInt8) :
    Keeps (.next (matchWord word found c b)) := by
  have hfits : ∀ {c : Parser}, c.state = .headerField → c.headerState.InName c.index → c.Fits := by
    intro c hc hi
    rwa [Parser.Fits, hc]
  have hsmall : c.index + 1 < 2 ^ 8 := by omega
  rcases matchWord_cases word found b hw with heq | heq | ⟨heq, hlt⟩ <;> rw [heq]
  · exact keeps_next ⟨h.nread_le, hsmall⟩ (hfits hc trivial)
  · exact keeps_next ⟨h.nread_le, hsmall⟩ (hfits hc (hfound _))
  · exact keeps_next ⟨h.nread_le, hsmall⟩ (hfits hc (hgo hlt))

theorem keeps_headerName (h : c.Sound) (hc : c.state = .headerField) : Keeps (headerName c ch) := by
  have hfits : ∀ {c : Parser}, c.state = .headerField → c.headerState.InName c.index → c.Fits := by
    intro c hc hi
    rwa [Parser.Fits, hc]
  have hin : c.headerState.InName c.index := by
    have hf := h.fits
    rwa [Parser.Fits, hc] at hf
  have hprefix : ∀ s, s.InName (c.index + 1) → c.index < 3 → Keeps (nextPrefix c s) := by
    intro s hs hi
    have hsmall : c.index + 1 < 2 ^ 8 := by omega
    exact keeps_next ⟨h.nread_le, hsmall⟩ (hfits hc hs)
  have hsame : ∀ s, s.InName c.index → Keeps (.next { c with headerState := s }) :=
    fun s hs ↦ keeps_next ⟨h.nread_le, h.index_lt⟩ (hfits hc hs)
  have hword : ∀ {word found}, c.index + 1 < word.length → word.length < 2 ^ 8 →
      (∀ i, found.InName i) → (c.index + 2 < word.length → c.headerState.InName (c.index + 1)) →
        Keeps (.next (matchWord word found c (token ch))) :=
    fun hw hlen hfound hgo ↦ keeps_matchWord_name h.toSmall hc hw hlen hfound hgo _
  unfold headerName
  cases hs : c.headerState with
  | general => exact hsame _ (hs ▸ trivial)
  | c =>
    have hi : c.index = 0 := by rwa [hs] at hin
    refine hprefix _ ?_ (by omega)
    split_ifs
    · exact congrArg Nat.succ hi
    · trivial
  | co =>
    have hi : c.index = 1 := by rwa [hs] at hin
    refine hprefix _ ?_ (by omega)
    split_ifs
    · exact congrArg Nat.succ hi
    · trivial
  | con =>
    have hi : c.index = 2 := by rwa [hs] at hin
    refine hprefix _ ?_ (by omega)
    split_ifs
    · exact show c.index + 1 + 1 < "connection".length by rw [hi]; decide
    · exact show c.index + 1 + 1 < "content-length".length by rw [hi]; decide
    · trivial
  | matchingConnection | matchingProxyConnection | matchingContentLength
  | matchingTransferEncoding | matchingUpgrade =>
    rw [hs] at hin
    exact hword hin (by decide) (fun _ ↦ trivial) fun hlt ↦ hs ▸ hlt
  | connection | contentLength | transferEncoding | upgrade =>
    exact keeps_ite (fun _ ↦ hsame _ trivial) fun _ ↦ hsame _ hin
  | _ =>
    rw [hs] at hin
    exact hin.elim

theorem keeps_headerField (h : c.Sound) (hc : c.state = .headerField) :
    Keeps (headerField c ch) := by
  refine keeps_ite (fun _ ↦ keeps_headerName h hc) fun _ ↦ ?_
  refine keeps_ite (fun _ ↦ keeps_callback (keeps_goto_free h.toSmall rfl)) fun _ ↦ ?_
  refine keeps_ite (fun _ ↦ keeps_callback ?_) fun _ ↦ ?_
  · exact keeps_free ⟨h.nread_le, h.index_lt⟩ rfl rfl
  · exact keeps_ite (fun _ ↦ keeps_callback (keeps_goto_free h.toSmall rfl)) fun _ ↦ keeps_error

theorem keeps_headerValueStart (h : c.Small) (hc : c.state = .headerValueStart) :
    Keeps (headerValueStart c ch) := by
  have hvalue : ∀ {c' : Parser}, c'.nread ≤ maxHeaderSize → c'.index = 0 →
      c'.state = .headerValue → c'.headerState.InValue 0 → Keeps (.next c') := by
    intro c' hn hi hs hin
    refine keeps_next ⟨hn, by rw [hi]; decide⟩ ?_
    rw [Parser.Fits, hs]
    exact hi ▸ hin
  refine keeps_ite (fun _ ↦ keeps_free h hc rfl) fun _ ↦ keeps_mark ?_
  have hzero : 0 < 2 ^ 8 := by decide
  refine keeps_ite (fun _ ↦ keeps_callback (keeps_free ⟨h.nread_le, hzero⟩ rfl rfl)) fun _ ↦ ?_
  refine keeps_ite (fun _ ↦ keeps_callback (keeps_goto_free ⟨h.nread_le, hzero⟩ rfl)) fun _ ↦ ?_
  dsimp only
  split
  · exact hvalue h.nread_le rfl rfl trivial
  · refine keeps_ite (fun _ ↦ hvalue h.nread_le rfl rfl ?_)
      fun _ ↦ hvalue h.nread_le rfl rfl trivial
    exact show 0 + 1 < "chunked".length by decide
  · refine keeps_ite (fun _ ↦ keeps_error) fun _ ↦ hvalue h.nread_le rfl rfl ?_
    simp only [*]
    trivial
  · refine keeps_ite (fun _ ↦ hvalue h.nread_le rfl rfl ?_) fun _ ↦ ?_
    · exact show 0 + 1 < "keep-alive".length by decide
    refine keeps_ite (fun _ ↦ hvalue h.nread_le rfl rfl ?_)
      fun _ ↦ hvalue h.nread_le rfl rfl trivial
    exact show 0 + 1 < "close".length by decide
  · exact hvalue h.nread_le rfl rfl trivial

theorem keeps_headerAlmostDone (h : c.Small) : Keeps (headerAlmostDone strict c ch) := by
  refine keeps_strictCheck ?_
  dsimp only
  split <;> exact keeps_free ⟨h.nread_le, h.index_lt⟩ rfl rfl

theorem keeps_headerValue (h : c.Sound) (hc : c.state = .headerValue) :
    Keeps (headerValue strict c ch) := by
  have hfits : ∀ {c : Parser}, c.state = .headerValue → c.headerState.InValue c.index → c.Fits := by
    intro c hc hi
    rwa [Parser.Fits, hc]
  have hin : c.headerState.InValue c.index := by
    have hf := h.fits
    rwa [Parser.Fits, hc] at hf
  have hsame : ∀ s, s.InValue c.index → Keeps (.next { c with headerState := s }) :=
    fun s hs ↦ keeps_next ⟨h.nread_le, h.index_lt⟩ (hfits hc hs)
  have hword : ∀ {word found}, c.index + 1 < word.length → word.length < 2 ^ 8 →
      (∀ i, found.InValue i) → (c.index + 2 < word.length → c.headerState.InValue (c.index + 1)) →
        Keeps (.next (matchWord word found c (lower ch))) := by
    intro word found hw hlen hfound hgo
    have hsmall : c.index + 1 < 2 ^ 8 := by omega
    rcases matchWord_cases word found (lower ch) hw with heq | heq | ⟨heq, hlt⟩ <;> rw [heq]
    · exact keeps_next ⟨h.nread_le, hsmall⟩ (hfits hc trivial)
    · exact keeps_next ⟨h.nread_le, hsmall⟩ (hfits hc (hfound _))
    · exact keeps_next ⟨h.nread_le, hsmall⟩ (hfits hc (hgo hlt))
  refine keeps_ite (fun _ ↦ keeps_callback (keeps_goto_free h.toSmall rfl)) fun _ ↦ ?_
  refine keeps_ite (fun _ ↦ keeps_callback (keeps_headerAlmostDone h.toSmall)) fun _ ↦ ?_
  cases hs : c.headerState with
  | general => exact hsame _ (hs ▸ trivial)
  | contentLength =>
    refine keeps_ite (fun _ ↦ hsame _ hin) fun _ ↦ keeps_ite (fun _ ↦ keeps_error) fun _ ↦ ?_
    exact keeps_next ⟨h.nread_le, h.index_lt⟩ (hfits hc trivial)
  | matchingTransferEncodingChunked | matchingConnectionKeepAlive | matchingConnectionClose =>
    rw [hs] at hin
    exact hword hin (by decide) (fun _ ↦ trivial) fun hlt ↦ hs ▸ hlt
  | transferEncodingChunked | connectionKeepAlive | connectionClose =>
    exact keeps_ite (fun _ ↦ hsame _ trivial) fun _ ↦ hsame _ hin
  | _ =>
    rw [hs] at hin
    exact hin.elim

/-! ## Bodies -/

theorem keeps_body {l : ℕ} {rest : Step} (h : Keeps rest) : Keeps (.body l rest) := h

theorem keeps_bodyIdentity (h : c.Small) (hc : c.state = .bodyIdentity) :
    Keeps (bodyIdentity strict c n) := by
  refine keeps_ite (fun _ ↦ keeps_body ?_) fun _ ↦ keeps_free h hc rfl
  refine keeps_ite (fun _ ↦ keeps_complete ⟨h.nread_le, h.index_lt⟩) fun _ ↦ ?_
  exact keeps_free ⟨h.nread_le, h.index_lt⟩ hc rfl

theorem keeps_assertChunked {rest : Step} (hf : c.flags.chunked) (h : Keeps rest) :
    Keeps (assertChunked c rest) := keeps_ite (fun _ ↦ h) fun hn ↦ absurd hf hn

theorem keeps_chunkSizeStart (h : c.Small) (hf : c.flags.chunked) : Keeps (chunkSizeStart c ch) :=
  keeps_ite (fun _ ↦ keeps_error) fun _ ↦ keeps_next ⟨h.nread_le, h.index_lt⟩ hf

theorem keeps_chunkSize (h : c.Small) (hf : c.flags.chunked) (hc : c.state = .chunkSize) :
    Keeps (chunkSize c ch) := by
  refine keeps_ite (fun _ ↦ keeps_goto h hf) fun _ ↦ keeps_ite (fun _ ↦ ?_) fun _ ↦ ?_
  · exact keeps_ite (fun _ ↦ keeps_goto h hf) fun _ ↦ keeps_error
  · refine keeps_next ⟨h.nread_le, h.index_lt⟩ ?_
    rw [Parser.Fits, hc]
    exact hf

theorem keeps_chunkSizeAlmostDone (h : c.Small) (hf : c.flags.chunked) :
    Keeps (chunkSizeAlmostDone c) :=
  keeps_ite (fun _ ↦ keeps_free ⟨h.nread_le, h.index_lt⟩ rfl rfl) fun _ ↦ keeps_goto h hf

theorem keeps_chunkData (h : c.Small) (hf : c.flags.chunked) (hc : c.state = .chunkData) :
    Keeps (chunkData c n) := by
  have hnext : Keeps (.next { c with
      state := if min (n : ℤ) c.contentLength = c.contentLength then .chunkDataAlmostDone
        else c.state
      contentLength := c.contentLength - min (n : ℤ) c.contentLength }) := by
    refine keeps_next ⟨h.nread_le, h.index_lt⟩ ?_
    rw [hc]
    by_cases hd : min (n : ℤ) c.contentLength = c.contentLength
    · simpa only [Parser.Fits, if_pos hd] using hf
    · simpa only [Parser.Fits, if_neg hd] using hf
  exact keeps_ite (fun _ ↦ keeps_body hnext) fun _ ↦ hnext

/-! ## The loop -/

theorem keeps_switch (strict : Bool) (h : c.Sound) (ch : UInt8) (n : ℕ) :
    Keeps (switch strict c ch n) := by
  have hs := h.toSmall
  have hstrict : ∀ {b s}, s.Free → Keeps (strictCheck strict ch b c (goto c s)) :=
    fun hf ↦ keeps_strictCheck (keeps_goto_free hs hf)
  have hf := h.fits
  unfold switch
  unfold Parser.Fits at hf
  cases hc : c.state with
  | dead => exact keeps_error
  | startReqOrRes => exact keeps_startReqOrRes hs hc
  | resOrRespH => exact keeps_resOrRespH hs
  | startRes => exact keeps_startRes hs hc
  | resH | resHT | resHTT | resHTTP | resLineAlmostDone | reqHttpH | reqHttpHT | reqHttpHTT
  | reqHttpHTTP | reqSchemaSlash | reqSchemaSlashSlash => exact hstrict rfl
  | resFirstHttpMajor | reqFirstHttpMajor => exact keeps_firstHttpMajor hs rfl
  | resHttpMajor | reqHttpMajor => exact keeps_httpMajor hs hc rfl rfl
  | resFirstHttpMinor | reqFirstHttpMinor => exact keeps_firstHttpMinor hs rfl
  | resHttpMinor =>
    exact keeps_ite (fun _ ↦ keeps_goto_free hs rfl) fun _ ↦ keeps_httpMinor hs hc rfl
  | resFirstStatusCode => exact keeps_resFirstStatusCode hs hc
  | resStatusCode => exact keeps_resStatusCode hs hc
  | resStatus =>
    refine keeps_ite (fun _ ↦ keeps_goto_free hs rfl) fun _ ↦ ?_
    exact keeps_ite (fun _ ↦ keeps_goto_free hs rfl) fun _ ↦ keeps_free hs hc rfl
  | startReq => exact keeps_startReq hs hc
  | reqMethod => exact keeps_reqMethod hs hc
  | reqSpacesBeforeUrl => exact keeps_reqSpacesBeforeUrl hs hc
  | reqSchema => exact keeps_reqSchema hs hc
  | reqHost => exact keeps_reqHost hs hc
  | reqPort => exact keeps_reqPort hs hc
  | reqPath => exact keeps_reqPath hs hc
  | reqQueryStringStart => exact keeps_reqQueryStringStart hs hc
  | reqQueryString => exact keeps_reqQueryString hs hc
  | reqFragmentStart => exact keeps_reqFragmentStart hs hc
  | reqFragment => exact keeps_reqFragment hs hc
  | reqHttpStart => exact keeps_reqHttpStart hs hc
  | reqHttpMinor =>
    refine keeps_ite (fun _ ↦ keeps_goto_free hs rfl) fun _ ↦ ?_
    exact keeps_ite (fun _ ↦ keeps_goto_free hs rfl) fun _ ↦ keeps_httpMinor hs hc rfl
  | reqLineAlmostDone => exact keeps_ite (fun _ ↦ keeps_error) fun _ ↦ keeps_goto_free hs rfl
  | headerFieldStart => exact keeps_headerFieldStart hs
  | headerField => exact keeps_headerField h hc
  | headerValueStart => exact keeps_headerValueStart hs hc
  | headerValue => exact keeps_headerValue h hc
  | headerAlmostDone => exact keeps_headerAlmostDone hs
  | headersAlmostDone => exact keeps_headersAlmostDone hs hc
  | bodyIdentity => exact keeps_bodyIdentity hs hc
  | bodyIdentityEof =>
    exact keeps_ite (fun _ ↦ keeps_body (keeps_free hs hc rfl)) fun _ ↦ keeps_free hs hc rfl
  | chunkSizeStart =>
    rw [hc] at hf
    exact keeps_assertChunked hf (keeps_chunkSizeStart hs hf)
  | chunkSize =>
    rw [hc] at hf
    exact keeps_assertChunked hf (keeps_chunkSize hs hf hc)
  | chunkParameters =>
    rw [hc] at hf
    refine keeps_assertChunked hf (keeps_ite (fun _ ↦ keeps_goto hs hf) fun _ ↦ ?_)
    exact keeps_next hs h.fits
  | chunkSizeAlmostDone =>
    rw [hc] at hf
    exact keeps_assertChunked hf (keeps_strictCheck (keeps_chunkSizeAlmostDone hs hf))
  | chunkData =>
    rw [hc] at hf
    exact keeps_assertChunked hf (keeps_chunkData hs hf hc)
  | chunkDataAlmostDone | chunkDataDone =>
    rw [hc] at hf
    exact keeps_assertChunked hf (keeps_strictCheck (keeps_goto hs hf))

theorem Parser.Sound.count (h : c.Sound) (hle : c.nread + 1 ≤ maxHeaderSize) :
    Parser.Sound { c with nread := c.nread + 1 } := ⟨⟨hle, h.index_lt⟩, h.fits⟩

/-- **One byte** keeps a parser sound. -/
theorem keeps_step (strict : Bool) (h : c.Sound) (ch : UInt8) (n : ℕ) :
    Keeps (step strict c ch n) := by
  refine keeps_ite (fun _ ↦ keeps_ite (fun _ ↦ keeps_error) fun hn ↦ ?_) fun _ ↦ ?_
  · exact keeps_switch strict (h.count (not_lt.mp hn)) ch n
  · exact keeps_switch strict h ch n

end

end SpiderNode.HttpParser
