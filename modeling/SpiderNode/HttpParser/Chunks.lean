import SpiderNode.HttpParser.Execute
import SpiderNode.Machine.Chunking

/-!
# The parser does not see where its input is cut

`lawful` is that the parser obeys the laws of a scanner: the marks that a chunk begins with are
those of the texts that are open in its state, and nothing else is handed over in the middle of a
text.
-/

namespace SpiderNode.HttpParser

open Scanner (Code)

/-- The reasons for which the loop is left outside of a text. -/
def Exit.Between (r : Exit) : Prop := r ≠ .error ∧ r ≠ .assertion

instance (r : Exit) : Decidable r.Between := inferInstanceAs (Decidable (_ ∧ _))

/-- A part of the URL. -/
def Kind.IsPart : Kind → Bool
  | path | queryString | fragment => true
  | _ => false

/-- The texts that may be open together: the URL and one of its parts. -/
def Kind.Beside (d d' : Kind) : Prop := d = .url ∧ d'.IsPart ∨ d' = .url ∧ d.IsPart

instance (d d' : Kind) : Decidable (d.Beside d') :=
  inferInstanceAs (Decidable (_ ∧ _ ∨ _ ∧ _))

/-! ## Marks -/

/-- With the texts in `S` open and `n` bytes left, the step leaves open what its next state says,
and reads no further than these bytes. -/
def Marks (S : Finset Kind) (n : ℕ) (k : Step) : Prop :=
  k.Marked (fun c ↦ opens c.state) Exit.Between Kind.Beside S ∧ k.Fits n

section

variable {S : Finset Kind} {n : ℕ} {c : Parser} {ch : UInt8} {strict : Bool}

theorem marks_next (h : S = opens c.state) : Marks S n (.next c) := ⟨h, trivial⟩

theorem marks_goto {s : State} (h : S = opens s) : Marks S n (goto c s) := ⟨h, trivial⟩

theorem marks_error : Marks S n (error c) := ⟨fun h ↦ absurd rfl h.1, trivial⟩

theorem marks_assertion : Marks S n (.stop .assertion c) := ⟨fun h ↦ absurd rfl h.2, trivial⟩

theorem marks_stop (r : Exit) : Marks ∅ n (.stop r c) := ⟨fun _ ↦ rfl, trivial⟩

theorem marks_mark {d : Kind} {rest : Step} (hd : d ∉ S) (h : Marks (insert d S) n rest) :
    Marks S n (.mark d rest) := ⟨⟨hd, h.1⟩, h.2⟩

theorem marks_ite {p : Prop} [Decidable p] {k k' : Step} (h : p → Marks S n k)
    (h' : ¬p → Marks S n k') : Marks S n (if p then k else k') := by
  split_ifs with hp
  · exact h hp
  · exact h' hp

theorem marks_callback {d : Kind} {rest : Step} (hb : ∀ d' ∈ S, d' ≠ d → d.Beside d')
    (h : Marks (S.erase d) n rest) : Marks S n (callback d c rest) := by
  refine ⟨⟨hb, h.1⟩, fun r ↦ ?_⟩
  dsimp only
  split_ifs
  · exact h.2
  · trivial

theorem marks_notify {e : Notice} {rest : ℤ → Step} (h : ∀ r, Marks ∅ n (rest r)) :
    Marks ∅ n (.notify e rest) := ⟨⟨rfl, fun r ↦ (h r).1⟩, fun r ↦ (h r).2⟩

theorem marks_callback2 {e : Message → Notice} {rest : Step} (h : Marks ∅ n rest) :
    Marks ∅ n (callback2 e c rest) :=
  marks_notify fun _ ↦ marks_ite (fun _ ↦ h) fun _ ↦ marks_stop .refused

theorem marks_strictCheck {b : UInt8} {rest : Step} (h : Marks S n rest) :
    Marks S n (strictCheck strict ch b c rest) := marks_ite (fun _ ↦ marks_error) fun _ ↦ h

theorem opens_newMessage : opens (c.newMessage strict) = ∅ := by
  rw [Parser.newMessage, Parser.startState]
  split_ifs <;> rfl

theorem marks_complete : Marks ∅ n (complete strict c) :=
  marks_callback2 (marks_goto opens_newMessage.symm)

/-! ### The first line -/

theorem marks_firstHttpMajor {s : State} (h : opens s = ∅) : Marks ∅ n (firstHttpMajor c ch s) :=
  marks_ite (fun _ ↦ marks_error) fun _ ↦ marks_next h.symm

theorem marks_httpMajor {s : State} (h : opens s = ∅) (hc : opens c.state = ∅) :
    Marks ∅ n (httpMajor c ch s) :=
  marks_ite (fun _ ↦ marks_goto h.symm) fun _ ↦ marks_ite (fun _ ↦ marks_error) fun _ ↦
    marks_ite (fun _ ↦ marks_error) fun _ ↦ marks_next hc.symm

theorem marks_firstHttpMinor {s : State} (h : opens s = ∅) : Marks ∅ n (firstHttpMinor c ch s) :=
  marks_ite (fun _ ↦ marks_error) fun _ ↦ marks_next h.symm

theorem marks_httpMinor (hc : opens c.state = ∅) : Marks ∅ n (httpMinor c ch) :=
  marks_ite (fun _ ↦ marks_error) fun _ ↦ marks_ite (fun _ ↦ marks_error) fun _ ↦
    marks_next hc.symm

theorem marks_resFirstStatusCode (hc : c.state = .resFirstStatusCode) :
    Marks ∅ n (resFirstStatusCode c ch) := by
  refine marks_ite (fun _ ↦ ?_) fun _ ↦ marks_next rfl
  exact marks_ite (fun _ ↦ marks_next (by rw [hc]; rfl)) fun _ ↦ marks_error

theorem marks_resStatusCode (hc : c.state = .resStatusCode) : Marks ∅ n (resStatusCode c ch) := by
  refine marks_ite (fun _ ↦ ?_) fun _ ↦ ?_
  · refine marks_ite (fun _ ↦ marks_goto rfl) fun _ ↦ marks_ite (fun _ ↦ marks_goto rfl) fun _ ↦ ?_
    exact marks_ite (fun _ ↦ marks_goto rfl) fun _ ↦ marks_error
  · exact marks_ite (fun _ ↦ marks_error) fun _ ↦ marks_next (by rw [hc]; rfl)

theorem marks_startReqMethodAssign : Marks ∅ n (startReqMethodAssign c ch) := by
  rw [startReqMethodAssign]
  rcases Method.first ch with _ | m
  · exact marks_error
  · exact marks_next rfl

theorem marks_startReqOrRes (hc : c.state = .startReqOrRes) : Marks ∅ n (startReqOrRes c ch) := by
  refine marks_ite (fun _ ↦ marks_next (by rw [hc]; rfl)) fun _ ↦ marks_callback2 ?_
  exact marks_ite (fun _ ↦ marks_goto rfl) fun _ ↦ marks_startReqMethodAssign

theorem marks_resOrRespH : Marks ∅ n (resOrRespH c ch) :=
  marks_ite (fun _ ↦ marks_next rfl) fun _ ↦ marks_ite (fun _ ↦ marks_error) fun _ ↦ marks_next rfl

theorem marks_startRes (hc : c.state = .startRes) : Marks ∅ n (startRes c ch) := by
  refine marks_callback2 (marks_ite (fun _ ↦ marks_goto rfl) fun _ ↦ ?_)
  exact marks_ite (fun _ ↦ marks_next (by rw [Parser.begin, hc]; rfl)) fun _ ↦ marks_error

theorem marks_startReq (hc : c.state = .startReq) : Marks ∅ n (startReq c ch) := by
  refine marks_ite (fun _ ↦ marks_next (by rw [hc]; rfl)) fun _ ↦ marks_callback2 ?_
  exact marks_ite (fun _ ↦ marks_error) fun _ ↦ marks_startReqMethodAssign

theorem marks_reqMethod (hc : c.state = .reqMethod) : Marks ∅ n (reqMethod c ch) := by
  refine marks_ite (fun _ ↦ marks_error) fun _ ↦ ?_
  rcases c.method.matcher c.index with _ | b
  · exact marks_stop .overread
  · refine marks_ite (fun _ ↦ marks_next rfl) fun _ ↦ ?_
    refine marks_ite (fun _ ↦ marks_next (by rw [hc]; rfl)) fun _ ↦ ?_
    rcases c.method.next c.index ch with _ | m
    · exact marks_error
    · exact marks_next (by rw [hc]; rfl)

/-! ### The URL -/

/-- Two texts that are handed over one after the other. -/
theorem marks_callbacks {ds : List Kind} {rest : Step} (hnd : ds.Nodup)
    (hb : ∀ d ∈ ds, ∀ d' ∈ ds, d' ≠ d → d.Beside d') (h : Marks ∅ n rest) :
    Marks ds.toFinset n (callbacks ds c rest) := by
  induction ds with
  | nil => exact h
  | cons d ds ih =>
    obtain ⟨hd, hnd⟩ := List.nodup_cons.mp hnd
    refine marks_callback (fun d' hd' ↦ hb d (by simp) d' (List.mem_toFinset.mp hd')) ?_
    rw [List.toFinset_cons, Finset.erase_insert (by simpa using hd)]
    exact ih hnd fun e he e' he' ↦ hb e (by simp [he]) e' (by simp [he'])

theorem marks_urlEnd (ds : List Kind) {other : Step} (hnd : (Kind.url :: ds).Nodup)
    (hb : ∀ d ∈ Kind.url :: ds, ∀ d' ∈ Kind.url :: ds, d' ≠ d → d.Beside d')
    (h : Marks (Kind.url :: ds).toFinset n other) :
    Marks (Kind.url :: ds).toFinset n (urlEnd ds c ch other) := by
  refine marks_ite (fun _ ↦ marks_callbacks hnd hb (marks_goto rfl)) fun _ ↦ ?_
  refine marks_ite (fun _ ↦ marks_callbacks hnd hb (marks_next rfl)) fun _ ↦ ?_
  exact marks_ite (fun _ ↦ marks_callbacks hnd hb (marks_next rfl)) fun _ ↦ h

theorem marks_reqSpacesBeforeUrl (hc : c.state = .reqSpacesBeforeUrl) :
    Marks ∅ n (reqSpacesBeforeUrl c ch) := by
  refine marks_ite (fun _ ↦ marks_next (by rw [hc]; rfl)) fun _ ↦ marks_ite (fun _ ↦ ?_) fun _ ↦ ?_
  · exact marks_mark (by decide) (marks_mark (by decide) (marks_goto (by decide)))
  · exact marks_ite (fun _ ↦ marks_mark (by decide) (marks_goto rfl)) fun _ ↦ marks_error

theorem marks_reqSchema (hc : c.state = .reqSchema) : Marks {.url} n (reqSchema c ch) := by
  refine marks_ite (fun _ ↦ marks_next (by rw [hc]; rfl)) fun _ ↦ ?_
  refine marks_ite (fun _ ↦ marks_goto rfl) fun _ ↦ marks_ite (fun _ ↦ marks_goto rfl) fun _ ↦ ?_
  exact marks_ite (fun _ ↦ marks_goto rfl) fun _ ↦ marks_error

theorem marks_authorityEnd {other : Step} (h : Marks {.url} n other) :
    Marks {.url} n (authorityEnd c ch other) := by
  refine marks_ite (fun _ ↦ marks_mark (by decide) (marks_goto (by decide))) fun _ ↦ ?_
  exact marks_ite (fun _ ↦ marks_callback (by decide) (marks_goto rfl)) fun _ ↦ h

theorem marks_reqHost (hc : c.state = .reqHost) : Marks {.url} n (reqHost c ch) := by
  have hnext : Marks {.url} n (.next c) := marks_next (by rw [hc]; rfl)
  refine marks_ite (fun _ ↦ hnext) fun _ ↦ marks_ite (fun _ ↦ hnext) fun _ ↦ ?_
  exact marks_ite (fun _ ↦ marks_goto rfl) fun _ ↦ marks_authorityEnd marks_error

theorem marks_reqPort (hc : c.state = .reqPort) : Marks {.url} n (reqPort c ch) :=
  marks_ite (fun _ ↦ marks_next (by rw [hc]; rfl)) fun _ ↦ marks_authorityEnd marks_error

theorem marks_reqPath (hc : c.state = .reqPath) : Marks {.url, .path} n (reqPath c ch) := by
  refine marks_ite (fun _ ↦ marks_next (by rw [hc]; decide)) fun _ ↦ ?_
  refine marks_urlEnd [.path] (by decide) (by decide) ?_
  refine marks_ite (fun _ ↦ marks_callback (by decide) (marks_goto (by decide))) fun _ ↦ ?_
  exact marks_ite (fun _ ↦ marks_callback (by decide) (marks_goto (by decide))) fun _ ↦ marks_error

theorem marks_reqQueryStringStart (hc : c.state = .reqQueryStringStart) :
    Marks {.url} n (reqQueryStringStart c ch) := by
  refine marks_ite (fun _ ↦ marks_mark (by decide) (marks_goto (by decide))) fun _ ↦ ?_
  refine marks_urlEnd [] (by decide) (by decide) ?_
  refine marks_ite (fun _ ↦ marks_next (by rw [hc]; decide)) fun _ ↦ ?_
  exact marks_ite (fun _ ↦ marks_goto (by decide)) fun _ ↦ marks_error

theorem marks_reqQueryString (hc : c.state = .reqQueryString) :
    Marks {.url, .queryString} n (reqQueryString c ch) := by
  refine marks_ite (fun _ ↦ marks_next (by rw [hc]; decide)) fun _ ↦ ?_
  refine marks_urlEnd [.queryString] (by decide) (by decide) ?_
  refine marks_ite (fun _ ↦ marks_next (by rw [hc]; decide)) fun _ ↦ ?_
  exact marks_ite (fun _ ↦ marks_callback (by decide) (marks_goto (by decide))) fun _ ↦ marks_error

theorem marks_reqFragmentStart (hc : c.state = .reqFragmentStart) :
    Marks {.url} n (reqFragmentStart c ch) := by
  refine marks_ite (fun _ ↦ marks_mark (by decide) (marks_goto (by decide))) fun _ ↦ ?_
  refine marks_urlEnd [] (by decide) (by decide) ?_
  refine marks_ite (fun _ ↦ marks_mark (by decide) (marks_goto (by decide))) fun _ ↦ ?_
  exact marks_ite (fun _ ↦ marks_next (by rw [hc]; decide)) fun _ ↦ marks_error

theorem marks_reqFragment (hc : c.state = .reqFragment) :
    Marks {.url, .fragment} n (reqFragment c ch) := by
  refine marks_ite (fun _ ↦ marks_next (by rw [hc]; decide)) fun _ ↦ ?_
  refine marks_urlEnd [.fragment] (by decide) (by decide) ?_
  exact marks_ite (fun _ ↦ marks_next (by rw [hc]; decide)) fun _ ↦ marks_error

theorem marks_reqHttpStart (hc : c.state = .reqHttpStart) : Marks ∅ n (reqHttpStart c ch) := by
  refine marks_ite (fun _ ↦ marks_goto rfl) fun _ ↦ ?_
  exact marks_ite (fun _ ↦ marks_next (by rw [hc]; rfl)) fun _ ↦ marks_error

/-! ### Headers -/

theorem marks_headersCompleted : Marks ∅ n (headersCompleted strict c) := by
  refine marks_ite (fun _ ↦ marks_callback2 (marks_stop .upgrade)) fun _ ↦ ?_
  refine marks_ite (fun _ ↦ marks_complete) fun _ ↦ marks_ite (fun _ ↦ marks_goto rfl) fun _ ↦ ?_
  refine marks_ite (fun _ ↦ marks_complete) fun _ ↦ marks_ite (fun _ ↦ marks_goto rfl) fun _ ↦ ?_
  exact marks_ite (fun _ ↦ marks_complete) fun _ ↦ marks_goto rfl

theorem marks_headersAlmostDone : Marks ∅ n (headersAlmostDone strict ch c) := by
  refine marks_strictCheck (marks_ite (fun _ ↦ marks_complete) fun _ ↦ marks_notify fun r ↦ ?_)
  refine marks_ite (fun _ ↦ marks_headersCompleted) fun _ ↦ ?_
  exact marks_ite (fun _ ↦ marks_headersCompleted) fun _ ↦ marks_stop .halted

theorem marks_headerFieldStart :
    Marks ∅ n (headerFieldStart c ch (headersAlmostDone strict ch)) := by
  refine marks_ite (fun _ ↦ marks_goto rfl) fun _ ↦ ?_
  refine marks_ite (fun _ ↦ marks_headersAlmostDone) fun _ ↦ marks_ite (fun _ ↦ marks_error)
    fun _ ↦ ?_
  have hmark : ∀ h : HeaderState, Marks ∅ n (.mark .headerField
      (.next { c with index := 0, state := .headerField, headerState := h })) :=
    fun _ ↦ marks_mark (by decide) (marks_next rfl)
  repeat' refine marks_ite (fun _ ↦ hmark _) fun _ ↦ ?_
  exact hmark .general

theorem state_matchWord (word : String) (found : HeaderState) (b : UInt8) :
    (matchWord word found c b).state = c.state := by
  rw [matchWord]
  split_ifs <;> rfl

theorem marks_headerName (hc : c.state = .headerField) :
    Marks {.headerField} n (headerName c ch) := by
  have hword : ∀ word found, Marks {.headerField} n (.next (matchWord word found c (token ch))) :=
    fun word found ↦ marks_next (by rw [state_matchWord, hc]; rfl)
  have hnext : ∀ h, Marks {.headerField} n (nextPrefix c h) := fun h ↦ marks_next (by rw [hc]; rfl)
  have hhere : ∀ h, Marks {.headerField} n (.next { c with headerState := h }) :=
    fun h ↦ marks_next (by rw [hc]; rfl)
  unfold headerName
  split
  all_goals first
    | exact hhere _
    | exact hnext _
    | exact hword _ _
    | exact marks_assertion
    | exact marks_ite (fun _ ↦ hhere _) fun _ ↦ hhere _

theorem marks_headerField (hc : c.state = .headerField) :
    Marks {.headerField} n (headerField c ch) := by
  refine marks_ite (fun _ ↦ marks_headerName hc) fun _ ↦ ?_
  refine marks_ite (fun _ ↦ marks_callback (by decide) (marks_goto rfl)) fun _ ↦ ?_
  refine marks_ite (fun _ ↦ marks_callback (by decide) (marks_next rfl)) fun _ ↦ ?_
  exact marks_ite (fun _ ↦ marks_callback (by decide) (marks_goto rfl)) fun _ ↦ marks_error

theorem marks_headerValueStart (hc : c.state = .headerValueStart) :
    Marks ∅ n (headerValueStart c ch) := by
  refine marks_ite (fun _ ↦ marks_next (by rw [hc]; rfl)) fun _ ↦ marks_mark (by decide) ?_
  refine marks_ite (fun _ ↦ marks_callback (by decide) (marks_next rfl)) fun _ ↦ ?_
  refine marks_ite (fun _ ↦ marks_callback (by decide) (marks_goto rfl)) fun _ ↦ ?_
  split
  · exact marks_next rfl
  · exact marks_ite (fun _ ↦ marks_next rfl) fun _ ↦ marks_next rfl
  · exact marks_ite (fun _ ↦ marks_error) fun _ ↦ marks_next rfl
  · refine marks_ite (fun _ ↦ marks_next rfl) fun _ ↦ ?_
    exact marks_ite (fun _ ↦ marks_next rfl) fun _ ↦ marks_next rfl
  · exact marks_next rfl

theorem marks_headerAlmostDone : Marks ∅ n (headerAlmostDone strict c ch) := by
  refine marks_strictCheck ?_
  dsimp only
  split <;> exact marks_next rfl

theorem marks_headerValue (hc : c.state = .headerValue) :
    Marks {.headerValue} n (headerValue strict c ch) := by
  have hword : ∀ word found, Marks {.headerValue} n (.next (matchWord word found c (lower ch))) :=
    fun word found ↦ marks_next (by rw [state_matchWord, hc]; rfl)
  have hhere : ∀ h, Marks {.headerValue} n (.next { c with headerState := h }) :=
    fun h ↦ marks_next (by rw [hc]; rfl)
  refine marks_ite (fun _ ↦ marks_callback (by decide) (marks_goto rfl)) fun _ ↦ ?_
  refine marks_ite (fun _ ↦ marks_callback (by decide) marks_headerAlmostDone) fun _ ↦ ?_
  split
  case h_4 =>
    refine marks_ite (fun _ ↦ hhere _) fun _ ↦ marks_ite (fun _ ↦ marks_error) fun _ ↦ ?_
    exact marks_next (by rw [hc]; rfl)
  all_goals first
    | exact hhere _
    | exact hword _ _
    | exact marks_assertion
    | exact marks_ite (fun _ ↦ hhere _) fun _ ↦ hhere _

/-! ### Bodies -/

theorem marks_body {l : ℕ} {rest : Step} (hl : 0 < l) (hle : l ≤ n)
    (h : Marks ∅ (n - (l - 1)) rest) : Marks ∅ n (.body l rest) := ⟨⟨rfl, h.1⟩, hl, hle, h.2⟩

theorem marks_bodyIdentity (hc : c.state = .bodyIdentity) :
    Marks ∅ n (bodyIdentity strict c n) := by
  have hnext : ∀ n l, Marks ∅ n (.next { c with contentLength := l }) :=
    fun _ _ ↦ marks_next (by rw [hc]; rfl)
  refine marks_ite (fun hpos ↦ marks_body (by omega) (by omega) ?_) fun _ ↦ hnext n c.contentLength
  exact marks_ite (fun _ ↦ marks_complete) fun _ ↦ hnext _ _

theorem marks_chunkSizeStart : Marks ∅ n (chunkSizeStart c ch) :=
  marks_ite (fun _ ↦ marks_error) fun _ ↦ marks_next rfl

theorem marks_chunkSize (hc : c.state = .chunkSize) : Marks ∅ n (chunkSize c ch) := by
  refine marks_ite (fun _ ↦ marks_goto rfl) fun _ ↦ marks_ite (fun _ ↦ ?_) fun _ ↦ ?_
  · exact marks_ite (fun _ ↦ marks_goto rfl) fun _ ↦ marks_error
  · exact marks_next (by rw [hc]; rfl)

theorem marks_chunkSizeAlmostDone : Marks ∅ n (chunkSizeAlmostDone c) :=
  marks_ite (fun _ ↦ marks_next rfl) fun _ ↦ marks_goto rfl

theorem marks_chunkData (hc : c.state = .chunkData) : Marks ∅ n (chunkData c n) := by
  rw [chunkData]
  have hopens : opens (if min (n : ℤ) c.contentLength = c.contentLength then
      State.chunkDataAlmostDone else c.state) = ∅ := by
    rw [hc]
    split_ifs <;> rfl
  refine marks_ite (fun hpos ↦ marks_body (by omega) (by omega) ?_) fun _ ↦ ?_
  · exact marks_next hopens.symm
  · exact marks_next hopens.symm

theorem marks_assertChunked {rest : Step} (h : Marks ∅ n rest) : Marks ∅ n (assertChunked c rest) :=
  marks_ite (fun _ ↦ h) fun _ ↦ marks_assertion

/-- **Marks.** In every state, the texts that are open are those that a chunk would begin with. -/
theorem marks_switch (strict : Bool) (c : Parser) (ch : UInt8) (n : ℕ) :
    Marks (opens c.state) n (switch strict c ch n) := by
  have hstrict : ∀ {b s}, opens s = ∅ → Marks ∅ n (strictCheck strict ch b c (goto c s)) :=
    fun h ↦ marks_strictCheck (marks_goto h.symm)
  unfold switch
  cases hc : c.state with
  | dead => exact marks_error
  | startReqOrRes => exact marks_startReqOrRes hc
  | resOrRespH => exact marks_resOrRespH
  | startRes => exact marks_startRes hc
  | resH | resHT | resHTT | resHTTP | resLineAlmostDone => exact hstrict rfl
  | resFirstHttpMajor | reqFirstHttpMajor => exact marks_firstHttpMajor rfl
  | resHttpMajor | reqHttpMajor => exact marks_httpMajor rfl (by rw [hc]; rfl)
  | resFirstHttpMinor | reqFirstHttpMinor => exact marks_firstHttpMinor rfl
  | resHttpMinor =>
    exact marks_ite (fun _ ↦ marks_goto rfl) fun _ ↦ marks_httpMinor (by rw [hc]; rfl)
  | resFirstStatusCode => exact marks_resFirstStatusCode hc
  | resStatusCode => exact marks_resStatusCode hc
  | resStatus =>
    refine marks_ite (fun _ ↦ marks_goto rfl) fun _ ↦ marks_ite (fun _ ↦ marks_goto rfl) fun _ ↦ ?_
    exact marks_next (by rw [hc])
  | startReq => exact marks_startReq hc
  | reqMethod => exact marks_reqMethod hc
  | reqSpacesBeforeUrl => exact marks_reqSpacesBeforeUrl hc
  | reqSchema => exact marks_reqSchema hc
  | reqSchemaSlash | reqSchemaSlashSlash => exact marks_strictCheck (marks_goto rfl)
  | reqHost => exact marks_reqHost hc
  | reqPort => exact marks_reqPort hc
  | reqPath => exact marks_reqPath hc
  | reqQueryStringStart => exact marks_reqQueryStringStart hc
  | reqQueryString => exact marks_reqQueryString hc
  | reqFragmentStart => exact marks_reqFragmentStart hc
  | reqFragment => exact marks_reqFragment hc
  | reqHttpStart => exact marks_reqHttpStart hc
  | reqHttpH | reqHttpHT | reqHttpHTT | reqHttpHTTP => exact hstrict rfl
  | reqHttpMinor =>
    refine marks_ite (fun _ ↦ marks_goto rfl) fun _ ↦ marks_ite (fun _ ↦ marks_goto rfl) fun _ ↦ ?_
    exact marks_httpMinor (by rw [hc]; rfl)
  | reqLineAlmostDone => exact marks_ite (fun _ ↦ marks_error) fun _ ↦ marks_goto rfl
  | headerFieldStart => exact marks_headerFieldStart
  | headerField => exact marks_headerField hc
  | headerValueStart => exact marks_headerValueStart hc
  | headerValue => exact marks_headerValue hc
  | headerAlmostDone => exact marks_headerAlmostDone
  | headersAlmostDone => exact marks_headersAlmostDone
  | chunkSizeStart => exact marks_assertChunked marks_chunkSizeStart
  | chunkSize => exact marks_assertChunked (marks_chunkSize hc)
  | chunkSizeAlmostDone =>
    exact marks_assertChunked (marks_strictCheck marks_chunkSizeAlmostDone)
  | chunkParameters =>
    refine marks_assertChunked (marks_ite (fun _ ↦ marks_goto rfl) fun _ ↦ ?_)
    exact marks_next (by rw [hc]; rfl)
  | chunkData => exact marks_assertChunked (marks_chunkData hc)
  | chunkDataAlmostDone | chunkDataDone => exact marks_assertChunked (hstrict rfl)
  | bodyIdentity => exact marks_bodyIdentity hc
  | bodyIdentityEof =>
    have hnext : ∀ n, Marks ∅ n (.next c) := fun _ ↦ marks_next (by rw [hc]; rfl)
    exact marks_ite (fun hpos ↦ marks_body hpos le_rfl (hnext _)) fun _ ↦ hnext n

theorem marks_step (strict : Bool) (c : Parser) (ch : UInt8) (n : ℕ) :
    Marks (opens c.state) n (step strict c ch n) := by
  refine marks_ite (fun _ ↦ marks_ite (fun _ ↦ marks_error) fun _ ↦ ?_) fun _ ↦ ?_
  · exact marks_switch strict { c with nread := c.nread + 1 } ch n
  · exact marks_switch strict c ch n

/-! ## Bodies that go on in the next chunk -/

/-- With `n` more bytes the step does the same, or it hands over more of a body: what it hands over
at the first of these bytes, from `c'` on. -/
def Clips (f : Parser → ℕ → Step) (c c' : Parser) (m n : ℕ) : Prop :=
  f c (m + n) = f c m ∨ f c m = .body m (.next c') ∧ ∃ l rest, 0 < l ∧
    f c' n = .body l rest ∧ f c (m + n) = .body (m + l) rest

/-- The parser when `m` bytes of a body have been handed over. -/
def Parser.handOver (c : Parser) (m : ℕ) : Parser :=
  { c with contentLength := c.contentLength - m }

theorem min_add_sub (m n : ℕ) (l : ℤ) :
    min ((m + n : ℕ) : ℤ) l = m + min (n : ℤ) (l - m) := by omega

theorem clips_bodyIdentity (strict : Bool) {m : ℕ} (hm : 0 < m) (hn : 0 < n) :
    Clips (bodyIdentity strict) c (c.handOver m) m n := by
  rcases le_or_gt c.contentLength m with hle | hlt
  · refine .inl ?_
    rw [bodyIdentity, bodyIdentity, min_eq_right hle, min_eq_right (by push_cast; omega)]
  · have hpos : 0 < min (n : ℤ) (c.contentLength - m) := lt_min (by omega) (by omega)
    refine .inr ⟨?_, (min (n : ℤ) (c.contentLength - m)).toNat, _, by omega, if_pos hpos, ?_⟩
    · rw [bodyIdentity, min_eq_left hlt.le, if_pos (by omega), if_neg (by simp only; omega)]
      rfl
    · have hnat : ((m : ℤ) + min (n : ℤ) (c.contentLength - m)).toNat =
          m + (min (n : ℤ) (c.contentLength - m)).toNat := by omega
      rw [bodyIdentity, min_add_sub, if_pos (by omega), hnat]
      simp only [Parser.handOver, Int.sub_sub]

theorem clips_chunkData {m : ℕ} (hm : 0 < m) (hn : 0 < n) :
    Clips chunkData c (c.handOver m) m n := by
  rcases le_or_gt c.contentLength m with hle | hlt
  · refine .inl ?_
    rw [chunkData, chunkData, min_eq_right hle, min_eq_right (by push_cast; omega)]
  · have hpos : 0 < min (n : ℤ) (c.contentLength - m) := lt_min (by omega) (by omega)
    refine .inr ⟨?_, (min (n : ℤ) (c.contentLength - m)).toNat, _, by omega, if_pos hpos, ?_⟩
    · rw [chunkData, min_eq_left hlt.le, if_pos (by omega), if_neg hlt.ne]
      rfl
    · have hnat : ((m : ℤ) + min (n : ℤ) (c.contentLength - m)).toNat =
          m + (min (n : ℤ) (c.contentLength - m)).toNat := by omega
      have hall : (m : ℤ) + min (n : ℤ) (c.contentLength - m) = c.contentLength ↔
          min (n : ℤ) (c.contentLength - m) = c.contentLength - m := by omega
      have hstate : (if (m : ℤ) + min (n : ℤ) (c.contentLength - m) = c.contentLength then
          State.chunkDataAlmostDone else c.state) =
          if min (n : ℤ) (c.handOver m).contentLength = (c.handOver m).contentLength then
            .chunkDataAlmostDone else c.state := if_congr hall rfl rfl
      rw [chunkData, min_add_sub, if_pos (by omega), hnat, hstate, ← Int.sub_sub]
      rfl

theorem Clips.assertChunked {f : Parser → ℕ → Step} {c' : Parser} {m : ℕ} (h : Clips f c c' m n)
    (hf : c'.flags = c.flags) : Clips (fun c n ↦ assertChunked c (f c n)) c c' m n := by
  rcases hc : c.flags.chunked with _ | _
  · refine .inl ?_
    simp [HttpParser.assertChunked, hc]
  · rcases h with h | ⟨h, l, rest, hl, h', h''⟩
    · refine .inl ?_
      simp [h]
    · refine .inr ⟨?_, l, rest, hl, ?_, ?_⟩ <;> simpa [HttpParser.assertChunked, hf, hc]

/-- Only in the middle of a body the number of bytes matters that are left. -/
theorem switch_eq (strict : Bool) (ch : UInt8) (h₁ : c.state ≠ .bodyIdentity)
    (h₂ : c.state ≠ .bodyIdentityEof)
    (h₃ : c.state ≠ .chunkData) (m n : ℕ) : switch strict c ch m = switch strict c ch n := by
  unfold switch
  split
  all_goals first
    | rfl
    | contradiction

theorem step_of_isHeader {ch : UInt8} (h : c.state.isHeader = false) (n : ℕ) :
    step strict c ch n = switch strict c ch n := if_neg (by simp [h])

/-- The law of a step follows from that of the body it is in the middle of. -/
theorem step_clips_of {f : Parser → ℕ → Step} {c' : Parser} {m : ℕ}
    (hh : c.state.isHeader = false) (hs : c'.state = c.state)
    (hf : ∀ c' ch n, c'.state = c.state → switch strict c' ch n = f c' n) (h : Clips f c c' m n)
    (ch : UInt8) :
    step strict c ch (m + n) = step strict c ch m ∨
      ∃ c', step strict c ch m = .body m (.next c') ∧ ∀ b', ∃ l rest, 0 < l ∧
        step strict c' b' n = .body l rest ∧ step strict c ch (m + n) = .body (m + l) rest := by
  have hstep : ∀ c' ch n, c'.state = c.state → step strict c' ch n = f c' n := by
    intro c' ch n hs'
    rw [step_of_isHeader (by rw [hs', hh]), hf c' ch n hs']
  rcases h with heq | ⟨heq, l, rest, hl, hnext, hall⟩
  · exact .inl (by rw [hstep c ch _ rfl, hstep c ch _ rfl, heq])
  · refine .inr ⟨c', by rw [hstep c ch _ rfl, heq], fun b' ↦ ⟨l, rest, hl, ?_, ?_⟩⟩
    · rw [hstep c' b' _ hs, hnext]
    · rw [hstep c ch _ rfl, hall]

theorem step_clips (strict : Bool) (c : Parser) (ch : UInt8) {m n : ℕ} (hm : 0 < m) (hn : 0 < n) :
    step strict c ch (m + n) = step strict c ch m ∨
      ∃ c', step strict c ch m = .body m (.next c') ∧ ∀ b', ∃ l rest, 0 < l ∧
        step strict c' b' n = .body l rest ∧ step strict c ch (m + n) = .body (m + l) rest := by
  by_cases h₁ : c.state = .bodyIdentity
  · have hclips := clips_bodyIdentity strict (c := c) hm hn
    refine step_clips_of (by rw [h₁]; rfl) (by rfl) (fun c' ch n hc' ↦ ?_) hclips ch
    unfold switch
    rw [hc', h₁]
  by_cases h₂ : c.state = .bodyIdentityEof
  · have hclips : Clips (fun c n ↦ if n > 0 then .body n (.next c) else .next c) c c m n :=
      .inr ⟨if_pos hm, n, .next c, hn, if_pos hn, if_pos (by omega)⟩
    refine step_clips_of (by rw [h₂]; rfl) rfl (fun c' ch n hc' ↦ ?_) hclips ch
    unfold switch
    rw [hc', h₂]
  by_cases h₃ : c.state = .chunkData
  · have hclips := (clips_chunkData (c := c) hm hn).assertChunked rfl
    refine step_clips_of (by rw [h₃]; rfl) (by rfl) (fun c' ch n hc' ↦ ?_) hclips ch
    unfold switch
    rw [hc', h₃]
  · refine .inl ?_
    have hcount := switch_eq strict (c := { c with nread := c.nread + 1 }) ch h₁ h₂ h₃
      (m + n) m
    rw [step, step, switch_eq strict ch h₁ h₂ h₃ (m + n) m]
    simp only [hcount]

theorem beside_of_mem_opens {s : State} {d d' : Kind} (hd : d ∈ opens s) (hd' : d' ∈ opens s)
    (hne : d' ≠ d) : d.Beside d' := by
  have hall : ∀ d ∈ opens s, ∀ d' ∈ opens s, d' ≠ d → d.Beside d' := by
    cases s <;> decide
  exact hall d hd d' hd' hne

/-- **The parser is a lawful scanner.** -/
theorem lawful (strict : Bool) : (scanner strict).Lawful Exit.Between Kind.Beside where
  marked c b n := (marks_step strict c b n).1
  fits c b n _ := (marks_step strict c b n).2
  beside_of_opens hd hd' hne := beside_of_mem_opens hd hd' hne
  mem_order d := by cases d <;> simp [scanner]
  nodup := by simp [scanner]
  clips c b _ _ hm hn := step_clips strict c b hm hn

end

end SpiderNode.HttpParser
