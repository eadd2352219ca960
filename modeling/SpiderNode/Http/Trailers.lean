import SpiderNode.Http.Incoming

/-!
# Headers and trailers

The lines that follow a chunked body go through the callbacks of the header lines, and nothing
happens between them that would tell the two apart. A line is added when the next one begins, and
the object it goes to is chosen at that time: `trailers` if the message is `complete`. But the
message is complete only when all lines have been read, so every trailer line but the last one is
added to `headers`.

`trailers_apart_iff` says when this does no harm: when those lines change nothing anyway.
-/

namespace SpiderNode.Http

open Net (JsError)

/-! ## Whole messages -/

namespace Parser

/-- `onMessageComplete`, up to the event `end`. -/
def onMessageComplete (p : Parser) : Except JsError Parser :=
  let p := { p with incoming.complete := true }
  match p.field, p.value with
  | some (u :: s), some value => do
    let incoming ← p.incoming.addHeaderLine (u :: s) value
    return { p with incoming := incoming }
  | _, _ => .ok p

/-- The callbacks of a message: those of its head, and those of its trailer, with the body between
them. The result is the message when it emits `end`. -/
def message (lower : UInt16 → UInt16) (head trailer : List Callback) :
    Except JsError IncomingMessage := do
  let p ← head.foldlM (step lower) onMessageBegin
  let p ← p.onHeadersComplete
  let p ← trailer.foldlM (step lower) p
  let p ← p.onMessageComplete
  return p.incoming

end Parser

/-- The slices of a line as the parser delivers them: a name has no empty slice, and a value is
delivered even if it is empty. -/
structure Delivered (s : List Bytes × List Bytes) : Prop where
  named : s.1 ≠ []
  names : ∀ b ∈ s.1, b ≠ []
  valued : s.2 ≠ []

/-- Lines added one after the other. -/
def addLines (dest : Headers) (lines : List (JSString × JSString)) : Except JsError Headers :=
  lines.foldlM (fun dest l ↦ addLine dest l.1 l.2) dest

/-- Of several headers of this name only the first one counts. -/
def FirstWins (field : JSString) : Prop :=
  field ∉ arrayHeaders ∧ field ∉ commaHeaders ∧ field.take 2 ≠ js "x-"

instance (field : JSString) : Decidable (FirstWins field) :=
  inferInstanceAs (Decidable (_ ∧ _ ∧ _))

/-- Every trailer line but the last one is without effect wherever it is added: it has a name of
`Object.prototype`, or it repeats a header and, in name and value, the last trailer line. -/
def Redundant (headers trailers : List (JSString × JSString)) : Prop :=
  ∀ l ∈ trailers.dropLast, ∀ last, trailers.getLast? = some last →
    l.1 ∈ objectPrototype ∨
      FirstWins l.1 ∧ l.1 ∈ headers.map Prod.fst ∧ l.1 = last.1 ∧
        (trailers.find? (·.1 = l.1)).map Prod.snd = some last.2

/-! ## Lines that change nothing -/

variable {dest dest' : Headers} {field value : JSString} {lines : List (JSString × JSString)}

theorem addLines_cons (dest : Headers) (l : JSString × JSString)
    (lines : List (JSString × JSString)) :
    addLines dest (l :: lines) = addLine dest l.1 l.2 >>= fun dest ↦ addLines dest lines :=
  List.foldlM_cons

theorem addLines_append (dest : Headers) (lines lines' : List (JSString × JSString)) :
    addLines dest (lines ++ lines') =
      addLines dest lines >>= fun dest ↦ addLines dest lines' := by
  rw [addLines, List.foldlM_append]
  rfl

/-- Adding a line of this name changes nothing. -/
def Inert (dest : Headers) (field : JSString) : Prop :=
  FirstWins field ∧ ((dest.find field).isSome = true ∨ field ∈ objectPrototype)

theorem addLine_of_inert (h : Inert dest field) (value : JSString) :
    addLine dest field value = .ok dest := by
  obtain ⟨⟨ha, hc, hx⟩, hd⟩ := h
  rw [addLine, if_neg ha, if_neg (not_or.mpr ⟨hc, hx⟩), if_pos hd]

theorem addLines_of_inert (h : ∀ l ∈ lines, Inert dest l.1) : addLines dest lines = .ok dest := by
  induction lines with
  | nil => rfl
  | cons l lines ih =>
    rw [addLines_cons, addLine_of_inert (h l (by simp))]
    exact ih fun l' hl ↦ h l' (by simp [hl])

/-- How much is stored in a value: the code units of a string, and of an array those of its strings
with a separator behind each. -/
def HeaderValue.size : HeaderValue → ℕ
  | one v => v.length
  | many vs => (vs.flatMap fun v ↦ v ++ js ",").length

theorem size_le_joinComma (vs : List JSString) :
    (vs.flatMap fun v ↦ v ++ js ",").length ≤ (joinComma vs).length + 1 := by
  have hsep : (js ",").length = 1 := rfl
  induction vs with
  | nil => simp
  | cons v vs ih =>
    rcases vs with _ | ⟨w, vs⟩
    · simp [joinComma, hsep]
    · rw [List.flatMap_cons]
      simp only [joinComma, List.length_append, hsep] at ih ⊢
      omega

theorem size_lt_addComma (old : HeaderValue) (value : JSString) :
    old.size < (old.addComma value).size := by
  have hsep : (js ", ").length = 2 := rfl
  rcases old with v | vs
  · simp only [HeaderValue.addComma, HeaderValue.size, List.length_append]
    omega
  · have := size_le_joinComma vs
    simp only [HeaderValue.addComma, HeaderValue.size, List.length_append]
    omega

/-- How much is stored under a name. -/
def stored (dest : Headers) (field : JSString) : ℕ :=
  ((dest.find field).map fun v ↦ v.size + 1).getD 0

theorem stored_assign (dest : Headers) (key field : JSString) (v : HeaderValue) :
    stored (assign dest key v) field = if field = key then v.size + 1 else stored dest field := by
  rw [stored, find_assign]
  split_ifs <;> rfl

theorem stored_le_assign {v : HeaderValue} (h : stored dest field < v.size + 1) (key : JSString) :
    stored dest key ≤ stored (assign dest field v) key := by
  rw [stored_assign]
  split_ifs with hk
  · rw [hk]
    exact h.le
  · exact le_rfl

/-- A line leaves everything as it is, or adds something under its own name. -/
theorem addLine_cases (h : addLine dest field value = .ok dest') :
    Inert dest field ∧ dest' = dest ∨
      ∃ v, dest' = assign dest field v ∧ stored dest field < v.size + 1 := by
  rw [addLine] at h
  split_ifs at h with ha hc hd
  · rcases hf : dest.find field with _ | old
    · rw [hf] at h
      exact .inr ⟨_, by simpa using h.symm, by simp [stored, hf]⟩
    · rw [hf] at h
      rcases old with v | vs
      · simp [HeaderValue.push, Except.map] at h
      · refine .inr ⟨.many (vs ++ [value]), ?_, ?_⟩
        · simpa [HeaderValue.push, Except.map] using h.symm
        · have hsep : (js ",").length = 1 := rfl
          simp only [stored, hf, HeaderValue.size, Option.map_some, Option.getD_some,
            List.flatMap_append, List.flatMap_cons, List.flatMap_nil, List.length_append, hsep]
          omega
  · rcases hf : dest.find field with _ | old
    · rw [hf] at h
      exact .inr ⟨_, by simpa using h.symm, by simp [stored, hf]⟩
    · rw [hf] at h
      refine .inr ⟨_, by simpa using h.symm, ?_⟩
      simpa [stored, hf] using size_lt_addComma old value
  · rw [not_or] at hc
    exact .inl ⟨⟨⟨ha, hc⟩, hd⟩, by simpa using h.symm⟩
  · rw [not_or] at hd
    have hf : dest.find field = none := by simpa using hd.1
    exact .inr ⟨_, by simpa using h.symm, by simp [stored, hf]⟩

theorem stored_le_addLine (h : addLine dest field value = .ok dest') (key : JSString) :
    stored dest key ≤ stored dest' key := by
  rcases addLine_cases h with ⟨-, rfl⟩ | ⟨v, rfl, hv⟩
  · exact le_rfl
  · exact stored_le_assign hv key

theorem stored_le_addLines (h : addLines dest lines = .ok dest') (key : JSString) :
    stored dest key ≤ stored dest' key := by
  induction lines generalizing dest with
  | nil =>
    obtain rfl : dest = dest' := by simpa [addLines, pure, Except.pure] using h
    exact le_rfl
  | cons l lines ih =>
    rw [addLines_cons] at h
    rcases hl : addLine dest l.1 l.2 with e | dest₁
    · simp [hl, bind, Except.bind] at h
    · rw [hl] at h
      exact (stored_le_addLine hl key).trans (ih h)

/-- **Nothing is ever taken back**, so lines that change nothing together change nothing one by
one. -/
theorem inert_of_addLines (h : addLines dest lines = .ok dest) : ∀ l ∈ lines, Inert dest l.1 := by
  induction lines with
  | nil => simp
  | cons l lines ih =>
    rw [addLines_cons] at h
    rcases hl : addLine dest l.1 l.2 with e | dest₁
    · simp [hl, bind, Except.bind] at h
    · rw [hl] at h
      rcases addLine_cases hl with ⟨hi, rfl⟩ | ⟨v, rfl, hv⟩
      · intro l' hl'
        rcases List.mem_cons.mp hl' with rfl | hl'
        · exact hi
        · exact ih h l' hl'
      · have hle := stored_le_addLines h l.1
        rw [stored_assign, if_pos rfl] at hle
        omega

theorem firstWins_of_objectPrototype : ∀ f ∈ objectPrototype, FirstWins f := by decide

theorem inert_of_objectPrototype (h : field ∈ objectPrototype) (dest : Headers) :
    Inert dest field :=
  ⟨firstWins_of_objectPrototype field h, .inr h⟩

/-- Under a name of which the first header counts, that header is what is stored. -/
theorem find_addLines (hw : FirstWins field) (hp : field ∉ objectPrototype)
    (h : addLines dest lines = .ok dest') :
    dest'.find field =
      (dest.find field).or ((lines.find? (·.1 = field)).map fun l ↦ .one l.2) := by
  induction lines generalizing dest with
  | nil =>
    obtain rfl : dest = dest' := by simpa [addLines, pure, Except.pure] using h
    simp
  | cons l lines ih =>
    rw [addLines_cons] at h
    rcases hl : addLine dest l.1 l.2 with e | dest₁
    · simp [hl, bind, Except.bind] at h
    · rw [hl] at h
      rw [ih h, List.find?_cons]
      by_cases hlf : l.1 = field
      · -- The line has the name in question: it is stored unless there is one already.
        obtain ⟨ha, hc, hx⟩ := hw
        rw [hlf, addLine, if_neg ha, if_neg (not_or.mpr ⟨hc, hx⟩)] at hl
        rcases hf : dest.find field with _ | old
        · rw [hf, if_neg (by simpa using hp)] at hl
          obtain rfl : assign dest field (.one l.2) = dest₁ := by simpa using hl
          simp [find_assign, hlf]
        · rw [hf, if_pos (by simp)] at hl
          obtain rfl : dest = dest₁ := by simpa using hl
          simp [hf]
      · have hsame : dest₁.find field = dest.find field := by
          rcases addLine_cases hl with ⟨-, rfl⟩ | ⟨v, rfl, -⟩
          · rfl
          · rw [find_assign, if_neg (Ne.symm hlf)]
        rw [hsame]
        simp [hlf]

theorem find?_name_isSome_iff :
    (lines.find? (·.1 = field)).isSome = true ↔ field ∈ lines.map Prod.fst := by
  rw [List.find?_isSome, List.mem_map]
  simp only [decide_eq_true_eq]

/-- The trailer lines come out right although the last one is added to an empty object. -/
theorem addLines_trailers {last : JSString × JSString} {init : List (JSString × JSString)}
    (h : ∀ l ∈ init, l.1 ∈ objectPrototype ∨
      FirstWins l.1 ∧ l.1 = last.1 ∧
        ((init ++ [last]).find? (·.1 = l.1)).map Prod.snd = some last.2) :
    addLines [] (init ++ [last]) = addLines [] [last] := by
  by_cases hall : ∀ l ∈ init, l.1 ∈ objectPrototype
  · rw [addLines_append, addLines_of_inert fun l hl ↦ inert_of_objectPrototype (hall l hl) _]
    rfl
  · simp only [not_forall] at hall
    obtain ⟨l, hl, hp⟩ := hall
    obtain ⟨hw, hname, hfirst⟩ := (h l hl).resolve_left hp
    rw [hname] at hw hp hfirst
    -- The first line of that name is stored, with the value of the last one.
    obtain ⟨x, hx, hx₂⟩ := Option.map_eq_some_iff.mp hfirst
    obtain ⟨hx₁, a, b, hab, ha⟩ := List.find?_eq_some_iff_append.mp hx
    have hx₁ : x.1 = last.1 := by simpa using hx₁
    have hcases : ∀ y ∈ init ++ [last], y.1 ∈ objectPrototype ∨ y.1 = last.1 := by
      intro y hy
      rcases List.mem_append.mp hy with hy | hy
      · exact (h y hy).imp_right fun h ↦ h.2.1
      · exact .inr (by rw [List.mem_singleton.mp hy])
    have hadd : ∀ y : JSString × JSString, y.1 = last.1 → y.2 = last.2 →
        addLine [] y.1 y.2 = .ok [(last.1, .one last.2)] := by
      intro y hy₁ hy₂
      obtain ⟨hwa, hwc, hwx⟩ := hw
      rw [hy₁, hy₂, addLine, if_neg hwa, if_neg (not_or.mpr ⟨hwc, hwx⟩), if_neg]
      · simp [assign]
      · simpa [Headers.find] using hp
    have hbefore : addLines [] a = .ok [] := by
      refine addLines_of_inert fun y hy ↦ ?_
      have hne : y.1 ≠ last.1 := by simpa using ha y hy
      exact inert_of_objectPrototype ((hcases y (by rw [hab]; simp [hy])).resolve_right hne) _
    have hbehind : addLines [(last.1, .one last.2)] b = .ok [(last.1, .one last.2)] := by
      refine addLines_of_inert fun y hy ↦ ?_
      rcases hcases y (by rw [hab]; simp [hy]) with hy | hy
      · exact inert_of_objectPrototype hy _
      · rw [hy]
        exact ⟨hw, .inl (by simp [Headers.find])⟩
    rw [hab, addLines_append, hbefore]
    show addLines [] (x :: b) = _
    rw [addLines_cons, hadd x hx₁ hx₂, addLines_cons, hadd last rfl rfl]
    exact hbehind

/-- When adding all lines but the last one to other headers makes no difference. -/
theorem addLines_apart_iff {H T : List (JSString × JSString)} {headers trailers : Headers}
    (h₁ : addLines [] (H ++ T.dropLast) = .ok headers)
    (h₂ : addLines [] T.getLast?.toList = .ok trailers) :
    addLines [] H = .ok headers ∧ addLines [] T = .ok trailers ↔ Redundant H T := by
  rw [addLines_append] at h₁
  rcases hH : addLines [] H with e | dest
  · simp [hH, bind, Except.bind] at h₁
  have h₁ : addLines dest T.dropLast = .ok headers := by rw [hH] at h₁; exact h₁
  have hheader : ∀ {f : JSString}, FirstWins f → f ∉ objectPrototype →
      ((dest.find f).isSome = true ↔ f ∈ H.map Prod.fst) := by
    intro f hw hp
    rw [find_addLines hw hp hH, ← find?_name_isSome_iff]
    simp [Headers.find]
  rcases List.eq_nil_or_concat' T with rfl | ⟨init, last, rfl⟩
  · refine ⟨fun _ l hl ↦ absurd hl (by simp), fun _ ↦ ⟨?_, h₂⟩⟩
    exact h₁
  rw [List.dropLast_concat] at h₁
  rw [List.getLast?_concat, Option.toList_some] at h₂
  constructor
  · rintro ⟨hdest, hT⟩ l hl x hx
    obtain rfl : last = x := by simpa using hx
    obtain rfl : dest = headers := by simpa using hdest
    rw [List.dropLast_concat] at hl
    obtain ⟨hw, hsome⟩ := inert_of_addLines h₁ l hl
    rw [or_iff_not_imp_left]
    intro hp
    -- What is stored under the name is the first trailer line, and also the last one.
    have hfirst := find_addLines hw hp hT
    rw [find_addLines hw hp h₂, List.find?_singleton] at hfirst
    obtain ⟨y, hy⟩ : ∃ y, (init ++ [last]).find? (·.1 = l.1) = some y := by
      rw [← Option.isSome_iff_exists, List.find?_isSome]
      exact ⟨l, by simp [hl], by simp⟩
    rw [hy] at hfirst
    split_ifs at hfirst with hname
    · have hname : last.1 = l.1 := by simpa using hname
      have hvalue : last.2 = y.2 := by simpa [Headers.find] using hfirst
      exact ⟨hw, (hheader hw hp).mp (hsome.resolve_right hp), hname.symm, by simp [hy, hvalue]⟩
    · simp [Headers.find] at hfirst
  · intro hr
    have hr : ∀ l ∈ init, l.1 ∈ objectPrototype ∨
        FirstWins l.1 ∧ l.1 ∈ H.map Prod.fst ∧ l.1 = last.1 ∧
          ((init ++ [last]).find? (·.1 = l.1)).map Prod.snd = some last.2 := by
      intro l hl
      exact hr l (by simpa using hl) last (by simp)
    have hinert : addLines dest init = .ok dest := by
      refine addLines_of_inert fun l hl ↦ ?_
      by_cases hp : l.1 ∈ objectPrototype
      · exact inert_of_objectPrototype hp dest
      · obtain ⟨hw, hmem, -⟩ := (hr l hl).resolve_left hp
        exact ⟨hw, .inl ((hheader hw hp).mpr hmem)⟩
    rw [h₁] at hinert
    refine ⟨hinert.symm, ?_⟩
    rw [addLines_trailers fun l hl ↦ (hr l hl).imp_right fun h ↦ ⟨h.1, h.2.2⟩]
    exact h₂

/-! ## What becomes of a message -/

section

variable {lower : UInt16 → UInt16}

theorem exists_texts {slices : List Bytes} (h : ∀ b ∈ slices, ∃ t, asciiSlice b = .ok t) :
    ∃ texts, Texts slices texts := by
  induction slices with
  | nil => exact ⟨[], .nil⟩
  | cons b slices ih =>
    obtain ⟨t, ht⟩ := h b (by simp)
    obtain ⟨texts, hr⟩ := ih fun b hb ↦ h b (by simp [hb])
    exact ⟨t :: texts, .cons ht hr⟩

/-- If a line is delivered without an exception, it has a text. -/
theorem exists_lineOf {s : List Bytes × List Bytes} (hd : Delivered s)
    (h : ∀ c ∈ headerCallbacks s, ∃ t, asciiSlice c.bytes = .ok t) : ∃ l, LineOf lower s l := by
  obtain ⟨slices, slices'⟩ := s
  obtain ⟨names, hn⟩ := @exists_texts slices fun b hb ↦
    h (.headerField b) (List.mem_append_left _ (List.mem_map.mpr ⟨b, hb, rfl⟩))
  obtain ⟨values, hv⟩ := @exists_texts slices' fun b hb ↦
    h (.headerValue b) (List.mem_append_right _ (List.mem_map.mpr ⟨b, hb, rfl⟩))
  refine ⟨_, ⟨names, values, hn, hv, rfl⟩, hd.named, hd.valued, ?_⟩
  have hne := hd.names
  have hnamed := hd.named
  rcases hn with _ | ⟨hb, -⟩
  · exact absurd rfl hnamed
  · have ht := ne_nil_of_asciiSlice (hne _ (by simp)) hb
    simp [toLowerCase, ht]

theorem exists_lines {slices : List (List Bytes × List Bytes)} (hd : ∀ s ∈ slices, Delivered s)
    (h : ∀ c ∈ slices.flatMap headerCallbacks, ∃ t, asciiSlice c.bytes = .ok t) :
    ∃ lines, List.Forall₂ (LineOf lower) slices lines := by
  induction slices with
  | nil => exact ⟨[], .nil⟩
  | cons s slices ih =>
    rw [List.flatMap_cons] at h
    obtain ⟨l, hl⟩ := @exists_lineOf lower s (hd s (by simp)) fun c hc ↦
      h c (List.mem_append_left _ hc)
    obtain ⟨lines, hlines⟩ := ih (fun s hs ↦ hd s (by simp [hs])) fun c hc ↦
      h c (List.mem_append_right _ hc)
    exact ⟨l :: lines, .cons hl hlines⟩

/-- The lines of a trailer: all but the last one go to `headers`. -/
theorem trailer_eq {trailers : List (List Bytes × List Bytes)} {T : List (JSString × JSString)}
    (hT : List.Forall₂ (LineOf lower) trailers T) (url : JSString) (headers : Headers) :
    ((trailers.flatMap headerCallbacks).foldlM (Parser.step lower)
        ⟨⟨url, headers, [], false⟩, none, none⟩ >>= Parser.onMessageComplete) =
      addLines headers T.dropLast >>= fun headers ↦
        addLines [] T.getLast?.toList >>= fun trailers ↦
          .ok ⟨⟨url, headers, trailers, true⟩, T.getLast?.map Prod.fst, T.getLast?.map Prod.snd⟩ := by
  rcases List.eq_nil_or_concat' T with rfl | ⟨init, last, rfl⟩
  · cases hT
    rfl
  · obtain ⟨slices, s, rfl, hinit, hl⟩ := Parser.exists_concat_of_forall₂ hT
    rw [Parser.foldlM_pending hinit hl (.start _), List.dropLast_concat, List.getLast?_concat]
    show (init.foldlM (fun i l ↦ IncomingMessage.addHeaderLine i l.1 l.2)
      ⟨url, headers, [], false⟩ >>= fun i ↦ .ok ⟨i, some last.1, some last.2⟩) >>=
        Parser.onMessageComplete = _
    rw [foldlM_addHeaderLine, ← addLines]
    rcases addLines headers init with e | headers'
    · rfl
    · obtain ⟨u, name, hname⟩ := List.exists_cons_of_ne_nil hl.name_ne_nil
      show Parser.onMessageComplete ⟨⟨url, headers', [], false⟩, some last.1, some last.2⟩ = _
      simp only [Parser.onMessageComplete, hname, Option.toList_some, Option.map_some]
      show _ = addLines [] [last] >>= _
      rw [addLines_cons, hname]
      simp only [IncomingMessage.addHeaderLine, if_true]
      cases addLine [] (u :: name) last.2 <;> rfl

/-- **What becomes of the lines.** All of them but the last trailer line are added to `headers`. -/
theorem message_eq {slices trailers : List (List Bytes × List Bytes)}
    {H T : List (JSString × JSString)}
    (hH : List.Forall₂ (LineOf lower) slices H) (hT : List.Forall₂ (LineOf lower) trailers T)
    {url : List Bytes} {texts : List JSString} (hu : Texts url texts) :
    Parser.message lower (url.map .url ++ slices.flatMap headerCallbacks)
        (trailers.flatMap headerCallbacks) =
      addLines [] (H ++ T.dropLast) >>= fun headers ↦
        addLines [] T.getLast?.toList >>= fun trailers ↦
          .ok ⟨texts.flatten, headers, trailers, true⟩ := by
  have hhead := Parser.foldlM_headers hH ⟨texts.flatten, [], [], false⟩
  rw [foldlM_addHeaderLine, ← addLines] at hhead
  rw [Parser.message, List.foldlM_append, Parser.foldlM_url hu, addLines_append]
  show ((slices.flatMap headerCallbacks).foldlM (Parser.step lower)
    ⟨⟨texts.flatten, [], [], false⟩, none, none⟩ >>= fun p ↦ p.onHeadersComplete >>= _) = _
  rw [← bind_assoc, hhead]
  rcases addLines [] H with e | headers
  · rfl
  · have htrailer := trailer_eq hT texts.flatten headers
    show ((trailers.flatMap headerCallbacks).foldlM (Parser.step lower)
      ⟨⟨texts.flatten, headers, [], false⟩, none, none⟩ >>= fun p ↦ p.onMessageComplete >>= _) = _
    rw [← bind_assoc, htrailer]
    simp only [bind_assoc]
    rfl

/-- In a message that is read to its end, all slices have been turned into strings. -/
theorem asciiSlice_of_message {head trailer : List Callback} {i : IncomingMessage}
    (h : Parser.message lower head trailer = .ok i) :
    (∀ c ∈ head, ∃ t, asciiSlice c.bytes = .ok t) ∧
      ∀ c ∈ trailer, ∃ t, asciiSlice c.bytes = .ok t := by
  rw [Parser.message] at h
  rcases h₁ : head.foldlM (Parser.step lower) Parser.onMessageBegin with e | p₁
  · simp [h₁, bind, Except.bind] at h
  rcases h₂ : p₁.onHeadersComplete with e | p₂
  · simp [h₁, h₂, bind, Except.bind] at h
  rcases h₃ : trailer.foldlM (Parser.step lower) p₂ with e | p₃
  · simp [h₁, h₂, h₃, bind, Except.bind] at h
  exact ⟨asciiSlice_of_foldlM h₁, asciiSlice_of_foldlM h₃⟩

end

/-- **Headers and trailers.** If a message is read to its end, its `headers` are made of the header
lines and its `trailers` of the trailer lines exactly if the trailer is `Redundant`. -/
theorem trailers_apart_iff (lower : UInt16 → UInt16) (url : List Bytes)
    (slices trailers : List (List Bytes × List Bytes)) (hs : ∀ s ∈ slices, Delivered s)
    (ht : ∀ s ∈ trailers, Delivered s) (i : IncomingMessage)
    (h : Parser.message lower (url.map .url ++ slices.flatMap headerCallbacks)
      (trailers.flatMap headerCallbacks) = .ok i) :
    ∃ H T, List.Forall₂ (LineOf lower) slices H ∧ List.Forall₂ (LineOf lower) trailers T ∧
      (addLines [] H = .ok i.headers ∧ addLines [] T = .ok i.trailers ↔ Redundant H T) := by
  obtain ⟨hhead, htrailer⟩ := asciiSlice_of_message h
  obtain ⟨texts, hu⟩ := @exists_texts url fun b hb ↦
    hhead (.url b) (List.mem_append_left _ (List.mem_map.mpr ⟨b, hb, rfl⟩))
  obtain ⟨H, hH⟩ := exists_lines hs fun c hc ↦ hhead c (List.mem_append_right _ hc)
  obtain ⟨T, hT⟩ := exists_lines ht htrailer
  refine ⟨H, T, hH, hT, ?_⟩
  rw [message_eq hH hT hu] at h
  rcases h₁ : addLines [] (H ++ T.dropLast) with e | headers
  · simp [h₁, bind, Except.bind] at h
  rcases h₂ : addLines [] T.getLast?.toList with e | trailers
  · simp [h₁, h₂, bind, Except.bind] at h
  rw [h₁, h₂] at h
  obtain rfl := Except.ok.inj h
  exact addLines_apart_iff h₁ h₂

/-- A request for `/` with the header `a: b` and the trailer `c: d`. -/
theorem trailers_apart_iff_one :
    ∃ H T, List.Forall₂ (LineOf id) [([[0x61]], [[0x62]])] H ∧
      List.Forall₂ (LineOf id) [([[0x63]], [[0x64]])] T ∧
      (addLines [] H = .ok [([0x61], .one [0x62])] ∧
        addLines [] T = .ok [([0x63], .one [0x64])] ↔ Redundant H T) :=
  trailers_apart_iff id [[0x2F]] [([[0x61]], [[0x62]])] [([[0x63]], [[0x64]])]
    (by simpa using ⟨by simp, by simp, by simp⟩) (by simpa using ⟨by simp, by simp, by simp⟩)
    ⟨[0x2F], [([0x61], .one [0x62])], [([0x63], .one [0x64])], true⟩ rfl

/-- With the trailers `a: b` and `c: d`, the first one is a header. -/
theorem first_trailer_in_headers :
    Parser.message id [.url [0x2F]]
        [.headerField [0x61], .headerValue [0x62], .headerField [0x63], .headerValue [0x64]] =
      .ok ⟨[0x2F], [([0x61], .one [0x62])], [([0x63], .one [0x64])], true⟩ ∧
    addLines [] [] = .ok [] ∧
    addLines [] [([0x61], [0x62]), ([0x63], [0x64])] =
      .ok [([0x61], .one [0x62]), ([0x63], .one [0x64])] :=
  ⟨rfl, rfl, rfl⟩

end SpiderNode.Http
