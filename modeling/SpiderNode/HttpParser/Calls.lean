import SpiderNode.HttpParser.Chunks
import SpiderNode.HttpParser.Sound
import SpiderNode.Machine.Runs

/-!
# Calls of the parser

`executeAll` is how a connection uses the parser: one call for each chunk, as long as the calls
return all bytes that they are given. `executeAll_same` is that the chunks do not matter.

`machine` is any sequence of calls. As long as none of them ends with a callback that refuses or
with an upgrade, no assertion of the parser fails: `sound_of_calls`.
-/

namespace SpiderNode.HttpParser

variable {σ : Type*} {strict : Bool} {settings : Settings σ}

namespace Result

/-- `n` bytes more. -/
def add (n : ℕ) : Result σ → Result σ
  | .returned parser m user => .returned parser (n + m) user
  | .assertion user => .assertion user
  | .overread user => .overread user

/-- Results that differ at most in what an error or a refusal leaves in the parser, and after an
error in how much of an unfinished text has been handed over. -/
inductive Same (total : ℕ) : Result σ → Result σ → Prop
  | parsed (parser : Parser) (user : σ) : Same total (.returned parser total user)
      (.returned parser total user)
  | failed {parser parser' : Parser} {n : ℕ} (user user' : σ) :
      parser.toMessage = parser'.toMessage → parser.state = .dead → parser'.state = .dead →
      n < total → Same total (.returned parser n user) (.returned parser' n user')
  | stopped {parser parser' : Parser} {n : ℕ} (user : σ) :
      parser.toMessage = parser'.toMessage → parser.state ≠ .dead → parser'.state ≠ .dead →
      n < total → Same total (.returned parser n user) (.returned parser' n user)
  | overread (user : σ) : Same total (.overread user) (.overread user)

end Result

/-- One call for each chunk, up to a call that does not return all bytes of its chunk. -/
def executeAll (strict : Bool) (settings : Settings σ) :
    List (List UInt8) → Parser → σ → Result σ
  | [], parser, user => .returned parser 0 user
  | x :: xs, parser, user =>
    match execute strict settings parser x user with
    | .returned parser' n user' =>
      if n = x.length then (executeAll strict settings xs parser' user').add n
      else .returned parser' n user'
    | .assertion user' => .assertion user'
    | .overread user' => .overread user'

/-! ## The outcome of the loop -/

/-- The outcome of the loop, for a call that begins with a parser that is not dead unless it
fails. -/
inductive Reports (total : ℕ) : Scanner.Outcome Parser Exit σ → Result σ → Prop
  | ok (c : Parser) (user : σ) : Reports total (.ok c user) (.returned c total user)
  | overread (c : Parser) (p : ℕ) (user : σ) :
      Reports total (.stopped .overread c p user) (.overread user)
  | error (before c : Parser) {p : ℕ} (user : σ) : p < total →
      Reports total (.stopped .error c p user) (.returned (leave before .error c) p user)
  | stopped {before c : Parser} {p : ℕ} {r : Exit} (user : σ) : p < total → r.Between →
      r ≠ .overread → (leave before r c).state ≠ .dead →
      Reports total (.stopped r c p user) (.returned (leave before r c) p user)

theorem execute_dead (strict : Bool) (settings : Settings σ) {parser : Parser}
    (h : parser.state = .dead) {x : List UInt8} (hx : x ≠ []) (user : σ) :
    ∃ c, (scanner strict).execute settings x parser user = .stopped .error c 0 user := by
  obtain ⟨b, x, rfl⟩ := List.exists_cons_of_ne_nil hx
  have hstep : ∃ c, step strict parser b (x.length + 1) = error c := by
    rw [step]
    simp only
    split_ifs
    · exact ⟨_, rfl⟩
    · exact ⟨_, by unfold switch; rw [h]⟩
    · exact ⟨_, by unfold switch; rw [h]⟩
  obtain ⟨c, hc⟩ := hstep
  refine ⟨c, ?_⟩
  have hpos : ((scanner strict).start parser user).p < (b :: x).length := Nat.succ_pos _
  rw [Scanner.execute, List.length_cons, Scanner.loop, dif_pos hpos]
  have hs : (scanner strict).step parser (b :: x)[((scanner strict).start parser user).p]
      ((b :: x).length - ((scanner strict).start parser user).p) = error c := hc
  rw [hs]
  rfl

/-- **One call.** -/
theorem reports_execute (strict : Bool) (hs : settings.Lawful Kind.Beside) {parser : Parser}
    (hp : parser.Sound)
    {x : List UInt8} (hx : x ≠ []) (user : σ) :
    Reports x.length ((scanner strict).execute settings x parser user)
      (execute strict settings parser x user) ∧
    ((scanner strict).execute settings x parser user).Ends Parser.Sound Exit.Allowed := by
  have hends := Scanner.execute_ends (M := scanner strict) (k := settings)
    (fun c b n hc ↦ keeps_step strict hc b n) (fun c _ ↦ (keeps_refused : Keeps (.stop .refused c)))
    x hp user
  refine ⟨?_, hends⟩
  have hlt := @Scanner.lt_of_execute_stopped _ _ _ _ _ _ (scanner strict) settings _ _ _
    (lawful strict) hs x parser
  rw [execute, if_neg hx]
  rcases hrun : (scanner strict).execute settings x parser user with ⟨c, u⟩ | ⟨r, c, p, u⟩
  · rw [hrun] at hends
    simp only [Parser.Sound.save hends]
    exact .ok c u
  · rw [hrun] at hends
    obtain ⟨hne, hhalted⟩ := hends
    have hp := hlt hrun
    have hdead : r ≠ .error → parser.state ≠ .dead := by
      intro hr hd
      obtain ⟨c', hc'⟩ := execute_dead strict settings hd hx user
      rw [hrun] at hc'
      exact hr (Scanner.Outcome.stopped.inj hc').1
    rcases r with _ | _ | _ | _ | _ | _
    · exact .error parser c u hp
    · exact .stopped u hp (by decide) (by decide) (hdead (by decide))
    · refine .stopped u hp (by decide) (by decide) ?_
      rw [leave, hhalted rfl]
      decide
    · exact .stopped u hp (by decide) (by decide) (hdead (by decide))
    · exact absurd rfl hne
    · exact .overread c p u

theorem Reports.add {total n : ℕ} {o : Scanner.Outcome Parser Exit σ} {r : Result σ}
    (h : Reports total o r) :
    Reports (n + total) (o.add n) (r.add n) := by
  induction h with
  | ok c user => exact .ok c user
  | overread c p user => exact .overread c (n + p) user
  | error before c user hp => exact .error before c user (Nat.add_lt_add_left hp n)
  | stopped user hp hb hne hd => exact .stopped user (Nat.add_lt_add_left hp n) hb hne hd

/-- **Calls for all chunks** report how the loop ends for all of them. -/
theorem reports_executeAll (strict : Bool) (hs : settings.Lawful Kind.Beside)
    {chunks : List (List UInt8)}
    (hall : ∀ x ∈ chunks, x ≠ []) {parser : Parser} (hp : parser.Sound) (user : σ) :
    Reports chunks.flatten.length ((scanner strict).feed settings chunks parser user)
      (executeAll strict settings chunks parser user) := by
  induction chunks generalizing parser user with
  | nil => exact .ok parser user
  | cons x xs ih =>
    obtain ⟨hrep, hends⟩ := reports_execute strict hs hp (hall x (by simp)) user
    rw [executeAll, Scanner.feed, List.flatten_cons, List.length_append]
    generalize (scanner strict).execute settings x parser user = o at hrep hends
    generalize execute strict settings parser x user = r at hrep
    induction hrep with
    | ok c user =>
      have hrest := ih (fun y hy ↦ hall y (by simp [hy])) hends user
      simp only [if_true]
      exact hrest.add
    | overread c p user => exact .overread c p user
    | error before c user hlt =>
      simp only [if_neg hlt.ne]
      exact .error before c user (Nat.lt_add_right _ hlt)
    | stopped user hlt hb hne hd =>
      simp only [if_neg hlt.ne]
      exact .stopped user (Nat.lt_add_right _ hlt) hb hne hd

/-- Equal outcomes of the loop are reported by equal results. -/
theorem Reports.same {total : ℕ} {o o' : Scanner.Outcome Parser Exit σ} {r r' : Result σ}
    (h : Reports total o r) (h' : Reports total o' r') (ho : o.Same Exit.Between o') :
    r.Same total r' := by
  induction ho with
  | ok c user =>
    obtain ⟨⟩ := h
    obtain ⟨⟩ := h'
    exact .parsed c user
  | stopped e c p hu =>
    rcases h with _ | _ | ⟨before, _, user, hlt⟩ | ⟨user, hlt, hb, hne, hd⟩
    · rcases h' with _ | _ | _ | ⟨_, _, hb', hne', _⟩
      · exact hu (by decide) ▸ .overread _
      · exact absurd rfl hne'
    · rcases h' with _ | _ | ⟨before', _, user', _⟩ | ⟨_, _, hb', _, _⟩
      · exact .failed _ _ rfl rfl rfl hlt
      · exact absurd rfl hb'.1
    · rcases h' with _ | _ | _ | ⟨user', _, hb', _, hd'⟩
      · exact absurd rfl hne
      · exact absurd rfl hb.1
      · obtain rfl := hu hb
        exact .stopped _ rfl hd hd' hlt

/-- **The chunks do not matter.** However the input of a connection is cut into chunks, the parser
reads the same number of bytes of it, calls back with the same texts, and is left the same if it
reads all of it. -/
theorem executeAll_same (strict : Bool) (hs : settings.Lawful Kind.Beside) {parser : Parser}
    (hp : parser.Sound) {chunks chunks' : List (List UInt8)} (hall : ∀ x ∈ chunks, x ≠ [])
    (hall' : ∀ x ∈ chunks', x ≠ []) (heq : chunks.flatten = chunks'.flatten) (user : σ) :
    (executeAll strict settings chunks parser user).Same chunks.flatten.length
      (executeAll strict settings chunks' parser user) := by
  have h := reports_executeAll strict hs hall hp user
  have h' := reports_executeAll strict hs hall' hp user
  rw [← heq] at h'
  exact h.same h' (Scanner.same_feed_feed (lawful strict) hs hall hall' heq parser user)

/-- The parser in memory that has been cleared. -/
def Parser.blank : Parser where
  type := .request
  flags := .none
  contentLength := 0
  httpMajor := 0
  httpMinor := 0
  statusCode := 0
  method := .delete
  upgrade := false
  state := .dead
  headerState := .general
  index := 0
  nread := 0

/-- What a user has been told, the latest text first. -/
structure Record where
  texts : List (Kind × List UInt8)
  body : List UInt8
  notices : List Notice
  deriving DecidableEq, Repr

def Record.empty : Record := ⟨[], [], []⟩

/-- A text, in one piece with what has been told of it. -/
def Record.text (d : Kind) (x : List UInt8) : List (Kind × List UInt8) → List (Kind × List UInt8)
  | [] => [(d, x)]
  | (d', y) :: l => if d' = d then (d, y ++ x) :: l else (d, x) :: (d', y) :: l

/-- A user that keeps the URL, the headers and the body, and lets the parts of the URL pass. -/
def record : Settings Record where
  data d x u := (if d.IsPart then u else { u with texts := Record.text d x u.texts }, 0)
  body x u := ({ u with body := u.body ++ x }, 0)
  notify e u := ({ u with notices := e :: u.notices }, 0)

theorem record_lawful : record.Lawful Kind.Beside where
  quiet _ _ _ := rfl
  data_append d x y u _ := by
    have htext : Record.text d (x ++ y) u.texts = Record.text d y (Record.text d x u.texts) := by
      rcases u.texts with _ | ⟨⟨d', z⟩, l⟩
      · simp [Record.text]
      · rw [Record.text, Record.text]
        split_ifs <;> simp [Record.text]
    simp only [record]
    split_ifs
    · rfl
    · rw [htext]
  data_comm x y u h := by
    rcases h with ⟨rfl, h⟩ | ⟨rfl, h⟩ <;> simp [record, h]
  body_append y u _ := by simp [record]

/-- A request in one chunk and in three. -/
theorem executeAll_same_request :
    (executeAll false record [text "GET /a HTTP/1.1\r\n\r\n"]
        (Parser.blank.init .request) .empty).Same
      [text "GET /a HTTP/1.1\r\n\r\n"].flatten.length
      (executeAll false record [text "GET /", text "a HTTP/1.1\r", text "\n\r\n"]
        (Parser.blank.init .request) .empty) :=
  executeAll_same false record_lawful (Parser.init_sound (by decide) .request) (by decide)
    (by decide) (by decide) .empty

/-! ## Any calls -/

/-- Calls of the parser, one after the other, whatever they return. The failures are those that no
call returns from. -/
def machine (strict : Bool) (settings : Settings σ) : Machine (Parser × σ) (List UInt8) Exit where
  guard _ _ := True
  step s data :=
    match execute strict settings s.1 data s.2 with
    | .returned parser _ user => .ok (parser, user)
    | .assertion _ => .error .assertion
    | .overread _ => .error .overread

/-- Why the loop of a call is left, if it is. -/
def exit (strict : Bool) (settings : Settings σ) (s : Parser × σ) (data : List UInt8) :
    Option Exit :=
  match (scanner strict).execute settings data s.1 s.2 with
  | .ok _ _ => none
  | .stopped r _ _ _ => some r

/-- The call ends neither with a callback that refuses nor with an upgrade. -/
def Resumes (strict : Bool) (settings : Settings σ) (s : Parser × σ) (data : List UInt8) : Prop :=
  exit strict settings s data ≠ some .refused ∧ exit strict settings s data ≠ some .upgrade

instance (s : Parser × σ) (data : List UInt8) :
    Decidable ((machine strict settings).guard s data) :=
  instDecidableTrue

instance (s : Parser × σ) (data : List UInt8) : Decidable (Resumes strict settings s data) :=
  inferInstanceAs (Decidable (_ ∧ _))

theorem finish_eq (settings : Settings σ) (parser : Parser) (user : σ) :
    ∃ n user', finish settings parser user = .returned parser n user' := by
  unfold finish
  split <;> exact ⟨_, _, rfl⟩

theorem leave_sound {parser c : Parser} (hp : parser.Sound) {r : Exit}
    (hr : r = .error ∨ r = .halted)
    (hallowed : r.Allowed c) : (leave parser r c).Sound := by
  refine ⟨⟨hp.nread_le, hp.index_lt⟩, ?_⟩
  rcases hr with rfl | rfl
  · exact Parser.fits_of_free (s := .dead) rfl rfl
  · exact Parser.fits_of_free (s := .headersAlmostDone) (hallowed.2 rfl) rfl

/-- **One call** of a sound parser does not fail an assertion, and leaves the parser sound unless a
callback refuses or there is an upgrade. -/
theorem machine_step (strict : Bool) (settings : Settings σ) {s : Parser × σ} (hs : s.1.Sound)
    (data : List UInt8) :
    (machine strict settings).step s data ≠ .error .assertion ∧
      ∀ {t}, Resumes strict settings s data → (machine strict settings).step s data = .ok t →
        t.1.Sound := by
  have hends := Scanner.execute_ends (M := scanner strict) (k := settings)
    (fun c b n hc ↦ keeps_step strict hc b n) (fun c _ ↦ (keeps_refused : Keeps (.stop .refused c)))
    data hs s.2
  simp only [machine, Resumes, exit, execute]
  rcases eq_or_ne data [] with rfl | hne
  · obtain ⟨n, user, heq⟩ := finish_eq settings s.1 s.2
    rw [if_pos rfl, heq]
    refine ⟨(by rintro ⟨⟩), fun _ h ↦ ?_⟩
    cases h
    exact hs
  rw [if_neg hne]
  rcases hrun : (scanner strict).execute settings data s.1 s.2 with ⟨c, u⟩ | ⟨r, c, p, u⟩ <;>
    rw [hrun] at hends
  · refine ⟨(by rintro ⟨⟩), fun _ h ↦ ?_⟩
    cases h
    rw [Parser.Sound.save hends]
    exact hends
  · rcases r with _ | _ | _ | _ | _ | _
    · refine ⟨(by rintro ⟨⟩), fun _ h ↦ ?_⟩
      cases h
      exact leave_sound hs (.inl rfl) hends
    · exact ⟨(by rintro ⟨⟩), fun hr _ ↦ absurd rfl hr.1⟩
    · refine ⟨(by rintro ⟨⟩), fun _ h ↦ ?_⟩
      cases h
      exact leave_sound hs (.inr rfl) hends
    · exact ⟨(by rintro ⟨⟩), fun hr _ ↦ absurd rfl hr.2⟩
    · exact absurd rfl hends.1
    · exact ⟨(by rintro ⟨⟩), fun _ h ↦ by cases h⟩

/-- **No assertion fails** in a run of calls from a parser that has been initialised, as long as no
call has ended with a callback that refuses or with an upgrade; and what is stored between the calls
fits its fields. -/
theorem sound_of_calls (strict : Bool) (settings : Settings σ) {parser : Parser}
    (hp : parser.index < 2 ^ 8) (t : ParserType) (user : σ) {s : Parser × σ}
    (h : ((machine strict settings).restrict (Resumes strict settings)).Reaches
      (parser.init t, user) s) :
    s.1.Sound ∧ ∀ data, (machine strict settings).step s data ≠ .error .assertion := by
  have hsound : s.1.Sound := by
    refine h.invariant (p := fun s ↦ s.1.Sound) (Parser.init_sound hp t) fun hs hg ht ↦ ?_
    exact (machine_step strict settings hs _).2 hg.2 ht
  exact ⟨hsound, fun data ↦ (machine_step strict settings hsound data).1⟩

/-- A parser in the middle of the headers of a request. -/
theorem sound_of_calls_request : ∃ s : Parser × Record, s.1.state = .headerFieldStart ∧
    s.1.Sound ∧ ∀ data, (machine false record).step s data ≠ .error .assertion := by
  have hreach := Machine.reaches_of_run
    (M := (machine false record).restrict (Resumes false record))
    (s := (Parser.blank.init .request, .empty))
    (l := [text "GET / HTT", text "P/1.1\r\n"]) rfl
  exact ⟨_, by decide, sound_of_calls false record (by decide) .request .empty hreach⟩

/-- A user that refuses the second message. -/
def refuseSecond : Settings ℕ where
  data _ _ n := (n, 0)
  body _ n := (n, 0)
  notify e n :=
    match e with
    | .messageBegin _ => (n + 1, if n = 1 then -1 else 0)
    | _ => (n, 0)

-- Behind a call that has been refused the flags are those of the next message, and the state is
-- still in a chunk.
example :
    (match execute false refuseSecond (Parser.blank.init .request)
        (text "POST / HTTP/1.1\r\nTransfer-Encoding: chunked\r\n\r\n") 0 with
    | .returned c _ n =>
      match execute false refuseSecond c (text "0\r\n\r\nG") n with
      | .returned c _ n => execute false refuseSecond c (text "0") n
      | r => r
    | r => r) = .assertion 2 := by decide +kernel

end SpiderNode.HttpParser
