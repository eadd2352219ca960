import SpiderNode.HttpParser.Url

/-!
# The first line of a message
-/

namespace SpiderNode.HttpParser

open Scanner (Code Event texts)

variable {σ : Type*} {L : Listener σ}
  {m : Message} {w : Word} {r : ℕ}

/-! ## Methods -/

/-- The byte at `index` of the method is looked at next. -/
def indexIs (index : ℕ) : Word := fun _ i ↦ i = index

/-- A byte of a method: the method it is taken for, and the index of the next byte. -/
def Method.read (x : Method × ℕ) (ch : UInt8) : Option (Method × ℕ) :=
  if ch = 0 then none
  else
    match x.1.matcher x.2 with
    | none => none
    | some b => if ch = b then some (x.1, x.2 + 1) else (x.1.next x.2 ch).map fun m ↦ (m, x.2 + 1)

theorem reqMethod_read {c : Parser} {ch : UInt8} {x : Method × ℕ} (hne : ch ≠ ' '.toUInt8)
    (h : Method.read (c.method, c.index) ch = some x) :
    reqMethod c ch = .next { c with method := x.1, index := x.2 } := by
  unfold Method.read at h
  unfold reqMethod
  split_ifs at h with hz
  rw [if_neg hz]
  rcases hb : c.method.matcher c.index with _ | b
  · simp [hb] at h
  · simp only [hb] at h ⊢
    rw [if_neg fun hs ↦ hne hs.1]
    split_ifs at h ⊢ with heq
    · obtain rfl := Option.some.inj h
      rfl
    · obtain ⟨y, hy, rfl⟩ := Option.map_eq_some_iff.mp h
      rw [hy]

theorem reads_methodBytes (bs : List UInt8) (hsp : ∀ b ∈ bs, b ≠ ' '.toUInt8)
    {x y : Method × ℕ} (h : bs.foldlM Method.read x = some y) :
    L.Reads
      (At .reqMethod { m with method := x.1 } (indexIs x.2) (bs.length + r)) bs
      (At .reqMethod { m with method := y.1 } (indexIs y.2) r) [] := by
  induction bs generalizing x with
  | nil =>
    obtain rfl : x = y := Option.some.inj h
    rw [List.length_nil, Nat.zero_add]
    exact Scanner.Reads.nil fun c hc ↦ hc
  | cons b bs ih =>
    rw [List.foldlM_cons] at h
    obtain ⟨x', hx', h⟩ := Option.bind_eq_some_iff.mp h
    have hfirst : L.Reads
        (At .reqMethod { m with method := x.1 } (indexIs x.2) (bs.length + r + 1)) [b]
        (At .reqMethod { m with method := x'.1 } (indexIs x'.2) (bs.length + r)) [] := by
      refine reads_quiet rfl rfl rfl fun h₁ i₁ n hi ↦ ?_
      obtain rfl : i₁ = x.2 := hi
      exact ⟨h₁, x'.2, reqMethod_read (hsp b (by simp)) hx', rfl⟩
    rw [List.length_cons, Nat.add_right_comm]
    exact hfirst.append (ih (fun b' hb' ↦ hsp b' (by simp [hb'])) h)

/-- A method is told from the others before its end. -/
theorem Method.exists_read (x : Method) : ∃ b bs y, x.bytes = b :: bs ∧ Method.first b = some y ∧
    ¬(b < 'A'.toUInt8 ∨ 'Z'.toUInt8 < b) ∧ (∀ b ∈ bs, b ≠ ' '.toUInt8) ∧
    bs.foldlM Method.read (y, 1) = some (x, x.bytes.length) := by
  cases x <;>
    exact ⟨_, _, _, rfl, rfl, by decide +kernel, by decide +kernel, by decide +kernel⟩

/-- **A method** and the space behind it. -/
theorem reads_method (ha : ∀ m, L.answer (.messageBegin m) = 0) (x : Method)
    (hr : x.bytes.length + (r + 1) ≤ maxHeaderSize) :
    L.Reads (Ready .startReq m) (x.bytes ++ [' '.toUInt8])
      (At .reqSpacesBeforeUrl { m.fresh with method := x } anyWord r)
      [.notify (.messageBegin m.fresh)] := by
  obtain ⟨b, bs, y, hx, hfirst, hrange, hsp, hfold⟩ := x.exists_read
  have hz : x.matcher x.bytes.length = some 0 := by simp [Method.matcher]
  have hbegin : L.Reads (Ready .startReq m) [b]
      (At .reqMethod { m.fresh with method := y } (indexIs 1) (bs.length + (r + 1)))
      [.notify (.messageBegin m.fresh)] := by
    refine reads_first rfl ha rfl rfl ?_ fun h i n ↦ ⟨h, 1, ?_, rfl⟩
    · rw [hx, List.length_cons] at hr
      omega
    · have hlf : ¬(b = cr ∨ b = lf) := by
        rintro (rfl | rfl) <;> exact hrange (by decide)
      change startReq _ b = _
      simp only [startReq, if_neg hlf, if_neg hrange, startReqMethodAssign, hfirst]
      rfl
  have hrest := reads_methodBytes (L := L) (m := m.fresh) (r := r + 1) bs hsp hfold
  have hend : L.Reads
      (At .reqMethod { m.fresh with method := x } (indexIs x.bytes.length) (r + 1)) [' '.toUInt8]
      (At .reqSpacesBeforeUrl { m.fresh with method := x } anyWord r) [] := by
    refine reads_quiet rfl rfl rfl fun h i n hi ↦ ⟨h, i + 1, ?_, trivial⟩
    obtain rfl : i = x.bytes.length := hi
    change reqMethod _ _ = _
    rw [reqMethod, if_neg (by decide)]
    simp [hz]
  rw [hx]
  exact (hbegin.append hrest).append hend

/-! ## Numbers -/

/-- The number that is read from digits, with `n` in front of it. -/
def numberFrom (n : ℕ) (ds : List UInt8) : ℕ := ds.foldl (fun n d ↦ n * 10 + digit d) n

theorem le_numberFrom (n : ℕ) (ds : List UInt8) : n ≤ numberFrom n ds := by
  induction ds generalizing n with
  | nil => exact le_rfl
  | cons d ds ih => exact le_trans (by omega) (ih (n * 10 + digit d))

/-- Digits of a number below 1000. -/
@[mk_iff]
structure Digits (ds : List UInt8) : Prop where
  ne_nil : ds ≠ []
  digit : ∀ d ∈ ds, isDigit d
  le : numberFrom 0 ds ≤ 999

instance (ds : List UInt8) : Decidable (Digits ds) :=
  haveI : Decidable (∀ d ∈ ds, isDigit d) := List.decidableBAll _ ds
  decidable_of_iff _ (digits_iff ds).symm

/-- A number that is read into a field of the message: the digits behind the first one. -/
theorem reads_number {s : State} (hs : s.isHeader) (ho : opened s = []) {f : ℕ → Message}
    (ht : ∀ n, (f n).flags.trailing = false) (h : ∀ (n : ℕ) (b : UInt8), isDigit b →
      n * 10 + digit b ≤ 999 → ∀ h i k, switch L.strict ⟨f n, s, h, i, k⟩ b 1 =
        .next ⟨f (n * 10 + digit b), s, h, i, k⟩) {ds : List UInt8} (hds : ∀ d ∈ ds, isDigit d)
    {n : ℕ} (hn : numberFrom n ds ≤ 999) :
    L.Reads (At s (f n) anyWord (ds.length + r)) ds
      (At s (f (numberFrom n ds)) anyWord r) [] := by
  induction ds generalizing n with
  | nil =>
    rw [List.length_nil, Nat.zero_add]
    exact Scanner.Reads.nil fun c hc ↦ hc
  | cons d ds ih =>
    have hfirst : L.Reads (At s (f n) anyWord (ds.length + r + 1))
        [d] (At s (f (n * 10 + digit d)) anyWord (ds.length + r)) [] := by
      refine reads_quiet hs ((ht _).trans (ht _).symm) ho fun h₁ i k _ ↦ ⟨h₁, i, ?_, trivial⟩
      exact h n d (hds d (by simp)) (le_trans (le_numberFrom _ ds) hn) h₁ i k
    rw [List.length_cons, Nat.add_right_comm]
    exact hfirst.append (ih (fun d' hd' ↦ hds d' (by simp [hd'])) hn)

/-! ## Fixed bytes -/

/-- From `s` to `t` by bytes that change nothing but the state. -/
def Spells (strict : Bool) : State → List (UInt8 × State) → State → Prop
  | s, [], t => s = t
  | s, (b, s') :: l, t => s.isHeader ∧ opened s' = [] ∧
      (∀ m h i n, switch strict ⟨m, s, h, i, n⟩ b 1 = .next ⟨m, s', h, i, n⟩) ∧
      Spells strict s' l t

theorem reads_spelled {s t : State} {l : List (UInt8 × State)} (h : Spells L.strict s l t) :
    L.Reads (At s m anyWord (l.length + r)) (l.map Prod.fst)
      (At t m anyWord r) [] := by
  induction l generalizing s with
  | nil =>
    obtain rfl : s = t := h
    rw [List.length_nil, Nat.zero_add]
    exact Scanner.Reads.nil fun c hc ↦ hc
  | cons x l ih =>
    obtain ⟨hs, ho, hnext, hrest⟩ := h
    have hfirst : L.Reads (At s m anyWord (l.length + r + 1)) [x.1]
        (At x.2 m anyWord (l.length + r)) [] :=
      reads_quiet hs rfl ho fun h₁ i n _ ↦ ⟨h₁, i, hnext m h₁ i n, trivial⟩
    rw [List.length_cons, Nat.add_right_comm]
    exact hfirst.append (ih hrest)

/-! ## Versions -/

structure Version where
  major : List UInt8
  minor : List UInt8
  deriving DecidableEq, Repr

namespace Version

def bytes (v : Version) : List UInt8 := text "HTTP/" ++ (v.major ++ ('.'.toUInt8 :: v.minor))

theorem length_bytes (v : Version) :
    v.bytes.length = v.major.length + (v.minor.length + 1) + 5 := by
  rw [bytes, List.length_append, List.length_append, List.length_cons]
  exact Nat.add_comm _ _

@[mk_iff]
structure Good (v : Version) : Prop where
  major : Digits v.major
  head : v.major.head? ≠ some '0'.toUInt8
  minor : Digits v.minor

instance (v : Version) : Decidable v.Good := decidable_of_iff _ (good_iff v).symm

/-- The message with the version. -/
def store (v : Version) (m : Message) : Message :=
  { m with httpMajor := numberFrom 0 v.major, httpMinor := numberFrom 0 v.minor }

end Version

theorem first_of_isDigit {b : UInt8} (h : isDigit b) (hz : b ≠ '0'.toUInt8) :
    ¬(b < '1'.toUInt8 ∨ '9'.toUInt8 < b) := by
  obtain ⟨hlo, hhi⟩ : '0'.toUInt8.toNat ≤ b.toNat ∧ b.toNat ≤ '9'.toUInt8.toNat := by
    simpa [isDigit, UInt8.le_iff_toNat_le] using h
  change 0x30 ≤ b.toNat at hlo
  change b.toNat ≤ 0x39 at hhi
  have hne : b.toNat ≠ 0x30 := fun heq ↦ hz (UInt8.toNat_inj.mp heq)
  rw [UInt8.lt_iff_toNat_lt, UInt8.lt_iff_toNat_lt]
  change ¬(b.toNat < 0x31 ∨ 0x39 < b.toNat)
  omega

theorem httpMajor_digit {c : Parser} {b : UInt8} {s : State} (hb : isDigit b)
    (hn : c.httpMajor * 10 + digit b ≤ 999) :
    httpMajor c b s = .next { c with httpMajor := c.httpMajor * 10 + digit b } := by
  have hdot : b ≠ '.'.toUInt8 := by rintro rfl; revert hb; decide
  have hmod : (c.httpMajor * 10 + digit b) % 2 ^ 16 = c.httpMajor * 10 + digit b :=
    Nat.mod_eq_of_lt (by omega)
  rw [httpMajor, if_neg hdot, if_neg (by simpa using hb)]
  simp only [hmod, if_neg (show ¬c.httpMajor * 10 + digit b > 999 by omega)]

theorem httpMinor_digit {c : Parser} {b : UInt8} (hb : isDigit b)
    (hn : c.httpMinor * 10 + digit b ≤ 999) :
    httpMinor c b = .next { c with httpMinor := c.httpMinor * 10 + digit b } := by
  have hmod : (c.httpMinor * 10 + digit b) % 2 ^ 16 = c.httpMinor * 10 + digit b :=
    Nat.mod_eq_of_lt (by omega)
  rw [httpMinor, if_neg (by simpa using hb)]
  simp only [hmod, if_neg (show ¬c.httpMinor * 10 + digit b > 999 by omega)]

theorem numberFrom_cons (d : UInt8) (ds : List UInt8) :
    numberFrom 0 (d :: ds) = numberFrom (digit d) ds := by
  rw [numberFrom, List.foldl_cons, Nat.zero_mul, Nat.zero_add]
  rfl

/-- The digits of a version, in the states of a request or of a response. -/
theorem reads_digits (s₁ s₂ s₃ s₄ : State)
    (hs : s₁.isHeader ∧ s₂.isHeader ∧ s₃.isHeader ∧ s₄.isHeader)
    (ho : opened s₂ = [] ∧ opened s₃ = [] ∧ opened s₄ = [])
    (h₁ : ∀ m h i n b, switch L.strict ⟨m, s₁, h, i, n⟩ b 1 = firstHttpMajor ⟨m, s₁, h, i, n⟩ b s₂)
    (h₂ : ∀ m h i n b, switch L.strict ⟨m, s₂, h, i, n⟩ b 1 = httpMajor ⟨m, s₂, h, i, n⟩ b s₃)
    (h₃ : ∀ m h i n b, switch L.strict ⟨m, s₃, h, i, n⟩ b 1 = firstHttpMinor ⟨m, s₃, h, i, n⟩ b s₄)
    (h₄ : ∀ m h i n b, isDigit b → switch L.strict ⟨m, s₄, h, i, n⟩ b 1 =
      httpMinor ⟨m, s₄, h, i, n⟩ b)
    (ht : m.flags.trailing = false) {v : Version} (hv : v.Good) :
    L.Reads
      (At s₁ m anyWord (v.major.length + (v.minor.length + r + 1)))
      (v.major ++ '.'.toUInt8 :: v.minor) (At s₄ (v.store m) anyWord r) [] := by
  obtain ⟨hmajor, hhead, hminor⟩ := hv
  obtain ⟨_ | ⟨d, ds⟩, _ | ⟨e, es⟩⟩ := v
  · exact absurd rfl hmajor.ne_nil
  · exact absurd rfl hmajor.ne_nil
  · exact absurd rfl hminor.ne_nil
  have hfirst : L.Reads
      (At s₁ m anyWord (ds.length + (es.length + r + 2) + 1)) [d]
      (At s₂ { m with httpMajor := digit d } anyWord (ds.length + (es.length + r + 2))) [] := by
    refine reads_quiet hs.1 rfl ho.1 fun h i n _ ↦ ⟨h, i, ?_, trivial⟩
    rw [h₁, firstHttpMajor,
      if_neg (first_of_isDigit (hmajor.digit d (by simp)) (by simpa using hhead))]
  have hrest := reads_number (L := L) (r := es.length + r + 2) (n := digit d) (s := s₂)
    (f := fun n ↦ { m with httpMajor := n }) hs.2.1 ho.1 (fun _ ↦ ht)
    (fun n b hb hn h i k ↦ (h₂ _ h i k b).trans (httpMajor_digit hb hn))
    (fun d' hd' ↦ hmajor.digit d' (by simp [hd'])) (numberFrom_cons d ds ▸ hmajor.le)
  have hdot : L.Reads
      (At s₂ { m with httpMajor := numberFrom (digit d) ds } anyWord (es.length + r + 1 + 1))
      ['.'.toUInt8]
      (At s₃ { m with httpMajor := numberFrom (digit d) ds } anyWord (es.length + r + 1)) [] := by
    refine reads_quiet hs.2.1 rfl ho.2.1 fun h i n _ ↦ ⟨h, i, ?_, trivial⟩
    rw [h₂]
    rfl
  have hfirst' : L.Reads
      (At s₃ { m with httpMajor := numberFrom (digit d) ds } anyWord (es.length + r + 1)) [e]
      (At s₄ { m with httpMajor := numberFrom (digit d) ds, httpMinor := digit e } anyWord
        (es.length + r)) [] := by
    refine reads_quiet hs.2.2.1 rfl ho.2.2 fun h i n _ ↦ ⟨h, i, ?_, trivial⟩
    rw [h₃, firstHttpMinor, if_neg (by simpa using hminor.digit e (by simp))]
  have hrest' := reads_number (L := L) (r := r) (n := digit e) (s := s₄)
    (f := fun n ↦ { m with httpMajor := numberFrom (digit d) ds, httpMinor := n }) hs.2.2.2 ho.2.2
    (fun _ ↦ ht) (fun n b hb hn h i k ↦ (h₄ _ h i k b hb).trans (httpMinor_digit hb hn))
    (fun d' hd' ↦ hminor.digit d' (by simp [hd'])) (numberFrom_cons e es ▸ hminor.le)
  have hall := (((hfirst.append hrest).append hdot).append hfirst').append hrest'
  rw [Version.store, numberFrom_cons, numberFrom_cons]
  refine reads_room (by simpa using hall) ?_
  simp only [List.length_cons]
  omega

/-! ## Request lines -/

structure RequestLine where
  method : Method
  target : Target
  version : Version
  deriving DecidableEq, Repr

namespace RequestLine

def bytes (l : RequestLine) : List UInt8 :=
  l.method.bytes ++ [' '.toUInt8] ++ (l.target.bytes ++ [' '.toUInt8]) ++
    (l.version.bytes ++ [cr, lf])

@[mk_iff]
structure Good (l : RequestLine) : Prop where
  target : l.target.Good
  version : l.version.Good

instance (l : RequestLine) : Decidable l.Good := decidable_of_iff _ (good_iff l).symm

/-- The message behind the line. -/
def store (l : RequestLine) (m : Message) : Message :=
  l.version.store { m.fresh with method := l.method }

def told (l : RequestLine) (m : Message) : List (Event UInt8 Kind Notice) :=
  .notify (.messageBegin m.fresh) :: urlTold l.target.bytes l.target.parts

end RequestLine

theorem spells_requestVersion : Spells L.strict .reqHttpStart
    [('H'.toUInt8, .reqHttpH), ('T'.toUInt8, .reqHttpHT), ('T'.toUInt8, .reqHttpHTT),
      ('P'.toUInt8, .reqHttpHTTP), ('/'.toUInt8, .reqFirstHttpMajor)] .reqFirstHttpMajor :=
  ⟨rfl, rfl, fun _ _ _ _ ↦ rfl, rfl, rfl, fun _ _ _ _ ↦ strictCheck_self _ _ _, rfl, rfl,
    fun _ _ _ _ ↦ strictCheck_self _ _ _, rfl, rfl, fun _ _ _ _ ↦ strictCheck_self _ _ _, rfl, rfl,
    fun _ _ _ _ ↦ strictCheck_self _ _ _, rfl⟩

theorem spells_requestEnd : Spells L.strict .reqHttpMinor
    [(cr, .reqLineAlmostDone), (lf, .headerFieldStart)] .headerFieldStart :=
  ⟨rfl, rfl, fun _ _ _ _ ↦ rfl, rfl, rfl, fun _ _ _ _ ↦ rfl, rfl⟩

theorem switch_requestMinor (m : Message) (h : HeaderState) (i n : ℕ) {b : UInt8} (hb : isDigit b) :
    switch L.strict ⟨m, .reqHttpMinor, h, i, n⟩ b 1 = httpMinor ⟨m, .reqHttpMinor, h, i, n⟩ b := by
  have hcr : b ≠ cr := by rintro rfl; revert hb; decide
  have hlf : b ≠ lf := by rintro rfl; revert hb; decide
  change ite _ _ (ite _ _ _) = _
  rw [if_neg hcr, if_neg hlf]

/-- The version of a request and the end of its line. -/
theorem reads_requestVersion (ht : m.flags.trailing = false) {v : Version} (hv : v.Good) :
    L.Reads (At .reqHttpStart m anyWord (v.bytes.length + (r + 2)))
      (v.bytes ++ [cr, lf]) (At .headerFieldStart (v.store m) anyWord r) [] := by
  have hname := reads_spelled (L := L) (m := m)
    (r := v.major.length + (v.minor.length + (r + 2) + 1)) spells_requestVersion
  have hdigits := reads_digits (L := L) (r := r + 2) .reqFirstHttpMajor .reqHttpMajor
    .reqFirstHttpMinor .reqHttpMinor (by decide)
    (by decide) (fun _ _ _ _ _ ↦ rfl) (fun _ _ _ _ _ ↦ rfl)
    (fun _ _ _ _ _ ↦ rfl) (fun m h i n b hb ↦ switch_requestMinor m h i n hb) ht hv
  have hend := reads_spelled (L := L) (m := v.store m) (r := r) spells_requestEnd
  rw [Version.bytes, List.append_assoc]
  refine reads_room (hname.append (hdigits.append (reads_room hend (Nat.add_comm _ _)))) ?_
  simp [text]
  omega

/-- **The request line.** -/
theorem reads_requestLine (hk : L.settings.Lawful Kind.Beside)
    (ha : ∀ m, L.answer (.messageBegin m) = 0) {l : RequestLine} (hl : l.Good)
    (hr : l.bytes.length + r ≤ maxHeaderSize) :
    L.Reads (Ready .startReq m) l.bytes
      (At .headerFieldStart (l.store m) anyWord r) (l.told m) := by
  have hversion := reads_requestVersion (L := L) (m := { m.fresh with method := l.method })
    (r := r) rfl hl.version
  have htarget := tails_target (L := L) (m := { m.fresh with method := l.method }) hk hl.target
    (l.version.bytes.length + (r + 2))
  have hlen : l.bytes.length = l.method.bytes.length + 1 + (l.target.bytes.length + 1) +
      (l.version.bytes.length + 2) := by
    simp only [RequestLine.bytes, List.length_append, List.length_cons, List.length_nil]
  have hmethod := reads_method (L := L) (m := m)
    (r := l.target.bytes.length + (l.version.bytes.length + (r + 2) + 1)) ha l.method (by omega)
  have hall := (hmethod.append htarget).append hversion
  simpa [RequestLine.bytes, RequestLine.told, RequestLine.store] using hall

/-! ## Status lines -/

structure StatusLine where
  version : Version
  status : List UInt8
  /-- What stands behind the status, with the space in front of it. -/
  reason : Option (List UInt8)
  deriving DecidableEq, Repr

namespace StatusLine

def reasonBytes (l : StatusLine) : List UInt8 :=
  match l.reason with
  | none => []
  | some reason => ' '.toUInt8 :: reason

def bytes (l : StatusLine) : List UInt8 :=
  l.version.bytes ++ (' '.toUInt8 :: l.status) ++ (l.reasonBytes ++ [cr, lf])

@[mk_iff]
structure Good (l : StatusLine) : Prop where
  version : l.version.Good
  status : Digits l.status
  reason : ∀ reason ∈ l.reason, ∀ b ∈ reason, b ≠ cr ∧ b ≠ lf

instance (l : StatusLine) : Decidable l.Good :=
  haveI (reason : List UInt8) : Decidable (∀ b ∈ reason, b ≠ cr ∧ b ≠ lf) :=
    List.decidableBAll _ reason
  decidable_of_iff _ (good_iff l).symm

/-- The message behind the line. -/
def store (l : StatusLine) (m : Message) : Message :=
  { l.version.store m.fresh with statusCode := numberFrom 0 l.status }

def told (m : Message) : List (Event UInt8 Kind Notice) := [.notify (.messageBegin m.fresh)]

end StatusLine

theorem spells_responseVersion : Spells L.strict .resH
    [('T'.toUInt8, .resHT), ('T'.toUInt8, .resHTT), ('P'.toUInt8, .resHTTP),
      ('/'.toUInt8, .resFirstHttpMajor)] .resFirstHttpMajor :=
  ⟨rfl, rfl, fun _ _ _ _ ↦ strictCheck_self _ _ _, rfl, rfl,
    fun _ _ _ _ ↦ strictCheck_self _ _ _, rfl, rfl, fun _ _ _ _ ↦ strictCheck_self _ _ _, rfl, rfl,
    fun _ _ _ _ ↦ strictCheck_self _ _ _, rfl⟩

theorem spells_responseEnd {s : State} (hs : s = .resStatusCode ∨ s = .resStatus) :
    Spells L.strict s [(cr, .resLineAlmostDone), (lf, .headerFieldStart)] .headerFieldStart := by
  refine ⟨?_, rfl, fun _ _ _ _ ↦ ?_, rfl, rfl, fun _ _ _ _ ↦ strictCheck_self _ _ _, rfl⟩
  · rcases hs with rfl | rfl <;> rfl
  · rcases hs with rfl | rfl <;> rfl

theorem resStatusCode_digit {c : Parser} {b : UInt8} (hb : isDigit b)
    (hn : c.statusCode * 10 + digit b ≤ 999) :
    resStatusCode c b = .next { c with statusCode := c.statusCode * 10 + digit b } := by
  have hmod : (c.statusCode * 10 + digit b) % 2 ^ 16 = c.statusCode * 10 + digit b :=
    Nat.mod_eq_of_lt (by omega)
  rw [resStatusCode, if_neg (by simpa using hb)]
  simp only [hmod, if_neg (show ¬c.statusCode * 10 + digit b > 999 by omega)]

theorem switch_responseMinor (m : Message) (h : HeaderState) (i n : ℕ) {b : UInt8}
    (hb : isDigit b) :
    switch L.strict ⟨m, .resHttpMinor, h, i, n⟩ b 1 = httpMinor ⟨m, .resHttpMinor, h, i, n⟩ b := by
  have hsp : b ≠ ' '.toUInt8 := by rintro rfl; revert hb; decide
  exact if_neg hsp

/-- The space, the status, and the state behind it. -/
theorem reads_status (ht : m.flags.trailing = false) {ds : List UInt8} (hds : Digits ds) :
    L.Reads (At .resHttpMinor m anyWord (ds.length + r + 1))
      (' '.toUInt8 :: ds)
      (At .resStatusCode { m with statusCode := numberFrom 0 ds } anyWord r) [] := by
  obtain ⟨d, ds, rfl⟩ := List.exists_cons_of_ne_nil hds.ne_nil
  have hspace : L.Reads
      (At .resHttpMinor m anyWord (ds.length + r + 2)) [' '.toUInt8]
      (At .resFirstStatusCode m anyWord (ds.length + r + 1)) [] :=
    reads_quiet rfl rfl rfl fun h i n _ ↦ ⟨h, i, rfl, trivial⟩
  have hfirst : L.Reads
      (At .resFirstStatusCode m anyWord (ds.length + r + 1)) [d]
      (At .resStatusCode { m with statusCode := digit d } anyWord (ds.length + r)) [] := by
    refine reads_quiet rfl rfl rfl fun h i n _ ↦ ⟨h, i, ?_, trivial⟩
    change resFirstStatusCode _ d = _
    rw [resFirstStatusCode, if_neg (by simpa using hds.digit d (by simp))]
  have hrest := reads_number (L := L) (r := r) (n := digit d) (s := .resStatusCode)
    (f := fun n ↦ { m with statusCode := n }) rfl rfl (fun _ ↦ ht)
    (fun _ b hb hn _ _ _ ↦ resStatusCode_digit hb hn)
    (fun d' hd' ↦ hds.digit d' (by simp [hd'])) (numberFrom_cons d ds ▸ hds.le)
  rw [numberFrom_cons]
  refine reads_room ((hspace.append hfirst).append hrest) ?_
  simp only [List.length_cons]
  omega

/-- Bytes between the status and the end of the line. -/
theorem reads_reason {bs : List UInt8} (hbs : ∀ b ∈ bs, b ≠ cr ∧ b ≠ lf) :
    L.Reads (At .resStatus m anyWord (bs.length + r)) bs
      (At .resStatus m anyWord r) [] := by
  have hall : Spells L.strict .resStatus (bs.map fun b ↦ (b, .resStatus)) .resStatus := by
    induction bs with
    | nil => rfl
    | cons b bs ih =>
      refine ⟨rfl, rfl, fun m h i n ↦ ?_, ih fun b' hb' ↦ hbs b' (by simp [hb'])⟩
      change ite _ _ (ite _ _ _) = _
      rw [if_neg (hbs b (by simp)).1, if_neg (hbs b (by simp)).2]
  simpa [Function.comp_def] using
    reads_spelled (L := L) (m := m) (r := r) hall

/-- The end of a status line. -/
theorem reads_reasonEnd {l : StatusLine} (hl : ∀ reason ∈ l.reason, ∀ b ∈ reason, b ≠ cr ∧ b ≠ lf) :
    L.Reads
      (At .resStatusCode m anyWord (l.reasonBytes.length + (r + 2)))
      (l.reasonBytes ++ [cr, lf]) (At .headerFieldStart m anyWord r) [] := by
  have hend := fun s hs ↦ reads_room
    (reads_spelled (L := L) (m := m) (r := r) (spells_responseEnd (s := s) hs)) (Nat.add_comm _ _)
  rw [StatusLine.reasonBytes]
  rcases hreason : l.reason with _ | reason
  · simpa using hend .resStatusCode (.inl rfl)
  · have hspace : L.Reads
        (At .resStatusCode m anyWord (reason.length + (r + 2) + 1)) [' '.toUInt8]
        (At .resStatus m anyWord (reason.length + (r + 2))) [] :=
      reads_quiet rfl rfl rfl fun h i n _ ↦ ⟨h, i, rfl, trivial⟩
    have htext := reads_reason (L := L) (m := m)
      (r := r + 2) (hl reason hreason)
    refine reads_room ((hspace.append htext).append (hend .resStatus (.inr rfl))) ?_
    simp only [List.length_cons]
    omega

/-- **The status line.** -/
theorem reads_statusLine (ha : ∀ m, L.answer (.messageBegin m) = 0) {l : StatusLine} (hl : l.Good)
    (hr : l.bytes.length + r ≤ maxHeaderSize) :
    L.Reads (Ready .startRes m) l.bytes
      (At .headerFieldStart (l.store m) anyWord r) (StatusLine.told m) := by
  have hlen : l.bytes.length = l.version.major.length + (l.version.minor.length + 1) + 5 +
      (l.status.length + 1) + (l.reasonBytes.length + 2) := by
    simp only [StatusLine.bytes, Version.length_bytes, List.length_append, List.length_cons,
      List.length_nil]
  have hbegin : L.Reads (Ready .startRes m) ['H'.toUInt8]
      (At .resH m.fresh anyWord (l.version.major.length + (l.version.minor.length +
        (l.status.length + (l.reasonBytes.length + (r + 2)) + 1) + 1) + 4)) (StatusLine.told m) :=
    reads_first rfl ha rfl rfl (by omega) fun h i n ↦ ⟨h, i, rfl, trivial⟩
  have hname := reads_spelled (L := L) (m := m.fresh)
    (r := l.version.major.length + (l.version.minor.length +
      (l.status.length + (l.reasonBytes.length + (r + 2)) + 1) + 1)) spells_responseVersion
  have hdigits := reads_digits (L := L) (m := m.fresh)
    (r := l.status.length + (l.reasonBytes.length + (r + 2)) + 1)
    .resFirstHttpMajor .resHttpMajor .resFirstHttpMinor .resHttpMinor (by decide)
    (by decide) (fun _ _ _ _ _ ↦ rfl) (fun _ _ _ _ _ ↦ rfl)
    (fun _ _ _ _ _ ↦ rfl) (fun m h i n b hb ↦ switch_responseMinor m h i n hb) rfl hl.version
  have hstatus := reads_status (L := L) (m := l.version.store m.fresh)
    (r := l.reasonBytes.length + (r + 2)) rfl hl.status
  have hend := reads_reasonEnd (L := L) (m := l.store m) (r := r) hl.reason
  have hall := (((hbegin.append (reads_room hname (Nat.add_comm _ _))).append hdigits).append
    hstatus).append hend
  simpa [StatusLine.bytes, Version.bytes, text] using hall

end SpiderNode.HttpParser
