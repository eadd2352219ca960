import SpiderNode.HttpParser.Reading

/-!
# The URL of a request

The parser hands over the URL, and in it the path, the query and the fragment. `Target.parts` says
what these are as texts of the URL, and `reads_target` that the parser finds them.
-/

namespace SpiderNode.HttpParser

open Scanner (Code Event texts)

variable {σ : Type*} {L : Listener σ}
  {m : Message} {w : Word} {r : ℕ}

/-! ## What is told -/

/-- Parts of a URL, with their kinds. -/
abbrev Parts := List (Kind × List UInt8)

def partsTold (ps : Parts) : List (Event UInt8 Kind Notice) := ps.map fun p ↦ .data p.1 p.2

/-- A piece of a URL, and the pieces of its parts in it. -/
def urlTold (x : List UInt8) (ps : Parts) : List (Event UInt8 Kind Notice) :=
  .data .url x :: partsTold ps

/-- None of the parts is the URL itself. -/
def Inner (ps : Parts) : Prop := ∀ p ∈ ps, p.1.IsPart

theorem play_told_comm (hk : L.settings.Lawful Kind.Beside) {ps : Parts} (h : Inner ps)
    (y : List UInt8) (u : σ) :
    L.settings.play (partsTold ps) (L.settings.data .url y u).1 =
      (L.settings.data .url y (L.settings.play (partsTold ps) u)).1 := by
  induction ps generalizing u with
  | nil => rfl
  | cons p ps ih =>
    have hp : Kind.Beside .url p.1 := .inl ⟨rfl, h p (by simp)⟩
    rw [partsTold, List.map_cons, L.settings.play_cons, L.settings.play_cons]
    change L.settings.play (partsTold ps)
      (L.settings.data p.1 p.2 (L.settings.data .url y u).1).1 = _
    rw [← hk.data_comm y p.2 u hp]
    exact ih (fun q hq ↦ h q (by simp [hq])) _

/-- Pieces of a URL one after the other. -/
theorem play_urlTold_append (hk : L.settings.Lawful Kind.Beside) {x : List UInt8} (hx : x ≠ [])
    (y : List UInt8) {ps : Parts} (h : Inner ps) (qs : Parts) (u : σ) :
    L.settings.play (urlTold x ps ++ urlTold y qs) u =
      L.settings.play (urlTold (x ++ y) (ps ++ qs)) u := by
  rw [L.settings.play_append]
  change L.settings.play (partsTold qs)
    (L.settings.data .url y (L.settings.play (partsTold ps) (L.settings.data .url x u).1)).1 =
      L.settings.play (partsTold (ps ++ qs)) (L.settings.data .url (x ++ y) u).1
  rw [← play_told_comm hk h, ← hk.data_append .url y u hx, partsTold, partsTold, partsTold,
    List.map_append, L.settings.play_append]

/-- Two pieces of the same part. -/
theorem play_told_merge (hk : L.settings.Lawful Kind.Beside) (ps qs : Parts) (d : Kind)
    {t : List UInt8} (ht : t ≠ []) (t' : List UInt8) (u : σ) :
    L.settings.play (partsTold (ps ++ (d, t) :: (d, t') :: qs)) u =
      L.settings.play (partsTold (ps ++ (d, t ++ t') :: qs)) u := by
  simp only [partsTold, List.map_append, List.map_cons, L.settings.play_append,
    L.settings.play_cons]
  change L.settings.play _ (L.settings.data d t' (L.settings.data d t _).1).1 =
    L.settings.play _ (L.settings.data d (t ++ t') _).1
  rw [hk.data_append d t' _ ht]

variable {P Q S : Parser → Prop} {a b x y : List UInt8} {ps qs : Parts}

theorem reads_url_append (hk : L.settings.Lawful Kind.Beside) (hx : x ≠ []) (hps : Inner ps)
    (h : L.Reads P a Q (urlTold x ps))
    (h' : L.Reads Q b S (urlTold y qs)) :
    L.Reads P (a ++ b) S (urlTold (x ++ y) (ps ++ qs)) :=
  (h.append h').told (play_urlTold_append hk hx y hps qs)

theorem reads_url_merge (hk : L.settings.Lawful Kind.Beside) (ps : Parts) {d : Kind}
    {t t' : List UInt8}
    (ht : t ≠ []) (h : L.Reads P a Q
      (urlTold x (ps ++ (d, t) :: (d, t') :: qs))) :
    L.Reads P a Q (urlTold x (ps ++ (d, t ++ t') :: qs)) :=
  h.told fun _ ↦ play_told_merge hk ps qs d ht t' _

/-- A part that is open with the URL. -/
theorem play_texts_part (hk : L.settings.Lawful Kind.Beside) {d : Kind} (hd : d.IsPart)
    (t : List UInt8) (u : σ) :
    L.settings.play (texts [d, .url] t) u = L.settings.play (urlTold t [(d, t)]) u :=
  hk.data_comm t t u (.inl ⟨rfl, hd⟩)

/-- A part that ends before the URL does. -/
theorem play_closed (hk : L.settings.Lawful Kind.Beside) {d : Kind} (hd : d.IsPart)
    (t : List UInt8) (u : σ) :
    L.settings.play ([.data d []] ++ texts [.url] t) u = L.settings.play (urlTold t [(d, [])]) u :=
  hk.data_comm t [] u (.inl ⟨rfl, hd⟩)

/-! ## Bytes of a URL -/

/-- A byte that is in all parts of a URL. -/
def printable (b : UInt8) : Bool := normalUrlChar b ∨ b = '?'.toUInt8 ∨ b = '#'.toUInt8

theorem normal_of_printable {ch : UInt8} (h : printable ch) (hq : ch ≠ '?'.toUInt8)
    (hf : ch ≠ '#'.toUInt8) :
    normalUrlChar ch := by
  simpa [printable, hq, hf] using h

theorem byte_marks (b : UInt8) (code : Step)
    (hcode : ∀ S, code.byte L.answer b S = code.byte L.answer b ∅) (ds : List Kind)
    (S : Finset Kind) :
    (ds.foldr Code.mark code).byte L.answer b S = code.byte L.answer b ∅ := by
  induction ds generalizing S with
  | nil => exact hcode S
  | cons d ds ih => exact ih _

/-- A byte of a part, that may be its first one. -/
theorem reads_partByte (hk : L.settings.Lawful Kind.Beside) {s s' : State} (hs : s.isHeader)
    {d : Kind} (hd : d.IsPart) (ho : opened s' = [d, .url]) {b : UInt8}
    (h : ∀ h i n, ∃ ds, switch L.strict ⟨m, s, h, i, n⟩ b 1 =
      List.foldr Code.mark (.next ⟨m, s', h, i, n⟩) ds) :
    L.Reads (At s m anyWord (r + 1)) [b] (At s' m anyWord r)
      (urlTold [b] [(d, [b])]) := by
  refine reads_byte hs rfl fun h₁ i n _ ↦ ⟨h₁, i, [], ?_, trivial, fun u ↦ ?_⟩
  · obtain ⟨ds, hcode⟩ := h h₁ i n
    rw [hcode, byte_marks _ _ fun _ ↦ rfl]
    rfl
  · rw [List.nil_append, ho]
    exact play_texts_part hk hd [b] u

/-- A byte of the URL that is in none of its parts. -/
theorem reads_between {s s' : State} (hs : s.isHeader) (ho : opened s' = [.url]) {b : UInt8}
    (h : ∀ h i n, ∃ ds, switch L.strict ⟨m, s, h, i, n⟩ b 1 =
      List.foldr Code.mark (.next ⟨m, s', h, i, n⟩) ds) :
    L.Reads (At s m anyWord (r + 1)) [b] (At s' m anyWord r)
      (urlTold [b] []) := by
  refine reads_byte hs rfl fun h₁ i n _ ↦ ⟨h₁, i, [], ?_, trivial, fun u ↦ by rw [ho]; rfl⟩
  obtain ⟨ds, hcode⟩ := h h₁ i n
  rw [hcode, byte_marks _ _ fun _ ↦ rfl]
  rfl

/-- A byte behind a part. -/
theorem reads_closing (hk : L.settings.Lawful Kind.Beside) {s s' : State} (hs : s.isHeader)
    {d : Kind} (hd : d.IsPart) (hopen : d ∈ opens s) (ho : opened s' = [.url]) {b : UInt8}
    (h : ∀ h i n, switch L.strict ⟨m, s, h, i, n⟩ b 1 =
      callback d ⟨m, s, h, i, n⟩ (goto ⟨m, s, h, i, n⟩ s')) :
    L.Reads (At s m anyWord (r + 1)) [b] (At s' m anyWord r)
      (urlTold [b] [(d, [])]) := by
  refine reads_byte hs rfl fun h₁ i n _ ↦ ⟨h₁, i, [.data d []], ?_, trivial, fun u ↦ ?_⟩
  · rw [h, callback, Code.byte, if_pos hopen]
    rfl
  · rw [ho]
    exact play_closed hk hd [b] u

/-! ## The end of a URL -/

/-- The space behind a URL. -/
theorem reads_urlEnd {s : State} (hs : s.isHeader) (ds : List Kind)
    (hopen : ∀ d ∈ Kind.url :: ds, d ∈ opens s) (hnd : (Kind.url :: ds).Nodup)
    (h : ∀ h i n, switch L.strict ⟨m, s, h, i, n⟩ ' '.toUInt8 1 =
      callbacks (.url :: ds) ⟨m, s, h, i, n⟩ (goto ⟨m, s, h, i, n⟩ .reqHttpStart)) :
    L.Reads (At s m anyWord (r + 1)) [' '.toUInt8]
      (At .reqHttpStart m anyWord r) (urlTold [] (ds.map fun d ↦ (d, []))) := by
  refine reads_byte hs rfl fun h₁ i n _ ↦ ⟨h₁, i, urlTold [] (ds.map fun d ↦ (d, [])), ?_, trivial,
    fun u ↦ ?_⟩
  · rw [h]
    have hall : ∀ (ds : List Kind) (S : Finset Kind), (∀ d ∈ ds, d ∈ S) → ds.Nodup →
        (callbacks ds ⟨m, s, h₁, i, n⟩ (goto ⟨m, s, h₁, i, n⟩ .reqHttpStart)).byte L.answer
          ' '.toUInt8 S = .ok (⟨m, .reqHttpStart, h₁, i, n⟩, ds.map fun d ↦ .data d []) := by
      intro ds
      induction ds with
      | nil => exact fun _ _ _ ↦ rfl
      | cons d ds ih =>
        intro S hS hnd
        obtain ⟨hd, hnd⟩ := List.nodup_cons.mp hnd
        have hrest := ih (S.erase d) (fun d' hd' ↦ Finset.mem_erase.mpr
          ⟨fun heq ↦ hd (heq ▸ hd'), hS d' (by simp [hd'])⟩) hnd
        rw [callbacks, List.foldr_cons, callback, Code.byte, if_pos (hS d (by simp)), if_pos rfl]
        rw [callbacks] at hrest
        rw [hrest]
        rfl
    rw [hall _ _ hopen hnd]
    simp [urlTold, partsTold]
  · simp [opened, opens, texts]

/-! ## The parts of a URL -/

/-- A text that is told if it is not empty. -/
def part (d : Kind) (t : List UInt8) : Parts := if t = [] then [] else [(d, t)]

/-- What stands behind the first `#`. -/
def fragmentParts (f : List UInt8) : Parts :=
  part .fragment (f.dropWhile (· = '#'.toUInt8))

/-- What stands behind the first `?`, if it is in front of the first `#`. -/
def queryParts (q : List UInt8) : Parts :=
  let q := q.dropWhile (· = '?'.toUInt8)
  part .queryString (q.takeWhile (· ≠ '#'.toUInt8)) ++
    match q.dropWhile (· ≠ '#'.toUInt8) with
    | [] => []
    | _ :: f => fragmentParts f

/-- The parts of a URL that begins with its path. -/
def pathParts (p : List UInt8) : Parts :=
  (.path, p.takeWhile normalUrlChar) ::
    match p.dropWhile normalUrlChar with
    | [] => []
    | b :: rest => if b = '?'.toUInt8 then queryParts rest else fragmentParts rest

/-- The behaviour of the parser in `s` on the rest of a URL. -/
def Tails (L : Listener σ) (s : State) (m : Message)
    (t : List UInt8) (ps : Parts) : Prop :=
  ∀ r, L.Reads (At s m anyWord (t.length + (r + 1)))
    (t ++ [' '.toUInt8]) (At .reqHttpStart m anyWord r) (urlTold t ps)

theorem inner_nil : Inner [] := by simp [Inner]

theorem inner_part {d : Kind} (hd : d.IsPart) (t : List UInt8) : Inner [(d, t)] := by
  simpa [Inner] using hd

/-- The end of the URL. -/
theorem tails_nil {s : State} (hs : s.isHeader) (ds : List Kind)
    (hopen : ∀ d ∈ Kind.url :: ds, d ∈ opens s) (hnd : (Kind.url :: ds).Nodup)
    (h : ∀ h i n, switch L.strict ⟨m, s, h, i, n⟩ ' '.toUInt8 1 =
      callbacks (.url :: ds) ⟨m, s, h, i, n⟩ (goto ⟨m, s, h, i, n⟩ .reqHttpStart)) :
    Tails L s m [] (ds.map fun d ↦ (d, [])) := by
  intro r
  rw [List.length_nil, Nat.zero_add]
  exact reads_urlEnd hs ds hopen hnd h

/-- One byte more. -/
theorem Tails.cons (hk : L.settings.Lawful Kind.Beside) {s s' : State} {b : UInt8} {t : List UInt8}
    {ps qs : Parts} (hps : Inner ps)
    (h : ∀ r, L.Reads (At s m anyWord (r + 1)) [b]
      (At s' m anyWord r) (urlTold [b] ps)) (h' : Tails L s' m t qs) :
    Tails L s m (b :: t) (ps ++ qs) := by
  intro r
  rw [List.length_cons, Nat.add_right_comm]
  exact reads_url_append (a := [b]) hk (List.cons_ne_nil b []) hps (h _) (h' r)

/-- One byte more of the part that comes first. -/
theorem Tails.cons_part (hk : L.settings.Lawful Kind.Beside) {s s' : State} {b : UInt8}
    {t t' : List UInt8} {d : Kind} (hd : d.IsPart) {qs : Parts}
    (h : ∀ r, L.Reads (At s m anyWord (r + 1)) [b]
      (At s' m anyWord r) (urlTold [b] [(d, [b])]))
    (h' : Tails L s' m t ((d, t') :: qs)) :
    Tails L s m (b :: t) ((d, b :: t') :: qs) := by
  intro r
  have hcons := Tails.cons hk (inner_part hd [b]) h h' r
  exact reads_url_merge hk [] (List.cons_ne_nil b []) hcons

theorem switch_fragment {b : UInt8} (hb : printable b) (h : HeaderState) (i n : ℕ) :
    switch L.strict ⟨m, .reqFragment, h, i, n⟩ b 1 = .next ⟨m, .reqFragment, h, i, n⟩ := by
  change reqFragment _ b = _
  unfold reqFragment
  by_cases hn : normalUrlChar b
  · rw [if_pos hn]
  · have hor : b = '?'.toUInt8 ∨ b = '#'.toUInt8 := by simpa [printable, hn] using hb
    rw [if_neg hn]
    rcases hor with rfl | rfl <;> rfl

/-- Inside the fragment. -/
theorem tails_inFragment (hk : L.settings.Lawful Kind.Beside) {t : List UInt8}
    (ht : ∀ b ∈ t, printable b) :
    Tails L .reqFragment m t [(.fragment, t)] := by
  induction t with
  | nil =>
    exact tails_nil (s := .reqFragment) rfl [.fragment] (by decide) (by decide) fun _ _ _ ↦ rfl
  | cons b t ih =>
    refine Tails.cons_part hk rfl (fun r ↦ ?_) (ih fun b' hb' ↦ ht b' (by simp [hb']))
    exact reads_partByte hk rfl rfl rfl fun h i n ↦ ⟨[], switch_fragment (ht b (by simp)) h i n⟩

/-- Behind a `#`. -/
theorem tails_fragment (hk : L.settings.Lawful Kind.Beside) {f : List UInt8}
    (hf : ∀ b ∈ f, printable b) :
    Tails L .reqFragmentStart m f (fragmentParts f) := by
  induction f with
  | nil => exact tails_nil (s := .reqFragmentStart) rfl [] (by decide) (by decide) fun _ _ _ ↦ rfl
  | cons b f ih =>
    have hf' : ∀ b ∈ f, printable b := fun b' hb' ↦ hf b' (by simp [hb'])
    by_cases hhash : b = '#'.toUInt8
    · subst hhash
      have hparts : fragmentParts ('#'.toUInt8 :: f) = [] ++ fragmentParts f := by
        simp [fragmentParts]
      rw [hparts]
      refine Tails.cons hk inner_nil (fun r ↦ ?_) (ih hf')
      exact reads_between rfl rfl fun _ _ _ ↦ ⟨[], rfl⟩
    · have hparts : fragmentParts (b :: f) = [(.fragment, b :: f)] := by
        simp [fragmentParts, part, hhash]
      rw [hparts]
      refine Tails.cons_part hk rfl (fun r ↦ ?_) (tails_inFragment hk hf')
      refine reads_partByte hk rfl rfl rfl fun h i n ↦ ⟨[.fragment], ?_⟩
      change reqFragmentStart _ b = _
      unfold reqFragmentStart
      by_cases hq : b = '?'.toUInt8
      · subst hq
        rfl
      · rw [if_pos (normal_of_printable (hf b (by simp)) hq hhash)]
        rfl

/-- Inside the query. -/
theorem tails_inQuery (hk : L.settings.Lawful Kind.Beside) {t : List UInt8}
    (ht : ∀ b ∈ t, printable b) :
    Tails L .reqQueryString m t
      ((.queryString, t.takeWhile (· ≠ '#'.toUInt8)) ::
        match t.dropWhile (· ≠ '#'.toUInt8) with
        | [] => []
        | _ :: f => fragmentParts f) := by
  induction t with
  | nil =>
    exact tails_nil (s := .reqQueryString) rfl [.queryString] (by decide) (by decide)
      fun _ _ _ ↦ rfl
  | cons b t ih =>
    have ht' : ∀ b ∈ t, printable b := fun b' hb' ↦ ht b' (by simp [hb'])
    by_cases hhash : b = '#'.toUInt8
    · subst hhash
      rw [List.takeWhile_cons_of_neg (by simp), List.dropWhile_cons_of_neg (by simp)]
      refine Tails.cons hk (inner_part rfl []) (fun r ↦ ?_) (tails_fragment hk ht')
      exact reads_closing (s := .reqQueryString) hk rfl rfl (by decide) rfl fun _ _ _ ↦ rfl
    · rw [List.takeWhile_cons_of_pos (by simpa using hhash),
        List.dropWhile_cons_of_pos (by simpa using hhash)]
      refine Tails.cons_part hk rfl (fun r ↦ ?_) (ih ht')
      refine reads_partByte hk rfl rfl rfl fun h i n ↦ ⟨[], ?_⟩
      change reqQueryString _ b = _
      unfold reqQueryString
      by_cases hq : b = '?'.toUInt8
      · subst hq
        rfl
      · rw [if_pos (normal_of_printable (ht b (by simp)) hq hhash)]
        rfl

/-- Behind a `?`. -/
theorem tails_query (hk : L.settings.Lawful Kind.Beside) {q : List UInt8}
    (hq : ∀ b ∈ q, printable b) :
    Tails L .reqQueryStringStart m q (queryParts q) := by
  induction q with
  | nil =>
    exact tails_nil (s := .reqQueryStringStart) rfl [] (by decide) (by decide) fun _ _ _ ↦ rfl
  | cons b q ih =>
    have hq' : ∀ b ∈ q, printable b := fun b' hb' ↦ hq b' (by simp [hb'])
    by_cases hmark : b = '?'.toUInt8
    · subst hmark
      have hparts : queryParts ('?'.toUInt8 :: q) = [] ++ queryParts q := by
        simp [queryParts]
      rw [hparts]
      refine Tails.cons hk inner_nil (fun r ↦ ?_) (ih hq')
      exact reads_between rfl rfl fun _ _ _ ↦ ⟨[], rfl⟩
    · have hdrop : (b :: q).dropWhile (· = '?'.toUInt8) = b :: q :=
        List.dropWhile_cons_of_neg (by simpa using hmark)
      rw [queryParts, hdrop]
      by_cases hhash : b = '#'.toUInt8
      · subst hhash
        rw [List.takeWhile_cons_of_neg (by simp), List.dropWhile_cons_of_neg (by simp)]
        refine Tails.cons hk (by simp [Inner, part]) (fun r ↦ ?_) (tails_fragment hk hq')
        exact reads_between rfl rfl fun _ _ _ ↦ ⟨[], rfl⟩
      · rw [List.takeWhile_cons_of_pos (by simpa using hhash),
          List.dropWhile_cons_of_pos (by simpa using hhash)]
        refine Tails.cons_part hk rfl (fun r ↦ ?_) (tails_inQuery hk hq')
        refine reads_partByte hk rfl rfl rfl fun h i n ↦ ⟨[.queryString], ?_⟩
        change reqQueryStringStart _ b = _
        rw [reqQueryStringStart, if_pos (normal_of_printable (hq b (by simp)) hmark hhash)]
        rfl

/-- Inside the path. -/
theorem tails_inPath (hk : L.settings.Lawful Kind.Beside) {t : List UInt8}
    (ht : ∀ b ∈ t, printable b) :
    Tails L .reqPath m t (pathParts t) := by
  induction t with
  | nil => exact tails_nil (s := .reqPath) rfl [.path] (by decide) (by decide) fun _ _ _ ↦ rfl
  | cons b t ih =>
    have ht' : ∀ b ∈ t, printable b := fun b' hb' ↦ ht b' (by simp [hb'])
    rw [pathParts]
    by_cases hn : normalUrlChar b
    · rw [List.takeWhile_cons_of_pos hn, List.dropWhile_cons_of_pos hn]
      refine Tails.cons_part hk rfl (fun r ↦ ?_) (ih ht')
      refine reads_partByte hk rfl rfl rfl fun h i n ↦ ⟨[], ?_⟩
      change reqPath _ b = _
      rw [reqPath, if_pos hn]
      rfl
    · rw [List.takeWhile_cons_of_neg hn, List.dropWhile_cons_of_neg hn]
      have hor : b = '?'.toUInt8 ∨ b = '#'.toUInt8 := by simpa [printable, hn] using ht b (by simp)
      rcases hor with rfl | rfl
      · refine Tails.cons hk (inner_part rfl []) (fun r ↦ ?_) (tails_query hk ht')
        exact reads_closing (s := .reqPath) hk rfl rfl (by decide) rfl fun _ _ _ ↦ rfl
      · refine Tails.cons hk (inner_part rfl []) (fun r ↦ ?_) (tails_fragment hk ht')
        exact reads_closing (s := .reqPath) hk rfl rfl (by decide) rfl fun _ _ _ ↦ rfl

/-! ## Targets -/

/-- What stands between the spaces of a request line. -/
inductive Target where
  | origin (path : List UInt8)
  | absolute (schema host : List UInt8) (port : Option (List UInt8)) (path : List UInt8)
  deriving DecidableEq, Repr

namespace Target

def portBytes : Option (List UInt8) → List UInt8
  | none => []
  | some port => ':'.toUInt8 :: port

def bytes : Target → List UInt8
  | origin path => path
  | absolute schema host port path =>
    schema ++ (text "://" ++ (host ++ (portBytes port ++ path)))

def parts : Target → Parts
  | origin path => pathParts path
  | absolute _ _ _ path => if path = [] then [] else pathParts path

def isHostByte (b : UInt8) : Bool := isAlpha b ∨ isDigit b ∨ b = '.'.toUInt8 ∨ b = '-'.toUInt8

/-- What the parser takes. -/
def Good : Target → Prop
  | origin path => (path.head? = some '/'.toUInt8 ∨ path.head? = some '*'.toUInt8) ∧
      ∀ b ∈ path, printable b
  | absolute schema host port path => schema ≠ [] ∧ (∀ b ∈ schema, isAlpha b) ∧
      (∀ b ∈ host, isHostByte b) ∧ (∀ p ∈ port, ∀ b ∈ p, isDigit b) ∧
      (path = [] ∨ path.head? = some '/'.toUInt8 ∧ ∀ b ∈ path, printable b)

instance (t : Target) : Decidable t.Good :=
  haveI {p : UInt8 → Prop} [DecidablePred p] (l : List UInt8) : Decidable (∀ b ∈ l, p b) :=
    List.decidableBAll p l
  match t with
  | origin _ => inferInstanceAs (Decidable (_ ∧ _))
  | absolute .. => inferInstanceAs (Decidable (_ ∧ _ ∧ _ ∧ _ ∧ _))

end Target

theorem pathParts_cons {b : UInt8} (h : normalUrlChar b) (t : List UInt8) :
    ∃ t' qs, pathParts t = (.path, t') :: qs ∧ pathParts (b :: t) = (.path, b :: t') :: qs := by
  refine ⟨_, _, rfl, ?_⟩
  rw [pathParts, List.takeWhile_cons_of_pos h, List.dropWhile_cons_of_pos h]

/-- The first byte of the path. -/
theorem tails_path (hk : L.settings.Lawful Kind.Beside) {s : State} (hs : s.isHeader) {b : UInt8}
    (hb : normalUrlChar b) {t : List UInt8} (ht : ∀ b ∈ t, printable b)
    (h : ∀ h i n, ∃ ds, switch L.strict ⟨m, s, h, i, n⟩ b 1 =
      List.foldr Code.mark (.next ⟨m, .reqPath, h, i, n⟩) ds) :
    Tails L s m (b :: t) (pathParts (b :: t)) := by
  obtain ⟨t', qs, hparts, hcons⟩ := pathParts_cons hb t
  have hrest := tails_inPath (L := L) (m := m) hk ht
  rw [hparts] at hrest
  rw [hcons]
  exact Tails.cons_part hk rfl (fun r ↦ reads_partByte hk hs rfl rfl h) hrest

/-- The end of a host or of a port. -/
theorem tails_authority (hk : L.settings.Lawful Kind.Beside) {s : State} (hs : s.isHeader)
    (ho : Kind.url ∈ opens s) {path : List UInt8}
    (hpath : path = [] ∨ path.head? = some '/'.toUInt8 ∧ ∀ b ∈ path, printable b)
    (h : ∀ h i n b, b = '/'.toUInt8 ∨ b = ' '.toUInt8 → ∃ other,
      switch L.strict ⟨m, s, h, i, n⟩ b 1 = authorityEnd ⟨m, s, h, i, n⟩ b other) :
    Tails L s m path (if path = [] then [] else pathParts path) := by
  rcases hpath with rfl | ⟨hhead, hall⟩
  · refine tails_nil hs [] (by simpa using ho) (by simp) fun h₁ i n ↦ ?_
    obtain ⟨other, hcode⟩ := h h₁ i n ' '.toUInt8 (.inr rfl)
    rw [hcode]
    rfl
  · obtain ⟨b, t, rfl⟩ := List.exists_cons_of_ne_nil (l := path) (by rintro rfl; simp at hhead)
    obtain rfl : b = '/'.toUInt8 := by simpa using hhead
    rw [if_neg (List.cons_ne_nil _ _)]
    refine tails_path hk hs (by decide) (fun b hb ↦ hall b (by simp [hb])) fun h₁ i n ↦
      ⟨[.path], ?_⟩
    obtain ⟨other, hcode⟩ := h h₁ i n '/'.toUInt8 (.inl rfl)
    rw [hcode]
    rfl

/-- Bytes of the URL that are in none of its parts. -/
theorem Tails.append_left (hk : L.settings.Lawful Kind.Beside) {s : State} (hs : s.isHeader)
    (ho : opened s = [.url]) {bs t : List UInt8} {ps : Parts}
    (h : ∀ b ∈ bs, ∀ h i n, switch L.strict ⟨m, s, h, i, n⟩ b 1 = .next ⟨m, s, h, i, n⟩)
    (h' : Tails L s m t ps) :
    Tails L s m (bs ++ t) ps := by
  induction bs with
  | nil => exact h'
  | cons b bs ih =>
    refine Tails.cons hk inner_nil (fun r ↦ ?_) (ih fun b' hb' ↦ h b' (by simp [hb']))
    exact reads_between hs ho fun h₁ i n ↦ ⟨[], h b (by simp) h₁ i n⟩

/-- One byte of the URL that is in none of its parts. -/
theorem Tails.cons_between (hk : L.settings.Lawful Kind.Beside) {s s' : State} (hs : s.isHeader)
    (ho : opened s' = [.url]) {b : UInt8} {t : List UInt8} {ps : Parts}
    (h : ∀ h i n, switch L.strict ⟨m, s, h, i, n⟩ b 1 = .next ⟨m, s', h, i, n⟩)
    (h' : Tails L s' m t ps) :
    Tails L s m (b :: t) ps :=
  Tails.cons hk inner_nil
    (fun _ ↦ reads_between hs ho fun h₁ i n ↦ ⟨[], h h₁ i n⟩) h'

theorem switch_host {b : UInt8} (hb : Target.isHostByte b) (h : HeaderState) (i n : ℕ) :
    switch L.strict ⟨m, .reqHost, h, i, n⟩ b 1 = .next ⟨m, .reqHost, h, i, n⟩ := by
  change reqHost _ b = _
  rw [reqHost]
  by_cases ha : isAlpha b
  · rw [if_pos ha]
  · have hor : isDigit b ∨ b = '.'.toUInt8 ∨ b = '-'.toUInt8 := by
      simpa [Target.isHostByte, ha] using hb
    rw [if_neg ha, if_pos hor]

/-- Behind a host. -/
theorem tails_host (hk : L.settings.Lawful Kind.Beside) {port : Option (List UInt8)}
    (hport : ∀ p ∈ port, ∀ b ∈ p, isDigit b) {path : List UInt8}
    (hpath : path = [] ∨ path.head? = some '/'.toUInt8 ∧ ∀ b ∈ path, printable b) :
    Tails L .reqHost m (Target.portBytes port ++ path)
      (if path = [] then [] else pathParts path) := by
  rcases port with _ | port
  · refine tails_authority hk rfl (by decide) hpath fun h i n b hb ↦
      ⟨error ⟨m, .reqHost, h, i, n⟩, ?_⟩
    rcases hb with rfl | rfl <;> rfl
  · refine Tails.cons_between hk rfl (rfl : opened .reqPort = _) (fun _ _ _ ↦ rfl) ?_
    refine Tails.append_left hk rfl rfl (fun b hb h i n ↦ ?_) ?_
    · change reqPort _ b = _
      rw [reqPort, if_pos (hport port rfl b hb)]
    · refine tails_authority hk rfl (by decide) hpath fun h i n b hb ↦
        ⟨error ⟨m, .reqPort, h, i, n⟩, ?_⟩
      rcases hb with rfl | rfl <;> rfl

theorem isAlpha_ne {b : UInt8} (h : isAlpha b) : b ≠ ' '.toUInt8 ∧ b ≠ '/'.toUInt8 ∧
    b ≠ '*'.toUInt8 := by
  refine ⟨?_, ?_, ?_⟩ <;> rintro rfl <;> revert h <;> decide

/-- **The URL** and the space behind it. -/
theorem tails_target (hk : L.settings.Lawful Kind.Beside) {t : Target} (ht : t.Good) :
    Tails L .reqSpacesBeforeUrl m t.bytes t.parts := by
  rcases t with path | ⟨schema, host, port, path⟩
  · obtain ⟨hhead, hall⟩ := ht
    obtain ⟨b, t, rfl⟩ := List.exists_cons_of_ne_nil (l := path)
      (by rintro rfl; rcases hhead with h | h <;> cases h)
    have hb : b = '/'.toUInt8 ∨ b = '*'.toUInt8 := by simpa using hhead
    have hnormal : normalUrlChar b := by rcases hb with rfl | rfl <;> decide
    refine tails_path hk rfl hnormal (fun b hb ↦ hall b (by simp [hb])) fun h i n ↦
      ⟨[.url, .path], ?_⟩
    rcases hb with rfl | rfl <;> rfl
  · obtain ⟨hne, hschema, hhost, hport, hpath⟩ := ht
    obtain ⟨b, schema, rfl⟩ := List.exists_cons_of_ne_nil hne
    have hb := hschema b (by simp)
    obtain ⟨hsp, hslash, hstar⟩ := isAlpha_ne hb
    have hfirst : ∀ h i n, switch L.strict ⟨m, .reqSpacesBeforeUrl, h, i, n⟩ b 1 =
        List.foldr Code.mark (.next ⟨m, .reqSchema, h, i, n⟩) [.url] := by
      intro h i n
      change reqSpacesBeforeUrl _ b = _
      rw [reqSpacesBeforeUrl, if_neg hsp, if_neg (not_or.mpr ⟨hslash, hstar⟩), if_pos hb]
      rfl
    refine Tails.cons hk inner_nil (fun r ↦ reads_between rfl (rfl : opened .reqSchema = _)
      fun h i n ↦ ⟨[.url], hfirst h i n⟩) ?_
    refine Tails.append_left hk rfl rfl (fun b hb h i n ↦ ?_) ?_
    · change reqSchema _ b = _
      rw [reqSchema, if_pos (hschema b (by simp [hb]))]
    refine Tails.cons_between hk rfl (rfl : opened .reqSchemaSlash = _) (fun _ _ _ ↦ rfl) ?_
    refine Tails.cons_between hk rfl (rfl : opened .reqSchemaSlashSlash = _) (fun h i n ↦ ?_) ?_
    · change strictCheck L.strict '/'.toUInt8 '/'.toUInt8 _ _ = _
      exact if_neg (by simp)
    refine Tails.cons_between hk rfl (rfl : opened .reqHost = _) (fun h i n ↦ ?_) ?_
    · change strictCheck L.strict '/'.toUInt8 '/'.toUInt8 _ _ = _
      exact if_neg (by simp)
    change Tails _ _ _ (host ++ (Target.portBytes port ++ path)) _
    exact Tails.append_left hk rfl rfl (fun b hb h i n ↦ switch_host (hhost b hb) h i n)
      (tails_host hk hport hpath)

end SpiderNode.HttpParser
