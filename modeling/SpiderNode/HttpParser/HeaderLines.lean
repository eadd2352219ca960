import SpiderNode.HttpParser.Reading
import SpiderNode.Machine.Keywords
import Mathlib.Algebra.Group.Int.Defs

/-!
# Header lines

A few names of headers mean something to the parser, and for some of them a few values. It
recognizes them while it reads them: `fieldKind` and `Header.store` say which names these are, and
what their values do to the message.
-/

namespace SpiderNode.HttpParser

open Scanner (Code Event texts)
open Keywords (folded PrefixFree Lost)

variable {σ : Type*} {L : Listener σ}
  {m : Message} {r : ℕ}

/-! ## Words -/

/-- In the middle of a word, behind the letter at index `i`; no other keyword goes on from `low`. -/
structure Matching (f : UInt8 → UInt8) (word : String) (low i : ℕ) (w : List UInt8) : Prop where
  low_le : low ≤ i
  lt_length : i + 1 < word.length
  map_eq : w.map f = (text word).take (i + 1)

theorem length_text (word : String) : (text word).length = word.length := by
  rw [text, List.length_map, String.length_toList]

theorem matchWord_recognizes {f : UInt8 → UInt8} {ws : List (List UInt8)} {word : String}
    (found : HeaderState) {low : ℕ} {w : List UInt8} {c : Parser} (hws : PrefixFree ws)
    (hx : text word ∈ ws) (hsp : f ' '.toUInt8 ∉ text word)
    (halone : ∀ y ∈ ws, (text word).take (low + 1) <+: y → y = text word)
    (h : Matching f word low c.index w) (ch : UInt8) :
    (matchWord word found c (f ch) = { c with index := c.index + 1, headerState := .general } ∧
      Lost f ' '.toUInt8 ws (w ++ [ch])) ∨
    (matchWord word found c (f ch) = { c with index := c.index + 1, headerState := found } ∧
      folded f ' '.toUInt8 (w ++ [ch]) = text word) ∨
    (matchWord word found c (f ch) = { c with index := c.index + 1 } ∧
      Matching f word low (c.index + 1) (w ++ [ch])) := by
  obtain ⟨hlow, hlt, hmap⟩ := h
  have hlen := length_text word
  have hget : (text word)[c.index + 1]? = some ((text word ++ [0]).getD (c.index + 1) 0) := by
    rw [List.getD_eq_getElem?_getD, List.getElem?_append_left (by omega),
      List.getElem?_eq_getElem (by omega)]
    rfl
  rw [matchWord]
  split_ifs with h₁ h₂
  · refine .inl ⟨rfl, ?_⟩
    have hne : f ch ≠ (text word ++ [0]).getD (c.index + 1) 0 := h₁.resolve_left (by omega)
    refine Keywords.lost_of_mismatch hws hx hmap (by omega) fun y hy hpre ↦ ?_
    have htake : (text word).take (low + 1) <+: (text word).take (c.index + 1) := by
      rw [← Nat.min_eq_left (show low + 1 ≤ c.index + 1 by omega), ← List.take_take]
      exact List.take_prefix _ _
    rw [halone y hy (htake.trans hpre), hget]
    exact fun heq ↦ hne (Option.some.inj heq).symm
  all_goals
    have heq : f ch = (text word ++ [0]).getD (c.index + 1) 0 := by
      by_contra hne
      exact h₁ (.inr hne)
    have hnext := Keywords.map_append_eq_take hmap (hget.trans (congrArg some heq.symm))
  · refine .inr (.inl ⟨rfl, Keywords.folded_of_complete (hnext.trans ?_) hsp⟩)
    exact List.take_of_length_le (by omega)
  · exact .inr (.inr ⟨rfl, by omega, by omega, hnext⟩)

variable {s : State} {w : List UInt8} {h : HeaderState} {i : ℕ}

/-- A letter of a word, in terms of what is known behind it. -/
theorem matchWord_next {f : UInt8 → UInt8} {ws : List (List UInt8)} {word : String}
    {found : HeaderState} {low : ℕ} {W : Word} {ch : UInt8} (hws : PrefixFree ws)
    (hx : text word ∈ ws) (hsp : f ' '.toUInt8 ∉ text word)
    (halone : ∀ y ∈ ws, (text word).take (low + 1) <+: y → y = text word)
    (hm : Matching f word low i w) (hlost : Lost f ' '.toUInt8 ws (w ++ [ch]) → W .general (i + 1))
    (hfound : folded f ' '.toUInt8 (w ++ [ch]) = text word → W found (i + 1))
    (hgo : Matching f word low (i + 1) (w ++ [ch]) → W h (i + 1)) (n : ℕ) :
    ∃ h' i', Code.next (matchWord word found ⟨m, s, h, i, n⟩ (f ch)) =
      (.next ⟨m, s, h', i', n⟩ : Step) ∧ W h' i' := by
  rcases matchWord_recognizes (c := ⟨m, s, h, i, n⟩) found hws hx hsp halone hm ch with
    ⟨heq, hl⟩ | ⟨heq, hf⟩ | ⟨heq, hm'⟩ <;> rw [heq]
  · exact ⟨.general, _, rfl, hlost hl⟩
  · exact ⟨found, _, rfl, hfound hf⟩
  · exact ⟨h, _, rfl, hgo hm'⟩

/-- A byte behind a word. -/
theorem found_next {f : UInt8 → UInt8} {ws : List (List UInt8)} {x : List UInt8} {W : Word}
    {ch : UInt8} (hws : PrefixFree ws) (hx : x ∈ ws) (hw : folded f ' '.toUInt8 w = x)
    (hlost : Lost f ' '.toUInt8 ws (w ++ [ch]) → W .general i)
    (hgo : folded f ' '.toUInt8 (w ++ [ch]) = x → W h i) (n : ℕ) :
    ∃ h' i', (if ch ≠ ' '.toUInt8 then .next ⟨m, s, .general, i, n⟩ else .next ⟨m, s, h, i, n⟩) =
      (.next ⟨m, s, h', i', n⟩ : Step) ∧ W h' i' := by
  split_ifs with hne
  · exact ⟨.general, i, rfl, hlost (Keywords.lost_of_found hws (hw ▸ hx) hne)⟩
  · obtain rfl := not_not.mp hne
    exact ⟨h, i, rfl, hgo ((Keywords.folded_blank w).trans hw)⟩

/-! ## Names -/

/-- The names that mean something. -/
def fieldWords : List (List UInt8) :=
  [text "connection", text "proxy-connection", text "content-length", text "transfer-encoding",
    text "upgrade"]

/-- A name without the spaces behind it, in lower case. -/
def nameWord (name : List UInt8) : List UInt8 := folded token ' '.toUInt8 name

/-- What a name means. -/
def fieldKind (name : List UInt8) : HeaderState :=
  if nameWord name = text "connection" ∨ nameWord name = text "proxy-connection" then .connection
  else if nameWord name = text "content-length" then .contentLength
  else if nameWord name = text "transfer-encoding" then .transferEncoding
  else if nameWord name = text "upgrade" then .upgrade
  else .general

/-- What is known while a name is read, of which `w` has been read. -/
def Naming (w : List UInt8) : Word := fun h i ↦
  match h with
  | .general => Lost token ' '.toUInt8 fieldWords w
  | .c => i = 0 ∧ w.map token = text "c"
  | .co => i = 1 ∧ w.map token = text "co"
  | .con => i = 2 ∧ w.map token = text "con"
  | .matchingConnection => Matching token "connection" 3 i w
  | .matchingProxyConnection => Matching token "proxy-connection" 0 i w
  | .matchingContentLength => Matching token "content-length" 3 i w
  | .matchingTransferEncoding => Matching token "transfer-encoding" 0 i w
  | .matchingUpgrade => Matching token "upgrade" 0 i w
  | .connection => nameWord w = text "connection" ∨ nameWord w = text "proxy-connection"
  | .contentLength => nameWord w = text "content-length"
  | .transferEncoding => nameWord w = text "transfer-encoding"
  | .upgrade => nameWord w = text "upgrade"
  | _ => False

theorem prefixFree_fieldWords : PrefixFree fieldWords := by decide

/-- What the value of a header sees of the word. -/
def HeaderState.field : HeaderState → HeaderState
  | .connection => .connection
  | .contentLength => .contentLength
  | .transferEncoding => .transferEncoding
  | .upgrade => .upgrade
  | _ => .general

theorem field_of_naming (hw : Naming w h i) :
    h.field = fieldKind w := by
  have hlost : nameWord w ∉ fieldWords → fieldKind w = .general := by
    intro hn
    simp only [fieldWords, List.mem_cons, List.not_mem_nil, or_false, not_or] at hn
    simp [fieldKind, hn]
  have hproper : ∀ x ∈ fieldWords, ∀ n, w.map token = x.take n → n < x.length →
      fieldKind w = .general := by
    intro x hx n hn hlt
    refine hlost (Keywords.folded_not_mem prefixFree_fieldWords hx
      (Keywords.prefix_of_map_eq_take hn) ?_)
    have hlen := congrArg List.length hn
    rw [List.length_map, List.length_take] at hlen
    omega
  have hmatching : ∀ {word low i}, text word ∈ fieldWords → Matching token word low i w →
      fieldKind w = .general := fun {word} _ _ hx hm ↦
    hproper _ hx _ hm.map_eq (by rw [length_text]; exact hm.lt_length)
  cases h with
  | general => exact (hlost hw.not_mem).symm
  | c => exact (hproper (text "connection") (by decide) 1 hw.2 (by decide)).symm
  | co => exact (hproper (text "connection") (by decide) 2 hw.2 (by decide)).symm
  | con => exact (hproper (text "connection") (by decide) 3 hw.2 (by decide)).symm
  | matchingConnection => exact (hmatching (by decide) hw).symm
  | matchingProxyConnection => exact (hmatching (by decide) hw).symm
  | matchingContentLength => exact (hmatching (by decide) hw).symm
  | matchingTransferEncoding => exact (hmatching (by decide) hw).symm
  | matchingUpgrade => exact (hmatching (by decide) hw).symm
  | connection => exact (if_pos hw).symm
  | contentLength =>
    have hw' : nameWord w = text "content-length" := hw
    rw [fieldKind, hw']
    decide
  | transferEncoding =>
    have hw' : nameWord w = text "transfer-encoding" := hw
    rw [fieldKind, hw']
    decide
  | upgrade =>
    have hw' : nameWord w = text "upgrade" := hw
    rw [fieldKind, hw']
    decide
  | _ => exact hw.elim

/-- A letter of one of the first three words. -/
theorem lost_of_prefix {w : List UInt8} {ch : UInt8} (n : ℕ) (letters : List UInt8)
    (hw : w.map token = (text "connection").take n) (hn : n < 10)
    (hall : ∀ y ∈ fieldWords, (text "connection").take n <+: y → ∃ l ∈ letters, y[n]? = some l)
    (hne : ∀ l ∈ letters, token ch ≠ l) :
    Lost token ' '.toUInt8 fieldWords (w ++ [ch]) := by
  refine Keywords.lost_of_mismatch prefixFree_fieldWords (by decide) hw hn fun y hy hpre heq ↦ ?_
  obtain ⟨l, hl, hget⟩ := hall y hy hpre
  exact hne l hl (Option.some.inj (heq.symm.trans hget))

/-- **A byte of a name.** -/
theorem headerName_naming (hw : Naming w h i) (n : ℕ) (ch : UInt8) :
    ∃ h' i', headerName ⟨m, s, h, i, n⟩ ch = .next ⟨m, s, h', i', n⟩ ∧
      Naming (w ++ [ch]) h' i' := by
  have hws := prefixFree_fieldWords
  cases h with
  | general => exact ⟨.general, i, rfl, Lost.append hw ch⟩
  | c =>
    obtain ⟨rfl, hw⟩ := hw
    refine ⟨_, 1, rfl, ?_⟩
    split_ifs with ho
    · exact ⟨rfl, by rw [List.map_append, hw, List.map_singleton, ho]; rfl⟩
    · exact lost_of_prefix 1 ['o'.toUInt8] hw (by decide) (by decide) (by simpa using ho)
  | co =>
    obtain ⟨rfl, hw⟩ := hw
    refine ⟨_, 2, rfl, ?_⟩
    split_ifs with hn
    · exact ⟨rfl, by rw [List.map_append, hw, List.map_singleton, hn]; rfl⟩
    · exact lost_of_prefix 2 ['n'.toUInt8] hw (by decide) (by decide) (by simpa using hn)
  | con =>
    obtain ⟨rfl, hw⟩ := hw
    refine ⟨_, 3, rfl, ?_⟩
    split_ifs with hn ht
    · exact ⟨by decide, by decide, by rw [List.map_append, hw, List.map_singleton, hn]; rfl⟩
    · exact ⟨by decide, by decide, by rw [List.map_append, hw, List.map_singleton, ht]; rfl⟩
    · exact lost_of_prefix 3 ['n'.toUInt8, 't'.toUInt8] hw (by decide) (by decide)
        (by simpa using ⟨hn, ht⟩)
  | matchingConnection =>
    exact matchWord_next hws (by decide) (by decide) (by decide) hw id .inl id n
  | matchingProxyConnection =>
    exact matchWord_next hws (by decide) (by decide) (by decide) hw id .inr id n
  | matchingContentLength =>
    exact matchWord_next hws (by decide) (by decide) (by decide) hw id id id n
  | matchingTransferEncoding =>
    exact matchWord_next hws (by decide) (by decide) (by decide) hw id id id n
  | matchingUpgrade => exact matchWord_next hws (by decide) (by decide) (by decide) hw id id id n
  | connection =>
    rcases hw with hw | hw
    · exact found_next hws (by decide) hw id .inl n
    · exact found_next hws (by decide) hw id .inr n
  | contentLength => exact found_next hws (by decide) hw id id n
  | transferEncoding => exact found_next hws (by decide) hw id id n
  | upgrade => exact found_next hws (by decide) hw id id n
  | _ => exact hw.elim

/-- The first byte of a name. -/
theorem headerFieldStart_naming {b : UInt8} (hb : token b ≠ 0) (h : HeaderState)
    (i n : ℕ) (done : Parser → Step) :
    ∃ h', headerFieldStart ⟨m, s, h, i, n⟩ b done =
      .mark .headerField (.next ⟨m, .headerField, h', 0, n⟩) ∧ Naming [b] h' 0 := by
  have hcr : b ≠ cr := by rintro rfl; revert hb; decide
  have hlf : b ≠ lf := by rintro rfl; revert hb; decide
  unfold headerFieldStart
  simp only [if_neg hcr, if_neg hlf, if_neg hb]
  split_ifs with hc hp ht hu
  · exact ⟨_, rfl, rfl, congrArg (fun l ↦ [l]) hc⟩
  · exact ⟨_, rfl, le_rfl, by decide, congrArg (fun l ↦ [l]) hp⟩
  · exact ⟨_, rfl, le_rfl, by decide, congrArg (fun l ↦ [l]) ht⟩
  · exact ⟨_, rfl, le_rfl, by decide, congrArg (fun l ↦ [l]) hu⟩
  · refine ⟨_, rfl, lost_of_prefix (w := []) 0
      ['c'.toUInt8, 'p'.toUInt8, 't'.toUInt8, 'u'.toUInt8] rfl (by decide) (by decide) ?_⟩
    simpa using ⟨hc, hp, ht, hu⟩

/-- **The name** of a header. -/
theorem reads_name (hk : L.settings.Lawful Kind.Beside) {name : List UInt8} (hne : name ≠ [])
    (hname : ∀ b ∈ name, token b ≠ 0) :
    L.Reads (At .headerFieldStart m anyWord (name.length + r)) name
      (At .headerField m (Naming name) r) (texts [.headerField] name) := by
  obtain ⟨b, bs, rfl⟩ := List.exists_cons_of_ne_nil hne
  have hfirst : L.Reads
      (At .headerFieldStart m anyWord (bs.length + r + 1)) [b]
      (At .headerField m (Naming [b]) (bs.length + r)) (texts [.headerField] [b]) := by
    refine reads_byte rfl rfl fun h i n _ ↦ ?_
    obtain ⟨h', hcode, hw⟩ := headerFieldStart_naming (m := m) (s := .headerFieldStart)
      (hname b (by simp)) h i n (headersAlmostDone L.strict b)
    refine ⟨h', 0, [], ?_, hw, fun _ ↦ rfl⟩
    change (headerFieldStart _ b _).byte L.answer b _ = _
    rw [hcode]
    rfl
  rw [List.length_cons, Nat.add_right_comm]
  rcases eq_or_ne bs [] with rfl | hbs
  · simpa using hfirst
  have hrest := reads_onward (L := L) (r := r) (s := .headerField)
    (m := fun _ ↦ m) (w := Naming) hk rfl (fun _ ↦ rfl) ?_ hbs [b]
  · exact (hfirst.append hrest).told
      (Scanner.play_texts_append hk (List.pairwise_singleton _ _) (List.cons_ne_nil b []) bs)
  · intro xs b' hb' h i n hw
    obtain ⟨h', i', hcode, hw'⟩ := headerName_naming (m := m) (s := .headerField) hw n b'
    refine ⟨h', i', ?_, hw'⟩
    change headerField _ b' = _
    rw [headerField, if_pos (hname b' (by simp [hb'])), hcode]

/-! ## Values -/

/-- A value without the spaces behind it, in lower case. -/
def valueWord (v : List UInt8) : List UInt8 := folded lower ' '.toUInt8 v

def connectionWords : List (List UInt8) := [text "keep-alive", text "close"]

def encodingWords : List (List UInt8) := [text "chunked"]

/-- The number that is read from a value. -/
def lengthOf (v : List UInt8) : ℤ :=
  (v.filter (· ≠ ' '.toUInt8)).foldl (fun n d ↦ int64 (n * 10 + digit d)) 0

/-- The message while the value of a header is read, of which `v` has been read. -/
def valued (k : HeaderState) (m : Message) (v : List UInt8) : Message :=
  match k with
  | .upgrade => { m with flags.upgrade := true }
  | .contentLength => { m with contentLength := lengthOf v }
  | _ => m

/-- What is known while a value is read, of which `v` has been read. -/
def Valuing (k : HeaderState) (v : List UInt8) : Word := fun h i ↦
  match k with
  | .connection =>
    match h with
    | .general => Lost lower ' '.toUInt8 connectionWords v
    | .matchingConnectionKeepAlive => Matching lower "keep-alive" 0 i v
    | .matchingConnectionClose => Matching lower "close" 0 i v
    | .connectionKeepAlive => valueWord v = text "keep-alive"
    | .connectionClose => valueWord v = text "close"
    | _ => False
  | .transferEncoding =>
    match h with
    | .general => Lost lower ' '.toUInt8 encodingWords v
    | .matchingTransferEncodingChunked => Matching lower "chunked" 0 i v
    | .transferEncodingChunked => valueWord v = text "chunked"
    | _ => False
  | .contentLength => h = .contentLength
  | _ => h = .general

theorem int64_of_lt {n : ℤ} (h : 0 ≤ n) (hlt : n < 2 ^ 63) : int64 n = n := by
  unfold int64
  exact Int.bmod_eq_of_le (by omega) (by omega)

theorem digit_lt (b : UInt8) : digit b < 2 ^ 8 := by
  have h := b.toNat_lt
  unfold digit
  omega

theorem lengthOf_blank (v : List UInt8) : lengthOf (v ++ [' '.toUInt8]) = lengthOf v := by
  simp [lengthOf]

theorem lengthOf_append {b : UInt8} (hb : b ≠ ' '.toUInt8) (v : List UInt8) :
    lengthOf (v ++ [b]) = int64 (lengthOf v * 10 + digit b) := by
  simp [lengthOf, hb]

theorem lengthOf_singleton {b : UInt8} (hb : b ≠ ' '.toUInt8) : lengthOf [b] = digit b := by
  have h := digit_lt b
  have happend := lengthOf_append hb []
  have hnil : lengthOf [] = 0 := rfl
  rw [List.nil_append, hnil, int64_of_lt (by omega) (by omega)] at happend
  rw [happend]
  omega

/-- What the parser takes for the value of a header. -/
@[mk_iff]
structure GoodValue (k : HeaderState) (v : List UInt8) : Prop where
  head : v.head? ≠ some ' '.toUInt8
  line : ∀ b ∈ v, b ≠ cr ∧ b ≠ lf
  /-- The length of a body is made of digits, with spaces between and behind them. -/
  length : k = .contentLength → (∀ b ∈ v.head?, isDigit b) ∧ ∀ b ∈ v, isDigit b ∨ b = ' '.toUInt8

instance (k : HeaderState) (v : List UInt8) : Decidable (GoodValue k v) :=
  haveI : Decidable (∀ b ∈ v, b ≠ cr ∧ b ≠ lf) := List.decidableBAll _ v
  haveI : Decidable (∀ b ∈ v.head?, isDigit b) := Option.decidableForallMem v.head?
  haveI : Decidable (∀ b ∈ v, isDigit b ∨ b = ' '.toUInt8) := List.decidableBAll _ v
  decidable_of_iff _ (goodValue_iff k v).symm

/-- The first byte of a value. -/
theorem headerValueStart_valuing {b : UInt8} (hsp : b ≠ ' '.toUInt8)
    (hline : b ≠ cr ∧ b ≠ lf) (hdigit : h.field = .contentLength → isDigit b) (i n : ℕ) :
    ∃ h', headerValueStart ⟨m, s, h, i, n⟩ b =
      .mark .headerValue (.next ⟨valued h.field m [b], .headerValue, h', 0, n⟩) ∧
      Valuing h.field [b] h' 0 := by
  have hlost : ∀ {ws : List (List UInt8)} {x : List UInt8}, PrefixFree ws → x ∈ ws → 0 < x.length →
      (∀ y ∈ ws, y[0]? ≠ some (lower b)) → Lost lower ' '.toUInt8 ws [b] :=
    fun hws hx hlen hne ↦ Keywords.lost_of_mismatch (w := []) (n := 0) hws hx rfl hlen
      fun y hy _ ↦ hne y hy
  unfold headerValueStart
  simp only [if_neg hsp, if_neg hline.1, if_neg hline.2]
  cases h with
  | upgrade => exact ⟨_, rfl, rfl⟩
  | contentLength =>
    refine ⟨_, ?_, rfl⟩
    simp only [HeaderState.field, valued, lengthOf_singleton hsp]
    rw [if_neg (by simpa using hdigit rfl)]
  | transferEncoding =>
    simp only [HeaderState.field]
    split_ifs with hc
    · exact ⟨_, rfl, le_rfl, by decide, congrArg (fun l ↦ [l]) hc⟩
    · refine ⟨_, rfl, hlost (by decide) (.head _) (by decide) ?_⟩
      simpa [encodingWords, text] using Ne.symm hc
  | connection =>
    simp only [HeaderState.field]
    split_ifs with hk hc
    · exact ⟨_, rfl, le_rfl, by decide, congrArg (fun l ↦ [l]) hk⟩
    · exact ⟨_, rfl, le_rfl, by decide, congrArg (fun l ↦ [l]) hc⟩
    · refine ⟨_, rfl, hlost (by decide) (.head _) (by decide) ?_⟩
      simpa [connectionWords, text] using ⟨Ne.symm hk, Ne.symm hc⟩
  | _ => exact ⟨_, rfl, rfl⟩

/-- **A byte of a value.** -/
theorem headerValue_valuing {k : HeaderState} {b : UInt8} (hline : b ≠ cr ∧ b ≠ lf)
    (hdigit : k = .contentLength → isDigit b ∨ b = ' '.toUInt8) (hw : Valuing k w h i) (n : ℕ) :
    ∃ h' i', headerValue L.strict ⟨valued k m w, s, h, i, n⟩ b =
      .next ⟨valued k m (w ++ [b]), s, h', i', n⟩ ∧ Valuing k (w ++ [b]) h' i' := by
  have hconnection : PrefixFree connectionWords := by decide
  have hencoding : PrefixFree encodingWords := by decide
  unfold headerValue
  simp only [if_neg hline.1, if_neg hline.2]
  cases k with
  | connection =>
    cases h with
    | general => exact ⟨.general, i, rfl, Lost.append hw b⟩
    | matchingConnectionKeepAlive =>
      exact matchWord_next hconnection (by decide) (by decide) (by decide) hw id id id n
    | matchingConnectionClose =>
      exact matchWord_next hconnection (by decide) (by decide) (by decide) hw id id id n
    | connectionKeepAlive =>
      exact found_next hconnection (by decide) hw id id n
    | connectionClose =>
      exact found_next hconnection (by decide) hw id id n
    | _ => exact hw.elim
  | transferEncoding =>
    cases h with
    | general => exact ⟨.general, i, rfl, Lost.append hw b⟩
    | matchingTransferEncodingChunked =>
      exact matchWord_next hencoding (by decide) (by decide) (by decide) hw id id id n
    | transferEncodingChunked =>
      exact found_next hencoding (by decide) hw id id n
    | _ => exact hw.elim
  | contentLength =>
    obtain rfl : h = .contentLength := hw
    refine ⟨.contentLength, i, ?_, rfl⟩
    rcases eq_or_ne b ' '.toUInt8 with rfl | hsp
    · simp only [if_true, valued, lengthOf_blank]
    · have hb := (hdigit rfl).resolve_right hsp
      simp only [if_neg hsp, valued, lengthOf_append hsp]
      rw [if_neg (by simpa using hb)]
  | _ =>
    obtain rfl : h = .general := hw
    exact ⟨.general, i, rfl, rfl⟩

/-! ## Lines -/

structure Header where
  name : List UInt8
  /-- The number of spaces in front of the value. -/
  blanks : ℕ
  value : List UInt8
  deriving DecidableEq, Repr

namespace Header

def bytes (h : Header) : List UInt8 :=
  h.name ++ [':'.toUInt8] ++ (List.replicate h.blanks ' '.toUInt8 ++ (h.value ++ [cr, lf]))

@[mk_iff]
structure Good (h : Header) : Prop where
  ne_nil : h.name ≠ []
  name : ∀ b ∈ h.name, token b ≠ 0
  value : GoodValue (fieldKind h.name) h.value

instance (h : Header) : Decidable h.Good :=
  haveI : Decidable (∀ b ∈ h.name, token b ≠ 0) := List.decidableBAll _ h.name
  decidable_of_iff _ (good_iff h).symm

/-- What the value of a header does to the message. -/
def effect (k : HeaderState) (v : List UInt8) (m : Message) : Message :=
  match k with
  | .upgrade => { m with flags.upgrade := true }
  | .contentLength => { m with contentLength := lengthOf v }
  | .connection =>
    if valueWord v = text "keep-alive" then { m with flags.connectionKeepAlive := true }
    else if valueWord v = text "close" then { m with flags.connectionClose := true }
    else m
  | .transferEncoding =>
    if valueWord v = text "chunked" then { m with flags.chunked := true } else m
  | _ => m

/-- The message behind the line. -/
def store (h : Header) (m : Message) : Message :=
  if h.value = [] then m else effect (fieldKind h.name) h.value m

def told (h : Header) : List (Event UInt8 Kind Notice) :=
  [.data .headerField h.name, .data .headerValue h.value]

end Header

/-- What the end of a value does to the message. -/
def HeaderState.finish (h : HeaderState) (m : Message) : Message :=
  match h with
  | .connectionKeepAlive => { m with flags.connectionKeepAlive := true }
  | .connectionClose => { m with flags.connectionClose := true }
  | .transferEncodingChunked => { m with flags.chunked := true }
  | _ => m

theorem finish_of_valuing {k : HeaderState} (hw : Valuing k w h i) (m : Message) :
    h.finish (valued k m w) = Header.effect k w m := by
  have hnot : ∀ {ws : List (List UInt8)} {word : String} {low : ℕ}, PrefixFree ws →
      text word ∈ ws → Matching lower word low i w → valueWord w ∉ ws := by
    intro ws word low hws hx hm
    refine Keywords.folded_not_mem hws hx (Keywords.prefix_of_map_eq_take hm.map_eq) ?_
    have hlen := congrArg List.length hm.map_eq
    rw [List.length_map, List.length_take] at hlen
    rw [length_text] at hlen ⊢
    have hlt := hm.lt_length
    omega
  have hconnection : valueWord w ∉ connectionWords → Header.effect .connection w m = m := by
    intro hn
    simp only [connectionWords, List.mem_cons, List.not_mem_nil, or_false, not_or] at hn
    rw [Header.effect, if_neg hn.1, if_neg hn.2]
  have hencoding : valueWord w ∉ encodingWords → Header.effect .transferEncoding w m = m := by
    intro hn
    simp only [encodingWords, List.mem_cons, List.not_mem_nil, or_false] at hn
    rw [Header.effect, if_neg hn]
  cases k with
  | connection =>
    cases h with
    | general => exact (hconnection hw.not_mem).symm
    | matchingConnectionKeepAlive => exact (hconnection (hnot (by decide) (by decide) hw)).symm
    | matchingConnectionClose => exact (hconnection (hnot (by decide) (by decide) hw)).symm
    | connectionKeepAlive => exact (if_pos hw).symm
    | connectionClose =>
      have hw' : valueWord w = text "close" := hw
      rw [Header.effect, hw', if_neg (by decide), if_pos rfl]
      rfl
    | _ => exact hw.elim
  | transferEncoding =>
    cases h with
    | general => exact (hencoding hw.not_mem).symm
    | matchingTransferEncodingChunked => exact (hencoding (hnot (by decide) (by decide) hw)).symm
    | transferEncodingChunked => exact (if_pos hw).symm
    | _ => exact hw.elim
  | contentLength =>
    obtain rfl : h = .contentLength := hw
    rfl
  | _ =>
    obtain rfl : h = .general := hw
    rfl

/-- The name means `k`. -/
def means (k : HeaderState) : Word := fun h _ ↦ h.field = k

/-- The colon and the spaces behind it. -/
theorem reads_colon (name : List UInt8) (blanks : ℕ) :
    L.Reads (At .headerField m (Naming name) (blanks + r + 1))
      ([':'.toUInt8] ++ List.replicate blanks ' '.toUInt8)
      (At .headerValueStart m (means (fieldKind name)) r) [.data .headerField []] := by
  have hcolon : L.Reads
      (At .headerField m (Naming name) (blanks + r + 1)) [':'.toUInt8]
      (At .headerValueStart m (means (fieldKind name)) (blanks + r)) [.data .headerField []] :=
    reads_byte rfl rfl fun h i n hw ↦
      ⟨h, i, [.data .headerField []], rfl, field_of_naming hw, fun _ ↦ rfl⟩
  have hblanks : ∀ blanks, L.Reads
      (At .headerValueStart m (means (fieldKind name)) (blanks + r))
      (List.replicate blanks ' '.toUInt8)
      (At .headerValueStart m (means (fieldKind name)) r) [] := by
    intro blanks
    induction blanks with
    | zero =>
      rw [Nat.zero_add]
      exact Scanner.Reads.nil fun c hc ↦ hc
    | succ n ih =>
      have hone : L.Reads
          (At .headerValueStart m (means (fieldKind name)) (n + r + 1)) [' '.toUInt8]
          (At .headerValueStart m (means (fieldKind name)) (n + r)) [] :=
        reads_quiet rfl rfl rfl fun h i n hw ↦ ⟨h, i, rfl, hw⟩
      rw [Nat.add_right_comm]
      exact hone.append ih
  exact hcolon.append (hblanks blanks)

/-- The line feed behind a value. -/
theorem reads_valueEnd {w : Word} {f : Message} (hw : ∀ {h i}, w h i → h.finish m = f)
    (ht : f.flags.trailing = m.flags.trailing) :
    L.Reads (At .headerAlmostDone m w (r + 1)) [lf]
      (At .headerFieldStart f anyWord r) [] := by
  refine reads_quiet rfl ht rfl fun h i n hword ↦ ⟨h, i, ?_, trivial⟩
  rw [← hw hword]
  change strictCheck L.strict lf lf _ _ = _
  rw [strictCheck, if_neg (by simp)]
  cases h <;> rfl

theorem trailing_valued (k : HeaderState) (m : Message) (v : List UInt8) :
    (valued k m v).flags.trailing = m.flags.trailing := by
  cases k <;> rfl

theorem trailing_effect (k : HeaderState) (v : List UInt8) (m : Message) :
    (Header.effect k v m).flags.trailing = m.flags.trailing := by
  cases k <;> first
    | rfl
    | simp only [Header.effect]
      split_ifs <;> rfl

/-- A value up to the end of its text. -/
theorem reads_value (hk : L.settings.Lawful Kind.Beside) {k : HeaderState} {v : List UInt8}
    (hv : GoodValue k v) (hne : v ≠ []) :
    L.Reads (At .headerValueStart m (means k) (v.length + r)) v
      (At .headerValue (valued k m v) (Valuing k v) r) (texts [.headerValue] v) := by
  obtain ⟨b, bs, rfl⟩ := List.exists_cons_of_ne_nil hne
  have hhead : b ≠ ' '.toUInt8 := by simpa using hv.head
  have hfirst : L.Reads
      (At .headerValueStart m (means k) (bs.length + r + 1)) [b]
      (At .headerValue (valued k m [b]) (Valuing k [b]) (bs.length + r))
      (texts [.headerValue] [b]) := by
    refine reads_byte rfl (trailing_valued k m [b]) fun h i n hk ↦ ?_
    obtain rfl : h.field = k := hk
    obtain ⟨h', hcode, hw⟩ := headerValueStart_valuing (m := m) (s := .headerValueStart) hhead
      (hv.line b (by simp)) (fun hc ↦ (hv.length hc).1 b rfl) i n
    refine ⟨h', 0, [], ?_, hw, fun _ ↦ rfl⟩
    change (headerValueStart _ b).byte L.answer b _ = _
    rw [hcode]
    rfl
  rw [List.length_cons, Nat.add_right_comm]
  rcases eq_or_ne bs [] with rfl | hbs
  · simpa using hfirst
  have hrest := reads_onward (L := L) (r := r) (s := .headerValue)
    (m := valued k m) (w := Valuing k) hk rfl (trailing_valued k m) ?_ hbs [b]
  · exact (hfirst.append hrest).told
      (Scanner.play_texts_append hk (List.pairwise_singleton _ _) (List.cons_ne_nil b []) bs)
  · intro xs b' hb' h i n hw
    exact headerValue_valuing (hv.line b' (by simp [hb']))
      (fun hc ↦ (hv.length hc).2 b' (by simp [hb'])) hw n

/-- A value, and the end of the line. -/
theorem reads_valueLine (hk : L.settings.Lawful Kind.Beside) {k : HeaderState} {v : List UInt8}
    (hv : GoodValue k v) :
    L.Reads (At .headerValueStart m (means k) (v.length + (r + 2)))
      (v ++ [cr, lf])
      (At .headerFieldStart (if v = [] then m else Header.effect k v m) anyWord r)
      [.data .headerValue v] := by
  rcases eq_or_ne v [] with rfl | hne
  · have hcr : L.Reads (At .headerValueStart m (means k) (r + 2))
        [cr] (At .headerAlmostDone m (fun h _ ↦ h = .general) (r + 1)) [.data .headerValue []] :=
      reads_byte rfl rfl fun h i n _ ↦ ⟨.general, 0, [.data .headerValue []], rfl, rfl, fun _ ↦ rfl⟩
    have hlf := reads_valueEnd (L := L) (r := r) (m := m) (f := m) (w := fun h _ ↦ h = .general)
      (by rintro h i rfl; rfl) rfl
    simpa using hcr.append hlf
  · have hvalue := reads_value (L := L) (m := m) (r := r + 2) hk hv hne
    have hcr : L.Reads
        (At .headerValue (valued k m v) (Valuing k v) (r + 2)) [cr]
        (At .headerAlmostDone (valued k m v) (Valuing k v) (r + 1)) [.data .headerValue []] :=
      reads_byte rfl rfl fun h i n hw ↦ ⟨h, i, [.data .headerValue []], rfl, hw, fun _ ↦ rfl⟩
    have hlf := reads_valueEnd (L := L) (r := r) (m := valued k m v) (f := Header.effect k v m)
      (w := Valuing k v)
      (fun hw ↦ finish_of_valuing hw m) ?_
    · rw [if_neg hne]
      refine Scanner.Reads.told ?_ (Scanner.play_data_nil hk .headerValue hne)
      simpa [texts] using hvalue.append (hcr.append hlf)
    · rw [trailing_effect, trailing_valued]

/-- **A header line.** -/
theorem reads_header (hk : L.settings.Lawful Kind.Beside) {h : Header} (hh : h.Good) :
    L.Reads (At .headerFieldStart m anyWord (h.bytes.length + r))
      h.bytes (At .headerFieldStart (h.store m) anyWord r) h.told := by
  have hname := reads_name (L := L) (m := m)
    (r := h.blanks + (h.value.length + (r + 2)) + 1) hk hh.ne_nil hh.name
  have hcolon := reads_colon (L := L) (m := m)
    (r := h.value.length + (r + 2)) h.name h.blanks
  have hvalue := reads_valueLine (L := L) (m := m) (r := r) hk hh.value
  have hfield : L.Reads
      (At .headerFieldStart m anyWord (h.bytes.length + r))
      (h.name ++ ([':'.toUInt8] ++ List.replicate h.blanks ' '.toUInt8))
      (At .headerValueStart m (means (fieldKind h.name)) (h.value.length + (r + 2)))
      [.data .headerField h.name] := by
    refine reads_room
      ((hname.append hcolon).told (Scanner.play_data_nil hk .headerField hh.ne_nil)) ?_
    simp only [Header.bytes, List.length_append, List.length_cons, List.length_nil,
      List.length_replicate]
    omega
  have hbytes : h.bytes = h.name ++ ([':'.toUInt8] ++ List.replicate h.blanks ' '.toUInt8) ++
      (h.value ++ [cr, lf]) := by
    simp [Header.bytes]
  have hall := hfield.append hvalue
  rw [← hbytes] at hall
  exact hall

/-- The message behind header lines. -/
def storeHeaders (hs : List Header) (m : Message) : Message := hs.foldl (fun m h ↦ h.store m) m

/-- **Header lines.** -/
theorem reads_headers (hk : L.settings.Lawful Kind.Beside) {hs : List Header}
    (hgood : ∀ h ∈ hs, h.Good) :
    L.Reads
      (At .headerFieldStart m anyWord ((hs.flatMap Header.bytes).length + r))
      (hs.flatMap Header.bytes)
      (At .headerFieldStart (storeHeaders hs m) anyWord r)
      (hs.flatMap Header.told) := by
  induction hs generalizing m with
  | nil =>
    rw [List.flatMap_nil, List.length_nil, Nat.zero_add]
    exact Scanner.Reads.nil fun c hc ↦ hc
  | cons h hs ih =>
    have hfirst := reads_header (L := L) (m := m)
      (r := (hs.flatMap Header.bytes).length + r) hk (hgood h (by simp))
    have hrest := ih (m := h.store m) fun h' hh' ↦ hgood h' (by simp [hh'])
    simp only [List.flatMap_cons, List.length_append, Nat.add_assoc]
    exact hfirst.append hrest

end SpiderNode.HttpParser
