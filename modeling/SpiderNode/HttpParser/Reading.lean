import SpiderNode.HttpParser.Chunks
import SpiderNode.Machine.Reading
import Mathlib.Tactic.MkIffOfInductiveProp

/-!
# Reading the parts of a message

The triples of the parser. `At` is a place in the lines of a message: a state, the message so far,
what is known about the word that is being matched, and room for some more bytes. The bytes of the
lines are counted, and of a trailer they are not.

`reads_byte` is the rule for one byte of a line, and `reads_run` the rule for the bytes of a text.
-/

namespace SpiderNode.HttpParser

open Scanner (Code Event texts)

variable {σ : Type*}

/-- A use of the parser: how it has been built, the callbacks, and what those without a text
return. -/
structure Listener (σ : Type*) where
  strict : Bool
  settings : Settings σ
  answer : Notice → ℤ

/-- A triple of the parser. -/
abbrev Listener.Reads (L : Listener σ) (P : Parser → Prop) (bs : List UInt8) (Q : Parser → Prop)
    (es : List (Event UInt8 Kind Notice)) : Prop :=
  (scanner L.strict).Reads L.settings L.answer P bs Q es

variable {L : Listener σ}

/-- Room for `r` bytes more. -/
def Parser.Room (c : Parser) (r : ℕ) : Prop :=
  if c.flags.trailing then c.nread = 0 else c.nread + r ≤ maxHeaderSize

/-- What is known about the word that is being matched. -/
abbrev Word := HeaderState → ℕ → Prop

/-- Nothing is known. -/
def anyWord : Word := fun _ _ ↦ True

/-- A place in the lines of a message. -/
structure At (s : State) (m : Message) (w : Word) (r : ℕ) (c : Parser) : Prop where
  state : c.state = s
  message : c.toMessage = m
  word : w c.headerState c.index
  room : c.Room r

/-- A place at which a message may begin. -/
structure Ready (s : State) (m : Message) (c : Parser) : Prop where
  state : c.state = s
  message : c.toMessage = m
  nread : c.nread = 0

/-- The texts that are open, in the order in which they are handed over. -/
def opened (s : State) : List Kind :=
  List.filter (· ∈ opens s) [.headerField, .headerValue, .fragment, .queryString, .path, .url]

theorem rest_eq (b : UInt8) (c : Parser) :
    (scanner L.strict).rest b c = texts (opened c.state) [b] := rfl

theorem pairwise_opened (s : State) : (opened s).Pairwise Kind.Beside := by
  cases s <;> decide

theorem strictCheck_self (b : UInt8) (c : Parser) (rest : Step) :
    strictCheck L.strict b b c rest = rest := if_neg (by simp)

variable {s s' : State} {m m' : Message} {w w' : Word} {r : ℕ} {b : UInt8}
  {es : List (Event UInt8 Kind Notice)}

theorem At.mono {c : Parser} (h : At s m w r c) (hw : ∀ {h i}, w h i → w' h i) :
    At s m w' r c := ⟨h.state, h.message, hw h.word, h.room⟩

/-- A byte of a line is counted. -/
theorem step_line (hs : s.isHeader) {c : Parser} (h : At s m w (r + 1) c) (b : UInt8) (n : ℕ) :
    ∃ h i k, w h i ∧ step L.strict c b n = switch L.strict ⟨m, s, h, i, k⟩ b n ∧
      Parser.Room ⟨m, s, h, i, k⟩ r := by
  obtain ⟨m', s', h', i', k'⟩ := c
  obtain ⟨rfl, rfl, hw, hr⟩ := h
  unfold Parser.Room at hr
  dsimp only at hs hw hr ⊢
  by_cases ht : m'.flags.trailing
  · rw [if_pos ht] at hr
    refine ⟨h', i', k', hw, ?_, ?_⟩
    · simp [step, ht]
    · simpa [Parser.Room, ht] using hr
  · rw [if_neg ht] at hr
    refine ⟨h', i', k' + 1, hw, ?_, ?_⟩
    · have hle : ¬maxHeaderSize < k' + 1 := by omega
      simp [step, hs, ht, hle]
    · simp only [Parser.Room, ht, Bool.false_eq_true, if_false]
      omega

/-- **One byte of a line.** -/
theorem reads_byte (hs : s.isHeader) (ht : m'.flags.trailing = m.flags.trailing)
    (h : ∀ h i n, w h i → ∃ h' i' es',
      (switch L.strict ⟨m, s, h, i, n⟩ b 1).byte L.answer b (opens s) =
        .ok (⟨m', s', h', i', n⟩, es') ∧ w' h' i' ∧
      ∀ u, L.settings.play (es' ++ texts (opened s') [b]) u = L.settings.play es u) :
    L.Reads (At s m w (r + 1)) [b] (At s' m' w' r) es := by
  refine Scanner.Reads.of_read fun c hc ↦ ?_
  obtain ⟨h₁, i₁, n, hw, hstep, hroom⟩ := step_line (L := L) hs hc b 1
  obtain ⟨h', i', es', hbyte, hw', hu⟩ := h h₁ i₁ n hw
  refine ⟨⟨m', s', h', i', n⟩, es' ++ texts (opened s') [b], ?_, ⟨rfl, rfl, hw', ?_⟩, hu⟩
  · have hopens : (scanner L.strict).opens c = opens s := by rw [← hc.state]; rfl
    have hs : (scanner L.strict).step c b 1 = switch L.strict ⟨m, s, h₁, i₁, n⟩ b 1 := hstep
    rw [Scanner.read, hopens, hs, hbyte]
    rfl
  · unfold Parser.Room at hroom ⊢
    simpa only [ht] using hroom

/-- A byte after which the parser goes on, without a callback. -/
theorem reads_next (hs : s.isHeader) (ht : m'.flags.trailing = m.flags.trailing)
    (h : ∀ h i n, w h i → ∃ h' i',
      switch L.strict ⟨m, s, h, i, n⟩ b 1 = .next ⟨m', s', h', i', n⟩ ∧ w' h' i') :
    L.Reads (At s m w (r + 1)) [b] (At s' m' w' r)
      (texts (opened s') [b]) := by
  refine reads_byte hs ht fun h₁ i₁ n hw ↦ ?_
  obtain ⟨h', i', hnext, hw'⟩ := h h₁ i₁ n hw
  refine ⟨h', i', [], ?_, hw', fun _ ↦ rfl⟩
  rw [hnext]
  rfl

/-- **The bytes of a text.** The message and the word may depend on the bytes to come. -/
theorem reads_run (hk : L.settings.Lawful Kind.Beside) (hs : s.isHeader) {t : Bool}
    {m : List UInt8 → Message} (ht : ∀ bs, (m bs).flags.trailing = t) {w : List UInt8 → Word}
    (h : ∀ b bs h i n, w (b :: bs) h i → ∃ h' i',
      switch L.strict ⟨m (b :: bs), s, h, i, n⟩ b 1 = .next ⟨m bs, s, h', i', n⟩ ∧ w bs h' i')
    {bs : List UInt8} (hne : bs ≠ []) :
    L.Reads (At s (m bs) (w bs) (bs.length + r)) bs
      (At s (m []) (w []) r) (texts (opened s) bs) := by
  have hrun : L.Reads (At s (m bs) (w bs) (bs.length + r)) bs
      (At s (m []) (w []) (([] : List UInt8).length + r)) (texts (opened s) bs) := by
    refine Scanner.Reads.texts (P := fun bs ↦ At s (m bs) (w bs) (bs.length + r)) hk
      (pairwise_opened s) (fun x xs c hc ↦ ?_) hne
    rw [List.length_cons, Nat.add_right_comm] at hc
    obtain ⟨h₁, i₁, n, hw, hstep, hroom⟩ := step_line (L := L) hs hc x 1
    obtain ⟨h', i', hnext, hw'⟩ := h x xs h₁ i₁ n hw
    refine ⟨⟨m xs, s, h', i', n⟩, ?_, ⟨rfl, rfl, hw', ?_⟩⟩
    · have hs : (scanner L.strict).step c x 1 = .next ⟨m xs, s, h', i', n⟩ := hstep.trans hnext
      rw [Scanner.read, hs]
      rfl
    · unfold Parser.Room at hroom ⊢
      simpa only [ht] using hroom
  simpa using hrun

/-- The bytes of a text. The message and the word may depend on the bytes that have been read. -/
theorem reads_onward (hk : L.settings.Lawful Kind.Beside) (hs : s.isHeader) {t : Bool}
    {m : List UInt8 → Message} (ht : ∀ bs, (m bs).flags.trailing = t) {w : List UInt8 → Word}
    {bs : List UInt8} (h : ∀ xs, ∀ b ∈ bs, ∀ h i n, w xs h i → ∃ h' i',
      switch L.strict ⟨m xs, s, h, i, n⟩ b 1 = .next ⟨m (xs ++ [b]), s, h', i', n⟩ ∧
      w (xs ++ [b]) h' i') (hne : bs ≠ []) (xs : List UInt8) :
    L.Reads (At s (m xs) (w xs) (bs.length + r)) bs
      (At s (m (xs ++ bs)) (w (xs ++ bs)) r) (texts (opened s) bs) := by
  -- What has been read is what is left when the bytes to come are taken away.
  have hrun := reads_run (L := L) (r := r)
    (m := fun ys ↦ m ((xs ++ bs).take ((xs ++ bs).length - ys.length)))
    (w := fun ys h i ↦ w ((xs ++ bs).take ((xs ++ bs).length - ys.length)) h i ∧
      ys <:+ bs) hk hs (fun ys ↦ ht _) ?_ hne
  · have hall : (xs ++ bs).length - bs.length = xs.length := by simp
    simp only [hall, List.take_left, List.length_nil, Nat.sub_zero, List.take_length] at hrun
    exact hrun.mono (fun c hc ↦ hc.mono fun hw ↦ ⟨hw, List.suffix_refl bs⟩) fun c hc ↦
      hc.mono And.left
  · intro b ys h₁ i₁ n hw
    obtain ⟨hw, zs, hzs⟩ := hw
    have htake : (xs ++ bs).take ((xs ++ bs).length - (b :: ys).length) = xs ++ zs := by
      rw [← hzs]
      simp [← List.append_assoc]
    have htake' : (xs ++ bs).take ((xs ++ bs).length - ys.length) = xs ++ zs ++ [b] := by
      rw [← hzs, List.append_cons, ← List.append_assoc]
      simp [← List.append_assoc]
    obtain ⟨h', i', hnext, hw'⟩ := h (xs ++ zs) b (by rw [← hzs]; simp) h₁ i₁ n (htake ▸ hw)
    exact ⟨h', i', by rw [htake, htake', hnext], by rw [htake']; exact hw', zs ++ [b],
      by simp [hzs]⟩

/-- A byte of a line, and none of a text. -/
theorem reads_quiet (hs : s.isHeader) (ht : m'.flags.trailing = m.flags.trailing)
    (ho : opened s' = []) (h : ∀ h i n, w h i → ∃ h' i',
      switch L.strict ⟨m, s, h, i, n⟩ b 1 = .next ⟨m', s', h', i', n⟩ ∧ w' h' i') :
    L.Reads (At s m w (r + 1)) [b] (At s' m' w' r) [] := by
  have hnext := reads_next (L := L) (r := r)
    hs ht h
  rwa [ho] at hnext

theorem reads_room {Q : Parser → Prop} {bs : List UInt8} {n n' : ℕ}
    (h : L.Reads (At s m w n) bs Q es) (hn : n = n') :
    L.Reads (At s m w n') bs Q es := hn ▸ h

/-! ## The beginning of a message -/

/-- What is known of a message at its first byte. -/
def Message.fresh (m : Message) : Message := { m with flags := .none, contentLength := -1 }

/-- **The first byte of a message.** Whether it is counted depends on the message before. -/
theorem reads_first (hs : s.isHeader) (ha : ∀ m, L.answer (.messageBegin m) = 0)
    (ht : m'.flags.trailing = false) (ho : opened s' = []) (hr : r + 1 ≤ maxHeaderSize)
    (h : ∀ h i n, ∃ h' i', switch L.strict ⟨m, s, h, i, n⟩ b 1 =
      callback2 .messageBegin ⟨m.fresh, s, h, i, n⟩ (.next ⟨m', s', h', i', n⟩) ∧ w h' i') :
    L.Reads (Ready s m) [b] (At s' m' w r)
      [.notify (.messageBegin m.fresh)] := by
  refine Scanner.Reads.of_read fun c hc ↦ ?_
  obtain ⟨m₀, s₀, h₀, i₀, n₀⟩ := c
  obtain ⟨rfl, rfl, rfl⟩ := hc
  have hstep : ∃ n ≤ 1, step L.strict ⟨m₀, s₀, h₀, i₀, 0⟩ b 1 =
      switch L.strict ⟨m₀, s₀, h₀, i₀, n⟩ b 1 := by
    by_cases ht : m₀.flags.trailing
    · exact ⟨0, Nat.zero_le 1, by simp [step, ht]⟩
    · exact ⟨1, le_rfl, by simp [step, ht, hs, maxHeaderSize]⟩
  obtain ⟨n, hn, hstep⟩ := hstep
  obtain ⟨h', i', hnext, hw⟩ := h h₀ i₀ n
  refine ⟨⟨m', s', h', i', n⟩, _, ?_, ⟨rfl, rfl, hw, ?_⟩, fun _ ↦ rfl⟩
  · have hcode := hstep.trans hnext
    rw [Scanner.read]
    change Scanner.Told.andThen
      (Code.byte L.answer b (step L.strict ⟨m₀, s₀, h₀, i₀, 0⟩ b 1) _) _ = _
    rw [hcode, callback2, Code.byte, if_pos (ha _)]
    simp [Code.byte, Scanner.Told.after, Scanner.Told.andThen, rest_eq, ho, texts]
  · rw [Parser.Room, ht, if_neg (by simp)]
    simp only
    omega

end SpiderNode.HttpParser
