import SpiderNode.HttpParser.HeaderLines

/-!
# The end of a head, and bodies
-/

namespace SpiderNode.HttpParser

open Scanner (Code Event texts parts)

variable {σ : Type*} {L : Listener σ}
  {m m' : Message} {r : ℕ} {s s' : State} {b : UInt8} {es : List (Event UInt8 Kind Notice)}

/-! ## The end of a head -/

/-- What is said of a message when its head is complete. -/
def Message.headed (m : Message) : Message :=
  if m.flags.upgrade ∨ m.method = .connect then { m with upgrade := true } else m

/-- The message behind its head, by the answer to `on_headers_complete`. -/
def Message.skipped (m : Message) (skip : Bool) : Message :=
  if skip then { m with flags.skipbody := true } else m

/-- The state behind a message. -/
def Message.next (strict : Bool) (m : Message) : State :=
  if strict ∧ ¬m.shouldKeepAlive then .dead
  else if m.type = .request then .startReq else .startRes

theorem newMessage_eq (strict : Bool) (m : Message) (s : State) (h : HeaderState) (i n : ℕ) :
    Parser.newMessage strict ⟨m, s, h, i, n⟩ = m.next strict := by
  unfold Parser.newMessage Parser.startState Message.next
  cases strict <;> cases m.shouldKeepAlive <;> rfl

/-- What the body of a message is. -/
inductive BodyKind where
  | none | chunked | identity | untilEof
  deriving DecidableEq, Repr

/-- What comes behind the head. -/
def Message.bodyKind (m : Message) : BodyKind :=
  if m.flags.skipbody then .none
  else if m.flags.chunked then .chunked
  else if m.contentLength = 0 then .none
  else if m.contentLength > 0 then .identity
  else if m.type = .request ∨ m.shouldKeepAlive then .none
  else .untilEof

/-- The state behind the head. -/
def BodyKind.state (strict : Bool) (m : Message) : BodyKind → State
  | none => m.next strict
  | chunked => .chunkSizeStart
  | identity => .bodyIdentity
  | untilEof => .bodyIdentityEof

/-- What is told at the end of the head. -/
def BodyKind.told (m : Message) : BodyKind → List (Event UInt8 Kind Notice)
  | none => [.notify (.messageComplete m)]
  | _ => []

theorem byte_complete (hc : ∀ m, L.answer (.messageComplete m) = 0) (h : HeaderState) (i n : ℕ)
    (S : Finset Kind) :
    (complete L.strict ⟨m, s, h, i, n⟩).byte L.answer b S =
      .ok (⟨m, m.next L.strict, h, i, n⟩, [.notify (.messageComplete m)]) := by
  rw [complete, callback2, Code.byte, if_pos (hc _), newMessage_eq]
  rfl

theorem byte_headersCompleted (hc : ∀ m, L.answer (.messageComplete m) = 0) (hu : m.upgrade = false)
    (h : HeaderState) (i n : ℕ) (S : Finset Kind) :
    (headersCompleted L.strict ⟨m, s, h, i, n⟩).byte L.answer b S =
      .ok (⟨m, m.bodyKind.state L.strict m, h, i, n⟩, m.bodyKind.told m) := by
  unfold headersCompleted Message.bodyKind
  rw [if_neg (by simpa using hu)]
  split_ifs
  · exact byte_complete hc h i n S
  · rfl
  · exact byte_complete hc h i n S
  · rfl
  · exact byte_complete hc h i n S
  · rfl

/-- A byte of a line behind which no more bytes are counted. -/
theorem reads_leaving {w : Word} (hs : s.isHeader) (ho : opened s' = [])
    (h : ∀ h i n, (m.flags.trailing → n = 0) → ∃ h' i',
      (switch L.strict ⟨m, s, h, i, n⟩ b 1).byte L.answer b (opens s) =
        .ok (⟨m', s', h', i', 0⟩, es)) :
    L.Reads (At s m w (r + 1)) [b] (Ready s' m') es := by
  refine Scanner.Reads.of_read fun c hc ↦ ?_
  obtain ⟨h₁, i₁, n, hw, hstep, hroom⟩ := step_line (L := L) hs hc b 1
  obtain ⟨h', i', hbyte⟩ := h h₁ i₁ n fun ht ↦ by simpa [Parser.Room, ht] using hroom
  refine ⟨⟨m', s', h', i', 0⟩, es, ?_, ⟨rfl, rfl, rfl⟩, fun _ ↦ rfl⟩
  have hopens : (scanner L.strict).opens c = opens s := by rw [← hc.state]; rfl
  have hs : (scanner L.strict).step c b 1 = switch L.strict ⟨m, s, h₁, i₁, n⟩ b 1 := hstep
  rw [Scanner.read, hopens, hs, hbyte]
  simp [Scanner.Told.andThen, Scanner.Told.after, rest_eq, ho, texts]

theorem byte_headersAlmostDone (hc : ∀ m, L.answer (.messageComplete m) = 0)
    (ht : m.flags.trailing = false) (hu : m.headed.upgrade = false) {skip : Bool}
    (hskip : L.answer (.headersComplete m.headed) = if skip then 1 else 0) (h : HeaderState)
    (i n : ℕ) (S : Finset Kind) :
    (headersAlmostDone L.strict lf ⟨m, s, h, i, n⟩).byte L.answer lf S =
      .ok (⟨m.headed.skipped skip,
        (m.headed.skipped skip).bodyKind.state L.strict (m.headed.skipped skip), h, i, 0⟩,
        .notify (.headersComplete m.headed) ::
          (m.headed.skipped skip).bodyKind.told (m.headed.skipped skip)) := by
  have hparser : (if m.flags.upgrade ∨ m.method = .connect then
      (⟨{ m with upgrade := true }, s, h, i, 0⟩ : Parser) else ⟨m, s, h, i, 0⟩) =
        ⟨m.headed, s, h, i, 0⟩ := by
    unfold Message.headed
    split_ifs <;> rfl
  rw [headersAlmostDone, strictCheck_self, if_neg (by simp [ht])]
  dsimp only
  rw [hparser, Code.byte, hskip]
  cases skip
  · rw [if_pos (by decide), byte_headersCompleted hc hu]
    rfl
  · rw [if_neg (by decide), if_pos (by decide)]
    have hbyte := byte_headersCompleted (L := L) (b := lf) (s := s)
      (m := m.headed.skipped true) hc hu h i 0 S
    exact congrArg (Scanner.Told.after _) hbyte

theorem opened_state (strict : Bool) (m m' : Message) :
    opened (m.bodyKind.state strict m') = [] := by
  rcases m.bodyKind
  · unfold BodyKind.state Message.next
    split_ifs <;> rfl
  all_goals rfl

theorem opened_next (strict : Bool) (m : Message) : opened (m.next strict) = [] := by
  unfold Message.next
  split_ifs <;> rfl

/-- **The empty line** behind the headers. -/
theorem reads_headEnd (hc : ∀ m, L.answer (.messageComplete m) = 0) (ht : m.flags.trailing = false)
    (hu : m.headed.upgrade = false) {skip : Bool}
    (hskip : L.answer (.headersComplete m.headed) = if skip then 1 else 0) :
    L.Reads (At .headerFieldStart m anyWord (r + 2)) [cr, lf]
      (Ready ((m.headed.skipped skip).bodyKind.state L.strict (m.headed.skipped skip))
        (m.headed.skipped skip))
      (.notify (.headersComplete m.headed) ::
        (m.headed.skipped skip).bodyKind.told (m.headed.skipped skip)) := by
  have hcr : L.Reads (At .headerFieldStart m anyWord (r + 2)) [cr]
      (At .headersAlmostDone m anyWord (r + 1)) [] :=
    reads_quiet rfl rfl rfl fun h i n _ ↦ ⟨h, i, rfl, trivial⟩
  exact hcr.append (b := [lf]) (reads_leaving rfl (opened_state L.strict _ _) fun h i n _ ↦
    ⟨h, i, byte_headersAlmostDone hc ht hu hskip h i n _⟩)

/-- The empty line behind a trailer. -/
theorem reads_trailerEnd (hc : ∀ m, L.answer (.messageComplete m) = 0) (ht : m.flags.trailing) :
    L.Reads (At .headerFieldStart m anyWord (r + 2)) [cr, lf]
      (Ready (m.next L.strict) m) [.notify (.messageComplete m)] := by
  have hcr : L.Reads (At .headerFieldStart m anyWord (r + 2)) [cr]
      (At .headersAlmostDone m anyWord (r + 1)) [] :=
    reads_quiet rfl rfl rfl fun h i n _ ↦ ⟨h, i, rfl, trivial⟩
  refine hcr.append (b := [lf]) (reads_leaving rfl (opened_next L.strict m) fun h i n hn ↦
    ⟨h, i, ?_⟩)
  change (headersAlmostDone L.strict lf _).byte L.answer lf _ = _
  rw [hn ht, headersAlmostDone, strictCheck_self, if_pos ht]
  exact byte_complete hc h i 0 _

/-! ## Bodies -/

/-- **One byte behind the head.** -/
theorem reads_bodyByte (hs : s.isHeader = false) (ho : opened s' = [])
    (h : ∀ h i, ∃ h' i', (switch L.strict ⟨m, s, h, i, 0⟩ b 1).byte L.answer b (opens s) =
      .ok (⟨m', s', h', i', 0⟩, es)) :
    L.Reads (Ready s m) [b] (Ready s' m') es := by
  refine Scanner.Reads.of_read fun c hc ↦ ?_
  obtain ⟨m₀, s₀, h₀, i₀, n₀⟩ := c
  obtain ⟨rfl, rfl, rfl⟩ := hc
  obtain ⟨h', i', hbyte⟩ := h h₀ i₀
  refine ⟨⟨m', s', h', i', 0⟩, es, ?_, ⟨rfl, rfl, rfl⟩, fun _ ↦ rfl⟩
  have hstep : (scanner L.strict).step ⟨m₀, s₀, h₀, i₀, 0⟩ b 1 =
      switch L.strict ⟨m₀, s₀, h₀, i₀, 0⟩ b 1 := if_neg (by simp [hs])
  have hopens : (scanner L.strict).opens ⟨m₀, s₀, h₀, i₀, 0⟩ = opens s₀ := rfl
  rw [Scanner.read, hstep, hopens, hbyte]
  simp [Scanner.Told.andThen, Scanner.Told.after, rest_eq, ho, texts]

/-- A byte of a body of a known length. -/
theorem byte_bodyIdentity (hc : ∀ m, L.answer (.messageComplete m) = 0) (hl : 0 < m.contentLength)
    (h : HeaderState) (i : ℕ) (S : Finset Kind) :
    (bodyIdentity L.strict ⟨m, .bodyIdentity, h, i, 0⟩ 1).byte L.answer b S =
      if m.contentLength = 1 then
        .ok (⟨{ m with contentLength := 0 },
          Message.next L.strict { m with contentLength := 0 }, h, i, 0⟩,
          [.body [b], .notify (.messageComplete { m with contentLength := 0 })])
      else .ok (⟨{ m with contentLength := m.contentLength - 1 }, .bodyIdentity, h, i, 0⟩,
          [.body [b]]) := by
  have hmin : min ((1 : ℕ) : ℤ) m.contentLength = 1 := by omega
  simp only [bodyIdentity, hmin]
  rw [if_pos (by decide), Code.byte]
  by_cases hone : m.contentLength = 1
  · have hz : m.contentLength - 1 = 0 := by omega
    rw [if_pos hone, hz, if_pos rfl, byte_complete hc]
    rfl
  · rw [if_neg hone, if_neg (by omega)]
    rfl

/-- **A body of a known length.** -/
theorem reads_identity (hk : L.settings.Lawful Kind.Beside)
    (hc : ∀ m, L.answer (.messageComplete m) = 0) {bs : List UInt8} (hne : bs ≠ [])
    (hl : m.contentLength = bs.length) :
    L.Reads (Ready .bodyIdentity m) bs
      (Ready (Message.next L.strict { m with contentLength := 0 }) { m with contentLength := 0 })
      (parts bs ++ [.notify (.messageComplete { m with contentLength := 0 })]) := by
  induction bs generalizing m with
  | nil => exact absurd rfl hne
  | cons b bs ih =>
    rw [List.length_cons] at hl
    rcases eq_or_ne bs [] with rfl | hbs
    · have hone : m.contentLength = 1 := by simpa using hl
      refine reads_bodyByte rfl (opened_next L.strict _) fun h i ↦ ⟨h, i, ?_⟩
      change (bodyIdentity L.strict _ 1).byte L.answer b _ = _
      rw [byte_bodyIdentity hc (by omega), if_pos hone]
      rfl
    · have hpos := List.length_pos_iff.mpr hbs
      have hfirst : L.Reads (Ready .bodyIdentity m) [b]
          (Ready .bodyIdentity { m with contentLength := m.contentLength - 1 }) (parts [b]) := by
        refine reads_bodyByte rfl rfl fun h i ↦ ⟨h, i, ?_⟩
        change (bodyIdentity L.strict _ 1).byte L.answer b _ = _
        rw [byte_bodyIdentity hc (by omega), if_neg (by omega)]
        rfl
      have hrest := ih (m := { m with contentLength := m.contentLength - 1 }) hbs
        (by simp only; omega)
      refine (hfirst.append hrest).told fun u ↦ ?_
      rw [← List.append_assoc, L.settings.play_append, Scanner.play_parts_append hk,
        ← L.settings.play_append]
      rfl

/-- A body up to the end of the connection. -/
theorem reads_untilEof (hk : L.settings.Lawful Kind.Beside) (bs : List UInt8) :
    L.Reads (Ready .bodyIdentityEof m) bs
      (Ready .bodyIdentityEof m) (parts bs) := by
  induction bs with
  | nil => exact Scanner.Reads.nil fun c hc ↦ hc
  | cons b bs ih =>
    have hfirst : L.Reads (Ready .bodyIdentityEof m) [b]
        (Ready .bodyIdentityEof m) (parts [b]) :=
      reads_bodyByte rfl rfl fun h i ↦ ⟨h, i, rfl⟩
    exact (hfirst.append ih).told (Scanner.play_parts_append hk [b] bs)

/-! ## Chunks -/

/-- The number that is read from the digits in front of a chunk. -/
def hexFrom (n : ℤ) (ds : List UInt8) : ℤ := ds.foldl (fun n d ↦ int64 (n * 16 + unhex d)) n

/-- The line in front of a chunk. -/
structure Size where
  digits : List UInt8
  params : List UInt8
  deriving DecidableEq, Repr

namespace Size

def bytes (z : Size) : List UInt8 := z.digits ++ (z.params ++ [cr, lf])

/-- A line that stands for `n`. -/
@[mk_iff]
structure Good (z : Size) (n : ℕ) : Prop where
  ne_nil : z.digits ≠ []
  digit : ∀ d ∈ z.digits, unhex d ≠ -1
  eq : hexFrom 0 z.digits = n
  head : ∀ b ∈ z.params.head?, b = ';'.toUInt8 ∨ b = ' '.toUInt8
  params : ∀ b ∈ z.params, b ≠ cr

instance (z : Size) (n : ℕ) : Decidable (z.Good n) :=
  haveI : Decidable (∀ d ∈ z.digits, unhex d ≠ -1) := List.decidableBAll _ z.digits
  haveI : Decidable (∀ b ∈ z.params.head?, b = ';'.toUInt8 ∨ b = ' '.toUInt8) :=
    Option.decidableForallMem z.params.head?
  haveI : Decidable (∀ b ∈ z.params, b ≠ cr) := List.decidableBAll _ z.params
  decidable_of_iff _ (good_iff z n).symm

end Size

theorem unhex_bounds (b : UInt8) : -1 ≤ unhex b ∧ unhex b < 16 := by
  have hall : ∀ x ∈ unhexTable, -1 ≤ x ∧ x < 16 := by decide +kernel
  rw [unhex, List.getD_eq_getElem?_getD]
  rcases h : unhexTable[b.toNat]? with _ | x
  · decide
  · exact hall x (List.mem_of_getElem? h)

theorem hexFrom_cons {d : UInt8} (hd : unhex d ≠ -1) (ds : List UInt8) :
    hexFrom 0 (d :: ds) = hexFrom (unhex d) ds := by
  obtain ⟨hlo, hhi⟩ := unhex_bounds d
  rw [hexFrom, List.foldl_cons, int64_of_lt (by omega) (by omega), Int.zero_mul, Int.zero_add,
    hexFrom]

theorem assertChunked_of {c : Parser} (h : c.flags.chunked) (rest : Step) :
    assertChunked c rest = rest := if_pos h

/-- The digits behind the first one. -/
theorem reads_hex (hch : m.flags.chunked) {ds : List UInt8} (hds : ∀ d ∈ ds, unhex d ≠ -1) (n : ℤ) :
    L.Reads (Ready .chunkSize { m with contentLength := n }) ds
      (Ready .chunkSize { m with contentLength := hexFrom n ds }) [] := by
  induction ds generalizing n with
  | nil => exact Scanner.Reads.nil fun c hc ↦ hc
  | cons d ds ih =>
    have hd := hds d (by simp)
    have hcr : d ≠ cr := by rintro rfl; exact hd (by decide)
    have hfirst : L.Reads
        (Ready .chunkSize { m with contentLength := n }) [d]
        (Ready .chunkSize { m with contentLength := int64 (n * 16 + unhex d) }) [] := by
      refine reads_bodyByte rfl rfl fun h i ↦ ⟨h, i, ?_⟩
      change (assertChunked _ (chunkSize _ d)).byte L.answer d _ = _
      rw [assertChunked_of hch, chunkSize, if_neg hcr, if_neg hd]
      rfl
    exact hfirst.append (ih (fun d' hd' ↦ hds d' (by simp [hd'])) _)

/-- The parameters of a chunk, and the carriage return behind them. -/
theorem reads_params (hch : m.flags.chunked) {ps : List UInt8}
    (hhead : ∀ b ∈ ps.head?, b = ';'.toUInt8 ∨ b = ' '.toUInt8) (hps : ∀ b ∈ ps, b ≠ cr) :
    L.Reads (Ready .chunkSize m) (ps ++ [cr])
      (Ready .chunkSizeAlmostDone m) [] := by
  rcases ps with _ | ⟨p, ps⟩
  · refine reads_bodyByte rfl rfl fun h i ↦ ⟨h, i, ?_⟩
    change (assertChunked _ _).byte L.answer cr _ = _
    rw [assertChunked_of hch]
    rfl
  · have hfirst : L.Reads (Ready .chunkSize m) [p]
        (Ready .chunkParameters m) [] := by
      refine reads_bodyByte rfl rfl fun h i ↦ ⟨h, i, ?_⟩
      change (assertChunked _ (chunkSize _ p)).byte L.answer p _ = _
      rw [assertChunked_of hch]
      rcases hhead p rfl with rfl | rfl <;> rfl
    have hrest : ∀ {ps : List UInt8}, (∀ b ∈ ps, b ≠ cr) → L.Reads
        (Ready .chunkParameters m) ps (Ready .chunkParameters m) [] := by
      intro ps hps
      induction ps with
      | nil => exact Scanner.Reads.nil fun c hc ↦ hc
      | cons b ps ih =>
        have hone : L.Reads (Ready .chunkParameters m) [b]
            (Ready .chunkParameters m) [] := by
          refine reads_bodyByte rfl rfl fun h i ↦ ⟨h, i, ?_⟩
          change (assertChunked _ _).byte L.answer b _ = _
          rw [assertChunked_of hch, if_neg (hps b (by simp))]
          rfl
        exact hone.append (ih fun b' hb' ↦ hps b' (by simp [hb']))
    have hcr : L.Reads (Ready .chunkParameters m) [cr]
        (Ready .chunkSizeAlmostDone m) [] := by
      refine reads_bodyByte rfl rfl fun h i ↦ ⟨h, i, ?_⟩
      change (assertChunked _ _).byte L.answer cr _ = _
      rw [assertChunked_of hch]
      rfl
    exact (hfirst.append (hrest fun b hb ↦ hps b (by simp [hb]))).append hcr

/-- The line in front of a chunk, up to its last byte. -/
theorem reads_size (hch : m.flags.chunked) {z : Size} {n : ℕ} (hz : z.Good n) :
    L.Reads (Ready .chunkSizeStart m) (z.digits ++ (z.params ++ [cr]))
      (Ready .chunkSizeAlmostDone { m with contentLength := n }) [] := by
  obtain ⟨d, ds, hds⟩ := List.exists_cons_of_ne_nil hz.ne_nil
  have hd := hz.digit d (by simp [hds])
  have hfirst : L.Reads (Ready .chunkSizeStart m) [d]
      (Ready .chunkSize { m with contentLength := unhex d }) [] := by
    refine reads_bodyByte rfl rfl fun h i ↦ ⟨h, i, ?_⟩
    change (assertChunked _ (chunkSizeStart _ d)).byte L.answer d _ = _
    rw [assertChunked_of hch, chunkSizeStart, if_neg hd]
    rfl
  have htail : ∀ d' ∈ ds, unhex d' ≠ -1 := fun d' hd' ↦ hz.digit d' (by simp [hds, hd'])
  have hrest := reads_hex (L := L) hch htail (unhex d)
  rw [← hexFrom_cons hd, ← hds, hz.eq] at hrest
  have hparams := reads_params (L := L) (m := { m with contentLength := n }) hch hz.head hz.params
  rw [hds]
  exact (hfirst.append hrest).append hparams

structure Chunk where
  size : Size
  data : List UInt8
  deriving DecidableEq, Repr

namespace Chunk

def bytes (k : Chunk) : List UInt8 := k.size.bytes ++ (k.data ++ [cr, lf])

@[mk_iff]
structure Good (k : Chunk) : Prop where
  ne_nil : k.data ≠ []
  size : k.size.Good k.data.length

instance (k : Chunk) : Decidable k.Good := decidable_of_iff _ (good_iff k).symm

end Chunk

theorem byte_chunkData (hl : 0 < m.contentLength) (h : HeaderState) (i : ℕ) (S : Finset Kind) :
    (chunkData ⟨m, .chunkData, h, i, 0⟩ 1).byte L.answer b S =
      .ok (⟨{ m with contentLength := m.contentLength - 1 },
        if m.contentLength = 1 then .chunkDataAlmostDone else .chunkData, h, i, 0⟩,
        [.body [b]]) := by
  have hmin : min ((1 : ℕ) : ℤ) m.contentLength = 1 := by omega
  simp only [chunkData, hmin]
  rw [if_pos (by decide), Code.byte]
  by_cases hone : m.contentLength = 1
  · rw [if_pos hone, if_pos hone.symm]
    rfl
  · rw [if_neg hone, if_neg (Ne.symm hone)]
    rfl

/-- The bytes of a chunk. -/
theorem reads_chunkData (hk : L.settings.Lawful Kind.Beside) (hch : m.flags.chunked)
    {bs : List UInt8} (hne : bs ≠ []) (hl : m.contentLength = bs.length) :
    L.Reads (Ready .chunkData m) bs
      (Ready .chunkDataAlmostDone { m with contentLength := 0 }) (parts bs) := by
  induction bs generalizing m with
  | nil => exact absurd rfl hne
  | cons b bs ih =>
    rw [List.length_cons] at hl
    have hdata : ∀ h i, (switch L.strict ⟨m, .chunkData, h, i, 0⟩ b 1).byte L.answer b
        (opens .chunkData) = .ok (⟨{ m with contentLength := m.contentLength - 1 },
          if m.contentLength = 1 then .chunkDataAlmostDone else .chunkData, h, i, 0⟩,
        [.body [b]]) := by
      intro h i
      change (assertChunked _ (chunkData _ 1)).byte L.answer b _ = _
      rw [assertChunked_of hch, byte_chunkData (by omega)]
    rcases eq_or_ne bs [] with rfl | hbs
    · have hone : m.contentLength = 1 := by simpa using hl
      refine reads_bodyByte rfl rfl fun h i ↦ ⟨h, i, ?_⟩
      rw [hdata, if_pos hone, hone]
      rfl
    · have hpos := List.length_pos_iff.mpr hbs
      have hfirst : L.Reads (Ready .chunkData m) [b]
          (Ready .chunkData { m with contentLength := m.contentLength - 1 }) (parts [b]) := by
        refine reads_bodyByte rfl rfl fun h i ↦ ⟨h, i, ?_⟩
        rw [hdata, if_neg (by omega)]
        rfl
      have hrest := ih (m := { m with contentLength := m.contentLength - 1 }) hch hbs
        (by simp only; omega)
      exact (hfirst.append hrest).told (Scanner.play_parts_append hk [b] bs)

/-- **A chunk.** -/
theorem reads_chunk (hk : L.settings.Lawful Kind.Beside) (hch : m.flags.chunked) {c : Chunk}
    (hc : c.Good) :
    L.Reads (Ready .chunkSizeStart m) c.bytes
      (Ready .chunkSizeStart { m with contentLength := 0 }) (parts c.data) := by
  have hpos := List.length_pos_iff.mpr hc.ne_nil
  have hsize := reads_size (L := L) hch hc.size
  have hlf : L.Reads
      (Ready .chunkSizeAlmostDone { m with contentLength := c.data.length }) [lf]
      (Ready .chunkData { m with contentLength := c.data.length }) [] := by
    refine reads_bodyByte rfl rfl fun h i ↦ ⟨h, i, ?_⟩
    change (assertChunked _ (strictCheck L.strict lf lf _ _)).byte L.answer lf _ = _
    rw [assertChunked_of hch, strictCheck_self, chunkSizeAlmostDone,
      if_neg (by simp only; omega)]
    rfl
  have hdata := reads_chunkData (L := L) (m := { m with contentLength := c.data.length }) hk hch
    hc.ne_nil rfl
  have hcr : L.Reads
      (Ready .chunkDataAlmostDone { m with contentLength := 0 }) [cr]
      (Ready .chunkDataDone { m with contentLength := 0 }) [] := by
    refine reads_bodyByte rfl rfl fun h i ↦ ⟨h, i, ?_⟩
    change (assertChunked _ (strictCheck L.strict cr cr _ _)).byte L.answer cr _ = _
    rw [assertChunked_of hch, strictCheck_self]
    rfl
  have hlf' : L.Reads
      (Ready .chunkDataDone { m with contentLength := 0 }) [lf]
      (Ready .chunkSizeStart { m with contentLength := 0 }) [] := by
    refine reads_bodyByte rfl rfl fun h i ↦ ⟨h, i, ?_⟩
    change (assertChunked _ (strictCheck L.strict lf lf _ _)).byte L.answer lf _ = _
    rw [assertChunked_of hch, strictCheck_self]
    rfl
  have hall := (((hsize.append hlf).append hdata).append hcr).append hlf'
  simpa [Chunk.bytes, Size.bytes] using hall

/-- Chunks one after the other. -/
theorem reads_chunks (hk : L.settings.Lawful Kind.Beside) (hch : m.flags.chunked) {cs : List Chunk}
    (hcs : ∀ c ∈ cs, c.Good) :
    ∃ n, L.Reads (Ready .chunkSizeStart m) (cs.flatMap Chunk.bytes)
      (Ready .chunkSizeStart { m with contentLength := n }) (parts (cs.flatMap Chunk.data)) := by
  induction cs generalizing m with
  | nil => exact ⟨m.contentLength, Scanner.Reads.nil fun c hc ↦ hc⟩
  | cons c cs ih =>
    obtain ⟨n, hrest⟩ := ih (m := { m with contentLength := 0 }) hch
      fun c' hc' ↦ hcs c' (by simp [hc'])
    refine ⟨n, ?_⟩
    simp only [List.flatMap_cons]
    exact ((reads_chunk hk hch (hcs c (by simp))).append hrest).told
      (Scanner.play_parts_append hk _ _)

/-- What follows the last chunk. -/
structure LastChunk where
  size : Size
  trailers : List Header
  deriving DecidableEq, Repr

namespace LastChunk

def bytes (l : LastChunk) : List UInt8 :=
  l.size.bytes ++ (l.trailers.flatMap Header.bytes ++ [cr, lf])

@[mk_iff]
structure Good (l : LastChunk) : Prop where
  size : l.size.Good 0
  trailers : ∀ h ∈ l.trailers, h.Good

instance (l : LastChunk) : Decidable l.Good := decidable_of_iff _ (good_iff l).symm

/-- The message behind the trailer. -/
def store (l : LastChunk) (m : Message) : Message :=
  storeHeaders l.trailers { m with contentLength := 0, flags.trailing := true }

def told (l : LastChunk) (m : Message) : List (Event UInt8 Kind Notice) :=
  l.trailers.flatMap Header.told ++ [.notify (.messageComplete (l.store m))]

end LastChunk

theorem trailing_store (h : Header) (m : Message) :
    (h.store m).flags.trailing = m.flags.trailing := by
  unfold Header.store
  split_ifs
  · rfl
  · exact trailing_effect _ _ _

theorem trailing_storeHeaders (hs : List Header) (m : Message) :
    (storeHeaders hs m).flags.trailing = m.flags.trailing := by
  induction hs generalizing m with
  | nil => rfl
  | cons h hs ih => exact (ih _).trans (trailing_store h m)

/-- **The last chunk** and the trailer. -/
theorem reads_lastChunk (hk : L.settings.Lawful Kind.Beside)
    (hc : ∀ m, L.answer (.messageComplete m) = 0) (hch : m.flags.chunked) {l : LastChunk}
    (hl : l.Good) :
    L.Reads (Ready .chunkSizeStart m) l.bytes
      (Ready (Message.next L.strict (l.store m)) (l.store m)) (l.told m) := by
  have hsize := reads_size (L := L) hch hl.size
  have hlf : L.Reads
      (Ready .chunkSizeAlmostDone { m with contentLength := (0 : ℕ) }) [lf]
      (At .headerFieldStart { m with contentLength := 0, flags.trailing := true } anyWord
        ((l.trailers.flatMap Header.bytes).length + (0 + 2))) [] := by
    have hready : L.Reads
        (Ready .chunkSizeAlmostDone { m with contentLength := (0 : ℕ) }) [lf]
        (Ready .headerFieldStart { m with contentLength := 0, flags.trailing := true }) [] := by
      refine reads_bodyByte rfl rfl fun h i ↦ ⟨h, i, ?_⟩
      change (assertChunked _ (strictCheck L.strict lf lf _ _)).byte L.answer lf _ = _
      rw [assertChunked_of hch, strictCheck_self, chunkSizeAlmostDone, if_pos (by simp)]
      rfl
    refine hready.mono (fun c hc ↦ hc) fun c hc ↦ ⟨hc.state, hc.message, trivial, ?_⟩
    have htrailing : c.flags.trailing = true := congrArg (·.flags.trailing) hc.message
    rw [Parser.Room, if_pos htrailing]
    exact hc.nread
  have htrailers := reads_headers (L := L) (r := 0 + 2)
    (m := { m with contentLength := 0, flags.trailing := true }) hk hl.trailers
  have hend := reads_trailerEnd (L := L) (r := 0)
    (m := l.store m) hc (trailing_storeHeaders _ _)
  have hall := ((hsize.append hlf).append htrailers).append hend
  simpa [LastChunk.bytes, LastChunk.told, Size.bytes] using hall

end SpiderNode.HttpParser
