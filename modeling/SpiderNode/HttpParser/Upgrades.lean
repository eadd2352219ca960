import SpiderNode.HttpParser.Binding

/-!
# Upgrades

At the end of the head of a message that is an upgrade, the parser returns and leaves the rest of
the input to its user. It stands on the last byte of the head: `execute_upgrade`.
-/

namespace SpiderNode.HttpParser

open Scanner (Code)

variable {σ : Type*} {L : Listener σ} {m : Message}

/-- The bytes of a head up to the last one. -/
def headInit (l : FirstLine) (hs : List Header) : List UInt8 :=
  l.bytes ++ (hs.flatMap Header.bytes ++ [cr])

theorem reads_headInit (hk : L.settings.Lawful Kind.Beside) (ha : Accepts L.answer)
    {l : FirstLine} (hl : l.Good) {hs : List Header} (hhs : ∀ h ∈ hs, h.Good)
    (hroom : (headInit l hs).length < maxHeaderSize) :
    L.Reads (Ready l.start m) (headInit l hs)
      (At .headersAlmostDone (storeHeaders hs (l.store m)) anyWord 1)
      (l.told m ++ hs.flatMap Header.told) := by
  simp only [headInit, List.length_append, List.length_singleton] at hroom
  have hfirst := reads_firstLine (L := L) (m := m)
    (r := (hs.flatMap Header.bytes).length + (0 + 2)) hk ha hl (by omega)
  have hheaders := reads_headers (L := L) (r := 0 + 2) (m := l.store m) hk hhs
  have hcr : L.Reads (At .headerFieldStart (storeHeaders hs (l.store m)) anyWord (0 + 2)) [cr]
      (At .headersAlmostDone (storeHeaders hs (l.store m)) anyWord (0 + 1)) [] :=
    reads_quiet rfl rfl rfl fun h i n _ ↦ ⟨h, i, rfl, trivial⟩
  have hall := (hfirst.append hheaders).append hcr
  rwa [List.append_assoc, List.append_nil] at hall

/-- The head of an upgrade. -/
@[mk_iff]
structure Wire.Upgrades (w : Wire) (m : Message) : Prop where
  first : w.first.Good
  headers : ∀ h ∈ w.headers, h.Good
  room : w.head.length ≤ maxHeaderSize
  upgrade : (w.headed m).upgrade = true
  body : w.body = .none

instance (w : Wire) (m : Message) : Decidable (w.Upgrades m) :=
  decidable_of_iff _ (w.upgrades_iff m).symm

theorem Wire.head_eq (w : Wire) : w.head = headInit w.first w.headers ++ [lf] := by
  simp [Wire.head, headInit]

/-- **The last byte of the head** of an upgrade. -/
theorem execute_upgrade (ha : L.settings.Answers L.answer) {c : Parser} {w : Word}
    (hc : At .headersAlmostDone m w 1 c) (ht : m.flags.trailing = false)
    (hu : m.headed.upgrade = true) (hbegin : L.answer (.headersComplete m.headed) = 0)
    (hend : L.answer (.messageComplete m.headed) = 0) (rest : List UInt8) (u : σ) :
    ∃ c', c'.upgrade = true ∧
      (scanner L.strict).execute L.settings (lf :: rest) c u = .stopped .upgrade c' 0
        (L.settings.play [.notify (.headersComplete m.headed), .notify (.messageComplete m.headed)]
          u) := by
  obtain ⟨h, i, k, -, hstep, -⟩ := step_line (L := L) (r := 0) (s := .headersAlmostDone) rfl hc lf
    (rest.length + 1)
  have hparser : (if m.flags.upgrade ∨ m.method = .connect then
      (⟨{ m with upgrade := true }, .headersAlmostDone, h, i, 0⟩ : Parser)
        else ⟨m, .headersAlmostDone, h, i, 0⟩) = ⟨m.headed, .headersAlmostDone, h, i, 0⟩ := by
    unfold Message.headed
    split_ifs <;> rfl
  have hcode : step L.strict c lf (rest.length + 1) =
      .notify (.headersComplete m.headed) fun r ↦
        if r = 0 then headersCompleted L.strict ⟨m.headed, .headersAlmostDone, h, i, 0⟩
        else if r = 1 then headersCompleted L.strict
          ⟨m.headed.skipped true, .headersAlmostDone, h, i, 0⟩
        else .stop .halted ⟨m.headed, .headersAlmostDone, h, i, 0⟩ := by
    rw [hstep]
    change headersAlmostDone L.strict lf _ = _
    rw [headersAlmostDone, strictCheck_self, if_neg (by simp [ht])]
    dsimp only
    rw [hparser]
    rfl
  refine ⟨⟨m.headed, .headersAlmostDone, h, i, 0⟩, hu, ?_⟩
  have hpos : ((scanner L.strict).start c u).p < (lf :: rest).length := Nat.succ_pos _
  rw [Scanner.execute, List.length_cons, Scanner.loop, dif_pos hpos]
  have hs : (scanner L.strict).step c (lf :: rest)[((scanner L.strict).start c u).p]
      ((lf :: rest).length - ((scanner L.strict).start c u).p) =
        step L.strict c lf (rest.length + 1) := rfl
  have hans : ∀ e v, (L.settings.notify e v).2 = L.answer e := ha
  rw [hs, hcode]
  simp only [Code.run, hans, hbegin, if_true, headersCompleted, hu, callback2, hend]
  rfl

end SpiderNode.HttpParser
