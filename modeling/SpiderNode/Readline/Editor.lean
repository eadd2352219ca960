import SpiderNode.Tty.EmitKey

/-!
# The line that is edited

The editing commands of `Interface` in `lib/readline.js`. Each of them sets the line, the cursor and
the place in the history by itself, and reads the line by `slice`, which takes every position. So
that it can be said that no position is out of range, the commands keep an account of what they
read.

The commands keep `Inv`. There is one of them that reads out of range: `_deleteRight` slices from
behind the cursor to the end, also if the cursor is at the end.

What is written to the terminal is left out.
-/

namespace SpiderNode.Readline

open Regex Pattern

/-! ## Slices and words -/

/-- A position that is given to `slice`; a negative one counts from the end. -/
def position (x : ℤ) (length : ℕ) : ℕ :=
  if x < 0 then (length + x).toNat else min x.toNat length

/-- `s.slice(start, stop)` -/
def slice (s : JSString) (start stop : ℤ) : JSString :=
  (s.take (position stop s.length)).drop (position start s.length)

/-- `\w` -/
def isWord (u : UInt16) : Bool := Tty.isLetter u || isDigit u || u == 0x5F

/-- `/([^\w\s]+|\w+|)\s*$/`, with all that it reads. -/
def leadingWordRe : Pattern UInt16 JSString := do
  let word ← orElse (plus fun u ↦ !isWord u && !isWhite u) (orElse (plus isWord) (pure []))
  let space ← star isWhite
  atEnd
  return word ++ space

/-- `/^(\s+|\W+|\w+)\s*/`, with all that it reads. -/
def trailingWordRe : Pattern UInt16 JSString := do
  let word ← orElse (plus isWhite) (orElse (plus fun u ↦ !isWord u) (plus isWord))
  let space ← star isWhite
  return word ++ space

/-- `leading.match(...)[0]` -/
def leadingWord (leading : JSString) : JSString := (search leadingWordRe leading).getD []

/-- `trailing.match(...)[0]` -/
def trailingWord (trailing : JSString) : JSString := (trailingWordRe.exec trailing).getD []

/-! ## The editor -/

/-- What is read by position: an item of the history, or a slice of a text, with the length of what
is read from. -/
inductive Access where
  | item (index : ℤ) (length : ℕ)
  | slice (start stop : ℤ) (length : ℕ)
  /-- The slice behind the character that `_deleteRight` deletes. -/
  | behindDeleted (start stop : ℤ) (length : ℕ)
  deriving DecidableEq

/-- `kHistorySize` -/
def historySize : ℕ := 30

structure Editor where
  line : JSString
  cursor : ℤ
  history : List JSString
  historyIndex : ℤ
  /-- What has been read so far, the last first. -/
  accesses : List Access

namespace Editor

def new : Editor := ⟨[], 0, [], -1, []⟩

variable (e : Editor)

def length : ℕ := e.line.length

/-- A new line and cursor, after what has been read for it. -/
def set (line : JSString) (cursor : ℤ) (read : List Access) : Editor :=
  { e with line, cursor, accesses := read ++ e.accesses }

def moveTo (cursor : ℤ) (read : List Access) : Editor := e.set e.line cursor read

/-- `this.line.slice(0, this.cursor)` -/
def leading : JSString := slice e.line 0 e.cursor

/-- `this.line.slice(this.cursor)` -/
def trailing : JSString := slice e.line e.cursor e.length

/-- The two slices around the cursor. -/
def around : List Access := [.slice 0 e.cursor e.length, .slice e.cursor e.length e.length]

def insertString (c : JSString) : Editor :=
  if e.cursor < e.length then
    e.set (e.leading ++ c ++ e.trailing) (e.cursor + c.length) e.around
  else e.set (e.line ++ c) (e.cursor + c.length) []

def wordLeft : Editor :=
  if 0 < e.cursor then
    e.moveTo (e.cursor - (leadingWord e.leading).length) [.slice 0 e.cursor e.length]
  else e

def wordRight : Editor :=
  if e.cursor < e.length then
    e.moveTo (e.cursor + (trailingWord e.trailing).length) [.slice e.cursor e.length e.length]
  else e

def deleteLeft : Editor :=
  if 0 < e.cursor ∧ 0 < e.length then
    e.set (slice e.line 0 (e.cursor - 1) ++ e.trailing) (e.cursor - 1)
      [.slice 0 (e.cursor - 1) e.length, .slice e.cursor e.length e.length]
  else e

def deleteRight : Editor :=
  e.set (e.leading ++ slice e.line (e.cursor + 1) e.length) e.cursor
    [.slice 0 e.cursor e.length, .behindDeleted (e.cursor + 1) e.length e.length]

def deleteWordLeft : Editor :=
  if 0 < e.cursor then
    let stop : ℤ := e.leading.length - (leadingWord e.leading).length
    let leading := slice e.leading 0 stop
    e.set (leading ++ e.trailing) leading.length (.slice 0 stop e.leading.length :: e.around)
  else e

def deleteWordRight : Editor :=
  if e.cursor < e.length then
    let start : ℤ := (trailingWord e.trailing).length
    e.set (e.leading ++ slice e.trailing start e.trailing.length) e.cursor
      (.slice start e.trailing.length e.trailing.length :: e.around)
  else e

def deleteLineLeft : Editor := e.set e.trailing 0 [.slice e.cursor e.length e.length]

def deleteLineRight : Editor := e.set e.leading e.cursor [.slice 0 e.cursor e.length]

/-- `ctrl-u` -/
def deleteLine : Editor := e.set [] 0 []

/-- `ctrl-a` -/
def lineStart : Editor := e.moveTo 0 []

/-- `ctrl-e` -/
def lineEnd : Editor := e.moveTo e.length []

/-- `ctrl-b` -/
def back : Editor := if 0 < e.cursor then e.moveTo (e.cursor - 1) [] else e

/-- `ctrl-f` -/
def forward : Editor := if e.cursor ≠ e.length then e.moveTo (e.cursor + 1) [] else e

/-- An item of the history becomes the line; there is always one (`Inv`). -/
def showEntry (index : ℤ) : Editor :=
  let line := if index < 0 then [] else e.history[index.toNat]?.getD []
  { e with historyIndex := index }.set line line.length [.item index e.history.length]

def historyNext : Editor :=
  if 0 < e.historyIndex then e.showEntry (e.historyIndex - 1)
  else if e.historyIndex = 0 then { e with historyIndex := -1 }.set [] 0 []
  else e

def historyPrev : Editor :=
  if e.historyIndex + 1 < e.history.length then e.showEntry (e.historyIndex + 1) else e

/-- A line in front of the history; only so many are stored. -/
def addedTo (history : List JSString) (line : JSString) : List JSString :=
  let history := line :: history
  if historySize < history.length then history.dropLast else history

/-- `_addHistory`, and the line that it returns. -/
def addHistory : JSString × Editor :=
  if e.length = 0 then ([], e)
  else
    let history := addedTo e.history e.line
    (history.headD [],
      { e with history, historyIndex := -1 }.set [] 0 [.item 0 history.length])

end Editor

/-! ## Lengths -/

variable {s : JSString} {i j : ℤ}

theorem position_of_mem {n : ℕ} (h : 0 ≤ i) (h' : i ≤ n) : (position i n : ℤ) = i := by
  rw [position, if_neg (Int.not_lt.mpr h)]
  omega

theorem length_slice (hi : 0 ≤ i) (hij : i ≤ j) (hj : j ≤ s.length) :
    ((slice s i j).length : ℤ) = j - i := by
  have hstart := position_of_mem hi (hij.trans hj)
  have hstop := position_of_mem (hi.trans hij) hj
  rw [slice, List.length_drop, List.length_take]
  omega

/-- A slice from behind the end is empty. -/
theorem slice_succ_length (s : JSString) : slice s (s.length + 1) s.length = [] := by
  have hstart : position (s.length + 1) s.length = s.length := by
    rw [position, if_neg (by omega), Nat.min_eq_right (by omega)]
  rw [slice, hstart, List.drop_eq_nil_iff]
  exact List.length_take_le' _ _

variable {text r : JSString}

theorem eq_of_mem_leadingWordRe (h : (text, r) ∈ leadingWordRe s) : s = text := by
  obtain ⟨word, t, hword, h⟩ := mem_bind.mp h
  obtain ⟨space, t', hspace, h⟩ := mem_bind.mp h
  obtain ⟨u, t'', hend, h⟩ := mem_bind.mp h
  obtain ⟨rfl, -⟩ := mem_pure.mp h
  obtain ⟨rfl, -⟩ := mem_atEnd.mp hend
  obtain ⟨rfl, -⟩ := mem_star.mp hspace
  rw [List.append_nil] at hword
  rcases mem_orElse.mp hword with hword | hword
  · exact (mem_plus.mp hword).1
  · rcases mem_orElse.mp hword with hword | hword
    · exact (mem_plus.mp hword).1
    · obtain ⟨rfl, rfl⟩ := mem_pure.mp hword
      rfl

theorem prefix_of_mem_trailingWordRe (h : (text, r) ∈ trailingWordRe s) : s = text ++ r := by
  obtain ⟨word, t, hword, h⟩ := mem_bind.mp h
  obtain ⟨space, t', hspace, h⟩ := mem_bind.mp h
  obtain ⟨rfl, rfl⟩ := mem_pure.mp h
  obtain ⟨rfl, -⟩ := mem_star.mp hspace
  rw [List.append_assoc]
  rcases mem_orElse.mp hword with hword | hword
  · exact (mem_plus.mp hword).1
  · rcases mem_orElse.mp hword with hword | hword
    · exact (mem_plus.mp hword).1
    · exact (mem_plus.mp hword).1

theorem length_leadingWord_le : (leadingWord s).length ≤ s.length := by
  rw [leadingWord]
  rcases h : search leadingWordRe s with _ | text
  · exact Nat.zero_le _
  · obtain ⟨t, ht, hexec⟩ := exists_of_search h
    obtain ⟨r, hmem⟩ := mem_of_exec hexec
    exact eq_of_mem_leadingWordRe hmem ▸ ht.length_le

/-- There is always a match, if only at the end. -/
theorem search_leadingWordRe : search leadingWordRe s ≠ none :=
  search_ne_none ⟨[], List.nil_suffix, by decide⟩

theorem length_trailingWord_le : (trailingWord s).length ≤ s.length := by
  rw [trailingWord]
  rcases h : trailingWordRe.exec s with _ | text
  · exact Nat.zero_le _
  · obtain ⟨r, hmem⟩ := mem_of_exec h
    rw [prefix_of_mem_trailingWordRe hmem, List.length_append]
    exact Nat.le_add_right _ _

/-- There is a match, as each unit is in one of the classes. -/
theorem exec_trailingWordRe (h : s ≠ []) : trailingWordRe.exec s ≠ none := by
  obtain ⟨u, t, rfl⟩ := List.exists_cons_of_ne_nil h
  have hplus {p : UInt16 → Bool} (hu : p u = true) : ([u], t) ∈ plus p (u :: t) :=
    mem_plus.mpr ⟨rfl, List.cons_ne_nil _ _, by simpa using hu⟩
  have hword : ([u], t) ∈
      orElse (plus isWhite) (orElse (plus fun u ↦ !isWord u) (plus isWord)) (u :: t) := by
    rcases hu : isWord u with _ | _
    · exact mem_orElse.mpr (.inr (mem_orElse.mpr (.inl (hplus (by rw [hu]; rfl)))))
    · exact mem_orElse.mpr (.inr (mem_orElse.mpr (.inr (hplus hu))))
  intro hnone
  refine exec_eq_none_iff.mp hnone ([u] ++ []) t (mem_bind.mpr ⟨[u], t, hword, ?_⟩)
  exact mem_bind.mpr ⟨[], t, mem_star.mpr ⟨rfl, by simp⟩, mem_pure.mpr ⟨rfl, rfl⟩⟩

/-! ## The invariant -/

/-- What is read is there. -/
def Access.InRange : Access → Prop
  | item i n => 0 ≤ i ∧ i < n
  | slice i j n | behindDeleted i j n => 0 ≤ i ∧ i ≤ j ∧ j ≤ n

/-- A slice of `_deleteRight` that begins behind the end, and is empty. -/
def Access.BehindEnd : Access → Prop
  | item _ _ | slice _ _ _ => False
  | behindDeleted i j n => i = n + 1 ∧ j = n

namespace Editor

structure Inv (e : Editor) : Prop where
  cursor_nonneg : 0 ≤ e.cursor
  cursor_le : e.cursor ≤ e.length
  history_le : e.history.length ≤ historySize
  index_ge : -1 ≤ e.historyIndex
  index_lt : e.historyIndex < e.history.length
  accesses : ∀ a ∈ e.accesses, a.InRange ∨ a.BehindEnd

variable {e : Editor} {line : JSString} {cursor : ℤ} {read : List Access}

theorem length_leading (h : e.Inv) : (e.leading.length : ℤ) = e.cursor := by
  rw [leading, length_slice le_rfl h.cursor_nonneg h.cursor_le, sub_zero]

theorem length_trailing (h : e.Inv) : (e.trailing.length : ℤ) = e.length - e.cursor :=
  length_slice h.cursor_nonneg h.cursor_le le_rfl

/-- At the end of the line there is nothing to delete. -/
theorem line_deleteRight (h : e.cursor = e.length) : e.deleteRight.line = e.line := by
  have hstop : position e.cursor e.line.length = e.line.length := by
    have hmem := position_of_mem (i := e.cursor) (n := e.line.length) (by omega) h.le
    have hlength : e.length = e.line.length := rfl
    omega
  have hleading : e.leading = e.line := by
    rw [leading, slice, hstop, List.take_length]
    rfl
  show e.leading ++ slice e.line (e.cursor + 1) e.length = e.line
  rw [hleading, h]
  exact (congrArg (e.line ++ ·) (slice_succ_length e.line)).trans (List.append_nil _)

namespace Inv

theorem new : Editor.new.Inv :=
  ⟨le_rfl, le_rfl, Nat.zero_le _, le_rfl, by decide, by simp [Editor.new]⟩

theorem set_of (h : e.Inv) (hcursor : 0 ≤ cursor) (hcursor' : cursor ≤ line.length)
    (hread : ∀ a ∈ read, a.InRange ∨ a.BehindEnd) : (e.set line cursor read).Inv :=
  ⟨hcursor, hcursor', h.history_le, h.index_ge, h.index_lt, fun a ha ↦
    (List.mem_append.mp ha).elim (hread a) (h.accesses a)⟩

theorem set (h : e.Inv) (hcursor : 0 ≤ cursor) (hcursor' : cursor ≤ line.length)
    (hread : ∀ a ∈ read, a.InRange) : (e.set line cursor read).Inv :=
  h.set_of hcursor hcursor' fun a ha ↦ .inl (hread a ha)

theorem leading (h : e.Inv) : (Access.slice 0 e.cursor e.length).InRange :=
  ⟨le_rfl, h.cursor_nonneg, h.cursor_le⟩

theorem trailing (h : e.Inv) : (Access.slice e.cursor e.length e.length).InRange :=
  ⟨h.cursor_nonneg, h.cursor_le, le_rfl⟩

theorem around (h : e.Inv) : ∀ a ∈ e.around, a.InRange :=
  List.forall_mem_cons.mpr ⟨h.leading, List.forall_mem_singleton.mpr h.trailing⟩

theorem insertString (h : e.Inv) (c : JSString) : (e.insertString c).Inv := by
  have hleading := length_leading h
  have htrailing := length_trailing h
  have hnonneg := h.cursor_nonneg
  have hle := h.cursor_le
  rw [Editor.insertString]
  split_ifs with hcursor
  · refine h.set (by omega) ?_ h.around
    rw [List.length_append, List.length_append]
    omega
  · refine h.set (by omega) ?_ (by simp)
    rw [List.length_append, ← Editor.length]
    omega

theorem wordLeft (h : e.Inv) : e.wordLeft.Inv := by
  have hword := length_leadingWord_le (s := e.leading)
  have hleading := length_leading h
  have hle := h.cursor_le
  rw [Editor.wordLeft]
  split_ifs
  · refine h.set (by omega) ?_ (List.forall_mem_singleton.mpr h.leading)
    rw [← Editor.length]
    omega
  · exact h

theorem wordRight (h : e.Inv) : e.wordRight.Inv := by
  have hword := length_trailingWord_le (s := e.trailing)
  have htrailing := length_trailing h
  have hnonneg := h.cursor_nonneg
  rw [Editor.wordRight]
  split_ifs
  · refine h.set (by omega) ?_ (List.forall_mem_singleton.mpr h.trailing)
    rw [← Editor.length]
    omega
  · exact h

theorem deleteLeft (h : e.Inv) : e.deleteLeft.Inv := by
  have htrailing := length_trailing h
  have hle := h.cursor_le
  rw [Editor.deleteLeft]
  split_ifs with hpos
  · have hread : (Access.slice 0 (e.cursor - 1) e.length).InRange := ⟨le_rfl, by omega, by omega⟩
    have hlength := length_slice (s := e.line) hread.1 hread.2.1 hread.2.2
    refine h.set (by omega) ?_
      (List.forall_mem_cons.mpr ⟨hread, List.forall_mem_singleton.mpr h.trailing⟩)
    rw [List.length_append]
    omega
  · exact h

/-- At the end of the line the second slice begins behind it. -/
theorem deleteRight (h : e.Inv) : e.deleteRight.Inv := by
  have hleading := length_leading h
  have hnonneg := h.cursor_nonneg
  have hle := h.cursor_le
  have hread : (Access.behindDeleted (e.cursor + 1) e.length e.length).InRange ∨
      (Access.behindDeleted (e.cursor + 1) e.length e.length).BehindEnd := by
    by_cases hend : e.cursor < e.length
    · exact .inl ⟨by omega, by omega, le_rfl⟩
    · exact .inr ⟨by omega, rfl⟩
  rw [Editor.deleteRight]
  refine h.set_of hnonneg ?_
    (List.forall_mem_cons.mpr ⟨.inl h.leading, List.forall_mem_singleton.mpr hread⟩)
  rw [List.length_append]
  omega

theorem deleteWordLeft (h : e.Inv) : e.deleteWordLeft.Inv := by
  have hword := length_leadingWord_le (s := e.leading)
  rw [Editor.deleteWordLeft]
  split_ifs
  · have hread : (Access.slice 0 (e.leading.length - (leadingWord e.leading).length)
        e.leading.length).InRange := ⟨le_rfl, by omega, by omega⟩
    refine h.set (Int.natCast_nonneg _) ?_ (List.forall_mem_cons.mpr ⟨hread, h.around⟩)
    rw [List.length_append]
    omega
  · exact h

theorem deleteWordRight (h : e.Inv) : e.deleteWordRight.Inv := by
  have hword := length_trailingWord_le (s := e.trailing)
  have hleading := length_leading h
  rw [Editor.deleteWordRight]
  split_ifs
  · have hread : (Access.slice (trailingWord e.trailing).length e.trailing.length
        e.trailing.length).InRange := ⟨by omega, by omega, le_rfl⟩
    refine h.set h.cursor_nonneg ?_ (List.forall_mem_cons.mpr ⟨hread, h.around⟩)
    rw [List.length_append]
    omega
  · exact h

theorem deleteLineLeft (h : e.Inv) : e.deleteLineLeft.Inv :=
  h.set le_rfl (Int.natCast_nonneg _) (List.forall_mem_singleton.mpr h.trailing)

theorem deleteLineRight (h : e.Inv) : e.deleteLineRight.Inv :=
  h.set h.cursor_nonneg (length_leading h).ge (List.forall_mem_singleton.mpr h.leading)

theorem deleteLine (h : e.Inv) : e.deleteLine.Inv := h.set le_rfl le_rfl (by simp)

theorem moveTo (h : e.Inv) (hcursor : 0 ≤ cursor) (hcursor' : cursor ≤ e.length) :
    (e.moveTo cursor []).Inv := h.set hcursor hcursor' (by simp)

theorem lineStart (h : e.Inv) : e.lineStart.Inv := h.moveTo le_rfl (Int.natCast_nonneg _)

theorem lineEnd (h : e.Inv) : e.lineEnd.Inv := h.moveTo (Int.natCast_nonneg _) le_rfl

theorem back (h : e.Inv) : e.back.Inv := by
  have hle := h.cursor_le
  rw [Editor.back]
  split_ifs
  · exact h.moveTo (by omega) (by omega)
  · exact h

theorem forward (h : e.Inv) : e.forward.Inv := by
  have hnonneg := h.cursor_nonneg
  have hle := h.cursor_le
  rw [Editor.forward]
  split_ifs
  · exact h.moveTo (by omega) (by omega)
  · exact h

theorem showEntry {index : ℤ} (h : e.Inv) (hindex : 0 ≤ index) (hindex' : index < e.history.length) :
    (e.showEntry index).Inv := by
  have hmoved : ({ e with historyIndex := index } : Editor).Inv :=
    ⟨h.cursor_nonneg, h.cursor_le, h.history_le, (by decide : (-1 : ℤ) ≤ 0).trans hindex, hindex',
      h.accesses⟩
  exact hmoved.set (Int.natCast_nonneg _) le_rfl
    (List.forall_mem_singleton.mpr ⟨hindex, hindex'⟩)

theorem historyNext (h : e.Inv) : e.historyNext.Inv := by
  have hlt := h.index_lt
  rw [Editor.historyNext]
  split_ifs
  · exact h.showEntry (by omega) (by omega)
  · have hleft : ({ e with historyIndex := -1 } : Editor).Inv :=
      ⟨h.cursor_nonneg, h.cursor_le, h.history_le, le_rfl, by show -1 < _; omega, h.accesses⟩
    exact hleft.set le_rfl le_rfl (by simp)
  · exact h

theorem historyPrev (h : e.Inv) : e.historyPrev.Inv := by
  have hge := h.index_ge
  rw [Editor.historyPrev]
  split_ifs
  · exact h.showEntry (by omega) (by omega)
  · exact h

theorem addHistory (h : e.Inv) : e.addHistory.2.Inv := by
  have hlength : 0 < (addedTo e.history e.line).length ∧
      (addedTo e.history e.line).length ≤ historySize := by
    have hle := h.history_le
    have hpos : 0 < historySize := by decide
    rw [addedTo]
    split_ifs with hfull
    · rw [List.length_dropLast]
      rw [List.length_cons] at hfull ⊢
      omega
    · exact ⟨Nat.succ_pos _, Nat.le_of_not_lt hfull⟩
  rw [Editor.addHistory]
  split_ifs
  · exact h
  · have hadded :
        ({ e with history := addedTo e.history e.line, historyIndex := -1 } : Editor).Inv :=
      ⟨h.cursor_nonneg, h.cursor_le, hlength.2, le_rfl, by show -1 < (_ : ℤ); omega, h.accesses⟩
    exact hadded.set le_rfl le_rfl
      (List.forall_mem_singleton.mpr ⟨le_rfl, Int.natCast_pos.mpr hlength.1⟩)

end Inv

end Editor

end SpiderNode.Readline
