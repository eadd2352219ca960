import SpiderNode.Debugger.Protocol

/-!
# Messages of the debugger protocol

A message is a list of headers and the text of a body. What `execute` finds in its text is
`received`: the text is cut at the first empty line, each line is cut at its first colon with a
blank behind it, and what follows a second one in a line is lost.
-/

namespace SpiderNode.Debugger

structure Header where
  name : JSString
  /-- How many blanks there are behind the colon, less one. -/
  gap : ℕ
  value : JSString

def Header.line (h : Header) : JSString :=
  h.name ++ 0x3A :: 0x20 :: (List.replicate h.gap 0x20 ++ h.value)

/-- The headers of a message, up to the empty line. -/
def headerText : List Header → JSString
  | [] => []
  | [h] => h.line
  | h :: h' :: hs => h.line ++ 0x0D :: 0x0A :: headerText (h' :: hs)

structure Message where
  headers : List Header
  body : JSString

def Message.text (m : Message) : JSString := headerText m.headers ++ endOfHeaders ++ m.body

/-- A name has no colon, neither has a line end, and the blanks in front of a value are no part of
it. -/
structure Header.WellFormed (h : Header) : Prop where
  name : ∀ u ∈ h.name, u ≠ 0x0D ∧ u ≠ 0x0A ∧ u ≠ 0x3A
  value : ∀ u ∈ h.value, u ≠ 0x0D ∧ u ≠ 0x0A
  blank : ∀ u ∈ h.value.head?, u ≠ 0x20

/-- The names are different, one is `Content-Length` with the length of the body, and the body is
JSON or empty. -/
structure Message.WellFormed (d : Doubles) (m : Message) : Prop where
  headers : ∀ h ∈ m.headers, h.WellFormed
  names : (m.headers.map Header.name).Nodup
  length : ∃ h ∈ m.headers, h.name = js "Content-Length" ∧ h.value ≠ [] ∧
    (∀ u ∈ h.value, isDigit u = true) ∧ digitsValue h.value = m.body.length
  body : (Protocol.parseBody d m.body).isSome
  /-- No string is longer. -/
  fits : m.text.length ≤ 2 ^ 53

/-- The headers as they are in the message. -/
def Message.sent (m : Message) : Headers := m.headers.map fun h ↦ (h.name, some h.value)

/-- The headers as they are in `res.headers`. -/
def Message.received (m : Message) : Headers :=
  (m.headers.filter fun h ↦ h.name ≠ js "__proto__").map fun h ↦ (h.name, some (cutField h.value).1)

/-! ## The end of the headers -/

variable {s t : JSString} {i : ℕ}

theorem indexOfEnd_le (h : indexOfEnd s = some i) : i + 4 ≤ s.length := by
  induction s generalizing i with
  | nil => cases h
  | cons u s ih =>
    rw [indexOfEnd] at h
    split_ifs at h with hend
    · obtain rfl := Option.some.inj h
      exact (Nat.zero_add 4).le.trans hend.length_le
    · obtain ⟨j, hj, rfl⟩ := Option.map_eq_some_iff.mp h
      have hle := ih hj
      rw [List.length_cons]
      omega

/-- More text does not change where the headers end. -/
theorem indexOfEnd_append (h : indexOfEnd s = some i) : indexOfEnd (s ++ t) = some i := by
  induction s generalizing i with
  | nil => cases h
  | cons u s ih =>
    rw [indexOfEnd] at h
    rw [List.cons_append, indexOfEnd]
    split_ifs at h with hend
    · have hprefix : endOfHeaders <+: u :: (s ++ t) := hend.trans (List.prefix_append (u :: s) t)
      rw [if_pos hprefix]
      exact h
    · obtain ⟨j, hj, rfl⟩ := Option.map_eq_some_iff.mp h
      have hle := indexOfEnd_le hj
      have hnot : ¬endOfHeaders <+: u :: (s ++ t) := fun hprefix ↦
        hend (List.prefix_of_prefix_length_le hprefix (List.prefix_append (u :: s) t)
          (by rw [List.length_cons]; exact (show 4 ≤ s.length + 1 by omega)))
      rw [if_neg hnot, ih hj]
      rfl

/-- Where the headers end in the first part of a text. -/
theorem indexOfEnd_of_append (h : indexOfEnd (s ++ t) = some i) :
    indexOfEnd s = if i + 4 ≤ s.length then some i else none := by
  cases hs : indexOfEnd s with
  | some j =>
    obtain rfl := Option.some.inj ((indexOfEnd_append hs).symm.trans h)
    rw [if_pos (indexOfEnd_le hs)]
  | none =>
    rw [if_neg]
    intro hle
    induction s generalizing i with
    | nil => cases Nat.le_zero.mp hle
    | cons u s ih =>
      rw [indexOfEnd] at hs
      rw [List.cons_append, indexOfEnd] at h
      split_ifs at hs with hend
      have hnone := Option.map_eq_none_iff.mp hs
      split_ifs at h with hend'
      · obtain rfl := Option.some.inj h
        exact hend (List.prefix_of_prefix_length_le hend' (List.prefix_append (u :: s) t) hle)
      · obtain ⟨j, hj, rfl⟩ := Option.map_eq_some_iff.mp h
        refine ih hj hnone ?_
        rw [List.length_cons] at hle
        omega

/-- A text without line ends. -/
def Clean (s : JSString) : Prop := ∀ u ∈ s, u ≠ 0x0D ∧ u ≠ 0x0A

theorem not_prefix_of_ne {u : UInt16} (hu : u ≠ 0x0D) : ¬endOfHeaders <+: u :: s := fun h ↦
  hu (List.cons_prefix_cons.mp h).1.symm

theorem indexOfEnd_clean (hs : Clean s) :
    indexOfEnd (s ++ t) = (indexOfEnd t).map (· + s.length) := by
  induction s with
  | nil => exact Option.map_id'.symm
  | cons u s ih =>
    rw [List.cons_append, indexOfEnd, if_neg (not_prefix_of_ne (hs u List.mem_cons_self).1),
      ih fun v hv ↦ hs v (List.mem_cons_of_mem _ hv), Option.map_map]
    rfl

theorem indexOfEnd_line {u : UInt16} (hu : u ≠ 0x0D) :
    indexOfEnd (0x0D :: 0x0A :: u :: t) = (indexOfEnd (u :: t)).map (· + 2) := by
  have hfirst : ¬endOfHeaders <+: 0x0D :: 0x0A :: u :: t := fun h ↦ by
    have htail := (List.cons_prefix_cons.mp (List.cons_prefix_cons.mp h).2).2
    exact not_prefix_of_ne (s := t) hu (by
      obtain ⟨r, hr⟩ := htail
      exact absurd (List.cons.inj hr).1.symm hu)
  rw [indexOfEnd, if_neg hfirst, indexOfEnd, if_neg (not_prefix_of_ne (by decide)), Option.map_map]
  rfl

variable {h : Header} {hs : List Header}

theorem Header.WellFormed.clean (hwf : h.WellFormed) : Clean h.line := by
  intro u hu
  rw [Header.line, List.mem_append, List.mem_cons, List.mem_cons, List.mem_append] at hu
  obtain hu | rfl | rfl | hu | hu := hu
  · exact ⟨(hwf.name u hu).1, (hwf.name u hu).2.1⟩
  · decide
  · decide
  · obtain rfl := List.eq_of_mem_replicate hu
    decide
  · exact hwf.value u hu

theorem Header.line_ne_nil (h : Header) : h.line ≠ [] := List.append_ne_nil_of_right_ne_nil _
  (List.cons_ne_nil _ _)

/-- The header text begins with a line. -/
theorem headerText_head (hs : List Header) (hwf : h.WellFormed) :
    ∃ u s, headerText (h :: hs) = u :: s ∧ u ≠ 0x0D := by
  obtain ⟨u, s, hline⟩ := List.exists_cons_of_ne_nil h.line_ne_nil
  have hu := (hwf.clean u (hline ▸ List.mem_cons_self)).1
  cases hs with
  | nil => exact ⟨u, s, hline, hu⟩
  | cons h' hs => exact ⟨u, _, by rw [headerText, hline]; rfl, hu⟩

/-- The headers end behind the header text. -/
theorem indexOfEnd_headerText (hne : hs ≠ []) (hwf : ∀ h ∈ hs, h.WellFormed) :
    indexOfEnd (headerText hs ++ (endOfHeaders ++ t)) = some (headerText hs).length := by
  induction hs with
  | nil => exact absurd rfl hne
  | cons h hs ih =>
    have hline := (hwf h List.mem_cons_self).clean
    cases hs with
    | nil =>
      rw [headerText, indexOfEnd_clean hline]
      have hend : indexOfEnd (endOfHeaders ++ t) = some 0 := if_pos (List.prefix_append ..)
      rw [hend]
      exact congrArg some (Nat.zero_add _)
    | cons h' hs =>
      obtain ⟨u, s, htext, hu⟩ := headerText_head hs (hwf h' (by simp))
      have ih := ih (List.cons_ne_nil _ _) fun h hh ↦ hwf h (List.mem_cons_of_mem _ hh)
      have hsplit : headerText (h :: h' :: hs) ++ (endOfHeaders ++ t) =
          h.line ++ 0x0D :: 0x0A :: (headerText (h' :: hs) ++ (endOfHeaders ++ t)) := by
        rw [headerText, List.append_assoc]
        rfl
      rw [hsplit, indexOfEnd_clean hline, headerText, List.length_append, List.length_cons,
        List.length_cons]
      rw [htext] at ih ⊢
      rw [List.cons_append, indexOfEnd_line hu, ← List.cons_append, ih]
      refine congrArg some ?_
      simp only []
      omega

/-! ## The lines -/

theorem splitFrom_clean (hs : Clean s) {line : JSString} {lines : List JSString}
    (ht : splitFrom false t = line :: lines) : splitFrom false (s ++ t) = (s ++ line) :: lines := by
  induction s with
  | nil => exact ht
  | cons u s ih =>
    rw [List.cons_append, splitFrom, if_neg Bool.false_ne_true,
      if_neg fun hc ↦ (hs u List.mem_cons_self).1 hc.1,
      ih fun v hv ↦ hs v (List.mem_cons_of_mem _ hv)]
    rfl

theorem splitFrom_line (t : JSString) :
    splitFrom false (0x0D :: 0x0A :: t) = [] :: splitFrom false t := rfl

/-- The lines of the header text. -/
theorem splitLines_headerText (hne : hs ≠ []) (hwf : ∀ h ∈ hs, h.WellFormed) :
    splitLines (headerText hs) = hs.map Header.line := by
  induction hs with
  | nil => exact absurd rfl hne
  | cons h hs ih =>
    have hline := (hwf h List.mem_cons_self).clean
    cases hs with
    | nil =>
      have hsplit := splitFrom_clean hline (t := []) rfl
      rw [List.append_nil] at hsplit
      exact hsplit
    | cons h' hs =>
      have ih := ih (List.cons_ne_nil _ _) fun h hh ↦ hwf h (List.mem_cons_of_mem _ hh)
      rw [headerText, splitLines, splitFrom_clean hline (splitFrom_line _), List.append_nil]
      exact congrArg (h.line :: ·) ih

/-! ## The fields -/

theorem cutField_name (hs : ∀ u ∈ s, u ≠ 0x3A) (t : JSString) :
    cutField (s ++ 0x3A :: 0x20 :: t) = (s, some (t.dropWhile (· == 0x20))) := by
  induction s with
  | nil => rfl
  | cons u s ih =>
    rw [List.cons_append, cutField, if_neg fun hc ↦ hs u List.mem_cons_self hc.1,
      ih fun v hv ↦ hs v (List.mem_cons_of_mem _ hv)]

theorem keyValue_line (hwf : h.WellFormed) :
    keyValue h.line = (h.name, some (cutField h.value).1) := by
  have hdrop : (List.replicate h.gap 0x20 ++ h.value).dropWhile (· == 0x20) = h.value := by
    refine (takeWhile_append_of_head _ (fun u hu ↦ ?_) fun u hu ↦ ?_).2
    · rw [List.eq_of_mem_replicate hu]
      rfl
    · exact beq_eq_false_iff_ne.mpr (hwf.blank u hu)
  rw [keyValue, Header.line, cutField_name fun u hu ↦ (hwf.name u hu).2.2, hdrop]
  rfl

/-- What a value is cut to. -/
theorem cutField_eq_iff (s : JSString) : (cutField s).1 = s ↔ ¬[0x3A, 0x20] <:+: s := by
  induction s with
  | nil => simp [cutField]
  | cons u s ih =>
    rw [List.infix_cons_iff, not_or, ← ih, cutField]
    have hcolon : [0x3A, 0x20] <+: u :: s ↔ u = 0x3A ∧ s.head? = some 0x20 := by
      rw [List.cons_prefix_cons]
      refine and_congr eq_comm ?_
      cases s with
      | nil => simp
      | cons v s => simp [eq_comm]
    rw [hcolon]
    split_ifs with hcut
    · exact ⟨fun hnil ↦ hnil.elim, fun hc ↦ absurd hcut hc.1⟩
    · exact ⟨fun hs ↦ ⟨hcut, (List.cons.inj hs).2⟩, fun hc ↦ congrArg (u :: ·) hc.2⟩

theorem foldl_assign {kvs : Headers} (hnodup : (kvs.map Prod.fst).Nodup) :
    kvs.foldl assign [] = kvs.filter fun kv ↦ kv.1 ≠ js "__proto__" := by
  have hfold (kvs done : Headers) (h : ((done ++ kvs).map Prod.fst).Nodup) :
      kvs.foldl assign done = done ++ kvs.filter fun kv ↦ kv.1 ≠ js "__proto__" := by
    induction kvs generalizing done with
    | nil => exact (List.append_nil _).symm
    | cons kv kvs ih =>
      rw [List.map_append, List.map_cons] at h
      rw [List.foldl_cons, List.filter_cons, assign]
      by_cases hproto : kv.1 = js "__proto__"
      · rw [if_pos hproto, if_neg (by simpa using hproto)]
        refine ih done ?_
        rw [List.map_append]
        exact h.sublist ((List.sublist_cons_self ..).append_left _)
      · have hkv : kv.1 ∉ done.map Prod.fst := fun hmem ↦
          (List.nodup_append.mp h).2.2 _ hmem _ List.mem_cons_self rfl
        rw [if_neg hproto, if_pos (by simpa using hproto), Json.setField_of_notMem hkv,
          ih _ (by simpa [List.append_assoc] using h), List.append_assoc]
        rfl
  exact hfold kvs [] hnodup

/-- The headers that `execute` finds. -/
theorem foldl_received {d : Doubles} {m : Message} (hwf : m.WellFormed d) :
    ((splitLines (headerText m.headers)).map keyValue).foldl assign [] = m.received := by
  obtain ⟨h, hmem, -⟩ := hwf.length
  rw [splitLines_headerText (List.ne_nil_of_mem hmem) hwf.headers, List.map_map]
  have hmap : m.headers.map (keyValue ∘ Header.line) =
      m.headers.map fun h ↦ (h.name, some (cutField h.value).1) :=
    List.map_congr_left fun h hh ↦ keyValue_line (hwf.headers h hh)
  rw [hmap, foldl_assign, List.filter_map]
  · rfl
  · rw [List.map_map]
    exact hwf.names

theorem find?_of_mem {α : Type*} {l : List (JSString × α)} (hnodup : (l.map Prod.fst).Nodup)
    {key : JSString} {value : α} (hmem : (key, value) ∈ l) :
    l.find? (fun f ↦ f.1 = key) = some (key, value) := by
  induction l with
  | nil => cases hmem
  | cons f l ih =>
    rw [List.map_cons, List.nodup_cons] at hnodup
    obtain rfl | hmem := List.mem_cons.mp hmem
    · exact List.find?_cons_of_pos (by simp)
    · have hne : f.1 ≠ key := fun h ↦ hnodup.1 (h ▸ List.mem_map_of_mem hmem)
      rw [List.find?_cons_of_neg (by simpa using hne), ih hnodup.2 hmem]

theorem not_infix_of_digits (hs : ∀ u ∈ s, isDigit u = true) : ¬[0x3A, 0x20] <:+: s := by
  intro hwithin
  have hcolon := hs 0x3A (hwithin.subset List.mem_cons_self)
  cases hcolon

/-- The length that `execute` finds. -/
theorem toNumber_received {d : Doubles} {m : Message} (hwf : m.WellFormed d) :
    d.toNumber (contentLengthOf m.received) = .finite (m.body.length : ℕ) := by
  obtain ⟨h, hmem, hname, hne, hdigits, hvalue⟩ := hwf.length
  have hfind : contentLengthOf m.received = some h.value := by
    have hcut := (cutField_eq_iff h.value).mpr (not_infix_of_digits hdigits)
    have hreceived : (h.name, some h.value) ∈ m.received := by
      refine List.mem_map.mpr ⟨h, List.mem_filter.mpr ⟨hmem, ?_⟩, by rw [hcut]⟩
      rw [hname]
      decide
    have hnodup : (m.received.map Prod.fst).Nodup := by
      rw [Message.received, List.map_map]
      exact hwf.names.sublist (List.filter_sublist.map Header.name)
    rw [hname] at hreceived
    rw [contentLengthOf, find?_of_mem hnodup hreceived]
    rfl
  have hfits : m.body.length ≤ 2 ^ 53 := by
    refine Nat.le_trans ?_ hwf.fits
    rw [Message.text, List.length_append]
    omega
  rw [hfind, d.toNumber_of_digits hdigits hne, hvalue, d.round_natCast _ hfits]

end SpiderNode.Debugger
