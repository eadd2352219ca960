import SpiderNode.Http.Framing
import SpiderNode.Http.Flow
import Mathlib.Data.List.Perm.Basic

/-!
# Merging headers

Headers can be set one by one before `writeHead` is called, and passed to it, as an object or as an
array of pairs. An object is assigned over the headers that were set. An array is searched for
names that were set, what was set under them is appended to it, and then it is rendered alone.

So the array form loses every header that it does not name, repeats those that it names, and leaves
its changes in the array of the caller. `writeHead_merges_iff` says when the two forms agree all the
same.
-/

namespace SpiderNode.Http

open Message

/-! ## Assigning a list of entries -/

section

variable {α β : Type} [DecidableEq α] {l : List (α × β)} {k : α} {v : β}

theorem map_assign_of_notMem (h : k ∉ l.map Prod.fst) : assign l k v = l ++ [(k, v)] := by
  rw [assign, if_neg]
  intro hk
  obtain ⟨e, he, rfl⟩ : ∃ e ∈ l, e.1 = k := by simpa using hk
  exact h (List.mem_map_of_mem he)

/-- The entry that has the key is replaced, or one is added. -/
theorem assign_perm (h : (l.map Prod.fst).Nodup) :
    (assign l k v).Perm (l.filter (·.1 ≠ k) ++ [(k, v)]) := by
  induction l with
  | nil => exact List.Perm.refl _
  | cons e l ih =>
    rw [List.map_cons, List.nodup_cons] at h
    rw [List.filter_cons]
    by_cases he : e.1 = k
    · -- No other entry has this key.
      have hrest : ∀ e' ∈ l, e'.1 ≠ k := fun e' he' hk ↦
        h.1 (he ▸ hk ▸ List.mem_map_of_mem he')
      have hmap : (l.map fun f ↦ if f.1 = k then (k, v) else f) = l := by
        rw [List.map_congr_left fun e' he' ↦ if_neg (hrest e' he'), List.map_id']
      rw [assign, if_pos (by simp [he]), List.map_cons, if_pos he, hmap, if_neg (by simp [he]),
        List.filter_eq_self.mpr fun e' he' ↦ by simpa using hrest e' he']
      exact (List.perm_append_singleton _ _).symm
    · have hassign : assign (e :: l) k v = e :: assign l k v := by
        simp only [assign, List.any_cons, decide_eq_false he, Bool.false_or, List.map_cons,
          if_neg he]
        split_ifs <;> rfl
      rw [hassign, if_pos (by simpa using he)]
      exact (ih h.2).cons e

theorem nodup_assign (h : (l.map Prod.fst).Nodup) : ((assign l k v).map Prod.fst).Nodup := by
  rw [((assign_perm h).map Prod.fst).nodup_iff, List.map_append, List.nodup_append]
  refine ⟨h.sublist (List.filter_sublist.map _), List.nodup_singleton _, ?_⟩
  rintro a ha b hb rfl
  obtain ⟨e, he, rfl⟩ := List.mem_map.mp ha
  have hne : e.1 ≠ k := by simpa using (List.mem_filter.mp he).2
  exact hne (by simpa using hb)

/-- **Entries with different keys** replace those that have their keys. -/
theorem foldl_assign_perm {fields : List (α × β)} (h : (fields.map Prod.fst).Nodup)
    (hl : (l.map Prod.fst).Nodup) :
    (fields.foldl (fun l f ↦ assign l f.1 f.2) l).Perm
      (l.filter (·.1 ∉ fields.map Prod.fst) ++ fields) := by
  induction fields generalizing l with
  | nil => simp
  | cons f fields ih =>
    rw [List.map_cons, List.nodup_cons] at h
    have hkeep : [(f.1, f.2)].filter (fun e ↦ decide (e.1 ∉ fields.map Prod.fst)) = [f] :=
      List.filter_cons_of_pos (by simpa using h.1)
    have hold : (l.filter (·.1 ≠ f.1)).filter (fun e ↦ decide (e.1 ∉ fields.map Prod.fst)) =
        l.filter (fun e ↦ decide (e.1 ∉ (f :: fields).map Prod.fst)) := by
      rw [List.filter_filter]
      refine List.filter_congr fun e _ ↦ ?_
      simp only [← Bool.decide_and, List.map_cons, List.mem_cons, not_or, ne_eq]
      exact decide_eq_decide.mpr and_comm
    have hstep := (assign_perm (k := f.1) (v := f.2) hl).filter
      fun e ↦ decide (e.1 ∉ fields.map Prod.fst)
    rw [List.filter_append, hkeep, hold] at hstep
    refine (ih h.2 (nodup_assign hl)).trans ((hstep.append_right fields).trans ?_)
    rw [List.append_assoc, List.singleton_append]

end

/-! ## Headers that are set one by one -/

/-- A call that changes the headers of a message. -/
inductive HeaderChange where
  | set (name : JSString) (value : HeaderValue)
  | remove (name : JSString)
  deriving DecidableEq

variable (lower : JSString → JSString)

def HeaderChange.run : HeaderChange → Op Unit
  | set name value => setHeader lower name value
  | remove name => removeHeader lower name

/-- The message after a list of calls. -/
def prepared (calls : List HeaderChange) (m : Message) : Message :=
  calls.foldl (fun m call ↦ after (call.run lower m)) m

theorem HeaderChange.run_ok (call : HeaderChange) {m : Message} (h : m.header = none) :
    ∃ m', call.run lower m = .ok ⟨⟩ m' ∧ m'.header = none := by
  cases call with
  | set name value => simp [HeaderChange.run, setHeader, h]
  | remove name => simp [HeaderChange.run, removeHeader, h]

/-- None of the calls throws while there is no header block. -/
theorem header_prepared (calls : List HeaderChange) {m : Message} (h : m.header = none) :
    (prepared lower calls m).header = none := by
  induction calls generalizing m with
  | nil => exact h
  | cons call calls ih =>
    obtain ⟨m', hrun, hm'⟩ := call.run_ok lower h
    rw [prepared, List.foldl_cons, hrun]
    exact ih hm'

/-! ## Lines -/

variable (inherited : JSString → Option JSString) (m : Message)

/-- The lines that the loop of `_storeHeader` renders for `writeHead(statusCode, obj)`. -/
def headLines (obj : HeaderSet) : List (JSString × JSString) :=
  headerLines (headFields inherited m (some obj))

/-- All lines of the header block. -/
def blockLines (statusCode : ℕ) (obj : HeaderSet) : List (JSString × JSString) :=
  (m.withStatus statusCode).fields (headLines inherited m obj)

/-- What the array of the caller is after the call: the lines are rendered from it. -/
def callersArray (pairs : List (JSString × HeaderValue)) : List (JSString × HeaderValue) :=
  headFields inherited m (some (.array pairs))

/-- The headers that were set and are not among the pairs. -/
def kept (pairs : List (JSString × HeaderValue)) : List (JSString × HeaderValue) :=
  m.rendered.filter (·.1 ∉ pairs.map Prod.fst)

variable {m}

/-- The header block of `writeHead`. -/
theorem writeHead_block (h : m.header = none) (statusCode : ℕ) (reasonPhrase : Option JSString)
    (obj : HeaderSet) :
    ∃ m', writeHead inherited statusCode reasonPhrase (some obj) m = .ok ⟨⟩ m' ∧
      m'.header = some ⟨statusLine statusCode reasonPhrase ++
        (blockLines inherited m statusCode obj).flatMap fun l ↦ headerLine l.1 l.2⟩ := by
  obtain ⟨m', hm, hf, -⟩ := storeHeader_ok (statusLine statusCode reasonPhrase)
    (headLines inherited m obj) (m.withStatus statusCode)
  refine ⟨m', by rw [writeHead_apply h, ← headLines, hm], ?_⟩
  rw [hf.eq]
  show some (HeaderBlock.mk ((m.withStatus statusCode).draft _ _).messageHeader) = _
  rw [draft_eq]
  rfl

/-- The lines that are added depend on which lines there are, not on their order. -/
theorem fields_perm {lines lines' : List (JSString × JSString)} (h : lines.Perm lines') :
    (m.fields lines).Perm (m.fields lines') := by
  have hany : ∀ p : JSString × JSString → Bool, lines.any p = lines'.any p := fun p ↦ h.any_eq
  have hcon : m.connectionField lines = m.connectionField lines' := by
    rw [connectionField, connectionField, keeps, keeps, hany, hany]
  have hte : m.transferEncodingField lines = m.transferEncodingField lines' := by
    rw [transferEncodingField, transferEncodingField, framed, framed, hany, hany]
  rw [fields, fields, hcon, hte]
  exact (h.append_right _).append_right _

variable (m)

/-- **Both forms merge the headers.** Each renders the headers that were set and are not among the
pairs, and the pairs, in some order. -/
structure Merges (statusCode : ℕ) (pairs : List (JSString × HeaderValue)) : Prop where
  array : (headLines inherited m (.array pairs)).Perm (headerLines (kept m pairs ++ pairs))
  object : (headLines inherited m (.object pairs)).Perm (headerLines (kept m pairs ++ pairs))
  block : (blockLines inherited m statusCode (.array pairs)).Perm
    (blockLines inherited m statusCode (.object pairs))
  untouched : callersArray inherited m pairs = pairs

/-- No header was ever set; or those that were set have no line, none of the pairs has a name that
was set or that every object has, and one that an object cannot pass on has no line either. -/
def Unmerged (pairs : List (JSString × HeaderValue)) : Prop :=
  m.headers = none ∨
    (∀ h ∈ m.rendered, h.2.values = []) ∧
      ∀ f ∈ pairs, f.1 ∉ m.rendered.map Prod.fst ∧ inherited f.1 = none ∧
        (f.1 = [] ∨ f.1 = js "__proto__" → f.2.values = [])

/-! ## The two loops -/

variable {m inherited} {pairs : List (JSString × HeaderValue)}

theorem headerLines_append (fs fs' : List (JSString × HeaderValue)) :
    headerLines (fs ++ fs') = headerLines fs ++ headerLines fs' := List.flatMap_append

theorem headerLines_perm {fs fs' : List (JSString × HeaderValue)} (h : fs.Perm fs') :
    (headerLines fs).Perm (headerLines fs') := h.flatMap_right _

theorem headerLines_eq_nil_iff {fs : List (JSString × HeaderValue)} :
    headerLines fs = [] ↔ ∀ f ∈ fs, f.2.values = [] := by
  simp [headerLines]

/-- What is appended to an array of pairs. -/
def appended (inherited : JSString → Option JSString) (m : Message)
    (pairs : List (JSString × HeaderValue)) : List (JSString × HeaderValue) :=
  pairs.filterMap fun f ↦
    match m.rendered.find? (·.1 = f.1) with
    | some h => some (f.1, h.2)
    | none => (inherited f.1).map fun v ↦ (f.1, .one v)

theorem appended_eq_nil_iff :
    appended inherited m pairs = [] ↔
      ∀ f ∈ pairs, f.1 ∉ m.rendered.map Prod.fst ∧ inherited f.1 = none := by
  rw [appended, List.filterMap_eq_nil_iff]
  refine forall₂_congr fun f _ ↦ ?_
  rcases hfind : m.rendered.find? (·.1 = f.1) with _ | h
  · have hnot : f.1 ∉ m.rendered.map Prod.fst := by
      rintro hmem
      obtain ⟨e, he, hef⟩ := List.mem_map.mp hmem
      exact List.find?_eq_none.mp hfind e he (by simpa using hef)
    simp [hfind, hnot]
  · have hmem : f.1 ∈ m.rendered.map Prod.fst := by
      have hh : h.1 = f.1 := by simpa using List.find?_some hfind
      exact hh ▸ List.mem_map_of_mem (List.mem_of_find?_eq_some hfind)
    simp [hfind, hmem]

/-- The pairs that an object cannot pass on. -/
def Skipped (f : JSString × HeaderValue) : Prop := f.1 = [] ∨ f.1 = js "__proto__"

instance : DecidablePred Skipped := fun _ ↦ inferInstanceAs (Decidable (_ ∨ _))

theorem nodup_rendered (m : Message) : (m.rendered.map Prod.fst).Nodup := by
  have hfold : ∀ (hs : List (JSString × JSString × HeaderValue))
      (l : List (JSString × HeaderValue)), (l.map Prod.fst).Nodup →
        ((hs.foldl (fun hs h ↦ assign hs h.2.1 h.2.2) l).map Prod.fst).Nodup := by
    intro hs
    induction hs with
    | nil => exact fun l hl ↦ hl
    | cons h hs ih => exact fun l hl ↦ ih _ (nodup_assign hl)
  exact hfold _ _ List.nodup_nil

/-- The object branch. -/
theorem object_perm (hpairs : (pairs.map Prod.fst).Nodup) :
    (mergeHeaders inherited m.rendered (.object pairs)).Perm
      (m.rendered.filter (·.1 ∉ (pairs.filter (¬Skipped ·)).map Prod.fst) ++
        pairs.filter (¬Skipped ·)) := by
  have hfold : mergeHeaders inherited m.rendered (.object pairs) =
      (pairs.filter (¬Skipped ·)).foldl (fun hs f ↦ assign hs f.1 f.2) m.rendered := by
    rw [mergeHeaders, List.foldl_filter]
    congr 1
    funext hs f
    show (if Skipped f then hs else assign hs f.1 f.2) = _
    by_cases hf : Skipped f
    · rw [if_pos hf, if_neg (by simpa using hf)]
    · rw [if_neg hf, if_pos (by simpa using hf)]
  have hnodup : ((pairs.filter (¬Skipped ·)).map Prod.fst).Nodup :=
    hpairs.sublist (List.filter_sublist.map _)
  have hperm := foldl_assign_perm hnodup (nodup_rendered m)
  rw [hfold]
  convert hperm

theorem headFields_of_none (h : m.headers = none) (obj : HeaderSet) :
    headFields inherited m (some obj) = obj.fields := by
  simp only [headFields, h]

theorem headFields_of_some {hs : List (JSString × JSString × HeaderValue)} (h : m.headers = some hs)
    (obj : HeaderSet) :
    headFields inherited m (some obj) = mergeHeaders inherited m.rendered obj := by
  simp only [headFields, h]

/-! ## When the two forms agree -/

theorem merges_of_none (h : m.headers = none) (statusCode : ℕ) :
    Merges inherited m statusCode pairs := by
  have hkept : kept m pairs = [] := by rw [kept, rendered, h]; rfl
  have hfields : ∀ obj, headLines inherited m obj = headerLines obj.fields := fun obj ↦ by
    rw [headLines, headFields_of_none h]
  refine ⟨?_, ?_, ?_, headFields_of_none h _⟩
  · rw [hfields, hkept]
    exact .refl _
  · rw [hfields, hkept]
    exact .refl _
  · rw [blockLines, blockLines, hfields, hfields]
    exact .refl _

theorem merges_iff_of_some {hs : List (JSString × JSString × HeaderValue)}
    (h : m.headers = some hs) (hpairs : (pairs.map Prod.fst).Nodup) (statusCode : ℕ) :
    Merges inherited m statusCode pairs ↔
      (∀ h ∈ m.rendered, h.2.values = []) ∧
        ∀ f ∈ pairs, f.1 ∉ m.rendered.map Prod.fst ∧ inherited f.1 = none ∧
          (f.1 = [] ∨ f.1 = js "__proto__" → f.2.values = []) := by
  have harray : headFields inherited m (some (.array pairs)) =
      pairs ++ appended inherited m pairs := by
    rw [headFields_of_some h]
    rfl
  have hobject := headerLines_perm (@object_perm inherited m pairs hpairs)
  rw [← headFields_of_some h, ← headLines, headerLines_append] at hobject
  have hsplit := headerLines_perm (List.filter_append_perm (fun f ↦ decide ¬Skipped f) pairs)
  rw [headerLines_append] at hsplit
  -- Nothing is kept that has a line, whatever the pairs are.
  have hsilent : ∀ names : List JSString, (∀ h ∈ m.rendered, h.2.values = []) →
      headerLines (m.rendered.filter (·.1 ∉ names)) = [] := fun names hr ↦
    headerLines_eq_nil_iff.mpr fun f hf ↦ hr f (List.mem_filter.mp hf).1
  constructor
  · rintro ⟨ha, ho, -, hu⟩
    have happ : appended inherited m pairs = [] := by
      rw [callersArray, harray] at hu
      simpa using hu
    have hnames := appended_eq_nil_iff.mp happ
    have hkept : kept m pairs = m.rendered := by
      refine List.filter_eq_self.mpr fun e he ↦ ?_
      simp only [decide_eq_true_eq]
      intro hmem
      obtain ⟨f, hf, hfe⟩ := List.mem_map.mp hmem
      exact (hnames f hf).1 (hfe ▸ List.mem_map_of_mem he)
    have hr : ∀ h ∈ m.rendered, h.2.values = [] := by
      rw [headLines, harray, happ, List.append_nil, hkept, headerLines_append] at ha
      have hlen := ha.length_eq
      rw [List.length_append] at hlen
      exact headerLines_eq_nil_iff.mp (List.eq_nil_of_length_eq_zero (by omega))
    refine ⟨hr, fun f hf ↦ ⟨(hnames f hf).1, (hnames f hf).2, fun hs ↦ ?_⟩⟩
    -- The lines of the pairs that are skipped are missing.
    have hlen := ho.length_eq
    rw [headerLines_append, hkept, headerLines_eq_nil_iff.mpr hr, List.nil_append,
      hobject.length_eq, hsilent _ hr, List.nil_append, ← hsplit.length_eq,
      List.length_append] at hlen
    have hskip := List.eq_nil_of_length_eq_zero (Nat.left_eq_add.mp hlen)
    have hs : Skipped f := hs
    exact headerLines_eq_nil_iff.mp hskip f (List.mem_filter.mpr ⟨hf, by simpa using hs⟩)
  · rintro ⟨hr, hnames⟩
    have happ : appended inherited m pairs = [] :=
      appended_eq_nil_iff.mpr fun f hf ↦ ⟨(hnames f hf).1, (hnames f hf).2.1⟩
    rw [happ, List.append_nil] at harray
    have hkept : headerLines (kept m pairs ++ pairs) = headerLines pairs := by
      rw [headerLines_append, kept, hsilent _ hr, List.nil_append]
    have hskip : headerLines (pairs.filter fun f ↦ !decide ¬Skipped f) = [] := by
      refine headerLines_eq_nil_iff.mpr fun f hf ↦ ?_
      obtain ⟨hf, hs⟩ := List.mem_filter.mp hf
      have hs : Skipped f := by simpa using hs
      exact (hnames f hf).2.2 hs
    rw [hskip, List.append_nil] at hsplit
    rw [hsilent _ hr, List.nil_append] at hobject
    have ha : (headLines inherited m (.array pairs)).Perm
        (headerLines (kept m pairs ++ pairs)) := by
      rw [headLines, harray, hkept]
    have ho : (headLines inherited m (.object pairs)).Perm
        (headerLines (kept m pairs ++ pairs)) := by
      rw [hkept]
      exact hobject.trans hsplit
    exact ⟨ha, ho, fields_perm (ha.trans ho.symm), harray⟩

/-- **`writeHead` merges arrays and objects in the same way** exactly if nothing is there to be
merged, or nothing of it can be seen. -/
theorem writeHead_merges_iff (inherited : JSString → Option JSString)
    (lower : JSString → JSString) (isHead : Bool) (major minor : ℕ) (calls : List HeaderChange)
    (statusCode : ℕ) {pairs : List (JSString × HeaderValue)}
    (hpairs : (pairs.map Prod.fst).Nodup) :
    Merges inherited (prepared lower calls (serverResponse isHead major minor)) statusCode pairs ↔
      Unmerged inherited (prepared lower calls (serverResponse isHead major minor)) pairs := by
  rw [Unmerged]
  rcases h : (prepared lower calls (serverResponse isHead major minor)).headers with _ | hs
  · simpa using merges_of_none h statusCode
  · simpa using merges_iff_of_some h hpairs statusCode

/-- A response on which nothing was set. -/
theorem writeHead_merges_plain :
    Merges (fun _ ↦ none) (prepared id [] (serverResponse false 1 1)) 200
      [(js "a", .one (js "1")), (js "b", .many [js "2", js "3"])] :=
  (writeHead_merges_iff (fun _ ↦ none) id false 1 1 [] 200 (by decide)).mpr (.inl rfl)

/-- A header that was set is lost when an array is passed. -/
theorem array_loses_header :
    ¬Merges (fun _ ↦ none)
      (prepared id [.set (js "x-a") (.one (js "1"))] (serverResponse false 1 1)) 200
      [(js "b", .one (js "2"))] := fun h ↦ by
  have hlen := h.array.length_eq
  revert hlen
  decide

end SpiderNode.Http
