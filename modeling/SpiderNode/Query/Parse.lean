import SpiderNode.Http.Merging
import SpiderNode.Query.Escape
import SpiderNode.Text.Numerals

/-!
# Query strings

`stringify` writes an object as pairs of escaped texts, and `parse` collects pairs into an object:
the first value of a key is stored, the second one makes an array of both, and further ones are
added to the array. Whether a key has a value is asked with `in`, so the values that an object
inherits count as first ones, and an assignment to `__proto__` makes no key but changes what is
inherited.

`undone_iff` says when `parse` gives back what `stringify` was given.
-/

namespace SpiderNode.Query

open Net (JsError)
open Http (assign)

/-! ## Values -/

/-- What is stored under a key. -/
inductive Value (α : Type) where
  | one (v : α)
  | many (vs : List α)
  deriving DecidableEq, Repr

def Value.map {α β : Type} (f : α → β) : Value α → Value β
  | .one v => .one (f v)
  | .many vs => .many (vs.map f)

def Value.toList {α : Type} : Value α → List α
  | .one v => [v]
  | .many vs => vs

/-- A value that is no array. A number comes as its text, unless it is not finite; what an object
inherits, as the name under which it is found. -/
inductive Scalar where
  | string (s : JSString)
  | boolean (b : Bool)
  | number (text : Option JSString)
  | inherited (name : JSString)
  deriving DecidableEq, Repr

/-! ## `stringify` -/

def stringifyPrimitive : Scalar → JSString
  | .string s => s
  | .boolean b => if b then js "true" else js "false"
  | .number text => text.getD []
  | .inherited _ => []

/-- What `stringify` is given. -/
inductive Source where
  /-- An object, with its keys in their order. -/
  | object (entries : List (JSString × Value Scalar))
  | primitive (v : Scalar)
  deriving DecidableEq, Repr

/-- `given || fallback` -/
def orElse (given fallback : JSString) : JSString := if given = [] then fallback else given

/-- A key and one of its values. -/
def stringifyPair (eq k : JSString) (v : Scalar) : Except JsError JSString := do
  let key ← escape k
  let value ← escape (stringifyPrimitive v)
  return key ++ eq ++ value

/-- `QueryString.stringify`; an empty argument counts as not given. -/
def stringify (obj : Source) (sep eq name : JSString) : Except JsError JSString :=
  let sep := orElse sep (js "&")
  let eq := orElse eq (js "=")
  match obj with
  | .object entries => do
    let parts ← entries.mapM fun e ↦ do
      let pairs ← e.2.toList.mapM (stringifyPair eq e.1)
      return sep.intercalate pairs
    return sep.intercalate parts
  | .primitive v => if name = [] then .ok [] else stringifyPair eq name v

/-! ## `parse` -/

/-- `String.prototype.split`, where `skip` more units belong to a separator. -/
def splitFrom (sep : JSString) : ℕ → JSString → List JSString
  | _, [] => [[]]
  | skip + 1, _ :: rest => splitFrom sep skip rest
  | 0, u :: rest =>
    if sep.isPrefixOf (u :: rest) then [] :: splitFrom sep (sep.length - 1) rest
    else (splitFrom sep 0 rest).modifyHead (u :: ·)

def split (sep s : JSString) : List JSString := splitFrom sep 0 s

/-- What an array has besides its elements and what every object has. -/
def arrayPrototype : List JSString :=
  [js "join", js "reverse", js "sort", js "push", js "pop", js "shift", js "unshift", js "splice",
    js "concat", js "slice", js "indexOf", js "lastIndexOf", js "forEach", js "map", js "reduce",
    js "reduceRight", js "filter", js "some", js "every"]

/-- An object that began as `{}`. -/
structure Parsed where
  own : List (JSString × Value Scalar)
  /-- The array that was assigned to `__proto__`. -/
  proto : Option (List Scalar)
  deriving DecidableEq, Repr

namespace Parsed

/-- What an object has under a name by its array of a prototype. -/
def element (items : List Scalar) (k : JSString) : Option (Value Scalar) :=
  if k = js "__proto__" then some (.many items)
  else if k = js "length" then some (.one (.number (some (decimal items.length))))
  else if k ∈ arrayPrototype then some (.one (.inherited k))
  else (items.zipIdx.find? (decimal ·.2 = k)).map fun e ↦ .one e.1

/-- `obj[k]`, if `k in obj`. -/
def get (obj : Parsed) (k : JSString) : Option (Value Scalar) :=
  ((obj.own.find? (·.1 = k)).map Prod.snd).or <|
    (obj.proto.bind (element · k)).or <|
      if k ∈ objectPrototype then some (.one (.inherited k)) else none

/-- `obj[k] = v` -/
def set (obj : Parsed) (k : JSString) (v : Value Scalar) : Parsed :=
  if k = js "__proto__" then
    match v with
    | .one _ => obj
    | .many items => { obj with proto := some items }
  else { obj with own := assign obj.own k v }

/-- One more value for a key. -/
def add (obj : Parsed) (k : JSString) (v : Scalar) : Parsed :=
  match obj.get k with
  | none => obj.set k (.one v)
  | some (.one w) => obj.set k (.many [w, v])
  | some (.many ws) => obj.set k (.many (ws ++ [v]))

/-- The pair `kvp` of a query string. -/
def addPair (eq : JSString) (obj : Parsed) (kvp : JSString) : Except JsError Parsed := do
  let x := split eq kvp
  let k ← unescape (x.headD []) true
  let v ← unescape (eq.intercalate (x.drop 1)) true
  return obj.add k (.string v)

end Parsed

/-- `QueryString.parse` of a string; an empty separator counts as not given. -/
def parse (qs sep eq : JSString) : Except JsError Parsed :=
  let sep := orElse sep (js "&")
  let eq := orElse eq (js "=")
  if qs = [] then .ok ⟨[], none⟩
  else (split sep qs).foldlM (Parsed.addPair eq) ⟨[], none⟩

/-! ## What can be written -/

/-- A map from strings to strings and arrays of at least two of them. -/
structure Fields where
  entries : List (JSString × Value JSString)
  nodup : (entries.map Prod.fst).Nodup
  key_wellFormed : ∀ e ∈ entries, WellFormed e.1 = true
  value_wellFormed : ∀ e ∈ entries, ∀ v ∈ e.2.toList, WellFormed v = true
  several : ∀ e ∈ entries, ∀ vs, e.2 = .many vs → 2 ≤ vs.length

/-- The pairs of a key and one of its values. -/
def pairsOf {α : Type} (entries : List (JSString × Value α)) : List (JSString × α) :=
  entries.flatMap fun e ↦ e.2.toList.map (e.1, ·)

namespace Fields

/-- The map as an object. -/
def object (o : Fields) : List (JSString × Value Scalar) :=
  o.entries.map fun e ↦ (e.1, e.2.map .string)

/-- `parse` gives back the keys and the values of what was written. -/
def Undone (o : Fields) : Prop :=
  ∃ text obj, stringify (.object o.object) [] [] [] = .ok text ∧
    parse text [] [] = .ok obj ∧ obj.own.Perm o.object

end Fields

/-- What is stored under a key after one more value. -/
def Value.push {α : Type} (v : α) : Value α → Value α
  | .one w => .many [w, v]
  | .many ws => .many (ws ++ [v])

/-- The text of a pair. -/
def pairText (p : JSString × JSString) : JSString :=
  [0x3D].intercalate [escapeText (utf8Bytes p.1), escapeText (utf8Bytes p.2)]

variable {o : Fields} {own : List (JSString × Value Scalar)} {k : JSString} {v : Scalar}
  {w : Value Scalar} {obj : Parsed} {p : JSString × JSString} {pairs : List (JSString × JSString)}

/-! ## The text -/

theorem mapM_eq_ok {α β : Type} {f : α → Except JsError β} {g : α → β} {l : List α}
    (h : ∀ a ∈ l, f a = .ok (g a)) : l.mapM f = .ok (l.map g) := by
  induction l with
  | nil => rfl
  | cons a l ih =>
    rw [List.mapM_cons, h a List.mem_cons_self, ih fun b hb ↦ h b (List.mem_cons_of_mem _ hb)]
    rfl

theorem intercalate_append {sep : JSString} {l m : List JSString} (hl : l ≠ []) (hm : m ≠ []) :
    sep.intercalate (l ++ m) = sep.intercalate l ++ sep ++ sep.intercalate m := by
  induction l with
  | nil => exact absurd rfl hl
  | cons a l ih =>
    rcases l with _ | ⟨b, l⟩
    · rw [List.singleton_append, List.intercalate_cons_of_ne_nil hm, List.intercalate_singleton]
    · have h := ih (List.cons_ne_nil b l)
      rw [List.cons_append, List.cons_append, List.intercalate_cons_cons, ← List.cons_append, h,
        List.intercalate_cons_cons]
      simp only [List.append_assoc]

/-- Joining what was joined already. -/
theorem intercalate_flatten {sep : JSString} {ls : List (List JSString)} (h : ∀ l ∈ ls, l ≠ []) :
    sep.intercalate (ls.map sep.intercalate) = sep.intercalate ls.flatten := by
  induction ls with
  | nil => rfl
  | cons l ls ih =>
    have ih' := ih fun m hm ↦ h m (List.mem_cons_of_mem _ hm)
    rcases ls with _ | ⟨m, ls⟩
    · rw [List.map_singleton, List.intercalate_singleton, List.flatten_singleton]
    · have hne : (m :: ls).flatten ≠ [] := fun hnil ↦
        h m (by simp) (List.flatten_eq_nil_iff.mp hnil m List.mem_cons_self)
      have hcons : (l :: m :: ls).flatten = l ++ (m :: ls).flatten := List.flatten_cons
      rw [List.map_cons, List.intercalate_cons_of_ne_nil (by simp), ih', hcons,
        intercalate_append (h l List.mem_cons_self) hne]

theorem stringifyPair_eq (hk : WellFormed p.1 = true) (hv : WellFormed p.2 = true) :
    stringifyPair [0x3D] p.1 (.string p.2) = .ok (pairText p) := by
  rw [stringifyPair, escape, encodeURIComponent_eq hk, escape]
  show (do
    let value ← encodeURIComponent p.2
    return escapeText (utf8Bytes p.1) ++ [0x3D] ++ value) = _
  rw [encodeURIComponent_eq hv, pairText, List.intercalate_cons_cons, List.intercalate_singleton]
  rfl

theorem toList_map {α β : Type} (f : α → β) (x : Value α) : (x.map f).toList = x.toList.map f := by
  cases x <;> rfl

theorem Fields.toList_ne_nil {e : JSString × Value JSString} (he : e ∈ o.entries) :
    e.2.toList ≠ [] := by
  rcases hx : e.2 with v | vs
  · exact List.cons_ne_nil _ _
  · rintro (rfl : vs = [])
    simpa using o.several e he _ hx

/-- An object is written as the pairs of its keys and values. -/
theorem stringify_object (o : Fields) :
    stringify (.object o.object) [] [] [] =
      .ok ([0x26].intercalate ((pairsOf o.entries).map pairText)) := by
  have hentry : ∀ e ∈ o.entries, ((e.2.map Scalar.string).toList.mapM (stringifyPair [0x3D] e.1)) =
      .ok ((e.2.toList.map (e.1, ·)).map pairText) := by
    intro e he
    rw [toList_map, List.map_map]
    rw [List.mapM_map]
    exact mapM_eq_ok fun v hv ↦
      stringifyPair_eq (p := (e.1, v)) (o.key_wellFormed e he) (o.value_wellFormed e he v hv)
  have hparts : o.object.mapM (fun (e : JSString × Value Scalar) ↦ do
      let pairs ← e.2.toList.mapM (stringifyPair [0x3D] e.1)
      return List.intercalate [0x26] pairs) =
        Except.ok (ε := JsError) (o.entries.map fun e ↦
          [0x26].intercalate ((e.2.toList.map (e.1, ·)).map pairText)) := by
    rw [Fields.object, List.mapM_map]
    refine mapM_eq_ok fun e he ↦ ?_
    show (do
      let pairs ← (e.2.map Scalar.string).toList.mapM (stringifyPair [0x3D] e.1)
      return List.intercalate [0x26] pairs) = _
    rw [hentry e he]
    rfl
  have hflat : (pairsOf o.entries).map pairText =
      (o.entries.map fun e ↦ (e.2.toList.map (e.1, ·)).map pairText).flatten := by
    rw [pairsOf, List.map_flatMap, List.flatMap_def]
  rw [hflat, ← intercalate_flatten, List.map_map]
  · show (do
      let parts ← o.object.mapM (fun (e : JSString × Value Scalar) ↦ do
        let pairs ← e.2.toList.mapM (stringifyPair [0x3D] e.1)
        return List.intercalate [0x26] pairs)
      return List.intercalate [0x26] parts) = _
    rw [hparts]
    rfl
  · intro l hl
    obtain ⟨e, he, rfl⟩ := List.mem_map.mp hl
    simpa using Fields.toList_ne_nil he

/-! ## Its pairs -/

theorem split_eq_splitOn (c : UInt16) (s : JSString) : split [c] s = s.splitOn c := by
  rw [split]
  induction s with
  | nil => rw [splitFrom, List.splitOn_nil]
  | cons u s ih =>
    rw [splitFrom, List.splitOn_cons_eq_if_modifyHead, List.length_singleton, Nat.sub_self, ih]
    by_cases h : u = c
    · rw [if_pos (by simp [h]), if_pos (by simp [h])]
    · rw [if_neg (by simp [Ne.symm h]), if_neg (by simp [h])]

theorem not_mem_pairText : 0x26 ∉ pairText p := by
  rw [pairText, List.intercalate_cons_cons, List.intercalate_singleton]
  intro h
  rcases List.mem_append.mp h with h | h
  · rcases List.mem_append.mp h with h | h
    · exact (mem_escapeText h).1 rfl
    · revert h
      decide
  · exact (mem_escapeText h).1 rfl

theorem pairText_ne_nil : pairText p ≠ [] := by
  rw [pairText, List.intercalate_cons_cons]
  simp

theorem addPair_pairText (hk : WellFormed p.1 = true) (hv : WellFormed p.2 = true) :
    obj.addPair [0x3D] (pairText p) = .ok (obj.add p.1 (.string p.2)) := by
  have hsplit : split [0x3D] (pairText p) =
      [escapeText (utf8Bytes p.1), escapeText (utf8Bytes p.2)] := by
    rw [split_eq_splitOn, pairText, List.splitOn_intercalate _ ?_ (List.cons_ne_nil _ _)]
    intro l hl h
    rcases List.mem_pair.mp hl with rfl | rfl
    · exact (mem_escapeText h).2 rfl
    · exact (mem_escapeText h).2 rfl
  rw [Parsed.addPair, hsplit]
  show (do
    let k ← unescape (escapeText (utf8Bytes p.1)) true
    let v ← unescape ([0x3D].intercalate [escapeText (utf8Bytes p.2)]) true
    return obj.add k (.string v)) = _
  rw [List.intercalate_singleton, unescape_escapeText hk, unescape_escapeText hv]
  rfl

/-- The object after some pairs. -/
def addAll (obj : Parsed) (pairs : List (JSString × JSString)) : Parsed :=
  pairs.foldl (fun obj p ↦ obj.add p.1 (.string p.2)) obj

theorem foldlM_addPair (h : ∀ p ∈ pairs, WellFormed p.1 = true ∧ WellFormed p.2 = true) :
    (pairs.map pairText).foldlM (Parsed.addPair [0x3D]) obj = .ok (addAll obj pairs) := by
  induction pairs generalizing obj with
  | nil => rfl
  | cons p pairs ih =>
    have hp := h p List.mem_cons_self
    rw [List.map_cons, List.foldlM_cons, addPair_pairText hp.1 hp.2]
    exact ih fun p' hp' ↦ h p' (List.mem_cons_of_mem _ hp')

/-- `parse` adds the pairs that it is given one by one. -/
theorem parse_intercalate (h : ∀ p ∈ pairs, WellFormed p.1 = true ∧ WellFormed p.2 = true) :
    parse ([0x26].intercalate (pairs.map pairText)) [] [] = .ok (addAll ⟨[], none⟩ pairs) := by
  rcases hpairs : pairs with _ | ⟨q, rest⟩
  · rfl
  · have hsplit : split [0x26] ([0x26].intercalate (pairs.map pairText)) =
        pairs.map pairText := by
      rw [split_eq_splitOn, List.splitOn_intercalate _ ?_ (by simp [hpairs])]
      intro l hl
      obtain ⟨p, -, rfl⟩ := List.mem_map.mp hl
      exact not_mem_pairText
    have hne : [0x26].intercalate (pairs.map pairText) ≠ [] := by
      intro hnil
      rw [hnil, hpairs, List.map_cons] at hsplit
      exact pairText_ne_nil (List.cons.inj hsplit).1.symm
    rw [← hpairs]
    show (if [0x26].intercalate (pairs.map pairText) = [] then _ else
      (split [0x26] ([0x26].intercalate (pairs.map pairText))).foldlM (Parsed.addPair [0x3D])
        ⟨[], none⟩) = _
    rw [if_neg hne, hsplit, foldlM_addPair h]

/-! ## Keys of their own -/

theorem proto_mem : js "__proto__" ∈ objectPrototype := by decide

theorem set_of_ne (h : k ≠ js "__proto__") :
    obj.set k w = { obj with own := assign obj.own k w } := if_neg h

theorem own_set_proto : (obj.set (js "__proto__") w).own = obj.own := by
  cases w <;> rfl

/-- The first value of a key is stored as it is. -/
theorem add_first (hk : k ∉ objectPrototype) (h : k ∉ own.map Prod.fst) :
    Parsed.add ⟨own, none⟩ k v = ⟨own ++ [(k, .one v)], none⟩ := by
  have hfind : own.find? (·.1 = k) = none := by
    rw [List.find?_eq_none]
    intro e he hek
    exact h (List.mem_map.mpr ⟨e, he, by simpa using hek⟩)
  have hget : Parsed.get ⟨own, none⟩ k = none := by
    rw [Parsed.get, hfind, if_neg hk]
    rfl
  have hproto : k ≠ js "__proto__" := fun heq ↦ hk (heq ▸ proto_mem)
  rw [Parsed.add, hget]
  show Parsed.set ⟨own, none⟩ k (.one v) = _
  rw [set_of_ne hproto, Http.map_assign_of_notMem h]

theorem assign_concat (h : k ∉ own.map Prod.fst) (w' : Value Scalar) :
    assign (own ++ [(k, w)]) k w' = own ++ [(k, w')] := by
  have hown : own.map (fun e ↦ if e.1 = k then (k, w') else e) = own := by
    conv_rhs => rw [← List.map_id own]
    refine List.map_congr_left fun e he ↦ ?_
    rw [if_neg fun hek ↦ h (List.mem_map.mpr ⟨e, he, hek⟩)]
    rfl
  rw [assign, if_pos (by simp), List.map_append, hown, List.map_singleton, if_pos rfl]

/-- A further value is added to what the key has. -/
theorem add_again (hk : k ∉ objectPrototype) (h : k ∉ own.map Prod.fst) :
    Parsed.add ⟨own ++ [(k, w)], none⟩ k v = ⟨own ++ [(k, w.push v)], none⟩ := by
  have hfind : (own ++ [(k, w)]).find? (·.1 = k) = some (k, w) := by
    rw [List.find?_append, List.find?_eq_none.mpr ?_, List.find?_singleton]
    · simp
    · intro e he hek
      exact h (List.mem_map.mpr ⟨e, he, by simpa using hek⟩)
  have hget : Parsed.get ⟨own ++ [(k, w)], none⟩ k = some w := by
    rw [Parsed.get, hfind]
    rfl
  have hproto : k ≠ js "__proto__" := fun heq ↦ hk (heq ▸ proto_mem)
  have hset : ∀ w', Parsed.set ⟨own ++ [(k, w)], none⟩ k w' = ⟨own ++ [(k, w')], none⟩ := by
    intro w'
    rw [set_of_ne hproto, assign_concat h]
  rw [Parsed.add, hget]
  cases w with
  | one u => exact hset _
  | many us => exact hset _

theorem foldl_push_many {α : Type} (us vs : List α) :
    vs.foldl (fun w v ↦ Value.push v w) (.many us) = .many (us ++ vs) := by
  induction vs generalizing us with
  | nil => rw [List.append_nil, List.foldl_nil]
  | cons v vs ih =>
    rw [List.foldl_cons, Value.push, ih, List.append_assoc, List.singleton_append]

theorem addAll_again (hk : k ∉ objectPrototype) (h : k ∉ own.map Prod.fst) (vs : List JSString) :
    addAll ⟨own ++ [(k, w)], none⟩ (vs.map (k, ·)) =
      ⟨own ++ [(k, (vs.map Scalar.string).foldl (fun w v ↦ w.push v) w)], none⟩ := by
  induction vs generalizing w with
  | nil => rfl
  | cons v vs ih =>
    rw [addAll, List.map_cons, List.foldl_cons, add_again hk h]
    exact ih

/-- All values of a key make what they were before. -/
theorem addAll_entry {e : JSString × Value JSString} (he : e ∈ o.entries)
    (hk : e.1 ∉ objectPrototype) (h : e.1 ∉ own.map Prod.fst) :
    addAll ⟨own, none⟩ (e.2.toList.map (e.1, ·)) =
      ⟨own ++ [(e.1, e.2.map .string)], none⟩ := by
  rcases hx : e.2 with v | vs
  · exact add_first hk h
  · rcases vs with _ | ⟨u, _ | ⟨v, vs⟩⟩
    · simpa using o.several e he _ hx
    · simpa using o.several e he _ hx
    · show addAll (Parsed.add ⟨own, none⟩ e.1 (.string u)) ((v :: vs).map (e.1, ·)) = _
      rw [add_first hk h, addAll_again hk h, List.map_cons, List.foldl_cons]
      show Parsed.mk (own ++ [(e.1, (vs.map Scalar.string).foldl (fun w v ↦ w.push v)
        (.many [.string u, .string v]))]) none = _
      rw [foldl_push_many]
      rfl

theorem addAll_append (ps qs : List (JSString × JSString)) :
    addAll obj (ps ++ qs) = addAll (addAll obj ps) qs := List.foldl_append

theorem addAll_entries {entries : List (JSString × Value JSString)}
    (hmem : ∀ e ∈ entries, e ∈ o.entries) (hk : ∀ e ∈ entries, e.1 ∉ objectPrototype)
    (hnodup : (own.map Prod.fst ++ entries.map Prod.fst).Nodup) :
    addAll ⟨own, none⟩ (pairsOf entries) =
      ⟨own ++ entries.map fun e ↦ (e.1, e.2.map .string), none⟩ := by
  induction entries generalizing own with
  | nil => exact congrArg (Parsed.mk · none) (List.append_nil own).symm
  | cons e entries ih =>
    have hown : e.1 ∉ own.map Prod.fst := by
      rw [List.map_cons, List.nodup_append] at hnodup
      exact fun h ↦ hnodup.2.2 _ h _ List.mem_cons_self rfl
    rw [pairsOf, List.flatMap_cons, ← pairsOf, addAll_append,
      addAll_entry (hmem e List.mem_cons_self) (hk e List.mem_cons_self) hown,
      ih (fun e' he' ↦ hmem e' (List.mem_cons_of_mem _ he'))
        (fun e' he' ↦ hk e' (List.mem_cons_of_mem _ he')) (by simpa using hnodup)]
    simp

/-! ## Inherited keys -/

/-- An inherited name has nothing but arrays that begin with what was inherited. -/
def Marked (obj : Parsed) : Prop :=
  ∀ e ∈ obj.own, e.1 ∈ objectPrototype → ∃ name vs, e.2 = .many (.inherited name :: vs)

theorem of_mem_assign {e : JSString × Value Scalar} (h : e ∈ assign own k w) :
    e ∈ own ∨ e = (k, w) := by
  rw [assign] at h
  split_ifs at h
  · obtain ⟨e', he', rfl⟩ := List.mem_map.mp h
    split_ifs
    · exact .inr rfl
    · exact .inl he'
  · simpa using h

theorem element_of_inherited (items : List Scalar) (hk : k ∈ objectPrototype)
    (hproto : k ≠ js "__proto__") : Parsed.element items k = none := by
  have hdisjoint : ∀ k ∈ objectPrototype, k ≠ js "length" ∧ k ∉ arrayPrototype ∧
      ∃ u ∈ k, isDigit u = false := by
    decide
  obtain ⟨hlength, harray, u, hu, hdigit⟩ := hdisjoint k hk
  rw [Parsed.element, if_neg hproto, if_neg hlength, if_neg harray, List.find?_eq_none.mpr ?_]
  · rfl
  · intro e _ hek
    rw [← of_decide_eq_true hek] at hu
    rw [isDigit_of_mem_decimal hu] at hdigit
    cases hdigit

theorem Marked.set (h : Marked obj) (hw : k ∈ objectPrototype → k ≠ js "__proto__" →
    ∃ name vs, w = .many (.inherited name :: vs)) : Marked (obj.set k w) := by
  intro e he hek
  by_cases hproto : k = js "__proto__"
  · rw [hproto, own_set_proto] at he
    exact h e he hek
  · rw [set_of_ne hproto] at he
    rcases of_mem_assign he with hmem | rfl
    · exact h e hmem hek
    · exact hw hek hproto

/-- Under an inherited name there is what is inherited, or an array that begins with that. -/
theorem Marked.get (h : Marked obj) (hk : k ∈ objectPrototype) (hproto : k ≠ js "__proto__") :
    obj.get k = some (.one (.inherited k)) ∨
      ∃ name vs, obj.get k = some (.many (.inherited name :: vs)) := by
  rw [Parsed.get]
  rcases hfind : obj.own.find? (·.1 = k) with _ | e
  · left
    have helement : (obj.proto.bind fun items ↦ Parsed.element items k) = none := by
      rcases obj.proto with _ | items
      · rfl
      · exact element_of_inherited items hk hproto
    rw [hfind, helement, if_pos hk]
    rfl
  · right
    have hek := List.find?_some hfind
    rw [decide_eq_true_eq] at hek
    obtain ⟨name, vs, he⟩ := h e (List.mem_of_find?_eq_some hfind) (hek ▸ hk)
    refine ⟨name, vs, ?_⟩
    rw [hfind, ← he]
    rfl

theorem Marked.add (h : Marked obj) : Marked (obj.add k v) := by
  rw [Parsed.add]
  rcases hget : obj.get k with _ | w | ws
  · refine h.set fun hk hproto ↦ ?_
    rcases h.get hk hproto with hk' | ⟨name, vs, hk'⟩
    all_goals
      rw [hk'] at hget
      cases hget
  · refine h.set fun hk hproto ↦ ?_
    rcases h.get hk hproto with hk' | ⟨name, vs, hk'⟩
    · rw [hk'] at hget
      cases hget
      exact ⟨_, _, rfl⟩
    · rw [hk'] at hget
      cases hget
  · refine h.set fun hk hproto ↦ ?_
    rcases h.get hk hproto with hk' | ⟨name, vs, hk'⟩
    · rw [hk'] at hget
      cases hget
    · rw [hk'] at hget
      cases hget
      exact ⟨_, _, rfl⟩

theorem Marked.addAll (h : Marked obj) : Marked (addAll obj pairs) := by
  induction pairs generalizing obj with
  | nil => exact h
  | cons p pairs ih => exact ih h.add

/-! ## Writing and reading -/

theorem parse_stringify (o : Fields) :
    ∃ text, stringify (.object o.object) [] [] [] = .ok text ∧
      parse text [] [] = .ok (addAll ⟨[], none⟩ (pairsOf o.entries)) := by
  refine ⟨_, stringify_object o, parse_intercalate fun p hp ↦ ?_⟩
  obtain ⟨e, he, hp⟩ := List.mem_flatMap.mp hp
  obtain ⟨v, hv, rfl⟩ := List.mem_map.mp hp
  exact ⟨o.key_wellFormed e he, o.value_wellFormed e he v hv⟩

/-- **Parsing gives back the map that was written** exactly if no key is the name of a property that
every object inherits. -/
theorem undone_iff (o : Fields) : o.Undone ↔ ∀ e ∈ o.entries, e.1 ∉ objectPrototype := by
  obtain ⟨text, htext, hparse⟩ := parse_stringify o
  constructor
  · rintro ⟨text', obj, htext', hobj, hperm⟩ e he hk
    obtain rfl : text = text' := Except.ok.inj (htext.symm.trans htext')
    obtain rfl := Except.ok.inj (hparse.symm.trans hobj)
    have hmarked : Marked (addAll ⟨[], none⟩ (pairsOf o.entries)) :=
      Marked.addAll fun e he ↦ absurd he List.not_mem_nil
    have hmem : (e.1, e.2.map Scalar.string) ∈ o.object := List.mem_map.mpr ⟨e, he, rfl⟩
    obtain ⟨name, vs, hvalue⟩ := hmarked _ (hperm.mem_iff.mpr hmem) hk
    rcases hx : e.2 with v | _ | ⟨v, us⟩
    all_goals
      rw [hx] at hvalue
      cases hvalue
  · intro hk
    refine ⟨text, _, htext, hparse, ?_⟩
    rw [addAll_entries (fun e he ↦ he) hk (by simpa using o.nodup)]
    exact .refl _

/-- The first value of `toString` is not the first one. -/
theorem toString_not_undone :
    ¬Fields.Undone ⟨[(js "toString", .one (js "x"))], by decide, by decide, by decide,
      by simp⟩ := by
  rintro ⟨text, obj, htext, hobj, hperm⟩
  obtain ⟨text', htext', hparse⟩ := parse_stringify
    ⟨[(js "toString", .one (js "x"))], by decide, by decide, by decide, by simp⟩
  obtain rfl : text' = text := Except.ok.inj (htext'.symm.trans htext)
  obtain rfl := Except.ok.inj (hparse.symm.trans hobj)
  have hown : (addAll ⟨[], none⟩ (pairsOf [(js "toString", .one (js "x"))])).own =
      [(js "toString", .many [.inherited (js "toString"), .string (js "x")])] := rfl
  rw [hown] at hperm
  have hmem := hperm.mem_iff.mp (List.mem_singleton_self _)
  revert hmem
  decide

end SpiderNode.Query
