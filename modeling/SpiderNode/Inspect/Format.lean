import SpiderNode.Inspect.Literal
import Mathlib.Data.Fintype.Card
import Mathlib.Data.Finset.BooleanAlgebra

/-!
# Objects that are inspected

`inspect` of `lib/util.js`, for a graph of plain objects and arrays without functions and accessors.
It goes down from object to object and keeps the objects on its way in `seen`; an object that is
there already is printed as `[Circular]`. With a depth of `null` nothing else stops it: the counter
becomes `undefined`, and then `NaN`. It is enough all the same (`exists_format_eq_ok`), as there is
one object less that can be on the way with each step.

What it prints without a limit is the graph unfolded to a tree (`unfold`).

The properties of an object may stand in its way:

* `'' + value`, in `isRegExp`, needs `toString`, which an object without prototype does not have;
* `__lookupGetter__` and `__lookupSetter__` are called of each object;
* `isArray` and `isDate` take a property `__proto__`, as `JSON.parse` makes it, for the prototype.
  `isArray` calls itself for it, and never ends if it comes back to the object.
-/

namespace SpiderNode.Inspect

open Net (JsError)

/-! ## The graph -/

inductive Val (ι : Type) where
  | undefined
  | null
  | boolean (b : Bool)
  | number (x : Number)
  | string (s : JSString)
  | ref (i : ι)

structure Property (ι : Type) where
  name : JSString
  enumerable : Bool
  value : Val ι

structure Obj (ι : Type) where
  /-- The length of an array; a plain object has none. -/
  length : Option ℕ
  /-- Made by `Object.create(null)`. -/
  bare : Bool
  /-- In the order of `Object.getOwnPropertyNames`. -/
  properties : List (Property ι)

variable {ι : Type}

/-- The condition of an `if`. -/
def Val.truthy : Val ι → Bool
  | undefined => false
  | null => false
  | boolean b => b
  | number x => x ≠ .nan ∧ x ≠ .finite 0
  | string s => s ≠ []
  | ref _ => true

namespace Obj

/-- `Array.isArray` -/
def array (o : Obj ι) : Bool := o.length.isSome

/-- An own property. -/
def find (name : JSString) (o : Obj ι) : Option (Val ι) :=
  (o.properties.find? (·.name = name)).map Property.value

def get (name : JSString) (o : Obj ι) : Val ι := (o.find name).getD .undefined

/-- `Object.keys` -/
def visibleKeys (o : Obj ι) : List JSString :=
  (o.properties.filter Property.enumerable).map Property.name

/-- The elements of an array that are there. -/
def elements (o : Obj ι) : List (Val ι) :=
  (List.range (o.length.getD 0)).filterMap fun n ↦ o.find (decimal n)

/-- `__lookupGetter__` and `__lookupSetter__` are called; there is nothing that they find. -/
def lookupAccessors (o : Obj ι) : Except JsError Unit :=
  match o.find (js "__lookupGetter__") with
  | some v => if v.truthy then .error .typeError else .ok ()
  | none =>
    if !o.bare && (o.find (js "__lookupSetter__")).isSome then .error .typeError else .ok ()

end Obj

/-! ## Text -/

structure Options where
  showHidden : Bool
  colors : Bool
  /-- `readline.columns || 50` -/
  columns : ℕ
  /-- `Object.getOwnPropertyNames(Date.prototype)` -/
  dateNames : List JSString

inductive StyleType where
  | special
  | number
  | boolean
  | undefined
  | null
  | string
  | name

/-- The codes that switch a style on and off. -/
def StyleType.codes : StyleType → Option (String × String)
  | special => some ("36", "39")
  | number => some ("34", "39")
  | boolean => some ("33", "39")
  | undefined => some ("90", "39")
  | null => some ("1", "22")
  | string => some ("32", "39")
  | name => none

namespace Options

variable (o : Options)

def stylize (str : JSString) (styleType : StyleType) : JSString :=
  match o.colors, styleType.codes with
  | true, some (on, off) =>
    0x1B :: (js "[" ++ js on ++ js "m") ++ str ++ 0x1B :: (js "[" ++ js off ++ js "m")
  | _, _ => str

def keys (obj : Obj ι) : List JSString :=
  if o.showHidden then obj.properties.map Property.name else obj.visibleKeys

/-- `'' + x` -/
def numberText (d : Doubles) : Number → JSString
  | .nan => js "NaN"
  | .infinity negative => if negative then js "-Infinity" else js "Infinity"
  | .finite q => d.toString q

/-- A value that is no object. -/
def primitive (d : Doubles) : Val ι → JSString
  | .undefined => o.stylize (js "undefined") .undefined
  | .null => o.stylize (js "null") .null
  | .boolean b => o.stylize (if b then js "true" else js "false") .boolean
  | .number x => o.stylize (numberText d x) .number
  | .string s => o.stylize (inspectString s) .string
  | .ref _ => []

def circular : JSString := o.stylize (js "[Circular]") .special

/-- The text of a value over several lines is indented. -/
def indent (array : Bool) (str : JSString) : JSString :=
  let newline : UInt16 := 0x0A
  if newline ∈ str then
    if array then
      ([newline].intercalate ((str.splitOn newline).map (js "  " ++ ·))).drop 2
    else newline :: [newline].intercalate ((str.splitOn newline).map (js "   " ++ ·))
  else str

/-- A property with the text of its value. -/
def entry (array : Bool) (obj : Obj ι) (key str : JSString) : JSString :=
  if key ∉ obj.visibleKeys then js "[" ++ key ++ js "]" ++ js ": " ++ str
  else if array ∧ key ≠ [] ∧ ∀ u ∈ key, isDigit u = true then str
  else
    let styleType := if (nameRe.exec (Json.quote key)).isSome then .name else .string
    o.stylize (keyName key) styleType ++ js ": " ++ str

def braces (array : Bool) : JSString × JSString :=
  if array then (js "[", js "]") else (js "\x7b", js "\x7d")

/-- The text of an object, given those of its properties. -/
def layout (array : Bool) (output : List JSString) : JSString :=
  let length := (output.map fun cur ↦ cur.length + 1).sum
  let separator := if o.columns < length then js ",\n  " else js ", "
  (braces array).1 ++ js " " ++ separator.intercalate output ++ js " " ++ (braces array).2

end Options

/-! ## `format` -/

inductive Depth where
  | undefined
  | null
  | number (x : Number)

namespace Depth

/-- `recurseTimes < 0` -/
def below : Depth → Bool
  | number (.finite q) => q < 0
  | number (.infinity negative) => negative
  | _ => false

/-- The argument of the recursive call. -/
def next (d : Doubles) : Depth → Depth
  | null => undefined
  | undefined => number .nan
  | number (.finite q) => number (d.round (q - 1))
  | number x => number x

/-- A depth that stops nothing. -/
def Unlimited : Depth → Prop
  | number x => x = .nan
  | _ => True

end Depth

/-- The results of calls one after the other; `none` if one of them goes on forever. -/
def collect {α : Type} : List (Option (Except JsError α)) → Option (Except JsError (List α))
  | [] => some (.ok [])
  | none :: _ => none
  | some (.error e) :: _ => some (.error e)
  | some (.ok a) :: l => (collect l).map (Except.map (a :: ·))

/-- `'' + value` of an object does not throw. The engine takes an array that is being joined for
empty. -/
def convertible [Fintype ι] [DecidableEq ι] (heap : ι → Obj ι) (busy : Finset ι) (i : ι) : Bool :=
  if i ∈ busy then true
  else if (heap i).bare || ((heap i).find (js "toString")).isSome then false
  else if (heap i).array && ((heap i).find (js "join")).isNone then
    (heap i).elements.all fun v ↦
      match v with
      | .ref j => convertible heap (insert i busy) j
      | _ => true
  else true
termination_by busyᶜ.card
decreasing_by
  exact Finset.card_lt_card (Finset.compl_ssubset_compl.mpr (Finset.ssubset_insert ‹i ∉ busy›))

/-- `isArray`, where `calls` are the objects for which it has been called already; `none` if it goes
on forever. Where `__proto__` is no object of the graph, `Object.prototype` comes at last. -/
def isArray [Fintype ι] [DecidableEq ι] (heap : ι → Obj ι) (calls : Finset ι) (i : ι) :
    Option Bool :=
  if i ∈ calls then none
  else if (heap i).array then some true
  else
    match (heap i).find (js "__proto__") with
    | some (.ref j) => isArray heap (insert i calls) j
    | _ => some false
termination_by callsᶜ.card
decreasing_by
  exact Finset.card_lt_card (Finset.compl_ssubset_compl.mpr (Finset.ssubset_insert ‹i ∉ calls›))

/-- `isDate` of an object that is no date. The properties of `Object.prototype` and
`Array.prototype` are not those of `Date.prototype`. -/
def isDate (heap : ι → Obj ι) (dateNames : List JSString) (i : ι) : Except JsError Bool :=
  match (heap i).find (js "__proto__") with
  | some (.ref j) => .ok ((heap j).properties.map Property.name = dateNames)
  -- `Object.getOwnPropertyNames` takes objects only
  | some v => if v.truthy then .error .typeError else .ok false
  | none => .ok false

section Graph

variable [DecidableEq ι]

def isSeen (seen : List ι) : Val ι → Bool
  | .ref i => i ∈ seen
  | _ => false

/-- The function that `format` maps over the keys; `format` is the recursive call. -/
def formatProperty (o : Options) (format : Val ι → Option (Except JsError JSString))
    (seen : List ι) (array : Bool) (obj : Obj ι) (key : JSString) :
    Option (Except JsError JSString) :=
  match obj.lookupAccessors with
  | .error e => some (.error e)
  | .ok () =>
    if isSeen seen (obj.get key) then some (.ok (o.entry array obj key o.circular))
    else
      (format (obj.get key)).map
        (Except.map fun str ↦ o.entry array obj key (Options.indent array str))

/-- The part of `format` for an object that has been tested; `array` is what `isArray` says. -/
def formatObject (o : Options) (format : Val ι → Option (Except JsError JSString)) (seen : List ι)
    (array : Bool) (obj : Obj ι) (recurseTimes : Depth) : Option (Except JsError JSString) :=
  if o.keys obj = [] then some (.ok ((Options.braces array).1 ++ (Options.braces array).2))
  else if recurseTimes.below then some (.ok (o.stylize (js "[Object]") .special))
  else (collect <| (o.keys obj).map <| formatProperty o format seen array obj).map
    (Except.map (o.layout array))

variable [Fintype ι] (heap : ι → Obj ι) (d : Doubles) (o : Options)

/-- The tests with which `format` begins, and whether the type is `Array`; `none` if they never
end. What is taken for a date has no `toUTCString`. -/
def objectType (i : ι) : Option (Except JsError Bool) :=
  if convertible heap ∅ i = false then some (.error .typeError)
  else
    match isDate heap o.dateNames i with
    | .error e => some (.error e)
    | .ok date =>
      if date && o.keys (heap i) = [] then some (.error .typeError)
      else (isArray heap ∅ i).map fun array ↦ if date then .error .typeError else .ok array

/-- `format`, with a bound on how deep its calls are nested. -/
def format : ℕ → List ι → Val ι → Depth → Option (Except JsError JSString)
  | 0, _, _, _ => none
  | n + 1, seen, .ref i, recurseTimes =>
    match objectType heap o i with
    | none => none
    | some (.error e) => some (.error e)
    | some (.ok array) =>
      let seen := seen ++ [i]
      formatObject o (fun v ↦ format n seen v (recurseTimes.next d)) seen array (heap i)
        recurseTimes
  | _ + 1, _, v, _ => some (.ok (o.primitive d v))

/-- `inspect` -/
def inspect (n : ℕ) (obj : Val ι) (depth : Depth) : Option (Except JsError JSString) :=
  match depth with
  | .undefined => format heap d o n [] obj (.number (.finite 2))
  | depth => format heap d o n [] obj depth

end Graph

/-! ## What is printed without a limit -/

/-- A graph unfolded from an object. -/
inductive Tree (ι : Type) where
  | leaf (v : Val ι)
  | circular (i : ι)
  | node (i : ι) (edges : List (JSString × Tree ι))

/-- The objects on the way from the root are `path`. An edge back to one of them is circular, and no
other edge is. -/
def unfold [Fintype ι] [DecidableEq ι] (heap : ι → Obj ι) (o : Options) (path : Finset ι)
    (value : Val ι) : Tree ι :=
  match value with
  | .ref i =>
    if i ∈ path then .circular i
    else .node i <| (o.keys (heap i)).map fun key ↦
      (key, unfold heap o (insert i path) ((heap i).get key))
  | v => .leaf v
termination_by pathᶜ.card
decreasing_by
  exact Finset.card_lt_card (Finset.compl_ssubset_compl.mpr (Finset.ssubset_insert ‹i ∉ path›))

namespace Tree

variable [Fintype ι] [DecidableEq ι] (heap : ι → Obj ι) (d : Doubles) (o : Options)

def isCircular : Tree ι → Bool
  | circular _ => true
  | _ => false

mutual

def print : Tree ι → JSString
  | leaf v => o.primitive d v
  | circular _ => o.circular
  | node i edges =>
    let array := (isArray heap ∅ i).getD false
    if edges.isEmpty then (Options.braces array).1 ++ (Options.braces array).2
    else o.layout array (printEdges array (heap i) edges)

def printEdges (array : Bool) (obj : Obj ι) : List (JSString × Tree ι) → List JSString
  | [] => []
  | (key, t) :: edges =>
    o.entry array obj key (if t.isCircular then o.circular else Options.indent array (print t)) ::
      printEdges array obj edges

end

end Tree

theorem Tree.printEdges_map [Fintype ι] [DecidableEq ι] {heap : ι → Obj ι} {d : Doubles}
    {o : Options} {array : Bool} {obj : Obj ι} {keys : List JSString} {t : JSString → Tree ι} :
    printEdges heap d o array obj (keys.map fun key ↦ (key, t key)) = keys.map fun key ↦
      o.entry array obj key (if (t key).isCircular then o.circular
        else Options.indent array ((t key).print heap d o)) := by
  induction keys with
  | nil => rfl
  | cons key keys ih => rw [List.map_cons, List.map_cons, printEdges, ih]

/-! ## Calls one after the other -/

section Collect

variable {α β : Type} {l : List (Option (Except JsError α))}

theorem collect_eq_ok (h : ∀ x ∈ l, ∃ a, x = some (.ok a)) : ∃ as, collect l = some (.ok as) := by
  induction l with
  | nil => exact ⟨_, rfl⟩
  | cons x l ih =>
    obtain ⟨⟨a, rfl⟩, hl⟩ := List.forall_mem_cons.mp h
    obtain ⟨as, has⟩ := ih hl
    exact ⟨a :: as, by rw [collect, has]; rfl⟩

theorem exists_of_collect_ok {as : List α} (h : collect l = some (.ok as)) :
    ∀ x ∈ l, ∃ a, x = some (.ok a) := by
  induction l generalizing as with
  | nil => simp
  | cons x l ih =>
    rcases x with _ | e | a
    · cases h
    · cases h
    · obtain ⟨r, hr, hmap⟩ := Option.map_eq_some_iff.mp h
      rcases r with e | as'
      · cases hmap
      · exact List.forall_mem_cons.mpr ⟨⟨a, rfl⟩, ih hr⟩

theorem eq_map_of_collect {f : β → Option (Except JsError α)} {g : β → α} {l : List β}
    {as : List α} (hfg : ∀ b ∈ l, ∀ a, f b = some (.ok a) → a = g b)
    (h : collect (l.map f) = some (.ok as)) : as = l.map g := by
  induction l generalizing as with
  | nil => exact (Except.ok.inj (Option.some.inj h)).symm
  | cons b l ih =>
    obtain ⟨hb, hl⟩ := List.forall_mem_cons.mp hfg
    rw [List.map_cons] at h ⊢
    rcases hf : f b with _ | e | a
    · rw [hf] at h
      cases h
    · rw [hf] at h
      cases h
    · rw [hf] at h
      obtain ⟨r, hr, hmap⟩ := Option.map_eq_some_iff.mp h
      rcases r with e | as'
      · cases hmap
      · rw [← Except.ok.inj hmap, ← hb a hf, ← ih hl hr]

/-- What one list of calls gives is given by every other that goes on at least as long. -/
theorem collect_map_mono {f g : β → Option (Except JsError α)} {l : List β}
    {r : Except JsError (List α)} (hfg : ∀ b ∈ l, ∀ r, f b = some r → g b = some r)
    (h : collect (l.map f) = some r) : collect (l.map g) = some r := by
  induction l generalizing r with
  | nil => exact h
  | cons b l ih =>
    obtain ⟨hb, hl⟩ := List.forall_mem_cons.mp hfg
    rw [List.map_cons] at h ⊢
    rcases hf : f b with _ | e | a
    · rw [hf] at h
      cases h
    · rw [hf] at h
      rw [hb _ hf]
      exact h
    · rw [hf] at h
      rw [hb _ hf]
      obtain ⟨r', hr', rfl⟩ := Option.map_eq_some_iff.mp h
      rw [collect, ih hl hr']
      rfl

end Collect

/-! ## What stands in the way -/

/-- `isArray` of the object calls itself for the next one. -/
def Follows (heap : ι → Obj ι) (j i : ι) : Prop :=
  (heap i).array = false ∧ (heap i).find (js "__proto__") = some (.ref j)

section Follows

variable [Fintype ι] [DecidableEq ι] {heap : ι → Obj ι} {calls : Finset ι} {i : ι}

theorem acc_of_isArray (h : isArray heap calls i ≠ none) : Acc (Follows heap) i := by
  fun_induction isArray heap calls i with
  | case1 => exact absurd rfl h
  | case2 calls i _ harray => exact ⟨i, fun j hj ↦ by rw [hj.1] at harray; cases harray⟩
  | case3 calls i _ _ j hj ih =>
    refine ⟨i, fun k hk ↦ ?_⟩
    obtain rfl : j = k := by simpa [hj] using hk.2
    exact ih h
  | case4 calls i _ _ hother => exact ⟨i, fun j hj ↦ absurd hj.2 (hother j)⟩

omit [Fintype ι] [DecidableEq ι] in
theorem not_self_of_acc {r : ι → ι → Prop} (h : Acc r i) : ¬r i i := by
  induction h with
  | intro i _ ih => exact fun hi ↦ ih i hi hi

/-- The objects of the calls lead to the one that is asked about. -/
theorem isArray_of_acc (h : Acc (Follows heap) i)
    (hcalls : ∀ c ∈ calls, Relation.TransGen (Follows heap) i c) :
    isArray heap calls i ≠ none := by
  fun_induction isArray heap calls i with
  | case1 calls i hi => exact absurd (hcalls i hi) (not_self_of_acc h.transGen)
  | case2 => simp
  | case3 calls i _ harray j hj ih =>
    have hfollows : Follows heap j i := ⟨by simpa using harray, hj⟩
    refine ih (h.inv hfollows) fun c hc ↦ ?_
    rcases Finset.mem_insert.mp hc with rfl | hc
    · exact .single hfollows
    · exact (hcalls c hc).head hfollows
  | case4 => simp

/-- `isArray` ends where the properties `__proto__` come to an end. -/
theorem isArray_ne_none_iff : isArray heap ∅ i ≠ none ↔ Acc (Follows heap) i :=
  ⟨acc_of_isArray, fun h ↦ isArray_of_acc h (by simp)⟩

end Follows

/-- Nothing that an object has stands in the way of `inspect`. -/
structure Harmless [Fintype ι] [DecidableEq ι] (heap : ι → Obj ι) (o : Options) (i : ι) : Prop where
  text : convertible heap ∅ i = true
  /-- `__proto__` is not taken for `Date.prototype`, and its properties can be asked for. -/
  date : isDate heap o.dateNames i = .ok false
  array : Acc (Follows heap) i
  accessors : o.keys (heap i) ≠ [] → (heap i).lookupAccessors = .ok ()

/-! ## One property -/

section Property

variable [DecidableEq ι] {o : Options} {seen : List ι}
variable {rec rec' : Val ι → Option (Except JsError JSString)} {array : Bool} {obj : Obj ι}
  {key : JSString}

theorem exists_formatProperty_eq_ok (hlookup : obj.lookupAccessors = .ok ())
    (h : isSeen seen (obj.get key) = false → ∃ s, rec (obj.get key) = some (.ok s)) :
    ∃ s, formatProperty o rec seen array obj key = some (.ok s) := by
  rw [formatProperty, hlookup]
  by_cases hseen : isSeen seen (obj.get key) = true
  · exact ⟨_, if_pos hseen⟩
  · obtain ⟨s, hs⟩ := h (eq_false_of_ne_true hseen)
    exact ⟨_, (if_neg hseen).trans (congrArg _ hs)⟩

theorem formatProperty_mono {r : Except JsError JSString}
    (hrec : ∀ v r, rec v = some r → rec' v = some r)
    (h : formatProperty o rec seen array obj key = some r) :
    formatProperty o rec' seen array obj key = some r := by
  rw [formatProperty] at h ⊢
  rcases hlookup : obj.lookupAccessors with e | u
  · rw [hlookup] at h
    exact h
  · rw [hlookup] at h
    by_cases hseen : isSeen seen (obj.get key) = true
    · rw [if_pos hseen] at h ⊢
      exact h
    · rw [if_neg hseen] at h ⊢
      obtain ⟨r', hr', rfl⟩ := Option.map_eq_some_iff.mp h
      rw [hrec _ _ hr']
      rfl

theorem formatProperty_ok {s : JSString}
    (h : formatProperty o rec seen array obj key = some (.ok s)) : obj.lookupAccessors = .ok () ∧
      ((isSeen seen (obj.get key) = true ∧ s = o.entry array obj key o.circular) ∨
        isSeen seen (obj.get key) = false ∧ ∃ str, rec (obj.get key) = some (.ok str) ∧
          s = o.entry array obj key (Options.indent array str)) := by
  rw [formatProperty] at h
  rcases hlookup : obj.lookupAccessors with e | u
  · rw [hlookup] at h
    cases h
  · rw [hlookup] at h
    refine ⟨rfl, ?_⟩
    by_cases hseen : isSeen seen (obj.get key) = true
    · rw [if_pos hseen] at h
      exact .inl ⟨hseen, (Except.ok.inj (Option.some.inj h)).symm⟩
    · rw [if_neg hseen] at h
      obtain ⟨r, hr, hmap⟩ := Option.map_eq_some_iff.mp h
      rcases r with e | str
      · cases hmap
      · exact .inr ⟨eq_false_of_ne_true hseen, str, hr, (Except.ok.inj hmap).symm⟩

end Property

/-! ## `format` terminates -/

section Termination

variable [Fintype ι] [DecidableEq ι] {heap : ι → Obj ι} {d : Doubles} {o : Options}
variable {i : ι} {seen : List ι} {v : Val ι} {depth : Depth} {n : ℕ}

/-! ### An object -/

omit [Fintype ι] in
theorem formatObject_mono {array : Bool} {obj : Obj ι} {r : Except JsError JSString}
    {rec rec' : Val ι → Option (Except JsError JSString)}
    (hrec : ∀ v r, rec v = some r → rec' v = some r)
    (h : formatObject o rec seen array obj depth = some r) :
    formatObject o rec' seen array obj depth = some r := by
  rw [formatObject] at h ⊢
  split_ifs at h ⊢
  · exact h
  · exact h
  · obtain ⟨r', hr', rfl⟩ := Option.map_eq_some_iff.mp h
    rw [collect_map_mono (fun key _ r h ↦ formatProperty_mono hrec h) hr']
    rfl

/-- The tests are passed just where nothing stands in the way of them. -/
theorem objectType_eq_ok {array : Bool} : objectType heap o i = some (.ok array) ↔
    convertible heap ∅ i = true ∧ isDate heap o.dateNames i = .ok false ∧
      isArray heap ∅ i = some array := by
  rw [objectType]
  cases convertible heap ∅ i
  · simp
  rcases isDate heap o.dateNames i with e | _ | _
  · simp
  · simp
  · by_cases hkeys : o.keys (heap i) = [] <;> simp [hkeys]

/-- A longer run gives the same. -/
theorem format_mono {r : Except JsError JSString} (h : format heap d o n seen v depth = some r) :
    format heap d o (n + 1) seen v depth = some r := by
  induction n generalizing seen v depth r with
  | zero => cases h
  | succ n ih =>
    rcases v with _ | _ | _ | _ | _ | i
    all_goals try exact h
    rw [format] at h ⊢
    rcases htype : objectType heap o i with _ | e | array
    · rw [htype] at h
      cases h
    · rw [htype] at h
      exact h
    · rw [htype] at h
      exact formatObject_mono (fun v r ↦ ih) h

theorem format_mono_of_le {m : ℕ} {r : Except JsError JSString} (hn : n ≤ m)
    (h : format heap d o n seen v depth = some r) : format heap d o m seen v depth = some r := by
  induction m, hn using Nat.le_induction with
  | base => exact h
  | succ m _ ih => exact format_mono ih

/-- What the formatting of an object comes to, if it gives a text. -/
theorem format_ref_ok {text : JSString}
    (h : format heap d o (n + 1) seen (.ref i) depth = some (.ok text)) :
    ∃ array, objectType heap o i = some (.ok array) ∧
      formatObject o (fun v ↦ format heap d o n (seen ++ [i]) v (depth.next d)) (seen ++ [i])
        array (heap i) depth = some (.ok text) := by
  rw [format] at h
  rcases htype : objectType heap o i with _ | e | array
  · rw [htype] at h
    cases h
  · rw [htype] at h
    cases h
  · rw [htype] at h
    exact ⟨array, rfl, h⟩

theorem Harmless.objectType (h : Harmless heap o i) :
    ∃ array, Inspect.objectType heap o i = some (.ok array) := by
  obtain ⟨array, harray⟩ := Option.ne_none_iff_exists'.mp (isArray_ne_none_iff.mpr h.array)
  exact ⟨array, objectType_eq_ok.mpr ⟨h.text, h.date, harray⟩⟩

/-- **Termination**: with each step there is one object less that can be on the way. -/
theorem exists_format_eq_ok (h : ∀ i, Harmless heap o i) (hseen : seen.Nodup)
    (hn : Fintype.card ι < n + seen.length) (hv : isSeen seen v = false) :
    ∃ text, format heap d o n seen v depth = some (.ok text) := by
  induction n generalizing seen v depth with
  | zero =>
    rw [Nat.zero_add] at hn
    exact absurd hseen.length_le_card (Nat.not_le_of_lt hn)
  | succ n ih =>
    rcases v with _ | _ | _ | _ | _ | i
    all_goals try exact ⟨_, rfl⟩
    have hi : i ∉ seen := of_decide_eq_false hv
    have hnodup : (seen ++ [i]).Nodup := by
      rw [← List.concat_eq_append]
      exact hseen.concat hi
    have hlength : Fintype.card ι < n + (seen ++ [i]).length := by
      rw [List.length_append, List.length_singleton]
      omega
    obtain ⟨array, htype⟩ := (h i).objectType
    rw [format, htype]
    change ∃ text, formatObject .. = _
    rw [formatObject]
    split_ifs with hkeys
    · exact ⟨_, rfl⟩
    · exact ⟨_, rfl⟩
    · obtain ⟨texts, htexts⟩ : ∃ texts, collect ((o.keys (heap i)).map <| formatProperty o
          (fun v ↦ format heap d o n (seen ++ [i]) v (depth.next d)) (seen ++ [i]) array
            (heap i)) = some (.ok texts) := by
        refine collect_eq_ok fun x hx ↦ ?_
        obtain ⟨key, -, rfl⟩ := List.mem_map.mp hx
        exact exists_formatProperty_eq_ok ((h i).accessors hkeys) (ih hnodup hlength)
      rw [htexts]
      exact ⟨_, rfl⟩

theorem Depth.Unlimited.next (h : depth.Unlimited) : (depth.next d).Unlimited := by
  rcases depth with _ | _ | x
  · rfl
  · trivial
  · obtain rfl : x = .nan := h
    rfl

theorem Depth.Unlimited.not_below (h : depth.Unlimited) : depth.below = false := by
  rcases depth with _ | _ | x
  · rfl
  · rfl
  · obtain rfl : x = .nan := h
    rfl

theorem unfold_of_ne {path : Finset ι} (h : ∀ i, v ≠ .ref i) : unfold heap o path v = .leaf v := by
  rcases v with _ | _ | _ | _ | _ | i
  all_goals first
    | exact absurd rfl (h i)
    | rw [unfold.eq_def]

theorem unfold_ref : unfold heap o seen.toFinset (.ref i) =
    if i ∈ seen then .circular i
    else .node i <| (o.keys (heap i)).map fun key ↦
      (key, unfold heap o (seen ++ [i]).toFinset ((heap i).get key)) := by
  have hinsert : insert i seen.toFinset = (seen ++ [i]).toFinset := by
    rw [List.toFinset_append, Finset.union_comm]
    rfl
  rw [unfold, hinsert]
  exact if_congr List.mem_toFinset rfl rfl

/-- The circular edges are those to an object on the way. -/
theorem isCircular_unfold : (unfold heap o seen.toFinset v).isCircular = isSeen seen v := by
  rcases v with _ | _ | _ | _ | _ | i
  all_goals try (rw [unfold_of_ne (by simp)]; rfl)
  rw [unfold_ref, isSeen]
  split_ifs with h
  · exact (decide_eq_true h).symm
  · exact (decide_eq_false h).symm

/-- **Without a limit** the text is that of the unfolded graph. -/
theorem eq_print_of_format {text : JSString} (hdepth : depth.Unlimited)
    (hv : isSeen seen v = false) (h : format heap d o n seen v depth = some (.ok text)) :
    text = (unfold heap o seen.toFinset v).print heap d o := by
  induction n generalizing seen v depth text with
  | zero => cases h
  | succ n ih =>
    rcases v with _ | _ | _ | _ | _ | i
    all_goals try
      rw [unfold_of_ne (by simp)]
      exact (Except.ok.inj (Option.some.inj h)).symm
    rw [unfold_ref, if_neg (of_decide_eq_false hv), Tree.print, List.isEmpty_map]
    obtain ⟨array, htype, hobject⟩ := format_ref_ok h
    rw [(objectType_eq_ok.mp htype).2.2, Option.getD_some]
    rw [formatObject, hdepth.not_below] at hobject
    split_ifs at hobject with hkeys hbelow
    · rw [hkeys]
      exact (Except.ok.inj (Option.some.inj hobject)).symm
    · cases hbelow
    · obtain ⟨r, hcollect, hr⟩ := Option.map_eq_some_iff.mp hobject
      rcases r with e | texts
      · cases hr
      · obtain rfl : o.layout array texts = text := Except.ok.inj hr
        have hempty : (o.keys (heap i)).isEmpty = false := by
          rwa [List.isEmpty_eq_false_iff]
        have htexts : texts = Tree.printEdges heap d o array (heap i)
            ((o.keys (heap i)).map fun key ↦
              (key, unfold heap o (seen ++ [i]).toFinset ((heap i).get key))) := by
          rw [Tree.printEdges_map]
          refine eq_map_of_collect (fun key _ s hs ↦ ?_) hcollect
          rw [isCircular_unfold]
          rcases (formatProperty_ok hs).2 with ⟨hseen, hs⟩ | ⟨hseen, str, hstr, hs⟩
          · rw [if_pos hseen]
            exact hs
          · rw [hseen, ← ih hdepth.next hseen hstr]
            exact hs
        rw [hempty, ← htexts]
        rfl

/-! ## `inspect` -/

/-- Whatever object of the graph is given, and to whatever depth, `inspect` terminates with a text.
Without a limit the text is that of the unfolded graph, of which the circular edges are those to an
object on the way from the root (`isCircular_unfold`). -/
def Prints (heap : ι → Obj ι) (d : Doubles) (o : Options) : Prop :=
  ∀ obj depth, ∃ text,
    (∀ n, Fintype.card ι < n → inspect heap d o n obj depth = some (.ok text)) ∧
    (depth = .null → text = (unfold heap o ∅ obj).print heap d o)

omit [Fintype ι] in
theorem isSeen_nil (v : Val ι) : isSeen [] v = false := by
  rcases v with _ | _ | _ | _ | _ | i
  all_goals rfl

theorem prints_of_harmless (h : ∀ i, Harmless heap o i) : Prints heap d o := by
  intro obj depth
  obtain ⟨start, hnull, hinspect⟩ : ∃ start : Depth, (depth = .null → start.Unlimited) ∧
      ∀ n, inspect heap d o n obj depth = format heap d o n [] obj start := by
    rcases depth with _ | _ | x
    · exact ⟨.number (.finite 2), by simp, fun _ ↦ rfl⟩
    · exact ⟨.null, fun _ ↦ trivial, fun _ ↦ rfl⟩
    · exact ⟨.number x, by simp, fun _ ↦ rfl⟩
  obtain ⟨text, htext⟩ : ∃ text, format heap d o (Fintype.card ι + 1) [] obj start =
      some (.ok text) :=
    exists_format_eq_ok h List.nodup_nil (Nat.lt_succ_self _) (isSeen_nil obj)
  refine ⟨text, fun n hn ↦ ?_, fun hdepth ↦ ?_⟩
  · rw [hinspect]
    exact format_mono_of_le hn htext
  · exact eq_print_of_format (hnull hdepth) (isSeen_nil obj) htext

/-- An object that is printed without a limit has nothing in the way. -/
theorem harmless_of_format {text : JSString}
    (h : format heap d o (n + 1) [] (.ref i) .null = some (.ok text)) : Harmless heap o i := by
  obtain ⟨array, htype, hobject⟩ := format_ref_ok h
  obtain ⟨htext, hdate, harray⟩ := objectType_eq_ok.mp htype
  refine ⟨htext, hdate, isArray_ne_none_iff.mp (by simp [harray]), fun hkeys ↦ ?_⟩
  rw [formatObject, if_neg hkeys, if_neg (by decide)] at hobject
  obtain ⟨r, hcollect, hr⟩ := Option.map_eq_some_iff.mp hobject
  rcases r with e | texts
  · cases hr
  · obtain ⟨key, hkey⟩ := List.exists_mem_of_ne_nil _ hkeys
    obtain ⟨s, hs⟩ := exists_of_collect_ok hcollect _ (List.mem_map_of_mem hkey)
    exact (formatProperty_ok hs).1

/-- **`inspect` terminates**, and prints what is there, just for the graphs in which nothing stands
in its way. -/
theorem inspect_prints_iff (heap : ι → Obj ι) (d : Doubles) (o : Options) :
    Prints heap d o ↔ ∀ i, Harmless heap o i := by
  refine ⟨fun h i ↦ ?_, prints_of_harmless⟩
  obtain ⟨text, htext, -⟩ := h (.ref i) .null
  exact harmless_of_format (htext (Fintype.card ι + 1) (Nat.lt_succ_self _))

/-- An object that is its own `__proto__`. -/
theorem proto_endless : ¬∀ (heap : Unit → Obj Unit) (d : Doubles) (o : Options) (obj : Val Unit)
    (depth : Depth), ∃ r, ∀ n, Fintype.card Unit < n → inspect heap d o n obj depth = some r := by
  intro h
  let heap : Unit → Obj Unit := fun _ ↦ ⟨none, false, [⟨js "__proto__", true, .ref ()⟩]⟩
  let o : Options := ⟨false, false, 50, [js "constructor"]⟩
  have hself : Follows heap () () := ⟨rfl, rfl⟩
  have harray : isArray heap ∅ () = none := by
    by_contra hne
    exact not_self_of_acc (acc_of_isArray hne) hself
  have htext : convertible heap ∅ () = true := by
    rw [convertible]
    rfl
  have htype : objectType heap o () = none := by
    rw [objectType, htext, harray]
    rfl
  obtain ⟨r, hr⟩ := h heap .naturals o (.ref ()) .null
  have hnone : inspect heap .naturals o 2 (.ref ()) .null = none := by
    rw [inspect, format, htype]
    simp
  rw [hr 2 (by decide)] at hnone
  cases hnone

theorem exists_of_not_convertible {busy : Finset ι} (h : convertible heap busy i = false) :
    ∃ j, ((heap j).bare || ((heap j).find (js "toString")).isSome) = true := by
  fun_induction convertible heap busy i with
  | case1 => cases h
  | case2 busy i _ hstring => exact ⟨i, hstring⟩
  | case3 busy i _ _ _ ih =>
    obtain ⟨v, -, hv⟩ := List.all_eq_false.mp h
    rcases v with _ | _ | _ | _ | _ | j
    all_goals try exact absurd rfl hv
    exact ih j (eq_false_of_ne_true hv)
  | case4 => cases h

/-- Objects with a prototype, and without properties of four names, are printed. -/
theorem prints_of_plain (h : ∀ i, (heap i).bare = false ∧ ∀ name ∈ [js "toString",
    js "__lookupGetter__", js "__lookupSetter__", js "__proto__"], (heap i).find name = none) :
    Prints heap d o := by
  have hproto : ∀ i, (heap i).find (js "__proto__") = none := fun i ↦ (h i).2 _ (by simp)
  refine prints_of_harmless fun i ↦ ⟨?_, ?_, ⟨i, fun j hj ↦ ?_⟩, fun _ ↦ ?_⟩
  · by_contra htext
    obtain ⟨j, hj⟩ := exists_of_not_convertible (eq_false_of_ne_true htext)
    simp [(h j).1, (h j).2 (js "toString") (by simp)] at hj
  · rw [isDate, hproto]
  · cases (hproto i).symm.trans hj.2
  · rw [Obj.lookupAccessors, (h i).2 (js "__lookupGetter__") (by simp)]
    simp [(h i).2 (js "__lookupSetter__") (by simp)]

end Termination

end SpiderNode.Inspect
