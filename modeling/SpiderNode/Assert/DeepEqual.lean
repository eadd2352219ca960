import SpiderNode.Text.Numerals

/-!
# Deep equality

`_deepEqual` and `objEquiv` of `lib/assert.js`. A value is a tree here: an object has its own
enumerable properties and an identity, by which `===` tells it from others.

The comparison of two values meets pairs of values that stand at the same place. It asks of each
pair the same in either order, with one exception: an arguments object on the left must have one on
the right, but nothing is asked when there is one on the right only. `deepEqual_iff` says that this
is all that the comparison does, and `deepEqual_comm_iff` when it is symmetric.
-/

namespace SpiderNode.Assert

/-! ## Values -/

inductive Kind where
  | plain
  | array
  | date (time : Number)
  | buffer (bytes : Bytes)
  | arguments (length : ℕ)
  deriving DecidableEq

/-- A value. The arrays that `objEquiv` makes have no identity, as each is compared only once. -/
inductive Value where
  | undefined
  | null
  | boolean (b : Bool)
  | number (x : Number)
  | string (s : JSString)
  | object (id : Option ℕ) (kind : Kind) (fields : List (JSString × Value))

/-- `x === y` -/
def numberEq (x y : Number) : Bool := x ≠ .nan ∧ x = y

namespace Value

/-- `===` -/
def identical : Value → Value → Bool
  | undefined, undefined => true
  | null, null => true
  | boolean a, boolean b => a = b
  | number x, number y => numberEq x y
  | string s, string t => s = t
  | object id _ _, object id' _ _ => id.isSome && id = id'
  | _, _ => false

def toNumber (d : Doubles) : Value → Number
  | boolean b => .finite (if b then 1 else 0)
  | number x => x
  | string s => d.toNumber (some s)
  | _ => .nan

/-- `==` of values that are neither objects nor `null`. -/
def looseEqual (d : Doubles) : Value → Value → Bool
  | string s, string t => s = t
  | undefined, undefined => true
  | undefined, _ => false
  | _, undefined => false
  | a, b => numberEq (a.toNumber d) (b.toNumber d)

/-- `typeof v == 'object'` -/
def typeofObject : Value → Bool
  | null => true
  | object _ _ _ => true
  | _ => false

def isUndefinedOrNull : Value → Bool
  | undefined => true
  | null => true
  | _ => false

def isArguments : Value → Bool
  | object _ (.arguments _) _ => true
  | _ => false

/-- The bytes of a buffer. -/
def bytes : Value → Option Bytes
  | object _ (.buffer b) _ => some b
  | _ => none

/-- The time of a date. -/
def time : Value → Option Number
  | object _ (.date x) _ => some x
  | _ => none

/-- `v[key]`, where no property is inherited. -/
def get (key : JSString) : Value → Value
  | object _ _ fields => (fields.lookup key).getD undefined
  | _ => undefined

/-- `Object.keys(v)`, which throws if it is not an object. -/
def keys : Value → Option (List JSString)
  | object _ _ fields => some (fields.map Prod.fst)
  | _ => none

/-- `pSlice.call(v)` of an arguments object. -/
def slice : Value → Value
  | object _ (.arguments length) fields =>
    object none .array <| (List.range length).filterMap fun i ↦
      (fields.lookup (decimal i)).map fun v ↦ (decimal i, v)
  | v => v

mutual

/-- How far objects are nested. -/
def height : Value → ℕ
  | object _ _ fields => heights fields + 1
  | undefined => 0
  | null => 0
  | _ => 1

def heights : List (JSString × Value) → ℕ
  | [] => 0
  | (_, v) :: fields => max v.height (heights fields)

end

theorem height_le_of_lookup {fields : List (JSString × Value)} {key : JSString} {v : Value}
    (h : fields.lookup key = some v) : v.height ≤ heights fields := by
  induction fields with
  | nil => cases h
  | cons f fields ih =>
    obtain ⟨k, w⟩ := f
    rw [List.lookup_cons] at h
    rw [heights]
    split at h
    · cases h
      exact Nat.le_max_left _ _
    · exact (ih h).trans (Nat.le_max_right _ _)

theorem height_get_lt {v : Value} (key : JSString) (h : v.isUndefinedOrNull = false) :
    (v.get key).height < v.height := by
  rcases v with _ | _ | _ | _ | _ | ⟨id, kind, fields⟩
  · cases h
  · cases h
  · exact Nat.one_pos
  · exact Nat.one_pos
  · exact Nat.one_pos
  · rw [get, height]
    rcases hlookup : fields.lookup key with _ | w
    · exact Nat.succ_pos _
    · exact Nat.lt_succ_of_le (height_le_of_lookup hlookup)

theorem heights_le {fields : List (JSString × Value)} {n : ℕ} (h : ∀ f ∈ fields, f.2.height ≤ n) :
    heights fields ≤ n := by
  induction fields with
  | nil => exact Nat.zero_le n
  | cons f fields ih =>
    obtain ⟨hf, hfields⟩ := List.forall_mem_cons.mp h
    exact Nat.max_le.mpr ⟨hf, ih hfields⟩

/-- What is copied is in the arguments object. -/
theorem height_slice_le (v : Value) : v.slice.height ≤ v.height := by
  unfold slice
  split
  · rename_i id length fields
    rw [height, height]
    refine Nat.succ_le_succ (heights_le fun f hf ↦ ?_)
    obtain ⟨i, -, hi⟩ := List.mem_filterMap.mp hf
    obtain ⟨w, hw, rfl⟩ := Option.map_eq_some_iff.mp hi
    exact height_le_of_lookup hw
  · exact Nat.le_refl _

theorem isArguments_slice (v : Value) : v.slice.isArguments = false := by
  unfold slice
  split
  · rfl
  · rename_i h
    rcases v with _ | _ | _ | _ | _ | ⟨id, kind, fields⟩
    all_goals try rfl
    rcases kind with _ | _ | _ | _ | length
    all_goals try rfl
    exact absurd rfl (h id length fields)

end Value

open Value

/-! ## The comparison -/

/-- What is to be done if both values are of a class, and what otherwise. -/
def ifBoth {α β : Type} (x y : Option α) (f : α → α → β) (r : β) : β :=
  match x, y with
  | some x, some y => f x y
  | _, _ => r

/-- `keys.sort()` -/
def sort (keys : List JSString) : List JSString := keys.mergeSort fun s t ↦ s ≤ t

variable (d : Doubles)

mutual

/-- `_deepEqual` -/
def deepEqual (actual expected : Value) : Bool :=
  if identical actual expected then true
  else
    ifBoth actual.bytes expected.bytes (fun b b' ↦ b = b') <|
      ifBoth actual.time expected.time numberEq <|
        if !actual.typeofObject && !expected.typeofObject then looseEqual d actual expected
        else objEquiv actual expected
termination_by 4 * actual.height + 2 * actual.isArguments.toNat + 1
decreasing_by omega

def objEquiv (a b : Value) : Bool :=
  if a.isUndefinedOrNull || b.isUndefinedOrNull then false
  else if !identical (a.get (js "prototype")) (b.get (js "prototype")) then false
  else if a.isArguments then
    if !b.isArguments then false else deepEqual a.slice b.slice
  else
    match a.keys, b.keys with
    | some ka, some kb =>
      if ka.length ≠ kb.length then false
      else
        let ka := sort ka
        let kb := sort kb
        if ka ≠ kb then false
        else ka.reverse.all fun key ↦ deepEqual (a.get key) (b.get key)
    | _, _ => false
termination_by 4 * a.height + 2 * a.isArguments.toNat
decreasing_by
  · have hheight := height_slice_le a
    rw [isArguments_slice, ‹a.isArguments = true›, Bool.toNat_true, Bool.toNat_false]
    omega
  · have hor := ‹¬(a.isUndefinedOrNull || b.isUndefinedOrNull) = true›
    have hnot : a.isUndefinedOrNull = false := by
      rw [Bool.or_eq_true, not_or, Bool.not_eq_true] at hor
      exact hor.1
    have hheight := height_get_lt key hnot
    have hflag := Bool.toNat_le (a.get key).isArguments
    omega

end

/-! ## Pairs that are met -/

/-- What is found without looking at properties. -/
def verdict (x y : Value) : Option Bool :=
  if identical x y then some true
  else
    ifBoth x.bytes y.bytes (fun b b' ↦ some (b = b')) <|
      ifBoth x.time y.time (fun t t' ↦ some (numberEq t t')) <|
        if !x.typeofObject && !y.typeofObject then some (looseEqual d x y)
        else if x.keys.isSome && y.keys.isSome then none
        else some false

/-- The objects whose properties are compared. -/
def compared (x y : Value) : Value × Value :=
  if x.isArguments && y.isArguments then (x.slice, y.slice) else (x, y)

/-- The names of the properties of an object. -/
def names (v : Value) : List JSString := v.keys.getD []

/-- The two have the same keys and the same `prototype`. -/
def SameShape (x y : Value) : Prop :=
  identical (x.get (js "prototype")) (y.get (js "prototype")) = true ∧
    sort (names (compared x y).1) = sort (names (compared x y).2)

/-- The two values agree, whatever is in their properties. -/
def Agree (x y : Value) : Prop :=
  match verdict d x y with
  | some r => r = true
  | none => SameShape x y

/-- An arguments object on the left has one on the right. -/
def Covers (x y : Value) : Prop :=
  verdict d x y = none → x.isArguments = true → y.isArguments = true

/-- The comparison of `a` with `b` meets the pair of `x` and `y`. -/
inductive Meets (a b : Value) : Value → Value → Prop
  | refl : Meets a b a b
  | step {x y : Value} {key : JSString} (h : Meets a b x y) (hverdict : verdict d x y = none)
      (hx : key ∈ names (compared x y).1) (hy : key ∈ names (compared x y).2) :
      Meets a b ((compared x y).1.get key) ((compared x y).2.get key)

theorem apply_ifBoth {α β γ : Type} (g : β → γ) (x y : Option α) (f : α → α → β) (r : β) :
    g (ifBoth x y f r) = ifBoth x y (fun a b ↦ g (f a b)) (g r) := by
  rcases x with _ | x
  · rfl
  · rcases y with _ | y
    · rfl
    · rfl

theorem eq_of_ifBoth_eq {α β : Type} {x y : Option α} {f : α → α → β} {r c : β}
    (hf : ∀ a b, f a b ≠ c) (h : ifBoth x y f r = c) : r = c := by
  rcases x with _ | x
  · exact h
  · rcases y with _ | y
    · exact h
    · exact absurd h (hf x y)

theorem ifBoth_comm {α β : Type} {x y : Option α} {f : α → α → β} {r : β}
    (hf : ∀ a b, f a b = f b a) : ifBoth x y f r = ifBoth y x f r := by
  rcases x with _ | x
  · rcases y with _ | y
    · rfl
    · rfl
  · rcases y with _ | y
    · rfl
    · exact hf x y

variable {d} {a b x y : Value} {key : JSString}

/-! ### One pair -/

theorem mem_sort {l : List JSString} : key ∈ sort l ↔ key ∈ l := List.mem_mergeSort

theorem keys_of_isArguments (h : x.isArguments = true) : x.keys = some (names x) := by
  rcases x with _ | _ | _ | _ | _ | ⟨id, kind, fields⟩
  all_goals first
    | cases h
    | rfl

theorem objEquiv_eq_false (h : (x.keys.isSome && y.keys.isSome) = false) :
    objEquiv d x y = false := by
  rw [objEquiv]
  split_ifs with hnull hprototype harguments hy
  · rfl
  · rfl
  · rfl
  · rw [keys_of_isArguments harguments, keys_of_isArguments (by simpa using hy)] at h
    cases h
  · rcases hx : x.keys with _ | kx
    · rfl
    · rcases hy : y.keys with _ | ky
      · rfl
      · rw [hx, hy] at h
        cases h

/-- What a comparison gives is the verdict, or what is found in the properties. -/
theorem deepEqual_eq : deepEqual d x y = (verdict d x y).getD (objEquiv d x y) := by
  have hrest : (if !x.typeofObject && !y.typeofObject then looseEqual d x y else objEquiv d x y) =
      (if !x.typeofObject && !y.typeofObject then some (looseEqual d x y)
        else if x.keys.isSome && y.keys.isSome then none
        else some false).getD (objEquiv d x y) := by
    split_ifs with _ hkeys
    · rfl
    · rfl
    · exact objEquiv_eq_false (eq_false_of_ne_true hkeys)
  rw [deepEqual, verdict]
  by_cases hid : identical x y = true
  · rw [if_pos hid, if_pos hid]
    rfl
  · rw [if_neg hid, if_neg hid, apply_ifBoth (Option.getD · (objEquiv d x y)),
      apply_ifBoth (Option.getD · (objEquiv d x y)), ← hrest]
    rfl

theorem keys_eq_names (h : x.keys.isSome = true) : x.keys = some (names x) := by
  obtain ⟨l, hl⟩ := Option.isSome_iff_exists.mp h
  rw [names, hl]
  rfl

/-- Properties are looked at only in objects. -/
theorem keys_of_verdict (h : verdict d x y = none) :
    x.keys = some (names x) ∧ y.keys = some (names y) := by
  rw [verdict] at h
  by_cases hid : identical x y = true
  · rw [if_pos hid] at h
    cases h
  rw [if_neg hid] at h
  have hrest := eq_of_ifBoth_eq (fun _ _ ↦ Option.some_ne_none _)
    (eq_of_ifBoth_eq (fun _ _ ↦ Option.some_ne_none _) h)
  split_ifs at hrest with htypes hkeys
  rw [Bool.and_eq_true] at hkeys
  exact ⟨keys_eq_names hkeys.1, keys_eq_names hkeys.2⟩

theorem isUndefinedOrNull_of_keys (h : x.keys = some (names x)) : x.isUndefinedOrNull = false := by
  rcases x with _ | _ | _ | _ | _ | ⟨id, kind, fields⟩
  all_goals first
    | rfl
    | cases h

/-- `sort` keeps the number of the keys. -/
theorem length_eq_of_sort {l l' : List JSString} (h : sort l = sort l') : l.length = l'.length := by
  rw [← List.length_mergeSort l, ← List.length_mergeSort l']
  exact congrArg List.length h

theorem objEquiv_of_object (hx : x.keys = some (names x)) (hy : y.keys = some (names y))
    (harguments : x.isArguments = false) :
    objEquiv d x y = true ↔
      identical (x.get (js "prototype")) (y.get (js "prototype")) = true ∧
        sort (names x) = sort (names y) ∧
          ∀ key ∈ names x, deepEqual d (x.get key) (y.get key) = true := by
  rw [objEquiv, isUndefinedOrNull_of_keys hx, isUndefinedOrNull_of_keys hy, harguments, hx, hy]
  by_cases hprototype : identical (x.get (js "prototype")) (y.get (js "prototype")) = true
  · by_cases hsort : sort (names x) = sort (names y)
    · have hlength : ¬(names x).length ≠ (names y).length :=
        not_not.mpr (length_eq_of_sort hsort)
      simp [hprototype, hsort, hlength, ← mem_sort (l := names x)]
    · -- the keys differ in number, or later
      simp [hprototype, hsort]
  · simp [hprototype]

theorem names_slice (h : x.isArguments = true) : x.slice.keys = some (names x.slice) := by
  rcases x with _ | _ | _ | _ | _ | ⟨id, _ | _ | _ | _ | length, fields⟩
  all_goals first
    | rfl
    | cases h

/-- A copy has none but indices. -/
theorem get_prototype_slice (h : x.isArguments = true) :
    x.slice.get (js "prototype") = .undefined := by
  rcases x with _ | _ | _ | _ | _ | ⟨id, _ | _ | _ | _ | length, fields⟩
  all_goals try cases h
  show (List.lookup (js "prototype") _).getD Value.undefined = _
  rw [List.lookup_eq_none_iff.mpr fun f hf ↦ ?_]
  · rfl
  · obtain ⟨i, -, hi⟩ := List.mem_filterMap.mp hf
    obtain ⟨v, -, rfl⟩ := Option.map_eq_some_iff.mp hi
    refine bne_iff_ne.mpr fun heq ↦ ?_
    have hp : (0x70 : UInt16) ∈ js "prototype" := by decide
    rw [heq] at hp
    exact absurd (isDigit_of_mem_decimal hp) (by decide)

theorem deepEqual_slice (hx : x.isArguments = true) (hy : y.isArguments = true) :
    deepEqual d x.slice y.slice = true ↔
      sort (names x.slice) = sort (names y.slice) ∧
        ∀ key ∈ names x.slice, deepEqual d (x.slice.get key) (y.slice.get key) = true := by
  have hverdict : verdict d x.slice y.slice = none := by
    rcases x with _ | _ | _ | _ | _ | ⟨id, _ | _ | _ | _ | length, fields⟩
    all_goals try cases hx
    rcases y with _ | _ | _ | _ | _ | ⟨id', _ | _ | _ | _ | length', fields'⟩
    all_goals try cases hy
    rfl
  rw [deepEqual_eq, hverdict, Option.getD_none,
    objEquiv_of_object (names_slice hx) (names_slice hy) (isArguments_slice x),
    get_prototype_slice hx, get_prototype_slice hy]
  exact and_iff_right rfl

theorem objEquiv_of_arguments (hx : x.isArguments = true) (hy : y.keys = some (names y)) :
    objEquiv d x y = true ↔
      identical (x.get (js "prototype")) (y.get (js "prototype")) = true ∧
        y.isArguments = true ∧ deepEqual d x.slice y.slice = true := by
  rw [objEquiv, isUndefinedOrNull_of_keys (keys_of_isArguments hx), isUndefinedOrNull_of_keys hy,
    hx]
  simp

/-- **One pair**: it is compared as such, and then the pairs below it. -/
theorem deepEqual_iff_step :
    deepEqual d x y = true ↔ Agree d x y ∧ Covers d x y ∧
      (verdict d x y = none → ∀ key ∈ names (compared x y).1, key ∈ names (compared x y).2 →
        deepEqual d ((compared x y).1.get key) ((compared x y).2.get key) = true) := by
  rw [deepEqual_eq, Agree, Covers]
  rcases hv : verdict d x y with _ | r
  · have hmem {v w : Value} (h : sort (names v) = sort (names w)) (key : JSString)
        (hkey : key ∈ names v) : key ∈ names w := mem_sort.mp (h ▸ mem_sort.mpr hkey)
    obtain ⟨hkx, hky⟩ := keys_of_verdict hv
    rw [Option.getD_none]
    show _ ↔ SameShape x y ∧ _
    rw [SameShape]
    by_cases hx : x.isArguments = true
    · rw [objEquiv_of_arguments hx hky]
      by_cases hy : y.isArguments = true
      · have hcompared : compared x y = (x.slice, y.slice) := by rw [compared, hx, hy]; rfl
        rw [hcompared, deepEqual_slice hx hy]
        constructor
        · rintro ⟨hprototype, -, hsort, h⟩
          exact ⟨⟨hprototype, hsort⟩, fun _ _ ↦ hy, fun _ key hkey _ ↦ h key hkey⟩
        · rintro ⟨⟨hprototype, hsort⟩, -, h⟩
          exact ⟨hprototype, hy, hsort, fun key hkey ↦ h rfl key hkey (hmem hsort key hkey)⟩
      · exact iff_of_false (fun h ↦ hy h.2.1) fun h ↦ hy (h.2.1 rfl hx)
    · have hcompared : compared x y = (x, y) := by
        rw [compared, eq_false_of_ne_true hx]
        rfl
      rw [hcompared, objEquiv_of_object hkx hky (eq_false_of_ne_true hx)]
      constructor
      · rintro ⟨hprototype, hsort, h⟩
        exact ⟨⟨hprototype, hsort⟩, fun _ hx' ↦ absurd hx' hx, fun _ key hkey _ ↦ h key hkey⟩
      · rintro ⟨⟨hprototype, hsort⟩, -, h⟩
        exact ⟨hprototype, hsort, fun key hkey ↦ h rfl key hkey (hmem hsort key hkey)⟩
  · simp

/-! ### All pairs -/

theorem Meets.trans {x' y' : Value} (h : Meets d a b x y) (h' : Meets d x y x' y') :
    Meets d a b x' y' := by
  induction h' with
  | refl => exact h
  | step _ hverdict hx hy ih => exact ih.step hverdict hx hy

/-- Equality is passed on to the pairs that are met. -/
theorem Meets.deepEqual (h : Meets d a b x y) (heq : deepEqual d a b = true) :
    Assert.deepEqual d x y = true := by
  induction h with
  | refl => exact heq
  | step _ hverdict hx hy ih => exact (deepEqual_iff_step.mp ih).2.2 hverdict _ hx hy

theorem numberEq_comm (x y : Number) : numberEq x y = numberEq y x := by
  rw [numberEq, numberEq, decide_eq_decide]
  constructor
  · rintro ⟨hx, rfl⟩
    exact ⟨hx, rfl⟩
  · rintro ⟨hy, rfl⟩
    exact ⟨hy, rfl⟩

theorem identical_comm (x y : Value) : identical x y = identical y x := by
  have hid (i j : Option ℕ) : (i.isSome && decide (i = j)) = (j.isSome && decide (j = i)) := by
    by_cases h : i = j
    · rw [h]
    · rw [decide_eq_false h, decide_eq_false (Ne.symm h), Bool.and_false, Bool.and_false]
  rcases x with _ | _ | _ | _ | _ | ⟨i, kind, fields⟩ <;>
    rcases y with _ | _ | _ | _ | _ | ⟨j, kind', fields'⟩
  all_goals first
    | rfl
    | exact numberEq_comm _ _
    | exact decide_eq_decide.mpr eq_comm
    | exact hid i j

/-- `==` is equality of strings for two strings, and of numbers for other values. -/
theorem looseEqual_comm (x y : Value) : looseEqual d x y = looseEqual d y x := by
  rcases x with _ | _ | _ | _ | _ | _ <;> rcases y with _ | _ | _ | _ | _ | _
  all_goals first
    | rfl
    | exact numberEq_comm _ _
    | exact decide_eq_decide.mpr eq_comm

theorem verdict_comm (x y : Value) : verdict d x y = verdict d y x := by
  rw [verdict, verdict, identical_comm, looseEqual_comm, Bool.and_comm,
    Bool.and_comm x.keys.isSome, ifBoth_comm (x := x.bytes), ifBoth_comm (x := x.time)]
  · exact fun t t' ↦ congrArg some (numberEq_comm t t')
  · exact fun b b' ↦ congrArg some (decide_eq_decide.mpr eq_comm)

theorem compared_comm (x y : Value) : compared y x = (compared x y).swap := by
  rw [compared, compared, Bool.and_comm]
  split_ifs
  · rfl
  · rfl

theorem Meets.symm (h : Meets d a b x y) : Meets d b a y x := by
  induction h with
  | refl => exact .refl
  | @step x y key _ hverdict hx hy ih =>
    have hcompared := compared_comm x y
    have hx' : key ∈ names (compared y x).2 := by rwa [hcompared]
    have hy' : key ∈ names (compared y x).1 := by rwa [hcompared]
    have hstep := ih.step ((verdict_comm y x).trans hverdict) hy' hx'
    rwa [hcompared] at hstep

theorem Agree.symm (h : Agree d x y) : Agree d y x := by
  rw [Agree] at h ⊢
  rw [verdict_comm]
  rcases hv : verdict d x y with _ | r
  · rw [hv] at h
    show SameShape y x
    rw [SameShape, identical_comm, compared_comm]
    exact ⟨h.1, h.2.symm⟩
  · rwa [hv] at h

end SpiderNode.Assert
