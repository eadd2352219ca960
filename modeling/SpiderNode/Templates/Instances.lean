import SpiderNode.Machine.Runs
import SpiderNode.Templates.Heap

/-!
# Instances of function templates

A program makes templates, fills them, and uses the functions and the objects that are built by
them. It does with the objects what it likes, as long as it has got them: a script never has an
`InternalObject`, and neither has a program that does not ask a function for its internal field.

`Heap.Sound` is what is kept, by every step of such a program: whatever a script can reach leads to
nothing internal. Templates may have any attributes, objects and templates, and the heap only grows
(`Heap.Grows`), so the loops over the attributes need to know nothing about one another.
-/

namespace SpiderNode.Templates

open Objects (Value Property Properties Object)

/-! ## Programs -/

/-- A function was called as a constructor. -/
structure Construction where
  function : ℕ
  object : ℕ
  /-- The `prototype` property of the function was the one that `GetFunction` had left. -/
  unchanged : Bool

structure State where
  heap : Heap
  made : List Construction
  /-- The functions of which the program has changed the `prototype` property. -/
  changed : List ℕ

inductive Event where
  | newFunctionTemplate
  | newObjectTemplate
  | setTemplate (t : ℕ) (n : JSString) (q : Property)
  | setPrototype (t p : ℕ)
  | setClassName (t : ℕ) (name : JSString)
  | inherit (t parent : ℕ)
  | getFunction (t : ℕ)
  | newInstance (t : ℕ)
  | construct (f : ℕ)
  | createObject (p : Option ℕ)
  | createFunction (name : JSString)
  /-- A property is assigned, defined anew or deleted. -/
  | write (o : ℕ) (n : JSString) (q : Option Property)
  | setProto (o : ℕ) (p : Option ℕ)

/-- The object that a value is. -/
def reference : Value → Option ℕ
  | .object a => some a
  | _ => none

namespace Heap

/-- Whether an object is an `InternalObject`. -/
def internal (h : Heap) (o : ℕ) : Option Bool := h[o]?.map fun c ↦ c.kind.internal

/-- A script can have the object. -/
def Visible (h : Heap) (o : ℕ) : Prop := h.internal o = some false

instance (h : Heap) (o : ℕ) : Decidable (h.Visible o) := inferInstanceAs (Decidable (_ = _))

def IsFunctionTemplate (h : Heap) (t : ℕ) : Prop := (h.functionData t).isSome = true

def IsObjectTemplate (h : Heap) (t : ℕ) : Prop := (h.objectData t).isSome = true

instance (h : Heap) (t : ℕ) : Decidable (h.IsFunctionTemplate t) :=
  inferInstanceAs (Decidable (_ = _))

instance (h : Heap) (t : ℕ) : Decidable (h.IsObjectTemplate t) :=
  inferInstanceAs (Decidable (_ = _))

end Heap

def Event.Allowed (h : Heap) : Event → Prop
  | newFunctionTemplate | newObjectTemplate | construct _ | createFunction _ => True
  | setTemplate t _ q => h.internal t = some true ∧ ∀ a ∈ reference q.value, a < h.length
  | setPrototype t p => h.IsObjectTemplate t ∧ h.IsObjectTemplate p
  | inherit t p => h.IsFunctionTemplate t ∧ h.IsFunctionTemplate p
  | setClassName t _ | getFunction t => h.IsFunctionTemplate t
  | newInstance t => h.IsObjectTemplate t
  | createObject p => ∀ a ∈ p, h.Visible a
  | write o _ q => h.Visible o ∧ ∀ a ∈ q.bind fun q ↦ reference q.value, h.Visible a
  | setProto o p => h.Visible o ∧ ∀ a ∈ p, h.Visible a

instance (h : Heap) : (e : Event) → Decidable (e.Allowed h)
  | .newFunctionTemplate | .newObjectTemplate | .construct _ | .createFunction _ =>
    inferInstanceAs (Decidable True)
  | .setTemplate .. | .setPrototype .. | .inherit .. | .write .. | .setProto .. =>
    inferInstanceAs (Decidable (_ ∧ _))
  | .setClassName t _ | .getFunction t => inferInstanceAs (Decidable (h.IsFunctionTemplate t))
  | .newInstance t => inferInstanceAs (Decidable (h.IsObjectTemplate t))
  | .createObject p => inferInstanceAs (Decidable (∀ a ∈ p, h.Visible a))

/-- The heap after an event, and the object that is the result, if there is one. -/
def Event.apply (E : Engine) (h : Heap) : Event → Option (Option ℕ × Heap)
  | newFunctionTemplate => some (none, h.newFunctionTemplate)
  | newObjectTemplate => some (none, h.newObjectTemplate)
  | setTemplate t n q => some (none, h.setTemplate t n q)
  | setPrototype t p => some (none, h.setPrototype t p)
  | setClassName t name => some (none, h.setClassName t name)
  | inherit t parent => some (none, h.inherit t parent)
  | getFunction t => (h.getFunction E E.frames t).map fun r ↦ (some r.1, r.2)
  | newInstance t => (h.newInstance E E.frames t).map fun r ↦ (some r.1, r.2)
  | construct f => (h.construct E f).map fun r ↦ (some r.1, r.2)
  | createObject p => some (none, h ++ [⟨.object, fun _ ↦ none, p⟩])
  | createFunction name =>
    some (none, h ++ [⟨.function name none, fun _ ↦ none, some builtinFunction⟩])
  | write o n q =>
    some (none, h.modify o fun c ↦ { c with own := Function.update c.own n q })
  | setProto o p => some (none, h.setProto o p)

/-- The function that is called as a constructor. -/
def Event.constructor : Event → Option ℕ
  | construct f => some f
  | _ => none

/-- The object of which the `prototype` property is changed. -/
def Event.changes (h : Heap) : Event → Option ℕ
  | write o n q =>
    if n = js "prototype" ∧ q.map Property.value ≠ (h.own o n).map Property.value then some o
    else none
  | _ => none

/-- Programs that make and use templates. -/
def machine (E : Engine) : Machine State Event Unit where
  guard s e := e.Allowed s.heap
  step s e :=
    match e.apply E s.heap with
    | some (r, h) =>
      let made := e.constructor.bind fun f ↦ r.map fun o ↦
        (⟨f, o, f ∉ s.changed⟩ : Construction)
      .ok ⟨h, made.toList ++ s.made, (e.changes s.heap).toList ++ s.changed⟩
    | none => .error ()

instance (E : Engine) (s : State) (e : Event) : Decidable ((machine E).guard s e) :=
  inferInstanceAs (Decidable (e.Allowed s.heap))

/-- Before there are any templates. -/
def start : State where
  heap := [⟨.object, fun _ ↦ none, none⟩, ⟨.function [] none, fun _ ↦ none, some builtinObject⟩,
    ⟨.object, fun _ ↦ none, some builtinObject⟩]
  made := []
  changed := []

/-- The object was created by calling the template's function as a constructor, with the
function's `prototype` property unchanged. -/
def State.Created (s : State) (t o : ℕ) : Prop :=
  ∃ c ∈ s.made, c.object = o ∧ c.unchanged = true ∧
    (s.heap.functionData t).bind FunctionData.cachedFunction = some c.function

namespace Heap

/-! ## Growing -/

variable {h h' h'' : Heap} {c : Cell} {o p t : ℕ} {n : JSString} {v : Value} {q : Property}

/-- No object is lost, and none becomes or ceases to be internal. -/
def Extends (h h' : Heap) : Prop := ∀ o b, h.internal o = some b → h'.internal o = some b

theorem Extends.refl (h : Heap) : Extends h h := fun _ _ hb ↦ hb

theorem Extends.trans (hx : Extends h h') (hx' : Extends h' h'') : Extends h h'' :=
  fun o b hb ↦ hx' o b (hx o b hb)

theorem internal_isSome : (h.internal o).isSome ↔ o < h.length := by
  simp [internal]

theorem Extends.length_le (hx : Extends h h') {o : ℕ} (ho : o < h.length) : o < h'.length := by
  obtain ⟨b, hb⟩ := Option.isSome_iff_exists.mp (internal_isSome.mpr ho)
  exact internal_isSome.mp (by rw [hx o b hb]; rfl)

theorem Extends.visible (hx : Extends h h') (ho : h.Visible o) : h'.Visible o := hx o false ho

theorem extends_append (h : Heap) (l : List Cell) : Extends h (h ++ l) := by
  intro o b hb
  have ho : o < h.length := internal_isSome.mp (by rw [hb]; rfl)
  rwa [internal, List.getElem?_append_left ho]

theorem internal_modify {f : Cell → Cell}
    (hf : ∀ c, h[o]? = some c → (f c).kind.internal = c.kind.internal) (p : ℕ) :
    Heap.internal (h.modify o f) p = h.internal p := by
  rw [internal, internal, List.getElem?_modify]
  cases hc : h[p]? with
  | none => rfl
  | some c =>
    by_cases hp : o = p
    · subst hp
      simp [hf c hc]
    · simp [hp]

theorem extends_modify {f : Cell → Cell}
    (hf : ∀ c, h[o]? = some c → (f c).kind.internal = c.kind.internal) :
    Extends h (h.modify o f) :=
  fun p _ hb ↦ (internal_modify hf p).trans hb

/-! ## What a script can reach -/

/-- What a cell leads to. -/
structure CellSound (h : Heap) (c : Cell) : Prop where
  proto : c.kind.internal = false → ∀ p ∈ c.proto, h.Visible p
  own : c.kind.internal = false → ∀ n, ∀ q ∈ c.own n, ∀ a ∈ reference q.value, h.Visible a
  attributes : ∀ x ∈ c.kind.attributes, ∀ a ∈ reference x.value, a < h.length
  cachedFunction : ∀ f ∈ c.kind.cachedFunction, h.Visible f

/-- What is visible leads to visible objects only. -/
structure Sound (h : Heap) : Prop where
  cell : ∀ (o : ℕ) (c : Cell), h[o]? = some c → CellSound h c
  builtinObject : h.Visible builtinObject
  builtinFunction : h.Visible builtinFunction
  globalObject : h.Visible globalObject

/-- The heap has grown and is sound. -/
structure Grows (h h' : Heap) : Prop where
  ext : Extends h h'
  sound : Sound h'

theorem Grows.trans (hg : Grows h h') (hg' : Grows h' h'') : Grows h h'' :=
  ⟨hg.ext.trans hg'.ext, hg'.sound⟩

theorem CellSound.mono (hc : CellSound h c) (hx : Extends h h') : CellSound h' c where
  proto hk p hp := hx.visible (hc.proto hk p hp)
  own hk n q hq a ha := hx.visible (hc.own hk n q hq a ha)
  attributes x hm a ha := hx.length_le (hc.attributes x hm a ha)
  cachedFunction f hf := hx.visible (hc.cachedFunction f hf)

theorem Sound.grows (hs : Sound h) (hx : Extends h h')
    (hc : ∀ (o : ℕ) (c : Cell), h'[o]? = some c → CellSound h c) : Grows h h' where
  ext := hx
  sound :=
    { cell := fun o c hoc ↦ (hc o c hoc).mono hx
      builtinObject := hx.visible hs.builtinObject
      builtinFunction := hx.visible hs.builtinFunction
      globalObject := hx.visible hs.globalObject }

theorem Sound.grows_append (hs : Sound h) (hc : CellSound h c) : Grows h (h ++ [c]) := by
  refine hs.grows (extends_append h [c]) fun o d hd ↦ ?_
  rcases Nat.lt_or_ge o h.length with ho | ho
  · rw [List.getElem?_append_left ho] at hd
    exact hs.cell o d hd
  · rw [List.getElem?_append_right ho] at hd
    obtain rfl : d = c := by simpa using List.mem_of_getElem? hd
    exact hc

theorem Sound.grows_modify (hs : Sound h) {f : Cell → Cell}
    (hk : ∀ c, h[o]? = some c → (f c).kind.internal = c.kind.internal)
    (hf : ∀ c, h[o]? = some c → CellSound h (f c)) : Grows h (h.modify o f) := by
  refine hs.grows (extends_modify hk) fun p d hd ↦ ?_
  rw [List.getElem?_modify] at hd
  obtain ⟨c, hc, rfl⟩ := Option.map_eq_some_iff.mp hd
  by_cases hp : o = p
  · subst hp
    simpa using hf c hc
  · simpa [hp] using hs.cell p c hc

/-! ## Reading -/

theorem Visible.exists_cell (ho : h.Visible o) :
    ∃ c, h[o]? = some c ∧ c.kind.internal = false := Option.map_eq_some_iff.mp ho

theorem Sound.proto_visible (hs : Sound h) (ho : h.Visible o) : ∀ p ∈ h.proto o, h.Visible p := by
  intro p hp
  obtain ⟨c, hc, hk⟩ := ho.exists_cell
  rw [proto, hc] at hp
  exact (hs.cell o c hc).proto hk p hp

theorem Sound.own_visible (hs : Sound h) (ho : h.Visible o) :
    ∀ n, ∀ q ∈ h.own o n, ∀ a ∈ reference q.value, h.Visible a := by
  intro n q hq
  obtain ⟨c, hc, hk⟩ := ho.exists_cell
  rw [own, hc] at hq
  exact (hs.cell o c hc).own hk n q hq

theorem Sound.chain_visible (hs : Sound h) (k : ℕ) {r : Option ℕ} (hr : ∀ p ∈ r, h.Visible p) :
    ∀ x ∈ h.chain k r, h.Visible x := by
  induction k generalizing r with
  | zero => simp [chain]
  | succ k ih =>
    cases r with
    | none => simp [chain]
    | some p =>
      have hp : h.Visible p := hr p rfl
      intro x hx
      rw [chain, List.mem_cons] at hx
      rcases hx with rfl | hx
      · exact hp
      · exact ih (hs.proto_visible hp) x hx

/-- What is read from a visible object is visible. -/
theorem Sound.get_visible (hs : Sound h) (ho : h.Visible o) (n : JSString) :
    ∀ a ∈ reference (h.get o n), h.Visible a := by
  intro a ha
  rw [get, Object.getProperty] at ha
  cases hl : (h.object o).lookup n with
  | none =>
    rw [hl] at ha
    cases ha
  | some q =>
    rw [hl] at ha
    rcases Option.or_eq_some_iff.mp hl with hq | ⟨-, hq⟩
    · exact hs.own_visible ho n q hq a ha
    · obtain ⟨own, hown, hq⟩ := List.exists_of_findSome?_eq_some hq
      obtain ⟨x, hx, rfl⟩ := List.mem_map.mp hown
      have hvis := hs.chain_visible h.length (hs.proto_visible ho) x hx
      exact hs.own_visible hvis n q hq a ha

theorem Sound.classPrototype_visible (hs : Sound h) (className : JSString) :
    h.Visible (h.classPrototype className) := by
  have hget := hs.get_visible hs.globalObject className
  unfold classPrototype
  split
  · rename_i f hf
    have hvis : h.Visible f := hget f (by rw [hf]; rfl)
    split_ifs
    · have hproto := hs.get_visible hvis (js "prototype")
      split
      · rename_i p hp
        exact hproto p (by rw [hp]; rfl)
      · exact hs.builtinObject
    · exact hvis
  · exact hs.builtinObject

/-! ## Writing -/

/-- A property that has been stored has the value that was given, or one that was there. -/
theorem value_of_mem_store {x : Object} {q' : Property} {n' : JSString}
    (hq : q' ∈ (x.store n q).own n') :
    q'.value = q.value ∨ ∃ q'' ∈ x.own n', q''.value = q'.value := by
  by_cases hn : n' = n
  · subst hn
    unfold Object.store Object.setProperty at hq
    cases hx : x.own n' with
    | none =>
      left
      simp only [hx] at hq
      split_ifs at hq <;> simp_all [Object.setPropertyAttributes]
      all_goals (subst hq; rfl)
    | some p =>
      simp only [hx] at hq
      split_ifs at hq
      · right
        simp only [Object.setPropertyAttributes, hx, Object.own_put_self] at hq
        cases hq
        exact ⟨p, rfl, rfl⟩
      · left
        simp only [Object.setPropertyAttributes, Object.own_put_self] at hq
        cases hq
        rfl
  · rw [(Object.sameAt_store hn).1] at hq
    exact .inr ⟨q', hq, rfl⟩

theorem visible_of_getElem? (hc : h[o]? = some c) (hk : c.kind.internal = false) : h.Visible o := by
  rw [Visible, internal, hc, Option.map_some, hk]

/-- A visible object has to get a visible prototype. -/
theorem Sound.grows_setProto (hs : Sound h) {r : Option ℕ}
    (hr : h.Visible o → ∀ p ∈ r, h.Visible p) : Grows h (h.setProto o r) := by
  refine hs.grows_modify (fun _ _ ↦ rfl) fun c hc ↦ ?_
  have hcell := hs.cell o c hc
  exact ⟨fun hk ↦ hr (visible_of_getElem? hc hk), hcell.own, hcell.attributes, hcell.cachedFunction⟩

theorem Sound.grows_set (hs : Sound h) (hv : h.Visible o → ∀ a ∈ reference q.value, h.Visible a) :
    Grows h (h.set o n q) := by
  unfold set
  split_ifs
  · split
    · rename_i p hp
      split_ifs
      · exact ⟨.refl h, hs⟩
      · refine hs.grows_setProto fun ho a ha ↦ hv ho a ?_
        rwa [hp]
    · exact hs.grows_setProto fun _ p hp ↦ by cases hp
    · exact ⟨.refl h, hs⟩
  · refine hs.grows_modify (fun _ _ ↦ rfl) fun c hc ↦ ?_
    have hcell := hs.cell o c hc
    refine ⟨hcell.proto, fun hk n' q' hq' a ha ↦ ?_, hcell.attributes, hcell.cachedFunction⟩
    have ho := visible_of_getElem? hc hk
    rcases value_of_mem_store hq' with heq | ⟨q'', hq'', heq⟩
    · exact hv ho a (heq ▸ ha)
    · exact hs.own_visible ho n' q'' hq'' a (heq ▸ ha)

/-! ## Templates -/

theorem hook_spec (n : JSString) (v : Value) (c : Cell) :
    (hook n v c).2.kind.internal = c.kind.internal ∧
      (hook n v c).2.kind.cachedFunction = c.kind.cachedFunction ∧
      ∀ x ∈ (hook n v c).2.kind.attributes, x ∈ c.kind.attributes ∨ x.value = v := by
  unfold hook
  cases hk : c.kind with
  | functionTemplate d | objectTemplate d =>
    refine ⟨rfl, rfl, fun x hx ↦ ?_⟩
    rcases List.mem_append.mp hx with hx | hx
    · exact .inl (List.mem_of_mem_filter hx)
    · right
      rw [List.mem_singleton.mp hx]
  | object | function | instanceOf =>
    exact ⟨by rw [hk], by rw [hk], fun x hx ↦ .inl (by simpa [hk] using hx)⟩

theorem Sound.grows_setTemplate (hs : Sound h) (ht : h.internal t = some true)
    (hv : ∀ a ∈ reference q.value, a < h.length) : Grows h (h.setTemplate t n q) := by
  have hvis : ¬h.Visible t := by simp [Visible, ht]
  unfold setTemplate
  split_ifs with hproto haccepts
  · exact hs.grows_set fun ho ↦ absurd ho hvis
  · have hint (c : Cell) (hc : h[t]? = some c) : (hook n q.value c).2.kind.internal ≠ false :=
      fun hk ↦ hvis (visible_of_getElem? hc ((hook_spec n q.value c).1 ▸ hk))
    refine hs.grows_modify (fun c _ ↦ (hook_spec n q.value c).1) fun c hc ↦ ?_
    obtain ⟨-, hcached, hattr⟩ := hook_spec n q.value c
    have hcell := hs.cell t c hc
    refine ⟨fun hk ↦ absurd hk (hint c hc), fun hk ↦ absurd hk (hint c hc), fun x hx a ha ↦ ?_,
      fun f hf ↦ hcell.cachedFunction f (hcached ▸ hf)⟩
    rcases hattr x hx with hx | hx
    · exact hcell.attributes x hx a ha
    · exact hv a (hx ▸ ha)
  · refine hs.grows_modify (fun _ _ ↦ rfl) fun c hc ↦ ?_
    have hcell := hs.cell t c hc
    have hint : c.kind.internal ≠ false := fun hk ↦ hvis (visible_of_getElem? hc hk)
    exact ⟨hcell.proto, fun hk ↦ absurd hk hint, hcell.attributes, hcell.cachedFunction⟩

theorem Sound.grows_modifyFunctionData (hs : Sound h) {f : FunctionData → FunctionData}
    (ha : ∀ d, (f d).attributes = d.attributes)
    (hc : ∀ d, ∀ x ∈ (f d).cachedFunction, d.cachedFunction = some x ∨ h.Visible x) :
    Grows h (h.modifyFunctionData t f) := by
  refine hs.grows_modify (fun c _ ↦ ?_) fun c hoc ↦ ?_
  · cases hk : c.kind <;> simp [hk, Kind.internal]
  · have hcell := hs.cell t c hoc
    cases hk : c.kind with
    | functionTemplate d =>
      refine ⟨nofun, nofun, fun x hx ↦ ?_, fun x hx ↦ ?_⟩
      · exact hcell.attributes x (by simpa [hk, Kind.attributes, ha] using hx)
      · rcases hc d x hx with hx | hx
        · exact hcell.cachedFunction x (by rw [hk]; exact hx)
        · exact hx
    | object | function | instanceOf | objectTemplate => simpa [hk] using hcell

theorem Sound.grows_modifyObjectData (hs : Sound h) {f : ObjectData → ObjectData}
    (ha : ∀ d, (f d).attributes = d.attributes) : Grows h (h.modifyObjectData t f) := by
  refine hs.grows_modify (fun c _ ↦ ?_) fun c hoc ↦ ?_
  · cases hk : c.kind <;> simp [hk, Kind.internal]
  · have hcell := hs.cell t c hoc
    cases hk : c.kind with
    | objectTemplate d =>
      refine ⟨nofun, nofun, fun x hx ↦ ?_, nofun⟩
      exact hcell.attributes x (by simpa [hk, Kind.attributes, ha] using hx)
    | object | function | instanceOf | functionTemplate => simpa [hk] using hcell

theorem Sound.grows_newObjectTemplate (hs : Sound h) : Grows h h.newObjectTemplate :=
  hs.grows_append ⟨nofun, nofun, nofun, nofun⟩

@[simp] theorem length_newObjectTemplate : h.newObjectTemplate.length = h.length + 1 := by
  simp [newObjectTemplate]

theorem Sound.grows_setClassName (hs : Sound h) (t : ℕ) (name : JSString) :
    Grows h (h.setClassName t name) := by
  have hg := hs.grows_modifyFunctionData (t := t) (f := fun d ↦ { d with name := some name })
    (fun _ ↦ rfl) fun _ _ hx ↦ .inl hx
  unfold setClassName
  dsimp only
  split
  · exact hg.trans (hg.sound.grows_modifyObjectData fun _ ↦ rfl)
  · exact hg

theorem Sound.grows_newFunctionTemplate (hs : Sound h) : Grows h h.newFunctionTemplate := by
  have hnew : Grows h (h ++ [⟨.functionTemplate ⟨[], none, none, none⟩, fun _ ↦ none,
      some (h.classPrototype (js "FunctionTemplate"))⟩]) :=
    hs.grows_append ⟨nofun, nofun, nofun, nofun⟩
  have hproto := hnew.trans hnew.sound.grows_newObjectTemplate
  have ht : Heap.internal (newObjectTemplate _) h.length = some true :=
    hnew.sound.grows_newObjectTemplate.ext h.length true (by simp [internal, Kind.internal])
  have hset := hproto.trans (hproto.sound.grows_setTemplate (n := js "prototype")
    (q := ⟨.object (h.length + 1), false, true, false⟩) ht (by simp [reference]))
  have hinst := hset.trans hset.sound.grows_newObjectTemplate
  have hlink := hinst.trans (hinst.sound.grows_modifyObjectData (t := h.length + 2)
    (f := fun d ↦ { d with prototype := some (h.length + 1) }) fun _ ↦ rfl)
  exact hlink.trans (hlink.sound.grows_modifyFunctionData (t := h.length)
    (f := fun d ↦ { d with instanceTemplate := some (h.length + 2) }) (fun _ ↦ rfl)
    fun _ _ hx ↦ .inl hx)

/-! ## Building -/

/-- A function that builds objects: what it builds is visible. -/
def Builder (f : Heap → ℕ → Option (ℕ × Heap)) : Prop :=
  ∀ {h : Heap} {t : ℕ} {r : ℕ × Heap}, Sound h → f h t = some r → Grows h r.2 ∧ r.2.Visible r.1

variable {E : Engine} {gf ni : Heap → ℕ → Option (ℕ × Heap)}

/-- An object that is no template is visible. -/
theorem visible_of_not_template (ho : o < h.length) (hf : (h.functionData o).isSome = false)
    (hobj : (h.objectData o).isSome = false) : h.Visible o := by
  obtain ⟨c, hc⟩ : ∃ c, h[o]? = some c := ⟨_, List.getElem?_eq_getElem ho⟩
  refine visible_of_getElem? hc ?_
  rw [functionData, hc] at hf
  rw [objectData, hc] at hobj
  cases hk : c.kind with
  | functionTemplate d => simp [hk] at hf
  | objectTemplate d => simp [hk] at hobj
  | object | function | instanceOf => rfl

theorem instantiate_grows (hgf : Builder gf) (hni : Builder ni) (hs : Sound h)
    (hv : ∀ a ∈ reference v, a < h.length) {r : Value × Heap}
    (hr : h.instantiate gf ni v = some r) :
    Grows h r.2 ∧ ∀ a ∈ reference r.1, r.2.Visible a := by
  unfold instantiate at hr
  split at hr
  · rename_i a
    split_ifs at hr with hf hobj
    · obtain ⟨x, hx, rfl⟩ := Option.map_eq_some_iff.mp hr
      obtain ⟨hg, hvis⟩ := hgf hs hx
      exact ⟨hg, fun b hb ↦ by cases hb; exact hvis⟩
    · obtain ⟨x, hx, rfl⟩ := Option.map_eq_some_iff.mp hr
      obtain ⟨hg, hvis⟩ := hni hs hx
      exact ⟨hg, fun b hb ↦ by cases hb; exact hvis⟩
    · cases hr
      refine ⟨⟨.refl h, hs⟩, fun b hb ↦ ?_⟩
      cases hb
      exact visible_of_not_template (hv a rfl) (by simpa using hf) (by simpa using hobj)
  · rename_i hobj
    cases hr
    refine ⟨⟨.refl h, hs⟩, fun b hb ↦ ?_⟩
    cases v with
    | object a => exact absurd rfl (hobj a)
    | undefined | null | boolean | double | string => cases hb

theorem setAttributes_grows (hgf : Builder gf) (hni : Builder ni) {l : List Attribute}
    (hs : Sound h) (hl : ∀ x ∈ l, ∀ a ∈ reference x.value, a < h.length)
    (hr : setAttributes E gf ni o l h = some h') : Grows h h' := by
  induction l generalizing h with
  | nil =>
    obtain rfl := Option.some.inj hr
    exact ⟨.refl _, hs⟩
  | cons x rest ih =>
    unfold setAttributes at hr
    split at hr
    · rename_i v h₁ hi
      obtain ⟨hg, hvis⟩ := instantiate_grows hgf hni hs (hl x (by simp)) hi
      have hset : Grows h₁ ((E.name x.key).elim h₁ fun n ↦ h₁.set o n ⟨v, false, true, false⟩) := by
        cases E.name x.key with
        | none => exact ⟨.refl h₁, hg.sound⟩
        | some n => exact hg.sound.grows_set fun _ ↦ hvis
      have hboth := hg.trans hset
      refine hboth.trans (ih hset.sound (fun y hy a ha ↦ ?_) hr)
      exact hboth.ext.length_le (hl y (by simp [hy]) a ha)
    · cases hr

theorem attributes_known (hs : Sound h) {d : FunctionData} (hd : h.functionData t = some d) :
    ∀ x ∈ d.attributes, ∀ a ∈ reference x.value, a < h.length := by
  obtain ⟨c, hc, hk⟩ := Option.bind_eq_some_iff.mp hd
  split at hk
  · rename_i d' hk'
    obtain rfl := Option.some.inj hk
    simpa [hk', Kind.attributes] using (hs.cell t c hc).attributes
  · cases hk

theorem objectAttributes_known (hs : Sound h) {d : ObjectData} (hd : h.objectData t = some d) :
    ∀ x ∈ d.attributes, ∀ a ∈ reference x.value, a < h.length := by
  obtain ⟨c, hc, hk⟩ := Option.bind_eq_some_iff.mp hd
  split at hk
  · rename_i d' hk'
    obtain rfl := Option.some.inj hk
    simpa [hk', Kind.attributes] using (hs.cell t c hc).attributes
  · cases hk

theorem cachedFunction_visible (hs : Sound h) {d : FunctionData}
    (hd : h.functionData t = some d) : ∀ f ∈ d.cachedFunction, h.Visible f := by
  obtain ⟨c, hc, hk⟩ := Option.bind_eq_some_iff.mp hd
  split at hk
  · rename_i d' hk'
    obtain rfl := Option.some.inj hk
    simpa [hk', Kind.cachedFunction] using (hs.cell t c hc).cachedFunction
  · cases hk

/-- `NewInstance`, where the templates that it needs build what is visible. -/
theorem builder_newInstance (k : ℕ) (hgf : Builder (getFunction E k))
    (hni : Builder (newInstance E k)) : Builder (newInstance E (k + 1)) := by
  intro h t r hs hr
  rw [newInstance] at hr
  obtain ⟨d, hd, hr⟩ := Option.bind_eq_some_iff.mp hr
  obtain ⟨⟨proto, h₁⟩, hproto, hr⟩ := Option.bind_eq_some_iff.mp hr
  obtain ⟨h₂, hset, hr⟩ := Option.bind_eq_some_iff.mp hr
  cases hr
  have hfirst : Grows h h₁ ∧ h₁.Visible proto := by
    unfold instancePrototype at hproto
    split at hproto
    · exact hni hs hproto
    · cases hproto
      exact ⟨⟨.refl h, hs⟩, hs.classPrototype_visible _⟩
  obtain ⟨hg, hvis⟩ := hfirst
  have hnew := hg.sound.grows_append (c := ⟨.instanceOf t, fun _ ↦ none, some proto⟩)
    ⟨fun _ p hp ↦ by cases hp; exact hvis, nofun, nofun, nofun⟩
  have hloop := setAttributes_grows hgf hni hnew.sound (fun x hx a ha ↦ ?_) hset
  · refine ⟨(hg.trans hnew).trans hloop, hloop.ext.visible ?_⟩
    simp [Visible, internal, Kind.internal]
  · have hmem := (E.all_perm d.attributes).mem_iff.mp hx
    exact (hg.trans hnew).ext.length_le (objectAttributes_known hs hd x hmem a ha)

/-- What `GetFunction` does to a new function before the loop over the attributes. -/
theorem grows_link (name : JSString) (hs : Sound h) {f proto : ℕ} (hf : h.Visible f)
    (hp : h.Visible proto) :
    Grows h (modifyFunctionData (List.modify
      (h.set f (js "prototype") ⟨.object proto, false, true, false⟩) f
      fun c ↦ { c with kind := .function name (some t) }) t
      fun d ↦ { d with cachedFunction := some f }) := by
  have hset : Grows h (h.set f (js "prototype") ⟨.object proto, false, true, false⟩) :=
    hs.grows_set fun _ a ha ↦ by cases ha; exact hp
  have hvis := hset.ext.visible hf
  have hint {c : Cell} (hc : (h.set f (js "prototype") ⟨.object proto, false, true, false⟩)[f]? =
      some c) : c.kind.internal = false := by
    obtain ⟨c', hc', hk⟩ := hvis.exists_cell
    rw [hc] at hc'
    cases hc'
    exact hk
  have hkind := hset.sound.grows_modify (o := f)
    (f := fun c ↦ { c with kind := .function name (some t) }) (fun c hc ↦ (hint hc).symm)
    fun c hc ↦ ⟨fun _ ↦ (hset.sound.cell f c hc).proto (hint hc),
      fun _ ↦ (hset.sound.cell f c hc).own (hint hc), nofun, nofun⟩
  refine (hset.trans hkind).trans (hkind.sound.grows_modifyFunctionData (fun _ ↦ rfl) ?_)
  intro d x hx
  cases hx
  exact .inr (hkind.ext.visible hvis)

/-- `GetFunction`, where the templates that it needs build what is visible. -/
theorem builder_getFunction (k : ℕ) (hgf : Builder (getFunction E k))
    (hni : Builder (newInstance E k)) : Builder (getFunction E (k + 1)) := by
  intro h t r hs hr
  rw [getFunction] at hr
  obtain ⟨d, hd, hr⟩ := Option.bind_eq_some_iff.mp hr
  split at hr
  · rename_i f hf
    cases hr
    exact ⟨⟨.refl h, hs⟩, cachedFunction_visible hs hd f hf⟩
  · dsimp only at hr
    have hnew := hs.grows_append (c := ⟨.function (d.name.getD []) none, fun _ ↦ none,
      some builtinFunction⟩)
      ⟨fun _ p hp ↦ by cases hp; exact hs.builtinFunction, nofun, nofun, nofun⟩
    have hf : Visible (h ++ [⟨.function (d.name.getD []) none, fun _ ↦ none, some builtinFunction⟩])
        h.length := by simp [Visible, internal, Kind.internal]
    split at hr
    · rename_i p hp
      obtain ⟨⟨proto, h₁⟩, hproto, hr⟩ := Option.bind_eq_some_iff.mp hr
      obtain ⟨h₂, hset, hr⟩ := Option.bind_eq_some_iff.mp hr
      cases hr
      obtain ⟨hg, hvis⟩ := hni hnew.sound hproto
      have hlink := grows_link (t := t) (d.name.getD []) hg.sound (hg.ext.visible hf) hvis
      have hall := (hnew.trans hg).trans hlink
      have hloop := setAttributes_grows hgf hni hlink.sound (fun x hx a ha ↦ ?_) hset
      · exact ⟨hall.trans hloop, hloop.ext.visible (hlink.ext.visible (hg.ext.visible hf))⟩
      · have hmem := (E.all_perm d.attributes).mem_iff.mp hx
        exact hall.ext.length_le (attributes_known hs hd x hmem a ha)
    · cases hr

/-- Whatever the depth, `NewInstance` and `GetFunction` build what a script may have. -/
theorem builders (E : Engine) (k : ℕ) : Builder (newInstance E k) ∧ Builder (getFunction E k) := by
  induction k with
  | zero =>
    constructor
    · intro h t r _ hr
      rw [newInstance] at hr
      cases hr
    · intro h t r _ hr
      rw [getFunction] at hr
      cases hr
  | succ k ih => exact ⟨builder_newInstance k ih.2 ih.1, builder_getFunction k ih.2 ih.1⟩

/-- A function template is not visible. -/
theorem not_visible (ht : h.IsFunctionTemplate t) : ¬h.Visible t := by
  intro hvis
  obtain ⟨c, hc, hk⟩ := hvis.exists_cell
  rw [IsFunctionTemplate, functionData, hc] at ht
  cases hkind : c.kind with
  | functionTemplate d => simp [hkind, Kind.internal] at hk
  | object | function | instanceOf | objectTemplate => simp [hkind] at ht

theorem sound_start : Sound start.heap where
  cell o c hc := by
    have hmem : c ∈ start.heap := List.mem_of_getElem? hc
    simp only [start, List.mem_cons, List.not_mem_nil, or_false] at hmem
    rcases hmem with rfl | rfl | rfl
    · exact ⟨nofun, nofun, nofun, nofun⟩
    · exact ⟨fun _ p hp ↦ by cases hp; rfl, nofun, nofun, nofun⟩
    · exact ⟨fun _ p hp ↦ by cases hp; rfl, nofun, nofun, nofun⟩
  builtinObject := rfl
  builtinFunction := rfl
  globalObject := rfl

theorem builder_construct (E : Engine) : Builder fun h f ↦ h.construct E f := by
  intro h f r hs hr
  obtain ⟨kind, hkind, hr⟩ := Option.bind_eq_some_iff.mp hr
  split at hr
  · rename_i name t
    obtain ⟨c, hc, hk⟩ := Option.map_eq_some_iff.mp hkind
    have hf : h.Visible f := visible_of_getElem? hc (by rw [hk]; rfl)
    obtain ⟨d, hd, hr⟩ := Option.bind_eq_some_iff.mp hr
    obtain ⟨i, hi, hr⟩ := Option.bind_eq_some_iff.mp hr
    obtain ⟨⟨thiz, h₁⟩, hinst, hr⟩ := Option.bind_eq_some_iff.mp hr
    obtain ⟨hg, hvis⟩ := (builders E E.frames).1 hs hinst
    dsimp only at hr
    split at hr
    · rename_i p hp
      have hproto : h₁.Visible p :=
        hg.sound.get_visible (hg.ext.visible hf) (js "prototype") p (by rw [hp]; rfl)
      have hset := hg.sound.grows_setProto (o := thiz) (r := some p)
        fun _ a ha ↦ by cases ha; exact hproto
      cases hr
      exact ⟨hg.trans hset, hset.ext.visible hvis⟩
    · cases hr
      exact ⟨hg, hvis⟩
  · cases hr

end Heap

open Heap

variable {E : Engine} {s s' : State}

/-- Each event keeps what is visible apart from what is internal. -/
theorem grows_apply {h : Heap} {e : Event} {r : Option ℕ × Heap} (hs : h.Sound)
    (hg : e.Allowed h) (hr : e.apply E h = some r) : h.Grows r.2 := by
  cases e with
  | newFunctionTemplate =>
    cases hr
    exact hs.grows_newFunctionTemplate
  | newObjectTemplate =>
    cases hr
    exact hs.grows_newObjectTemplate
  | setTemplate t n q =>
    cases hr
    exact hs.grows_setTemplate hg.1 hg.2
  | setPrototype t p =>
    cases hr
    exact hs.grows_modifyObjectData fun _ ↦ rfl
  | setClassName t name =>
    cases hr
    exact hs.grows_setClassName t name
  | inherit t parent =>
    cases hr
    exact hs.grows_setProto fun ht ↦ absurd ht (not_visible hg.1)
  | getFunction t =>
    obtain ⟨x, hx, rfl⟩ := Option.map_eq_some_iff.mp hr
    exact ((builders E E.frames).2 hs hx).1
  | newInstance t =>
    obtain ⟨x, hx, rfl⟩ := Option.map_eq_some_iff.mp hr
    exact ((builders E E.frames).1 hs hx).1
  | construct f =>
    obtain ⟨x, hx, rfl⟩ := Option.map_eq_some_iff.mp hr
    exact (builder_construct E hs hx).1
  | createObject p =>
    cases hr
    exact hs.grows_append ⟨fun _ ↦ hg, nofun, nofun, nofun⟩
  | createFunction name =>
    cases hr
    refine hs.grows_append ⟨fun _ p hp ↦ ?_, nofun, nofun, nofun⟩
    cases hp
    exact hs.builtinFunction
  | write o n q =>
    cases hr
    refine hs.grows_modify (fun _ _ ↦ rfl) fun c hc ↦ ?_
    have hcell := hs.cell o c hc
    refine ⟨hcell.proto, fun hk m q' hq' a ha ↦ ?_, hcell.attributes, hcell.cachedFunction⟩
    by_cases hm : m = n
    · subst hm
      simp only [Function.update_self] at hq'
      exact hg.2 a (by rw [hq']; exact ha)
    · simp only [Function.update_of_ne hm] at hq'
      exact hcell.own hk m q' hq' a ha
  | setProto o p =>
    cases hr
    exact hs.grows_setProto fun _ ↦ hg.2

theorem sound_of_reaches (h : (machine E).Reaches start s) : s.heap.Sound := by
  refine h.invariant (p := fun s ↦ s.heap.Sound) sound_start fun {s t e} hs hg ht ↦ ?_
  simp only [machine] at ht
  split at ht
  · rename_i r h hr
    cases ht
    exact (grows_apply hs hg hr).sound
  · cases ht

/-- The answer is no. -/
theorem not_hasInstance {h : Heap} {t o : ℕ} (hs : h.Sound) (ht : h.IsFunctionTemplate t)
    (ho : h.Visible o) : h.hasInstance t o = false := by
  unfold hasInstance
  split
  · rename_i p hp
    have hne : p ≠ t := by
      rintro rfl
      exact not_visible ht (hs.proto_visible ho p hp)
    simpa using hne
  · rfl

/-- The hash table in the order of insertion, and a stack that is deep enough. -/
def shallow : Engine := ⟨id, fun l ↦ .refl l, some, 3⟩

instance (s : State) (t o : ℕ) : Decidable (s.Created t o) :=
  inferInstanceAs (Decidable (∃ c ∈ s.made, _))

/-- One template, its function, and `new` once. -/
theorem created_not_instance : ¬∀ (s : State) (t o : ℕ), (machine shallow).Reaches start s →
    s.heap.IsFunctionTemplate t → s.heap.Visible o →
      (s.heap.hasInstance t o = true ↔ s.Created t o) := by
  intro hclaim
  obtain ⟨s, hs, ht, ho, hno, hcreated⟩ : ∃ s ∈ (machine shallow).run start
      [.newFunctionTemplate, .getFunction 3, .construct 6],
      s.heap.IsFunctionTemplate 3 ∧ s.heap.Visible 10 ∧ s.heap.hasInstance 3 10 = false ∧
        s.Created 3 10 := by decide +kernel
  have hyes := (hclaim s 3 10 (Machine.reaches_of_run hs) ht ho).mpr hcreated
  rw [hno] at hyes
  cases hyes

/-- What a script has is an instance by `HasInstance` if and only if it was created by the function
of the template: that is so where it was not. -/
theorem hasInstance_iff_created_iff (E : Engine) (h : (machine E).Reaches start s) {t o : ℕ}
    (ht : s.heap.IsFunctionTemplate t) (ho : s.heap.Visible o) :
    (s.heap.hasInstance t o = true ↔ s.Created t o) ↔ ¬s.Created t o := by
  rw [not_hasInstance (sound_of_reaches h) ht ho]
  simp

/-- An instance, and the function's `prototype` object. -/
theorem hasInstance_iff_created_iff_one : ∃ s, (machine shallow).Reaches start s ∧
    ((s.heap.hasInstance 3 10 = true ↔ s.Created 3 10) ↔ ¬s.Created 3 10) ∧
    ((s.heap.hasInstance 3 8 = true ↔ s.Created 3 8) ↔ ¬s.Created 3 8) := by
  obtain ⟨s, hs, ht, ho, ho'⟩ : ∃ s ∈ (machine shallow).run start
      [.newFunctionTemplate, .getFunction 3, .construct 6],
      s.heap.IsFunctionTemplate 3 ∧ s.heap.Visible 10 ∧ s.heap.Visible 8 := by decide +kernel
  have hreach := Machine.reaches_of_run hs
  exact ⟨s, hreach, hasInstance_iff_created_iff shallow hreach ht ho,
    hasInstance_iff_created_iff shallow hreach ht ho'⟩

end SpiderNode.Templates
