import SpiderNode.Net.Socket
import SpiderNode.Objects.Property

/-!
# Accessors

What `jsapi.cpp` does to the properties of any native object, for code that is not strict. The class
of the object has no hooks, and the object is not watched. A property is found in the object or in
its prototypes, and not every one is written:

* a property that is read-only is left alone, and an object that is not extensible gets no new one;
* `__proto__` of `Object.prototype` changes the prototype (`obj_setProto`);
* an accessor that the program has defined calls a function of the program, if it has one.

`JS_SetPropertyAttributes` takes the flags of an accessor away and leaves its functions, so that the
engine takes them for native code from then on.
-/

namespace SpiderNode.Objects

open Function (update)
open Net (JsError)

/-- `Shape`, with what is in the slot. -/
inductive Slot where
  /-- The flags tell of a getter or a setter that is left from an accessor. -/
  | data (p : Property) (getter setter : Bool)
  /-- The one of `object_props`. It is shared until its attributes are set. -/
  | proto (shared readOnly : Bool)
  /-- The functions are numbered. -/
  | accessor (getter setter : Option ℕ) (permanent : Bool)
  deriving DecidableEq

namespace Slot

def readOnly : Slot → Bool
  | .data p .. => p.readOnly
  | .proto _ readOnly => readOnly
  | .accessor .. => false

def permanent : Slot → Bool
  | .data p .. => p.permanent
  | .proto .. => true
  | .accessor _ _ permanent => permanent

/-- Not `shadowable`. -/
def shared : Slot → Bool
  | .data .. => false
  | .proto shared _ => shared
  | .accessor .. => true

/-- `js_SetNativeAttributes`; what is permanent stays so. -/
def setAttributes (readOnly enumerable permanent : Bool) : Slot → Slot
  | .data p getter setter =>
    .data ⟨p.value, readOnly, enumerable, permanent || p.permanent⟩ getter setter
  | .proto .. => .proto false readOnly
  | .accessor getter setter p =>
    .data ⟨.undefined, readOnly, enumerable, permanent || p⟩ getter.isSome setter.isSome

/-- Reading it calls a function of the program. -/
def callsGetter : Slot → Bool
  | .accessor getter .. => getter.isSome
  | _ => false

/-- Writing it calls a function of the program. -/
def callsSetter : Slot → Bool
  | .accessor _ setter _ => setter.isSome
  | _ => false

/-- A property that may be written and deleted. -/
def Plain (s : Slot) (v : Value) : Prop :=
  ∃ e, s = .data ⟨v, false, e, false⟩ false false

end Slot

/-- Properties by their names. -/
abbrev Slots := JSString → Option Slot

structure JSObject where
  address : ℕ
  own : Slots
  extensible : Bool
  proto : Option ℕ

/-- The prototype chain that begins at an object: the addresses and the properties of the objects
in it. -/
abbrev Chains := ℕ → List (ℕ × Slots)

/-- The getters and setters of the program. A getter that throws has no answer, and a setter answers
whether it has returned. -/
structure Functions where
  get : ℕ → JSObject → Option Value
  set : ℕ → Value → JSObject → Bool × JSObject

namespace JSObject

def put (n : JSString) (s : Option Slot) (o : JSObject) : JSObject :=
  { o with own := update o.own n s }

/-- A new property, where the object may get one. -/
def add (n : JSString) (v : Value) (o : JSObject) : JSObject :=
  if o.extensible then o.put n (some (.data ⟨v, false, true, false⟩ false false)) else o

/-- `obj_getProto` -/
def getProto (o : JSObject) : Value := o.proto.elim .null .object

variable (c : Chains) (f : Functions)

/-- `obj_setProto`, and whether it succeeds. -/
def setProto (v : Value) (o : JSObject) : Bool × JSObject :=
  if o.extensible then
    match v with
    | .null => (true, { o with proto := none })
    | .object a =>
      if (c a).any (·.1 = o.address) then (false, o) else (true, { o with proto := some a })
    | _ => (true, o)
  else (false, o)

/-- The property that the prototypes have under a name. -/
def inherited (o : JSObject) (n : JSString) : Option Slot :=
  (o.proto.elim [] c).findSome? (·.2 n)

def lookup (o : JSObject) (n : JSString) : Option Slot := (o.own n).or (o.inherited c n)

/-- `js_NativeGet` -/
def nativeGet (o : JSObject) : Slot → Except JsError (Option Value)
  | .data p getter _ => if getter then .error .fault else .ok (some p.value)
  | .proto .. => .ok (some o.getProto)
  | .accessor (some g) .. => .ok (f.get g o)
  | .accessor none .. => .ok (some .undefined)

/-- `JS_GetProperty`; `none` is an exception. -/
def getProperty (o : JSObject) (n : JSString) : Except JsError (Option Value) :=
  (o.lookup c n).elim (.ok (some .undefined)) (o.nativeGet f)

/-- `JS_HasProperty` -/
def hasProperty (o : JSObject) (n : JSString) : Bool := (o.lookup c n).isSome

/-- `js_NativeSet`, and whether it succeeds. -/
def nativeSet (n : JSString) (v : Value) (o : JSObject) : Slot → Except JsError (Bool × JSObject)
  | .data p getter setter =>
    if setter then .error .fault
    else .ok (true, o.put n (some (.data { p with value := v } getter setter)))
  | .proto .. => .ok (o.setProto c v)
  | .accessor _ (some g) _ => .ok (f.set g v o)
  -- `js_ReportGetterOnlyAssignment`, which reports nothing
  | .accessor _ none _ => .ok (true, o)

/-- `JS_SetProperty`, as far as `js_SetPropertyHelper`. -/
def setProperty (n : JSString) (v : Value) (o : JSObject) : Except JsError (Bool × JSObject) :=
  match o.own n with
  | some s => if s.readOnly then .ok (true, o) else o.nativeSet c f n v s
  | none =>
    match o.inherited c n with
    | some s =>
      if s.readOnly then .ok (true, o)
      else if s.shared then o.nativeSet c f n v s
      else .ok (true, o.add n v)
    | none => .ok (true, o.add n v)

/-- `JS_SetPropertyAttributes`; nothing is done about a property of a prototype. -/
def setPropertyAttributes (n : JSString) (readOnly enumerable permanent : Bool) (o : JSObject) :
    JSObject :=
  o.put n ((o.own n).map (·.setAttributes readOnly enumerable permanent))

/-- `JS_DeleteProperty2`, and whether `*rval` is true. -/
def deleteProperty (n : JSString) (o : JSObject) : Bool × JSObject :=
  if (o.own n).any Slot.permanent then (false, o) else (true, o.put n none)

/-! ## What becomes of a value -/

/-- A value is stored under the name, and read under it. -/
def Accepts (o : JSObject) (n : JSString) : Bool :=
  match o.own n with
  | some (.data p getter setter) => !p.readOnly && !getter && !setter
  | some _ => false
  | none => (o.inherited c n).all (fun s ↦ !s.readOnly && !s.shared) && o.extensible

/-- `js_NativeSet` fails, whatever the value is. -/
def fails (o : JSObject) : Slot → Bool
  | .data _ _ setter => setter
  | .proto .. => !o.extensible
  | .accessor .. => false

/-- Each write fails. -/
def Rejects (o : JSObject) (n : JSString) : Bool :=
  match o.own n with
  | some s => !s.readOnly && o.fails s
  | none => (o.inherited c n).any fun s ↦ !s.readOnly && s.shared && o.fails s

/-- Reading the name calls a getter of the program, now or when the property is deleted. -/
def CallsGetter (o : JSObject) (n : JSString) : Bool :=
  (o.lookup c n).any Slot.callsGetter ||
    (o.own n).any (fun s ↦ !s.permanent) && (o.inherited c n).any Slot.callsGetter

variable {c} {f} {o o' : JSObject} {n n' : JSString} {s : Option Slot} {p : Property} {v : Value}

@[simp] theorem own_put_self : (o.put n s).own n = s := Function.update_self ..

theorem own_put_of_ne (h : n' ≠ n) : (o.put n s).own n' = o.own n' := Function.update_of_ne h ..

@[simp] theorem proto_put : (o.put n s).proto = o.proto := rfl

@[simp] theorem inherited_put : (o.put n s).inherited c n' = o.inherited c n' := rfl

theorem put_put {s' : Option Slot} : (o.put n s).put n s' = o.put n s' := by
  simp [put]

theorem lookup_of_own {x : Slot} (h : o.own n = some x) : o.lookup c n = some x := by
  rw [lookup, h]
  rfl

theorem lookup_of_own_none (h : o.own n = none) : o.lookup c n = o.inherited c n := by
  rw [lookup, h]
  rfl

theorem getProperty_of_own (h : o.own n = some (.data p false false)) :
    o.getProperty c f n = .ok (some p.value) := by
  rw [getProperty, lookup_of_own h]
  rfl

theorem hasProperty_of_own {x : Slot} (h : o.own n = some x) : o.hasProperty c n = true := by
  rw [hasProperty, lookup_of_own h]
  rfl

theorem setPropertyAttributes_put {getter setter r e d : Bool} :
    (o.put n (some (.data p getter setter))).setPropertyAttributes n r e d =
      o.put n (some (.data ⟨p.value, r, e, d || p.permanent⟩ getter setter)) := by
  rw [setPropertyAttributes, own_put_self, put_put]
  rfl

/-! ## Objects with data properties only -/

/-- An object of which all properties are data properties. -/
def ofData (a : ℕ) (proto : Option ℕ) (o : Object) : JSObject :=
  ⟨a, fun n ↦ (o.own n).map (.data · false false), o.extensible, proto⟩

variable {a : ℕ} {proto : Option ℕ} {d : Object}

theorem put_ofData {q : Property} : (ofData a proto d).put n (some (.data q false false)) =
    ofData a proto (d.put n (some q)) := by
  simp only [put, ofData, Object.put, JSObject.mk.injEq, true_and, and_true]
  funext n'
  by_cases hn : n' = n
  · subst hn
    simp
  · simp [hn]

/-- Where the prototypes too have data properties only, the object is read as one of
`Objects.Property`. -/
theorem getProperty_ofData
    (hinh : (ofData a proto d).inherited c n = (d.inherited n).map (.data · false false)) :
    (ofData a proto d).getProperty c f n = .ok (some (d.getProperty n)) := by
  rw [getProperty, lookup, hinh, Object.getProperty, Object.lookup]
  cases hn : d.own n with
  | some q => simp [ofData, hn, nativeGet]
  | none => cases d.inherited n <;> simp [ofData, hn, nativeGet]

/-- And it is written as one. -/
theorem setProperty_ofData
    (hinh : (ofData a proto d).inherited c n = (d.inherited n).map (.data · false false)) :
    (ofData a proto d).setProperty c f n v = .ok (true, ofData a proto (d.setProperty n v)) := by
  have hadd : (ofData a proto d).add n v = if d.extensible then
      ofData a proto (d.put n (some ⟨v, false, true, false⟩)) else ofData a proto d := by
    rw [add, put_ofData]
    rfl
  unfold setProperty Object.setProperty
  rw [hinh]
  cases hn : d.own n with
  | some q =>
    have hown : (ofData a proto d).own n = some (.data q false false) := by simp [ofData, hn]
    simp only [hown, nativeSet, put_ofData, Slot.readOnly]
    split_ifs <;> first | rfl | contradiction
  | none =>
    have hown : (ofData a proto d).own n = none := by simp [ofData, hn]
    cases hi : d.inherited n with
    | none =>
      simp only [hown, hadd, Option.map_none]
      split_ifs <;> simp_all
    | some q =>
      simp only [hown, hadd, Option.map_some, Slot.readOnly, Slot.shared]
      split_ifs <;> simp_all

/-! ## Other names -/

/-- Two objects have the same property under a name, and the same prototypes. -/
def SameAt (n : JSString) (o o' : JSObject) : Prop := o.own n = o'.own n ∧ o.proto = o'.proto

theorem sameAt_put (h : n' ≠ n) : SameAt n' (o.put n s) o := ⟨own_put_of_ne h, rfl⟩

namespace SameAt

theorem symm (h : SameAt n o o') : SameAt n o' o := ⟨h.1.symm, h.2.symm⟩

theorem inherited_eq (h : SameAt n o o') : o.inherited c n' = o'.inherited c n' := by
  rw [inherited, inherited, h.2]

theorem lookup_eq (h : SameAt n o o') : o.lookup c n = o'.lookup c n := by
  rw [lookup, lookup, h.1, h.inherited_eq]

theorem hasProperty_eq (h : SameAt n o o') : o.hasProperty c n = o'.hasProperty c n := by
  rw [hasProperty, hasProperty, h.lookup_eq]

/-- The same is read, if the getter that is called for it cannot tell the objects apart. -/
theorem getProperty_eq (h : SameAt n o o')
    (hget : (o.lookup c n).any Slot.callsGetter = true → ∀ g, f.get g o = f.get g o') :
    o.getProperty c f n = o'.getProperty c f n := by
  rw [getProperty, getProperty, ← h.lookup_eq]
  cases hl : o.lookup c n with
  | none => rfl
  | some x =>
    rw [hl] at hget
    match x with
    | .data .. => rfl
    | .proto .. =>
      change Except.ok (some o.getProto) = Except.ok (some o'.getProto)
      rw [getProto, getProto, h.2]
    | .accessor none .. => rfl
    | .accessor (some g) .. => exact congrArg Except.ok (hget rfl g)

theorem put (h : SameAt n' o o') (n : JSString) (s : Option Slot) :
    SameAt n' (o.put n s) (o'.put n s) := by
  refine ⟨?_, h.2⟩
  by_cases hn : n' = n
  · rw [hn, own_put_self, own_put_self]
  · rw [own_put_of_ne hn, own_put_of_ne hn, h.1]

/-- A property that is the same in both objects is deleted from both or from none. -/
theorem deleteProperty (h : SameAt n o o') (h' : SameAt n' o o') :
    (o.deleteProperty n).1 = (o'.deleteProperty n).1 ∧
      SameAt n' (o.deleteProperty n).2 (o'.deleteProperty n).2 := by
  unfold JSObject.deleteProperty
  rw [← h.1]
  split_ifs
  · exact ⟨rfl, h'⟩
  · exact ⟨rfl, h'.put n none⟩

end SameAt

theorem own_deleteProperty_of_ne (h : n ≠ n') : (o.deleteProperty n').2.own n = o.own n := by
  unfold deleteProperty
  split_ifs
  · rfl
  · exact own_put_of_ne h

/-- What is not asked for before a deletion is not asked for after it. -/
theorem callsGetter_deleteProperty (h : o.CallsGetter c n = false) :
    ((o.deleteProperty n').2.lookup c n).any Slot.callsGetter = false := by
  obtain ⟨hnow, hthen⟩ := Bool.or_eq_false_iff.mp h
  unfold deleteProperty
  split_ifs with hperm
  · exact hnow
  · by_cases hn : n = n'
    · subst hn
      rw [lookup_of_own_none own_put_self, inherited_put]
      cases hown : o.own n with
      | none => rwa [lookup_of_own_none hown] at hnow
      | some x =>
        have hx : x.permanent = false := by simpa [hown] using hperm
        simpa [hown, hx] using hthen
    · rwa [lookup, own_put_of_ne hn, inherited_put]

/-! ## Writing -/

/-- An accepted value is all that is changed. -/
theorem setProperty_of_accepts (f : Functions) (h : o.Accepts c n = true) (v : Value) :
    ∃ p : Property, p.value = v ∧
      o.setProperty c f n v = .ok (true, o.put n (some (.data p false false))) := by
  unfold Accepts at h
  unfold setProperty
  split at h
  · rename_i p getter setter hown
    obtain ⟨⟨hread, rfl⟩, rfl⟩ : (p.readOnly = false ∧ getter = false) ∧ setter = false := by
      simpa using h
    exact ⟨{ p with value := v }, rfl, by simp [hown, Slot.readOnly, hread, nativeSet]⟩
  · cases h
  · rename_i hown
    refine ⟨⟨v, false, true, false⟩, rfl, ?_⟩
    rw [hown]
    cases hinh : o.inherited c n <;> simp_all [add]

theorem own_setProto : (o.setProto c v).2.own = o.own := by
  unfold setProto
  split
  · split
    · rfl
    · split_ifs <;> rfl
    · rfl
  · rfl

theorem own_nativeSet {x : Slot} {b : Bool} (hx : x.shared = true)
    (hcall : x.callsSetter = false) (h : o.nativeSet c f n v x = .ok (b, o')) : o'.own = o.own := by
  match x with
  | .data .. => cases hx
  | .proto .. =>
    rw [← (Prod.mk.inj (Except.ok.inj h)).2]
    exact own_setProto
  | .accessor _ none _ => rw [← (Prod.mk.inj (Except.ok.inj h)).2]
  | .accessor _ (some _) _ => cases hcall

/-- Where no setter is called, a plain property is overwritten, and another one is made or not. -/
theorem setProperty_plain {b : Bool} (hown : ∀ s, o.own n = some s → ∃ v, s.Plain v)
    (hcall : (o.inherited c n).any Slot.callsSetter = false)
    (h : o.setProperty c f n v = .ok (b, o')) :
    o.own n = none ∧ o'.own = o.own ∨
      b = true ∧ ∃ s, s.Plain v ∧ o' = o.put n (some s) := by
  unfold setProperty at h
  cases hn : o.own n with
  | some s =>
    obtain ⟨v', e, rfl⟩ := hown s hn
    rw [hn] at h
    obtain ⟨hb, ho'⟩ := Prod.mk.inj (Except.ok.inj h)
    exact .inr ⟨hb.symm, _, ⟨e, rfl⟩, ho'.symm⟩
  | none =>
    have hadd : ∀ {b o'}, (.ok (true, o.add n v) : Except JsError (Bool × JSObject)) = .ok (b, o') →
        o'.own = o.own ∨ b = true ∧ ∃ s, s.Plain v ∧ o' = o.put n (some s) := by
      intro b o' h
      obtain ⟨rfl, rfl⟩ := Prod.mk.inj (Except.ok.inj h)
      unfold add
      split_ifs
      · exact .inr ⟨rfl, _, ⟨true, rfl⟩, rfl⟩
      · exact .inl rfl
    refine Or.imp_left (⟨rfl, ·⟩) ?_
    rw [hn] at h
    cases hinh : o.inherited c n with
    | none => exact hadd (by rwa [hinh] at h)
    | some s =>
      simp only [hinh] at h hcall
      split_ifs at h
      · obtain ⟨-, rfl⟩ := Prod.mk.inj (Except.ok.inj h)
        exact .inl rfl
      · exact .inl (own_nativeSet ‹_› hcall h)
      · exact hadd h

theorem nativeSet_of_fails {x : Slot} (h : o.fails x = true) :
    o.nativeSet c f n v x ≠ .ok (true, o') := by
  match x with
  | .data p getter setter =>
    have hsetter : setter = true := h
    simp [nativeSet, hsetter]
  | .proto .. =>
    have hext : o.extensible = false := by simpa [fails] using h
    simp [nativeSet, setProto, hext]
  | .accessor .. => cases h

/-- An object that rejects a name is not written under it. -/
theorem setProperty_of_rejects (h : o.Rejects c n = true) :
    o.setProperty c f n v ≠ .ok (true, o') := by
  unfold Rejects at h
  unfold setProperty
  cases hown : o.own n with
  | some x =>
    simp only [hown, Bool.and_eq_true, Bool.not_eq_true'] at h
    simpa [h.1] using nativeSet_of_fails h.2
  | none =>
    simp only [hown, Option.any_eq_true, Bool.and_eq_true, Bool.not_eq_true'] at h
    obtain ⟨x, hinh, ⟨hread, hshared⟩, hfails⟩ := h
    simpa [hinh, hread, hshared] using nativeSet_of_fails hfails

/-- Functions that do nothing. -/
def idle : Functions := ⟨fun _ _ ↦ none, fun _ _ o ↦ (true, o)⟩

/-- A value that is no prototype. -/
def Simple (v : Value) : Prop := v = .undefined ∨ v = .boolean true

theorem nativeSet_idle {x : Slot} (hx : ∀ p getter setter, x ≠ .data p getter setter)
    (h : o.fails x = false) (hv : Simple v) : o.nativeSet c idle n v x = .ok (true, o) := by
  match x with
  | .data p getter setter => exact absurd rfl (hx p getter setter)
  | .proto .. =>
    have hext : o.extensible = true := by simpa [fails] using h
    rcases hv with rfl | rfl <;> simp [nativeSet, setProto, hext]
  | .accessor _ none _ => rfl
  | .accessor _ (some _) _ => rfl

/-- Where a value is neither accepted nor rejected, nothing is written, or what is written is not
read. -/
theorem setProperty_idle (hacc : o.Accepts c n = false) (hrej : o.Rejects c n = false) :
    (∀ v, Simple v → o.setProperty c idle n v = .ok (true, o)) ∨
      ∃ p : Property, ∀ v, o.setProperty c idle n v =
        .ok (true, o.put n (some (.data { p with value := v } true false))) := by
  unfold Accepts at hacc
  unfold Rejects at hrej
  unfold setProperty
  cases hown : o.own n with
  | some x =>
    rw [hown] at hacc hrej
    cases hread : x.readOnly with
    | true => exact .inl fun v _ ↦ by simp [hread]
    | false =>
      have hfails : o.fails x = false := by simpa [hread] using hrej
      match x with
      | .data p getter setter =>
        have hsetter : setter = false := hfails
        have hp : p.readOnly = false := hread
        have hgetter : getter = true := by simpa [hp, hsetter] using hacc
        subst hsetter hgetter
        exact .inr ⟨p, fun v ↦ by simp [hread, nativeSet]⟩
      | .proto .. =>
        exact .inl fun v hv ↦ by simpa [hread] using nativeSet_idle (by simp) hfails hv
      | .accessor .. =>
        exact .inl fun v hv ↦ by simpa [hread] using nativeSet_idle (by simp) hfails hv
  | none =>
    rw [hown] at hacc hrej
    refine .inl fun v hv ↦ ?_
    cases hinh : o.inherited c n with
    | none => simp_all [add]
    | some x =>
      rw [hinh] at hacc hrej
      cases hread : x.readOnly with
      | true => simp [hread]
      | false =>
        cases hshared : x.shared with
        | false => simp_all [add]
        | true =>
          have hfails : o.fails x = false := by simpa [hread, hshared] using hrej
          have hslot : ∀ p getter setter, x ≠ .data p getter setter := by
            rintro p getter setter rfl
            cases hshared
          simpa [hread, hshared] using nativeSet_idle hslot hfails hv

/-- What is read afterwards does not depend on the value. -/
theorem exists_unread (hacc : o.Accepts c n = false) (hrej : o.Rejects c n = false) :
    ∃ r, ∀ v, Simple v → ∃ o', o.setProperty c idle n v = .ok (true, o') ∧
      (o'.setPropertyAttributes n false true false).getProperty c idle n = r := by
  rcases setProperty_idle hacc hrej with hstay | ⟨p, hset⟩
  · exact ⟨_, fun v hv ↦ ⟨o, hstay v hv, rfl⟩⟩
  · refine ⟨.error .fault, fun v _ ↦ ⟨_, hset v, ?_⟩⟩
    rw [setPropertyAttributes_put, getProperty, lookup_of_own own_put_self]
    rfl

end JSObject

end SpiderNode.Objects
