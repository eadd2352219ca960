import SpiderNode.Text.Utf16
import Mathlib.Logic.Function.Basic

/-!
# Data properties of a JavaScript object

What `jsapi.cpp` does to the data properties of an object for code that is not strict. The object
and its prototypes are native objects, whose classes have no hooks, and the object is not watched.

A property that may not be written is left alone, and so is an object that may not get new
properties. `JS_SetProperty` returns true all the same.
-/

namespace SpiderNode.Objects

open Function (update)

/-- `jsval` -/
inductive Value where
  | undefined
  | null
  | boolean (b : Bool)
  | double (bits : UInt64)
  | string (s : JSString)
  | object (address : ℕ)
  deriving DecidableEq

/-- A data property. -/
structure Property where
  value : Value
  readOnly : Bool
  enumerable : Bool
  permanent : Bool
  deriving DecidableEq

/-- Properties by their names. -/
abbrev Properties := JSString → Option Property

structure Object where
  own : Properties
  extensible : Bool
  /-- The properties of its prototypes, the nearest first. -/
  prototypes : List Properties

namespace Object

/-- The property that the prototypes have under a name. -/
def inherited (o : Object) (n : JSString) : Option Property := o.prototypes.findSome? (· n)

def lookup (o : Object) (n : JSString) : Option Property := (o.own n).or (o.inherited n)

/-- `JS_GetProperty` -/
def getProperty (o : Object) (n : JSString) : Value := (o.lookup n).elim .undefined Property.value

def put (n : JSString) (p : Option Property) (o : Object) : Object :=
  { o with own := update o.own n p }

/-- `JS_SetProperty`, as far as `js_SetPropertyHelper`. -/
def setProperty (n : JSString) (v : Value) (o : Object) : Object :=
  match o.own n with
  | some p => if p.readOnly then o else o.put n (some { p with value := v })
  | none =>
    if (o.inherited n).any Property.readOnly then o
    else if o.extensible then o.put n (some ⟨v, false, true, false⟩)
    else o

/-- `JS_SetPropertyAttributes`; nothing is done about a property of a prototype, and what is
permanent stays so. -/
def setPropertyAttributes (n : JSString) (readOnly enumerable permanent : Bool) (o : Object) :
    Object :=
  match o.own n with
  | some p => o.put n (some ⟨p.value, readOnly, enumerable, permanent || p.permanent⟩)
  | none => o

/-- A value can be stored under the name. -/
def Accepts (o : Object) (n : JSString) : Bool :=
  match o.own n with
  | some p => !p.readOnly
  | none => !(o.inherited n).any Property.readOnly && o.extensible

variable {o : Object} {n n' : JSString} {p : Option Property}

@[simp] theorem own_put_self : (o.put n p).own n = p := Function.update_self ..

theorem own_put_of_ne (h : n' ≠ n) : (o.put n p).own n' = o.own n' := Function.update_of_ne h ..

/-! ## Writing -/

/-- Writing a value, and then the attributes. -/
def store (n : JSString) (p : Property) (o : Object) : Object :=
  (o.setProperty n p.value).setPropertyAttributes n p.readOnly p.enumerable p.permanent

variable {q : Property}

/-! ## Other names -/

/-- Two objects have the same property under a name, and inherit the same. -/
def SameAt (n : JSString) (o o' : Object) : Prop :=
  o.own n = o'.own n ∧ o.inherited n = o'.inherited n

theorem SameAt.refl (n : JSString) (o : Object) : SameAt n o o := ⟨rfl, rfl⟩

theorem SameAt.trans {o₁ o₂ o₃ : Object} (h : SameAt n o₁ o₂) (h' : SameAt n o₂ o₃) :
    SameAt n o₁ o₃ := ⟨h.1.trans h'.1, h.2.trans h'.2⟩

theorem sameAt_put (h : n' ≠ n) : SameAt n' (o.put n p) o := ⟨own_put_of_ne h, rfl⟩

theorem sameAt_setProperty {v : Value} (h : n' ≠ n) : SameAt n' (o.setProperty n v) o := by
  unfold setProperty
  split
  · split_ifs
    · exact .refl n' o
    · exact sameAt_put h
  · split_ifs
    · exact .refl n' o
    · exact sameAt_put h
    · exact .refl n' o

theorem sameAt_setPropertyAttributes {r e d : Bool} (h : n' ≠ n) :
    SameAt n' (o.setPropertyAttributes n r e d) o := by
  unfold setPropertyAttributes
  split
  · exact sameAt_put h
  · exact .refl n' o

theorem sameAt_store (h : n' ≠ n) : SameAt n' (o.store n q) o :=
  (sameAt_setPropertyAttributes h).trans (sameAt_setProperty h)

end Object

end SpiderNode.Objects
