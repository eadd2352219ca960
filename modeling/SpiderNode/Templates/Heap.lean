import SpiderNode.Objects.Property

/-!
# Function templates

`functiontemplate.cpp`, `objecttemplate.cpp` and `template.cpp` of `deps/mozjs/js/src/v8api`, over a
heap of JavaScript objects. A template is an object as well, its `InternalObject`, which scripts
never see. `NewInstance` and `GetFunction` build objects by templates, and templates may be the
values of other templates, so the two call each other. Accessors and the handlers of properties are
left out; they are the program's own code.

## What is the prototype of an instance

`CallCallback` makes the instance by the instance template and sets its prototype to the `prototype`
property of the function. That is an object that `GetFunction` has built by the prototype template;
it builds two of them, as `prototype` is also an attribute of the function template.

`HasInstance` compares the prototype with the `InternalObject` of the function template. What a
script can reach never has such a prototype (`Heap.Sound`), so the answer is always no.
-/

namespace SpiderNode.Templates

open Objects (Value Property Properties Object)

/-! ## Objects -/

/-- An entry of an `AttributeStorage`. -/
structure Attribute where
  key : JSString
  value : Value

/-- `AttributeStorage::addAttribute` -/
def addAttribute (key : JSString) (value : Value) (attributes : List Attribute) : List Attribute :=
  attributes.filter (fun a ↦ a.key ≠ key) ++ [⟨key, value⟩]

/-- `PrivateData` of `functiontemplate.cpp`, without the callback. -/
structure FunctionData where
  attributes : List Attribute
  instanceTemplate : Option ℕ
  name : Option JSString
  cachedFunction : Option ℕ

/-- `PrivateData` of `objecttemplate.cpp`; `className` is the name of `cls`. -/
structure ObjectData where
  attributes : List Attribute
  prototype : Option ℕ
  className : JSString

inductive Kind where
  | object
  /-- A function, with its name and what `GetInternalField(0)` is. -/
  | function (name : JSString) (template : Option ℕ)
  /-- An object that was made by an object template. -/
  | instanceOf (template : ℕ)
  | functionTemplate (data : FunctionData)
  | objectTemplate (data : ObjectData)

namespace Kind

/-- The object is an `InternalObject`. -/
def internal : Kind → Bool
  | functionTemplate _ | objectTemplate _ => true
  | _ => false

def attributes : Kind → List Attribute
  | functionTemplate d => d.attributes
  | objectTemplate d => d.attributes
  | _ => []

def cachedFunction : Kind → Option ℕ
  | functionTemplate d => d.cachedFunction
  | _ => none

end Kind

structure Cell where
  kind : Kind
  own : Properties
  proto : Option ℕ

/-- All objects; an address is a position. -/
abbrev Heap := List Cell

/-- `Object.prototype` -/
def builtinObject : ℕ := 0

/-- `Function.prototype` -/
def builtinFunction : ℕ := 1

def globalObject : ℕ := 2

/-- What is left open about the engine. -/
structure Engine where
  /-- The order in which the hash table of an `AttributeStorage` has its entries. -/
  all : List Attribute → List Attribute
  all_perm : ∀ l, (all l).Perm l
  /-- The name of the property that a key stands for. -/
  name : JSString → Option JSString
  /-- How many calls fit on the native stack. -/
  frames : ℕ

namespace Heap

def functionData (h : Heap) (t : ℕ) : Option FunctionData :=
  h[t]?.bind fun c ↦
    match c.kind with
    | .functionTemplate d => some d
    | _ => none

def objectData (h : Heap) (t : ℕ) : Option ObjectData :=
  h[t]?.bind fun c ↦
    match c.kind with
    | .objectTemplate d => some d
    | _ => none

def isFunction (h : Heap) (o : ℕ) : Bool :=
  h[o]?.any fun c ↦
    match c.kind with
    | .function .. => true
    | _ => false

def proto (h : Heap) (o : ℕ) : Option ℕ := h[o]?.bind Cell.proto

def own (h : Heap) (o : ℕ) : Properties := h[o]?.elim (fun _ ↦ none) Cell.own

/-- An object and what it inherits from, as far as there are objects. -/
def chain (h : Heap) : ℕ → Option ℕ → List ℕ
  | 0, _ | _, none => []
  | n + 1, some o => o :: chain h n (h.proto o)

/-- The properties that an object has and inherits. -/
def object (h : Heap) (o : ℕ) : Object :=
  ⟨h.own o, true, (h.chain h.length (h.proto o)).map h.own⟩

/-- `Object::Get` -/
def get (h : Heap) (o : ℕ) (n : JSString) : Value := (h.object o).getProperty n

/-- `JS_SetPrototype` -/
def setProto (h : Heap) (o : ℕ) (p : Option ℕ) : Heap := h.modify o fun c ↦ { c with proto := p }

/-- The name is that of the accessor of `Object.prototype`. -/
def setsProto (h : Heap) (o : ℕ) (n : JSString) : Bool :=
  n = js "__proto__" && ((h.object o).lookup n).isNone &&
    builtinObject ∈ h.chain h.length (some o)

/-- `Object::Set`: the value and the attributes of the property. The accessor refuses a cycle. -/
def set (h : Heap) (o : ℕ) (n : JSString) (q : Property) : Heap :=
  if h.setsProto o n then
    match q.value with
    | .object p => if o ∈ h.chain h.length (some p) then h else h.setProto o (some p)
    | .null => h.setProto o none
    | _ => h
  else h.modify o fun c ↦ { c with own := ((h.object o).store n q).own }

/-- `js_GetClassPrototype`, for a class that is not built in: the global object is asked. -/
def classPrototype (h : Heap) (className : JSString) : ℕ :=
  match h.get globalObject className with
  | .object f =>
    if h.isFunction f then
      match h.get f (js "prototype") with
      | .object p => p
      | _ => builtinObject
    else f
  | _ => builtinObject

/-! ## Templates -/

/-- `ObjectTemplate::New` -/
def newObjectTemplate (h : Heap) : Heap :=
  h ++ [⟨.objectTemplate ⟨[], none, js "ObjectTemplate-Object"⟩, fun _ ↦ none,
    some (h.classPrototype (js "ObjectTemplate"))⟩]

/-- A template whose data is changed. -/
def modifyFunctionData (h : Heap) (t : ℕ) (f : FunctionData → FunctionData) : Heap :=
  h.modify t fun c ↦
    match c.kind with
    | .functionTemplate d => { c with kind := .functionTemplate (f d) }
    | _ => c

def modifyObjectData (h : Heap) (t : ℕ) (f : ObjectData → ObjectData) : Heap :=
  h.modify t fun c ↦
    match c.kind with
    | .objectTemplate d => { c with kind := .objectTemplate (f d) }
    | _ => c

/-- `ft_SetProperty` and `ot_SetProperty`: the value is an attribute, and of the internal object
only `prototype` of a function template is set. -/
def hook (n : JSString) (v : Value) (c : Cell) : Value × Cell :=
  match c.kind with
  | .functionTemplate d =>
    (if n = js "prototype" then v else .undefined,
      { c with kind := .functionTemplate { d with attributes := addAttribute n v d.attributes } })
  | .objectTemplate d =>
    (.undefined,
      { c with kind := .objectTemplate { d with attributes := addAttribute n v d.attributes } })
  | _ => (v, c)

/-- `Template::Set` -/
def setTemplate (h : Heap) (t : ℕ) (n : JSString) (q : Property) : Heap :=
  if h.setsProto t n then h.set t n q
  else h.modify t fun c ↦
    let (v, c') := if (h.object t).Accepts n then hook n q.value c else (q.value, c)
    { c' with own := ((h.object t).store n { q with value := v }).own }

/-- `ObjectTemplate::SetPrototype` -/
def setPrototype (h : Heap) (t p : ℕ) : Heap :=
  h.modifyObjectData t fun d ↦ { d with prototype := some p }

/-- `FunctionTemplate::FunctionTemplate` -/
def newFunctionTemplate (h : Heap) : Heap :=
  let t := h.length
  let protoTemplate := t + 1
  let instanceTemplate := t + 2
  let h := h ++ [⟨.functionTemplate ⟨[], none, none, none⟩, fun _ ↦ none,
    some (h.classPrototype (js "FunctionTemplate"))⟩]
  let h := h.newObjectTemplate.setTemplate t (js "prototype")
    ⟨.object protoTemplate, false, true, false⟩
  let h := h.newObjectTemplate.setPrototype instanceTemplate protoTemplate
  h.modifyFunctionData t fun d ↦ { d with instanceTemplate := some instanceTemplate }

/-- `FunctionTemplate::SetClassName` -/
def setClassName (h : Heap) (t : ℕ) (name : JSString) : Heap :=
  let h := h.modifyFunctionData t fun d ↦ { d with name := some name }
  match (h.functionData t).bind FunctionData.instanceTemplate with
  | some i => h.modifyObjectData i fun d ↦ { d with className := name }
  | none => h

/-- `FunctionTemplate::Inherit` -/
def inherit (h : Heap) (t parent : ℕ) : Heap := h.setProto t (some parent)

/-! ## What is built by templates -/

/-- The value of an attribute, where a template stands for what is built by it. -/
def instantiate (getFunction newInstance : Heap → ℕ → Option (ℕ × Heap)) (h : Heap) :
    Value → Option (Value × Heap)
  | .object a =>
    if (h.functionData a).isSome then (getFunction h a).map fun r ↦ (.object r.1, r.2)
    else if (h.objectData a).isSome then (newInstance h a).map fun r ↦ (.object r.1, r.2)
    else some (.object a, h)
  | v => some (v, h)

/-- The loop over the attributes of a template. -/
def setAttributes (E : Engine) (getFunction newInstance : Heap → ℕ → Option (ℕ × Heap)) (o : ℕ) :
    List Attribute → Heap → Option Heap
  | [], h => some h
  | a :: rest, h =>
    match h.instantiate getFunction newInstance a.value with
    | some (v, h) =>
      setAttributes E getFunction newInstance o rest
        ((E.name a.key).elim h fun n ↦ h.set o n ⟨v, false, true, false⟩)
    | none => none

/-- The prototype of an instance. -/
def instancePrototype (newInstance : Heap → ℕ → Option (ℕ × Heap)) (h : Heap) (d : ObjectData) :
    Option (ℕ × Heap) :=
  match d.prototype with
  | some p => newInstance h p
  | none => some (h.classPrototype d.className, h)

mutual

/-- `ObjectTemplate::NewInstance`. There is no result where the stack is used up, or where what is
taken for a template is none. -/
def newInstance (E : Engine) : ℕ → Heap → ℕ → Option (ℕ × Heap)
  | 0, _, _ => none
  | n + 1, h, t => do
    let d ← h.objectData t
    let (proto, h) ← h.instancePrototype (newInstance E n) d
    let o := h.length
    let h ← setAttributes E (getFunction E n) (newInstance E n) o (E.all d.attributes)
      (h ++ [⟨.instanceOf t, fun _ ↦ none, some proto⟩])
    return (o, h)

/-- `FunctionTemplate::GetFunction` -/
def getFunction (E : Engine) : ℕ → Heap → ℕ → Option (ℕ × Heap)
  | 0, _, _ => none
  | n + 1, h, t => do
    let d ← h.functionData t
    match d.cachedFunction with
    | some f => return (f, h)
    | none =>
      let f := h.length
      let h := h ++ [⟨.function (d.name.getD []) none, fun _ ↦ none, some builtinFunction⟩]
      -- PrototypeTemplate
      match h.get t (js "prototype") with
      | .object p =>
        let (proto, h) ← newInstance E n h p
        let h := h.set f (js "prototype") ⟨.object proto, false, true, false⟩
        let h : Heap := h.modify f fun c ↦ { c with kind := .function (d.name.getD []) (some t) }
        let h := h.modifyFunctionData t fun d ↦ { d with cachedFunction := some f }
        let h ← setAttributes E (getFunction E n) (newInstance E n) f (E.all d.attributes) h
        return (f, h)
      | _ => none

end

/-- `CallCallback` for a constructor, up to where the callback is called. -/
def construct (E : Engine) (h : Heap) (f : ℕ) : Option (ℕ × Heap) := do
  match ← h[f]?.map Cell.kind with
  | .function _ (some t) =>
    let d ← h.functionData t
    let (thiz, h) ← newInstance E E.frames h (← d.instanceTemplate)
    match h.get f (js "prototype") with
    | .object p => return (thiz, h.setProto thiz (some p))
    | _ => return (thiz, h)
  | _ => none

/-- `FunctionTemplate::HasInstance` -/
def hasInstance (h : Heap) (t o : ℕ) : Bool :=
  match h.proto o with
  | some p => p == t
  | none => false

end Heap

end SpiderNode.Templates
