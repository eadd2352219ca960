import SpiderNode.Machine.Runs
import SpiderNode.Objects.Named

/-!
# Hidden values

`Object::GetHiddenStore` of `deps/mozjs/js/src/v8api/object.cpp` keeps what the engine has no place
for in a map from the addresses of objects. Hidden values are properties of an ordinary object that
belongs to the entry. An entry is made when the store of an object is first asked for, and is not
removed when the object is collected, so that the next object at the address inherits it.

Beside the code, a run carries the values that are held: what was stored with each key in each
object since it was allocated, and has not been deleted. `WellHeld` is the invariant: what is in a
store is held under a key of its name.

Which objects are unreachable is up to the rest of the program; here any objects may be collected.
The rest of the program may also change the prototypes, its getters and setters and what memory
holds, so that they come with each event (`Rest`).
-/

namespace SpiderNode.Objects

open Buffer (Heap)
open Function (update)
open Net (JsError)

/-- `AccessorStorage::PropertyData` -/
structure Accessor where
  getter : ℕ
  setter : ℕ
  data : Value
  attribs : PropertyAttribute

/-- `Object::PrivateData` -/
structure PrivateData where
  hiddenValues : JSObject
  properties : JSString → Option Accessor

/-- Where `Object.prototype` is, and where the store is that is made for an object. -/
structure Layout where
  objectPrototype : ℕ
  store : ℕ → ℕ

/-- `PrivateData()`, for the object at an address. -/
def PrivateData.new (l : Layout) (a : ℕ) : PrivateData :=
  ⟨⟨l.store a, fun _ ↦ none, true, some l.objectPrototype⟩, fun _ ↦ none⟩

/-- The rest of the program at the time of a call. -/
structure Rest where
  memory : Heap
  chains : Chains
  functions : Functions

/-- The objects that exist, by their addresses, and their private data. -/
structure ObjectHeap where
  live : List ℕ
  privateDataMap : ℕ → Option PrivateData
  held : ℕ → JSString → Option Value

namespace ObjectHeap

def init : ObjectHeap := ⟨[], fun _ ↦ none, fun _ _ ↦ none⟩

def allocate (a : ℕ) (s : ObjectHeap) : ObjectHeap :=
  { s with live := a :: s.live, held := update s.held a fun _ ↦ none }

/-- Garbage collection. -/
def collect (freed : List ℕ) (s : ObjectHeap) : ObjectHeap :=
  { s with live := s.live.filter (· ∉ freed) }

def setPrivateData (a : ℕ) (pd : PrivateData) (s : ObjectHeap) : ObjectHeap :=
  { s with privateDataMap := update s.privateDataMap a (some pd) }

def hold (a : ℕ) (k : JSString) (v : Option Value) (s : ObjectHeap) : ObjectHeap :=
  { s with held := update s.held a (update (s.held a) k v) }

variable (l : Layout) (r : Rest)

/-- `GetHiddenStore` -/
def getHiddenStore (a : ℕ) (s : ObjectHeap) : PrivateData × ObjectHeap :=
  match s.privateDataMap a with
  | some pd => (pd, s)
  | none => (.new l a, s.setPrivateData a (.new l a))

/-- `SetHiddenValue` -/
def setHiddenValue (a : ℕ) (k : JSString) (v : Value) (s : ObjectHeap) :
    Except JsError (Bool × ObjectHeap) := do
  let (pd, s) := s.getHiddenStore l a
  let (stored, o) ← pd.hiddenValues.set r.chains r.functions r.memory k v .none
  return (stored, s.setPrivateData a { pd with hiddenValues := o })

/-- `GetHiddenValue` -/
def getHiddenValue (a : ℕ) (k : JSString) (s : ObjectHeap) :
    Except JsError (Option Value × ObjectHeap) := do
  let (pd, s) := s.getHiddenStore l a
  return (← pd.hiddenValues.get r.chains r.functions r.memory k, s)

/-- `DeleteHiddenValue` -/
def deleteHiddenValue (a : ℕ) (k : JSString) (s : ObjectHeap) :
    Except JsError (Bool × ObjectHeap) := do
  let (pd, s) := s.getHiddenStore l a
  let (deleted, o) ← pd.hiddenValues.delete r.memory k
  return (deleted, s.setPrivateData a { pd with hiddenValues := o })

/-- `SetAccessor`, as far as the store is concerned. -/
def setAccessor (a : ℕ) (n : JSString) (accessor : Accessor) (s : ObjectHeap) : ObjectHeap :=
  let (pd, s) := s.getHiddenStore l a
  s.setPrivateData a { pd with properties := update pd.properties n (some accessor) }

end ObjectHeap

/-! ## Runs -/

inductive ObjectEvent where
  | allocate (a : ℕ)
  | collect (freed : List ℕ)
  | setHiddenValue (r : Rest) (a : ℕ) (k : JSString) (v : Value)
  | getHiddenValue (r : Rest) (a : ℕ) (k : JSString)
  | deleteHiddenValue (r : Rest) (a : ℕ) (k : JSString)
  | setAccessor (a : ℕ) (n : JSString) (accessor : Accessor)

namespace ObjectHeap

/-- An object is allocated where there is none, and the others are done to objects that exist. -/
def Possible (s : ObjectHeap) : ObjectEvent → Prop
  | .allocate a => a ∉ s.live
  | .collect _ => True
  | .setHiddenValue _ a _ _ | .getHiddenValue _ a _ | .deleteHiddenValue _ a _
  | .setAccessor a _ _ => a ∈ s.live

instance (s : ObjectHeap) : DecidablePred s.Possible
  | .allocate a => inferInstanceAs (Decidable (a ∉ s.live))
  | .collect _ => .isTrue trivial
  | .setHiddenValue _ a _ _ | .getHiddenValue _ a _ | .deleteHiddenValue _ a _
  | .setAccessor a _ _ => inferInstanceAs (Decidable (a ∈ s.live))

variable (l : Layout)

def happen (s : ObjectHeap) : ObjectEvent → Except JsError ObjectHeap
  | .allocate a => .ok (s.allocate a)
  | .collect freed => .ok (s.collect freed)
  | .setHiddenValue r a k v => do
    let (stored, s) ← s.setHiddenValue l r a k v
    return if stored then s.hold a k (some v) else s
  | .getHiddenValue r a k => do
    let (_, s) ← s.getHiddenValue l r a k
    return s
  | .deleteHiddenValue r a k => do
    let (_, s) ← s.deleteHiddenValue l r a k
    return s.hold a k none
  | .setAccessor a n accessor => .ok (s.setAccessor l a n accessor)

def machine : Machine ObjectHeap ObjectEvent JsError := ⟨Possible, happen l⟩

instance (s : ObjectHeap) : DecidablePred ((machine l).guard s) := fun e ↦
  inferInstanceAs (Decidable (s.Possible e))

/-- A hidden value that an object has is held by it under that key. -/
def HiddenOwned (s : ObjectHeap) : Prop :=
  ∀ r a k v s', a ∈ s.live → s.getHiddenValue l r a k = .ok (some v, s') → v ≠ .undefined →
    s.held a k = some v

/-- What memory holds does not matter for the name of the key. -/
def Stable (k : JSString) : Prop := ∀ m m', name m k = name m' k

/-- An object is allocated at an address without an entry; what memory holds does not matter for the
keys that are set or deleted, and setting one calls no setter of the program; a key that is asked
for has not the name of another one that is held, nor of a property that the store has from a
prototype only. -/
def Calm (s : ObjectHeap) : ObjectEvent → Prop
  | .allocate a => s.privateDataMap a = none
  | .setHiddenValue r a k _ => Stable k ∧ ∀ n, name r.memory k = .ok (some n) →
    ((s.getHiddenStore l a).1.hiddenValues.inherited r.chains n).any Slot.callsSetter = false
  | .deleteHiddenValue _ _ k => Stable k
  | .getHiddenValue r a k => ∀ n, name r.memory k = .ok (some n) →
    (∀ m' k', name m' k' = .ok (some n) → s.held a k' ≠ none → k' = k) ∧
    ((s.getHiddenStore l a).1.hiddenValues.own n ≠ none ∨
      (s.getHiddenStore l a).1.hiddenValues.inherited r.chains n = none)
  | .collect _ | .setAccessor _ _ _ => True

end ObjectHeap

/-! ## What is in a store -/

variable {l : Layout} {pd : PrivateData} {h : JSString → Option Value} {r : Rest} {m : Heap}
  {k n : JSString} {v : Value} {o : JSObject}

/-- The hidden values of an entry are held. -/
def WellHeld (h : JSString → Option Value) (o : JSObject) : Prop :=
  ∀ n s, o.own n = some s → ∃ v, s.Plain v ∧ ∃ m k, name m k = .ok (some n) ∧ h k = some v

namespace WellHeld

theorem new (l : Layout) (a : ℕ) (h : JSString → Option Value) :
    WellHeld h (PrivateData.new l a).hiddenValues := by
  intro n s hs
  cases hs

theorem plain (ho : WellHeld h o) : ∀ s, o.own n = some s → ∃ v, s.Plain v := fun s hs ↦
  (ho n s hs).imp fun _ hv ↦ hv.1

theorem congr {o' : JSObject} (ho : WellHeld h o) (hown : o'.own = o.own) : WellHeld h o' := by
  intro n s hs
  rw [hown] at hs
  exact ho n s hs

/-- The property of the key's name is changed, together with what is held under the key. -/
theorem update_key (ho : WellHeld h o) (hstable : ObjectHeap.Stable k) {o' : JSObject}
    {held : Option Value}
    (hself : ∀ n s, name m k = .ok (some n) → o'.own n = some s → ∃ v, s.Plain v ∧ held = some v)
    (hother : ∀ n, name m k ≠ .ok (some n) → o'.own n = o.own n) :
    WellHeld (update h k held) o' := by
  intro n s hs
  by_cases hn : name m k = .ok (some n)
  · obtain ⟨v, hv, hheld⟩ := hself n s hn hs
    exact ⟨v, hv, m, k, hn, by rw [Function.update_self, hheld]⟩
  · rw [hother n hn] at hs
    obtain ⟨v, hv, m', k', hn', hheld⟩ := ho n s hs
    have hne : k' ≠ k := by
      rintro rfl
      exact hn ((hstable m m').trans hn')
    exact ⟨v, hv, m', k', hn', by rw [Function.update_of_ne hne, hheld]⟩

/-- What is stored is held. -/
theorem set (ho : WellHeld h o) (hstable : ObjectHeap.Stable k)
    (hcall : ∀ n, name r.memory k = .ok (some n) →
      (o.inherited r.chains n).any Slot.callsSetter = false) {stored : Bool} {o' : JSObject}
    (hset : o.set r.chains r.functions r.memory k v .none = .ok (stored, o')) :
    WellHeld (if stored then update h k (some v) else h) o' := by
  rcases JSObject.set_cases hset with ⟨n, o₁, hn, hprop, rfl⟩ | ⟨rfl, rfl⟩
  swap
  · exact ho
  rcases JSObject.setProperty_plain ho.plain (hcall n hn) hprop with
    ⟨hnone, hown⟩ | ⟨rfl, s, ⟨e, rfl⟩, rfl⟩
  · cases stored with
    | false => exact ho.congr hown
    | true =>
      have hheld : WellHeld (update h k (some v)) o := by
        refine ho.update_key hstable (m := r.memory) (fun n' s hn' hs ↦ ?_) fun _ _ ↦ rfl
        obtain rfl : n = n' := Option.some.inj (Except.ok.inj (hn.symm.trans hn'))
        rw [hnone] at hs
        cases hs
      exact hheld.congr ((JSObject.own_setAttribs_of_none (hown ▸ hnone)).trans hown)
  · refine ho.update_key hstable (m := r.memory) (fun n' s hn' hs ↦ ?_) fun n' hn' ↦ ?_
    · obtain rfl : n = n' := Option.some.inj (Except.ok.inj (hn.symm.trans hn'))
      rw [if_pos rfl, JSObject.setAttribs, JSObject.setPropertyAttributes_put,
        JSObject.own_put_self] at hs
      exact ⟨v, ⟨_, (Option.some.inj hs).symm⟩, rfl⟩
    · have hne : n' ≠ n := fun h ↦ hn' (h ▸ hn)
      rw [if_pos rfl, JSObject.setAttribs, JSObject.setPropertyAttributes_put,
        JSObject.own_put_of_ne hne]

/-- What is deleted is not held. -/
theorem delete (ho : WellHeld h o) (hstable : ObjectHeap.Stable k) {deleted : Bool} {o' : JSObject}
    (hdel : o.delete m k = .ok (deleted, o')) : WellHeld (update h k none) o' := by
  rcases JSObject.delete_cases hdel with ⟨n, hn, rfl⟩ | ⟨hn, rfl⟩
  · have hperm : (o.own n).any Slot.permanent = false := by
      cases hown : o.own n with
      | none => rfl
      | some s =>
        obtain ⟨v, e, rfl⟩ := ho.plain s hown
        rfl
    have hgone : (o.deleteProperty n).2 = o.put n none := by
      simp [JSObject.deleteProperty, hperm]
    rw [hgone]
    refine ho.update_key hstable (m := m) (fun n' s hn' hs ↦ ?_) fun n' hn' ↦ ?_
    · obtain rfl : n = n' := Option.some.inj (Except.ok.inj (hn.symm.trans hn'))
      rw [JSObject.own_put_self] at hs
      cases hs
    · exact JSObject.own_put_of_ne fun h ↦ hn' (h ▸ hn)
  · refine ho.update_key hstable (m := m) (fun n' s hn' _ ↦ ?_) fun _ _ ↦ rfl
    rw [hn] at hn'
    cases hn'

/-- A value that is read, and not inherited, is held under the key if no other key has its name. -/
theorem get (ho : WellHeld h o) (hv : v ≠ .undefined)
    (hget : o.get r.chains r.functions r.memory k = .ok (some v))
    (hcalm : ∀ n, name r.memory k = .ok (some n) →
      (∀ m' k', name m' k' = .ok (some n) → h k' ≠ none → k' = k) ∧
      (o.own n ≠ none ∨ o.inherited r.chains n = none)) : h k = some v := by
  rcases hname : name r.memory k with e | ⟨_ | n⟩
  · rw [JSObject.get, hname] at hget
    cases hget
  · rw [JSObject.get, hname] at hget
    cases hget
  · obtain ⟨hother, hinherited⟩ := hcalm n hname
    rw [JSObject.get_eq hname] at hget
    cases hown : o.own n with
    | some s =>
      obtain ⟨v', ⟨e, rfl⟩, m', k', hn', hheld⟩ := ho n s hown
      rw [JSObject.getProperty_of_own hown] at hget
      obtain rfl := Option.some.inj (Except.ok.inj hget)
      rw [← hother m' k' hn' (by rw [hheld]; simp), hheld]
    | none =>
      have hnone : o.inherited r.chains n = none := by simpa [hown] using hinherited
      rw [JSObject.getProperty, JSObject.lookup_of_own_none hown, hnone] at hget
      exact absurd (Option.some.inj (Except.ok.inj hget)).symm hv

end WellHeld

/-! ## The objects of a run -/

namespace ObjectHeap

variable {s t : ObjectHeap} {a : ℕ}

/-- What is in the stores is held. -/
def StoresHeld (s : ObjectHeap) : Prop :=
  ∀ a pd, s.privateDataMap a = some pd → WellHeld (s.held a) pd.hiddenValues

/-- One entry is changed, and what is held by the object at that address. -/
theorem StoresHeld.update (hs : s.StoresHeld) (hmap : ∀ b ≠ a,
    t.privateDataMap b = s.privateDataMap b ∧ t.held b = s.held b)
    (ha : ∀ pd, t.privateDataMap a = some pd → WellHeld (t.held a) pd.hiddenValues) :
    t.StoresHeld := by
  intro b pd hb
  by_cases hba : b = a
  · subst hba
    exact ha pd hb
  · rw [(hmap b hba).1] at hb
    rw [(hmap b hba).2]
    exact hs b pd hb

/-- The store that is asked for is well held, whether or not it has been made just now. -/
theorem StoresHeld.store (hs : s.StoresHeld) (a : ℕ) :
    WellHeld (s.held a) (s.getHiddenStore l a).1.hiddenValues := by
  unfold getHiddenStore
  split
  · rename_i pd hpd
    exact hs a pd hpd
  · exact .new l a _

theorem getHiddenStore_of_ne {b : ℕ} (h : b ≠ a) :
    (s.getHiddenStore l a).2.privateDataMap b = s.privateDataMap b := by
  unfold getHiddenStore
  split
  · rfl
  · exact Function.update_of_ne h ..

@[simp] theorem held_getHiddenStore : (s.getHiddenStore l a).2.held = s.held := by
  unfold getHiddenStore
  split <;> rfl

/-- What `SetHiddenValue` does. -/
theorem exists_of_setHiddenValue {stored : Bool}
    (h : s.setHiddenValue l r a k v = .ok (stored, t)) :
    ∃ o, (s.getHiddenStore l a).1.hiddenValues.set r.chains r.functions r.memory k v .none =
        .ok (stored, o) ∧
      t = (s.getHiddenStore l a).2.setPrivateData a
        { (s.getHiddenStore l a).1 with hiddenValues := o } := by
  obtain ⟨⟨stored', o⟩, ho, h⟩ := Machine.exists_of_bind_eq_ok h
  obtain ⟨hstored, ht⟩ := Prod.mk.inj (Except.ok.inj h)
  exact ⟨o, hstored ▸ ho, ht.symm⟩

theorem exists_of_getHiddenValue {x : Option Value}
    (h : s.getHiddenValue l r a k = .ok (x, t)) :
    (s.getHiddenStore l a).1.hiddenValues.get r.chains r.functions r.memory k = .ok x ∧
      t = (s.getHiddenStore l a).2 := by
  obtain ⟨x', hx, h⟩ := Machine.exists_of_bind_eq_ok h
  obtain ⟨hx', ht⟩ := Prod.mk.inj (Except.ok.inj h)
  exact ⟨hx' ▸ hx, ht.symm⟩

theorem exists_of_deleteHiddenValue {deleted : Bool}
    (h : s.deleteHiddenValue l r a k = .ok (deleted, t)) :
    ∃ o, (s.getHiddenStore l a).1.hiddenValues.delete r.memory k = .ok (deleted, o) ∧
      t = (s.getHiddenStore l a).2.setPrivateData a
        { (s.getHiddenStore l a).1 with hiddenValues := o } := by
  obtain ⟨⟨deleted', o⟩, ho, h⟩ := Machine.exists_of_bind_eq_ok h
  obtain ⟨hdeleted, ht⟩ := Prod.mk.inj (Except.ok.inj h)
  exact ⟨o, hdeleted ▸ ho, ht.symm⟩

/-- Asking for a store changes nothing, apart from making it. -/
theorem StoresHeld.asked (hs : s.StoresHeld) (a : ℕ) :
    (s.getHiddenStore l a).2.StoresHeld := by
  refine hs.update (a := a) (fun b hb ↦ ⟨getHiddenStore_of_ne hb, by rw [held_getHiddenStore]⟩)
    fun pd hpd ↦ ?_
  have hstore : pd = (s.getHiddenStore l a).1 := by
    unfold getHiddenStore at hpd ⊢
    split at hpd
    · rename_i pd' hpd'
      exact Option.some.inj (hpd.symm.trans hpd')
    · rw [setPrivateData] at hpd
      simpa using hpd.symm
  rw [hstore, held_getHiddenStore]
  exact hs.store a

@[simp] theorem privateDataMap_setPrivateData :
    (s.setPrivateData a pd).privateDataMap = update s.privateDataMap a (some pd) := rfl

@[simp] theorem held_setPrivateData : (s.setPrivateData a pd).held = s.held := rfl

/-- The entry of the store that has been asked for is replaced. -/
theorem StoresHeld.replace (hs : s.StoresHeld) {pd : PrivateData}
    {held : JSString → Option Value} (hpd : WellHeld held pd.hiddenValues)
    (hheld : t.held = Function.update s.held a held)
    (ht : t.privateDataMap = ((s.getHiddenStore l a).2.setPrivateData a pd).privateDataMap) :
    t.StoresHeld := by
  refine hs.update (a := a) (fun b hb ↦ ⟨?_, ?_⟩) fun pd' hpd' ↦ ?_
  · rw [ht, privateDataMap_setPrivateData, Function.update_of_ne hb, getHiddenStore_of_ne hb]
  · rw [hheld, Function.update_of_ne hb]
  · rw [ht, privateDataMap_setPrivateData, Function.update_self] at hpd'
    obtain rfl := Option.some.inj hpd'
    rw [hheld, Function.update_self]
    exact hpd

/-- A calm step keeps the stores held. -/
theorem StoresHeld.happen (hs : s.StoresHeld) {e : ObjectEvent} (hcalm : s.Calm l e)
    (ht : s.happen l e = .ok t) : t.StoresHeld := by
  cases e with
  | allocate a =>
    obtain rfl := Except.ok.inj ht
    refine hs.update (a := a) (fun b hb ↦ ⟨rfl, Function.update_of_ne hb ..⟩) fun pd hpd ↦ ?_
    have hnone : s.privateDataMap a = none := hcalm
    exact absurd (hnone.symm.trans hpd) (by simp)
  | collect freed =>
    obtain rfl := Except.ok.inj ht
    exact hs
  | setHiddenValue r a k v =>
    obtain ⟨⟨stored, s'⟩, hset, ht⟩ := Machine.exists_of_bind_eq_ok ht
    obtain ⟨o, ho, rfl⟩ := exists_of_setHiddenValue hset
    obtain rfl := Except.ok.inj ht
    have hpd := (hs.store a).set hcalm.1 hcalm.2 ho
    cases stored with
    | true => exact hs.replace hpd (by simp [hold]) rfl
    | false => exact hs.replace hpd (by simp) rfl
  | getHiddenValue r a k =>
    obtain ⟨⟨_, s'⟩, hget, ht⟩ := Machine.exists_of_bind_eq_ok ht
    obtain ⟨-, rfl⟩ := exists_of_getHiddenValue hget
    obtain rfl := Except.ok.inj ht
    exact hs.asked a
  | deleteHiddenValue r a k =>
    obtain ⟨⟨deleted, s'⟩, hdel, ht⟩ := Machine.exists_of_bind_eq_ok ht
    obtain ⟨o, ho, rfl⟩ := exists_of_deleteHiddenValue hdel
    obtain rfl := Except.ok.inj ht
    exact hs.replace ((hs.store a).delete hcalm ho) (by simp [hold]) rfl
  | setAccessor a n accessor =>
    obtain rfl := Except.ok.inj ht
    exact hs.replace (a := a) (by exact hs.store a) (by simp [setAccessor]) rfl

theorem storesHeld_of_calm (h : ((machine l).restrict (Calm l)).Reaches .init s) :
    s.StoresHeld := by
  refine h.invariant (p := fun s ↦ s.StoresHeld) (fun _ _ hpd ↦ ?_) fun hs hg ht ↦ ?_
  · cases hpd
  · exact hs.happen hg.2 ht

/-- **Hidden values belong to their own object.** In a calm run, a hidden value that is asked for
calmly is held by the object under that key. -/
theorem held_of_getHiddenValue (h : ((machine l).restrict (Calm l)).Reaches .init s)
    (hcalm : s.Calm l (.getHiddenValue r a k))
    (hget : s.getHiddenValue l r a k = .ok (some v, t)) (hv : v ≠ .undefined) :
    s.held a k = some v :=
  ((storesHeld_of_calm h).store a).get hv (exists_of_getHiddenValue hget).1 hcalm

/-- An ASCII key without `NUL` has one name. -/
theorem stable_of_isAscii (hk : IsAscii k) (hnul : 0 ∉ k) : Stable k := fun m m' ↦
  (name_of_isAscii m hk hnul).trans (name_of_isAscii m' hk hnul).symm

/-- A sufficient condition that can be decided: the keys are ASCII without `NUL`, and no setter is
inherited under them. Nothing is asked for. -/
def Ready (l : Layout) (s : ObjectHeap) : ObjectEvent → Prop
  | .allocate a => (s.privateDataMap a).isNone
  | .setHiddenValue r a k _ => (IsAscii k ∧ 0 ∉ k) ∧
    ((s.getHiddenStore l a).1.hiddenValues.inherited r.chains k).any Slot.callsSetter = false
  | .deleteHiddenValue _ _ k => IsAscii k ∧ 0 ∉ k
  | .getHiddenValue .. => False
  | .collect _ | .setAccessor _ _ _ => True

instance (l : Layout) (s : ObjectHeap) : DecidablePred (Ready l s)
  | .allocate a => inferInstanceAs (Decidable ((s.privateDataMap a).isNone = true))
  | .setHiddenValue r a k _ => inferInstanceAs (Decidable ((IsAscii k ∧ 0 ∉ k) ∧
    ((s.getHiddenStore l a).1.hiddenValues.inherited r.chains k).any Slot.callsSetter = false))
  | .deleteHiddenValue _ _ k => inferInstanceAs (Decidable (IsAscii k ∧ 0 ∉ k))
  | .getHiddenValue .. => .isFalse id
  | .collect _ | .setAccessor _ _ _ => .isTrue trivial

theorem Ready.calm {e : ObjectEvent} (h : Ready l s e) : s.Calm l e := by
  cases e with
  | allocate a => exact Option.isNone_iff_eq_none.mp h
  | collect freed => trivial
  | setHiddenValue r a k v =>
    refine ⟨stable_of_isAscii h.1.1 h.1.2, fun n hn ↦ ?_⟩
    rw [name_of_isAscii _ h.1.1 h.1.2] at hn
    obtain rfl := Option.some.inj (Except.ok.inj hn)
    exact h.2
  | getHiddenValue r a k => exact h.elim
  | deleteHiddenValue r a k => exact stable_of_isAscii h.1 h.2
  | setAccessor a n accessor => trivial

/-- `Object.prototype` at 100, with `__proto__` only. -/
def someLayout : Layout := ⟨100, (200 + ·)⟩

def someRest : Rest where
  memory := ⟨fun _ ↦ 0, 0, 0, 0⟩
  chains a := if a = 100 then
    [(100, fun n ↦ if n = js "__proto__" then some (.proto true false) else none)] else []
  functions := JSObject.idle

/-- Two objects have a value under the same key. One value is deleted, and an object without hidden
values is collected. -/
def someEvents : List ObjectEvent :=
  [.allocate 0, .allocate 1, .allocate 2, .setHiddenValue someRest 0 (js "a") .null,
    .setHiddenValue someRest 1 (js "a") (.boolean true),
    .setHiddenValue someRest 1 (js "b") .null, .deleteHiddenValue someRest 0 (js "a"),
    .collect [2], .allocate 2, .setHiddenValue someRest 2 (js "a") .null]

theorem held_of_getHiddenValue_some : ∃ s t, (machine someLayout).run init someEvents = some s ∧
    s.getHiddenValue someLayout someRest 1 (js "a") = .ok (some (.boolean true), t) ∧
    s.held 1 (js "a") = some (.boolean true) := by
  have ha : IsAscii (js "a") ∧ 0 ∉ js "a" := by decide
  have hb : IsAscii (js "b") ∧ 0 ∉ js "b" := by decide
  obtain ⟨s, hs⟩ : ∃ s, ((machine someLayout).restrict (Ready someLayout)).run init someEvents =
      some s := ⟨_, rfl⟩
  have hreach := (Machine.reaches_of_run hs).restrict_mono Ready.calm
  have hheld : s.held 1 = update (update (fun _ ↦ none) (js "a") (some (.boolean true))) (js "b")
      (some .null) := by
    obtain rfl := Option.some.inj hs
    rfl
  obtain ⟨t, hget⟩ : ∃ t, s.getHiddenValue someLayout someRest 1 (js "a") =
      .ok (some (.boolean true), t) := by
    obtain rfl := Option.some.inj hs
    exact ⟨_, rfl⟩
  have hown : (s.getHiddenStore someLayout 1).1.hiddenValues.own (js "a") ≠ none := by
    obtain rfl := Option.some.inj hs
    decide
  refine ⟨s, t, hs, hget, held_of_getHiddenValue hreach (fun n hn ↦ ?_) hget (by decide)⟩
  obtain rfl : js "a" = n :=
    Option.some.inj (Except.ok.inj ((name_of_isAscii _ ha.1 ha.2).symm.trans hn))
  refine ⟨fun m' k' hk' hk ↦ ?_, .inl hown⟩
  by_contra hne
  -- the other key that is held has another name
  obtain rfl : k' = js "b" := by
    by_contra hne'
    exact hk (by rw [hheld, Function.update_of_ne hne', Function.update_of_ne hne])
  rw [name_of_isAscii m' hb.1 hb.2] at hk'
  exact absurd hk' (by decide)

/-- What a collected object has stored is found by the next one at its address. -/
theorem address_reused :
    ¬∀ s, (machine someLayout).Reaches .init s → s.HiddenOwned someLayout := by
  intro h
  have hreach := Machine.reaches_of_run (M := machine someLayout) (s := init)
    (l := [.allocate 0, .setHiddenValue someRest 0 (js "a") .null, .collect [0], .allocate 0]) rfl
  have hheld := h _ hreach someRest 0 (js "a") .null _ (by decide) rfl (by decide)
  exact absurd hheld (by decide)

end ObjectHeap

end SpiderNode.Objects
