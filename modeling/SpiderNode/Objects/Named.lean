import SpiderNode.Buffer.Base64
import SpiderNode.Machine.Runs
import SpiderNode.Objects.Accessors
import Mathlib.Data.List.TakeWhile

/-!
# Named properties

`Object::Set`, `Get`, `Has` and `Delete` of `deps/mozjs/js/src/v8api/object.cpp`, with a string for
the key. The key becomes a C string by `String::AsciiValue`, and the C string the name of a property
by `js_Atomize`, which takes it for UTF-8. Both lose characters:

* `WriteAscii` drops what is not one byte, or makes another byte of it;
* the C string ends at the first `NUL`;
* a short C string that is not UTF-8 is used as far as it is.

So different keys may have one name. And what is found under the name need not be a property that is
written: it may be `__proto__`, or an accessor (`behavesAsMap_iff`).
-/

namespace SpiderNode.Objects

open Buffer (Heap writeAscii asciiByte)
open Net (JsError)

/-! ## Names -/

/-- `InflateUTF8StringToBuffer`, where the caller does not ask whether it has succeeded: the
characters in front of the first bad one. -/
def inflatePrefix : Bytes → JSString
  | [] => []
  | a :: rest =>
    if a.toNat < 0x80 then .ofNat a.toNat :: inflatePrefix rest
    else if a.toNat < 0xC0 then []
    else if a.toNat < 0xE0 then
      match rest with
      | b :: rest =>
        if isContinuation b then
          match codePointUnits 0x80 (a.toNat % 0x20 * 0x40 + b.toNat % 0x40) with
          | some u => u ++ inflatePrefix rest
          | none => []
        else []
      | _ => []
    else if a.toNat < 0xF0 then
      match rest with
      | b :: c :: rest =>
        if isContinuation b && isContinuation c then
          match codePointUnits 0x800
            (a.toNat % 0x10 * 0x1000 + b.toNat % 0x40 * 0x40 + c.toNat % 0x40) with
          | some u => u ++ inflatePrefix rest
          | none => []
        else []
      | _ => []
    else if a.toNat < 0xF8 then
      match rest with
      | b :: c :: d :: rest =>
        if isContinuation b && isContinuation c && isContinuation d then
          match codePointUnits 0x10000 (a.toNat % 0x08 * 0x40000 + b.toNat % 0x40 * 0x1000
            + c.toNat % 0x40 * 0x40 + d.toNat % 0x40) with
          | some u => u ++ inflatePrefix rest
          | none => []
        else []
      | _ => []
    else []

/-- `js_Atomize`, with `ATOMIZE_BUF_MAX`. The error that is reported is not looked at. -/
def atomize (b : Bytes) : Option JSString :=
  if b.length < 32 then some (inflatePrefix b) else utf8Decode b

/-- `String::AsciiValue`, as a C string. The length of a string that has no UTF-8 form is taken for
the size of an allocation. -/
def asciiValue (m : Heap) (k : JSString) : Except JsError Bytes :=
  if WellFormed k then .ok ((writeAscii m (k.length + 1) (utf8Bytes k)).takeWhile (· ≠ 0))
  else .error .fault

/-- The name of the property that a key stands for. -/
def name (m : Heap) (k : JSString) : Except JsError (Option JSString) :=
  (asciiValue m k).map atomize

/-! ## Which keys are told apart -/

/-- Without surrogates, a code unit is kept as a byte or dropped. -/
theorem name_eq (m : Heap) {k : JSString} (hk : ∀ u ∈ k, (isHigh u || isLow u) = false) :
    name m k = .ok (atomize ((k.filterMap asciiByte).takeWhile (· ≠ 0))) := by
  have hlen : (k.filterMap asciiByte).length ≤ k.length + 1 :=
    Nat.le_succ_of_le (List.length_filterMap_le ..)
  rw [name, asciiValue, if_pos (wellFormed_of_not_surrogate hk), Buffer.writeAscii_utf8Bytes m hk,
    List.take_of_length_le hlen]
  rfl

-- one step of the recursion; the equation of all cases takes long to check
theorem inflatePrefix_cons {a : UInt8} (h : a.toNat < 0x80) (b : Bytes) :
    inflatePrefix (a :: b) = .ofNat a.toNat :: inflatePrefix b := by
  delta inflatePrefix
  exact if_pos h

theorem inflatePrefix_of_ascii {b : Bytes} (h : ∀ x ∈ b, x.toNat < 0x80) :
    inflatePrefix b = asciiText b := by
  induction b with
  | nil => rfl
  | cons a b ih =>
    rw [inflatePrefix_cons (h a (by simp)), ih fun x hx ↦ h x (by simp [hx])]
    rfl

theorem atomize_of_ascii {b : Bytes} (h : ∀ x ∈ b, x.toNat < 0x80) :
    atomize b = some (asciiText b) := by
  unfold atomize
  split
  · rw [inflatePrefix_of_ascii h]
  · exact utf8Decode_of_ascii h

theorem asciiText_latin1Bytes {k : JSString} (hk : IsAscii k) : asciiText (latin1Bytes k) = k := by
  rw [asciiText, latin1Bytes, List.map_map]
  conv_rhs => rw [← List.map_id k]
  refine List.map_congr_left fun u hu ↦ ?_
  have hlt := hk u hu
  apply UInt16.toNat_inj.mp
  simp only [Function.comp, UInt16.toNat_toUInt8, UInt16.toNat_ofNat', id]
  omega

/-- An ASCII key without `NUL` is the name of its property. -/
theorem name_of_isAscii (m : Heap) {k : JSString} (hk : IsAscii k) (hnul : 0 ∉ k) :
    name m k = .ok (some k) := by
  have hbytes : (latin1Bytes k).takeWhile (· ≠ 0) = latin1Bytes k := by
    refine List.takeWhile_eq_self_iff.mpr fun x hx ↦ ?_
    obtain ⟨u, hu, rfl⟩ := List.mem_map.mp hx
    have hlt := hk u hu
    have hne : u ≠ 0 := fun h ↦ hnul (h ▸ hu)
    have hpos : u.toNat ≠ 0 := fun h ↦ hne (UInt16.toNat_inj.mp h)
    simp only [ne_eq, decide_not, Bool.not_eq_true', decide_eq_false_iff_not]
    intro h
    have := congrArg UInt8.toNat h
    rw [UInt16.toNat_toUInt8] at this
    simp at this
    omega
  have hascii : ∀ x ∈ latin1Bytes k, x.toNat < 0x80 := by
    intro x hx
    obtain ⟨u, hu, rfl⟩ := List.mem_map.mp hx
    have hlt := hk u hu
    rw [UInt16.toNat_toUInt8]
    omega
  rw [name, asciiValue, if_pos (Buffer.wellFormed_of_isAscii hk), Buffer.writeAscii_of_isAscii m hk,
    hbytes]
  change Except.ok (atomize (latin1Bytes k)) = _
  rw [atomize_of_ascii hascii, asciiText_latin1Bytes hk]

/-! ## The operations -/

/-- `PropertyAttribute` -/
structure PropertyAttribute where
  readOnly : Bool
  dontEnum : Bool
  dontDelete : Bool

namespace PropertyAttribute

/-- `None` -/
def none : PropertyAttribute := ⟨false, false, false⟩

/-- The property that is stored. -/
def property (attribs : PropertyAttribute) (v : Value) : Property :=
  ⟨v, attribs.readOnly, !attribs.dontEnum, attribs.dontDelete⟩

end PropertyAttribute

/-- The attributes, as `JS_SetPropertyAttributes` is given them. -/
def JSObject.setAttribs (n : JSString) (attribs : PropertyAttribute) (o : JSObject) : JSObject :=
  o.setPropertyAttributes n attribs.readOnly (!attribs.dontEnum) attribs.dontDelete

namespace JSObject

variable (c : Chains) (f : Functions)

/-- `Object::Set` -/
def set (m : Heap) (k : JSString) (v : Value) (attribs : PropertyAttribute) (o : JSObject) :
    Except JsError (Bool × JSObject) := do
  match ← name m k with
  | some n =>
    let (success, o) ← o.setProperty c f n v
    return (success, if success then o.setAttribs n attribs else o)
  | none => return (false, o)

/-- `Object::Get`; `none` is an empty handle. -/
def get (m : Heap) (k : JSString) (o : JSObject) : Except JsError (Option Value) := do
  match ← name m k with
  | some n => o.getProperty c f n
  | none => return none

/-- `Object::Has` -/
def has (m : Heap) (k : JSString) (o : JSObject) : Except JsError Bool := do
  return (← name m k).any (o.hasProperty c)

/-- `Object::Delete` -/
def delete (m : Heap) (k : JSString) (o : JSObject) : Except JsError (Bool × JSObject) := do
  match ← name m k with
  | some n => return o.deleteProperty n
  | none => return (false, o)

/-- What `Delete` answers, and what `Get` answers then. -/
def deleteThenGet (m m' : Heap) (k : JSString) (o : JSObject) :
    Except JsError (Bool × Option Value) := do
  let (deleted, o) ← o.delete m k
  return (deleted, ← o.get c f m' k)

/-- Setting one key makes it what is read under that key, and does not affect another one. The
contents of memory are not the same at each call, and the functions of the program are any. -/
def BehavesAsMap (o : JSObject) (k₁ k₂ : JSString) : Prop :=
  ∀ (f : Functions) (m : Heap) (v : Value) (attribs : PropertyAttribute) (o' : JSObject),
    o.set c f m k₁ v attribs = .ok (true, o') → ∀ m' m'' : Heap,
      o'.get c f m' k₁ = .ok (some v) ∧ o'.has c m' k₁ = .ok true ∧
      (k₁ ≠ k₂ → o'.get c f m' k₂ = o.get c f m' k₂ ∧ o'.has c m' k₂ = o.has c m' k₂ ∧
        o'.deleteThenGet c f m' m'' k₂ = o.deleteThenGet c f m' m'' k₂)

variable {c} {f} {o o' : JSObject} {m m' m'' : Heap} {k k₁ k₂ n n' : JSString} {v : Value}
  {attribs : PropertyAttribute}

theorem get_eq (h : name m k = .ok (some n)) : o.get c f m k = o.getProperty c f n := by
  rw [get, h]
  rfl

theorem has_eq (h : name m k = .ok (some n)) : o.has c m k = .ok (o.hasProperty c n) := by
  rw [has, h]
  rfl

theorem delete_eq (h : name m k = .ok (some n)) : o.delete m k = .ok (o.deleteProperty n) := by
  rw [delete, h]
  rfl

theorem set_eq (h : name m k = .ok (some n)) (hset : o.setProperty c f n v = .ok (true, o')) :
    o.set c f m k v attribs = .ok (true, o'.setAttribs n attribs) := by
  rw [set, h]
  change (o.setProperty c f n v >>= _) = _
  rw [hset]
  rfl

theorem own_setAttribs_of_none (h : o.own n = none) : (o.setAttribs n attribs).own = o.own := by
  rw [setAttribs, setPropertyAttributes, h]
  exact (congrArg _ h.symm).trans (Function.update_eq_self n o.own)

/-- What `Set` that is answered has done. -/
theorem set_cases {stored : Bool} (h : o.set c f m k v attribs = .ok (stored, o')) :
    (∃ n o₁, name m k = .ok (some n) ∧ o.setProperty c f n v = .ok (stored, o₁) ∧
      o' = if stored then o₁.setAttribs n attribs else o₁) ∨ stored = false ∧ o' = o := by
  rcases hname : name m k with e | ⟨_ | n⟩
  · rw [set, hname] at h
    cases h
  · rw [set, hname] at h
    cases h
    exact .inr ⟨rfl, rfl⟩
  · rw [set, hname] at h
    change (o.setProperty c f n v).bind _ = _ at h
    obtain ⟨⟨success, o₁⟩, hset, h⟩ := Machine.exists_of_bind_eq_ok h
    obtain ⟨hsuccess, ho'⟩ := Prod.mk.inj (Except.ok.inj h)
    exact .inl ⟨n, o₁, rfl, hsuccess ▸ hset, hsuccess ▸ ho'.symm⟩

/-- `Delete` that is answered has deleted what has the name of the key, if anything. -/
theorem delete_cases {deleted : Bool} (h : o.delete m k = .ok (deleted, o')) :
    (∃ n, name m k = .ok (some n) ∧ o' = (o.deleteProperty n).2) ∨
      name m k = .ok none ∧ o' = o := by
  rcases hname : name m k with e | ⟨_ | n⟩
  · rw [delete, hname] at h
    cases h
  · rw [delete, hname] at h
    cases h
    exact .inr ⟨rfl, rfl⟩
  · rw [delete_eq hname] at h
    exact .inl ⟨n, rfl, (congrArg Prod.snd (Except.ok.inj h)).symm⟩

/-- Objects that have the same under all names of a key give the same answer. -/
theorem get_congr (h : ∀ n, name m k = .ok (some n) →
    o.getProperty c f n = o'.getProperty c f n) : o.get c f m k = o'.get c f m k := by
  rcases hname : name m k with e | ⟨_ | n⟩
  · rw [get, get, hname]
    rfl
  · rw [get, get, hname]
    rfl
  · rw [get_eq hname, get_eq hname, h n hname]

theorem has_congr (h : ∀ n, name m k = .ok (some n) → SameAt n o o') :
    o.has c m k = o'.has c m k := by
  rcases hname : name m k with e | ⟨_ | n⟩
  · rw [has, has, hname]
    rfl
  · rw [has, has, hname]
    rfl
  · rw [has_eq hname, has_eq hname, (h n hname).hasProperty_eq]

theorem deleteThenGet_eq (h : name m k = .ok (some n)) :
    o.deleteThenGet c f m m' k =
      ((o.deleteProperty n).2.get c f m' k).map (Prod.mk (o.deleteProperty n).1) := by
  rw [deleteThenGet, delete_eq h]
  change ((o.deleteProperty n).2.get c f m' k >>= fun r ↦ pure ((o.deleteProperty n).1, r)) = _
  cases (o.deleteProperty n).2.get c f m' k <;> rfl

theorem get_of_deleteThenGet (h : name m k = .ok (some n))
    (hdel : o.deleteThenGet c f m m' k = o'.deleteThenGet c f m m' k) :
    (o.deleteProperty n).2.get c f m' k = (o'.deleteProperty n).2.get c f m' k := by
  have hsnd := congrArg (Except.map Prod.snd) hdel
  rw [deleteThenGet_eq h, deleteThenGet_eq h] at hsnd
  revert hsnd
  cases (o.deleteProperty n).2.get c f m' k <;> cases (o'.deleteProperty n).2.get c f m' k <;>
    simp [Except.map]

theorem deleteThenGet_congr (h : ∀ m n, name m k = .ok (some n) → SameAt n o o')
    (hask : ∀ m n, name m k = .ok (some n) → o.CallsGetter c n = false) :
    o.deleteThenGet c f m m' k = o'.deleteThenGet c f m m' k := by
  have hget : o.get c f m' k = o'.get c f m' k := get_congr fun n hn ↦
    (h m' n hn).getProperty_eq fun hx ↦
      absurd hx (by simp [(Bool.or_eq_false_iff.mp (hask m' n hn)).1])
  rcases hname : name m k with e | ⟨_ | n⟩
  · rw [deleteThenGet, deleteThenGet, delete, delete, hname]
    rfl
  · rw [deleteThenGet, deleteThenGet, delete, delete, hname]
    change (o.get c f m' k >>= fun r ↦ pure (false, r)) =
      (o'.get c f m' k >>= fun r ↦ pure (false, r))
    rw [hget]
  · have hanswer := ((h m n hname).deleteProperty (h m n hname)).1
    have hthen : (o.deleteProperty n).2.get c f m' k = (o'.deleteProperty n).2.get c f m' k :=
      get_congr fun n' hn' ↦
        ((h m n hname).deleteProperty (h m' n' hn')).2.getProperty_eq fun hx ↦
          absurd hx (by simp [callsGetter_deleteProperty (hask m' n' hn')])
    rw [deleteThenGet_eq hname, deleteThenGet_eq hname, hanswer, hthen]

/-! ## The law -/

/-- A value is accepted under a name: nothing else is changed. -/
theorem set_of_accepts (f : Functions) (hn : name m k = .ok (some n)) (hacc : o.Accepts c n = true)
    (v : Value) (attribs : PropertyAttribute) : ∃ p : Property, p.value = v ∧
      o.set c f m k v attribs = .ok (true, o.put n (some (.data p false false))) := by
  obtain ⟨p, rfl, hset⟩ := setProperty_of_accepts f hacc v
  refine ⟨⟨p.value, attribs.readOnly, !attribs.dontEnum, attribs.dontDelete || p.permanent⟩, rfl,
    ?_⟩
  rw [set_eq hn hset, setAttribs, setPropertyAttributes_put]

/-- Some value that is no prototype is not what is read. -/
theorem exists_ne (r : Except JsError (Option Value)) : ∃ v, Simple v ∧ r ≠ .ok (some v) := by
  by_cases h : r = .ok (some .undefined)
  · exact ⟨.boolean true, .inr rfl, by simp [h]⟩
  · exact ⟨.undefined, .inl rfl, h⟩

/-- The names under which a key can be stored are accepted, and are names of no other key. -/
theorem behavesAsMap_of (h : ∀ m n, name m k₁ = .ok (some n) → o.Rejects c n = true ∨
    o.Accepts c n = true ∧ (∀ m', name m' k₁ = .ok (some n)) ∧ (k₁ ≠ k₂ →
      ∀ m' n', name m' k₂ = .ok (some n') → n' ≠ n ∧ o.CallsGetter c n' = false)) :
    o.BehavesAsMap c k₁ k₂ := by
  intro f m v attribs o' hset m' m''
  rcases set_cases hset with ⟨n, o₁, hn, hprop, -⟩ | ⟨hfalse, -⟩
  swap
  · cases hfalse
  rcases h m n hn with hrej | ⟨hacc, hsame, hother⟩
  · exact absurd hprop (setProperty_of_rejects hrej)
  · obtain ⟨p, rfl, hput⟩ := set_of_accepts f hn hacc v attribs
    obtain rfl := (Prod.mk.inj (Except.ok.inj (hset.symm.trans hput))).2
    refine ⟨?_, ?_, fun hk ↦ ?_⟩
    · rw [get_eq (hsame m'), getProperty_of_own own_put_self]
    · rw [has_eq (hsame m'), hasProperty_of_own own_put_self]
    · have hat : ∀ m' n', name m' k₂ = .ok (some n') →
          SameAt n' o (o.put n (some (.data p false false))) := fun m' n' hn' ↦
        (sameAt_put (hother hk m' n' hn').1).symm
      have hask : ∀ m' n', name m' k₂ = .ok (some n') → o.CallsGetter c n' = false :=
        fun m' n' hn' ↦ (hother hk m' n' hn').2
      refine ⟨(get_congr fun n' hn' ↦ ?_).symm, (has_congr (hat m')).symm,
        (deleteThenGet_congr hat hask).symm⟩
      exact (hat m' n' hn').getProperty_eq fun hx ↦
        absurd hx (by simp [(Bool.or_eq_false_iff.mp (hask m' n' hn')).1])

/-- A name that is neither accepted nor rejected breaks the law. -/
theorem BehavesAsMap.accepts (h : o.BehavesAsMap c k₁ k₂) (hn : name m k₁ = .ok (some n))
    (hrej : o.Rejects c n = false) : o.Accepts c n = true := by
  by_contra hacc
  obtain ⟨r, hr⟩ := exists_unread (by simpa using hacc) hrej
  obtain ⟨v, hv, hne⟩ := exists_ne r
  obtain ⟨o₁, hset, hread⟩ := hr v hv
  have hget := (h idle m v .none _ (set_eq hn hset) m m).1
  rw [get_eq hn] at hget
  exact hne (hread.symm.trans hget)

/-- Where the law holds, whatever is stored under a name of the key is read under it. -/
theorem BehavesAsMap.exists_put (h : o.BehavesAsMap c k₁ k₂) (f : Functions)
    (hn : name m k₁ = .ok (some n)) (hacc : o.Accepts c n = true) (v : Value) :
    ∃ p : Property, p.value = v ∧ ∀ m' m'',
      (o.put n (some (.data p false false))).get c f m' k₁ = .ok (some v) ∧
      (k₁ ≠ k₂ →
        (o.put n (some (.data p false false))).get c f m' k₂ = o.get c f m' k₂ ∧
        (o.put n (some (.data p false false))).deleteThenGet c f m' m'' k₂ =
          o.deleteThenGet c f m' m'' k₂) := by
  obtain ⟨p, hp, hset⟩ := set_of_accepts f hn hacc v .none
  refine ⟨p, hp, fun m' m'' ↦ ?_⟩
  obtain ⟨hget, -, hother⟩ := h f m v .none _ hset m' m''
  exact ⟨hget, fun hk ↦ ⟨(hother hk).1, (hother hk).2.2⟩⟩

/-- The name is the same whatever memory holds: another one is read as before. -/
theorem BehavesAsMap.stable (h : o.BehavesAsMap c k₁ k₂) (hn : name m k₁ = .ok (some n))
    (hacc : o.Accepts c n = true) (m' : Heap) : name m' k₁ = .ok (some n) := by
  rcases hn' : name m' k₁ with e | ⟨_ | n'⟩
  · obtain ⟨p, -, hget⟩ := h.exists_put idle hn hacc .null
    have hget := (hget m' m').1
    rw [get, hn'] at hget
    cases hget
  · obtain ⟨p, -, hget⟩ := h.exists_put idle hn hacc .null
    have hget := (hget m' m').1
    rw [get, hn'] at hget
    cases hget
  · by_cases hne : n' = n
    · rw [hne]
    · obtain ⟨v, -, hv⟩ := exists_ne (o.getProperty c idle n')
      obtain ⟨p, -, hget⟩ := h.exists_put idle hn hacc v
      have hget := (hget m' m').1
      rw [get_eq hn', (sameAt_put hne).getProperty_eq fun _ _ ↦ rfl] at hget
      exact absurd hget hv

/-- Another key has another name. -/
theorem BehavesAsMap.ne_name (h : o.BehavesAsMap c k₁ k₂) (hn : name m k₁ = .ok (some n))
    (hacc : o.Accepts c n = true) (hk : k₁ ≠ k₂) {m' : Heap} (hn' : name m' k₂ = .ok (some n')) :
    n' ≠ n := by
  rintro rfl
  obtain ⟨v, -, hv⟩ := exists_ne (o.getProperty c idle n')
  obtain ⟨p, rfl, hget⟩ := h.exists_put idle hn hacc v
  have hget := ((hget m' m').2 hk).1
  rw [get_eq hn', get_eq hn', getProperty_of_own own_put_self] at hget
  exact hv hget.symm

/-- A property has been stored with the value. -/
def holds (n : JSString) (v : Value) (o : JSObject) : Bool :=
  match o.own n with
  | some (.data p ..) => p.value = v
  | _ => false

/-- Getters that find out whether a value has been stored. -/
def telling (n : JSString) (v : Value) : Functions :=
  ⟨fun _ o ↦ if o.holds n v then some .null else none, fun _ _ o ↦ (true, o)⟩

theorem holds_put (p : Property) :
    (o.put n (some (.data p false false))).holds n p.value = true := by
  simp [holds]

theorem holds_congr (h : o.own n = o'.own n) : o.holds n v = o'.holds n v := by
  rw [holds, holds, h]

theorem exists_not_holds (o : JSObject) (n : JSString) : ∃ v, o.holds n v = false := by
  unfold holds
  split
  · rename_i p _ _ _
    obtain ⟨v, -, hv⟩ := exists_ne (.ok (some p.value))
    exact ⟨v, decide_eq_false fun h ↦ hv (by rw [h])⟩
  · exact ⟨.null, rfl⟩

theorem getProperty_of_callsGetter {x : Slot} (h : o.lookup c n = some x)
    (hx : x.callsGetter = true) :
    ∃ g, o.getProperty c f n = .ok (f.get g o) := by
  rw [getProperty, h]
  cases x with
  | data p getter setter => cases hx
  | proto shared readOnly => cases hx
  | accessor getter setter permanent =>
    cases getter with
    | none => cases hx
    | some g => exact ⟨g, rfl⟩

/-- A getter that tells the objects apart is not called. -/
theorem get_telling {v : Value} (h : (o.lookup c n').any Slot.callsGetter = true)
    (hsame : SameAt n' o' o) (ho : o.holds n v = false) (ho' : o'.holds n v = true) :
    o'.getProperty c (telling n v) n' ≠ o.getProperty c (telling n v) n' := by
  obtain ⟨x, hx, hasks⟩ := (Option.any_eq_true ..).mp h
  obtain ⟨g, hget⟩ := getProperty_of_callsGetter (f := telling n v) hx hasks
  obtain ⟨g', hget'⟩ :=
    getProperty_of_callsGetter (f := telling n v) (hsame.lookup_eq.trans hx) hasks
  rw [hget, hget', telling]
  simp [ho, ho']

/-- Reading another key calls no getter of the program. -/
theorem BehavesAsMap.not_callsGetter (h : o.BehavesAsMap c k₁ k₂) (hn : name m k₁ = .ok (some n))
    (hacc : o.Accepts c n = true) (hk : k₁ ≠ k₂) {m' : Heap} (hn' : name m' k₂ = .ok (some n')) :
    o.CallsGetter c n' = false := by
  have hne := h.ne_name hn hacc hk hn'
  obtain ⟨v, hv⟩ := exists_not_holds o n
  obtain ⟨p, rfl, hput⟩ := h.exists_put (telling n v) hn hacc v
  obtain ⟨hget, hdel⟩ := (hput m' m').2 hk
  rw [CallsGetter, Bool.or_eq_false_iff]
  constructor
  · by_contra hasks
    rw [get_eq hn', get_eq hn'] at hget
    exact get_telling (by simpa using hasks) (sameAt_put hne) hv (holds_put p) hget
  · by_contra hasks
    simp only [Bool.not_eq_false, Bool.and_eq_true] at hasks
    have hperm : (o.own n').any Slot.permanent = false := by
      cases hown : o.own n' with
      | none => rfl
      | some x => simpa [hown] using hasks.1
    have hgone : (o.deleteProperty n').2 = o.put n' none := by simp [deleteProperty, hperm]
    have hsame := ((sameAt_put (s := some (.data p false false)) hne).deleteProperty
      (sameAt_put (o := o) hne)).2
    have hget := get_of_deleteThenGet hn' hdel
    rw [get_eq hn', get_eq hn', hgone] at hget
    rw [hgone] at hsame
    refine get_telling ?_ hsame ?_ ?_ hget
    · rw [lookup_of_own_none own_put_self]
      exact hasks.2
    · rwa [holds_congr (own_put_of_ne hne.symm)]
    · rw [holds_congr (own_deleteProperty_of_ne hne.symm)]
      exact holds_put p

/-- **Named properties behave as a map on the names.** The law holds for two keys in an object if
and only if each name of the first is rejected, or else accepted, the same whatever memory holds,
and not that of the second, under which no getter of the program is called. -/
theorem behavesAsMap_iff (c : Chains) (o : JSObject) (k₁ k₂ : JSString) :
    o.BehavesAsMap c k₁ k₂ ↔ ∀ m n, name m k₁ = .ok (some n) → o.Rejects c n = true ∨
      o.Accepts c n = true ∧ (∀ m', name m' k₁ = .ok (some n)) ∧ (k₁ ≠ k₂ →
        ∀ m' n', name m' k₂ = .ok (some n') → n' ≠ n ∧ o.CallsGetter c n' = false) := by
  refine ⟨fun h m n hn ↦ ?_, behavesAsMap_of⟩
  cases hrej : o.Rejects c n with
  | true => exact .inl rfl
  | false =>
    have hacc := h.accepts hn hrej
    exact .inr ⟨hacc, h.stable hn hacc, fun hk m' n' hn' ↦
      ⟨h.ne_name hn hacc hk hn', h.not_callsGetter hn hacc hk hn'⟩⟩

/-- The keys `a` and `a中` are not told apart. -/
theorem ideograph_dropped : ¬BehavesAsMap (fun _ ↦ []) ⟨0, fun _ ↦ none, true, none⟩
    [0x61] [0x61, 0x4E2D] := by
  intro h
  let m : Heap := ⟨fun _ ↦ 0, 0, 0, 0⟩
  have h₁ : name m [0x61] = .ok (some [0x61]) := rfl
  have h₂ : name m [0x61, 0x4E2D] = .ok (some [0x61]) := rfl
  have hget := ((h idle m .null .none _ (set_eq h₁ rfl) m m).2.2 (by decide)).1
  rw [get_eq h₂, get_eq h₂] at hget
  exact absurd (Option.some.inj (Except.ok.inj hget)) (by decide)

/-- ASCII keys without `NUL` are told apart, so that an object that accepts them is a map on
them. -/
theorem behavesAsMap_of_isAscii (h₁ : IsAscii k₁) (h₁' : 0 ∉ k₁) (h₂ : IsAscii k₂) (h₂' : 0 ∉ k₂)
    (hacc : o.Accepts c k₁ = true) (hask : o.CallsGetter c k₂ = false) :
    o.BehavesAsMap c k₁ k₂ := by
  refine behavesAsMap_of fun m n hn ↦ ?_
  obtain rfl : k₁ = n := by
    rw [name_of_isAscii m h₁ h₁'] at hn
    exact Option.some.inj (Except.ok.inj hn)
  refine .inr ⟨hacc, fun m' ↦ name_of_isAscii m' h₁ h₁', fun hne m' n' hn' ↦ ?_⟩
  obtain rfl : k₂ = n' := by
    rw [name_of_isAscii m' h₂ h₂'] at hn'
    exact Option.some.inj (Except.ok.inj hn')
  exact ⟨hne.symm, hask⟩

end JSObject

end SpiderNode.Objects
