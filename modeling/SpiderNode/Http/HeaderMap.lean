import SpiderNode.Http.Trailers
import Mathlib.Data.List.Induction

/-!
# The headers that lines make

`_addHeaderLine` knows three kinds of names: values are kept in an array, joined by a comma, or only
the first one counts. `merged` says for each name what all lines together should give, and
`headers_eq_merged_iff` when they give it.

Whether there is a first value already is asked with `in`, which also finds what an object inherits.
A line whose name is that of a method of every object is therefore dropped as if it were a second
one.
-/

namespace SpiderNode.Http

open Net (JsError)

/-- The values of a name, in the order of their lines. -/
def valuesOf (lines : List (JSString × JSString)) (field : JSString) : List JSString :=
  (lines.filter (·.1 = field)).map Prod.snd

/-- What values of one name make together. -/
def mergeValues (field : JSString) : List JSString → Option HeaderValue
  | [] => none
  | v :: vs =>
    some (if field ∈ arrayHeaders then .many (v :: vs)
      else if field ∈ commaHeaders ∨ field.take 2 = js "x-" then
        .one ((js ", ").intercalate (v :: vs))
      else .one v)

/-- What the lines say about a name. -/
def merged (lines : List (JSString × JSString)) (field : JSString) : Option HeaderValue :=
  mergeValues field (valuesOf lines field)

/-- The object has for every name what the lines say about it. -/
def Represents (dest : Headers) (lines : List (JSString × JSString)) : Prop :=
  ∀ field, dest.find field = merged lines field

variable {dest dest' : Headers} {lines : List (JSString × JSString)} {l : JSString × JSString}
  {field : JSString}

/-! ## One more line -/

theorem intercalate_concat (sep v w : JSString) (vs : List JSString) :
    sep.intercalate (v :: vs ++ [w]) = sep.intercalate (v :: vs) ++ sep ++ w := by
  induction vs generalizing v with
  | nil => simp [List.intercalate, List.intersperse]
  | cons u vs ih =>
    have h := ih u
    simp only [List.intercalate, List.cons_append, List.intersperse_cons_cons,
      List.flatten_cons] at h ⊢
    rw [h]
    simp only [List.append_assoc]

theorem valuesOf_concat_self :
    valuesOf (lines ++ [l]) l.1 = valuesOf lines l.1 ++ [l.2] := by
  simp [valuesOf]

theorem valuesOf_concat_of_ne (h : field ≠ l.1) :
    valuesOf (lines ++ [l]) field = valuesOf lines field := by
  simp [valuesOf, h.symm]

theorem Represents.assign {v : HeaderValue} (h : Represents dest lines)
    (hv : merged (lines ++ [l]) l.1 = some v) :
    Represents (assign dest l.1 v) (lines ++ [l]) := by
  intro field
  rw [find_assign]
  split_ifs with hf
  · rw [hf, hv]
  · rw [h field, merged, merged, valuesOf_concat_of_ne hf]

/-- A line adds its value to what was there, unless its name is inherited. -/
theorem Represents.addLine (h : Represents dest lines) (hl : l.1 ∉ objectPrototype) :
    ∃ dest', addLine dest l.1 l.2 = .ok dest' ∧ Represents dest' (lines ++ [l]) := by
  have hfind : dest.find l.1 = mergeValues l.1 (valuesOf lines l.1) := h l.1
  have hmerged : merged (lines ++ [l]) l.1 = mergeValues l.1 (valuesOf lines l.1 ++ [l.2]) := by
    rw [merged, valuesOf_concat_self]
  rw [Http.addLine]
  by_cases ha : l.1 ∈ arrayHeaders
  · rw [if_pos ha]
    rcases hvs : valuesOf lines l.1 with _ | ⟨v, vs⟩
    · rw [hfind, hvs]
      refine ⟨_, rfl, h.assign ?_⟩
      rw [hmerged, hvs]
      simp [mergeValues, ha]
    · rw [hfind, hvs, mergeValues, if_pos ha]
      refine ⟨_, rfl, h.assign ?_⟩
      rw [hmerged, hvs]
      simp [mergeValues, ha]
  · rw [if_neg ha]
    by_cases hc : l.1 ∈ commaHeaders ∨ l.1.take 2 = js "x-"
    · rw [if_pos hc]
      rcases hvs : valuesOf lines l.1 with _ | ⟨v, vs⟩
      · rw [hfind, hvs]
        refine ⟨_, rfl, h.assign ?_⟩
        rw [hmerged, hvs, List.nil_append, mergeValues, if_neg ha, if_pos hc]
        simp [List.intercalate]
      · rw [hfind, hvs, mergeValues, if_neg ha, if_pos hc]
        refine ⟨_, rfl, h.assign ?_⟩
        rw [hmerged, hvs, List.cons_append, mergeValues, if_neg ha, if_pos hc, ← List.cons_append,
          intercalate_concat, HeaderValue.addComma]
    · rw [if_neg hc]
      rcases hvs : valuesOf lines l.1 with _ | ⟨v, vs⟩
      · rw [hfind, hvs, if_neg (by simpa [mergeValues] using hl)]
        refine ⟨_, rfl, h.assign ?_⟩
        rw [hmerged, hvs, List.nil_append, mergeValues, if_neg ha, if_neg hc]
      · rw [hfind, hvs, if_pos (.inl (by simp [mergeValues]))]
        refine ⟨_, rfl, fun field ↦ ?_⟩
        by_cases hf : field = l.1
        · rw [hf, hfind, hmerged, hvs, List.cons_append, mergeValues, mergeValues, if_neg ha,
            if_neg ha, if_neg hc, if_neg hc]
        · rw [h field, merged, merged, valuesOf_concat_of_ne hf]

/-! ## All lines -/

theorem addLines_represents (h : ∀ l ∈ lines, l.1 ∉ objectPrototype) :
    ∃ dest, addLines [] lines = .ok dest ∧ Represents dest lines := by
  induction lines using List.reverseRecOn with
  | nil => exact ⟨[], rfl, fun field ↦ rfl⟩
  | append_singleton lines l ih =>
    obtain ⟨dest, hdest, hr⟩ := ih fun l' hl' ↦ h l' (by simp [hl'])
    obtain ⟨dest', hl, hr'⟩ := hr.addLine (h l (by simp))
    refine ⟨dest', ?_, hr'⟩
    rw [addLines_append, hdest]
    show addLines dest [l] = _
    rw [addLines_cons, hl]
    rfl

/-- Nothing is ever stored under an inherited name. -/
theorem find_of_inherited (hf : field ∈ objectPrototype) (h : addLines dest lines = .ok dest') :
    dest'.find field = dest.find field := by
  induction lines generalizing dest with
  | nil =>
    obtain rfl : dest = dest' := by simpa [addLines, pure, Except.pure] using h
    rfl
  | cons l lines ih =>
    rw [addLines_cons] at h
    rcases hl : addLine dest l.1 l.2 with e | dest₁
    · simp [hl, bind, Except.bind] at h
    · rw [hl] at h
      rw [ih h]
      by_cases hlf : l.1 = field
      · rw [addLine_of_inert (inert_of_objectPrototype (hlf ▸ hf) dest)] at hl
        rw [Except.ok.inj hl]
      · rcases addLine_cases hl with ⟨-, rfl⟩ | ⟨v, rfl, -⟩
        · rfl
        · rw [find_assign, if_neg (Ne.symm hlf)]

theorem isSome_merged (h : l ∈ lines) : (merged lines l.1).isSome = true := by
  have hmem : l.2 ∈ valuesOf lines l.1 := List.mem_map_of_mem (List.mem_filter.mpr ⟨h, by simp⟩)
  rw [merged]
  rcases hvs : valuesOf lines l.1 with _ | ⟨v, vs⟩
  · rw [hvs] at hmem
    exact absurd hmem List.not_mem_nil
  · rfl

/-- **Folding the lines of a message gives the map they stand for** exactly if none of their names
is a property that every object inherits. -/
theorem headers_eq_merged_iff (lines : List (JSString × JSString)) :
    (∃ incoming : IncomingMessage,
      lines.foldlM (fun (i : IncomingMessage) l ↦ i.addHeaderLine l.1 l.2)
          Parser.onMessageBegin.incoming = .ok incoming ∧
        Represents incoming.headers lines) ↔
      ∀ l ∈ lines, l.1 ∉ objectPrototype := by
  rw [Parser.onMessageBegin, foldlM_addHeaderLine]
  constructor
  · rintro ⟨incoming, hi, hr⟩ l hl hp
    rcases hdest : addLines [] lines with e | dest
    · rw [addLines] at hdest
      simp [hdest, Except.map] at hi
    · have hfind := find_of_inherited hp hdest
      rw [addLines] at hdest
      rw [hdest] at hi
      obtain rfl := Except.ok.inj hi
      have hsome := isSome_merged hl
      rw [← hr l.1, hfind] at hsome
      exact absurd hsome (by simp [Headers.find])
  · intro h
    obtain ⟨dest, hdest, hr⟩ := addLines_represents h
    rw [addLines] at hdest
    exact ⟨_, by rw [hdest]; rfl, hr⟩

/-- A header that is called like a method is lost. -/
theorem constructor_dropped :
    ¬∃ incoming : IncomingMessage,
      [(js "constructor", js "a")].foldlM
          (fun (i : IncomingMessage) l ↦ i.addHeaderLine l.1 l.2)
          Parser.onMessageBegin.incoming = .ok incoming ∧
        Represents incoming.headers [(js "constructor", js "a")] := by
  rintro ⟨incoming, hi, hr⟩
  obtain rfl : ⟨[], [], [], false⟩ = incoming := Except.ok.inj hi
  have hfind : none = merged [(js "constructor", js "a")] (js "constructor") := hr _
  revert hfind
  decide

end SpiderNode.Http
