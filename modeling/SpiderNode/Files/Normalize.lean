import SpiderNode.Files.Resolved

/-!
# Normal paths

`normalize` and `join` of `lib/path.js`, for POSIX. Of a path they keep three things: whether it is
absolute, what its walk does, and whether it ends in a slash. `render` makes a path of them, and
both laws follow from what can be read from it again.

A walk that begins at the root loses its steps up, and the path of the root, which is one slash,
does not tell whether there was a slash at the end. Neither is seen when more follows.
-/

namespace SpiderNode.Files

open Trees

namespace Posix

/-- `path.normalize` -/
def normalize (p : JSString) : JSString :=
  let trailingSlash := p.getLast? = some slash
  let path := Files.join (normalizeArray (segments p) (!isAbsolute p))
  let path := if path = [] ∧ ¬isAbsolute p then js "." else path
  let path := if path ≠ [] ∧ trailingSlash then path ++ [slash] else path
  if isAbsolute p then slash :: path else path

/-- `path.join` -/
def join (paths : List JSString) : JSString :=
  normalize (Files.join (paths.filter (· ≠ [])))

variable {p q : JSString}

/-! ## What is kept -/

/-- The path that is made of the three things. -/
def render (absolute : Bool) (x : Net JSString) (trailingSlash : Bool) : JSString :=
  let parts := if absolute then x.downs else route x
  let path := if parts = [] ∧ absolute = false then js "." else Files.join parts
  let path := if path ≠ [] ∧ trailingSlash = true then path ++ [slash] else path
  if absolute then slash :: path else path

theorem join_eq_nil_iff {parts : List JSString} (h : ∀ q ∈ parts, q ≠ [] ∧ slash ∉ q) :
    Files.join parts = [] ↔ parts = [] := by
  constructor
  · intro hjoin
    have hsegments := segments_join h
    rw [hjoin] at hsegments
    exact hsegments.symm
  · rintro rfl
    rfl

def endsInSlash (p : JSString) : Bool := p.getLast? = some slash

theorem normalize_eq (p : JSString) :
    normalize p = render (isAbsolute p) (walk p) (endsInSlash p) := by
  have hroute : ∀ q ∈ route (walk p), q ≠ [] ∧ slash ∉ q := fun q hq ↦
    mem_route (fun q hq ↦ isName_of_mem_walk hq) hq
  have harray : normalizeArray (segments p) (!isAbsolute p) =
      if isAbsolute p then (walk p).downs else route (walk p) := by
    rw [normalizeArray, normalizeParts_eq]
    cases isAbsolute p <;> rfl
  rw [normalize, render, harray, endsInSlash]
  cases isAbsolute p with
  | true => simp
  | false => simp [join_eq_nil_iff hroute]

/-! ## What can be read again -/

variable {absolute trailingSlash : Bool} {x : Net JSString}

theorem endsInSlash_concat (p : JSString) : endsInSlash (p ++ [slash]) = true := by
  simp [endsInSlash]

theorem walk_concat_slash (p : JSString) : walk (p ++ [slash]) = walk p := by
  rw [walk_append, walk_nil, mul_one]

theorem isAbsolute_append (hp : p ≠ []) (q : JSString) :
    isAbsolute (p ++ q) = isAbsolute p := by
  obtain ⟨u, rest, rfl⟩ := List.exists_cons_of_ne_nil hp
  rfl

/-- The middle of a relative path. -/
theorem render_false (hx : ∀ q ∈ x.downs, IsName q) (trailingSlash : Bool) :
    ∃ path, path ≠ [] ∧ isAbsolute path = false ∧ walk path = x ∧ endsInSlash path = false ∧
      render false x trailingSlash = if trailingSlash then path ++ [slash] else path := by
  have hroute : ∀ q ∈ route x, q ≠ [] ∧ slash ∉ q := fun q hq ↦ mem_route hx hq
  rcases eq_or_ne (route x) [] with hnil | hne
  · refine ⟨js ".", by decide, by decide, ?_, by decide, ?_⟩
    · have hwalk := walk_route hx
      rw [hnil] at hwalk
      exact hwalk
    · simp only [render, Bool.false_eq_true, if_false, hnil, and_self, if_true]
      cases trailingSlash <;> rfl
  · have hjoin : Files.join (route x) ≠ [] := (join_eq_nil_iff hroute).not.mpr hne
    refine ⟨Files.join (route x), hjoin, isAbsolute_join hroute, walk_route hx, ?_, ?_⟩
    · simpa [endsInSlash] using getLast?_join hroute
    · simp only [render, Bool.false_eq_true, if_false, hne, false_and]
      cases trailingSlash <;> simp [hjoin]

/-- The three things are read from a rendered path, as far as they can be seen. -/
structure Reads (p : JSString) (absolute : Bool) (x : Net JSString) (trailingSlash : Bool) :
    Prop where
  ne_nil : p ≠ []
  isAbsolute_eq : isAbsolute p = absolute
  downs_eq : (walk p).downs = x.downs
  walk_eq : absolute = false → walk p = x
  endsInSlash_eq : endsInSlash p = trailingSlash ∨ absolute = true ∧ x.downs = []

theorem reads_render (hx : ∀ q ∈ x.downs, IsName q) (absolute trailingSlash : Bool) :
    Reads (render absolute x trailingSlash) absolute x trailingSlash := by
  cases absolute with
  | false =>
    obtain ⟨path, hne, habs, hwalk, hends, hrender⟩ := render_false hx trailingSlash
    rw [hrender]
    cases trailingSlash with
    | false => exact ⟨hne, habs, by rw [if_neg (by simp), hwalk], fun _ ↦ hwalk, .inl hends⟩
    | true =>
      have hwalk' : walk (path ++ [slash]) = x := by rw [walk_concat_slash, hwalk]
      exact ⟨by simp, by rw [if_pos rfl, isAbsolute_append hne, habs],
        by rw [if_pos rfl, hwalk'], fun _ ↦ hwalk', .inl (endsInSlash_concat path)⟩
  | true =>
    have hdowns : ∀ q ∈ x.downs, q ≠ [] ∧ slash ∉ q := fun q hq ↦ ⟨(hx q hq).1, (hx q hq).2.1⟩
    have hwalk : walk (Files.join x.downs) = ⟨0, x.downs⟩ := by
      have h := walk_route (x := ⟨0, x.downs⟩) hx
      simpa [route] using h
    rcases eq_or_ne x.downs [] with hnil | hne
    · have hrender : render true x trailingSlash = [slash] := by
        rw [render, if_pos rfl, hnil]
        rfl
      rw [hrender]
      exact ⟨by simp, by decide, by rw [hnil]; rfl, by simp, .inr ⟨rfl, hnil⟩⟩
    · have hjoin : Files.join x.downs ≠ [] := (join_eq_nil_iff hdowns).not.mpr hne
      have hrender : render true x trailingSlash =
          slash :: (if trailingSlash then Files.join x.downs ++ [slash] else
            Files.join x.downs) := by
        simp only [render, if_true, hne, false_and, if_false]
        cases trailingSlash <;> simp [hjoin]
      rw [hrender]
      refine ⟨by simp, rfl, ?_, by simp, .inl ?_⟩
      · rw [walk_cons_slash]
        cases trailingSlash with
        | false => rw [if_neg (by simp), hwalk]
        | true => rw [if_pos rfl, walk_concat_slash, hwalk]
      · cases trailingSlash with
        | false =>
          obtain ⟨u, rest, hcons⟩ := List.exists_cons_of_ne_nil hjoin
          have hlast := getLast?_join hdowns
          rw [if_neg (by simp), hcons, endsInSlash, List.getLast?_cons_cons, ← hcons]
          simpa using hlast
        | true =>
          rw [if_pos rfl, ← List.cons_append]
          exact endsInSlash_concat _

/-- Where a path is absolute, only what its walk goes down to is rendered. -/
theorem render_congr {y : Net JSString} {trailingSlash' : Bool} (hdowns : x.downs = y.downs)
    (hwalk : absolute = false → x = y)
    (hends : trailingSlash = trailingSlash' ∨ absolute = true ∧ x.downs = []) :
    render absolute x trailingSlash = render absolute y trailingSlash' := by
  cases absolute with
  | false =>
    obtain rfl | ⟨h, -⟩ := hends
    · rw [hwalk rfl]
    · cases h
  | true =>
    rw [render, render, if_pos rfl, if_pos rfl, ← hdowns]
    obtain rfl | ⟨-, hnil⟩ := hends
    · rfl
    · rw [hnil]
      rfl

theorem reads_normalize (p : JSString) :
    Reads (normalize p) (isAbsolute p) (walk p) (endsInSlash p) := by
  rw [normalize_eq]
  exact reads_render (fun q hq ↦ isName_of_mem_walk hq) _ _

/-! ## The laws -/

theorem normalize_normalize (p : JSString) : normalize (normalize p) = normalize p := by
  have h := reads_normalize p
  rw [normalize_eq (normalize p), h.isAbsolute_eq]
  refine (render_congr h.downs_eq h.walk_eq ?_).trans (normalize_eq p).symm
  refine h.endsInSlash_eq.imp id fun hroot ↦ ⟨hroot.1, ?_⟩
  rw [h.downs_eq, hroot.2]

/-- A beginning of a path may be normalized first. -/
theorem normalize_append (hp : p ≠ []) (q : JSString) :
    normalize (normalize p ++ slash :: q) = normalize (p ++ slash :: q) := by
  have h := reads_normalize p
  have hends : ∀ p : JSString, endsInSlash (p ++ slash :: q) = endsInSlash (slash :: q) := by
    intro p
    rw [endsInSlash, endsInSlash, List.getLast?_append_of_ne_nil _ (by simp)]
  rw [normalize_eq (normalize p ++ _), normalize_eq (p ++ _), isAbsolute_append h.ne_nil,
    isAbsolute_append hp, h.isAbsolute_eq, walk_append, walk_append, hends, hends]
  refine render_congr ?_ (fun habs ↦ ?_) (.inl rfl)
  · rw [Net.downs_mul, Net.downs_mul, h.downs_eq]
  · rw [h.walk_eq habs]

theorem join_of_ne_nil {paths : List JSString} (h : ∀ p ∈ paths, p ≠ []) :
    join paths = normalize (Files.join paths) := by
  rw [join, List.filter_eq_self.mpr fun p hp ↦ by simpa using h p hp]

/-- **`normalize` is idempotent, and a path may be normalized before it is joined.** -/
theorem normalize_laws {x : JSString} (hx : x ≠ []) (y : JSString) :
    normalize (normalize x) = normalize x ∧
      normalize (normalize x ++ slash :: y) = normalize (x ++ slash :: y) ∧
      ∀ a b c : JSString, a ≠ [] → b ≠ [] → c ≠ [] → join [join [a, b], c] = join [a, b, c] := by
  refine ⟨normalize_normalize x, normalize_append hx y, fun a b c ha hb hc ↦ ?_⟩
  have htwo : ∀ p q : JSString, Files.join [p, q] = p ++ slash :: q := fun p q ↦ by
    simp [Files.join, List.intercalate]
  have hab : join [a, b] = normalize (a ++ slash :: b) := by
    rw [join_of_ne_nil (by simp [ha, hb]), htwo]
  have hne : normalize (a ++ slash :: b) ≠ [] := (reads_normalize _).ne_nil
  rw [hab, join_of_ne_nil (by simp [hne, hc]), htwo, normalize_append (by simp),
    join_of_ne_nil (by simp [ha, hb, hc]), join_cons a (by simp), htwo, List.append_assoc,
    List.cons_append]

/-- A path that goes above where it begins. -/
theorem normalize_laws_above :
    normalize (normalize (js "../a/./..//b/")) = normalize (js "../a/./..//b/") ∧
      normalize (normalize (js "../a/./..//b/") ++ slash :: js "../../c") =
        normalize (js "../a/./..//b/" ++ slash :: js "../../c") ∧
      ∀ a b c : JSString, a ≠ [] → b ≠ [] → c ≠ [] → join [join [a, b], c] = join [a, b, c] :=
  normalize_laws (by decide) (js "../../c")

end Posix

end SpiderNode.Files
