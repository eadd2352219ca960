import SpiderNode.Files.Windows.Parts

/-!
# Normal paths of Windows

`normalize` leaves the device as it is and renders what stands behind it as POSIX does. If there is
no device and the path is relative, the result begins with the first part that stays; and the next
call reads a letter and a colon at its beginning as a drive. `normalize_normalize_iff` says when
this makes a difference. It is a slip in what `normalize` does for all other paths, and it throws
for paths that `splitDeviceRe` does not match.
-/

namespace SpiderNode.Files.Windows

open Net (JsError)
open Trees
open Posix (render endsInSlash)

/-- `device && device.charAt(1) !== ':'` -/
def isUnc (device : JSString) : Bool := device ≠ [] ∧ device[1]? ≠ some colon

/-- `path.normalize` -/
def normalize (p : JSString) : Except JsError JSString := do
  let (device, u, tail) ← splitDevice p
  let device := device.getD []
  let isAbsolute := u.isSome || isUnc device
  let trailingSlash := tail.getLast?.any isSeparator
  let path := join (normalizeArray (parts tail) (!isAbsolute))
  let path := if path = [] ∧ ¬isAbsolute then js "." else path
  let path := if path ≠ [] ∧ trailingSlash then path ++ [backslash] else path
  return device ++ (if isAbsolute then [backslash] else []) ++ path

variable {p q tail : JSString} {device : Option JSString} {u : Option UInt16} {d : JSString}
  {x : Net JSString} {absolute trailingSlash : Bool} {letter : UInt16} {l : List JSString}

/-! ## What is rendered -/

theorem endsInSlash_slashes (tail : JSString) :
    endsInSlash (slashes tail) = tail.getLast?.any isSeparator := by
  rw [endsInSlash, slashes, List.getLast?_map]
  rcases tail.getLast? with _ | v
  · rfl
  · show decide (some (if v = backslash then slash else v) = some slash) = isSeparator v
    by_cases hv : v = backslash
    · subst hv
      rfl
    · simp [hv, isSeparator]

theorem backslashes_eq_nil_iff : backslashes p = [] ↔ p = [] := List.map_eq_nil_iff

/-- Behind the device, `normalize` renders as POSIX does. -/
theorem normalize_eq (h : IsSplit p device u tail) :
    normalize p = .ok (device.getD [] ++ backslashes
      (render (u.isSome || isUnc (device.getD [])) (walk tail) (endsInSlash (slashes tail)))) := by
  have hroute : ∀ q ∈ route (walk tail), q ≠ [] ∧ slash ∉ q := fun q hq ↦
    mem_route (fun q hq ↦ (isName_of_mem_downs hq).1) hq
  have harray : ∀ absolute, normalizeArray (parts tail) (!absolute) =
      if absolute then (walk tail).downs else route (walk tail) := by
    intro absolute
    rw [parts_eq, normalizeArray, normalizeParts_eq]
    cases absolute <;> rfl
  rw [normalize, h.splitDevice_eq]
  show Except.ok _ = Except.ok _
  rw [harray, ← endsInSlash_slashes, List.append_assoc]
  refine congrArg (Except.ok <| device.getD [] ++ ·) ?_
  generalize (u.isSome || isUnc (device.getD [])) = absolute
  generalize endsInSlash (slashes tail) = trailingSlash
  rw [render]
  have hmem : ∀ q ∈ (if absolute then (walk tail).downs else route (walk tail)),
      q ≠ [] ∧ slash ∉ q := by
    cases absolute with
    | true => exact fun q hq ↦ hroute q (List.mem_append_right _ hq)
    | false => exact hroute
  generalize (if absolute then (walk tail).downs else route (walk tail)) = ps at hmem ⊢
  rw [join_eq fun q hq ↦ (hmem q hq).2]
  have hnil := Posix.join_eq_nil_iff hmem
  rcases eq_or_ne ps [] with rfl | hne
  · cases absolute <;> cases trailingSlash <;> rfl
  · have hjoin : Files.join ps ≠ [] := hnil.not.mpr hne
    have hdot : ∀ q : JSString, backslashes (q ++ [slash]) = backslashes q ++ [backslash] :=
      fun q ↦ backslashes_append q [slash]
    cases absolute <;> cases trailingSlash <;>
      simp [hne, hjoin, hdot, backslashes_eq_nil_iff, backslashes_cons_slash]

/-! ## What can be read again -/

/-- Names that stand behind a device. -/
def Clean (x : Net JSString) : Prop :=
  ∀ q ∈ x.downs, IsName q ∧ backslash ∉ q ∧ ∀ u ∈ q, notTerminator u = true

theorem clean_walk (h : ∀ u ∈ tail, notTerminator u = true) : Clean (walk tail) := fun _ hq ↦
  ⟨(isName_of_mem_downs hq).1, (isName_of_mem_downs hq).2, notTerminator_of_mem_downs h hq⟩

theorem mem_join {v : UInt16} (h : v ∈ Files.join l) : v = slash ∨ ∃ q ∈ l, v ∈ q := by
  induction l with
  | nil => exact absurd h List.not_mem_nil
  | cons part l ih =>
    rcases eq_or_ne l [] with rfl | hne
    · rw [Files.join, List.intercalate_singleton] at h
      exact .inr ⟨part, List.mem_cons_self, h⟩
    · rw [join_cons part hne, List.mem_append, List.mem_cons] at h
      rcases h with h | rfl | h
      · exact .inr ⟨part, List.mem_cons_self, h⟩
      · exact .inl rfl
      · exact (ih h).imp id fun hq ↦ hq.imp fun q hq ↦ ⟨List.mem_cons_of_mem _ hq.1, hq.2⟩

/-- What is rendered is made of slashes, dots and names. -/
theorem mem_render {v : UInt16} (h : v ∈ render absolute x trailingSlash) :
    v = slash ∨ v = dot ∨ ∃ q ∈ x.downs, v ∈ q := by
  have hparts : ∀ q ∈ (if absolute then x.downs else route x), v ∈ q →
      v = slash ∨ v = dot ∨ ∃ q ∈ x.downs, v ∈ q := by
    intro q hq hv
    have hq' : q ∈ route x := by
      cases absolute with
      | true => exact List.mem_append_right _ hq
      | false => exact hq
    rcases List.mem_append.mp hq' with hq' | hq'
    · rw [List.eq_of_mem_replicate hq'] at hv
      exact .inr (.inl (by simpa [js, dot] using hv))
    · exact .inr (.inr ⟨q, hq', hv⟩)
  have hdot : v ∈ js "." → v = slash ∨ v = dot ∨ ∃ q ∈ x.downs, v ∈ q := fun hv ↦
    .inr (.inl (by simpa [js, dot] using hv))
  rw [render] at h
  generalize (if absolute then x.downs else route x) = ps at h hparts
  generalize js "." = dots at h hdot
  have hcases : v = slash ∨ v ∈ dots ∨ v ∈ Files.join ps := by
    split_ifs at h <;> grind
  rcases hcases with hv | hv | hv
  · exact .inl hv
  · exact hdot hv
  · rcases mem_join hv with hv | ⟨q, hq, hv⟩
    · exact .inl hv
    · exact hparts q hq hv

theorem Clean.backslash_notMem (hx : Clean x) (absolute trailingSlash : Bool) :
    backslash ∉ render absolute x trailingSlash := by
  intro h
  rcases mem_render h with h | h | ⟨q, hq, h⟩
  · revert h
    decide
  · revert h
    decide
  · exact (hx q hq).2.1 h

theorem Clean.text (hx : Clean x) (absolute trailingSlash : Bool) :
    ∀ v ∈ backslashes (render absolute x trailingSlash), notTerminator v = true := by
  intro v hv
  obtain ⟨w, hw, rfl⟩ := List.mem_map.mp hv
  split_ifs
  · decide
  · rcases mem_render hw with rfl | rfl | ⟨q, hq, h⟩
    · decide
    · decide
    · exact (hx q hq).2.2 w h

theorem Clean.reads (hx : Clean x) (absolute trailingSlash : Bool) :
    Posix.Reads (render absolute x trailingSlash) absolute x trailingSlash :=
  Posix.reads_render (fun q hq ↦ (hx q hq).1) _ _

theorem isSeparator_head (hslash : isAbsolute p = false) (hback : backslash ∉ p) :
    ∀ v ∈ (backslashes p).head?, isSeparator v = false := by
  rcases p with _ | ⟨w, p⟩
  · exact fun v hv ↦ absurd hv (by simp [backslashes])
  · have hw : w ≠ slash := by simpa [isAbsolute] using hslash
    have hw' : w ≠ backslash := fun heq ↦ hback (heq ▸ List.mem_cons_self)
    intro v hv
    obtain rfl : w = v := by simpa [backslashes, hw] using hv
    simp [isSeparator, hw, hw']

/-! ## What does not change -/

theorem isUnc_drive (letter : UInt16) : isUnc [letter, colon] = false := by simp [isUnc]

theorem walk_backslashes (h : backslash ∉ p) : walk (backslashes p) = Files.walk p := by
  rw [walk, slashes_backslashes h]

theorem normalize_drive (hl : isLetter letter = true)
    (hhead : ∀ v ∈ tail.head?, isSeparator v = false)
    (htext : ∀ v ∈ tail, notTerminator v = true) :
    normalize (letter :: colon :: tail) = .ok (letter :: colon :: backslashes
      (render false (walk tail) (endsInSlash (slashes tail)))) := by
  have heq := normalize_eq (isSplit_drive (u := none) hl nofun (fun _ ↦ hhead) htext)
  have habs : ((none : Option UInt16).isSome || isUnc ((some [letter, colon]).getD [])) = false :=
    isUnc_drive letter
  rw [habs] at heq
  exact heq

/-- A relative path behind a drive. -/
theorem stable_drive (hl : isLetter letter = true) (hx : Clean x) (trailingSlash : Bool) :
    normalize (letter :: colon :: backslashes (render false x trailingSlash)) =
      .ok (letter :: colon :: backslashes (render false x trailingSlash)) := by
  have hreads := hx.reads false trailingSlash
  have hback := hx.backslash_notMem false trailingSlash
  have hends : endsInSlash (render false x trailingSlash) = trailingSlash :=
    hreads.endsInSlash_eq.resolve_right nofun
  rw [normalize_drive hl (isSeparator_head hreads.isAbsolute_eq hback) (hx.text _ _),
    walk_backslashes hback, hreads.walk_eq rfl, slashes_backslashes hback, hends]

/-- A relative path that is not read as one behind a drive. -/
theorem stable_relative (hx : Clean x)
    (hdrive : ¬DriveLike (backslashes (render false x trailingSlash))) :
    normalize (backslashes (render false x trailingSlash)) =
      .ok (backslashes (render false x trailingSlash)) := by
  have hreads := hx.reads false trailingSlash
  have hback := hx.backslash_notMem false trailingSlash
  have hsplit := isSplit_relative hdrive (isSeparator_head hreads.isAbsolute_eq hback) (hx.text _ _)
  have hends : endsInSlash (render false x trailingSlash) = trailingSlash :=
    hreads.endsInSlash_eq.resolve_right nofun
  have heq := normalize_eq hsplit
  rw [walk_backslashes hback, hreads.walk_eq rfl, slashes_backslashes hback, hends] at heq
  exact heq

theorem exists_render_true (hx : Clean x) (trailingSlash : Bool) :
    ∃ path, render true x trailingSlash = slash :: path ∧ isAbsolute path = false := by
  have hrel : isAbsolute (Files.join x.downs) = false :=
    isAbsolute_join fun q hq ↦ ⟨(hx q hq).1.1, (hx q hq).1.2.1⟩
  have hrender : render true x trailingSlash = slash ::
      (if Files.join x.downs ≠ [] ∧ trailingSlash = true then Files.join x.downs ++ [slash]
        else Files.join x.downs) := by
    simp [render]
  refine ⟨_, hrender, ?_⟩
  split_ifs with h
  · rw [Posix.isAbsolute_append h.1, hrel]
  · exact hrel

/-- An absolute path, with or without a device. -/
theorem stable_absolute {device : Option JSString} (hd : ∀ d, device = some d → IsDevice d)
    (hx : Clean x) (trailingSlash : Bool) :
    normalize (device.getD [] ++ backslashes (render true x trailingSlash)) =
      .ok (device.getD [] ++ backslashes (render true x trailingSlash)) := by
  obtain ⟨path, hpath, hrel⟩ := exists_render_true hx trailingSlash
  have hreads := hx.reads true trailingSlash
  have hback := hx.backslash_notMem true trailingSlash
  have htext := hx.text true trailingSlash
  rw [hpath] at hreads hback htext ⊢
  have hback' : backslash ∉ path := fun h ↦ hback (List.mem_cons_of_mem _ h)
  have htext' : ∀ v ∈ backslashes path, notTerminator v = true := fun v hv ↦
    htext v (List.mem_cons_of_mem _ hv)
  have hsplit : IsSplit (device.getD [] ++ backslash :: backslashes path) device (some backslash)
      (backslashes path) := by
    rcases device with _ | d
    · exact isSplit_rooted (by decide) (isSeparator_head hrel hback') htext'
    · exact isSplit_separator (hd d rfl) (by decide) htext'
  rw [backslashes_cons_slash, normalize_eq hsplit, walk_backslashes hback',
    slashes_backslashes hback', ← backslashes_cons_slash, ← hpath]
  refine congrArg (fun p ↦ Except.ok (device.getD [] ++ backslashes p)) ?_
  have hdowns := hreads.downs_eq
  rw [walk_cons_slash] at hdowns
  refine Posix.render_congr hdowns nofun ?_
  rcases eq_or_ne path [] with rfl | hne
  · exact .inr ⟨rfl, rfl⟩
  · have hends := hreads.endsInSlash_eq
    have hlast : endsInSlash (slash :: path) = endsInSlash path := by
      obtain ⟨v, rest, rfl⟩ := List.exists_cons_of_ne_nil hne
      rw [endsInSlash, List.getLast?_cons_cons, ← endsInSlash]
    rw [hlast] at hends
    exact hends.imp id fun h ↦ ⟨rfl, hdowns.trans h.2⟩

/-! ## What begins like a drive -/

/-- What follows the first part. -/
def suffix (l : List JSString) (trailingSlash : Bool) : JSString :=
  (if l = [] then [] else slash :: Files.join l) ++ if trailingSlash then [slash] else []

theorem join_cons_eq (q : JSString) (l : List JSString) :
    Files.join (q :: l) = q ++ if l = [] then [] else slash :: Files.join l := by
  split_ifs with hnil
  · rw [hnil, Files.join, List.intercalate_singleton, List.append_nil]
  · exact join_cons q hnil

theorem suffix_cons (q : JSString) (l : List JSString) (trailingSlash : Bool) :
    suffix (q :: l) trailingSlash = slash :: (q ++ suffix l trailingSlash) := by
  rw [suffix, suffix, if_neg (List.cons_ne_nil q l), join_cons_eq, List.cons_append,
    List.append_assoc]

theorem length_suffix_le (l : List JSString) (t t' : Bool) :
    (suffix l t).length ≤ (suffix l t').length + 1 := by
  rw [suffix, suffix, List.length_append, List.length_append]
  have hle : (if t then [slash] else []).length ≤ 1 := by cases t <;> decide
  omega

theorem render_false_eq (hroute : route x = q :: l) (hq : q ≠ []) :
    render false x trailingSlash = q ++ suffix l trailingSlash := by
  have hjoin := join_cons_eq q l
  have hne : Files.join (q :: l) ≠ [] := by
    rw [hjoin]
    simp [hq]
  rw [render, if_neg Bool.false_ne_true, hroute, suffix, ← List.append_assoc, ← hjoin]
  cases trailingSlash <;> simp [hne]

theorem render_true_eq (hl : l ≠ []) (hmem : ∀ q ∈ l, q ≠ [] ∧ slash ∉ q) :
    render true ⟨0, l⟩ trailingSlash = suffix l trailingSlash := by
  have hne : Files.join l ≠ [] := (Posix.join_eq_nil_iff hmem).not.mpr hl
  rw [render, if_pos rfl, suffix, if_neg hl]
  cases trailingSlash <;> simp [hne]

/-- The result of a call that begins with a part which is then read as a drive. -/
theorem parts_of_driveLike (hx : Clean x) (hl : isLetter letter = true) {rest : JSString}
    (h : backslashes (render false x trailingSlash) = letter :: colon :: rest) :
    ∃ z l, x.ups = 0 ∧ x.downs = (letter :: colon :: z) :: l ∧
      rest = z ++ backslashes (suffix l trailingSlash) := by
  have hdot : isLetter dot = false := by decide
  have hfirst : ∀ v p, render false x trailingSlash = v :: p → v ≠ slash → v = letter := by
    intro v p hv hne
    rw [hv, backslashes, List.map_cons, if_neg hne] at h
    exact (List.cons.inj h).1
  rcases hroute : route x with _ | ⟨q, l⟩
  · have hrender : render false x trailingSlash =
        dot :: (if trailingSlash then [slash] else []) := by
      rw [render, if_neg Bool.false_ne_true, hroute]
      cases trailingSlash <;> rfl
    rw [← hfirst _ _ hrender (by decide), hdot] at hl
    cases hl
  · rcases hups : x.ups with _ | n
    · have hdowns : x.downs = q :: l := by simpa [route, hups] using hroute
      have hq := hx q (hdowns ▸ List.mem_cons_self)
      rw [render_false_eq hroute hq.1.1, backslashes_append, backslashes_of_notMem hq.1.2.1] at h
      rcases q with _ | ⟨a, _ | ⟨b, z⟩⟩
      · exact absurd rfl hq.1.1
      · have htail : backslashes (suffix l trailingSlash) = colon :: rest := (List.cons.inj h).2
        have hhead : ∀ v ∈ (backslashes (suffix l trailingSlash)).head?, v = backslash := by
          rcases l with _ | ⟨q', l⟩
          · cases trailingSlash <;> simp [suffix, backslashes]
          · simp [suffix, backslashes]
        exact absurd (hhead colon (by rw [htail]; rfl)) (by decide)
      · obtain ⟨rfl, hb⟩ := List.cons.inj h
        have hb' : b :: (z ++ backslashes (suffix l trailingSlash)) = colon :: rest := hb
        obtain ⟨rfl, hz⟩ := List.cons.inj hb'
        exact ⟨z, l, rfl, hdowns, hz.symm⟩
    · rw [route, hups, List.replicate_succ, List.cons_append] at hroute
      obtain ⟨rfl, hl'⟩ := List.cons.inj hroute
      have hroute' : route x = js ".." :: l := by
        rw [route, hups, List.replicate_succ, List.cons_append, hl']
      have hrender : render false x trailingSlash = js ".." ++ suffix l trailingSlash :=
        render_false_eq hroute' (by decide)
      rw [← hfirst dot _ hrender (by decide), hdot] at hl
      cases hl

/-- The first part that stays will be read as a drive, and it alone or its `.` will be changed. -/
def Exposed (x : Net JSString) (trailingSlash : Bool) : Prop :=
  x.ups = 0 ∧ ∃ letter, isLetter letter = true ∧
    (x.downs = [[letter, colon]] ∧ trailingSlash = false ∨
      ∃ l, l ≠ [] ∧ x.downs = [letter, colon, dot] :: l)

theorem walk_dot_suffix (hne : l ≠ []) (hmem : ∀ q ∈ l, IsName q ∧ backslash ∉ q) :
    walk (js "." ++ backslashes (suffix l trailingSlash)) = ⟨0, l⟩ := by
  have hsuffix : suffix l trailingSlash =
      slash :: (Files.join l ++ if trailingSlash then [slash] else []) := by
    rw [suffix, if_neg hne, List.cons_append]
  have hback : backslash ∉ suffix l trailingSlash := by
    rw [hsuffix, List.mem_cons, List.mem_append, not_or, not_or]
    refine ⟨by decide, fun h ↦ ?_, by cases trailingSlash <;> decide⟩
    rcases mem_join h with h | ⟨q, hq, h⟩
    · revert h
      decide
    · exact (hmem q hq).2 h
  have hwalk : Files.walk (Files.join l) = ⟨0, l⟩ := by
    have h := walk_route (x := ⟨0, l⟩) fun q hq ↦ (hmem q hq).1
    simpa [route] using h
  have hone : Files.walk (js ".") = 1 := rfl
  rw [walk, slashes_append, slashes_backslashes hback, hsuffix]
  show Files.walk (js "." ++ _) = _
  rw [walk_append, hone, one_mul]
  cases trailingSlash with
  | true =>
    rw [if_pos rfl]
    exact (Posix.walk_concat_slash _).trans hwalk
  | false =>
    rw [if_neg Bool.false_ne_true, List.append_nil, hwalk]

theorem stable_iff_of_driveLike (hx : Clean x)
    (hdrive : DriveLike (backslashes (render false x trailingSlash))) :
    normalize (backslashes (render false x trailingSlash)) =
        .ok (backslashes (render false x trailingSlash)) ↔ ¬Exposed x trailingSlash := by
  obtain ⟨letter, rest, hl, hrest⟩ := hdrive
  obtain ⟨z, l, hups, hdowns, rfl⟩ := parts_of_driveLike hx hl hrest
  rw [hrest]
  have hz := hx _ (hdowns ▸ List.mem_cons_self)
  have hmem : ∀ q ∈ l, IsName q ∧ backslash ∉ q ∧ ∀ u ∈ q, notTerminator u = true :=
    fun q hq ↦ hx q (hdowns ▸ List.mem_cons_of_mem _ hq)
  have hexposed : Exposed x trailingSlash ↔
      z = [] ∧ l = [] ∧ trailingSlash = false ∨ z = js "." ∧ l ≠ [] := by
    rw [Exposed, hdowns]
    constructor
    · rintro ⟨-, letter', -, ⟨heq, ht⟩ | ⟨l', hne, heq⟩⟩
      · obtain ⟨hz, rfl⟩ := List.cons.inj heq
        exact .inl ⟨(List.cons.inj (List.cons.inj hz).2).2, rfl, ht⟩
      · obtain ⟨hz, rfl⟩ := List.cons.inj heq
        exact .inr ⟨(List.cons.inj (List.cons.inj hz).2).2, hne⟩
    · rintro (⟨rfl, rfl, ht⟩ | ⟨rfl, hne⟩)
      · exact ⟨hups, letter, hl, .inl ⟨rfl, ht⟩⟩
      · exact ⟨hups, letter, hl, .inr ⟨l, hne, rfl⟩⟩
  rw [hexposed]
  have hslash : slash ∉ z := fun h ↦ hz.1.2.1 (by simp [h])
  have hback : backslash ∉ z := fun h ↦ hz.2.1 (by simp [h])
  have htext : ∀ u ∈ z, notTerminator u = true := fun u hu ↦ hz.2.2 u (by simp [hu])
  have hrelative : ∀ y, Clean y → route y = z :: l → z ≠ [] →
      normalize (letter :: colon :: (z ++ backslashes (suffix l trailingSlash))) =
        .ok (letter :: colon :: (z ++ backslashes (suffix l trailingSlash))) := by
    intro y hy hroute hne
    have heq := stable_drive hl hy trailingSlash
    rwa [render_false_eq hroute hne, backslashes_append, backslashes_of_notMem hslash] at heq
  have hdevice : ∀ d, some [letter, colon] = some d → IsDevice d := fun d h ↦
    Option.some.inj h ▸ isDevice_drive hl
  have hcleanl : ∀ ups, Clean ⟨ups, l⟩ := fun ups q hq ↦ hmem q hq
  have htail : ∀ v ∈ z ++ backslashes (suffix l trailingSlash), notTerminator v = true :=
    fun v hv ↦ hx.text _ _ v (hrest ▸ List.mem_cons_of_mem _ (List.mem_cons_of_mem _ hv))
  rcases eq_or_ne z [] with rfl | hne
  · rcases eq_or_ne l [] with rfl | hlne
    · cases trailingSlash with
      | false =>
        -- the drive alone is given a dot
        refine iff_of_false (fun h ↦ ?_) (by decide)
        have heq : normalize [letter, colon] = .ok (letter :: colon :: js ".") :=
          @normalize_drive [] letter hl (by simp) (by simp)
        have hne := Except.ok.inj (heq.symm.trans h)
        cases hne
      | true =>
        refine iff_of_true ?_ (by decide)
        exact stable_absolute hdevice (hcleanl 0) true
    · refine iff_of_true ?_ (by simp [hlne, js])
      have heq := stable_absolute hdevice (hcleanl 0) trailingSlash
      rwa [render_true_eq hlne fun q hq ↦ ⟨(hmem q hq).1.1, (hmem q hq).1.2.1⟩] at heq
  · by_cases hdot : z = js "."
    · subst hdot
      rcases eq_or_ne l [] with rfl | hlne
      · refine iff_of_true ?_ (by simp [js])
        have heq := stable_drive hl (x := 1) (fun q hq ↦ absurd hq List.not_mem_nil) trailingSlash
        cases trailingSlash <;> exact heq
      · -- the dot goes, with the separator behind it
        refine iff_of_false (fun h ↦ ?_) (by simp [hlne])
        have hhead : ∀ v ∈ (js "." ++ backslashes (suffix l trailingSlash)).head?,
            isSeparator v = false := by
          intro v hv
          obtain rfl : dot = v := Option.some.inj hv
          decide
        have heq := normalize_drive hl hhead htail
        rw [walk_dot_suffix hlne fun q hq ↦ ⟨(hmem q hq).1, (hmem q hq).2.1⟩] at heq
        obtain ⟨q, l, rfl⟩ := List.exists_cons_of_ne_nil hlne
        rw [render_false_eq rfl (hmem q List.mem_cons_self).1.1] at heq
        generalize endsInSlash (slashes (js "." ++ _)) = ends at heq
        have hlength := congrArg List.length (Except.ok.inj (heq.symm.trans h))
        have hle := length_suffix_le l ends trailingSlash
        rw [suffix_cons] at hlength
        simp only [backslashes, js, List.length_cons, List.length_map, List.length_append]
          at hlength
        have hone : ".".toList.length = 1 := rfl
        omega
    · refine iff_of_true ?_ (by simp [hne, hdot])
      by_cases hdots : z = js ".."
      · exact hrelative ⟨1, l⟩ (hcleanl 1) (by rw [hdots]; rfl) hne
      · refine hrelative ⟨0, z :: l⟩ (fun q hq ↦ ?_) rfl hne
        rcases List.mem_cons.mp hq with rfl | hq
        · exact ⟨⟨hne, hslash, hdot, hdots⟩, hback, htext⟩
        · exact hmem q hq

theorem stable_relative_iff (hx : Clean x) :
    normalize (backslashes (render false x trailingSlash)) =
        .ok (backslashes (render false x trailingSlash)) ↔ ¬Exposed x trailingSlash := by
  by_cases hdrive : DriveLike (backslashes (render false x trailingSlash))
  · exact stable_iff_of_driveLike hx hdrive
  · refine iff_of_true (stable_relative hx hdrive) fun hexposed ↦ hdrive ?_
    obtain ⟨hups, letter, hl, hdowns⟩ := hexposed
    obtain ⟨z, l, hdowns⟩ : ∃ z l, x.downs = (letter :: colon :: z) :: l := by
      rcases hdowns with ⟨hdowns, -⟩ | ⟨l, -, hdowns⟩
      · exact ⟨[], [], hdowns⟩
      · exact ⟨[dot], l, hdowns⟩
    have hq := hx _ (hdowns ▸ List.mem_cons_self)
    have hroute : route x = (letter :: colon :: z) :: l := by
      rw [route, hups, hdowns]
      rfl
    rw [render_false_eq hroute (List.cons_ne_nil _ _), backslashes_append,
      backslashes_of_notMem hq.1.2.1]
    exact ⟨letter, _, hl, rfl⟩

theorem isUnc_eq_false (hd : IsDevice d) (h : isUnc d = false) :
    ∃ letter, isLetter letter = true ∧ d = [letter, colon] := by
  rcases hd with hd | ⟨u, v, w, server, share, -, hv, -, -, -, -, -, rfl⟩
  · exact hd
  · have hne : v ≠ colon := by
      rintro rfl
      revert hv
      decide
    simp [isUnc, hne] at h

/-- **`normalize` is idempotent** for the paths that have a split, unless they are relative and the
first part that stays is a drive alone or `X:.` with more behind it. -/
theorem normalize_normalize_iff (p : JSString) :
    (∃ q, normalize p = .ok q ∧ normalize q = .ok q) ↔
      ∃ device u tail, splitDevice p = .ok (device, u, tail) ∧
        ¬(device = none ∧ u = none ∧ Exposed (walk tail) (endsInSlash (slashes tail))) := by
  constructor
  · rintro ⟨q, hq, hstable⟩
    rcases hsplit : splitDevice p with e | ⟨device, u, tail⟩
    · rw [normalize, hsplit] at hq
      cases hq
    · refine ⟨device, u, tail, rfl, ?_⟩
      rintro ⟨rfl, rfl, hexposed⟩
      have hs := splitDevice_eq_ok_iff.mp hsplit
      obtain rfl := Except.ok.inj (hq.symm.trans (normalize_eq hs))
      exact (stable_relative_iff (clean_walk hs.text)).mp hstable hexposed
  · rintro ⟨device, u, tail, hsplit, hexposed⟩
    have hs := splitDevice_eq_ok_iff.mp hsplit
    have hx := clean_walk hs.text
    refine ⟨_, normalize_eq hs, ?_⟩
    rcases habs : (u.isSome || isUnc (device.getD [])) with _ | _
    · rw [Bool.or_eq_false_iff, Option.isSome_eq_false_iff, Option.isNone_iff_eq_none] at habs
      obtain ⟨rfl, hunc⟩ := habs
      rcases device with _ | d
      · exact (stable_relative_iff hx).mpr fun h ↦ hexposed ⟨rfl, rfl, h⟩
      · obtain ⟨letter, hl, rfl⟩ := isUnc_eq_false (hs.isDevice d rfl) hunc
        exact stable_drive hl hx _
    · exact stable_absolute hs.isDevice hx _

/-- The name of a drive as a file of the working directory. -/
theorem drive_gains_dot :
    normalize (js "./c:") = .ok (js "c:") ∧ normalize (js "c:") = .ok (js "c:.") ∧
      ¬∃ q, normalize (js "./c:") = .ok q ∧ normalize q = .ok q := by
  have hfirst : normalize (js "./c:") = .ok (js "c:") := by decide
  have hsecond : normalize (js "c:") = .ok (js "c:.") := by decide
  refine ⟨hfirst, hsecond, ?_⟩
  rintro ⟨q, hq, hstable⟩
  obtain rfl := Except.ok.inj (hfirst.symm.trans hq)
  have heq := Except.ok.inj (hsecond.symm.trans hstable)
  revert heq
  decide

end SpiderNode.Files.Windows
