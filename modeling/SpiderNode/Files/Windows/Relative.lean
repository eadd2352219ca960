import SpiderNode.Files.Relative
import SpiderNode.Files.Windows.Resolve

/-!
# The way from one path of Windows to another

`relative` compares the resolved paths in lower case, part by part. It splits them at every
backslash, so the two that a UNC path begins with make empty parts; and `trim` takes as many parts
off the end as it finds empty ones in front. A UNC path loses its last two parts, then, and the way
to it or from it is right only by chance. And a way that goes down only can begin with a part which
`resolve` reads as a drive.

`Related` says for which places the way leads from one to the other, up to letter case, and
`resolve_relative_iff` that for no others it does.
-/

namespace SpiderNode.Files.Windows

open Net (JsError)
open Trees

/-- `path.relative` -/
def relative (c : CaseMap) (cwd fromPath toPath : JSString) : Except JsError JSString := do
  let fromPath ← resolve c cwd [fromPath]
  let toPath ← resolve c cwd [toPath]
  let toParts := trim (toPath.splitOn backslash)
  let lowerFromParts := trim ((c.toLowerCase fromPath).splitOn backslash)
  let lowerToParts := trim ((c.toLowerCase toPath).splitOn backslash)
  let samePartsLength := samePartsLength lowerFromParts lowerToParts
  if samePartsLength = 0 then return toPath
  return join (outputParts lowerFromParts toParts samePartsLength)

/-! ## Up to letter case -/

/-- The same string, up to letter case. -/
def CaseMap.Same (c : CaseMap) (s t : JSString) : Prop := c.toLowerCase s = c.toLowerCase t

/-- The same parts, up to letter case. -/
def CaseMap.SameParts (c : CaseMap) (l l' : List JSString) : Prop :=
  l.map c.toLowerCase = l'.map c.toLowerCase

instance (c : CaseMap) (s t : JSString) : Decidable (c.Same s t) :=
  inferInstanceAs (Decidable (c.toLowerCase s = c.toLowerCase t))

variable {c : CaseMap} {cwd p q s t : JSString} {l l' out : List JSString} {a b : Place}

/-- A part of a path that is not empty. -/
def ArePart (l : List JSString) : Prop := ∀ q ∈ l, IsPart q

theorem arePart_nil : ArePart [] := fun _ hq ↦ absurd hq List.not_mem_nil

theorem CaseMap.isSeparator_lower (c : CaseMap) (u : UInt16) :
    isSeparator (c.lower u) = isSeparator u := by
  have hback := c.lower_eq_iff backslash (by decide) (by decide) u
  have hslash := c.lower_eq_iff slash (by decide) (by decide) u
  rw [Bool.eq_iff_iff, isSeparator_iff, isSeparator_iff, hback, hslash]

theorem CaseMap.notSeparator_toLowerCase (h : ∀ x ∈ p, notSeparator x = true) :
    ∀ x ∈ c.toLowerCase p, notSeparator x = true := by
  intro x hx
  obtain ⟨u, hu, rfl⟩ := List.mem_map.mp hx
  rw [notSeparator, c.isSeparator_lower]
  exact h u hu

theorem CaseMap.toLowerCase_append (c : CaseMap) (p q : JSString) :
    c.toLowerCase (p ++ q) = c.toLowerCase p ++ c.toLowerCase q := List.map_append

theorem CaseMap.length_toLowerCase (c : CaseMap) (p : JSString) :
    (c.toLowerCase p).length = p.length := List.length_map ..

theorem CaseMap.lower_backslash (c : CaseMap) : c.lower backslash = backslash :=
  (c.lower_eq_iff backslash (by decide) (by decide) backslash).mpr rfl

theorem IsPart.toLowerCase (h : IsPart p) : IsPart (c.toLowerCase p) :=
  ⟨fun hnil ↦ h.1 (List.map_eq_nil_iff.mp hnil), CaseMap.notSeparator_toLowerCase h.2⟩

theorem ArePart.map_toLowerCase (h : ArePart l) : ArePart (l.map c.toLowerCase) := by
  intro q hq
  obtain ⟨p, hp, rfl⟩ := List.mem_map.mp hq
  exact (h p hp).toLowerCase

theorem CaseMap.splitOn_toLowerCase (c : CaseMap) (p : JSString) :
    (c.toLowerCase p).splitOn backslash = (p.splitOn backslash).map c.toLowerCase := by
  induction p with
  | nil => rfl
  | cons u p ih =>
    have hcons : c.toLowerCase (u :: p) = c.lower u :: c.toLowerCase p := rfl
    have hu := c.lower_eq_iff backslash (by decide) (by decide) u
    rw [hcons, List.splitOn_cons_eq_if_modifyHead, List.splitOn_cons_eq_if_modifyHead, ih]
    by_cases heq : u = backslash
    · rw [if_pos (by simpa using hu.mpr heq), if_pos (by simpa using heq)]
      rfl
    · rw [if_neg (by simpa using hu.not.mpr heq), if_neg (by simpa using heq)]
      cases p.splitOn backslash with
      | nil => rfl
      | cons part parts => rfl

/-! ## Parts of a resolved path -/

/-- What a device is made of. -/
def Device.parts : Device → List JSString
  | drive letter _ => [[letter, colon]]
  | unc server share _ _ => [server, share]

/-- How many empty parts there are in front of a device. -/
def Device.lead : Device → ℕ
  | drive _ _ => 0
  | unc _ _ _ _ => 2

/-- The parts of a resolved path that are not empty. -/
def Place.names (a : Place) : List JSString := a.device.parts ++ a.parts

/-- Those that `trim` leaves. -/
def Place.trimmed (a : Place) : List JSString := a.names.take (a.names.length - a.device.lead)

theorem isPart_of_isName (h : IsName q) (hback : backslash ∉ q) : IsPart q :=
  isPart_iff.mpr ⟨h.1, h.2.1, hback⟩

theorem isPart_drive {letter : UInt16} (hl : isLetter letter = true) : IsPart [letter, colon] :=
  isPart_iff.mpr ⟨List.cons_ne_nil _ _, Device.slash_notMem (.drive letter hl), by
    have hne := letter_ne hl (x := backslash) (by decide)
    have hcolon : colon ≠ backslash := by decide
    simp [hne.symm, hcolon.symm]⟩

theorem Place.isPart_parts (a : Place) : ArePart a.parts := fun q hq ↦
  isPart_of_isName (a.clean q hq).1 (a.clean q hq).2.1

theorem Place.isPart_names (a : Place) : ArePart a.names := by
  intro q hq
  rcases List.mem_append.mp hq with hq | hq
  · cases hd : a.device with
    | drive letter h =>
      rw [hd] at hq
      obtain rfl : q = [letter, colon] := List.mem_singleton.mp hq
      exact isPart_drive h
    | unc server share hserver hshare =>
      rw [hd] at hq
      rcases List.mem_pair.mp hq with rfl | rfl
      · exact hserver
      · exact hshare
  · exact a.isPart_parts q hq

theorem join_cons (q : JSString) (h : l ≠ []) : join (q :: l) = q ++ backslash :: join l := by
  rw [join, List.intercalate_cons_of_ne_nil h, List.append_assoc, List.singleton_append, ← join]

theorem Device.join_parts (d : Device) (h : l ≠ []) :
    d.text ++ backslash :: join l = join (List.replicate d.lead [] ++ d.parts ++ l) := by
  cases d with
  | drive letter _ => exact (join_cons _ h).symm
  | unc server share _ _ =>
    show _ = join ([] :: [] :: server :: share :: l)
    rw [join_cons _ (List.cons_ne_nil _ _), join_cons _ (List.cons_ne_nil _ _),
      join_cons _ (List.cons_ne_nil _ _), join_cons _ h]
    simp [text]

theorem Place.splitOn_path (a : Place) :
    ∃ n, a.path.splitOn backslash = List.replicate a.device.lead [] ++ a.names ++
      List.replicate n [] := by
  have hsplit : ∀ n, List.replicate a.device.lead [] ++ a.names ++ List.replicate n [] ≠ [] →
      (join (List.replicate a.device.lead [] ++ a.names ++ List.replicate n [])).splitOn backslash =
        List.replicate a.device.lead [] ++ a.names ++ List.replicate n [] := by
    intro n hne
    refine List.splitOn_intercalate backslash (fun q hq ↦ ?_) hne
    rcases List.mem_append.mp hq with hq | hq
    · rcases List.mem_append.mp hq with hq | hq
      · rw [List.eq_of_mem_replicate hq]
        exact List.not_mem_nil
      · exact (isPart_iff.mp (a.isPart_names q hq)).2.2
    · rw [List.eq_of_mem_replicate hq]
      exact List.not_mem_nil
  rcases eq_or_ne a.parts [] with hnil | hne
  · refine ⟨1, ?_⟩
    have hnames : a.names = a.device.parts := by rw [names, hnil, List.append_nil]
    have hpath : a.path = join (List.replicate a.device.lead [] ++ a.names ++ [[]]) := by
      rw [hnames, ← a.device.join_parts (List.cons_ne_nil _ _), path, hnil]
      rfl
    rw [hpath]
    exact hsplit 1 (by simp)
  · refine ⟨0, ?_⟩
    have hpath : a.path = join (List.replicate a.device.lead [] ++ a.names ++ []) := by
      rw [List.append_nil, names, ← List.append_assoc, ← a.device.join_parts hne, path]
    rw [hpath]
    exact hsplit 0 (by simp [names, hne])

theorem Place.names_ne_nil (a : Place) : a.names ≠ [] := by
  rw [names]
  cases a.device with
  | drive => exact List.cons_ne_nil _ _
  | unc => exact List.cons_ne_nil _ _

theorem Place.trim_path (a : Place) : trim (a.path.splitOn backslash) = a.trimmed := by
  obtain ⟨n, hsplit⟩ := a.splitOn_path
  rw [hsplit]
  exact trim_append (fun q hq ↦ (a.isPart_names q hq).1) a.names_ne_nil _ _

theorem Place.trim_toLowerCase_path (a : Place) (c : CaseMap) :
    trim ((c.toLowerCase a.path).splitOn backslash) = a.trimmed.map c.toLowerCase := by
  obtain ⟨n, hsplit⟩ := a.splitOn_path
  have hempty : c.toLowerCase [] = [] := rfl
  rw [c.splitOn_toLowerCase, hsplit, List.map_append, List.map_append, List.map_replicate,
    List.map_replicate, hempty, trim_append
      (fun q hq ↦ (a.isPart_names.map_toLowerCase (c := c) q hq).1)
      (List.map_eq_nil_iff.not.mpr a.names_ne_nil), List.length_map, trimmed, List.map_take]

/-! ## The same path, up to letter case -/

theorem parts_join (h : ArePart l) : parts (join l) = l := by
  have hback : backslash ∉ Files.join l := by
    intro hmem
    rcases mem_join hmem with heq | ⟨q, hq, hmem⟩
    · revert heq
      decide
    · exact (isPart_iff.mp (h q hq)).2.2 hmem
  rw [join_eq fun q hq ↦ (isPart_iff.mp (h q hq)).2.1, parts_eq, slashes_backslashes hback,
    segments_join fun q hq ↦ ⟨(h q hq).1, (isPart_iff.mp (h q hq)).2.1⟩]

theorem CaseMap.toLowerCase_join (c : CaseMap) (l : List JSString) :
    c.toLowerCase (join l) = join (l.map c.toLowerCase) := by
  induction l with
  | nil => rfl
  | cons q l ih =>
    rcases eq_or_ne l [] with rfl | hne
    · rw [List.map_singleton, join, join, List.intercalate_singleton, List.intercalate_singleton]
    · have hback : c.toLowerCase (backslash :: join l) = backslash :: c.toLowerCase (join l) :=
        congrArg (· :: c.toLowerCase (join l)) c.lower_backslash
      rw [join_cons q hne, c.toLowerCase_append, hback, ih, List.map_cons,
        join_cons _ (List.map_eq_nil_iff.not.mpr hne)]

theorem same_join_iff (h : ArePart l) (h' : ArePart l') :
    c.Same (join l) (join l') ↔ c.SameParts l l' := by
  rw [CaseMap.Same, CaseMap.SameParts, c.toLowerCase_join, c.toLowerCase_join]
  refine ⟨fun heq ↦ ?_, fun heq ↦ by rw [heq]⟩
  rw [← parts_join h.map_toLowerCase, heq, parts_join h'.map_toLowerCase]

theorem not_same_drive_unc {letter : UInt16} (hl : isLetter letter = true) :
    ¬c.Same (letter :: p) (backslash :: q) := by
  intro h
  have hhead : c.lower letter = backslash := (List.cons.inj h).1.trans c.lower_backslash
  exact letter_ne hl (by decide)
    ((c.lower_eq_iff backslash (by decide) (by decide) letter).mp hhead)

/-- A separator keeps what is in front of it from what is behind it. -/
theorem same_append_iff (hp : IsPart p) (hq : IsPart q) :
    c.Same (p ++ backslash :: s) (q ++ backslash :: t) ↔ c.Same p q ∧ c.Same s t := by
  have hcons : ∀ s, c.toLowerCase (backslash :: s) = backslash :: c.toLowerCase s := fun s ↦
    congrArg (· :: c.toLowerCase s) c.lower_backslash
  rw [CaseMap.Same, c.toLowerCase_append, c.toLowerCase_append, hcons, hcons]
  constructor
  · intro h
    obtain ⟨hpq, -, hst⟩ := append_separator_inj h (hp.toLowerCase (c := c)).2
      (hq.toLowerCase (c := c)).2 (by decide) (by decide)
    exact ⟨hpq, hst⟩
  · rintro ⟨hpq, hst⟩
    rw [show c.toLowerCase p = c.toLowerCase q from hpq,
      show c.toLowerCase s = c.toLowerCase t from hst]

theorem same_cons_iff (u : UInt16) : c.Same (u :: p) (u :: q) ↔ c.Same p q := by
  simp [CaseMap.Same, CaseMap.toLowerCase]

theorem same_device_iff {d e : Device} :
    c.Same (d.text ++ backslash :: p) (e.text ++ backslash :: q) ↔
      c.Same d.text e.text ∧ c.Same p q := by
  cases d with
  | drive letter h =>
    cases e with
    | drive letter' h' => simp [CaseMap.Same, CaseMap.toLowerCase, Device.text]
    | unc server' share' hserver' hshare' =>
      exact iff_of_false (not_same_drive_unc h) fun hs ↦ not_same_drive_unc h hs.1
  | unc server share hserver hshare =>
    cases e with
    | drive letter' h' =>
      exact iff_of_false (fun hs ↦ not_same_drive_unc h' hs.symm) fun hs ↦
        not_same_drive_unc h' hs.1.symm
    | unc server' share' hserver' hshare' =>
      simp only [Device.text, List.cons_append, List.append_assoc, same_cons_iff]
      rw [same_append_iff hserver hserver', same_append_iff hserver hserver',
        same_append_iff hshare hshare', and_assoc]

theorem same_path_iff {d : Device} (h : ArePart l) :
    c.Same (d.text ++ backslash :: join l) b.path ↔
      c.Same d.text b.device.text ∧ c.SameParts l b.parts := by
  rw [Place.path, same_device_iff, same_join_iff h b.isPart_parts]

theorem same_drive_iff {letter letter' : UInt16} :
    c.Same [letter, colon] [letter', colon] ↔ c.lower letter = c.lower letter' := by
  simp [CaseMap.Same, CaseMap.toLowerCase]

theorem same_unc_iff {server share server' share' : JSString} {hserver : IsPart server}
    {hshare : IsPart share} {hserver' : IsPart server'} {hshare' : IsPart share'} :
    c.Same (Device.unc server share hserver hshare).text
      (Device.unc server' share' hserver' hshare').text ↔
      c.Same server server' ∧ c.Same share share' := by
  simp only [Device.text, List.cons_append, same_cons_iff]
  exact same_append_iff hserver hserver'

/-! ## What parts lead to behind a path -/

/-- The first part begins like a drive. -/
def BeginsWithDrive (l : List JSString) : Prop := ∃ q ∈ l.head?, DriveLike q

variable {letter : UInt16} {w z : JSString} {base rest : List JSString}

theorem join_drive (letter : UInt16) (z : JSString) (rest : List JSString) :
    join ((letter :: colon :: z) :: rest) = letter :: colon :: join (z :: rest) := by
  rcases eq_or_ne rest [] with rfl | hne
  · rw [join, join, List.intercalate_singleton, List.intercalate_singleton]
  · rw [join_cons _ hne, join_cons _ hne]
    rfl

theorem driveLike_join_iff (h : ArePart out) : DriveLike (join out) ↔ BeginsWithDrive out := by
  constructor
  · rintro ⟨letter, w, hl, hjoin⟩
    rcases out with _ | ⟨q, out⟩
    · cases hjoin
    · refine ⟨q, rfl, ?_⟩
      have hq := (h q List.mem_cons_self).1
      rcases eq_or_ne out [] with rfl | hne
      · rw [join, List.intercalate_singleton] at hjoin
        exact ⟨letter, w, hl, hjoin⟩
      · rw [join_cons q hne] at hjoin
        rcases q with _ | ⟨x, _ | ⟨y, z⟩⟩
        · exact absurd rfl hq
        · have hcolon : backslash = colon := (List.cons.inj (List.cons.inj hjoin).2).1
          exact absurd hcolon (by decide)
        · obtain ⟨rfl, hrest⟩ := List.cons.inj hjoin
          obtain rfl : y = colon := (List.cons.inj hrest).1
          exact ⟨x, z, hl, rfl⟩
  · rintro ⟨q, hq, letter, z, hl, rfl⟩
    obtain ⟨rest, rfl⟩ : ∃ rest, out = (letter :: colon :: z) :: rest :=
      List.head?_eq_some_iff.mp hq
    exact ⟨letter, join (z :: rest), hl, join_drive letter z rest⟩

theorem isSeparator_head_join (h : ArePart out) :
    ∀ u ∈ (join out).head?, isSeparator u = false := by
  intro u hu
  rcases out with _ | ⟨q, out⟩
  · cases hu
  · obtain ⟨hne, hsep⟩ := h q List.mem_cons_self
    obtain ⟨x, q, rfl⟩ := List.exists_cons_of_ne_nil hne
    have hx : u = x := by
      rcases eq_or_ne out [] with rfl | hne
      · rw [join, List.intercalate_singleton] at hu
        exact (Option.some.inj hu).symm
      · rw [join_cons _ hne] at hu
        exact (Option.some.inj hu).symm
    have hsep := hsep x List.mem_cons_self
    rw [hx]
    simpa [notSeparator] using hsep

theorem forall_mem_join_iff :
    (∀ u ∈ join out, notTerminator u = true) ↔ ∀ q ∈ out, ∀ u ∈ q, notTerminator u = true := by
  induction out with
  | nil => simp [join]
  | cons q out ih =>
    rw [List.forall_mem_cons, ← ih]
    rcases eq_or_ne out [] with rfl | hne
    · rw [join, List.intercalate_singleton]
      simp [join]
    · have hback : notTerminator backslash = true := by decide
      rw [join_cons q hne, List.forall_mem_append, List.forall_mem_cons]
      simp [hback]

theorem walk_join (h : ArePart out) : walk (join out) = net (out.map step) := by
  rw [walk, Files.walk, ← parts_eq, parts_join h]

theorem walk_append_singleton (w : JSString) : walk (w ++ [backslash]) = walk w := by
  rw [walk_append_backslash, walk_empty, mul_one]

/-- A path that is resolved has a split. -/
theorem exists_isSplit (h : resolve c cwd [p, q] = .ok s) (hq : q ≠ []) :
    ∃ device u tail, IsSplit q device u tail := by
  have hlist : [p, q].reverse ++ [cwd] = [q, p, cwd] := rfl
  rw [resolve, hlist, gather, if_neg hq] at h
  rcases hsplit : splitDevice q with e | ⟨device, u, tail⟩
  · rw [hsplit] at h
    cases h
  · exact ⟨device, u, tail, splitDevice_eq_ok_iff.mp hsplit⟩

/-- Parts that do not begin like a drive are followed from where the path leads. -/
theorem resolve_join_iff (h : Leads c cwd p a) (hout : ArePart out)
    (hdrive : ¬BeginsWithDrive out) :
    resolve c cwd [p, join out] = .ok s ↔ (∀ q ∈ out, ∀ u ∈ q, notTerminator u = true) ∧
      s = a.device.text ++ backslash :: join ((net (out.map step)).act a.parts) := by
  have hhead := isSeparator_head_join hout
  have hnot := (driveLike_join_iff hout).not.mpr hdrive
  have hpair : (∀ q ∈ out, ∀ u ∈ q, notTerminator u = true) →
      resolve c cwd [p, join out] =
        .ok (a.device.text ++ backslash :: join ((net (out.map step)).act a.parts)) := by
    intro htext
    rw [resolve_pair h (.inr (isSplit_relative hnot hhead (forall_mem_join_iff.mpr htext))),
      walk_join hout]
  constructor
  · intro hok
    have htext : ∀ q ∈ out, ∀ u ∈ q, notTerminator u = true := by
      rw [← forall_mem_join_iff]
      rcases eq_or_ne (join out) [] with hnil | hne
      · rw [hnil]
        exact fun u hu ↦ absurd hu List.not_mem_nil
      · obtain ⟨device, u, tail, hs⟩ := exists_isSplit hok hne
        have hdevice : device = none := by
          rcases device with _ | d
          · rfl
          · have happend : join out = d ++ (u.toList ++ tail) := hs.eq_append
            rcases hs.isDevice d rfl with
              ⟨letter, hl, rfl⟩ | ⟨x, _, _, _, _, hx, -, -, -, -, -, -, rfl⟩
            · exact absurd ⟨letter, _, hl, happend⟩ hnot
            · rw [hhead x (by rw [happend]; rfl)] at hx
              cases hx
        subst hdevice
        have happend : join out = u.toList ++ tail := hs.eq_append
        rcases u with _ | x
        · rw [happend]
          exact hs.text
        · have hx := hs.isSeparator x rfl
          rw [hhead x (by rw [happend]; rfl)] at hx
          cases hx
    rw [hpair htext] at hok
    exact ⟨htext, (Except.ok.inj hok).symm⟩
  · rintro ⟨htext, rfl⟩
    exact hpair htext

/-- Parts lead down to themselves, or not as far. -/
theorem act_eq_append_or (out base : List JSString) :
    (net (out.map step)).act base = base ++ out ∨
      ((net (out.map step)).act base).length < base.length + out.length := by
  induction out generalizing base with
  | nil => simp
  | cons q out ih =>
    have hstep : (step q).net.act base = base ++ [q] ∨
        ((step q).net.act base).length ≤ base.length := by
      rw [step]
      split_ifs
      · exact .inr (by simp [Step.net])
      · exact .inr (by simp [Step.net, Net.act])
      · exact .inl (by simp [Step.net, Net.act])
    rw [List.map_cons, net_cons, Net.act_mul, List.length_cons]
    have hrest := ih ((step q).net.act base)
    have hle : ((net (out.map step)).act ((step q).net.act base)).length ≤
        ((step q).net.act base).length + out.length := by
      rcases hrest with heq | hlt
      · exact Nat.le_of_eq (by rw [heq, List.length_append])
      · exact Nat.le_of_lt hlt
    rcases hstep with heq | hlt
    · rw [heq, List.length_append, List.length_singleton] at hrest
      rw [heq]
      refine hrest.imp (fun h ↦ ?_) fun h ↦ by omega
      rw [h, List.append_assoc, List.singleton_append]
    · exact .inr (by omega)

/-! ## What begins with a drive, behind a path -/

theorem arePart_act (h : ArePart base) (w : JSString) : ArePart ((walk w).act base) := by
  intro q hq
  rcases List.mem_append.mp hq with hq | hq
  · exact h q (List.mem_of_mem_take hq)
  · exact isPart_of_isName (isName_of_mem_downs hq).1 (isName_of_mem_downs hq).2

theorem arePart_downs (w : JSString) : ArePart (walk w).downs := by
  rw [← Net.act_nil]
  exact arePart_act arePart_nil w

theorem CaseMap.SameParts.length_eq (h : c.SameParts l l') : l.length = l'.length := by
  have hlength := congrArg List.length h
  rwa [List.length_map, List.length_map] at hlength

theorem finish_of_ne_nil {r : Resolving} (h : r.device ≠ []) :
    r.finish = backslashes r.device ++ backslash :: join (walk r.tail).downs :=
  Ends.finish ⟨h, rfl, rfl⟩

theorem resolve_drive {u : Option UInt16} {tail : JSString}
    (hs : IsSplit (letter :: colon :: w) (some [letter, colon]) u tail) :
    resolve c cwd [p, letter :: colon :: w] =
      (if u.isSome then .ok ⟨[letter, colon], tail ++ [backslash], true⟩
        else gather c [p, cwd] ⟨[letter, colon], tail ++ [backslash], false⟩ :
          Except JsError Resolving).map Resolving.finish := by
  have hlist : [p, letter :: colon :: w].reverse ++ [cwd] = [letter :: colon :: w, p, cwd] := rfl
  have hunc := isUnc_drive letter
  rw [resolve, hlist, gather_first (List.cons_ne_nil _ _) hs, Option.getD_some, hunc]
  rcases u with _ | x
  · rw [if_neg (by simp)]
    rfl
  · rw [if_pos (by simp)]
    rfl

/-- A path that begins with a drive, read behind another one. -/
theorem of_resolve_drive (hl : isLetter letter = true)
    (hout : ArePart ((letter :: colon :: z) :: rest))
    (hok : resolve c cwd [p, join ((letter :: colon :: z) :: rest)] = .ok s) :
    (z = [] ∧ s = (Device.drive letter hl).text ++ backslash :: join (walk (join rest)).downs) ∨
      (z ≠ [] ∨ rest = []) ∧ ∃ r, s = r.finish ∧
        gather c [p, cwd] ⟨[letter, colon], join (z :: rest) ++ [backslash], false⟩ = .ok r := by
  rw [join_drive] at hok
  obtain ⟨device, u, tail, hs⟩ := exists_isSplit hok (List.cons_ne_nil _ _)
  obtain ⟨rfl, happend⟩ := eq_of_isSplit_drive hl hs
  rw [resolve_drive hs] at hok
  rcases u with _ | x
  · have htail : join (z :: rest) = tail := happend
    rcases hgather : gather c [p, cwd] ⟨[letter, colon], tail ++ [backslash], false⟩ with e | r
    · rw [hgather] at hok
      cases hok
    · rw [hgather] at hok
      refine .inr ⟨?_, r, (Except.ok.inj hok).symm, htail ▸ hgather⟩
      by_contra hnot
      rw [not_or, not_not] at hnot
      obtain ⟨rfl, hne⟩ := hnot
      have hhead := hs.head_tail rfl backslash (by rw [← htail, join_cons _ hne]; rfl)
      revert hhead
      decide
  · left
    have hx := hs.isSeparator x rfl
    have hcons : join (z :: rest) = x :: tail := happend
    have hz : z = [] := by
      by_contra hne
      obtain ⟨v, z', rfl⟩ := List.exists_cons_of_ne_nil hne
      have hv := (hout _ List.mem_cons_self).2 v (by simp)
      have hhead : v = x := by
        rcases eq_or_ne rest [] with rfl | hrest
        · rw [join, List.intercalate_singleton] at hcons
          exact (List.cons.inj hcons).1
        · rw [join_cons _ hrest] at hcons
          exact (List.cons.inj hcons).1
      rw [hhead, notSeparator, hx] at hv
      cases hv
    subst hz
    refine ⟨rfl, (Except.ok.inj hok).symm.trans ?_⟩
    have htail : join rest = tail := by
      rcases eq_or_ne rest [] with rfl | hrest
      · cases hcons
      · rw [join_cons _ hrest] at hcons
        exact (List.cons.inj hcons).2
    rw [finish_of_ne_nil (List.cons_ne_nil _ _), backslashes_drive hl, walk_append_singleton, htail]
    rfl

/-- Its device is that drive. -/
theorem exists_eq_of_resolve_drive (hl : isLetter letter = true)
    (hout : ArePart ((letter :: colon :: z) :: rest))
    (hok : resolve c cwd [p, join ((letter :: colon :: z) :: rest)] = .ok s) :
    ∃ t, s = (Device.drive letter hl).text ++ backslash :: t := by
  rcases of_resolve_drive hl hout hok with ⟨-, rfl⟩ | ⟨-, r, rfl, hgather⟩
  · exact ⟨_, rfl⟩
  · have hdevice := device_of_gather (List.cons_ne_nil _ _) hgather
    refine ⟨join (walk r.tail).downs, ?_⟩
    rw [finish_of_ne_nil (by rw [hdevice]; exact List.cons_ne_nil _ _), hdevice,
      backslashes_drive hl]
    rfl

theorem not_sameParts_downs (hout : ArePart (q :: rest)) :
    ¬c.SameParts (walk (join rest)).downs (l ++ q :: rest) := by
  intro hsame
  have hrest : ArePart rest := fun q hq ↦ hout q (List.mem_cons_of_mem _ hq)
  have hlength := hsame.length_eq
  rw [walk_join hrest, ← Net.act_nil, List.length_append, List.length_cons] at hlength
  rcases act_eq_append_or rest [] with heq | hlt
  · rw [heq, List.nil_append] at hlength
    omega
  · rw [List.length_nil] at hlt
    omega

/-- The drive is a part of the path, and then it is not. -/
theorem not_sameParts_walk (hout : ArePart ((letter :: colon :: z) :: rest))
    (hz : z ≠ [] ∨ rest = []) (hle : base.length ≤ l.length) :
    ¬c.SameParts ((walk (join (z :: rest))).act base) (l ++ (letter :: colon :: z) :: rest) := by
  intro hsame
  have hlength := hsame.length_eq
  rw [List.length_append, List.length_cons] at hlength
  rcases eq_or_ne z [] with rfl | hne
  · obtain rfl := hz.resolve_left (not_not.mpr rfl)
    have hwalk : (walk (join [[]])).act base = base := Net.act_one base
    rw [hwalk] at hlength
    omega
  · have hparts : ArePart (z :: rest) := List.forall_mem_cons.mpr
      ⟨⟨hne, fun x hx ↦ (hout _ List.mem_cons_self).2 x (by simp [hx])⟩,
        fun q hq ↦ hout q (List.mem_cons_of_mem _ hq)⟩
    rw [walk_join hparts] at hsame hlength
    rcases act_eq_append_or (z :: rest) base with heq | hlt
    · rw [heq, List.length_append, List.length_cons] at hlength
      rw [heq, CaseMap.SameParts, List.map_append, List.map_append] at hsame
      obtain ⟨-, hrest⟩ := List.append_inj hsame (by simp; omega)
      have hdrive := congrArg List.length (List.cons.inj hrest).1
      rw [c.length_toLowerCase, c.length_toLowerCase, List.length_cons, List.length_cons] at hdrive
      omega
    · rw [List.length_cons] at hlt
      omega

/-- A way from one drive to the same one that begins with a drive. -/
theorem not_same_of_drive (ha : Leads c cwd p a) {x y : UInt16} {hx : isLetter x = true}
    {hy : isLetter y = true} (hdevice : a.device = .drive x hx) (hdevice' : b.device = .drive y hy)
    (hxy : c.lower x = c.lower y) (hout : ArePart out) (hbegins : BeginsWithDrive out)
    (hb : b.parts = l ++ out) (hle : a.parts.length ≤ l.length)
    (hok : resolve c cwd [p, join out] = .ok s) : ¬c.Same s b.path := by
  intro hsame
  obtain ⟨q, hq, letter, z, hl, rfl⟩ := hbegins
  obtain ⟨rest, rfl⟩ : ∃ rest, out = (letter :: colon :: z) :: rest :=
    List.head?_eq_some_iff.mp hq
  rcases of_resolve_drive hl hout hok with ⟨-, rfl⟩ | ⟨hz, r, rfl, hgather⟩
  · have hparts := ((same_path_iff (arePart_downs (join rest))).mp hsame).2
    rw [hb] at hparts
    exact not_sameParts_downs hout hparts
  · obtain ⟨t, ht⟩ := exists_eq_of_resolve_drive hl hout hok
    have hletter : c.lower letter = c.lower y := by
      rw [ht, Place.path, same_device_iff, hdevice'] at hsame
      exact same_drive_iff.mp hsame.1
    have hknown : c.toLowerCase a.device.text = c.toLowerCase [letter, colon] := by
      rw [hdevice]
      exact same_drive_iff.mpr (hxy.trans hletter.symm)
    obtain ⟨r', hr', hends⟩ := gather_same_drive ha (List.cons_ne_nil letter [colon]) hknown
      ⟨x, hx, hdevice⟩ (join (z :: rest) ++ [backslash])
    obtain rfl : r' = r := Except.ok.inj (hr'.symm.trans hgather)
    rw [hends.finish, walk_append_singleton, backslashes_drive hl] at hsame
    have hparts := ((same_path_iff (d := .drive letter hl)
      (arePart_act a.isPart_parts (join (z :: rest)))).mp hsame).2
    rw [hb] at hparts
    exact not_sameParts_walk hout hz hle hparts

/-! ## From a share to a drive -/

/-- All of `from` that is compared is read as the beginning of `to`, and what follows as a path
behind a drive, which leads from the working directory to the same place. -/
def BesideHome (c : CaseMap) (cwd : JSString) (a b : Place) : Prop :=
  ∃ letter z rest home, isLetter letter = true ∧
    c.SameParts a.trimmed (b.trimmed.take a.parts.length) ∧
    b.trimmed.drop a.parts.length = (letter :: colon :: z) :: rest ∧ (z ≠ [] ∨ rest = []) ∧
    Home cwd home ∧ c.Same home.device.text [letter, colon] ∧
    c.Same b.device.text [letter, colon] ∧
    c.SameParts b.parts ((walk (join (z :: rest))).act home.parts)

theorem Place.trimmed_drive {y : UInt16} {hy : isLetter y = true} (h : b.device = .drive y hy) :
    b.trimmed = [y, colon] :: b.parts := by
  rw [trimmed, names, h]
  exact List.take_length

theorem Place.trimmed_unc {server share : JSString} {hserver : IsPart server}
    {hshare : IsPart share} (h : a.device = .unc server share hserver hshare) :
    a.trimmed = (server :: share :: a.parts).take a.parts.length := by
  rw [trimmed, names, h]
  rfl

theorem Place.length_trimmed_unc {server share : JSString} {hserver : IsPart server}
    {hshare : IsPart share} (h : a.device = .unc server share hserver hshare) :
    a.trimmed.length = a.parts.length := by
  rw [a.trimmed_unc h, List.length_take, List.length_cons, List.length_cons]
  omega

theorem Place.isPart_trimmed (a : Place) : ArePart a.trimmed := fun q hq ↦
  a.isPart_names q (List.mem_of_mem_take hq)

/-- Where a path behind a drive leads when the one in front of it leads to a share. -/
theorem gather_unc (hcwd : OnDrive cwd) (ha : Leads c cwd p a) {server share : JSString}
    {hserver : IsPart server} {hshare : IsPart share}
    (hdevice : a.device = .unc server share hserver hshare) (hl : isLetter letter = true)
    {home : Place} (hhome : Home cwd home) (w : JSString) :
    ∃ r, gather c [p, cwd] ⟨[letter, colon], w ++ [backslash], false⟩ = .ok r ∧
      r.finish = (Device.drive letter hl).text ++ backslash :: join ((walk w).act
        (if c.Same home.device.text [letter, colon] then home.parts else [])) := by
  obtain ⟨r, hr, hends⟩ := gather_home_drive (c := c)
    (r := ⟨[letter, colon], w ++ [backslash], false⟩) hhome (List.cons_ne_nil _ _) rfl
  refine ⟨r, (gather_other_device hcwd ha hl hdevice _).trans hr, ?_⟩
  rw [hends.finish, walk_append_singleton, backslashes_drive hl]
  rfl

theorem besideHome_iff (hcwd : OnDrive cwd) (ha : Leads c cwd p a) {server share : JSString}
    {hserver : IsPart server} {hshare : IsPart share} {y : UInt16} {hy : isLetter y = true}
    (hdevice : a.device = .unc server share hserver hshare) (hdevice' : b.device = .drive y hy)
    (hne : a.parts ≠ []) (hsame : c.SameParts a.trimmed (b.trimmed.take a.parts.length))
    (hbegins : BeginsWithDrive (b.trimmed.drop a.parts.length)) :
    (∃ s, resolve c cwd [p, join (b.trimmed.drop a.parts.length)] = .ok s ∧ c.Same s b.path) ↔
      BesideHome c cwd a b := by
  obtain ⟨n, hn⟩ := Nat.exists_eq_succ_of_ne_zero (List.length_eq_zero_iff.not.mpr hne)
  have hdrop : b.trimmed.drop a.parts.length = b.parts.drop n := by
    rw [b.trimmed_drive hdevice', hn, List.drop_succ_cons]
  have hb := (List.take_append_drop n b.parts).symm
  obtain ⟨q, hq, letter, z, hl, rfl⟩ := hbegins
  obtain ⟨rest, hrest⟩ := List.head?_eq_some_iff.mp hq
  have hout : ArePart ((letter :: colon :: z) :: rest) := fun q hq ↦
    b.isPart_trimmed q (List.mem_of_mem_drop (hrest ▸ hq))
  rw [← hdrop, hrest] at hb
  constructor
  · rintro ⟨s, hok, hs⟩
    rw [hrest] at hok
    obtain ⟨t, ht⟩ := exists_eq_of_resolve_drive hl hout hok
    have hletter : c.Same b.device.text [letter, colon] := by
      rw [ht, Place.path, same_device_iff] at hs
      exact hs.1.symm
    rcases of_resolve_drive hl hout hok with ⟨-, rfl⟩ | ⟨hz, r, rfl, hgather⟩
    · have hparts := ((same_path_iff (arePart_downs (join rest))).mp hs).2
      rw [hb] at hparts
      exact absurd hparts (not_sameParts_downs hout)
    · obtain ⟨home, hhome⟩ := exists_home hcwd
        ((gather_other_device hcwd ha hl hdevice _).symm.trans hgather)
      obtain ⟨r', hr', hfinish⟩ := gather_unc hcwd ha hdevice hl hhome (join (z :: rest))
      obtain rfl : r' = r := Except.ok.inj (hr'.symm.trans hgather)
      rw [hfinish] at hs
      split_ifs at hs with hhomeDrive
      · have hparts := ((same_path_iff (arePart_act home.isPart_parts _)).mp hs).2
        exact ⟨letter, z, rest, home, hl, hsame, hrest, hz, hhome, hhomeDrive, hletter, hparts.symm⟩
      · have hparts := ((same_path_iff (arePart_act arePart_nil _)).mp hs).2
        rw [hb] at hparts
        exact absurd hparts (not_sameParts_walk hout hz (Nat.zero_le _))
  · rintro ⟨letter', z', rest', home, hl', -, hrest', hz, hhome, hhomeDrive, hletter, hparts⟩
    obtain ⟨hq', rfl⟩ := List.cons.inj (hrest.symm.trans hrest')
    obtain ⟨rfl, hz'⟩ := List.cons.inj hq'
    obtain rfl : z = z' := (List.cons.inj hz').2
    have htext : ∀ u ∈ join (z :: rest), notTerminator u = true := by
      have hclean : ∀ u ∈ join ((letter :: colon :: z) :: rest), notTerminator u = true :=
        forall_mem_join_iff.mpr fun q hq ↦
          (b.clean q (hb ▸ List.mem_append_right _ hq)).2.2
      rw [join_drive] at hclean
      exact fun u hu ↦ hclean u (List.mem_cons_of_mem _ (List.mem_cons_of_mem _ hu))
    have hhead : ∀ u ∈ (join (z :: rest)).head?, isSeparator u = false := by
      rcases eq_or_ne z [] with rfl | hne
      · obtain rfl := hz.resolve_left (not_not.mpr rfl)
        exact fun u hu ↦ absurd hu (by simp [join])
      · exact isSeparator_head_join (List.forall_mem_cons.mpr
          ⟨⟨hne, fun x hx ↦ (hout _ List.mem_cons_self).2 x (by simp [hx])⟩,
            fun q hq ↦ hout q (List.mem_cons_of_mem _ hq)⟩)
    obtain ⟨r, hr, hfinish⟩ := gather_unc hcwd ha hdevice hl hhome (join (z :: rest))
    have hsplit := isSplit_drive (u := none) hl (by simp) (fun _ ↦ hhead) htext
    refine ⟨r.finish, ?_, ?_⟩
    · rw [hrest, join_drive]
      refine (resolve_drive hsplit).trans ?_
      exact congrArg (Except.map Resolving.finish) hr
    · rw [hfinish, if_pos hhomeDrive, same_path_iff (arePart_act home.isPart_parts _)]
      exact ⟨hletter.symm, hparts.symm⟩

/-! ## The way -/

/-- How many parts two places share, up to letter case. -/
def shared (c : CaseMap) (a b : Place) : ℕ :=
  samePartsLength (a.trimmed.map c.toLowerCase) (b.trimmed.map c.toLowerCase)

/-- The parts of the way, where some are shared. -/
def way (c : CaseMap) (a b : Place) : List JSString :=
  route ⟨a.trimmed.length - shared c a b, b.trimmed.drop (shared c a b)⟩

theorem relative_of_leads (ha : Leads c cwd p a) (hb : Leads c cwd q b) :
    relative c cwd p q = .ok (if shared c a b = 0 then b.path else join (way c a b)) := by
  rw [relative, resolve_of_leads ha, resolve_of_leads hb]
  simp only [bind, Except.bind]
  rw [a.trim_toLowerCase_path, b.trim_toLowerCase_path, b.trim_path, ← shared, outputParts,
    List.length_map]
  split_ifs
  · rfl
  · rfl

/-- The whole path is the way where no part is shared. -/
theorem resolve_path (p : JSString) (b : Place) : resolve c cwd [p, b.path] = .ok b.path := by
  have htext : ∀ u ∈ join b.parts, notTerminator u = true :=
    forall_mem_join_iff.mpr fun q hq ↦ (b.clean q hq).2.2
  have hs : IsSplit b.path (some b.device.text) (some backslash) (join b.parts) :=
    isSplit_separator b.device.isDevice (by decide) htext
  have hlist : [p, b.path].reverse ++ [cwd] = [b.path, p, cwd] := rfl
  have hne := b.device.isDevice.ne_nil
  have hwalk : (walk (join b.parts)).downs = b.parts := by
    have hnet := net_route (x := ⟨0, b.parts⟩) fun q hq ↦ (b.clean q hq).1
    have hroute : route ⟨0, b.parts⟩ = b.parts := List.nil_append _
    rw [hroute] at hnet
    rw [walk_join b.isPart_parts, hnet]
  rw [resolve, hlist, gather_first hs.ne_nil hs, if_pos ⟨hne, rfl⟩]
  refine congrArg Except.ok ((finish_of_ne_nil hne).trans ?_)
  show backslashes b.device.text ++ backslash :: join (walk (join b.parts ++ [backslash])).downs = _
  rw [backslashes_of_notMem b.device.slash_notMem, walk_append_singleton, hwalk, Place.path]

theorem isPart_way (c : CaseMap) (a b : Place) : ArePart (way c a b) := by
  intro q hq
  rcases List.mem_append.mp hq with hq | hq
  · rw [List.eq_of_mem_replicate hq]
    exact isPart_iff.mpr (by decide)
  · exact b.isPart_trimmed q (List.mem_of_mem_drop hq)

/-- The way goes up, and then along what is not shared. -/
theorem act_way (c : CaseMap) (a b : Place) :
    (net ((way c a b).map step)).act a.parts =
      (net ((b.trimmed.drop (shared c a b)).map step)).act
        (a.parts.take (a.parts.length - (a.trimmed.length - shared c a b))) := by
  have hups : step (js "..") = .up := rfl
  rw [way, route, List.map_append, net_append, Net.act_mul, List.map_replicate, hups,
    net_replicate_up]
  exact congrArg _ (List.append_nil _)

theorem shared_le_left (c : CaseMap) (a b : Place) : shared c a b ≤ a.trimmed.length := by
  have hle := common_le_left (a.trimmed.map c.toLowerCase) (b.trimmed.map c.toLowerCase)
  rwa [List.length_map] at hle

theorem shared_le_right (c : CaseMap) (a b : Place) : shared c a b ≤ b.trimmed.length := by
  have hle := common_le_right (a.trimmed.map c.toLowerCase) (b.trimmed.map c.toLowerCase)
  rwa [List.length_map] at hle

theorem sameParts_take_shared (c : CaseMap) (a b : Place) :
    c.SameParts (a.trimmed.take (shared c a b)) (b.trimmed.take (shared c a b)) := by
  rw [CaseMap.SameParts, List.map_take, List.map_take]
  exact take_common _ _

theorem le_shared {n : ℕ} (h : c.SameParts (a.trimmed.take n) (b.trimmed.take n))
    (hn : n ≤ a.trimmed.length) (hn' : n ≤ b.trimmed.length) : n ≤ shared c a b := by
  rw [CaseMap.SameParts, List.map_take, List.map_take] at h
  exact le_common h (by rwa [List.length_map]) (by rwa [List.length_map])

theorem shared_ne_zero_iff :
    shared c a b ≠ 0 ↔
      ∃ q q', a.trimmed.head? = some q ∧ b.trimmed.head? = some q' ∧ c.Same q q' := by
  rw [shared, samePartsLength, common_ne_zero_iff, List.head?_map, List.head?_map]
  constructor
  · rintro ⟨t, ha, hb⟩
    obtain ⟨q, hq, rfl⟩ := Option.map_eq_some_iff.mp ha
    obtain ⟨q', hq', heq⟩ := Option.map_eq_some_iff.mp hb
    exact ⟨q, q', hq, hq', heq.symm⟩
  · rintro ⟨q, q', hq, hq', heq⟩
    exact ⟨c.toLowerCase q, by rw [hq]; rfl, by rw [hq', Option.map_some, heq]⟩

theorem way_eq_drop (h : shared c a b = a.trimmed.length) :
    way c a b = b.trimmed.drop a.trimmed.length := by
  rw [way, h, Nat.sub_self]
  exact List.nil_append _

/-- A way that begins with a drive does not go up. -/
theorem way_of_beginsWithDrive (h : BeginsWithDrive (way c a b)) :
    shared c a b = a.trimmed.length ∧ way c a b = b.trimmed.drop a.trimmed.length := by
  have hle := shared_le_left c a b
  have hdot : ¬DriveLike (js "..") := by
    rintro ⟨letter, rest, hl, heq⟩
    obtain rfl : letter = 0x2E := (List.cons.inj heq).1.symm
    revert hl
    decide
  rcases hn : a.trimmed.length - shared c a b with _ | n
  · have heq : shared c a b = a.trimmed.length := by omega
    exact ⟨heq, way_eq_drop heq⟩
  · obtain ⟨q, hq, hdrive⟩ := h
    rw [way, hn] at hq
    obtain rfl : js ".." = q := Option.some.inj hq
    exact absurd hdrive hdot

/-! ## When it leads there -/

/-- When the way from one place to another leads there, up to letter case: if no part is shared; on
one drive, unless it only goes down, and to what begins like a drive; from one share to another one
of the same name, if the names come right although they lie two parts behind. -/
def Related (c : CaseMap) (cwd : JSString) (a b : Place) : Prop :=
  match a.device, b.device with
  | .drive x _, .drive y _ => c.lower x = c.lower y →
    ¬∃ l rest, c.SameParts a.parts l ∧ b.parts = l ++ rest ∧ BeginsWithDrive rest
  | .drive x _, .unc server _ _ _ => b.parts = [] ∨ ¬c.Same [x, colon] server
  | .unc server _ _ _, .drive y _ =>
    a.parts = [] ∨ ¬c.Same server [y, colon] ∨ BesideHome c cwd a b
  | .unc server share _ _, .unc server' share' _ _ =>
    a.parts = [] ∨ b.parts = [] ∨ ¬c.Same server server' ∨ c.Same share share' ∧
      c.SameParts (a.parts.take b.parts.length ++ b.trimmed.drop a.parts.length) b.parts ∧
      ¬BeginsWithDrive (b.trimmed.drop a.parts.length)

theorem CaseMap.SameParts.take (h : c.SameParts l l') (n : ℕ) :
    c.SameParts (l.take n) (l'.take n) := by
  rw [SameParts, List.map_take, List.map_take, show l.map c.toLowerCase = l'.map _ from h]

theorem CaseMap.SameParts.drop (h : c.SameParts l l') (n : ℕ) :
    c.SameParts (l.drop n) (l'.drop n) := by
  rw [SameParts, List.map_drop, List.map_drop, show l.map c.toLowerCase = l'.map _ from h]

theorem CaseMap.SameParts.append_right (h : c.SameParts l l') (out : List JSString) :
    c.SameParts (l ++ out) (l' ++ out) := by
  rw [SameParts, List.map_append, List.map_append, show l.map c.toLowerCase = l'.map _ from h]

theorem head?_trimmed_drive {x : UInt16} {hx : isLetter x = true} (h : a.device = .drive x hx) :
    a.trimmed.head? = some [x, colon] := by
  rw [a.trimmed_drive h]
  rfl

theorem head?_trimmed_unc {server share : JSString} {hserver : IsPart server}
    {hshare : IsPart share} (h : a.device = .unc server share hserver hshare) {q : JSString} :
    a.trimmed.head? = some q ↔ a.parts ≠ [] ∧ server = q := by
  rw [a.trimmed_unc h]
  cases a.parts with
  | nil => simp
  | cons part parts => simp

/-- A way that does not begin like a drive stays on the device. -/
theorem same_device_of_resolve (ha : Leads c cwd p a) (hbegins : ¬BeginsWithDrive (way c a b))
    (hok : resolve c cwd [p, join (way c a b)] = .ok s) (hs : c.Same s b.path) :
    c.Same a.device.text b.device.text := by
  obtain ⟨-, rfl⟩ := (resolve_join_iff ha (isPart_way c a b) hbegins).mp hok
  rw [Place.path, same_device_iff] at hs
  exact hs.1

/-- From one drive to another one. -/
theorem related_iff_drive (ha : Leads c cwd p a) {x y : UInt16} {hx : isLetter x = true}
    {hy : isLetter y = true} (hdevice : a.device = .drive x hx) (hdevice' : b.device = .drive y hy)
    (hxy : c.lower x = c.lower y) :
    (∃ s, resolve c cwd [p, join (way c a b)] = .ok s ∧ c.Same s b.path) ↔
      ¬∃ l rest, c.SameParts a.parts l ∧ b.parts = l ++ rest ∧ BeginsWithDrive rest := by
  have htrimmed := a.trimmed_drive hdevice
  have htrimmed' := b.trimmed_drive hdevice'
  have hsameDevice : c.Same [x, colon] [y, colon] := same_drive_iff.mpr hxy
  obtain ⟨k, hk⟩ : ∃ k, shared c a b = k + 1 := Nat.exists_eq_succ_of_ne_zero
    (shared_ne_zero_iff.mpr ⟨_, _, head?_trimmed_drive hdevice, head?_trimmed_drive hdevice',
      hsameDevice⟩)
  have hle := shared_le_left c a b
  have hle' := shared_le_right c a b
  rw [hk, htrimmed, List.length_cons] at hle
  rw [hk, htrimmed', List.length_cons] at hle'
  have hway : way c a b = route ⟨a.parts.length - k, b.parts.drop k⟩ := by
    rw [way, htrimmed, htrimmed', hk, List.length_cons, List.drop_succ_cons,
      Nat.add_sub_add_right]
  have hparts : c.SameParts (a.parts.take k) (b.parts.take k) := by
    have hshared := sameParts_take_shared c a b
    rw [hk, htrimmed, htrimmed', List.take_succ_cons, List.take_succ_cons] at hshared
    exact (List.cons.inj hshared).2
  by_cases hbegins : BeginsWithDrive (way c a b)
  · obtain ⟨hlength, hdrop⟩ := way_of_beginsWithDrive hbegins
    have hk' : k = a.parts.length := by
      rw [hk, htrimmed, List.length_cons] at hlength
      omega
    have hdown : way c a b = b.parts.drop k := by
      rw [hdrop, htrimmed, htrimmed', List.length_cons, List.drop_succ_cons, hk']
    have happend := (List.take_append_drop k b.parts).symm
    refine iff_of_false ?_ (not_not.mpr ⟨_, _, ?_, happend, hdown ▸ hbegins⟩)
    · rintro ⟨s, hok, hs⟩
      refine not_same_of_drive ha hdevice hdevice' hxy (isPart_way c a b) hbegins
        (hdown ▸ happend) ?_ hok hs
      rw [List.length_take]
      omega
    · rwa [hk', List.take_length, ← hk'] at hparts
  · refine iff_of_true ⟨_, (resolve_join_iff ha (isPart_way c a b) hbegins).mpr ⟨?_, rfl⟩, ?_⟩ ?_
    · intro q hq
      rw [hway] at hq
      rcases List.mem_append.mp hq with hq | hq
      · rw [List.eq_of_mem_replicate hq]
        decide
      · exact (b.clean q (List.mem_of_mem_drop hq)).2.2
    · have hnet : net ((way c a b).map step) = ⟨a.parts.length - k, b.parts.drop k⟩ := by
        rw [hway]
        exact net_route fun q hq ↦ (b.clean q (List.mem_of_mem_drop hq)).1
      have hact : (net ((way c a b).map step)).act a.parts = a.parts.take k ++ b.parts.drop k := by
        rw [hnet, Net.act, show a.parts.length - (a.parts.length - k) = k by omega]
      have hpart : ArePart (a.parts.take k ++ b.parts.drop k) := by
        intro q hq
        rcases List.mem_append.mp hq with hq | hq
        · exact a.isPart_parts q (List.mem_of_mem_take hq)
        · exact b.isPart_parts q (List.mem_of_mem_drop hq)
      rw [hact, same_path_iff hpart, hdevice, hdevice']
      have happend := hparts.append_right (b.parts.drop k)
      rw [List.take_append_drop] at happend
      exact ⟨hsameDevice, happend⟩
    · rintro ⟨l, rest, hl, happend, hrest⟩
      have hlength := hl.length_eq
      have htake : c.SameParts (a.trimmed.take (a.parts.length + 1))
          (b.trimmed.take (a.parts.length + 1)) := by
        rw [htrimmed, htrimmed', List.take_succ_cons, List.take_succ_cons, happend,
          List.take_length, List.take_left' hlength.symm]
        exact congrArg₂ List.cons hsameDevice hl
      have hmax := le_shared htake (Nat.le_of_eq (by rw [htrimmed, List.length_cons])) (by
        rw [htrimmed', happend, List.length_cons, List.length_append]
        omega)
      obtain rfl : k = a.parts.length := by omega
      refine hbegins ?_
      rw [hway, happend, Nat.sub_self, List.drop_left' hlength.symm]
      exact hrest

theorem eq_of_same_dots (h : c.Same p q) (hp : ∀ u ∈ p, u = dot) : q = p := by
  induction p generalizing q with
  | nil => exact List.map_eq_nil_iff.mp (Eq.symm h)
  | cons u p ih =>
    rcases q with _ | ⟨v, q⟩
    · cases h
    · obtain ⟨huv, hpq⟩ := List.cons.inj h
      have hlower := c.lower_eq_iff dot (by decide) (by decide)
      obtain rfl := hp u List.mem_cons_self
      rw [(hlower dot).mpr rfl] at huv
      rw [(hlower v).mp huv.symm, ih hpq fun u hu ↦ hp u (List.mem_cons_of_mem _ hu)]

/-- A part that is a name in lower case is one. -/
theorem isName_of_same (hp : IsPart p) (h : c.Same p q) (hq : IsName q) : IsName p := by
  refine ⟨hp.1, (isPart_iff.mp hp).2.1, fun heq ↦ hq.2.2.1 ?_, fun heq ↦ hq.2.2.2 ?_⟩
  · rw [← heq]
    exact eq_of_same_dots h (by rw [heq]; decide)
  · rw [← heq]
    exact eq_of_same_dots h (by rw [heq]; decide)

theorem notTerminator_of_same (h : c.Same p q) (hq : ∀ u ∈ q, notTerminator u = true) :
    ∀ u ∈ p, notTerminator u = true := by
  intro u hu
  have hmem : c.lower u ∈ c.toLowerCase q := (show _ = _ from h) ▸ List.mem_map_of_mem hu
  obtain ⟨v, hv, heq⟩ := List.mem_map.mp hmem
  have hv' := hq v hv
  rw [notTerminator, ← c.isLineTerminator_lower, ← heq, c.isLineTerminator_lower, ← notTerminator]
  exact hv'

theorem CaseMap.SameParts.exists_mem (h : c.SameParts l l') (hq : q ∈ l) :
    ∃ q' ∈ l', c.Same q q' := by
  have hmem : c.toLowerCase q ∈ l'.map c.toLowerCase :=
    (show _ = _ from h) ▸ List.mem_map_of_mem hq
  obtain ⟨q', hq', heq⟩ := List.mem_map.mp hmem
  exact ⟨q', hq', heq.symm⟩

/-- What begins with a drive does not lead to a share. -/
theorem not_same_of_unc {server share : JSString} {hserver : IsPart server} {hshare : IsPart share}
    (hdevice : b.device = .unc server share hserver hshare) (hout : ArePart out)
    (hbegins : BeginsWithDrive out) (hok : resolve c cwd [p, join out] = .ok s) :
    ¬c.Same s b.path := by
  intro hs
  obtain ⟨q, hq, letter, z, hl, rfl⟩ := hbegins
  obtain ⟨rest, rfl⟩ : ∃ rest, out = (letter :: colon :: z) :: rest :=
    List.head?_eq_some_iff.mp hq
  obtain ⟨t, rfl⟩ := exists_eq_of_resolve_drive hl hout hok
  rw [Place.path, same_device_iff, hdevice] at hs
  exact not_same_drive_unc hl hs.1

theorem sameParts_trimmed {server share server' share' : JSString} {hserver : IsPart server}
    {hshare : IsPart share} {hserver' : IsPart server'} {hshare' : IsPart share'}
    (hdevice : a.device = .unc server share hserver hshare)
    (hdevice' : b.device = .unc server' share' hserver' hshare') (hs : c.Same server server')
    (hs' : c.Same share share') {i j : ℕ} (h : c.SameParts (a.parts.take j) (b.parts.take j))
    (hi : i ≤ a.parts.length) (hi' : i ≤ b.parts.length) (hij : i ≤ j + 2) :
    c.SameParts (a.trimmed.take i) (b.trimmed.take i) := by
  have htake : ∀ (l : List JSString) (q q' : JSString) (n : ℕ), i ≤ n →
      ((q :: q' :: l).take n).take i = (q :: q' :: l.take j).take i := by
    intro l q q' n hn
    have hcons : q :: q' :: l.take j = (q :: q' :: l).take (j + 2) := rfl
    rw [hcons, List.take_take, List.take_take, Nat.min_eq_left hn, Nat.min_eq_left hij]
  have hcons : c.SameParts (server :: share :: a.parts.take j)
      (server' :: share' :: b.parts.take j) :=
    congrArg₂ List.cons hs (congrArg₂ List.cons hs' h)
  rw [a.trimmed_unc hdevice, b.trimmed_unc hdevice', htake _ _ _ _ hi, htake _ _ _ _ hi']
  exact hcons.take i

section

variable {server share server' share' : JSString} {hserver : IsPart server} {hshare : IsPart share}
  {hserver' : IsPart server'} {hshare' : IsPart share'}

/-- Where the shorter one is shared, the way does not depend on which one that is. -/
theorem take_drop_shared (hdevice' : b.device = .unc server' share' hserver' hshare')
    (hle : shared c a b ≤ a.parts.length) (hle' : shared c a b ≤ b.parts.length)
    (h : shared c a b = a.parts.length ∨ shared c a b = b.parts.length) :
    a.parts.take (shared c a b) ++ b.trimmed.drop (shared c a b) =
      a.parts.take b.parts.length ++ b.trimmed.drop a.parts.length := by
  have hlength' := b.length_trimmed_unc hdevice'
  rcases h with heq | heq
  · rw [heq, List.take_length, List.take_of_length_le (by omega)]
  · rw [heq, List.drop_of_length_le (by omega), List.drop_of_length_le (by omega)]

/-- A way that leads to a place leads to what is shared, and along the rest of it. -/
theorem act_way_unc (hdevice : a.device = .unc server share hserver hshare)
    (hdevice' : b.device = .unc server' share' hserver' hshare')
    (h : ((net ((way c a b).map step)).act a.parts).length = b.parts.length) :
    (net ((way c a b).map step)).act a.parts =
      a.parts.take (shared c a b) ++ b.trimmed.drop (shared c a b) := by
  have hlength := a.length_trimmed_unc hdevice
  have hlength' := b.length_trimmed_unc hdevice'
  have hle := shared_le_left c a b
  have hle' := shared_le_right c a b
  have hact := act_way c a b
  rw [hlength, show a.parts.length - (a.parts.length - shared c a b) = shared c a b by omega]
    at hact
  rw [hact] at h ⊢
  refine (act_eq_append_or _ _).resolve_right fun hlt ↦ ?_
  rw [h, List.length_take, List.length_drop, hlength'] at hlt
  omega

/-- If it leads to the other place, the shorter one is shared: the first two parts are the same,
and every other one stands two places behind one that is. -/
theorem shared_eq_or (hdevice : a.device = .unc server share hserver hshare)
    (hdevice' : b.device = .unc server' share' hserver' hshare') (hne : shared c a b ≠ 0)
    (hs : c.Same server server') (hs' : c.Same share share')
    (h : c.SameParts (a.parts.take (shared c a b) ++ b.trimmed.drop (shared c a b)) b.parts) :
    shared c a b = a.parts.length ∨ shared c a b = b.parts.length := by
  have hlength := a.length_trimmed_unc hdevice
  have hlength' := b.length_trimmed_unc hdevice'
  have hle := shared_le_left c a b
  have hle' := shared_le_right c a b
  by_contra hnot
  obtain ⟨j, hj⟩ := Nat.exists_eq_succ_of_ne_zero hne
  have htake := h.take j
  rw [List.take_append_of_le_length (by rw [List.length_take]; omega), List.take_take,
    Nat.min_eq_left (by omega)] at htake
  have hmax := le_shared (n := shared c a b + 1)
    (sameParts_trimmed hdevice hdevice' hs hs' htake (by omega) (by omega) (by omega))
    (by omega) (by omega)
  omega

/-- The converse. -/
theorem shared_eq_min (hdevice : a.device = .unc server share hserver hshare)
    (hdevice' : b.device = .unc server' share' hserver' hshare') (hs : c.Same server server')
    (hs' : c.Same share share')
    (h : c.SameParts (a.parts.take b.parts.length ++ b.trimmed.drop a.parts.length) b.parts) :
    shared c a b = min a.parts.length b.parts.length := by
  have hlength := a.length_trimmed_unc hdevice
  have hlength' := b.length_trimmed_unc hdevice'
  have hle := shared_le_left c a b
  have hle' := shared_le_right c a b
  have htake := h.take (min a.parts.length b.parts.length)
  rw [List.take_append_of_le_length (by rw [List.length_take]; omega), List.take_take,
    Nat.min_eq_left (Nat.min_le_right ..)] at htake
  have hmax := le_shared (sameParts_trimmed hdevice hdevice' hs hs' htake (Nat.min_le_left ..)
    (Nat.min_le_right ..) (Nat.le_add_right ..)) (by omega) (by omega)
  omega

theorem resolve_way_unc (ha : Leads c cwd p a)
    (hdevice : a.device = .unc server share hserver hshare)
    (hdevice' : b.device = .unc server' share' hserver' hshare') (hs : c.Same server server')
    (hs' : c.Same share share')
    (h : c.SameParts (a.parts.take b.parts.length ++ b.trimmed.drop a.parts.length) b.parts)
    (hbegins : ¬BeginsWithDrive (way c a b)) :
    ∃ s, resolve c cwd [p, join (way c a b)] = .ok s ∧ c.Same s b.path := by
  have hlength := a.length_trimmed_unc hdevice
  have hlength' := b.length_trimmed_unc hdevice'
  have hmin := shared_eq_min hdevice hdevice' hs hs' h
  rw [← take_drop_shared (c := c) hdevice' (by omega) (by omega) (by omega)] at h
  have hname : ∀ q ∈ b.trimmed.drop (shared c a b),
      IsName q ∧ ∀ u ∈ q, notTerminator u = true := by
    intro q hq
    obtain ⟨q', hq', hsame⟩ := h.exists_mem (List.mem_append_right _ hq)
    have hpart := b.isPart_trimmed q (List.mem_of_mem_drop hq)
    exact ⟨isName_of_same hpart hsame (b.clean q' hq').1,
      notTerminator_of_same hsame (b.clean q' hq').2.2⟩
  have hact : (net ((way c a b).map step)).act a.parts =
      a.parts.take (shared c a b) ++ b.trimmed.drop (shared c a b) := by
    have hnet : net ((way c a b).map step) =
        ⟨a.trimmed.length - shared c a b, b.trimmed.drop (shared c a b)⟩ :=
      net_route fun q hq ↦ (hname q hq).1
    rw [hnet, Net.act, hlength,
      show a.parts.length - (a.parts.length - shared c a b) = shared c a b by omega]
  refine ⟨_, (resolve_join_iff ha (isPart_way c a b) hbegins).mpr ⟨fun q hq ↦ ?_, rfl⟩, ?_⟩
  · rcases List.mem_append.mp hq with hq | hq
    · rw [List.eq_of_mem_replicate hq]
      decide
    · exact (hname q hq).2
  · rw [← walk_join (isPart_way c a b), same_path_iff (arePart_act a.isPart_parts _),
      walk_join (isPart_way c a b), hact, hdevice, hdevice', same_unc_iff]
    exact ⟨⟨hs, hs'⟩, h⟩

/-- From one share to another one. -/
theorem related_iff_unc (ha : Leads c cwd p a)
    (hdevice : a.device = .unc server share hserver hshare)
    (hdevice' : b.device = .unc server' share' hserver' hshare') (hne : shared c a b ≠ 0)
    (hs : c.Same server server') :
    (∃ s, resolve c cwd [p, join (way c a b)] = .ok s ∧ c.Same s b.path) ↔
      c.Same share share' ∧
        c.SameParts (a.parts.take b.parts.length ++ b.trimmed.drop a.parts.length) b.parts ∧
        ¬BeginsWithDrive (b.trimmed.drop a.parts.length) := by
  have hlength := a.length_trimmed_unc hdevice
  have hlength' := b.length_trimmed_unc hdevice'
  have hle := shared_le_left c a b
  have hle' := shared_le_right c a b
  by_cases hbegins : BeginsWithDrive (way c a b)
  · obtain ⟨-, hdrop⟩ := way_of_beginsWithDrive hbegins
    rw [hlength] at hdrop
    refine iff_of_false ?_ fun h ↦ h.2.2 (hdrop ▸ hbegins)
    rintro ⟨s, hok, hsame⟩
    exact not_same_of_unc hdevice' (isPart_way c a b) hbegins hok hsame
  · refine ⟨?_, fun h ↦ resolve_way_unc ha hdevice hdevice' hs h.1 h.2.1 hbegins⟩
    rintro ⟨s, hok, hsame⟩
    obtain ⟨-, rfl⟩ := (resolve_join_iff ha (isPart_way c a b) hbegins).mp hok
    rw [← walk_join (isPart_way c a b), same_path_iff (arePart_act a.isPart_parts _),
      walk_join (isPart_way c a b), hdevice, hdevice', same_unc_iff] at hsame
    obtain ⟨⟨-, hs'⟩, hparts⟩ := hsame
    rw [act_way_unc hdevice hdevice' hparts.length_eq] at hparts
    have hshared := shared_eq_or hdevice hdevice' hne hs hs' hparts
    rw [take_drop_shared hdevice' (by omega) (by omega) hshared] at hparts
    refine ⟨hs', hparts, fun hdrive ↦ hbegins ?_⟩
    have hlt : a.parts.length < b.parts.length := by
      by_contra hnot
      rw [List.drop_of_length_le (by omega)] at hdrive
      obtain ⟨q, hq, -⟩ := hdrive
      cases hq
    rwa [way_eq_drop (by omega), hlength]

end

theorem related_of_shared_eq_zero (h : shared c a b = 0) : Related c cwd a b := by
  have hne : ∀ {q q'}, a.trimmed.head? = some q → b.trimmed.head? = some q' → ¬c.Same q q' :=
    fun hq hq' hs ↦ shared_ne_zero_iff.mpr ⟨_, _, hq, hq', hs⟩ h
  rw [Related]
  cases hdevice : a.device with
  | drive x hx =>
    have hfrom := head?_trimmed_drive hdevice
    cases hdevice' : b.device with
    | drive y hy =>
      exact fun hxy ↦ absurd (same_drive_iff.mpr hxy) (hne hfrom (head?_trimmed_drive hdevice'))
    | unc server' share' _ _ =>
      exact or_iff_not_imp_left.mpr fun hb ↦
        hne hfrom ((head?_trimmed_unc hdevice').mpr ⟨hb, rfl⟩)
  | unc server share _ _ =>
    have hfrom := fun ha ↦ (head?_trimmed_unc hdevice).mpr ⟨ha, rfl⟩
    cases hdevice' : b.device with
    | drive y hy =>
      exact or_iff_not_imp_left.mpr fun ha ↦
        .inl (hne (hfrom ha) (head?_trimmed_drive hdevice'))
    | unc server' share' _ _ =>
      exact or_iff_not_imp_left.mpr fun ha ↦ or_iff_not_imp_left.mpr fun hb ↦
        .inl (hne (hfrom ha) ((head?_trimmed_unc hdevice').mpr ⟨hb, rfl⟩))

/-- From a share to a drive. -/
theorem related_iff_unc_drive (hcwd : OnDrive cwd) (ha : Leads c cwd p a) {server share : JSString}
    {hserver : IsPart server} {hshare : IsPart share} {y : UInt16} {hy : isLetter y = true}
    (hdevice : a.device = .unc server share hserver hshare) (hdevice' : b.device = .drive y hy)
    (hne : a.parts ≠ []) :
    (∃ s, resolve c cwd [p, join (way c a b)] = .ok s ∧ c.Same s b.path) ↔
      BesideHome c cwd a b := by
  have hlength := a.length_trimmed_unc hdevice
  by_cases hbegins : BeginsWithDrive (way c a b)
  · obtain ⟨hshared, hdrop⟩ := way_of_beginsWithDrive hbegins
    have hsame := sameParts_take_shared c a b
    rw [hlength] at hdrop hshared
    rw [hshared, ← hlength, List.take_length, hlength] at hsame
    rw [hdrop]
    exact besideHome_iff hcwd ha hdevice hdevice' hne hsame (hdrop ▸ hbegins)
  · refine iff_of_false ?_ ?_
    · rintro ⟨s, hok, hs⟩
      have hdevices := same_device_of_resolve ha hbegins hok hs
      rw [hdevice, hdevice'] at hdevices
      exact not_same_drive_unc hy hdevices.symm
    · rintro ⟨letter, z, rest, -, hl, hsame, hrest, -⟩
      have htake := hsame.length_eq
      rw [List.length_take, hlength] at htake
      have hshared : c.SameParts (a.trimmed.take a.parts.length)
          (b.trimmed.take a.parts.length) := by
        rwa [List.take_of_length_le (Nat.le_of_eq hlength)]
      have hmax := le_shared hshared (Nat.le_of_eq hlength.symm) (by omega)
      have hle := shared_le_left c a b
      refine hbegins ?_
      rw [way_eq_drop (by omega), hlength, hrest]
      exact ⟨_, rfl, letter, z, hl, rfl⟩

theorem resolve_way_iff (hcwd : OnDrive cwd) (ha : Leads c cwd p a) (h : shared c a b ≠ 0) :
    (∃ s, resolve c cwd [p, join (way c a b)] = .ok s ∧ c.Same s b.path) ↔
      Related c cwd a b := by
  obtain ⟨q, q', hq, hq', hs⟩ := shared_ne_zero_iff.mp h
  rw [Related]
  cases hdevice : a.device with
  | drive x hx =>
    obtain rfl := Option.some.inj (hq.symm.trans (head?_trimmed_drive hdevice))
    cases hdevice' : b.device with
    | drive y hy =>
      obtain rfl := Option.some.inj (hq'.symm.trans (head?_trimmed_drive hdevice'))
      have hxy := same_drive_iff.mp hs
      exact (related_iff_drive ha hdevice hdevice' hxy).trans ⟨fun h _ ↦ h, fun h ↦ h hxy⟩
    | unc server' share' _ _ =>
      obtain ⟨hne, rfl⟩ := (head?_trimmed_unc hdevice').mp hq'
      refine iff_of_false ?_ fun h ↦ h.elim hne fun h ↦ h hs
      rintro ⟨s, hok, hsame⟩
      by_cases hbegins : BeginsWithDrive (way c a b)
      · exact not_same_of_unc hdevice' (isPart_way c a b) hbegins hok hsame
      · have hdevices := same_device_of_resolve ha hbegins hok hsame
        rw [hdevice, hdevice'] at hdevices
        exact not_same_drive_unc hx hdevices
  | unc server share _ _ =>
    obtain ⟨hne, rfl⟩ := (head?_trimmed_unc hdevice).mp hq
    cases hdevice' : b.device with
    | drive y hy =>
      obtain rfl := Option.some.inj (hq'.symm.trans (head?_trimmed_drive hdevice'))
      refine (related_iff_unc_drive hcwd ha hdevice hdevice' hne).trans ?_
      exact ⟨fun h ↦ .inr (.inr h), fun h ↦ (h.resolve_left hne).resolve_left (not_not.mpr hs)⟩
    | unc server' share' _ _ =>
      obtain ⟨hne', rfl⟩ := (head?_trimmed_unc hdevice').mp hq'
      refine (related_iff_unc ha hdevice hdevice' h hs).trans ?_
      exact ⟨fun h ↦ .inr (.inr (.inr h)), fun h ↦
        ((h.resolve_left hne).resolve_left hne').resolve_left (not_not.mpr hs)⟩

/-- **When `resolve` undoes `relative`**, up to letter case. -/
theorem resolve_relative_iff (c : CaseMap) (hcwd : OnDrive cwd) (fromPath toPath : JSString) :
    (∃ path s t, relative c cwd fromPath toPath = .ok path ∧
      resolve c cwd [fromPath, path] = .ok s ∧ resolve c cwd [toPath] = .ok t ∧ c.Same s t) ↔
      ∃ a b, Leads c cwd fromPath a ∧ Leads c cwd toPath b ∧ Related c cwd a b := by
  have hiff : ∀ {a b}, Leads c cwd fromPath a → Leads c cwd toPath b →
      ((∃ path s t, relative c cwd fromPath toPath = .ok path ∧
        resolve c cwd [fromPath, path] = .ok s ∧ resolve c cwd [toPath] = .ok t ∧ c.Same s t) ↔
        Related c cwd a b) := by
    intro a b ha hb
    rw [relative_of_leads ha hb, resolve_of_leads hb]
    by_cases h : shared c a b = 0
    · rw [if_pos h]
      exact iff_of_true ⟨_, _, _, rfl, resolve_path fromPath b, rfl, rfl⟩
        (related_of_shared_eq_zero h)
    · rw [if_neg h, ← resolve_way_iff hcwd ha h]
      constructor
      · rintro ⟨path, s, t, hpath, hok, ht, hs⟩
        rw [← Except.ok.inj hpath] at hok
        exact ⟨s, hok, Except.ok.inj ht ▸ hs⟩
      · rintro ⟨s, hok, hs⟩
        exact ⟨_, s, _, rfl, hok, rfl, hs⟩
  constructor
  · rintro ⟨path, s, t, hpath, hok, ht, hs⟩
    obtain ⟨a, ha⟩ : ∃ a, Leads c cwd fromPath a := by
      rcases hfrom : resolve c cwd [fromPath] with e | r
      · rw [relative, hfrom] at hpath
        cases hpath
      · exact exists_leads_of_resolve hcwd hfrom
    obtain ⟨b, hb⟩ := exists_leads_of_resolve hcwd ht
    exact ⟨a, b, ha, hb, (hiff ha hb).mp ⟨path, s, t, hpath, hok, ht, hs⟩⟩
  · rintro ⟨a, b, ha, hb, h⟩
    exact (hiff ha hb).mpr h

/-- Lower case, of the letters of ASCII. -/
def CaseMap.ascii : CaseMap where
  lower u := if 0x41 ≤ u ∧ u ≤ 0x5A then u + 0x20 else u
  lower_eq_iff x _ hl u := by
    simp only [isLetter, Bool.or_eq_false_iff, Bool.and_eq_false_iff, decide_eq_false_iff_not,
      UInt16.le_iff_toNat_le, ← UInt16.toNat_inj] at hl ⊢
    split_ifs with h
    · rw [UInt16.toNat_add]
      simp at h hl ⊢
      omega
    · exact Iff.rfl
  isLineTerminator_lower u := by
    rw [Bool.eq_iff_iff]
    simp only [isLineTerminator, decide_eq_true_eq, UInt16.le_iff_toNat_le, ← UInt16.toNat_inj]
    split_ifs with h
    · rw [UInt16.toNat_add]
      simp at h ⊢
      omega
    · exact Iff.rfl

theorem resolve_relative_drive :
    ∃ a b, Leads .ascii (js "C:\\") (js "C:\\Aa\\b") a ∧ Leads .ascii (js "C:\\") (js "c:/aA/d") b ∧
      Related .ascii (js "C:\\") a b :=
  (resolve_relative_iff .ascii ⟨0x43, backslash, [], by decide, by decide, rfl⟩ _ _).mp
    ⟨js "..\\d", js "C:\\Aa\\d", js "c:\\aA\\d", by decide, by decide, by decide, by decide⟩

theorem share_not_reached :
    ¬∃ path s t, relative .ascii (js "C:\\") (js "\\\\a\\b\\c") (js "\\\\a\\b\\d") = .ok path ∧
      resolve .ascii (js "C:\\") [js "\\\\a\\b\\c", path] = .ok s ∧
      resolve .ascii (js "C:\\") [js "\\\\a\\b\\d"] = .ok t ∧ CaseMap.ascii.Same s t := by
  have hpath : relative .ascii (js "C:\\") (js "\\\\a\\b\\c") (js "\\\\a\\b\\d") = .ok [] := by
    decide
  have hfrom : resolve .ascii (js "C:\\") [js "\\\\a\\b\\c", []] = .ok (js "\\\\a\\b\\c") := by
    decide
  have hto : resolve .ascii (js "C:\\") [js "\\\\a\\b\\d"] = .ok (js "\\\\a\\b\\d") := by
    decide
  rintro ⟨path, s, t, h, hok, ht, hs⟩
  rw [← Except.ok.inj (hpath.symm.trans h), hfrom] at hok
  rw [← Except.ok.inj hok, ← Except.ok.inj (hto.symm.trans ht)] at hs
  revert hs
  decide

end SpiderNode.Files.Windows
