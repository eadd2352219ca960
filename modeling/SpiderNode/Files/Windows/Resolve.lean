import SpiderNode.Files.Windows.Normalize

/-!
# What paths of Windows resolve to

`resolve` reads its arguments from the last to the first, and then the working directory, until it
has both a device and a path from the root of it. A path on another device than the one that is
known already is passed over; so a path behind a drive is resolved from the working directory if
that is on the same drive, and from the root of the drive otherwise.

`Leads` says where a path leads, and `gather_of_leads` and `exists_leads` that `resolve` finds it.
Both speak of a path with more behind it, and so also of two arguments.
-/

namespace SpiderNode.Files.Windows

open Net (JsError)
open Trees

/-- A conversion to lower case, unit by unit. Only letters are the lower case of other units, and
line terminators are not. -/
structure CaseMap where
  lower : UInt16 → UInt16
  lower_eq_iff : ∀ x : UInt16, x < 0x80 → isLetter x = false → ∀ u, lower u = x ↔ u = x
  isLineTerminator_lower : ∀ u, isLineTerminator (lower u) = isLineTerminator u

def CaseMap.toLowerCase (c : CaseMap) (s : JSString) : JSString := s.map c.lower

/-! ## `resolve` -/

/-- `resolvedDevice`, `resolvedTail` and `resolvedAbsolute`. -/
structure Resolving where
  device : JSString
  tail : JSString
  isAbsolute : Bool
  deriving DecidableEq, Repr

/-- After a path that is not passed over. -/
def Resolving.next (r : Resolving) (device tail : JSString) (isAbsolute : Bool) : Resolving where
  device := if r.device = [] then device else r.device
  tail := if r.isAbsolute then r.tail else tail ++ backslash :: r.tail
  isAbsolute := r.isAbsolute || isAbsolute

/-- The loop of `resolve`, over the arguments from the last to the first. -/
def gather (c : CaseMap) : List JSString → Resolving → Except JsError Resolving
  | [], r => .ok r
  | p :: ps, r =>
    if p = [] then gather c ps r
    else do
      let (device, u, tail) ← splitDevice p
      let device := device.getD []
      if device ≠ [] ∧ r.device ≠ [] ∧ c.toLowerCase device ≠ c.toLowerCase r.device then
        gather c ps r
      else
        let r := r.next device tail (u.isSome || isUnc device)
        if r.device ≠ [] ∧ r.isAbsolute then .ok r else gather c ps r

/-- A path behind a drive begins at its root; the working directory there is not known. -/
def Resolving.atRoot (r : Resolving) : Resolving :=
  if r.isAbsolute = false ∧ r.device ≠ [] then ⟨r.device, backslash :: r.tail, true⟩ else r

/-- What `resolve` does after its loop. -/
def Resolving.finish (r : Resolving) : JSString :=
  let r := r.atRoot
  let path := backslashes r.device ++ (if r.isAbsolute then [backslash] else []) ++
    join (normalizeArray (parts r.tail) (!r.isAbsolute))
  if path = [] then js "." else path

/-- `path.resolve` -/
def resolve (c : CaseMap) (cwd : JSString) (paths : List JSString) : Except JsError JSString := do
  let r ← gather c (paths.reverse ++ [cwd]) ⟨[], [], false⟩
  return r.finish

/-! ## Places -/

/-- A name between two separators. -/
def IsPart (p : JSString) : Prop := p ≠ [] ∧ ∀ x ∈ p, notSeparator x = true

inductive Device where
  | drive (letter : UInt16) (h : isLetter letter = true)
  | unc (server share : JSString) (hserver : IsPart server) (hshare : IsPart share)

def Device.text : Device → JSString
  | drive letter _ => [letter, colon]
  | unc server share _ _ => backslash :: backslash :: server ++ backslash :: share

/-- A device, and the names from its root on. -/
structure Place where
  device : Device
  parts : List JSString
  clean : ∀ q ∈ parts, IsName q ∧ backslash ∉ q ∧ ∀ u ∈ q, notTerminator u = true

/-- The resolved path. -/
def Place.path (a : Place) : JSString := a.device.text ++ backslash :: join a.parts

/-- The working directory is an absolute path on a drive. -/
def OnDrive (cwd : JSString) : Prop :=
  ∃ letter u rest, isLetter letter = true ∧ isSeparator u = true ∧
    cwd = letter :: colon :: u :: rest

/-- Where the working directory is. -/
def Home (cwd : JSString) (a : Place) : Prop :=
  ∃ u tail, IsSplit cwd (some a.device.text) (some u) tail ∧ a.parts = (walk tail).downs

/-- Where a path leads from the working directory. -/
inductive Leads (c : CaseMap) (cwd : JSString) : JSString → Place → Prop
  | empty {a : Place} (h : Home cwd a) : Leads c cwd [] a
  | device {p d tail : JSString} {u : Option UInt16} {a : Place}
      (hs : IsSplit p (some d) u tail) (habs : (u.isSome || isUnc d) = true)
      (hdevice : a.device.text = backslashes d) (hparts : a.parts = (walk tail).downs) :
      Leads c cwd p a
  | drive {p d tail : JSString} {a home : Place} (hs : IsSplit p (some d) none tail)
      (hdrive : isUnc d = false) (hhome : Home cwd home) (hdevice : a.device.text = d)
      (hparts : a.parts = (walk tail).act
        (if c.toLowerCase home.device.text = c.toLowerCase d then home.parts else [])) :
      Leads c cwd p a
  | rooted {p tail : JSString} {u : UInt16} {a home : Place} (hs : IsSplit p none (some u) tail)
      (hhome : Home cwd home) (hdevice : a.device = home.device)
      (hparts : a.parts = (walk tail).downs) : Leads c cwd p a
  | relative {p tail : JSString} {a home : Place} (hne : p ≠ []) (hs : IsSplit p none none tail)
      (hhome : Home cwd home) (hdevice : a.device = home.device)
      (hparts : a.parts = (walk tail).act home.parts) : Leads c cwd p a

variable {c : CaseMap} {cwd p d tail : JSString} {device : Option JSString} {u : Option UInt16}
  {a home : Place} {r : Resolving} {ps : List JSString}

/-! ## Devices -/

theorem isPart_iff : IsPart p ↔ p ≠ [] ∧ slash ∉ p ∧ backslash ∉ p := by
  refine and_congr_right fun _ ↦ ⟨fun h ↦ ⟨fun hs ↦ ?_, fun hs ↦ ?_⟩, fun h x hx ↦ ?_⟩
  · exact absurd (h _ hs) (by decide)
  · exact absurd (h _ hs) (by decide)
  · have hslash : x ≠ slash := fun heq ↦ h.1 (heq ▸ hx)
    have hback : x ≠ backslash := fun heq ↦ h.2 (heq ▸ hx)
    simp [notSeparator, isSeparator, hslash, hback]

theorem Device.isDevice (a : Device) : IsDevice a.text := by
  cases a with
  | drive letter h => exact isDevice_drive h
  | unc server share hserver hshare =>
    exact .inr ⟨backslash, backslash, backslash, server, share, by decide, by decide, hserver.1,
      hserver.2, by decide, hshare.1, hshare.2, rfl⟩

theorem Device.slash_notMem (a : Device) : slash ∉ a.text := by
  cases a with
  | drive letter h =>
    intro hmem
    rcases List.mem_pair.mp hmem with rfl | heq
    · revert h
      decide
    · revert heq
      decide
  | unc server share hserver hshare =>
    have hs := (isPart_iff.mp hserver).2.1
    have hs' := (isPart_iff.mp hshare).2.1
    have hne : slash ≠ backslash := by decide
    simp [text, hs, hs', hne]

theorem backslashes_drive {letter : UInt16} (hl : isLetter letter = true) :
    backslashes [letter, colon] = [letter, colon] :=
  backslashes_of_notMem (Device.slash_notMem (.drive letter hl))

/-- A device is written with backslashes. -/
theorem exists_device (h : IsDevice d) : ∃ a : Device, a.text = backslashes d := by
  rcases h with ⟨letter, hl, rfl⟩ | ⟨u, v, w, server, share, hu, hv, hne, hs, hw, hne', hs', rfl⟩
  · exact ⟨.drive letter hl, (backslashes_drive hl).symm⟩
  · refine ⟨.unc server share ⟨hne, hs⟩ ⟨hne', hs'⟩, ?_⟩
    have hsep : ∀ x, isSeparator x = true → (if x = slash then backslash else x) = backslash := by
      intro x hx
      rcases isSeparator_iff.mp hx with rfl | rfl
      · rfl
      · rfl
    have hserver := backslashes_of_notMem (isPart_iff.mp ⟨hne, hs⟩).2.1
    have hshare := backslashes_of_notMem (isPart_iff.mp ⟨hne', hs'⟩).2.1
    have happend : backslashes (u :: v :: server ++ w :: share) =
        (if u = slash then backslash else u) :: (if v = slash then backslash else v) ::
          backslashes server ++ (if w = slash then backslash else w) :: backslashes share := by
      simp [backslashes]
    rw [happend, hsep u hu, hsep v hv, hsep w hw, hserver, hshare]
    rfl

/-! ## The loop -/

theorem walk_append_backslash (p q : JSString) : walk (p ++ backslash :: q) = walk p * walk q := by
  have hslashes : slashes (p ++ backslash :: q) = slashes p ++ slash :: slashes q :=
    slashes_append p (backslash :: q)
  rw [walk, hslashes, Files.walk_append]
  rfl

theorem walk_backslash_cons (p : JSString) : walk (backslash :: p) = walk p :=
  walk_cons_slash (slashes p)

@[simp] theorem walk_empty : walk [] = 1 := rfl

/-- A path that is passed over. -/
theorem gather_skip (hs : IsSplit p (some d) u tail) (hr : r.device ≠ [])
    (hne : c.toLowerCase d ≠ c.toLowerCase r.device) : gather c (p :: ps) r = gather c ps r := by
  have hd := (hs.isDevice d rfl).ne_nil
  have hp : p ≠ [] := by
    rintro rfl
    exact hd (List.append_eq_nil_iff.mp hs.eq_append.symm).1
  rw [gather, if_neg hp, hs.splitDevice_eq]
  exact if_pos ⟨hd, hr, hne⟩

/-- A path that is not passed over. -/
theorem gather_next (hp : p ≠ []) (hs : IsSplit p device u tail)
    (h : ∀ d, device = some d → r.device = [] ∨ c.toLowerCase d = c.toLowerCase r.device) :
    gather c (p :: ps) r =
      let r := r.next (device.getD []) tail (u.isSome || isUnc (device.getD []))
      if r.device ≠ [] ∧ r.isAbsolute then .ok r else gather c ps r := by
  rw [gather, if_neg hp, hs.splitDevice_eq]
  refine if_neg ?_
  rintro ⟨hd, hr, hne⟩
  rcases device with _ | d
  · exact hd rfl
  · exact (h d rfl).elim hr hne

theorem Home.ne_nil (h : Home cwd home) : cwd ≠ [] := by
  obtain ⟨u, tail, hs, -⟩ := h
  rintro rfl
  exact home.device.isDevice.ne_nil (List.append_eq_nil_iff.mp hs.eq_append.symm).1

/-- What was found ends at a place, with a path behind it. -/
structure Ends (r : Resolving) (device : JSString) (downs : List JSString) : Prop where
  ne_nil : r.device ≠ []
  device_eq : backslashes r.device = device
  downs_eq : (walk r.tail).downs = downs

theorem Ends.finish {device : JSString} {downs : List JSString} (h : Ends r device downs) :
    r.finish = device ++ backslash :: join downs := by
  have hroot : r.atRoot.device = r.device ∧ r.atRoot.isAbsolute = true ∧
      walk r.atRoot.tail = walk r.tail := by
    rw [Resolving.atRoot]
    split_ifs with hif
    · exact ⟨rfl, rfl, walk_backslash_cons r.tail⟩
    · exact ⟨rfl, by simpa [h.ne_nil] using hif, rfl⟩
  obtain ⟨hdevice, habs, hwalk⟩ := hroot
  have hparts : normalizeArray (parts r.atRoot.tail) (!r.atRoot.isAbsolute) = downs := by
    rw [parts_eq, normalizeArray, normalizeParts_eq, habs, ← h.downs_eq, ← hwalk]
    rfl
  have hpath : backslashes r.atRoot.device ++ (if r.atRoot.isAbsolute then [backslash] else []) ++
      join downs = device ++ backslash :: join downs := by
    rw [hdevice, h.device_eq, habs, if_pos rfl, List.append_assoc, List.singleton_append]
  rw [Resolving.finish]
  rw [hparts, hpath, if_neg (by simp)]

/-- The working directory, where no device is known. -/
theorem gather_home (h : Home cwd home) (hr : r.device = []) :
    ∃ r', gather c [cwd] r = .ok r' ∧ Ends r' home.device.text
      (if r.isAbsolute then (walk r.tail).downs else (walk r.tail).act home.parts) := by
  have hne := home.device.isDevice.ne_nil
  obtain ⟨u, tail, hs, hparts⟩ := h
  refine ⟨r.next home.device.text tail true, ?_, ?_⟩
  · rw [gather_next (Home.ne_nil ⟨u, tail, hs, hparts⟩) hs fun _ _ ↦ .inl hr]
    show (if (if r.device = [] then home.device.text else r.device) ≠ [] ∧
      (r.isAbsolute || true) = true then _ else _) = _
    rw [if_pos hr, if_pos ⟨hne, Bool.or_true _⟩]
    rfl
  · have hdevice : (r.next home.device.text tail true).device = home.device.text := if_pos hr
    refine ⟨by rwa [hdevice], ?_, ?_⟩
    · rw [hdevice, backslashes_of_notMem home.device.slash_notMem]
    · show (walk (if r.isAbsolute then r.tail else tail ++ backslash :: r.tail)).downs = _
      split_ifs
      · rfl
      · rw [walk_append_backslash, hparts, ← Net.act_nil, Net.act_mul, Net.act_nil]

/-- The working directory, where a drive is known and the path is relative. -/
theorem gather_home_drive (h : Home cwd home) (hr : r.device ≠ []) (habs : r.isAbsolute = false) :
    ∃ r', gather c [cwd] r = .ok r' ∧ Ends r' (backslashes r.device) ((walk r.tail).act
      (if c.toLowerCase home.device.text = c.toLowerCase r.device then home.parts else [])) := by
  obtain ⟨u, tail, hs, hparts⟩ := h
  split_ifs with hsame
  · refine ⟨⟨r.device, tail ++ backslash :: r.tail, true⟩, ?_, ⟨hr, rfl, ?_⟩⟩
    · rw [gather_next (Home.ne_nil ⟨u, tail, hs, hparts⟩) hs fun d hd ↦
        .inr (Option.some.inj hd ▸ hsame)]
      show (if (if r.device = [] then home.device.text else r.device) ≠ [] ∧
        (r.isAbsolute || true) = true then _ else _) = _
      rw [if_neg hr, if_pos ⟨hr, Bool.or_true _⟩, Resolving.next, if_neg hr, habs]
      rfl
    · show (walk (tail ++ backslash :: r.tail)).downs = _
      rw [walk_append_backslash, hparts, ← Net.act_nil, Net.act_mul, Net.act_nil]
  · exact ⟨r, gather_skip hs hr hsame, hr, rfl, (Net.act_nil _).symm⟩

theorem next_first (rest d tail : JSString) (isAbsolute : Bool) :
    Resolving.next ⟨[], rest, false⟩ d tail isAbsolute =
      ⟨d, tail ++ backslash :: rest, isAbsolute⟩ := rfl

/-- A path that is read first. -/
theorem gather_first (hp : p ≠ []) (hs : IsSplit p device u tail) (rest : JSString) :
    gather c (p :: ps) ⟨[], rest, false⟩ =
      if device.getD [] ≠ [] ∧ (u.isSome || isUnc (device.getD [])) = true then
        .ok ⟨device.getD [], tail ++ backslash :: rest, u.isSome || isUnc (device.getD [])⟩
      else gather c ps
        ⟨device.getD [], tail ++ backslash :: rest, u.isSome || isUnc (device.getD [])⟩ := by
  rw [gather_next hp hs fun _ _ ↦ .inl rfl, next_first]

theorem IsSplit.ne_nil (hs : IsSplit p (some d) u tail) : p ≠ [] := by
  rintro rfl
  exact (hs.isDevice d rfl).ne_nil (List.append_eq_nil_iff.mp hs.eq_append.symm).1

/-- **A path leads where `resolve` finds it**, also with more behind it. -/
theorem gather_of_leads (h : Leads c cwd p a) (rest : JSString) :
    ∃ r, gather c [p, cwd] ⟨[], rest, false⟩ = .ok r ∧
      Ends r a.device.text ((walk rest).act a.parts) := by
  cases h with
  | empty h =>
    rw [gather, if_pos rfl]
    exact gather_home h rfl
  | @device _ d tail u _ hs habs hdevice hparts =>
    have hd := (hs.isDevice d rfl).ne_nil
    refine ⟨⟨d, tail ++ backslash :: rest, u.isSome || isUnc d⟩, ?_, hd, hdevice.symm, ?_⟩
    · rw [gather_first hs.ne_nil hs]
      exact if_pos ⟨hd, habs⟩
    · show (walk (tail ++ backslash :: rest)).downs = _
      rw [walk_append_backslash, hparts, ← Net.act_nil, Net.act_mul, Net.act_nil]
  | @drive _ d tail _ home hs hdrive hhome hdevice hparts =>
    have hd := (hs.isDevice d rfl).ne_nil
    obtain ⟨r, hr, hends⟩ := gather_home_drive (c := c)
      (r := ⟨d, tail ++ backslash :: rest, false⟩) hhome hd rfl
    refine ⟨r, ?_, hends.ne_nil, ?_, ?_⟩
    · rw [gather_first hs.ne_nil hs, if_neg (by simp [hdrive])]
      simpa [hdrive] using hr
    · rw [hends.device_eq, hdevice, ← hdevice, backslashes_of_notMem a.device.slash_notMem]
    · rw [hends.downs_eq, walk_append_backslash, Net.act_mul, hparts]
  | @rooted _ tail u _ home hs hhome hdevice hparts =>
    have hp : p ≠ [] := by
      rw [hs.eq_append]
      simp
    obtain ⟨r, hr, hends⟩ := gather_home (c := c) (r := ⟨[], tail ++ backslash :: rest, true⟩)
      hhome rfl
    refine ⟨r, ?_, hends.ne_nil, ?_, ?_⟩
    · rw [gather_first hp hs, if_neg (by simp)]
      exact hr
    · rw [hends.device_eq, hdevice]
    · rw [hends.downs_eq, if_pos rfl, walk_append_backslash, hparts, ← Net.act_nil, Net.act_mul,
        Net.act_nil]
  | @relative _ tail _ home hp hs hhome hdevice hparts =>
    obtain ⟨r, hr, hends⟩ := gather_home (c := c) (r := ⟨[], tail ++ backslash :: rest, false⟩)
      hhome rfl
    refine ⟨r, ?_, hends.ne_nil, ?_, ?_⟩
    · rw [gather_first hp hs, if_neg (by simp)]
      exact hr
    · rw [hends.device_eq, hdevice]
    · rw [hends.downs_eq, if_neg Bool.false_ne_true, walk_append_backslash, hparts, Net.act_mul]

theorem resolve_of_leads (h : Leads c cwd p a) : resolve c cwd [p] = .ok a.path := by
  obtain ⟨r, hr, hends⟩ := gather_of_leads h []
  rw [walk_empty, Net.act_one] at hends
  rw [resolve, List.reverse_singleton, List.singleton_append, hr]
  exact congrArg Except.ok hends.finish

/-- A relative path behind another one. -/
theorem resolve_pair (h : Leads c cwd p a) {q : JSString} (hq : q = [] ∨ IsSplit q none none q) :
    resolve c cwd [p, q] =
      .ok (a.device.text ++ backslash :: join ((walk q).act a.parts)) := by
  have hlist : [p, q].reverse ++ [cwd] = [q, p, cwd] := rfl
  rw [resolve, hlist]
  by_cases hnil : q = []
  · obtain ⟨r, hr, hends⟩ := gather_of_leads h []
    rw [hnil, gather, if_pos rfl, hr]
    exact congrArg Except.ok hends.finish
  · obtain ⟨r, hr, hends⟩ := gather_of_leads h (q ++ [backslash])
    rw [gather_first hnil (hq.resolve_left hnil), if_neg (by simp)]
    rw [walk_append_backslash, walk_empty, mul_one] at hends
    refine (congrArg (· >>= fun r ↦ return r.finish) hr).trans ?_
    exact congrArg Except.ok hends.finish

/-! ## All there is to find -/

theorem clean_act (htext : ∀ u ∈ tail, notTerminator u = true) {base : List JSString}
    (hbase : ∀ q ∈ base, IsName q ∧ backslash ∉ q ∧ ∀ u ∈ q, notTerminator u = true) :
    ∀ q ∈ (walk tail).act base, IsName q ∧ backslash ∉ q ∧ ∀ u ∈ q, notTerminator u = true := by
  intro q hq
  rcases List.mem_append.mp hq with hq | hq
  · exact hbase q (List.mem_of_mem_take hq)
  · exact clean_walk htext q hq

/-- A path that begins with a drive has that as its device. -/
theorem eq_of_isSplit_drive {letter : UInt16} {s : JSString} (hl : isLetter letter = true)
    (hs : IsSplit (letter :: colon :: s) device u tail) :
    device = some [letter, colon] ∧ s = u.toList ++ tail := by
  have hlong := hs.longest [letter, colon] s rfl (isDevice_drive hl)
  rcases device with _ | d
  · exact absurd hlong (by simp)
  · have happend : [letter, colon] ++ s = d ++ (u.toList ++ tail) := hs.eq_append
    have hshort := longest_drive hl happend (hs.isDevice d rfl)
    obtain ⟨hd, hrest⟩ := List.append_inj happend (Nat.le_antisymm hlong hshort)
    exact ⟨congrArg some hd.symm, hrest⟩

theorem exists_home (hcwd : OnDrive cwd) {r' : Resolving} (h : gather c [cwd] r = .ok r') :
    ∃ home, Home cwd home := by
  obtain ⟨letter, v, rest, hl, hv, rfl⟩ := hcwd
  rcases hsplit : splitDevice (letter :: colon :: v :: rest) with e | ⟨device, u, tail⟩
  · rw [gather, if_neg (List.cons_ne_nil _ _), hsplit] at h
    cases h
  · have hs := splitDevice_eq_ok_iff.mp hsplit
    obtain ⟨rfl, hrest⟩ := eq_of_isSplit_drive hl hs
    rcases u with _ | u
    · have hhead := hs.head_tail rfl v (by rw [← show v :: rest = tail from hrest]; rfl)
      rw [hv] at hhead
      cases hhead
    · exact ⟨⟨.drive letter hl, (walk tail).downs, clean_walk hs.text⟩, u, tail, hs, rfl⟩

/-- **`resolve` finds only places where a path leads.** -/
theorem exists_leads (hcwd : OnDrive cwd) {rest : JSString}
    (h : gather c [p, cwd] ⟨[], rest, false⟩ = .ok r) : ∃ a, Leads c cwd p a := by
  by_cases hp : p = []
  · rw [gather, if_pos hp] at h
    obtain ⟨home, hhome⟩ := exists_home hcwd h
    exact ⟨home, hp ▸ .empty hhome⟩
  · rcases hsplit : splitDevice p with e | ⟨device, u, tail⟩
    · rw [gather, if_neg hp, hsplit] at h
      cases h
    · have hs := splitDevice_eq_ok_iff.mp hsplit
      rw [gather_first hp hs] at h
      rcases device with _ | d
      · rw [if_neg (by simp)] at h
        obtain ⟨home, hhome⟩ := exists_home hcwd h
        rcases u with _ | u
        · exact ⟨⟨home.device, _, clean_act hs.text home.clean⟩, .relative hp hs hhome rfl rfl⟩
        · exact ⟨⟨home.device, _, clean_walk hs.text⟩, .rooted hs hhome rfl rfl⟩
      · by_cases habs : (u.isSome || isUnc d) = true
        · obtain ⟨device, hdevice⟩ := exists_device (hs.isDevice d rfl)
          exact ⟨⟨device, _, clean_walk hs.text⟩, .device hs habs hdevice rfl⟩
        · rw [if_neg fun h ↦ habs h.2] at h
          obtain ⟨home, hhome⟩ := exists_home hcwd h
          rw [Bool.not_eq_true, Bool.or_eq_false_iff, Option.isSome_eq_false_iff,
            Option.isNone_iff_eq_none] at habs
          obtain ⟨rfl, hunc⟩ := habs
          obtain ⟨letter, hl, rfl⟩ := isUnc_eq_false (hs.isDevice _ rfl) hunc
          refine ⟨⟨.drive letter hl, _, clean_act hs.text ?_⟩, .drive hs hunc hhome rfl rfl⟩
          split_ifs
          · exact home.clean
          · exact fun q hq ↦ absurd hq List.not_mem_nil

theorem exists_leads_of_resolve (hcwd : OnDrive cwd) {s : JSString}
    (h : resolve c cwd [p] = .ok s) : ∃ a, Leads c cwd p a := by
  rw [resolve, List.reverse_singleton, List.singleton_append] at h
  rcases hgather : gather c [p, cwd] ⟨[], [], false⟩ with e | r
  · rw [hgather] at h
    cases h
  · exact exists_leads hcwd hgather

/-! ## A drive that is known -/

theorem exists_letter_of_text {device : Device} {letter : UInt16}
    (h : device.text = [letter, colon]) : ∃ hl, device = .drive letter hl := by
  cases device with
  | drive letter' hl =>
    obtain rfl : letter' = letter := (List.cons.inj h).1
    exact ⟨hl, rfl⟩
  | unc server share hserver hshare =>
    have hlength := congrArg List.length h
    simp [Device.text] at hlength

theorem home_drive (hcwd : OnDrive cwd) (h : Home cwd home) :
    ∃ letter hl, home.device = .drive letter hl := by
  obtain ⟨letter, v, rest, hl, hv, rfl⟩ := hcwd
  obtain ⟨u, tail, hs, -⟩ := h
  exact ⟨letter, exists_letter_of_text (Option.some.inj (eq_of_isSplit_drive hl hs).1)⟩

/-- The device that is known stays. -/
theorem device_of_gather {r' : Resolving} (hr : r.device ≠ []) (h : gather c ps r = .ok r') :
    r'.device = r.device := by
  induction ps generalizing r with
  | nil => rw [← Except.ok.inj h]
  | cons p ps ih =>
    rw [gather] at h
    split_ifs at h with hp
    · exact ih hr h
    · rcases hsplit : splitDevice p with e | ⟨device, u, tail⟩
      · rw [hsplit] at h
        cases h
      · have hnext : ∀ b, (r.next (device.getD []) tail b).device = r.device := fun b ↦ if_neg hr
        rw [hsplit] at h
        have h' : (if device.getD [] ≠ [] ∧ r.device ≠ [] ∧
            c.toLowerCase (device.getD []) ≠ c.toLowerCase r.device then gather c ps r
          else if (r.next (device.getD []) tail (u.isSome || isUnc (device.getD []))).device ≠ [] ∧
              (r.next (device.getD []) tail (u.isSome || isUnc (device.getD []))).isAbsolute = true
            then .ok (r.next (device.getD []) tail (u.isSome || isUnc (device.getD [])))
            else gather c ps (r.next (device.getD []) tail
              (u.isSome || isUnc (device.getD [])))) = .ok r' := h
        split_ifs at h'
        · exact ih hr h'
        · rw [← Except.ok.inj h', hnext]
        · rw [ih (by rwa [hnext]) h', hnext]

/-- A path that is read when a drive is known. -/
theorem gather_known {known : JSString} (hp : p ≠ []) (hs : IsSplit p device u tail)
    (hknown : known ≠ []) (hsame : ∀ d, device = some d → c.toLowerCase d = c.toLowerCase known)
    (rest : JSString) :
    gather c (p :: ps) ⟨known, rest, false⟩ =
      if (u.isSome || isUnc (device.getD [])) = true then
        .ok ⟨known, tail ++ backslash :: rest, true⟩
      else gather c ps ⟨known, tail ++ backslash :: rest, false⟩ := by
  have hnext : ∀ b, Resolving.next ⟨known, rest, false⟩ (device.getD []) tail b =
      ⟨known, tail ++ backslash :: rest, b⟩ := fun b ↦ by
    rw [Resolving.next, if_neg hknown]
    rfl
  rw [gather_next hp hs fun d hd ↦ .inr (hsame d hd), hnext]
  rcases (u.isSome || isUnc (device.getD [])) with _ | _
  · rw [if_neg (by simp), if_neg (by simp)]
  · rw [if_pos ⟨hknown, rfl⟩, if_pos rfl]

theorem letter_ne {letter x : UInt16} (hl : isLetter letter = true) (hx : isSeparator x = true) :
    letter ≠ x := by
  rintro rfl
  rw [not_isLetter_of_isSeparator hx] at hl
  cases hl

theorem eq_of_backslashes_drive {letter : UInt16} (hl : isLetter letter = true) (hd : IsDevice d)
    (h : backslashes d = [letter, colon]) : d = [letter, colon] := by
  rcases hd with ⟨l, hl', rfl⟩ | ⟨u, v, w, server, share, hu, -, -, -, -, -, -, rfl⟩
  · rwa [backslashes_drive hl'] at h
  · have hhead : (if u = slash then backslash else u) = letter := (List.cons.inj h).1
    split_ifs at hhead
    · exact absurd hhead.symm (letter_ne hl (by decide))
    · exact absurd hhead.symm (letter_ne hl hu)

/-- A path that leads to the drive that is known is not passed over. -/
theorem gather_same_drive (h : Leads c cwd p a) {known : JSString} (hknown : known ≠ [])
    (hsame : c.toLowerCase a.device.text = c.toLowerCase known)
    (hdrive : ∃ letter hl, a.device = .drive letter hl) (rest : JSString) :
    ∃ r, gather c [p, cwd] ⟨known, rest, false⟩ = .ok r ∧
      Ends r (backslashes known) ((walk rest).act a.parts) := by
  cases h with
  | empty h =>
    obtain ⟨r, hr, hends⟩ := gather_home_drive (c := c) (r := ⟨known, rest, false⟩) h hknown rfl
    rw [if_pos hsame] at hends
    exact ⟨r, by rwa [gather, if_pos rfl], hends⟩
  | @device _ d tail u _ hs habs hdevice hparts =>
    have hd : d = a.device.text := by
      obtain ⟨letter, hl, ha⟩ := hdrive
      rw [ha] at hdevice ⊢
      exact eq_of_backslashes_drive hl (hs.isDevice d rfl) hdevice.symm
    refine ⟨⟨known, tail ++ backslash :: rest, true⟩, ?_, hknown, rfl, ?_⟩
    · rw [gather_known hs.ne_nil hs hknown
        (fun d' hd' ↦ by rw [← Option.some.inj hd', hd, hsame]) rest]
      exact if_pos habs
    · show (walk (tail ++ backslash :: rest)).downs = _
      rw [walk_append_backslash, hparts, ← Net.act_nil, Net.act_mul, Net.act_nil]
  | @drive _ d tail _ home hs hdrive hhome hdevice hparts =>
    have hd : c.toLowerCase d = c.toLowerCase known := by rw [← hdevice, hsame]
    obtain ⟨r, hr, hends⟩ := gather_home_drive (c := c)
      (r := ⟨known, tail ++ backslash :: rest, false⟩) hhome hknown rfl
    refine ⟨r, ?_, hends.ne_nil, hends.device_eq, ?_⟩
    · rw [gather_known hs.ne_nil hs hknown (fun d' hd' ↦ by rw [← Option.some.inj hd', hd]) rest,
        if_neg (by simp [hdrive])]
      exact hr
    · rw [hends.downs_eq, walk_append_backslash, Net.act_mul, hparts, hd]
  | @rooted _ tail u _ home hs hhome hdevice hparts =>
    have hp : p ≠ [] := by
      rw [hs.eq_append]
      simp
    refine ⟨⟨known, tail ++ backslash :: rest, true⟩, ?_, hknown, rfl, ?_⟩
    · rw [gather_known hp hs hknown nofun rest]
      exact if_pos rfl
    · show (walk (tail ++ backslash :: rest)).downs = _
      rw [walk_append_backslash, hparts, ← Net.act_nil, Net.act_mul, Net.act_nil]
  | @relative _ tail _ home hp hs hhome hdevice hparts =>
    obtain ⟨r, hr, hends⟩ := gather_home_drive (c := c)
      (r := ⟨known, tail ++ backslash :: rest, false⟩) hhome hknown rfl
    refine ⟨r, ?_, hends.ne_nil, hends.device_eq, ?_⟩
    · rw [gather_known hp hs hknown nofun rest, if_neg (by simp [isUnc])]
      exact hr
    · rw [hends.downs_eq, walk_append_backslash, Net.act_mul, hparts, ← hdevice, if_pos hsame]

/-- A path that leads to a share is passed over when a drive is known. -/
theorem gather_other_device (hcwd : OnDrive cwd) (h : Leads c cwd p a) {letter : UInt16}
    (hl : isLetter letter = true) {server share : JSString} {hserver : IsPart server}
    {hshare : IsPart share} (ha : a.device = .unc server share hserver hshare) (rest : JSString) :
    gather c [p, cwd] ⟨[letter, colon], rest, false⟩ =
      gather c [cwd] ⟨[letter, colon], rest, false⟩ := by
  have hno : ∀ l hl', a.device ≠ .drive l hl' := fun l hl' h ↦ by
    rw [ha] at h
    cases h
  have hhome : ∀ home : Place, a.device = home.device → ¬Home cwd home := by
    intro home hdevice hhome
    obtain ⟨l, hl', h⟩ := home_drive hcwd hhome
    exact hno l hl' (hdevice.trans h)
  cases h with
  | empty h => exact absurd h (hhome a rfl)
  | @device _ d tail u _ hs habs hdevice hparts =>
    refine gather_skip hs (List.cons_ne_nil _ _) fun heq ↦ ?_
    rcases hs.isDevice d rfl with ⟨l, hl', rfl⟩ | ⟨u, v, w, _, _, hu, -, -, -, -, -, -, rfl⟩
    · rw [backslashes_drive hl'] at hdevice
      obtain ⟨hl'', h⟩ := exists_letter_of_text hdevice
      exact hno l hl'' h
    · have hsmall : u < 0x80 := by
        rcases isSeparator_iff.mp hu with rfl | rfl
        · decide
        · decide
      have hlower := c.lower_eq_iff u hsmall (not_isLetter_of_isSeparator hu)
      have hhead : c.lower u = c.lower letter := (List.cons.inj heq).1
      rw [(hlower u).mpr rfl] at hhead
      exact letter_ne hl hu ((hlower letter).mp hhead.symm)
  | @drive _ d tail _ home hs hdrive hhome' hdevice hparts =>
    obtain ⟨l, -, rfl⟩ := isUnc_eq_false (hs.isDevice d rfl) hdrive
    obtain ⟨hl', h⟩ := exists_letter_of_text hdevice
    exact absurd h (hno l hl')
  | @rooted _ tail u _ home hs hhome' hdevice hparts => exact absurd hhome' (hhome home hdevice)
  | @relative _ tail _ home hp hs hhome' hdevice hparts =>
    exact absurd hhome' (hhome home hdevice)

end SpiderNode.Files.Windows
