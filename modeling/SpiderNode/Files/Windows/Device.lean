import SpiderNode.Files.Resolved
import SpiderNode.Files.SplitPath

/-!
# Devices

A path of Windows can begin with a device, which is a drive or the server and the share of a UNC
path. `splitDeviceRe` takes a path into the device, a separator behind it, and the rest. Its groups
prefer to read as much as they can, but the last of them has no line terminators; so it takes the
longest device there is, or does not match.

Both `/` and `\` separate parts. `slashes` writes one for the other, and makes a walk of POSIX out
of what stands behind the device.
-/

namespace SpiderNode.Files.Windows

open Net (JsError)
open Regex Pattern Trees

def backslash : UInt16 := 0x5C

def colon : UInt16 := 0x3A

/-- `[\\\/]` -/
def isSeparator (u : UInt16) : Bool := u = backslash ∨ u = slash

/-- `[^\\\/]` -/
def notSeparator (u : UInt16) : Bool := !isSeparator u

/-- `[a-zA-Z]` -/
def isLetter (u : UInt16) : Bool := (0x61 ≤ u && u ≤ 0x7A) || (0x41 ≤ u && u ≤ 0x5A)

/-! ## The expression -/

/-- `[a-zA-Z]:` -/
def driveRe : Pattern UInt16 JSString := do
  let letter ← one isLetter
  let u ← one (· = colon)
  return [letter, u]

/-- `[\\\/]{2}[^\\\/]+[\\\/][^\\\/]+` -/
def uncRe : Pattern UInt16 JSString := do
  let u ← one isSeparator
  let v ← one isSeparator
  let server ← plus notSeparator
  let w ← one isSeparator
  let share ← plus notSeparator
  return u :: v :: server ++ w :: share

/-- `([\\\/])?(.*?)$` -/
def tailRe : Pattern UInt16 (Option UInt16 × JSString) := do
  let u ← opt (one isSeparator)
  let tail ← starLazy notTerminator
  atEnd
  return (u, tail)

/-- `splitDeviceRe` -/
def splitDeviceRe : Pattern UInt16 (Option JSString × Option UInt16 × JSString) := do
  let device ← opt (orElse driveRe uncRe)
  let groups ← tailRe
  return (device, groups)

/-- `splitDeviceRe.exec(path)`, of which a group is read. -/
def splitDevice (p : JSString) : Except JsError (Option JSString × Option UInt16 × JSString) :=
  match exec splitDeviceRe p with
  | some groups => .ok groups
  | none => .error .typeError

example : splitDevice (js "c:a\\b") = .ok (some (js "c:"), none, js "a\\b") ∧
    splitDevice (js "//x/y/z") = .ok (some (js "//x/y"), some slash, js "z") := by
  decide

/-! ## The ways to read a path -/

/-- A drive, or a server and a share. -/
def IsDevice (d : JSString) : Prop :=
  (∃ letter, isLetter letter = true ∧ d = [letter, colon]) ∨
    ∃ u v w : UInt16, ∃ server share : JSString, isSeparator u = true ∧ isSeparator v = true ∧
      server ≠ [] ∧ (∀ x ∈ server, notSeparator x = true) ∧ isSeparator w = true ∧ share ≠ [] ∧
      (∀ x ∈ share, notSeparator x = true) ∧ d = u :: v :: server ++ w :: share

variable {p r s d tail : JSString} {u : Option UInt16}

theorem mem_driveRe :
    (d, r) ∈ driveRe p ↔ ∃ letter, isLetter letter = true ∧ d = [letter, colon] ∧ p = d ++ r := by
  rw [driveRe, mem_bind]
  constructor
  · rintro ⟨letter, p₁, hletter, hrest⟩
    obtain ⟨u, p₂, hcolon, hpure⟩ := mem_bind.mp hrest
    obtain ⟨rfl, rfl⟩ := mem_pure.mp hpure
    obtain ⟨rfl, hl⟩ := mem_one.mp hletter
    obtain ⟨rfl, hu⟩ := mem_one.mp hcolon
    obtain rfl : u = colon := by simpa using hu
    exact ⟨letter, hl, rfl, rfl⟩
  · rintro ⟨letter, hl, rfl, rfl⟩
    exact ⟨letter, colon :: r, mem_one.mpr ⟨rfl, hl⟩,
      mem_bind.mpr ⟨colon, r, mem_one.mpr ⟨rfl, by simp⟩, mem_pure.mpr ⟨rfl, rfl⟩⟩⟩

theorem mem_uncRe :
    (d, r) ∈ uncRe p ↔
      ∃ u v w : UInt16, ∃ server share : JSString, isSeparator u = true ∧ isSeparator v = true ∧
        server ≠ [] ∧ (∀ x ∈ server, notSeparator x = true) ∧ isSeparator w = true ∧ share ≠ [] ∧
        (∀ x ∈ share, notSeparator x = true) ∧ d = u :: v :: server ++ w :: share ∧ p = d ++ r := by
  rw [uncRe, mem_bind]
  constructor
  · rintro ⟨u, p₁, hu, hrest⟩
    obtain ⟨v, p₂, hv, hrest⟩ := mem_bind.mp hrest
    obtain ⟨server, p₃, hserver, hrest⟩ := mem_bind.mp hrest
    obtain ⟨w, p₄, hw, hrest⟩ := mem_bind.mp hrest
    obtain ⟨share, p₅, hshare, hpure⟩ := mem_bind.mp hrest
    obtain ⟨rfl, rfl⟩ := mem_pure.mp hpure
    obtain ⟨rfl, hu'⟩ := mem_one.mp hu
    obtain ⟨rfl, hv'⟩ := mem_one.mp hv
    obtain ⟨rfl, hne, hserver'⟩ := mem_plus.mp hserver
    obtain ⟨rfl, hw'⟩ := mem_one.mp hw
    obtain ⟨rfl, hne', hshare'⟩ := mem_plus.mp hshare
    exact ⟨u, v, w, server, share, hu', hv', hne, hserver', hw', hne', hshare', rfl, by simp⟩
  · rintro ⟨u, v, w, server, share, hu, hv, hserver, hserver', hw, hshare, hshare', rfl, rfl⟩
    refine ⟨u, v :: server ++ w :: share ++ r, mem_one.mpr ⟨rfl, hu⟩, mem_bind.mpr ⟨v,
      server ++ (w :: share ++ r), mem_one.mpr ⟨by simp, hv⟩, mem_bind.mpr ⟨server,
      w :: (share ++ r), mem_plus.mpr ⟨rfl, hserver, hserver'⟩, mem_bind.mpr ⟨w, share ++ r,
      mem_one.mpr ⟨rfl, hw⟩, mem_bind.mpr ⟨share, r, mem_plus.mpr ⟨rfl, hshare, hshare'⟩,
      mem_pure.mpr ⟨rfl, rfl⟩⟩⟩⟩⟩⟩

theorem mem_deviceRe : (d, r) ∈ orElse driveRe uncRe p ↔ p = d ++ r ∧ IsDevice d := by
  rw [mem_orElse, mem_driveRe, mem_uncRe]
  constructor
  · rintro (⟨letter, hl, rfl, rfl⟩ | ⟨u, v, w, server, share, h₁, h₂, h₃, h₄, h₅, h₆, h₇, rfl, rfl⟩)
    · exact ⟨rfl, .inl ⟨letter, hl, rfl⟩⟩
    · exact ⟨rfl, .inr ⟨u, v, w, server, share, h₁, h₂, h₃, h₄, h₅, h₆, h₇, rfl⟩⟩
  · rintro ⟨rfl, ⟨letter, hl, rfl⟩ | ⟨u, v, w, server, share, h₁, h₂, h₃, h₄, h₅, h₆, h₇, rfl⟩⟩
    · exact .inl ⟨letter, hl, rfl, rfl⟩
    · exact .inr ⟨u, v, w, server, share, h₁, h₂, h₃, h₄, h₅, h₆, h₇, rfl, rfl⟩

theorem mem_tailRe :
    ((u, tail), r) ∈ tailRe p ↔
      r = [] ∧ p = u.toList ++ tail ∧ (∀ x ∈ u, isSeparator x = true) ∧
        ∀ x ∈ tail, notTerminator x = true := by
  rw [tailRe, mem_bind]
  constructor
  · rintro ⟨u', p₁, hu, hrest⟩
    obtain ⟨tail', p₂, htail, hrest⟩ := mem_bind.mp hrest
    obtain ⟨_, p₃, hend, hpure⟩ := mem_bind.mp hrest
    obtain ⟨hgroups, rfl⟩ := mem_pure.mp hpure
    obtain ⟨rfl, rfl⟩ := Prod.mk.inj hgroups
    obtain ⟨rfl, rfl⟩ := mem_atEnd.mp hend
    obtain ⟨rfl, htext⟩ := mem_starLazy.mp htail
    rcases mem_opt.mp hu with ⟨x, rfl, hx⟩ | ⟨rfl, rfl⟩
    · obtain ⟨rfl, hx'⟩ := mem_one.mp hx
      exact ⟨rfl, by simp, by simpa using hx', htext⟩
    · exact ⟨rfl, by simp, by simp, htext⟩
  · rintro ⟨rfl, rfl, hu, htail⟩
    refine ⟨u, tail, ?_, mem_bind.mpr ⟨tail, [], mem_starLazy.mpr ⟨by simp, htail⟩,
      mem_bind.mpr ⟨(), [], mem_atEnd.mpr ⟨rfl, rfl⟩, mem_pure.mpr ⟨rfl, rfl⟩⟩⟩⟩
    rcases u with _ | x
    · exact mem_opt.mpr (.inr ⟨rfl, rfl⟩)
    · exact mem_opt.mpr (.inl ⟨x, rfl, mem_one.mpr ⟨rfl, hu x rfl⟩⟩)

/-! ## The way that is taken -/

/-- What the groups are, as far as they matter: the device is the longest there is, and a separator
is read if there is one. -/
structure IsSplit (p : JSString) (device : Option JSString) (u : Option UInt16) (tail : JSString) :
    Prop where
  isDevice : ∀ d, device = some d → IsDevice d
  eq_append : p = device.getD [] ++ (u.toList ++ tail)
  longest : ∀ d r, p = d ++ r → IsDevice d → d.length ≤ (device.getD []).length
  isSeparator : ∀ x, u = some x → isSeparator x = true
  head_tail : u = none → ∀ x ∈ tail.head?, Windows.isSeparator x = false
  text : ∀ x ∈ tail, notTerminator x = true

theorem notTerminator_of_isSeparator {x : UInt16} (h : isSeparator x = true) :
    notTerminator x = true := by
  obtain rfl | rfl : x = backslash ∨ x = slash := by simpa [isSeparator] using h
  all_goals decide

theorem exec_tailRe_ne_none_iff : exec tailRe s ≠ none ↔ ∀ x ∈ s, notTerminator x = true := by
  rw [Ne, exec_eq_none_iff]
  constructor
  · intro h x hx
    by_contra hnot
    refine h fun groups r hmem ↦ ?_
    obtain ⟨-, hs, hu, htail⟩ := mem_tailRe.mp hmem
    rw [hs, List.mem_append, Option.mem_toList] at hx
    rcases hx with hx | hx
    · exact hnot (notTerminator_of_isSeparator (hu x hx))
    · exact hnot (htail x hx)
  · intro h hnone
    exact hnone (none, s) [] (mem_tailRe.mpr ⟨rfl, rfl, by simp, h⟩)

/-- A separator is preferred to none. -/
theorem of_exec_tailRe (h : exec tailRe s = some (u, tail)) :
    s = u.toList ++ tail ∧ (∀ x, u = some x → isSeparator x = true) ∧
      (u = none → ∀ x ∈ tail.head?, isSeparator x = false) ∧
      ∀ x ∈ tail, notTerminator x = true := by
  obtain ⟨r, hmem⟩ := mem_of_exec h
  obtain ⟨-, hs, hu, htail⟩ := mem_tailRe.mp hmem
  refine ⟨hs, hu, ?_, htail⟩
  rintro rfl x hx
  rw [Option.toList_none, List.nil_append] at hs
  obtain ⟨rest, rfl⟩ : ∃ rest, tail = x :: rest := List.head?_eq_some_iff.mp hx
  by_contra hsep
  rw [Bool.not_eq_false] at hsep
  have hfirst : (some x, rest) ∈ opt (one isSeparator) s :=
    mem_opt.mpr (.inl ⟨x, rfl, mem_one.mpr ⟨hs, hsep⟩⟩)
  have hpairwise : (opt (one isSeparator) s).Pairwise fun _ y ↦ y.1 = none := by
    rw [opt, hs, one, if_pos hsep]
    simp
  rw [tailRe] at h
  obtain ⟨⟨u', s'⟩, -, hexec, hbefore⟩ := exists_of_exec_bind hpairwise h
  have hrest : exec (do
      let tail ← starLazy notTerminator
      atEnd
      return (some x, tail) : Pattern UInt16 (Option UInt16 × JSString)) rest ≠ none := by
    rw [Ne, exec_eq_none_iff]
    intro hnone
    exact hnone (some x, rest) [] (mem_bind.mpr ⟨rest, [], mem_starLazy.mpr
      ⟨by simp, fun y hy ↦ htail y (List.mem_cons_of_mem _ hy)⟩,
      mem_bind.mpr ⟨(), [], mem_atEnd.mpr ⟨rfl, rfl⟩, mem_pure.mpr ⟨rfl, rfl⟩⟩⟩)
  -- the first way goes on, so it is the one that is taken
  rcases hbefore _ hfirst hrest with heq | hnone
  · obtain ⟨rfl, rfl⟩ := Prod.mk.inj heq
    obtain ⟨r', hmem'⟩ := mem_of_exec hexec
    obtain ⟨_, _, -, hgo⟩ := mem_bind.mp hmem'
    obtain ⟨_, _, -, hpure⟩ := mem_bind.mp hgo
    cases (Prod.mk.inj (mem_pure.mp hpure).1).1
  · cases hnone

/-- A beginning without separators, up to the first one. -/
theorem append_separator_inj {l l' m m' : JSString} {w w' : UInt16}
    (h : l ++ w :: m = l' ++ w' :: m') (hl : ∀ x ∈ l, notSeparator x = true)
    (hl' : ∀ x ∈ l', notSeparator x = true) (hw : isSeparator w = true)
    (hw' : isSeparator w' = true) : l = l' ∧ w = w' ∧ m = m' := by
  induction l generalizing l' with
  | nil =>
    rcases l' with _ | ⟨x, l'⟩
    · exact ⟨rfl, List.cons.inj h⟩
    · obtain ⟨rfl, -⟩ := List.cons.inj h
      have hx := hl' w List.mem_cons_self
      rw [notSeparator, hw] at hx
      cases hx
  | cons x l ih =>
    rcases l' with _ | ⟨y, l'⟩
    · obtain ⟨rfl, -⟩ := List.cons.inj h
      have hx := hl x List.mem_cons_self
      rw [notSeparator, hw'] at hx
      cases hx
    · obtain ⟨rfl, hcons⟩ := List.cons.inj h
      obtain ⟨rfl, hrest⟩ := ih hcons (fun y hy ↦ hl y (List.mem_cons_of_mem _ hy))
        fun y hy ↦ hl' y (List.mem_cons_of_mem _ hy)
      exact ⟨rfl, hrest⟩

theorem pairwise_driveRe (p : JSString) :
    (driveRe p).Pairwise fun x y ↦ x.2.length ≤ y.2.length := by
  refine pairwise_bind (R := fun _ _ ↦ False) (pairwise_one _ _) (fun x _ ↦ ?_)
    fun _ _ _ _ h ↦ h.elim
  exact pairwise_bind (R := fun _ _ ↦ False) (pairwise_one _ _)
    (fun y _ ↦ List.pairwise_singleton _ _) fun _ _ _ _ h ↦ h.elim

/-- There is one server, and a longer share is preferred. -/
theorem pairwise_uncRe (p : JSString) :
    (uncRe p).Pairwise fun x y ↦ x.2.length ≤ y.2.length := by
  refine pairwise_bind (R := fun _ _ ↦ False) (pairwise_one _ _) (fun u _ ↦ ?_)
    fun _ _ _ _ h ↦ h.elim
  refine pairwise_bind (R := fun _ _ ↦ False) (pairwise_one _ _) (fun v _ ↦ ?_)
    fun _ _ _ _ h ↦ h.elim
  refine pairwise_bind (pairwise_plus_rest _ _) (fun server _ ↦ ?_) ?_
  · refine pairwise_bind (R := fun _ _ ↦ False) (pairwise_one _ _) (fun w _ ↦ ?_)
      fun _ _ _ _ h ↦ h.elim
    refine pairwise_bind (pairwise_plus_rest _ _) (fun _ _ ↦ List.pairwise_singleton _ _) ?_
    intro x _ y _ hlt x' hx' y' hy'
    rw [List.mem_singleton.mp hx', List.mem_singleton.mp hy']
    exact Nat.le_of_lt hlt
  · intro x hx y hy hlt x' hx' y' hy'
    obtain ⟨w, s, hw, -⟩ := mem_bind.mp hx'
    obtain ⟨w', s', hw', -⟩ := mem_bind.mp hy'
    obtain ⟨hs, hw⟩ := mem_one.mp hw
    obtain ⟨hs', hw'⟩ := mem_one.mp hw'
    obtain ⟨hx, -, hclass⟩ := mem_plus.mp hx
    obtain ⟨hy, -, hclass'⟩ := mem_plus.mp hy
    rw [hx, hs, hs'] at hy
    obtain ⟨-, rfl, rfl⟩ := append_separator_inj hy hclass hclass' hw hw'
    rw [hs, hs'] at hlt
    exact absurd hlt (Nat.lt_irrefl _)

theorem not_isLetter_of_isSeparator {x : UInt16} (h : isSeparator x = true) :
    isLetter x = false := by
  obtain rfl | rfl : x = backslash ∨ x = slash := by simpa [isSeparator] using h
  all_goals decide

/-- Longer devices are preferred. -/
theorem pairwise_deviceRe (p : JSString) :
    (opt (orElse driveRe uncRe) p).Pairwise fun x y ↦ x.2.length ≤ y.2.length := by
  rw [opt, List.pairwise_append, List.pairwise_map, orElse, List.pairwise_append]
  refine ⟨⟨pairwise_driveRe p, pairwise_uncRe p, fun x hx y hy ↦ ?_⟩,
    List.pairwise_singleton _ _, fun x hx y hy ↦ ?_⟩
  · obtain ⟨letter, hl, hx, hp⟩ := mem_driveRe.mp hx
    obtain ⟨u, v, w, server, share, hu, -, -, -, -, -, -, hy, hp'⟩ := mem_uncRe.mp hy
    rw [hp', hx, hy] at hp
    obtain rfl : u = letter := (List.cons.inj hp).1
    rw [not_isLetter_of_isSeparator hu] at hl
    cases hl
  · obtain ⟨x', hx', rfl⟩ := List.mem_map.mp hx
    rw [List.mem_singleton.mp hy]
    have hp := congrArg List.length (mem_deviceRe.mp hx').1
    rw [List.length_append] at hp
    show x'.2.length ≤ p.length
    omega

/-! ## The split of a path -/

variable {device device' : Option JSString} {u' : Option UInt16} {tail' : JSString}

theorem splitDevice_eq_ok :
    splitDevice p = .ok (device, u, tail) ↔ exec splitDeviceRe p = some (device, u, tail) := by
  rw [splitDevice]
  rcases exec splitDeviceRe p with _ | groups
  · simp
  · simp

theorem IsDevice.ne_nil (h : IsDevice d) : d ≠ [] := by
  rintro rfl
  obtain ⟨letter, -, h⟩ | ⟨u, v, w, server, share, -, -, -, -, -, -, -, h⟩ := h
  · cases h
  · cases h

theorem isSplit_of_splitDevice (h : splitDevice p = .ok (device, u, tail)) :
    IsSplit p device u tail := by
  rw [splitDevice_eq_ok, splitDeviceRe] at h
  obtain ⟨⟨o, s⟩, hmem, hexec, hbefore⟩ := exists_of_exec_bind (pairwise_deviceRe p) h
  simp only [exec_bind_pure] at hexec hbefore
  obtain ⟨groups, hgroups, heq⟩ := Option.map_eq_some_iff.mp hexec
  obtain ⟨rfl, rfl⟩ := Prod.mk.inj heq
  obtain ⟨hs, hsep, hhead, htext⟩ := of_exec_tailRe hgroups
  have hp : p = o.getD [] ++ s ∧ ∀ d, o = some d → IsDevice d := by
    rcases mem_opt.mp hmem with ⟨d, rfl, hd⟩ | ⟨rfl, rfl⟩
    · obtain ⟨hp, hdevice⟩ := mem_deviceRe.mp hd
      exact ⟨hp, fun d' hd' ↦ Option.some.inj hd' ▸ hdevice⟩
    · exact ⟨rfl, by simp⟩
  refine ⟨hp.2, hs ▸ hp.1, fun d r hd hdevice ↦ ?_, hsep, hhead, htext⟩
  by_contra hlt
  have hlength := congrArg List.length (hp.1.symm.trans hd)
  rw [List.length_append, List.length_append] at hlength
  have hr : r = s.drop (d.length - (o.getD []).length) := by
    have hdrop := congrArg (List.drop d.length) (hp.1.symm.trans hd)
    rw [List.drop_left, List.drop_append, List.drop_eq_nil_of_le (by omega)] at hdrop
    simpa using hdrop.symm
  have hclass := exec_tailRe_ne_none_iff.mp (by rw [hgroups]; simp : exec tailRe s ≠ none)
  have hgo : exec tailRe r ≠ none :=
    exec_tailRe_ne_none_iff.mpr fun x hx ↦ hclass x (List.mem_of_mem_drop (hr ▸ hx))
  rcases hbefore (some d, r) (mem_opt.mpr (.inl ⟨d, rfl, mem_deviceRe.mpr ⟨hd, hdevice⟩⟩))
    (by simpa using hgo) with heq | hle
  · obtain ⟨rfl, rfl⟩ := Prod.mk.inj heq
    exact hlt (Nat.le_refl _)
  · have hle' : s.length ≤ r.length := hle
    omega

theorem IsSplit.unique (h : IsSplit p device u tail) (h' : IsSplit p device' u' tail') :
    device = device' ∧ u = u' ∧ tail = tail' := by
  have hle : ∀ {device device' : Option JSString} {u u' : Option UInt16} {tail tail' : JSString},
      IsSplit p device u tail → IsSplit p device' u' tail' →
        (device.getD []).length ≤ (device'.getD []).length := by
    rintro (_ | d) device' u u' tail tail' h h'
    · exact Nat.zero_le _
    · exact h'.longest d _ h.eq_append (h.isDevice d rfl)
  have happend := h.eq_append.symm.trans h'.eq_append
  obtain ⟨hd, hrest⟩ := List.append_inj happend (Nat.le_antisymm (hle h h') (hle h' h))
  have hdevice : device = device' := by
    rcases device with _ | d
    · rcases device' with _ | d'
      · rfl
      · exact absurd hd.symm (h'.isDevice d' rfl).ne_nil
    · rcases device' with _ | d'
      · exact absurd hd (h.isDevice d rfl).ne_nil
      · exact congrArg some hd
  rcases u with _ | x
  · rcases u' with _ | x'
    · exact ⟨hdevice, rfl, hrest⟩
    · have hx := h.head_tail rfl x' (by rw [show tail = x' :: tail' from hrest]; rfl)
      rw [h'.isSeparator x' rfl] at hx
      cases hx
  · rcases u' with _ | x'
    · have hx := h'.head_tail rfl x (by rw [show tail' = x :: tail from hrest.symm]; rfl)
      rw [h.isSeparator x rfl] at hx
      cases hx
    · obtain ⟨rfl, rfl⟩ := List.cons.inj hrest
      exact ⟨hdevice, rfl, rfl⟩

/-- **The split of a path**, if it has one. -/
theorem IsSplit.splitDevice_eq (h : IsSplit p device u tail) :
    splitDevice p = .ok (device, u, tail) := by
  have hmem : ((device, u, tail), []) ∈ splitDeviceRe p := by
    refine mem_bind.mpr ⟨device, u.toList ++ tail, ?_, mem_bind.mpr ⟨(u, tail), [],
      mem_tailRe.mpr ⟨rfl, rfl, h.isSeparator, h.text⟩, mem_pure.mpr ⟨rfl, rfl⟩⟩⟩
    rcases hd : device with _ | d
    · exact mem_opt.mpr (.inr ⟨rfl, by simpa [hd] using h.eq_append.symm⟩)
    · refine mem_opt.mpr (.inl ⟨d, rfl, mem_deviceRe.mpr ⟨?_, h.isDevice d hd⟩⟩)
      simpa [hd] using h.eq_append
  rcases hexec : exec splitDeviceRe p with _ | ⟨device', u', tail'⟩
  · exact absurd hmem (exec_eq_none_iff.mp hexec _ _)
  · have hok := splitDevice_eq_ok.mpr hexec
    obtain ⟨rfl, rfl, rfl⟩ := h.unique (isSplit_of_splitDevice hok)
    exact hok

theorem splitDevice_eq_ok_iff :
    splitDevice p = .ok (device, u, tail) ↔ IsSplit p device u tail :=
  ⟨isSplit_of_splitDevice, IsSplit.splitDevice_eq⟩

/-! ## Paths that are put together -/

variable {x letter : UInt16}

theorem isDevice_drive (hl : isLetter letter = true) : IsDevice [letter, colon] :=
  .inl ⟨letter, hl, rfl⟩

/-- What begins with a letter and a colon has no other device. -/
theorem longest_drive (hl : isLetter letter = true) (h : letter :: colon :: s = d ++ r)
    (hd : IsDevice d) : d.length ≤ 2 := by
  rcases hd with ⟨l, -, rfl⟩ | ⟨u, v, w, server, share, hu, -, -, -, -, -, -, rfl⟩
  · exact Nat.le_refl _
  · obtain rfl : letter = u := (List.cons.inj h).1
    rw [not_isLetter_of_isSeparator hu] at hl
    cases hl

theorem isSplit_drive (hl : isLetter letter = true)
    (hsep : ∀ x, u = some x → isSeparator x = true)
    (hhead : u = none → ∀ x ∈ tail.head?, isSeparator x = false)
    (htext : ∀ x ∈ tail, notTerminator x = true) :
    IsSplit (letter :: colon :: (u.toList ++ tail)) (some [letter, colon]) u tail :=
  ⟨fun _ h ↦ Option.some.inj h ▸ isDevice_drive hl, rfl, fun _ _ h ↦ longest_drive hl h, hsep,
    hhead, htext⟩

/-- A device ends at a separator. -/
theorem longest_separator (hd : IsDevice d) (hx : isSeparator x = true) {d' : JSString}
    (h : d ++ x :: tail = d' ++ r) (hd' : IsDevice d') : d'.length ≤ d.length := by
  rcases hd with ⟨l, hl, rfl⟩ | ⟨u, v, w, server, share, hu, -, -, hserver, hw, -, hshare, rfl⟩
  · exact longest_drive hl h hd'
  · rcases hd' with
      ⟨l, hl, rfl⟩ | ⟨u', v', w', server', share', -, -, -, hserver', hw', -, hshare', rfl⟩
    · obtain rfl : u = l := (List.cons.inj h).1
      rw [not_isLetter_of_isSeparator hu] at hl
      cases hl
    · have hrest : server ++ w :: (share ++ x :: tail) = server' ++ w' :: (share' ++ r) := by
        simpa using (List.cons.inj (List.cons.inj h).2).2
      obtain ⟨rfl, rfl, hshares⟩ := append_separator_inj hrest hserver hserver' hw hw'
      have hle : share'.length ≤ share.length := by
        by_contra hlt
        obtain ⟨t, ht⟩ : share <+: share' :=
          List.prefix_of_prefix_length_le ⟨_, rfl⟩ ⟨_, hshares.symm⟩ (by omega)
        rw [← ht, List.append_assoc, List.append_cancel_left_eq] at hshares
        rcases t with _ | ⟨y, t⟩
        · rw [List.append_nil] at ht
          exact hlt (ht ▸ Nat.le_refl _)
        · obtain rfl : x = y := (List.cons.inj hshares).1
          have hy := hshare' x (ht ▸ List.mem_append_right _ List.mem_cons_self)
          rw [notSeparator, hx] at hy
          cases hy
      simpa using hle

theorem isSplit_separator (hd : IsDevice d) (hx : isSeparator x = true)
    (htext : ∀ x ∈ tail, notTerminator x = true) :
    IsSplit (d ++ x :: tail) (some d) (some x) tail :=
  ⟨fun _ h ↦ Option.some.inj h ▸ hd, rfl, fun _ _ h hd' ↦ longest_separator hd hx h hd',
    fun _ h ↦ Option.some.inj h ▸ hx, nofun, htext⟩

/-- A path that begins with one separator has no device. -/
theorem isSplit_rooted (hx : isSeparator x = true)
    (hhead : ∀ y ∈ tail.head?, isSeparator y = false)
    (htext : ∀ x ∈ tail, notTerminator x = true) : IsSplit (x :: tail) none (some x) tail := by
  refine ⟨nofun, rfl, fun d r h hd ↦ ?_, fun _ h ↦ Option.some.inj h ▸ hx, nofun, htext⟩
  rcases hd with ⟨l, hl, rfl⟩ | ⟨u, v, w, server, share, -, hv, -, -, -, -, -, rfl⟩
  · obtain rfl : x = l := (List.cons.inj h).1
    rw [not_isLetter_of_isSeparator hx] at hl
    cases hl
  · have htail := (List.cons.inj h).2
    have hv' := hhead v (by rw [htail]; rfl)
    rw [hv] at hv'
    cases hv'

/-- A path that begins like one with a drive. -/
def DriveLike (p : JSString) : Prop :=
  ∃ letter rest, isLetter letter = true ∧ p = letter :: colon :: rest

theorem isSplit_relative (hp : ¬DriveLike p) (hhead : ∀ y ∈ p.head?, isSeparator y = false)
    (htext : ∀ x ∈ p, notTerminator x = true) : IsSplit p none none p := by
  refine ⟨nofun, rfl, fun d r h hd ↦ ?_, nofun, fun _ ↦ hhead, htext⟩
  rcases hd with ⟨l, hl, rfl⟩ | ⟨u, v, w, server, share, hu, -, -, -, -, -, -, rfl⟩
  · exact absurd ⟨l, r, hl, h⟩ hp
  · have hu' := hhead u (by rw [h]; rfl)
    rw [hu] at hu'
    cases hu'

end SpiderNode.Files.Windows
