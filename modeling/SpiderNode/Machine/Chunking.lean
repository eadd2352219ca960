import SpiderNode.Machine.Scanner

/-!
# Independence of the chunks

`same_execute_append`: a lawful scanner does with two chunks, one after the other, what it does with
both at once. `same_feed` is the same for any number of chunks.

While the first chunk is read, the two runs are the same. From its end on, the frame of the second
chunk is that of the whole input, moved back: `Frame.back`. What is marked in front of the second
chunk has been handed over at the end of the first one, and the user of the second run is ahead by
just that.
-/

namespace Scanner

variable {β C D E R σ : Type*} {M : Scanner β C D E R} {k : Consumer β D E σ} {Q : R → Prop}
  {beside : D → D → Prop}

/-! ## Slices -/

theorem slice_append_of_le {a : List β} {m p : ℕ} (h : p ≤ a.length) (b : List β) :
    slice (a ++ b) m p = slice a m p := by
  rw [slice, slice, List.drop_append, List.take_append_of_le_length]
  rw [List.length_drop]
  omega

theorem slice_append_right (a b : List β) (m p : ℕ) :
    slice (a ++ b) (a.length + m) (a.length + p) = slice b m p := by
  rw [slice, slice, List.drop_append, List.drop_of_length_le (by omega), List.nil_append]
  congr 1
  · omega
  · congr 1
    omega

theorem slice_append_across {a : List β} {m : ℕ} (h : m ≤ a.length) (b : List β) (p : ℕ) :
    slice (a ++ b) m (a.length + p) = a.drop m ++ slice b 0 p := by
  have hlen : a.length + p - m = (a.drop m).length + p := by
    rw [List.length_drop]
    omega
  rw [slice, slice, List.drop_append_of_le_length h, hlen, List.take_length_add_append]
  rfl

/-! ## Texts that are handed over -/

/-- Hand over a text, if there is one. -/
def Consumer.hand (k : Consumer β D E σ) (d : D) : Option (List β) → σ → σ
  | none, u => u
  | some x, u => (k.data d x u).1

/-- Hand over texts in an order. -/
def deliver (k : Consumer β D E σ) (t : D → Option (List β)) : List D → σ → σ
  | [], u => u
  | d :: ds, u => deliver k t ds (k.hand d (t d) u)

theorem deliver_congr {t t' : D → Option (List β)} {ds : List D} (h : ∀ d ∈ ds, t d = t' d)
    (u : σ) : deliver k t ds u = deliver k t' ds u := by
  induction ds generalizing u with
  | nil => rfl
  | cons d ds ih =>
    rw [deliver, deliver, h d (by simp)]
    exact ih (fun d' hd ↦ h d' (by simp [hd])) _

theorem deliver_eq_self {t : D → Option (List β)} {ds : List D} (h : ∀ d ∈ ds, t d = none)
    (u : σ) : deliver k t ds u = u := by
  induction ds generalizing u with
  | nil => rfl
  | cons d ds ih =>
    rw [deliver, h d (by simp)]
    exact ih (fun d' hd ↦ h d' (by simp [hd])) u

/-- A text that is open together with the others can be handed over before or after them. -/
theorem deliver_data (hk : k.Lawful beside) {t : D → Option (List β)} {ds : List D} {d : D}
    (h : ∀ d' ∈ ds, t d' ≠ none → beside d d') (x : List β) (u : σ) :
    deliver k t ds (k.data d x u).1 = (k.data d x (deliver k t ds u)).1 := by
  induction ds generalizing u with
  | nil => rfl
  | cons d' ds ih =>
    rw [deliver, deliver, ← ih fun e he ↦ h e (by simp [he])]
    congr 1
    rcases ht : t d' with _ | y
    · rfl
    · exact (hk.data_comm x y u (h d' (by simp) (by simp [ht]))).symm

/-- A text can be handed over first. -/
theorem deliver_eq_update [DecidableEq D] (hk : k.Lawful beside) {t : D → Option (List β)}
    {ds : List D} (hnd : ds.Nodup) {d : D} (hd : d ∈ ds) {x : List β} (ht : t d = some x)
    (h : ∀ d' ∈ ds, t d' ≠ none → d' ≠ d → beside d d') (u : σ) :
    deliver k t ds u = deliver k (Function.update t d none) ds (k.data d x u).1 := by
  induction ds generalizing u with
  | nil => simp at hd
  | cons e ds ih =>
    obtain ⟨hne, hnd⟩ := List.nodup_cons.mp hnd
    rw [deliver, deliver]
    rcases eq_or_ne e d with rfl | hed
    · rw [ht, Function.update_self]
      refine deliver_congr (fun d' hd' ↦ ?_) _
      rw [Function.update_of_ne (ne_of_mem_of_not_mem hd' hne)]
    · rw [Function.update_of_ne hed, ih hnd (List.mem_of_ne_of_mem hed.symm hd)
        fun d' hd' ↦ h d' (by simp [hd'])]
      congr 1
      rcases hte : t e with _ | y
      · rfl
      · exact hk.data_comm x y u (h e (by simp) (by simp [hte]) hed)

/-- Parts of texts, and then the rest of each of them. -/
theorem deliver_deliver (hk : k.Lawful beside) {t t' t'' : D → Option (List β)} {ds : List D}
    (h : ∀ d ∈ ds, ∀ d' ∈ ds, d' ≠ d → t' d ≠ none → t d' ≠ none → beside d d')
    (hnd : ds.Nodup) (ht : ∀ d ∈ ds, ∀ u, k.hand d (t' d) (k.hand d (t d) u) = k.hand d (t'' d) u)
    (u : σ) : deliver k t' ds (deliver k t ds u) = deliver k t'' ds u := by
  induction ds generalizing u with
  | nil => rfl
  | cons d ds ih =>
    obtain ⟨hne, hnd⟩ := List.nodup_cons.mp hnd
    have hfirst : ∀ u, k.hand d (t' d) (deliver k t ds u) =
        deliver k t ds (k.hand d (t' d) u) := by
      intro u
      rcases hd : t' d with _ | y
      · rfl
      · refine (deliver_data hk (fun e he hte ↦ ?_) y u).symm
        exact h d (by simp) e (by simp [he]) (ne_of_mem_of_not_mem he hne) (by simp [hd]) hte
    rw [deliver, deliver, deliver, hfirst, ht d (by simp)]
    exact ih (fun e he e' he' ↦ h e (by simp [he]) e' (by simp [he'])) hnd
      (fun e he ↦ ht e (by simp [he])) _

/-! ## The second chunk -/

variable {a b : List β} {f : Frame D σ} {S : Finset D}

/-- The texts that are open begin where there is a mark. -/
def Frame.Opens (f : Frame D σ) (S : Finset D) : Prop := ∀ d, f.marks d ≠ none ↔ d ∈ S

/-- What a mark in the first chunk leaves to hand over at its end. -/
def late (a : List β) (marks : D → Option ℕ) (d : D) : Option (List β) :=
  (marks d).bind fun m ↦ if m < a.length then some (a.drop m) else none

/-- The frame of the second chunk, for one of the whole input. -/
def Frame.back (k : Consumer β D E σ) (order : List D) (a : List β) (f : Frame D σ) : Frame D σ :=
  ⟨fun d ↦ (f.marks d).map (· - a.length), f.p - a.length,
    deliver k (late a f.marks) order f.user⟩

def Pass.map (g : Frame D σ → Frame D σ) : Pass C D R σ → Pass C D R σ
  | .ok c f => .ok c (g f)
  | .stopped r c f => .stopped r c (g f)

theorem Frame.Opens.eq_none (hf : f.Opens ∅) (d : D) : f.marks d = none := by
  by_contra h
  simpa using (hf d).mp h

theorem late_of_eq_none {marks : D → Option ℕ} {d : D} (h : marks d = none) :
    late a marks d = none := by
  rw [late, h]
  rfl

theorem mem_of_late (hf : f.Opens S) {d : D} (h : late a f.marks d ≠ none) : d ∈ S := by
  refine (hf d).mp fun hd ↦ h (late_of_eq_none hd)

theorem deliver_late_of_opens_empty (hf : f.Opens ∅) (order : List D) (u : σ) :
    deliver k (late a f.marks) order u = u :=
  deliver_eq_self (fun d _ ↦ late_of_eq_none (hf.eq_none d)) u

variable [DecidableEq D]

theorem Frame.Opens.mark (hf : f.Opens S) (d : D) (p : ℕ) :
    Frame.Opens { f with marks := Function.update f.marks d (some p) } (insert d S) := by
  intro d'
  rcases eq_or_ne d' d with rfl | hne
  · simp
  · rw [Finset.mem_insert, ← hf d']
    simp [hne]

theorem Frame.Opens.erase (hf : f.Opens S) (d : D) (u : σ) :
    Frame.Opens { f with marks := Function.update f.marks d none, user := u } (S.erase d) := by
  intro d'
  rcases eq_or_ne d' d with rfl | hne
  · simp
  · rw [Finset.mem_erase, ← hf d']
    simp [hne]

theorem Frame.Opens.erase_of_eq_none (hf : f.Opens S) {d : D} (hd : f.marks d = none) :
    f.Opens (S.erase d) := by
  intro d'
  rw [Finset.mem_erase, ← hf d']
  refine ⟨fun h ↦ ⟨?_, h⟩, And.right⟩
  rintro rfl
  exact h hd

theorem late_update (a : List β) (marks : D → Option ℕ) (d : D) {o : Option ℕ}
    (ho : ∀ m, o = some m → a.length ≤ m) :
    late a (Function.update marks d o) = Function.update (late a marks) d none := by
  funext d'
  rcases eq_or_ne d' d with rfl | hne
  · rw [late, Function.update_self, Function.update_self]
    rcases o with _ | m
    · rfl
    · simp [ho m rfl]
  · rw [late, Function.update_of_ne hne, Function.update_of_ne hne, late]

theorem map_update (marks : D → Option ℕ) (d : D) (o : Option ℕ) (n : ℕ) :
    (fun d' ↦ (Function.update marks d o d').map (· - n)) =
      Function.update (fun d' ↦ (marks d').map (· - n)) d (o.map (· - n)) := by
  funext d'
  rcases eq_or_ne d' d with rfl | hne
  · rw [Function.update_self, Function.update_self]
  · rw [Function.update_of_ne hne, Function.update_of_ne hne]

/-- A text that is handed over in the second chunk, as a whole or for the rest of it. -/
theorem hand_deliver_late (h : M.Lawful Q beside) (hk : k.Lawful beside) (hf : f.Opens S) {d : D}
    {m : ℕ} (hd : f.marks d = some m) (hb : ∀ d' ∈ S, d' ≠ d → beside d d')
    (hp : a.length ≤ f.p) :
    (k.data d (slice b (m - a.length) (f.p - a.length))
        (deliver k (late a f.marks) M.order f.user)).1 =
      deliver k (Function.update (late a f.marks) d none) M.order
        (k.data d (slice (a ++ b) m f.p) f.user).1 := by
  obtain ⟨p, hp⟩ := Nat.exists_eq_add_of_le hp
  have hothers : ∀ d' ∈ M.order, Function.update (late a f.marks) d none d' ≠ none →
      beside d d' := by
    intro d' _ hne
    rcases eq_or_ne d' d with rfl | hdd
    · simp at hne
    · rw [Function.update_of_ne hdd] at hne
      exact hb d' (mem_of_late hf hne) hdd
  rw [hp, Nat.add_sub_cancel_left, deliver_data hk hothers]
  rcases lt_or_ge m a.length with hm | hm
  · have hl : late a f.marks d = some (a.drop m) := by simp [late, hd, hm]
    have hne : a.drop m ≠ [] := by simpa using hm
    rw [slice_append_across hm.le, hk.data_append d _ _ hne, Nat.sub_eq_zero_of_le hm.le,
      deliver_eq_update hk h.nodup (h.mem_order d) hl
        fun d' _ hd' hdd ↦ hb d' (mem_of_late hf hd') hdd]
    rw [deliver_data hk hothers]
  · have hl : late a f.marks d = none := by simp [late, hd, hm]
    obtain ⟨m, rfl⟩ := Nat.exists_eq_add_of_le hm
    rw [slice_append_right, Nat.add_sub_cancel_left]
    congr 1
    refine congrArg _ (deliver_congr (fun d' _ ↦ ?_) _)
    rcases eq_or_ne d' d with rfl | hdd
    · rw [hl, Function.update_self]
    · rw [Function.update_of_ne hdd]

/-- **One step** of the second chunk is one of the whole input, moved back. -/
theorem Code.run_back (h : M.Lawful Q beside) (hk : k.Lawful beside) {code : Code C D E R} {n : ℕ}
    (hm : code.Marked M.opens Q beside S) (hfit : code.Fits n) (hf : f.Opens S)
    (hp : a.length ≤ f.p) :
    code.run k b (f.back k M.order a) = (code.run k (a ++ b) f).map (Frame.back k M.order a) := by
  induction code generalizing f S n with
  | next c =>
    simp only [Code.run, Pass.map, Frame.back]
    rw [Nat.sub_add_comm hp]
  | stop r c => rfl
  | mark d rest ih =>
    obtain ⟨hd, hm⟩ := hm
    have hnone : f.marks d = none := by
      by_contra hne
      exact hd ((hf d).mp hne)
    have hlate : Function.update (late a f.marks) d none = late a f.marks :=
      Function.update_eq_self_iff.mpr (late_of_eq_none hnone).symm
    rw [Code.run, Code.run, ← ih hm hfit (hf.mark d f.p) hp]
    simp only [Frame.back]
    rw [map_update, late_update a f.marks d fun m hm ↦ Option.some.inj hm ▸ hp, hlate]
    rfl
  | callback d rest ih =>
    obtain ⟨hb, hm⟩ := hm
    rcases hd : f.marks d with _ | m
    · have hd' : (f.back k M.order a).marks d = none := by simp [Frame.back, hd]
      simp only [Code.run, hd, hd']
      exact ih 0 hm (hfit 0) (hf.erase_of_eq_none hd) hp
    · have hd' : (f.back k M.order a).marks d = some (m - a.length) := by simp [Frame.back, hd]
      simp only [Code.run, hd, hd', hk.quiet]
      rw [← ih 0 hm (hfit 0) (hf.erase d _) hp]
      congr 1
      simp only [Frame.back]
      rw [map_update, late_update a f.marks d (by simp), ← hand_deliver_late h hk hf hd hb hp]
      rfl
  | body l rest ih =>
    obtain ⟨rfl, hm⟩ := hm
    obtain ⟨hl, -, hfit⟩ := hfit
    obtain ⟨p, hp'⟩ := Nat.exists_eq_add_of_le hp
    have hp'' : a.length ≤ f.p + l - 1 := by omega
    rw [Code.run, Code.run, ← ih (f := ⟨f.marks, f.p + l - 1, _⟩) hm hfit hf hp'']
    congr 1
    simp only [Frame.back, deliver_late_of_opens_empty hf]
    rw [hp', Nat.add_sub_cancel_left, Nat.add_assoc,
      slice_append_right]
    congr 1
    omega
  | notify e rest ih =>
    obtain ⟨rfl, hm⟩ := hm
    simp only [Code.run, Frame.back, deliver_late_of_opens_empty hf]
    rw [← ih _ (f := ⟨f.marks, f.p, (k.notify e f.user).1⟩) (hm _) (hfit _) hf hp]
    simp only [Frame.back, deliver_late_of_opens_empty hf]

/-- The frame where a part of a chunk ends. -/
def Pass.frame : Pass C D R σ → Frame D σ
  | .ok _ f | .stopped _ _ f => f

/-- The texts that are open where a part of a chunk ends. -/
def Pass.Opens (opens : C → Finset D) (Q : R → Prop) : Pass C D R σ → Prop
  | .ok c f => f.Opens (opens c)
  | .stopped r _ f => Q r → f.Opens ∅

theorem Code.run_opens {code : Code C D E R} (hk : k.Lawful beside)
    (hm : code.Marked M.opens Q beside S) (hf : f.Opens S) (input : List β) :
    (code.run k input f).Opens M.opens Q := by
  induction code generalizing f S with
  | next c =>
    obtain rfl : S = M.opens c := hm
    exact hf
  | stop r c =>
    intro hr
    obtain rfl := hm hr
    exact hf
  | mark d rest ih =>
    exact ih (f := { f with marks := Function.update f.marks d (some f.p) }) hm.2 (hf.mark d f.p)
  | callback d rest ih =>
    rcases hd : f.marks d with _ | m
    · simp only [Code.run, hd]
      exact ih 0 hm.2 (hf.erase_of_eq_none hd)
    · simp only [Code.run, hd, hk.quiet]
      exact ih 0 (f := ⟨Function.update f.marks d none, f.p, _⟩) hm.2 (hf.erase d _)
  | body l rest ih => exact ih (f := ⟨f.marks, f.p + l - 1, _⟩) hm.2 hf
  | notify e rest ih => exact ih _ (f := ⟨f.marks, f.p, (k.notify e f.user).1⟩) (hm.2 _) hf

theorem Code.le_run {code : Code C D E R} {n : ℕ} (hfit : code.Fits n) (input : List β) :
    f.p ≤ (code.run k input f).frame.p := by
  induction code generalizing f n with
  | next c => exact Nat.le_succ _
  | stop r c => exact le_rfl
  | mark d rest ih =>
    exact ih (f := { f with marks := Function.update f.marks d (some f.p) }) hfit
  | callback d rest ih =>
    rcases hd : f.marks d with _ | m
    · simp only [Code.run, hd]
      exact ih 0 (hfit 0)
    · simp only [Code.run, hd]
      exact ih _ (f := ⟨Function.update f.marks d none, f.p, _⟩) (hfit _)
  | body l rest ih =>
    obtain ⟨hl, -, hfit⟩ := hfit
    exact le_trans (by simp only; omega) (ih (f := ⟨f.marks, f.p + l - 1, _⟩) hfit)
  | notify e rest ih => exact ih _ (f := ⟨f.marks, f.p, (k.notify e f.user).1⟩) (hfit _)

/-- A step that goes on goes forward. -/
theorem Code.lt_run {code : Code C D E R} {n : ℕ} {input : List β} {c : C} {f' : Frame D σ}
    (hfit : code.Fits n) (hrun : code.run k input f = .ok c f') : f.p < f'.p := by
  induction code generalizing f n with
  | next c' =>
    obtain ⟨rfl, rfl⟩ := Pass.ok.inj hrun
    exact Nat.lt_succ_self _
  | stop r c' => cases hrun
  | mark d rest ih =>
    exact ih (f := { f with marks := Function.update f.marks d (some f.p) }) hfit hrun
  | callback d rest ih =>
    rcases hd : f.marks d with _ | m
    · simp only [Code.run, hd] at hrun
      exact ih 0 (hfit 0) hrun
    · simp only [Code.run, hd] at hrun
      exact ih _ (f := ⟨Function.update f.marks d none, f.p, _⟩) (hfit _) hrun
  | body l rest ih =>
    obtain ⟨hl, -, hfit⟩ := hfit
    have hlt := ih (f := ⟨f.marks, f.p + l - 1, _⟩) hfit hrun
    exact lt_of_le_of_lt (by simp only; omega) hlt
  | notify e rest ih =>
    exact ih _ (f := ⟨f.marks, f.p, (k.notify e f.user).1⟩) (hfit _) hrun

theorem Code.run_ok {code : Code C D E R} {n : ℕ} {input : List β} {c : C} {f' : Frame D σ}
    (hk : k.Lawful beside) (hm : code.Marked M.opens Q beside S) (hfit : code.Fits n)
    (hf : f.Opens S) (hrun : code.run k input f = .ok c f') :
    f'.Opens (M.opens c) ∧ f.p < f'.p := by
  refine ⟨?_, Code.lt_run hfit hrun⟩
  have ho := Code.run_opens hk hm hf input
  rwa [hrun] at ho

theorem loop_opens (h : M.Lawful Q beside) (hk : k.Lawful beside) {c : C}
    (hf : f.Opens (M.opens c)) (input : List β) (n : ℕ) :
    (M.loop k input n c f).Opens M.opens Q := by
  induction n generalizing c f with
  | zero => exact hf
  | succ n ih =>
    rw [loop]
    split_ifs with hp
    · have ho := Code.run_opens hk (h.marked c input[f.p] (input.length - f.p)) hf input
      rcases hrun : (M.step c input[f.p] (input.length - f.p)).run k input f with
        ⟨c', f'⟩ | ⟨r, c', f'⟩
      · rw [hrun] at ho
        exact ih ho
      · rwa [hrun] at ho
    · exact hf

theorem le_loop (h : M.Lawful Q beside) (input : List β) (n : ℕ) (c : C) (f : Frame D σ) :
    f.p ≤ (M.loop k input n c f).frame.p := by
  induction n generalizing c f with
  | zero => exact le_rfl
  | succ n ih =>
    rw [loop]
    split_ifs with hp
    · have hle := Code.le_run (k := k) (f := f) (h.fits c input[f.p] (Nat.sub_pos_of_lt hp)) input
      rcases hrun : (M.step c input[f.p] (input.length - f.p)).run k input f with
        ⟨c', f'⟩ | ⟨r, c', f'⟩
      · rw [hrun] at hle
        exact hle.trans (ih c' f')
      · rwa [hrun] at hle
    · exact le_rfl

/-- Enough steps are enough. -/
theorem loop_eq (h : M.Lawful Q beside) (hk : k.Lawful beside) {input : List β} {n n' : ℕ} {c : C}
    (hf : f.Opens (M.opens c)) (hn : input.length ≤ f.p + n) (hn' : input.length ≤ f.p + n') :
    M.loop k input n c f = M.loop k input n' c f := by
  induction n generalizing n' c f with
  | zero =>
    rcases n' with _ | n'
    · rfl
    · rw [loop, loop, dif_neg (by omega)]
  | succ n ih =>
    rw [loop]
    split_ifs with hp
    · rcases n' with _ | n'
      · omega
      · rw [loop, dif_pos hp]
        rcases hrun : (M.step c input[f.p] (input.length - f.p)).run k input f with
          ⟨c', f'⟩ | ⟨r, c', f'⟩
        · obtain ⟨ho, hlt⟩ := Code.run_ok hk (h.marked _ _ _) (h.fits _ _ (by omega)) hf hrun
          exact ih ho (by omega) (by omega)
        · rfl
    · rcases n' with _ | n'
      · rfl
      · rw [loop, dif_neg hp]

/-- **The steps of the second chunk** are those of the whole input, moved back. -/
theorem loop_back (h : M.Lawful Q beside) (hk : k.Lawful beside) {n : ℕ} {c : C}
    (hf : f.Opens (M.opens c)) (hp : a.length ≤ f.p) :
    M.loop k b n c (f.back k M.order a) =
      (M.loop k (a ++ b) n c f).map (Frame.back k M.order a) := by
  induction n generalizing c f with
  | zero => rfl
  | succ n ih =>
    obtain ⟨p, hp'⟩ := Nat.exists_eq_add_of_le hp
    have hback : (f.back k M.order a).p = p := by rw [Frame.back, hp', Nat.add_sub_cancel_left]
    rw [loop, loop]
    by_cases hb : p < b.length
    · have hlt : f.p < (a ++ b).length := by
        rw [List.length_append]
        omega
      have hget : (a ++ b)[f.p] = b[p] := by
        rw [List.getElem_append_right hp]
        simp [hp']
      have hlen : (a ++ b).length - f.p = b.length - p := by
        rw [List.length_append]
        omega
      rw [dif_pos hlt, dif_pos (hback.symm ▸ hb), hget, hlen]
      simp only [hback]
      have hfit := h.fits c b[p] (Nat.sub_pos_of_lt hb)
      rw [Code.run_back h hk (h.marked _ _ _) hfit hf hp]
      rcases hrun : (M.step c b[p] (b.length - p)).run k (a ++ b) f with ⟨c', f'⟩ | ⟨r, c', f'⟩
      · obtain ⟨ho, hlt'⟩ := Code.run_ok hk (h.marked _ _ _) hfit hf hrun
        exact ih ho (by omega)
      · rfl
    · have hge : ¬ f.p < (a ++ b).length := by
        rw [List.length_append]
        omega
      rw [dif_neg hge, dif_neg (hback.symm ▸ hb)]
      rfl

/-! ## The first chunk -/

/-- The frame is in the first chunk, with its marks at or before it. -/
structure Frame.Inside (f : Frame D σ) (n : ℕ) : Prop where
  le : f.p ≤ n
  marks_lt {d : D} {m : ℕ} : f.marks d = some m → m < n

theorem Frame.Inside.update {n : ℕ} (hf : f.Inside n) (d : D) {o : Option ℕ}
    (ho : ∀ m, o = some m → m < n) (u : σ) :
    Frame.Inside ⟨Function.update f.marks d o, f.p, u⟩ n := by
  refine ⟨hf.le, fun {d' m} hm ↦ ?_⟩
  replace hm : Function.update f.marks d o d' = some m := hm
  rcases eq_or_ne d' d with rfl | hne
  · rw [Function.update_self] at hm
    exact ho m hm
  · rw [Function.update_of_ne hne] at hm
    exact hf.marks_lt hm

/-- While it fits into the first chunk, a step is the same with more input behind. -/
theorem Code.run_append {code : Code C D E R} (hlt : f.p < a.length)
    (hfit : code.Fits (a.length - f.p)) (b : List β) :
    code.run k (a ++ b) f = code.run k a f := by
  induction code generalizing f with
  | next c => rfl
  | stop r c => rfl
  | mark d rest ih => exact ih (f := { f with marks := _ }) hlt hfit
  | callback d rest ih =>
    rcases hd : f.marks d with _ | m
    · simp only [Code.run, hd]
      exact ih 0 hlt (hfit 0)
    · simp only [Code.run, hd, slice_append_of_le hlt.le]
      exact ih _ (f := ⟨Function.update f.marks d none, f.p, _⟩) hlt (hfit _)
  | body l rest ih =>
    obtain ⟨hl, hle, hfit⟩ := hfit
    have hslice : slice (a ++ b) f.p (f.p + l) = slice a f.p (f.p + l) :=
      slice_append_of_le (by omega) b
    rw [Code.run, Code.run, hslice]
    refine ih (f := ⟨f.marks, f.p + l - 1, _⟩) (by simp only; omega) ?_
    have hsub : a.length - (f.p + l - 1) = a.length - f.p - (l - 1) := by omega
    simpa only [hsub] using hfit
  | notify e rest ih =>
    exact ih _ (f := ⟨f.marks, f.p, (k.notify e f.user).1⟩) hlt (hfit _)

theorem Code.run_inside {code : Code C D E R} {c : C} {f' : Frame D σ} (hf : f.Inside a.length)
    (hlt : f.p < a.length) (hfit : code.Fits (a.length - f.p)) {input : List β}
    (hrun : code.run k input f = .ok c f') : f'.Inside a.length := by
  induction code generalizing f with
  | next c' =>
    obtain ⟨rfl, rfl⟩ := Pass.ok.inj hrun
    exact ⟨hlt, hf.marks_lt⟩
  | stop r c' => cases hrun
  | mark d rest ih =>
    have hin := hf.update d (fun m hm ↦ Option.some.inj hm ▸ hlt) f.user
    exact ih hin hlt hfit hrun
  | callback d rest ih =>
    rcases hd : f.marks d with _ | m
    · simp only [Code.run, hd] at hrun
      exact ih 0 hf hlt (hfit 0) hrun
    · simp only [Code.run, hd] at hrun
      have hin := hf.update d (o := none) (by simp) (k.data d (slice input m f.p) f.user).1
      exact ih _ hin hlt (hfit _) hrun
  | body l rest ih =>
    obtain ⟨hl, hle, hfit⟩ := hfit
    have hlt' : f.p + l - 1 < a.length := by omega
    refine ih (f := ⟨f.marks, f.p + l - 1, _⟩) ⟨hlt'.le, hf.marks_lt⟩ hlt' ?_ hrun
    have hsub : a.length - (f.p + l - 1) = a.length - f.p - (l - 1) := by omega
    simpa only [hsub] using hfit
  | notify e rest ih =>
    exact ih _ (f := ⟨f.marks, f.p, (k.notify e f.user).1⟩) ⟨hf.le, hf.marks_lt⟩ hlt (hfit _) hrun

/-- What the end of the first chunk hands over, as the end of a frame at its end. -/
theorem run_flush (h : M.Lawful Q beside) (hk : k.Lawful beside) (input : List β) (c : C)
    (f : Frame D σ) : (((M.flush c).run k input f).outcome : Outcome C R σ) =
      .ok c (deliver k (fun d ↦ (f.marks d).map (slice input · f.p)) M.order f.user) := by
  rw [flush]
  have hnd := h.nodup
  generalize M.order = ds at hnd ⊢
  induction ds generalizing f with
  | nil => rfl
  | cons d ds ih =>
    obtain ⟨hd, hnd⟩ := List.nodup_cons.mp hnd
    rw [List.foldr_cons, deliver]
    rcases hm : f.marks d with _ | m
    · simp only [Code.run, hm]
      exact ih f hnd
    · simp only [Code.run, hm, hk.quiet, if_true]
      rw [ih _ hnd]
      refine congrArg _ (deliver_congr (fun d' hd' ↦ ?_) _)
      simp only [Function.update_of_ne (ne_of_mem_of_not_mem hd' hd)]

/-! ## Two chunks -/

/-- How the steps of a first chunk are related to those of the whole input. -/
def Splits (M : Scanner β C D E R) (k : Consumer β D E σ) (a b : List β) (whole : Pass C D R σ) :
    Pass C D R σ → Prop
  | .stopped r c f => whole = .stopped r c f
  | .ok c f => f.p = a.length ∧ f.Inside a.length ∧ f.Opens (M.opens c) ∧
      a.length ≤ whole.frame.p ∧
      M.loop k b b.length c (f.back k M.order a) = whole.map (Frame.back k M.order a)

/-- A body that goes on in the second chunk. -/
theorem run_body_back (h : M.Lawful Q beside) (hk : k.Lawful beside) {rest : Code C D E R} {l : ℕ}
    (hf : f.Opens ∅) (hlt : f.p < a.length)
    (hm : (Code.body (a.length - f.p + l) rest).Marked M.opens Q beside ∅)
    (hfit : (Code.body (a.length - f.p + l) rest).Fits (a.length - f.p + b.length)) (hl : 0 < l) :
    (Code.body l rest).run k b (Frame.back k M.order a
        ⟨f.marks, a.length, (k.body (slice a f.p a.length) f.user).1⟩) =
      ((Code.body (a.length - f.p + l) rest).run k (a ++ b) f).map (Frame.back k M.order a) := by
  obtain ⟨-, -, hfit⟩ := hfit
  obtain ⟨-, hm⟩ := hm
  have hp : f.p + (a.length - f.p + l) = a.length + l := by omega
  have hne : a.drop f.p ≠ [] := by simpa using hlt
  have hfirst : slice a f.p a.length = a.drop f.p := by
    rw [slice, List.take_of_length_le (by rw [List.length_drop])]
  have hf' : Frame.Opens ⟨f.marks, a.length + l - 1,
    (k.body (a.drop f.p ++ slice b 0 l) f.user).1⟩ ∅ := hf
  rw [Code.run, Code.run, hp, slice_append_across hlt.le,
    ← Code.run_back h hk hm hfit hf' (by simp only; omega)]
  congr 1
  simp only [Frame.back, deliver_late_of_opens_empty hf, hfirst, Nat.sub_self, Nat.zero_add]
  rw [hk.body_append _ _ hne]
  congr 1
  omega

/-- The step that reads the end of the first chunk as a part of a body. -/
theorem splits_of_clipped (h : M.Lawful Q beside) (hk : k.Lawful beside) (hb : b ≠ []) {n n' : ℕ}
    {c c' : C} (hf : f.Inside a.length) (ho : f.Opens (M.opens c)) (hp : f.p < a.length)
    (hn' : a.length + b.length ≤ f.p + n' + 1)
    (hbody : M.step c a[f.p] (a.length - f.p) = .body (a.length - f.p) (.next c'))
    (hrest : ∀ b', ∃ l rest, 0 < l ∧ M.step c' b' b.length = .body l rest ∧
      M.step c a[f.p] (a.length - f.p + b.length) = .body (a.length - f.p + l) rest) :
    Splits M k a b
      (match (M.step c a[f.p] (a.length - f.p + b.length)).run k (a ++ b) f with
        | .ok c' f' => M.loop k (a ++ b) n' c' f'
        | .stopped r c' f' => .stopped r c' f')
      (match (M.step c a[f.p] (a.length - f.p)).run k a f with
        | .ok c' f' => M.loop k a n c' f'
        | .stopped r c' f' => .stopped r c' f') := by
  have hb' := List.length_pos_iff.mpr hb
  obtain ⟨l, rest, hl, hstep, hwhole⟩ := hrest b[0]
  have hmarked := h.marked c a[f.p] (a.length - f.p + b.length)
  have hfit := h.fits c a[f.p] (Nat.lt_add_right b.length (Nat.sub_pos_of_lt hp))
  obtain ⟨hempty, hopens⟩ := hbody ▸ h.marked c a[f.p] (a.length - f.p)
  rw [hwhole] at hmarked hfit ⊢
  have hf' : f.Opens ∅ := hempty ▸ ho
  set u := (k.body (slice a f.p a.length) f.user).1 with hu
  have hfirst : (M.step c a[f.p] (a.length - f.p)).run k a f = .ok c' ⟨f.marks, a.length, u⟩ := by
    rw [hbody, Code.run, Code.run, show f.p + (a.length - f.p) = a.length by omega,
      Nat.sub_add_cancel (by omega)]
  have hloop : M.loop k a n c' ⟨f.marks, a.length, u⟩ = .ok c' ⟨f.marks, a.length, u⟩ := by
    rcases n with _ | n
    · rfl
    · rw [loop, dif_neg (lt_irrefl _)]
  rw [hfirst]
  simp only [hloop]
  obtain ⟨j, hj⟩ := Nat.exists_eq_succ_of_ne_zero hb'.ne'
  have hpos : (Frame.back k M.order a ⟨f.marks, a.length, u⟩).p < b.length := by
    simpa [Frame.back] using hb'
  have hzero : (Frame.back k M.order a ⟨f.marks, a.length, u⟩).p = 0 := Nat.sub_self _
  have hle : a.length ≤ ((Code.body (a.length - f.p + l) rest).run k (a ++ b) f).frame.p := by
    have hle := Code.le_run (k := k) (f := ⟨f.marks, f.p + (a.length - f.p + l) - 1,
      (k.body (slice (a ++ b) f.p (f.p + (a.length - f.p + l))) f.user).1⟩) hfit.2.2 (a ++ b)
    exact le_trans (by simp only; omega) hle
  refine ⟨rfl, ⟨le_rfl, hf.marks_lt⟩, hopens ▸ ho, ?_⟩
  rw [hj, Nat.succ_eq_add_one, loop, dif_pos hpos]
  simp only [hzero, Nat.sub_zero, hstep]
  rw [hu, run_body_back h hk hf' hp (hempty ▸ hmarked) hfit hl]
  rcases hrun : (Code.body (a.length - f.p + l) rest).run k (a ++ b) f with ⟨c₂, f₂⟩ | ⟨r, c₂, f₂⟩
  · have ho₂ := (Code.run_ok hk hmarked hfit ho hrun).1
    rw [hrun] at hle
    simp only [Pass.map]
    refine ⟨hle.trans (le_loop h _ _ _ _), ?_⟩
    rw [loop_back h hk ho₂ hle]
    congr 1
    have hlt := Code.lt_run hfit hrun
    have hlt' := Code.lt_run (f := ⟨f.marks, f.p + (a.length - f.p + l) - 1, _⟩) hfit.2.2 hrun
    simp only at hlt'
    refine loop_eq h hk ho₂ ?_ ?_ <;> rw [List.length_append] <;> omega
  · rw [hrun] at hle
    exact ⟨hle, rfl⟩

theorem loop_splits (h : M.Lawful Q beside) (hk : k.Lawful beside) (hb : b ≠ []) (n n' : ℕ) {c : C}
    (hf : f.Inside a.length) (ho : f.Opens (M.opens c)) (hn : a.length ≤ f.p + n)
    (hn' : (a ++ b).length ≤ f.p + n') :
    Splits M k a b (M.loop k (a ++ b) n' c f) (M.loop k a n c f) := by
  have hb' := List.length_pos_iff.mpr hb
  rw [List.length_append] at hn'
  -- At the end of the first chunk the rest of the whole run is that of the second chunk.
  have hend : ∀ {n' : ℕ} {c : C} {f : Frame D σ}, f.Inside a.length → f.Opens (M.opens c) →
      f.p = a.length → a.length + b.length ≤ f.p + n' →
        Splits M k a b (M.loop k (a ++ b) n' c f) (.ok c f) := by
    intro n' c f hf ho hp hn'
    refine ⟨hp, hf, ho, hp ▸ le_loop h _ _ _ _, ?_⟩
    rw [loop_back h hk ho hp.ge]
    congr 1
    refine loop_eq h hk ho ?_ ?_ <;> rw [List.length_append] <;> omega
  induction n generalizing n' c f with
  | zero => exact hend hf ho (le_antisymm hf.le (by omega)) hn'
  | succ n ih =>
    rw [loop]
    split_ifs with hp
    · obtain ⟨n', rfl⟩ := Nat.exists_eq_add_of_lt (show 0 < n' by omega)
      have hlt : f.p < (a ++ b).length := by
        rw [List.length_append]
        omega
      have hget : (a ++ b)[f.p] = a[f.p] := List.getElem_append_left hp
      have hlen : (a ++ b).length - f.p = a.length - f.p + b.length := by
        rw [List.length_append]
        omega
      have hfit := h.fits c a[f.p] (Nat.sub_pos_of_lt hp)
      have hwhole := h.fits c a[f.p] (Nat.lt_add_right b.length (Nat.sub_pos_of_lt hp))
      rw [Nat.zero_add, loop, dif_pos hlt, hget, hlen]
      rcases h.clips c a[f.p] (Nat.sub_pos_of_lt hp) hb' with heq | ⟨c', hbody, hrest⟩
      · rw [heq, Code.run_append hp hfit]
        rcases hrun : (M.step c a[f.p] (a.length - f.p)).run k a f with ⟨c', f'⟩ | ⟨r, c', f'⟩
        · obtain ⟨ho', hlt'⟩ := Code.run_ok hk (h.marked _ _ _) hfit ho hrun
          exact ih _ (Code.run_inside hf hp hfit hrun) ho' (by omega) (by omega)
        · rfl
      · exact splits_of_clipped h hk hb hf ho hp (by omega) hbody hrest
    · exact hend hf ho (le_antisymm hf.le (by omega)) hn'

/-- At its end, a frame of the whole input has handed over what the two chunks have. -/
theorem deliver_back (h : M.Lawful Q beside) (hk : k.Lawful beside) {c : C}
    (ho : f.Opens (M.opens c)) (hp : a.length ≤ f.p) :
    deliver k (fun d ↦ ((f.back k M.order a).marks d).map (slice b · (f.back k M.order a).p))
        M.order (f.back k M.order a).user =
      deliver k (fun d ↦ (f.marks d).map (slice (a ++ b) · f.p)) M.order f.user := by
  obtain ⟨p, hp⟩ := Nat.exists_eq_add_of_le hp
  refine deliver_deliver hk (fun d _ d' _ hne hd hd' ↦ ?_) h.nodup (fun d _ u ↦ ?_) f.user
  · refine h.beside_of_opens ((ho d).mp fun hn ↦ hd ?_) (mem_of_late ho hd') hne
    simp [Frame.back, hn]
  · rcases hd : f.marks d with _ | m
    · simp [Frame.back, late, hd, Consumer.hand]
    · rcases lt_or_ge m a.length with hm | hm
      · have hne : a.drop m ≠ [] := by simpa using hm
        simp [Frame.back, late, hd, hm, Consumer.hand, hp, slice_append_across hm.le,
          hk.data_append d _ _ hne, Nat.sub_eq_zero_of_le hm.le]
      · obtain ⟨m, rfl⟩ := Nat.exists_eq_add_of_le hm
        have hnot : ¬ a.length + m < a.length := by omega
        simp [Frame.back, late, hd, hnot, Consumer.hand, hp, slice_append_right]

theorem start_inside (c : C) (u : σ) (ha : a ≠ []) : (M.start c u).Inside a.length := by
  refine ⟨Nat.zero_le _, fun {d m} hm ↦ ?_⟩
  simp only [start] at hm
  split_ifs at hm
  exact Option.some.inj hm ▸ List.length_pos_iff.mpr ha

theorem start_opens (c : C) (u : σ) : (M.start c u).Opens (M.opens c) := by
  intro d
  simp [start]

/-- The second chunk begins where the first one has ended. -/
theorem back_eq_start {c : C} (hp : f.p = a.length) (hf : f.Inside a.length)
    (ho : f.Opens (M.opens c)) :
    f.back k M.order a =
      M.start c (deliver k (fun d ↦ (f.marks d).map (slice a · f.p)) M.order f.user) := by
  have hmarks : (fun d ↦ (f.marks d).map (· - a.length)) =
      fun d ↦ if d ∈ M.opens c then some 0 else none := by
    funext d
    rcases hd : f.marks d with _ | m
    · rw [if_neg fun hm ↦ (ho d).mpr hm hd]
      rfl
    · rw [if_pos ((ho d).mp (by simp [hd])), Option.map_some,
        Nat.sub_eq_zero_of_le (hf.marks_lt hd).le]
  rw [Frame.back, start, hmarks, hp, Nat.sub_self]
  congr 1
  refine deliver_congr (fun d _ ↦ ?_) _
  rcases hd : f.marks d with _ | m
  · simp [late, hd]
  · have hlen : a.length - m = (a.drop m).length := by rw [List.length_drop]
    simp only [late, hd, Option.bind_some, if_pos (hf.marks_lt hd), Option.map_some, slice, hlen,
      List.take_length]

/-- **Two chunks** are the same as both at once. -/
theorem same_execute_append (h : M.Lawful Q beside) (hk : k.Lawful beside) (ha : a ≠ [])
    (hb : b ≠ []) (c : C) (u : σ) :
    (M.execute k (a ++ b) c u).Same Q
      ((M.execute k a c u).andThen a.length (M.execute k b)) := by
  have hs := loop_splits h hk hb a.length (a ++ b).length
    (start_inside c u ha) (start_opens (M := M) c u) (by simp [start]) (by simp [start])
  rw [execute, execute]
  rcases hloop : M.loop k a a.length c (M.start c u) with ⟨c', f⟩ | ⟨r, c', f⟩
  · rw [hloop] at hs
    obtain ⟨hp, hf, ho, hle, hback⟩ := hs
    have hends := loop_opens h hk (start_opens (M := M) c u) (a ++ b) (a ++ b).length
    simp only
    rw [run_flush h hk, Outcome.andThen, execute, ← back_eq_start hp hf ho, hback]
    rcases hwhole : M.loop k (a ++ b) (a ++ b).length c (M.start c u) with
      ⟨c₂, f₂⟩ | ⟨r, c₂, f₂⟩
    · rw [hwhole] at hle hends
      simp only [Pass.map]
      rw [run_flush h hk, run_flush h hk, deliver_back h hk hends hle]
      exact .ok _ _
    · rw [hwhole] at hle hends
      have hp₂ : a.length + (f₂.back k M.order a).p = f₂.p := Nat.add_sub_cancel' hle
      simp only [Pass.map, Outcome.add, hp₂]
      refine .stopped r c₂ f₂.p fun hr ↦ ?_
      exact (deliver_late_of_opens_empty (hends hr) _ _).symm
  · rw [hloop] at hs
    rw [hs]
    exact .stopped r c' f.p fun _ ↦ rfl

/-! ## Where a scanner stops -/

theorem Code.lt_of_stopped {code : Code C D E R} {n : ℕ} {input : List β} {r : R} {c : C}
    {f' : Frame D σ} (hfit : code.Fits n) (hn : 0 < n)
    (hrun : code.run k input f = .stopped r c f') :
    f'.p < f.p + n := by
  induction code generalizing f n with
  | next c' => cases hrun
  | stop r' c' =>
    obtain ⟨-, -, rfl⟩ := Pass.stopped.inj hrun
    exact Nat.lt_add_of_pos_right hn
  | mark d rest ih =>
    exact ih (f := { f with marks := Function.update f.marks d (some f.p) }) hfit hn hrun
  | callback d rest ih =>
    rcases hd : f.marks d with _ | m
    · simp only [Code.run, hd] at hrun
      exact ih 0 (hfit 0) hn hrun
    · simp only [Code.run, hd] at hrun
      exact ih _ (f := ⟨Function.update f.marks d none, f.p, _⟩) (hfit _) hn hrun
  | body l rest ih =>
    obtain ⟨hl, hle, hfit⟩ := hfit
    have hlt := ih (f := ⟨f.marks, f.p + l - 1, _⟩) hfit (by omega) hrun
    simp only at hlt
    omega
  | notify e rest ih =>
    exact ih _ (f := ⟨f.marks, f.p, (k.notify e f.user).1⟩) (hfit _) hn hrun

/-- A scanner stops at a byte of the chunk. -/
theorem lt_of_execute_stopped (h : M.Lawful Q beside) (hk : k.Lawful beside) {input : List β}
    {c c' : C} {u u' : σ} {r : R} {p : ℕ} (hrun : M.execute k input c u = .stopped r c' p u') :
    p < input.length := by
  have hloop : ∀ n c (f f' : Frame D σ), M.loop k input n c f = .stopped r c' f' →
      f'.p < input.length := by
    intro n
    induction n with
    | zero => exact fun _ _ _ hrun ↦ by cases hrun
    | succ n ih =>
      intro c f f' hrun
      rw [loop] at hrun
      split_ifs at hrun with hp
      · rcases hs : (M.step c input[f.p] (input.length - f.p)).run k input f with
          ⟨c₁, f₁⟩ | ⟨r₁, c₁, f₁⟩ <;> rw [hs] at hrun
        · exact ih c₁ f₁ f' hrun
        · obtain ⟨rfl, rfl, rfl⟩ := Pass.stopped.inj hrun
          have hfit := h.fits c input[f.p] (Nat.sub_pos_of_lt hp)
          have hlt := Code.lt_of_stopped hfit (Nat.sub_pos_of_lt hp) hs
          omega
  rw [execute] at hrun
  rcases hl : M.loop k input input.length c (M.start c u) with ⟨c₁, f₁⟩ | ⟨r₁, c₁, f₁⟩ <;>
    rw [hl] at hrun
  · simp only at hrun
    rw [run_flush h hk] at hrun
    cases hrun
  · obtain ⟨rfl, rfl, rfl, rfl⟩ := Outcome.stopped.inj hrun
    exact hloop _ _ _ _ hl

/-! ## Any number of chunks -/

namespace Outcome

variable {o o' o'' : Outcome C R σ}

theorem Same.refl (o : Outcome C R σ) : o.Same Q o := by
  rcases o with ⟨c, u⟩ | ⟨r, c, p, u⟩
  · exact .ok c u
  · exact .stopped r c p fun _ ↦ rfl

theorem Same.symm (h : o.Same Q o') : o'.Same Q o := by
  induction h with
  | ok c u => exact .ok c u
  | stopped r c p hu => exact .stopped r c p fun hr ↦ (hu hr).symm

theorem Same.trans (h : o.Same Q o') (h' : o'.Same Q o'') : o.Same Q o'' := by
  induction h with
  | ok c u => exact h'
  | stopped r c p hu =>
    rcases h' with _ | ⟨_, _, _, hu'⟩
    exact .stopped r c p fun hr ↦ (hu hr).trans (hu' hr)

theorem Same.add (h : o.Same Q o') (n : ℕ) : (o.add n).Same Q (o'.add n) := by
  induction h with
  | ok c u => exact .ok c u
  | stopped r c p hu => exact .stopped r c (n + p) hu

theorem Same.andThen {f g : C → σ → Outcome C R σ} (h : ∀ c u, (f c u).Same Q (g c u)) (n : ℕ) :
    (o.andThen n f).Same Q (o.andThen n g) := by
  rcases o with ⟨c, u⟩ | ⟨r, c, p, u⟩
  · exact (h c u).add n
  · exact Same.refl _

theorem andThen_ok (o : Outcome C R σ) (n : ℕ) : o.andThen n .ok = o := by
  rcases o with ⟨c, u⟩ | ⟨r, c, p, u⟩ <;> rfl

end Outcome

/-- **Chunks** that are not empty are the same as all of them at once. -/
theorem same_feed (h : M.Lawful Q beside) (hk : k.Lawful beside) {chunks : List (List β)}
    (hne : chunks ≠ []) (hall : ∀ x ∈ chunks, x ≠ []) (c : C) (u : σ) :
    (M.execute k chunks.flatten c u).Same Q (M.feed k chunks c u) := by
  induction chunks generalizing c u with
  | nil => exact absurd rfl hne
  | cons x xs ih =>
    rcases eq_or_ne xs [] with rfl | hxs
    · have hone : (fun c u ↦ M.feed k [] c u) = Outcome.ok := rfl
      rw [List.flatten_cons, List.flatten_nil, List.append_nil, feed]
      exact (Outcome.andThen_ok _ _).symm ▸ Outcome.Same.refl _
    · have hrest : xs.flatten ≠ [] := by
        obtain ⟨y, ys, rfl⟩ := List.exists_cons_of_ne_nil hxs
        intro hnil
        exact hall y (by simp) (List.append_eq_nil_iff.mp hnil).1
      rw [List.flatten_cons, feed]
      refine (same_execute_append h hk (hall x (by simp)) hrest c u).trans ?_
      exact Outcome.Same.andThen (fun c u ↦ ih hxs (fun y hy ↦ hall y (by simp [hy])) c u) _

/-- Two ways of cutting the same input. -/
theorem same_feed_feed (h : M.Lawful Q beside) (hk : k.Lawful beside)
    {chunks chunks' : List (List β)} (hall : ∀ x ∈ chunks, x ≠ []) (hall' : ∀ x ∈ chunks', x ≠ [])
    (heq : chunks.flatten = chunks'.flatten) (c : C) (u : σ) :
    (M.feed k chunks c u).Same Q (M.feed k chunks' c u) := by
  have hnil : ∀ {l : List (List β)}, (∀ x ∈ l, x ≠ []) → l.flatten = [] → l = [] := by
    intro l hl hf
    rcases l with _ | ⟨x, xs⟩
    · rfl
    · exact absurd (List.append_eq_nil_iff.mp hf).1 (hl x (by simp))
  rcases eq_or_ne chunks [] with rfl | hne
  · rw [hnil hall' heq.symm]
    exact Outcome.Same.refl _
  · rcases eq_or_ne chunks' [] with rfl | hne'
    · exact absurd (hnil hall heq) hne
    · exact (same_feed h hk hne hall c u).symm.trans (heq ▸ same_feed h hk hne' hall' c u)

/-- Of an input that is taken to its end it does not matter how it is cut. -/
theorem feed_of_flatten_eq (h : M.Lawful Q beside) (hk : k.Lawful beside)
    {chunks chunks' : List (List β)} (hall : ∀ x ∈ chunks, x ≠ []) (hall' : ∀ x ∈ chunks', x ≠ [])
    (heq : chunks.flatten = chunks'.flatten) {c c' : C} {u u' : σ}
    (hfeed : M.feed k chunks c u = .ok c' u') : M.feed k chunks' c u = .ok c' u' := by
  have hsame := same_feed_feed h hk hall hall' heq c u
  rw [hfeed] at hsame
  generalize M.feed k chunks' c u = o at hsame ⊢
  rcases hsame with _ | _
  rfl

/-- A chunk, unless it is empty. -/
def pieces (x : List β) : List (List β) := if x = [] then [] else [x]

theorem flatten_pieces (x : List β) : (pieces x).flatten = x := by
  unfold pieces
  split_ifs with hx
  · exact hx.symm
  · simp

theorem ne_nil_of_mem_pieces {x y : List β} (h : y ∈ pieces x) : y ≠ [] := by
  unfold pieces at h
  split_ifs at h with hx
  · cases h
  · rwa [List.mem_singleton.mp h]

/-- Stopping in the rest of a chunk. -/
theorem execute_append_of_stopped (h : M.Lawful Q beside) (hk : k.Lawful beside) {a b : List β}
    (hb : b ≠ []) {c c' c'' : C} {u u₁ u' : σ} (ha : M.feed k (pieces a) c u = .ok c' u₁) {r : R}
    (hq : Q r) {p : ℕ} (hstop : M.execute k b c' u₁ = .stopped r c'' p u') :
    M.execute k (a ++ b) c u = .stopped r c'' (a.length + p) u' := by
  unfold pieces at ha
  -- An empty part is no chunk, and then the rest is the whole chunk.
  split_ifs at ha with hnil
  · cases ha
    rw [hnil, List.nil_append, List.length_nil, Nat.zero_add]
    exact hstop
  · have hsame := same_execute_append h hk hnil hb c u
    rw [feed_singleton_eq_ok.mp ha, Outcome.andThen, hstop] at hsame
    generalize M.execute k (a ++ b) c u = o at hsame ⊢
    rcases hsame with _ | ⟨_, _, _, hu⟩
    rw [hu hq]

end Scanner
