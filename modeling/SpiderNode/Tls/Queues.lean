import SpiderNode.Tls.Locks
import Mathlib.Data.List.Flatten

/-!
# The input queues of a `SecurePair`

`_pull` takes a buffer out of `_pending` before it offers it to the connection, and puts it back in
front if it is refused. The listeners of `'secure'` run in between, and may write more. The lock of
the stage keeps every other call of `_cycle` from taking a buffer meanwhile.

What is written is lost if `write` throws before it has put it there, which it does for cleartext
that has no text. `Move` says what a step can do to a pair without errors on which only `write`,
`pause` and `resume` are called, as long as all cleartext has a text; and `lossless` that each
stream then is a queue. A buffer that is refused while the listeners of `'secure'` run is `inHand`,
between the ones that are taken and the rest.
-/

namespace SpiderNode.Tls

open Function (update)

theorem Side.pull_ne_push (x y : Side) : x.pull ≠ y.push := by cases x <;> cases y <;> decide

theorem Side.pull_injective {x y : Side} (h : x.pull = y.pull) : x = y := by
  cases x <;> cases y <;> first | rfl | cases h

/-- A place that is reached without errors and ends. -/
def Place.Quiet {κ : Type*} : Place κ → Prop
  | .pull _ _ (.secure b _ rv) | .pull _ _ (.answered b _ rv) =>
    b ≠ [] ∧ (rv = b.length ∨ rv ≤ 0)
  | .pull _ _ (.callback whole) => whole = true
  | .pull _ _ .closing | .pull _ _ .error | .push _ .error => False
  | _ => True

/-- A write that `_pull` has taken from `_pending` and that was refused, before it is put back. -/
def Frame.inHand {κ : Type*} (x : Side) : Frame κ → List (Bytes × Option κ)
  | .cycle _ _ (.pull y _ (.secure b cb rv)) | .cycle _ _ (.pull y _ (.answered b cb rv)) =>
    if y = x ∧ rv ≤ 0 then [(b, cb)] else []
  | _ => []

/-- The callback of a write that was accepted, before it is called. -/
def Frame.due {κ : Type*} (x : Side) : Frame κ → List κ
  | .cycle _ _ (.pull y _ (.secure _ cb rv)) | .cycle _ _ (.pull y _ (.answered _ cb rv)) =>
    if y = x ∧ 0 < rv then cb.toList else []
  | _ => []

namespace SecurePair

variable {κ : Type*} {s : SecurePair κ}

/-- The buffer that `_pull` is about to take from `_pending`. -/
def offered (s : SecurePair κ) : Option Bytes :=
  match s.stack with
  | .cycle _ _ (.pull x _ .loop) :: _ =>
    match (s.stream x).pending with
    | .data b :: _ => some b
    | _ => none
  | _ => none

/-- The chunk of cleartext that `_push` is about to emit. -/
def emitted (s : SecurePair κ) : Option Bytes :=
  match s.stack with
  | .cycle _ _ (.push .cleartext (.counted chunk chunkBytes)) :: _ =>
    if 0 < chunkBytes ∧ chunk.length < 4096 then none else some chunk
  | _ => none

/-- The program writes, pauses, resumes and returns, and OpenSSL has no errors and accepts all of a
buffer or nothing. -/
def Undisturbed (s : SecurePair κ) : Event κ → Prop
  | .write .. | .pause _ | .resume _ | .returns => True
  | .start a => a.error = none
  | .go a => a.error = none ∧ ∀ b ∈ s.offered, a.rv = b.length ∨ a.rv ≤ 0
  | .end .. | .destroy | .throws => False

/-- The cleartext that goes in or out has a text. -/
def HasTexts (s : SecurePair κ) : Event κ → Prop
  | .write x data _ => x = .cleartext → data.hasText = true
  | .go _ => ∀ chunk ∈ s.emitted, (Data.ofBytes chunk).hasText = true
  | _ => True

def Plain (s : SecurePair κ) (ev : Event κ) : Prop := s.Undisturbed ev ∧ s.HasTexts ev

/-- What holds as long as there are no errors and no ends. -/
structure Quiet (s : SecurePair κ) : Prop where
  ssl : s.ssl = some none
  done : s.done = false
  escaped : s.escaped = []
  writable : ∀ x, (s.stream x).writable = true
  destroyAfterPush : ∀ x, (s.stream x).destroyAfterPush = false
  aligned : ∀ x, ∃ rest : List (Bytes × Option κ),
    (s.stream x).pending = rest.map (fun w ↦ .data w.1) ∧
      (s.stream x).pendingCallbacks = rest.map (·.2)
  places : ∀ f ∈ s.stack, ∃ depth established p, f = .cycle depth established p ∧ p.Quiet

/-- Two states of a pair with the same streams, locks and calls. -/
structure Alike (t s : SecurePair κ) : Prop where
  ssl : t.ssl = s.ssl
  done : t.done = s.done
  stream : t.stream = s.stream
  lock : t.lock = s.lock
  stack : t.stack = s.stack
  escaped : t.escaped = s.escaped

/-- What a step can do. The stack before it ends with `below`. -/
inductive Move (s : SecurePair κ) (ev : Event κ) : SecurePair κ → Prop
  | pause (x : Side) : Move s ev (s.pause x)
  | write {x data b cb} (hev : ev = .write x data cb) (hdata : data.toBuffer = .ok b) :
      Move s ev ((s.fresh.enqueue x b cb).cycle 0)
  /-- There is no buffer of a string. -/
  | unmade : Move s ev s
  | resume (x : Side) : Move s ev (s.fresh.resume x)
  | start {t : SecurePair κ} (ht : t.Alike s.fresh) : Move s ev (t.cycle 0)
  /-- A stage is locked. -/
  | skip {depth established k below} (hs : s.stack = .cycle depth established (.before k) :: below)
      (hlock : s.lock k = true) : Move s ev (s.goto depth established below k.after)
  | enter {depth established k below}
      (hs : s.stack = .cycle depth established (.before k) :: below) (hlock : s.lock k = false) :
      Move s ev (SecurePair.goto { s with lock := update s.lock k true } depth established below
        (s.entrance k))
  | drain {depth established x below}
      (hs : s.stack = .cycle depth established (.pull x true .loop) :: below)
      (hpending : (s.stream x).pending = []) :
      Move s ev (s.goto depth established below (.pull x true .drain))
  | leave {depth established p k below} (hs : s.stack = .cycle depth established p :: below)
      (hstage : p.stage = some k)
      (hpull : ∀ x, k = x.pull → (∃ havePending, p = .pull x havePending .drain) ∨
        (s.stream x).pending = [] ∧ ∃ havePending, p = .pull x havePending .loop) :
      Move s ev (s.leave depth established below k)
  /-- `_pull` takes an empty buffer. -/
  | empty {depth established x havePending below pending}
      (hs : s.stack = .cycle depth established (.pull x havePending .loop) :: below)
      (hpending : (s.stream x).pending = .data [] :: pending) :
      Move s ev ((s.shift x).goto depth established below (.pull x havePending .loop))
  | offer {t : SecurePair κ} {depth established x havePending below b pending} {a : Answer}
      {p : PullAt κ}
      (hs : s.stack = .cycle depth established (.pull x havePending .loop) :: below)
      (hpending : (s.stream x).pending = .data b :: pending) (hb : b ≠ [])
      (ha : a.error = none) (hrv : a.rv = b.length ∨ a.rv ≤ 0)
      (ht : t.Alike ((s.shift x).offer a x b (s.stream x).pendingCallbacks.head?.join))
      (hp : p = .secure b (s.stream x).pendingCallbacks.head?.join a.rv ∨
        p = .answered b (s.stream x).pendingCallbacks.head?.join a.rv) :
      Move s ev (t.goto depth established below (.pull x havePending p))
  | refused {depth established x havePending b cb rv below}
      (hs : s.stack = .cycle depth established (.pull x havePending (.answered b cb rv)) :: below)
      (hrv : rv ≤ 0) : Move s ev ((s.unshift x b cb).leave depth established below x.pull)
  | called {depth established x havePending b rv below} {f : κ}
      (hs : s.stack =
        .cycle depth established (.pull x havePending (.answered b (some f) rv)) :: below)
      (hrv : 0 < rv) :
      Move s ev ((s.setStream x fun c ↦ { c with called := c.called ++ [f] }).goto depth established
        below (.pull x havePending (.callback true)))
  | accepted {depth established x havePending b rv below}
      (hs : s.stack =
        .cycle depth established (.pull x havePending (.answered b none rv)) :: below)
      (hrv : 0 < rv) : Move s ev (s.goto depth established below (.pull x havePending .loop))
  /-- A stage goes on without the queues. -/
  | inside {t : SecurePair κ} {depth established p q below}
      (hs : s.stack = .cycle depth established p :: below)
      (ht : t.Alike s) (hq : q.Quiet)
      (hpq : (∃ x p' q', p = .push x p' ∧ q = .push x q') ∨
        (∃ x havePending b cb rv, p = .pull x havePending (.secure b cb rv) ∧
          q = .pull x havePending (.answered b cb rv)) ∨
        ∃ x havePending, p = .pull x havePending (.callback true) ∧
          q = .pull x havePending .loop) :
      Move s ev (t.goto depth established below q)
  | finish {depth established below} (hs : s.stack = .cycle depth established .tail :: below) :
      Move s ev { s with stack := below }
  | again {depth established below} (hs : s.stack = .cycle depth established .tail :: below) :
      Move s ev (SecurePair.cycle { s with stack := below } (depth + 1))

variable {depth : ℕ} {established : Bool} {below : List (Frame κ)} {p : Place κ} {ev : Event κ}

theorem alike_answer (hssl : s.ssl = some none) {a : Answer} (ha : a.error = none) :
    (s.answer a).Alike s := by
  refine ⟨?_, rfl, rfl, rfl, rfl, rfl⟩
  simp only [answer, hssl, ha, Option.map_some]
  rfl

/-- Without an error, what follows an answer goes to one of two places. -/
theorem settle_eq (depth : ℕ) (established : Bool) (below : List (Frame κ))
    (hssl : s.ssl = some none) (a : Answer) (k : Stage) (error secure next : Place κ) :
    ∃ t : SecurePair κ, t.Alike s ∧ ∃ p, (p = secure ∨ p = next) ∧
      s.settle depth established below a k error secure next =
        t.goto depth established below p := by
  have hsettle : s.settle depth established below a k error secure next =
      s.maybeInitFinished depth established below a secure next := by
    simp only [settle, hssl]
  rw [hsettle, maybeInitFinished]
  split
  · exact ⟨{ s with secureEstablished := true }, ⟨rfl, rfl, rfl, rfl, rfl, rfl⟩, secure, .inl rfl,
      rfl⟩
  · exact ⟨s, ⟨rfl, rfl, rfl, rfl, rfl, rfl⟩, next, .inr rfl, rfl⟩

/-- The loop of `_pull`. -/
theorem Quiet.move_pullLoop (h : s.Quiet) {x : Side} {havePending : Bool}
    (hs : s.stack = .cycle depth established (.pull x havePending .loop) :: below) {a : Answer}
    (ha : a.error = none) (hrv : ∀ b ∈ s.offered, a.rv = b.length ∨ a.rv ≤ 0) :
    s.Move ev (s.pullLoop depth established below a x havePending) := by
  unfold pullLoop
  split
  · rename_i hpending
    split
    · rename_i hhave
      subst hhave
      exact .drain hs hpending
    · refine .leave hs rfl fun y hy ↦ .inr ?_
      obtain rfl := Side.pull_injective hy
      exact ⟨hpending, _, rfl⟩
  · rename_i tmp pending hpending
    rw [if_neg (h.ssl ▸ Option.some_ne_none _)]
    obtain ⟨rest, hdata, hcallbacks⟩ := h.aligned x
    have haligned : ((s.shift x).stream x).pending.length =
        ((s.shift x).stream x).pendingCallbacks.length := by
      simp only [shift, setStream, Function.update_self, hdata, hcallbacks, List.length_tail,
        List.length_map]
    dsimp only
    rw [if_neg (not_not.mpr haligned)]
    obtain _ | ⟨w, rest⟩ := rest
    · cases hpending.symm.trans hdata
    · obtain ⟨rfl, rfl⟩ := List.cons.inj (hpending.symm.trans hdata)
      simp only [pullData]
      split
      · rename_i hw
        obtain ⟨b, cb⟩ := w
        obtain rfl : b = [] := hw
        exact .empty hs hpending
      · rename_i hw
        have hshift : (s.shift x).ssl = some none := h.ssl
        have hoffer : ((s.shift x).offer a x w.1 (s.stream x).pendingCallbacks.head?.join).ssl =
            some none := (alike_answer hshift ha).ssl.trans hshift
        simp only [withSsl, hshift]
        obtain ⟨t, ht, p, hp, heq⟩ := settle_eq _ _ _ hoffer a x.pull
          (.pull x havePending .error)
          (.pull x havePending (.secure w.1 (s.stream x).pendingCallbacks.head?.join a.rv))
          (.pull x havePending (.answered w.1 (s.stream x).pendingCallbacks.head?.join a.rv))
        rw [heq]
        have hb : s.offered = some w.1 := by
          simp only [offered, hs, hpending]
        obtain rfl | rfl := hp
        · exact .offer hs hpending hw ha (hrv _ hb) ht (.inl rfl)
        · exact .offer hs hpending hw ha (hrv _ hb) ht (.inr rfl)

/-- `_cycle` goes on. -/
theorem Quiet.move_goOn (h : s.Quiet) (hs : s.stack = .cycle depth established p :: below)
    (hp : p.Quiet) (hrun : p.running = false) {a : Answer} (ha : a.error = none)
    (hrv : ∀ b ∈ s.offered, a.rv = b.length ∨ a.rv ≤ 0)
    (htext : ∀ chunk ∈ s.emitted, (Data.ofBytes chunk).hasText = true) :
    s.Move ev (s.goOn depth established below a p) := by
  have hsame : s.Alike s := ⟨rfl, rfl, rfl, rfl, rfl, rfl⟩
  have hpush (x y : Side) (hy : x.push = y.pull) : (∃ havePending, p = .pull y havePending .drain) ∨
      (s.stream y).pending = [] ∧ ∃ havePending, p = .pull y havePending .loop :=
    absurd hy.symm (Side.pull_ne_push y x)
  cases p with
  | before k =>
    simp only [goOn]
    split
    · rename_i hlock
      exact .skip hs hlock
    · rename_i hlock
      exact .enter hs ((Bool.not_eq_true _).mp hlock)
  | tail =>
    simp only [goOn, cycleTail]
    split
    · exact .finish hs
    · split
      · exact .again hs
      · exact .finish hs
  | pull x havePending at' =>
    cases at' with
    | loop => exact h.move_pullLoop hs ha hrv
    | answered tmp cb rv =>
      simp only [goOn, pullAnswered]
      split
      · rename_i hle
        exact .refused hs hle
      · rename_i hpos
        have hpos : 0 < rv := Int.not_le.mp hpos
        have hwhole : rv = tmp.length := hp.2.resolve_right (Int.not_le.mpr hpos)
        split
        · rw [decide_eq_true hwhole]
          exact .called hs hpos
        · rw [if_pos hwhole]
          exact .accepted hs hpos
    | closing | error => exact absurd hp id
    | secure | callback | drain => cases hrun
  | push x at' =>
    cases at' with
    | start =>
      simp only [goOn]
      split
      · exact .leave hs rfl (hpush x)
      · exact .inside hs hsame trivial (.inl ⟨_, _, _, rfl, rfl⟩)
    | loop =>
      simp only [goOn]
      split
      · exact .inside hs hsame trivial (.inl ⟨_, _, _, rfl, rfl⟩)
      · exact .leave hs rfl (hpush x)
    | read chunk =>
      have hanswer := alike_answer h.ssl ha
      let chunkBytes := if s.ssl = none then -1 else a.rv
      obtain ⟨t, ht, q, hq, heq⟩ := settle_eq depth established below
        (hanswer.ssl.trans h.ssl) a x.push (.push x .error)
        (.push x (.secure (addChunk chunk chunkBytes a.out) chunkBytes))
        (.push x (.counted (addChunk chunk chunkBytes a.out) chunkBytes))
      have halike : t.Alike s := ⟨ht.ssl.trans hanswer.ssl, ht.done, ht.stream, ht.lock, ht.stack,
        ht.escaped⟩
      change s.Move ev ((s.answer a).settle ..)
      rw [heq]
      obtain rfl | rfl := hq
      · exact .inside hs halike trivial (.inl ⟨_, _, _, rfl, rfl⟩)
      · exact .inside hs halike trivial (.inl ⟨_, _, _, rfl, rfl⟩)
    | counted chunk chunkBytes =>
      simp only [goOn, pushCounted, pushNothing]
      split
      · exact .inside hs hsame trivial (.inl ⟨_, _, _, rfl, rfl⟩)
      · rename_i hread
        split
        · rw [if_neg fun hc ↦ absurd ((h.destroyAfterPush x).symm.trans hc.2) Bool.false_ne_true]
          exact .leave hs rfl (hpush x)
        · have hemitted : ¬(x = .cleartext ∧ (Data.ofBytes chunk).hasText = false) := by
            rintro ⟨rfl, hnone⟩
            have hchunk : s.emitted = some chunk := by simp only [emitted, hs, if_neg hread]
            exact absurd ((htext chunk hchunk).symm.trans hnone) Bool.noConfusion
          rw [if_neg hemitted]
          exact .inside hs hsame trivial (.inl ⟨_, _, _, rfl, rfl⟩)
    | error => exact absurd hp id
    | secure | data => cases hrun

/-- The listeners return. -/
theorem Quiet.move_behind (hs : s.stack = .cycle depth established p :: below) (hp : p.Quiet)
    (hrun : p.running = true) : s.Move ev (s.behind depth established below p) := by
  have hsame : s.Alike s := ⟨rfl, rfl, rfl, rfl, rfl, rfl⟩
  cases p with
  | before | tail => cases hrun
  | pull x havePending at' =>
    cases at' with
    | secure tmp cb rv => exact .inside hs hsame hp (.inr (.inl ⟨_, _, _, _, _, rfl, rfl⟩))
    | callback whole =>
      obtain rfl : whole = true := hp
      exact .inside hs hsame trivial (.inr (.inr ⟨_, _, rfl, rfl⟩))
    | drain =>
      refine .leave hs rfl fun y hy ↦ .inl ?_
      obtain rfl := Side.pull_injective hy
      exact ⟨_, rfl⟩
    | error => exact absurd hp id
    | loop | answered | closing => cases hrun
  | push x at' =>
    cases at' with
    | secure chunk chunkBytes =>
      exact .inside hs hsame trivial (.inl ⟨_, _, _, rfl, rfl⟩)
    | data => exact .inside hs hsame trivial (.inl ⟨_, _, _, rfl, rfl⟩)
    | error => exact absurd hp id
    | start | loop | read | counted => cases hrun

theorem fresh_ssl (s : SecurePair κ) : s.fresh.ssl = s.ssl := by
  unfold fresh
  split
  exacts [rfl, rfl]

/-- An exception that goes up to the program at once changes nothing. -/
theorem unwind_of_free (h : s.Free) : s.unwind = s := by
  have hstack : s.stack.dropWhile (!·.running) = s.stack ∧ s.stack.takeWhile (!·.running) = [] := by
    rcases hs : s.stack with _ | ⟨f, below⟩
    · exact ⟨rfl, rfl⟩
    · have hf : f.running = true := h f (congrArg List.head? hs)
      simp [hf]
  simp only [unwind, hstack, List.filterMap_nil, List.nil_append]

/-- Each step is a move. -/
theorem Quiet.move (h : s.Quiet) (hallows : s.Allows ev) (hplain : s.Plain ev) :
    s.Move ev (s.step ev) := by
  cases ev with
  | write x data cb =>
    have htext : ¬(x = .cleartext ∧ data.hasText = false) := fun hc ↦
      absurd ((hplain.2 hc.1).symm.trans hc.2) Bool.noConfusion
    simp only [step, write, if_neg htext, h.writable x, Bool.true_eq_false, if_false]
    split
    · rename_i hdata
      exact .write rfl hdata
    · rw [unwind_of_free hallows]
      exact .unmade
  | pause x => exact .pause x
  | resume x => exact .resume x
  | start a =>
    have hssl : s.fresh.ssl = some none := (fresh_ssl s).trans h.ssl
    have halike : (answer { s.fresh with started := true } a).Alike s.fresh := by
      obtain ⟨hssl', hdone, hstream, hlock, hstack, hescaped⟩ :=
        alike_answer (s := { s.fresh with started := true }) hssl hplain.1
      exact ⟨hssl', hdone, hstream, hlock, hstack, hescaped⟩
    have hstart : s.fresh.start a = (answer { s.fresh with started := true } a).cycle 0 := by
      unfold SecurePair.start withSsl
      split
      · rfl
      · rename_i hnone
        cases hssl.symm.trans hnone
    change s.Move (.start a) (s.fresh.start a)
    rw [hstart]
    exact .start halike
  | returns =>
    obtain ⟨hfree, hne⟩ := hallows
    obtain ⟨f, below, hs⟩ := List.exists_cons_of_ne_nil hne
    obtain ⟨depth, established, p, rfl, hp⟩ := h.places f (hs ▸ List.mem_cons_self)
    simp only [step, hs]
    exact move_behind hs hp (hfree (.cycle depth established p) (congrArg List.head? hs))
  | go a =>
    rcases hs : s.stack with _ | ⟨f, below⟩
    · refine absurd (fun f hf ↦ ?_) hallows
      rw [hs] at hf
      cases hf
    · obtain ⟨depth, established, p, rfl, hp⟩ := h.places f (hs ▸ List.mem_cons_self)
      simp only [step, hs]
      refine h.move_goOn hs hp ?_ hplain.1.1 hplain.1.2 hplain.2
      by_contra hrun
      refine hallows fun g hg ↦ ?_
      rw [hs] at hg
      obtain rfl := Option.some.inj hg
      exact (Bool.not_eq_false _).mp hrun
  | «end» | destroy | throws => exact absurd hplain.1 id

/-! ## The moves keep a pair quiet -/

variable {t : SecurePair κ}

theorem Quiet.of_alike (h : s.Quiet) (ht : t.Alike s) : t.Quiet := by
  refine ⟨ht.ssl.trans h.ssl, ht.done.trans h.done, ht.escaped.trans h.escaped, ?_, ?_, ?_, ?_⟩
  · rw [ht.stream]
    exact h.writable
  · rw [ht.stream]
    exact h.destroyAfterPush
  · rw [ht.stream]
    exact h.aligned
  · rw [ht.stack]
    exact h.places

theorem Quiet.fresh (h : s.Quiet) : s.fresh.Quiet := by
  unfold SecurePair.fresh
  split
  · exact ⟨h.ssl, h.done, h.escaped, h.writable, h.destroyAfterPush, h.aligned, h.places⟩
  · exact h

theorem Quiet.cycle (h : s.Quiet) (depth : ℕ) : (s.cycle depth).Quiet := by
  unfold SecurePair.cycle
  split
  · exact h
  · refine ⟨h.ssl, h.done, h.escaped, h.writable, h.destroyAfterPush, h.aligned, ?_⟩
    rintro f (_ | ⟨_, hf⟩)
    exacts [⟨_, _, _, rfl, trivial⟩, h.places f hf]

theorem Quiet.goto (h : s.Quiet) (hs : s.stack = .cycle depth established p :: below)
    {q : Place κ} (hq : q.Quiet) : (s.goto depth established below q).Quiet := by
  refine ⟨h.ssl, h.done, h.escaped, h.writable, h.destroyAfterPush, h.aligned, ?_⟩
  rintro f (_ | ⟨_, hf⟩)
  exacts [⟨_, _, _, rfl, hq⟩, h.places f (hs ▸ List.mem_cons_of_mem _ hf)]

theorem Quiet.leave (h : s.Quiet) (hs : s.stack = .cycle depth established p :: below)
    (k : Stage) : (s.leave depth established below k).Quiet := by
  refine ⟨h.ssl, h.done, h.escaped, h.writable, h.destroyAfterPush, h.aligned, ?_⟩
  rintro f (_ | ⟨_, hf⟩)
  · exact ⟨_, _, _, rfl, by cases k <;> trivial⟩
  · exact h.places f (hs ▸ List.mem_cons_of_mem _ hf)

theorem Quiet.setStream (h : s.Quiet) (x : Side) {f : CryptoStream κ → CryptoStream κ}
    (hwritable : (f (s.stream x)).writable = (s.stream x).writable)
    (hdestroy : (f (s.stream x)).destroyAfterPush = (s.stream x).destroyAfterPush)
    (haligned : ∃ rest : List (Bytes × Option κ),
      (f (s.stream x)).pending = rest.map (fun w ↦ .data w.1) ∧
        (f (s.stream x)).pendingCallbacks = rest.map (·.2)) : (s.setStream x f).Quiet := by
  have hcases (y : Side) : (s.setStream x f).stream y = s.stream y ∨
      y = x ∧ (s.setStream x f).stream y = f (s.stream x) := by
    by_cases hy : y = x
    · subst hy
      exact .inr ⟨rfl, Function.update_self ..⟩
    · exact .inl (Function.update_of_ne hy ..)
  refine ⟨h.ssl, h.done, h.escaped, fun y ↦ ?_, fun y ↦ ?_, fun y ↦ ?_, h.places⟩
  · obtain hy | ⟨rfl, hy⟩ := hcases y
    · exact hy ▸ h.writable y
    · exact hy ▸ hwritable.trans (h.writable y)
  · obtain hy | ⟨rfl, hy⟩ := hcases y
    · exact hy ▸ h.destroyAfterPush y
    · exact hy ▸ hdestroy.trans (h.destroyAfterPush y)
  · obtain hy | ⟨rfl, hy⟩ := hcases y
    · exact hy ▸ h.aligned y
    · exact hy ▸ haligned

theorem Quiet.shift (h : s.Quiet) (x : Side) : (s.shift x).Quiet := by
  refine h.setStream x rfl rfl ?_
  obtain ⟨rest, hdata, hcallbacks⟩ := h.aligned x
  exact ⟨rest.tail, (congrArg List.tail hdata).trans List.map_tail.symm,
    (congrArg List.tail hcallbacks).trans List.map_tail.symm⟩

theorem Quiet.answer (h : s.Quiet) {a : Answer} (ha : a.error = none) : (s.answer a).Quiet :=
  h.of_alike (alike_answer h.ssl ha)

theorem quiet_create (isServer rejectUnauthorized : Bool) :
    (create isServer rejectUnauthorized : SecurePair κ).Quiet :=
  ⟨rfl, rfl, rfl, fun _ ↦ rfl, fun _ ↦ rfl, fun _ ↦ ⟨[], rfl, rfl⟩, fun _ hf ↦ by cases hf⟩

theorem Move.quiet (h : s.Quiet) (hm : s.Move ev t) : t.Quiet := by
  have htop {f : Frame κ} {fs : List (Frame κ)} (hs : s.stack = f :: fs) : f ∈ s.stack :=
    hs ▸ List.mem_cons_self
  cases hm with
  | pause x => exact h.setStream x rfl rfl (h.aligned x)
  | @write x _ b cb _ _ =>
    obtain ⟨rest, hdata, hcallbacks⟩ := h.fresh.aligned x
    have hcalled : Quiet { s.fresh with writeCalled := true } :=
      h.fresh.of_alike ⟨rfl, rfl, rfl, rfl, rfl, rfl⟩
    refine (hcalled.setStream x rfl rfl ⟨rest ++ [(b, cb)], ?_, ?_⟩).cycle 0
    · rw [List.map_append]
      exact congrArg (· ++ _) hdata
    · rw [List.map_append]
      exact congrArg (· ++ _) hcallbacks
  | unmade => exact h
  | resume x => exact (h.fresh.setStream x rfl rfl (h.fresh.aligned x)).cycle 0
  | start ht => exact (h.fresh.of_alike ht).cycle 0
  | @skip _ _ k _ hs => exact h.goto hs (by cases k <;> trivial)
  | @enter _ _ k _ hs =>
    have hlock : Quiet { s with lock := update s.lock k true } :=
      ⟨h.ssl, h.done, h.escaped, h.writable, h.destroyAfterPush, h.aligned, h.places⟩
    exact hlock.goto hs (by cases k <;> trivial)
  | drain hs => exact h.goto hs trivial
  | leave hs => exact h.leave hs _
  | empty hs => exact (h.shift _).goto hs trivial
  | @offer t _ _ x _ _ b _ a _ hs _ hb ha hrv ht hp =>
    have hoffer : ((s.shift x).offer a x b (s.stream x).pendingCallbacks.head?.join).Quiet :=
      ((h.shift x).answer ha).setStream x rfl rfl (((h.shift x).answer ha).aligned x)
    refine (hoffer.of_alike ht).goto (ht.stack.trans hs) ?_
    obtain rfl | rfl := hp
    exacts [⟨hb, hrv⟩, ⟨hb, hrv⟩]
  | @refused _ _ x _ b cb _ _ hs hrv =>
    obtain ⟨rest, hdata, hcallbacks⟩ := h.aligned x
    have hunshift : (s.unshift x b cb).Quiet := h.setStream x rfl rfl
      ⟨(b, cb) :: rest, congrArg (.data b :: ·) hdata, congrArg (cb :: ·) hcallbacks⟩
    exact hunshift.leave hs _
  | called hs => exact (h.setStream _ rfl rfl (h.aligned _)).goto hs rfl
  | accepted hs => exact h.goto hs trivial
  | inside hs ht hq => exact (h.of_alike ht).goto (ht.stack.trans hs) hq
  | finish hs =>
    exact ⟨h.ssl, h.done, h.escaped, h.writable, h.destroyAfterPush, h.aligned,
      fun f hf ↦ h.places f (hs ▸ List.mem_cons_of_mem _ hf)⟩
  | @again _ _ below hs =>
    have hbelow : Quiet { s with stack := below } :=
      ⟨h.ssl, h.done, h.escaped, h.writable, h.destroyAfterPush, h.aligned,
        fun f hf ↦ h.places f (hs ▸ List.mem_cons_of_mem _ hf)⟩
    exact hbelow.cycle _

/-! ## The queues -/

def inHand (s : SecurePair κ) (x : Side) : List (Bytes × Option κ) :=
  s.stack.flatMap (Frame.inHand x)

def due (s : SecurePair κ) (x : Side) : List κ := s.stack.flatMap (Frame.due x)

/-- What was written to a stream is what was taken, in order, and the rest, which is in `_pending`
next to its callbacks. What was taken and is not empty was accepted, and the callbacks of that were
called. -/
def Lossless (s : SecurePair κ) (x : Side) : Prop :=
  ∃ taken rest : List (Bytes × Option κ),
    (s.stream x).written = taken ++ (s.inHand x ++ rest) ∧
      (s.stream x).pending = rest.map (fun w ↦ .data w.1) ∧
      (s.stream x).pendingCallbacks = rest.map (·.2) ∧
      (s.stream x).accepted = taken.filter (·.1 ≠ []) ∧
      (s.stream x).accepted.filterMap (·.2) = (s.stream x).called ++ s.due x

variable {x : Side}

/-- The queue of the stream is the same, with its records. -/
structure SameQueue (t s : SecurePair κ) (x : Side) : Prop where
  written : (t.stream x).written = (s.stream x).written
  pending : (t.stream x).pending = (s.stream x).pending
  pendingCallbacks : (t.stream x).pendingCallbacks = (s.stream x).pendingCallbacks
  accepted : (t.stream x).accepted = (s.stream x).accepted
  called : (t.stream x).called = (s.stream x).called

theorem SameQueue.of_eq (h : t.stream x = s.stream x) : t.SameQueue s x := by
  constructor <;> rw [h]

theorem Lossless.of_same (h : s.Lossless x) (hqueue : t.SameQueue s x)
    (hhand : t.inHand x = s.inHand x) (hdue : t.due x = s.due x) : t.Lossless x := by
  obtain ⟨hwritten, hpending, hcallbacks, haccepted, hcalled⟩ := hqueue
  unfold Lossless
  rw [hwritten, hpending, hcallbacks, haccepted, hcalled, hhand, hdue]
  exact h

theorem inHand_of_stage {f : Frame κ} (hf : f.stage ≠ some x.pull) :
    f.inHand x = [] ∧ f.due x = [] := by
  cases f with
  | «end» => exact ⟨rfl, rfl⟩
  | cycle depth established p =>
    cases p with
    | pull y havePending p =>
      have hy : y ≠ x := fun hy ↦ hf (congrArg (fun y ↦ some (Side.pull y)) hy)
      cases p with
      | secure | answered => exact ⟨if_neg fun hc ↦ hy hc.1, if_neg fun hc ↦ hy hc.1⟩
      | _ => exact ⟨rfl, rfl⟩
    | _ => exact ⟨rfl, rfl⟩

/-- Only the frame on top is in its stage. -/
theorem Held.alone (hheld : s.Held) (hs : s.stack = .cycle depth established p :: below)
    {k : Stage} (hp : p.stage = some k) : ∀ f ∈ below, f.stage ≠ some k := by
  intro f hf hstage
  have hcount := hheld k
  rw [stages_of_stage hs hp, List.count_cons_self] at hcount
  have hpos := List.count_pos_iff.mpr
    (List.mem_append_left s.escaped (List.mem_filterMap.mpr ⟨f, hf, hstage⟩))
  split_ifs at hcount
  all_goals omega

theorem Held.only_top (hheld : s.Held) (hs : s.stack = .cycle depth established p :: below)
    (hp : p.stage = some x.pull) :
    below.flatMap (Frame.inHand x) = [] ∧ below.flatMap (Frame.due x) = [] := by
  have hframe {f : Frame κ} (hf : f ∈ below) := inHand_of_stage (hheld.alone hs hp f hf)
  exact ⟨List.flatMap_eq_nil_iff.mpr fun f hf ↦ (hframe hf).1,
    List.flatMap_eq_nil_iff.mpr fun f hf ↦ (hframe hf).2⟩

theorem inHand_cons {f : Frame κ} {fs : List (Frame κ)} (hs : s.stack = f :: fs) (x : Side) :
    s.inHand x = f.inHand x ++ fs.flatMap (Frame.inHand x) ∧
      s.due x = f.due x ++ fs.flatMap (Frame.due x) := by
  rw [inHand, due, hs]
  exact ⟨List.flatMap_cons .., List.flatMap_cons ..⟩

theorem inHand_cycle (s : SecurePair κ) (n : ℕ) (x : Side) :
    (s.cycle n).inHand x = s.inHand x ∧ (s.cycle n).due x = s.due x := by
  unfold SecurePair.cycle
  split
  exacts [⟨rfl, rfl⟩, ⟨rfl, rfl⟩]

theorem stream_cycle (s : SecurePair κ) (n : ℕ) : (s.cycle n).stream = s.stream := by
  unfold SecurePair.cycle
  split
  exacts [rfl, rfl]

/-- A move from `p` to `q` that leaves the queues alone. -/
theorem Lossless.goto (h : s.Lossless x) (hs : s.stack = .cycle depth established p :: below)
    (hstream : t.stream = s.stream) {depth' : ℕ} {established' : Bool} {q : Place κ}
    (ht : t.stack = .cycle depth' established' q :: below)
    (hhand : (Frame.cycle depth' established' q).inHand x =
      (Frame.cycle depth established p).inHand x)
    (hdue : (Frame.cycle depth' established' q).due x =
      (Frame.cycle depth established p).due x) : t.Lossless x := by
  refine h.of_same (.of_eq (congrFun hstream x)) ?_ ?_
  · rw [(inHand_cons hs x).1, (inHand_cons ht x).1, hhand]
  · rw [(inHand_cons hs x).2, (inHand_cons ht x).2, hdue]

theorem setStream_ne {y : Side} (hxy : x ≠ y) (f : CryptoStream κ → CryptoStream κ) :
    (s.setStream y f).stream x = s.stream x := Function.update_of_ne hxy ..

theorem setStream_self (s : SecurePair κ) (x : Side) (f : CryptoStream κ → CryptoStream κ) :
    (s.setStream x f).stream x = f (s.stream x) := Function.update_self ..

theorem Lossless.fresh (h : s.Lossless x) : s.fresh.Lossless x := by
  unfold SecurePair.fresh
  split
  · exact h.of_same ⟨rfl, rfl, rfl, rfl, rfl⟩ rfl rfl
  · exact h

theorem Lossless.cycle (h : s.Lossless x) (n : ℕ) : (s.cycle n).Lossless x :=
  h.of_same (.of_eq (congrFun (stream_cycle s n) x)) (inHand_cycle s n x).1 (inHand_cycle s n x).2

/-- What is written goes behind the rest. -/
theorem Lossless.enqueue (h : s.Lossless x) (y : Side) (b : Bytes) (cb : Option κ) :
    (s.enqueue y b cb).Lossless x := by
  by_cases hxy : x = y
  · subst hxy
    obtain ⟨taken, rest, hwritten, hpending, hcallbacks, haccepted, hcalled⟩ := h
    have hstream : (s.enqueue x b cb).stream x = _ := setStream_self _ x _
    refine ⟨taken, rest ++ [(b, cb)], ?_, ?_, ?_, ?_, ?_⟩
    · rw [hstream]
      change (s.stream x).written ++ [(b, cb)] = taken ++ (s.inHand x ++ (rest ++ [(b, cb)]))
      rw [hwritten]
      simp only [List.append_assoc]
    · rw [hstream, List.map_append, ← hpending]
      rfl
    · rw [hstream, List.map_append, ← hcallbacks]
      rfl
    · rw [hstream]
      exact haccepted
    · rw [hstream]
      exact hcalled
  · exact h.of_same (.of_eq (setStream_ne hxy _)) rfl rfl

/-- `_pull` takes the first of the rest. -/
theorem Lossless.taken_of_shift (h : s.Lossless x)
    (hhand : s.inHand x = []) (hdue : s.due x = []) {b : Bytes} {pending : List Entry}
    (hpending : (s.stream x).pending = .data b :: pending) :
    ∃ taken rest : List (Bytes × Option κ),
      (s.stream x).written = taken ++ (b, (s.stream x).pendingCallbacks.head?.join) :: rest ∧
        (s.stream x).pending.tail = rest.map (fun w ↦ .data w.1) ∧
        (s.stream x).pendingCallbacks.tail = rest.map (·.2) ∧
        (s.stream x).accepted = taken.filter (·.1 ≠ []) ∧
        (s.stream x).accepted.filterMap (·.2) = (s.stream x).called := by
  obtain ⟨taken, rest, hwritten, hdata, hcallbacks, haccepted, hcalled⟩ := h
  obtain _ | ⟨⟨b', cb⟩, rest⟩ := rest
  · cases hpending.symm.trans hdata
  · obtain ⟨hb, -⟩ := List.cons.inj (hpending.symm.trans hdata)
    obtain rfl := Entry.data.inj hb
    rw [hdue, List.append_nil] at hcalled
    refine ⟨taken, rest, ?_, congrArg List.tail hdata, congrArg List.tail hcallbacks, haccepted,
      hcalled⟩
    rw [hwritten, hhand, hcallbacks]
    rfl

/-- The frame on top has nothing to do with another stream. -/
theorem inHand_other {y : Side} (hxy : x ≠ y) (depth : ℕ) (established havePending : Bool)
    (p : PullAt κ) :
    (Frame.cycle depth established (.pull y havePending p)).inHand x = [] ∧
      (Frame.cycle depth established (.pull y havePending p)).due x = [] :=
  inHand_of_stage fun hstage ↦ hxy (Side.pull_injective (Option.some.inj hstage)).symm

/-- A move of `_pull` that changes its stream. The other stream does not notice. -/
theorem Lossless.pull_other (h : s.Lossless x) {y : Side} (hxy : x ≠ y) {havePending : Bool}
    {q : PullAt κ} (hs : s.stack = .cycle depth established (.pull y havePending q) :: below)
    (hstream : t.stream x = s.stream x) {f : Frame κ} (ht : t.stack = f :: below)
    (hhand : f.inHand x = []) (hdue : f.due x = []) : t.Lossless x := by
  obtain ⟨hhand', hdue'⟩ := inHand_other hxy depth established havePending q
  refine h.of_same (.of_eq hstream) ?_ ?_
  · rw [(inHand_cons hs x).1, (inHand_cons ht x).1, hhand, hhand']
  · rw [(inHand_cons hs x).2, (inHand_cons ht x).2, hdue, hdue']

/-- A stream is a queue again behind a move of its `_pull`. -/
theorem lossless_of_top {f : Frame κ} (ht : t.stack = f :: below)
    (hbelow : below.flatMap (Frame.inHand x) = [] ∧ below.flatMap (Frame.due x) = [])
    {c : CryptoStream κ} (hc : t.stream x = c) (taken rest : List (Bytes × Option κ))
    (hwritten : c.written = taken ++ (f.inHand x ++ rest))
    (hpending : c.pending = rest.map (fun w ↦ .data w.1))
    (hcallbacks : c.pendingCallbacks = rest.map (·.2))
    (haccepted : c.accepted = taken.filter (·.1 ≠ []))
    (hcalled : c.accepted.filterMap (·.2) = c.called ++ f.due x) : t.Lossless x := by
  unfold Lossless
  rw [(inHand_cons ht x).1, (inHand_cons ht x).2, hbelow.1, hbelow.2, List.append_nil,
    List.append_nil, hc]
  exact ⟨taken, rest, hwritten, hpending, hcallbacks, haccepted, hcalled⟩

theorem Lossless.empty (h : s.Lossless x) (hheld : s.Held) {y : Side} {havePending : Bool}
    {pending : List Entry}
    (hs : s.stack = .cycle depth established (.pull y havePending .loop) :: below)
    (hpending : (s.stream y).pending = .data [] :: pending) :
    ((s.shift y).goto depth established below (.pull y havePending .loop)).Lossless x := by
  by_cases hxy : x = y
  · subst hxy
    have hbelow := hheld.only_top (x := x) hs rfl
    obtain ⟨taken, rest, hwritten, hdata, hcallbacks, haccepted, hcalled⟩ :=
      h.taken_of_shift ((inHand_cons hs x).1.trans hbelow.1)
        ((inHand_cons hs x).2.trans hbelow.2) hpending
    have hshift : (s.shift x).stream x = _ := setStream_self s x _
    refine lossless_of_top rfl hbelow hshift
      (taken ++ [([], (s.stream x).pendingCallbacks.head?.join)]) rest ?_ hdata hcallbacks ?_ ?_
    · exact hwritten.trans (List.append_cons ..)
    · exact haccepted.trans (by simp)
    · exact hcalled.trans (List.append_nil _).symm
  · have hshift : (s.shift y).stream x = s.stream x := setStream_ne hxy _
    obtain ⟨hhand, hdue⟩ := inHand_other hxy depth established havePending (.loop : PullAt κ)
    exact h.pull_other hxy hs hshift rfl hhand hdue

/-- The connection answers. -/
theorem Lossless.offer (h : s.Lossless x) (hheld : s.Held) {y : Side} {havePending : Bool}
    {b : Bytes} {pending : List Entry} {a : Answer} {p : PullAt κ}
    (hs : s.stack = .cycle depth established (.pull y havePending .loop) :: below)
    (hpending : (s.stream y).pending = .data b :: pending) (hb : b ≠ [])
    (ht : t.Alike ((s.shift y).offer a y b (s.stream y).pendingCallbacks.head?.join))
    (hp : p = .secure b (s.stream y).pendingCallbacks.head?.join a.rv ∨
      p = .answered b (s.stream y).pendingCallbacks.head?.join a.rv) :
    (t.goto depth established below (.pull y havePending p)).Lossless x := by
  by_cases hxy : x = y
  · subst hxy
    have hbelow := hheld.only_top (x := x) hs rfl
    obtain ⟨taken, rest, hwritten, hdata, hcallbacks, haccepted, hcalled⟩ :=
      h.taken_of_shift ((inHand_cons hs x).1.trans hbelow.1)
        ((inHand_cons hs x).2.trans hbelow.2) hpending
    generalize (s.stream x).pendingCallbacks.head?.join = cb at ht hp hwritten
    have hshift : (s.shift x).stream x = _ := setStream_self s x _
    have hshift : ((s.shift x).answer a).stream x = _ := hshift
    have hoffer : ((s.shift x).offer a x b cb).stream x = _ := setStream_self _ x _
    rw [hshift] at hoffer
    have htop : (Frame.cycle depth established (.pull x havePending p)).inHand x =
        (if a.rv ≤ 0 then [(b, cb)] else []) ∧
          (Frame.cycle depth established (.pull x havePending p)).due x =
            if 0 < a.rv then cb.toList else [] := by
      obtain rfl | rfl := hp <;> simp [Frame.inHand, Frame.due]
    have hstream := (congrFun ht.stream x).trans hoffer
    by_cases hrv : 0 < a.rv
    · simp only [if_pos hrv, if_neg (Int.not_le.mpr hrv)] at htop hstream
      refine lossless_of_top rfl hbelow hstream (taken ++ [(b, cb)]) rest ?_ hdata hcallbacks ?_ ?_
      · rw [htop.1]
        exact hwritten.trans (List.append_cons ..)
      · exact (congrArg (· ++ [(b, cb)]) haccepted).trans (by simp [hb])
      · rw [htop.2, List.filterMap_append, hcalled]
        cases cb <;> rfl
    · simp only [if_neg hrv, if_pos (Int.not_lt.mp hrv), List.append_nil] at htop hstream
      refine lossless_of_top rfl hbelow hstream taken rest ?_ hdata hcallbacks haccepted ?_
      · rw [htop.1]
        exact hwritten
      · rw [htop.2]
        exact hcalled.trans (List.append_nil _).symm
  · have hshift : (s.shift y).stream x = s.stream x := setStream_ne hxy _
    have hshift : ((s.shift y).answer a).stream x = s.stream x := hshift
    have hstream : t.stream x = s.stream x :=
      (congrFun ht.stream x).trans ((setStream_ne hxy _).trans hshift)
    obtain ⟨hhand, hdue⟩ := inHand_other hxy depth established havePending p
    exact h.pull_other hxy hs hstream rfl hhand hdue

/-- A write that was refused is the first of the rest again. -/
theorem Lossless.refused (h : s.Lossless x) (hheld : s.Held) {y : Side} {havePending : Bool}
    {b : Bytes} {cb : Option κ} {rv : ℤ}
    (hs : s.stack = .cycle depth established (.pull y havePending (.answered b cb rv)) :: below)
    (hrv : rv ≤ 0) : ((s.unshift y b cb).leave depth established below y.pull).Lossless x := by
  have hafter (k : Stage) : (Frame.cycle depth established (k.after : Place κ)).inHand x = [] ∧
      (Frame.cycle depth established (k.after : Place κ)).due x = [] := by
    cases k <;> exact ⟨rfl, rfl⟩
  by_cases hxy : x = y
  · subst hxy
    have hbelow := hheld.only_top (x := x) hs rfl
    have hhand : s.inHand x = [(b, cb)] := by
      rw [(inHand_cons hs x).1, hbelow.1]
      exact congrArg (· ++ []) (if_pos ⟨rfl, hrv⟩)
    have hdue : s.due x = [] := by
      rw [(inHand_cons hs x).2, hbelow.2]
      exact congrArg (· ++ []) (if_neg fun hc ↦ absurd hc.2 (Int.not_lt.mpr hrv))
    obtain ⟨taken, rest, hwritten, hdata, hcallbacks, haccepted, hcalled⟩ := h
    rw [hhand] at hwritten
    rw [hdue] at hcalled
    have hunshift : (s.unshift x b cb).stream x = _ := setStream_self s x _
    refine lossless_of_top rfl hbelow hunshift taken ((b, cb) :: rest) ?_
      (congrArg (.data b :: ·) hdata) (congrArg (cb :: ·) hcallbacks) haccepted ?_
    · rw [(hafter _).1]
      exact hwritten
    · rw [(hafter _).2]
      exact hcalled
  · have hunshift : (s.unshift y b cb).stream x = s.stream x := setStream_ne hxy _
    exact h.pull_other hxy hs hunshift rfl (hafter _).1 (hafter _).2

theorem Lossless.called (h : s.Lossless x) (hheld : s.Held) {y : Side} {havePending : Bool}
    {b : Bytes} {f : κ} {rv : ℤ}
    (hs : s.stack =
      .cycle depth established (.pull y havePending (.answered b (some f) rv)) :: below)
    (hrv : 0 < rv) :
    ((s.setStream y fun c ↦ { c with called := c.called ++ [f] }).goto depth established below
      (.pull y havePending (.callback true))).Lossless x := by
  by_cases hxy : x = y
  · subst hxy
    have hbelow := hheld.only_top (x := x) hs rfl
    have hhand : s.inHand x = [] := by
      rw [(inHand_cons hs x).1, hbelow.1]
      exact congrArg (· ++ []) (if_neg fun hc ↦ absurd hc.2 (Int.not_le.mpr hrv))
    have hdue : s.due x = [f] := by
      rw [(inHand_cons hs x).2, hbelow.2]
      exact congrArg (· ++ []) (if_pos ⟨rfl, hrv⟩)
    obtain ⟨taken, rest, hwritten, hdata, hcallbacks, haccepted, hcalled⟩ := h
    rw [hhand] at hwritten
    rw [hdue] at hcalled
    have hstream := setStream_self s x fun c ↦ { c with called := c.called ++ [f] }
    exact lossless_of_top rfl hbelow hstream taken rest hwritten hdata hcallbacks haccepted
      (hcalled.trans (List.append_nil _).symm)
  · have hstream : (s.setStream y fun c ↦ { c with called := c.called ++ [f] }).stream x =
      s.stream x := setStream_ne hxy _
    obtain ⟨hhand, hdue⟩ :=
      inHand_other hxy depth established havePending (.callback true : PullAt κ)
    exact h.pull_other hxy hs hstream rfl hhand hdue

theorem Lossless.move (h : s.Lossless x) (hheld : s.Held) (hm : s.Move ev t) : t.Lossless x := by
  cases hm with
  | pause y =>
    by_cases hxy : x = y
    · subst hxy
      have hstream : (s.pause x).stream x = _ := setStream_self _ x _
      refine h.of_same ?_ rfl rfl
      constructor <;> rw [hstream]
    · exact h.of_same (.of_eq (setStream_ne hxy _)) rfl rfl
  | write _ _ => exact (h.fresh.enqueue _ _ _).cycle 0
  | unmade => exact h
  | resume y =>
    refine Lossless.cycle ?_ 0
    by_cases hxy : x = y
    · subst hxy
      refine h.fresh.of_same ?_ rfl rfl
      constructor <;> rw [setStream_self]
    · exact h.fresh.of_same (.of_eq (setStream_ne hxy _)) rfl rfl
  | start ht =>
    have hstack := ht.stack
    refine (h.fresh.of_same (.of_eq (congrFun ht.stream x)) ?_ ?_).cycle 0
    · rw [inHand, inHand, hstack]
    · rw [due, due, hstack]
  | @skip _ _ k _ hs => exact h.goto hs rfl rfl (by cases k <;> rfl) (by cases k <;> rfl)
  | @enter _ _ k _ hs => exact h.goto hs rfl rfl (by cases k <;> rfl) (by cases k <;> rfl)
  | drain hs => exact h.goto hs rfl rfl rfl rfl
  | @leave depth established p k below hs hstage hpull =>
    have hp : (Frame.cycle depth established p).inHand x = [] ∧
        (Frame.cycle depth established p).due x = [] := by
      cases p with
      | pull y havePending p =>
        obtain ⟨_, hp⟩ | ⟨-, _, hp⟩ := hpull y (Option.some.inj hstage).symm
        · cases hp
          exact ⟨rfl, rfl⟩
        · cases hp
          exact ⟨rfl, rfl⟩
      | _ => exact ⟨rfl, rfl⟩
    exact h.goto hs rfl rfl (hp.1 ▸ by cases k <;> rfl) (hp.2 ▸ by cases k <;> rfl)
  | inside hs ht hq hpq =>
    refine h.goto hs ht.stream rfl ?_ ?_
    · obtain ⟨_, _, _, rfl, rfl⟩ | ⟨_, _, _, _, _, rfl, rfl⟩ | ⟨_, _, rfl, rfl⟩ := hpq <;> rfl
    · obtain ⟨_, _, _, rfl, rfl⟩ | ⟨_, _, _, _, _, rfl, rfl⟩ | ⟨_, _, rfl, rfl⟩ := hpq <;> rfl
  | finish hs => exact h.of_same (.of_eq rfl) (inHand_cons hs x).1.symm (inHand_cons hs x).2.symm
  | @again _ _ below hs =>
    have hbelow : Lossless { s with stack := below } x :=
      h.of_same (.of_eq rfl) (inHand_cons hs x).1.symm (inHand_cons hs x).2.symm
    exact hbelow.cycle _
  | @accepted depth established y havePending b rv below hs hrv =>
    refine h.goto hs rfl rfl ?_ ?_
    · exact (if_neg fun hc ↦ absurd hc.2 (Int.not_le.mpr hrv)).symm
    · exact (ite_self _).symm
  | empty hs hpending => exact h.empty hheld hs hpending
  | offer hs hpending hb _ _ ht hp => exact h.offer hheld hs hpending hb ht hp
  | refused hs hrv => exact h.refused hheld hs hrv
  | called hs hrv => exact h.called hheld hs hrv

theorem quiet_of_plain {isServer rejectUnauthorized : Bool}
    (h : ((machine κ).restrict Plain).Reaches (create isServer rejectUnauthorized) s) :
    s.Quiet := by
  refine h.invariant (p := Quiet) (quiet_create ..) ?_
  rintro s t ev hs ⟨hallows, hplain⟩ ht
  obtain rfl := Except.ok.inj ht
  exact (hs.move hallows hplain).quiet hs

theorem lossless_of_plain {isServer rejectUnauthorized : Bool}
    (h : ((machine κ).restrict Plain).Reaches (create isServer rejectUnauthorized) s) (x : Side) :
    s.Lossless x := by
  refine h.invariant_of (p := fun s ↦ s.Lossless x) (q := fun s ↦ s.Quiet ∧ s.Held)
    (fun h ↦ ⟨quiet_of_plain h, held_of_reaches h.of_restrict⟩)
    ⟨[], [], rfl, rfl, rfl, rfl, rfl⟩ ?_
  rintro s t ev ⟨hquiet, hheld⟩ hs ⟨hallows, hplain⟩ ht
  obtain rfl := Except.ok.inj ht
  exact hs.move hheld (hquiet.move hallows hplain)

theorem Held.inHand_of_lock (hheld : s.Held) (hlock : s.lock x.pull = false) : s.inHand x = [] := by
  have hcount := hheld x.pull
  rw [hlock, if_neg Bool.false_ne_true] at hcount
  refine List.flatMap_eq_nil_iff.mpr fun f hf ↦ (inHand_of_stage fun hstage ↦ ?_).1
  exact List.count_eq_zero.mp hcount
    (List.mem_append_left _ (List.mem_filterMap.mpr ⟨f, hf, hstage⟩))

/-- In every run without errors and ends in which all cleartext has a text, both streams are queues.
Outside of `_pull`, nothing is in hand. -/
theorem lossless {isServer rejectUnauthorized : Bool}
    (h : ((machine κ).restrict Plain).Reaches (create isServer rejectUnauthorized) s) (x : Side) :
    s.Lossless x ∧ (s.lock x.pull = false → s.inHand x = []) :=
  ⟨lossless_of_plain h x, (held_of_reaches h.of_restrict).inHand_of_lock⟩

instance (s : SecurePair κ) : DecidablePred s.Undisturbed
  | .write .. | .pause _ | .resume _ | .returns => isTrue trivial
  | .start a => inferInstanceAs (Decidable (a.error = none))
  | .go a =>
    inferInstanceAs (Decidable (a.error = none ∧ ∀ b ∈ s.offered, a.rv = b.length ∨ a.rv ≤ 0))
  | .end .. | .destroy | .throws => isFalse id

instance (s : SecurePair κ) : DecidablePred s.HasTexts
  | .write x data _ => inferInstanceAs (Decidable (x = .cleartext → data.hasText = true))
  | .go _ =>
    inferInstanceAs (Decidable (∀ chunk ∈ s.emitted, (Data.ofBytes chunk).hasText = true))
  | .end .. | .destroy | .pause _ | .resume _ | .start _ | .returns | .throws => isTrue trivial

instance (s : SecurePair κ) : DecidablePred s.Plain := fun ev ↦
  inferInstanceAs (Decidable (s.Undisturbed ev ∧ s.HasTexts ev))

/-- Two buffers are written; the first is accepted, and its callback writes a third. The second is
refused. -/
theorem lossless_write : ∃ s : SecurePair ℕ,
    (s.stream .cleartext).accepted = [([1], some 7)] ∧ s.lock .cleartextPull = false ∧
      s.Lossless .cleartext ∧ s.inHand .cleartext = [] := by
  obtain ⟨s, hs, haccepted, hlock⟩ : ∃ s ∈ ((machine ℕ).restrict Plain).run (create true true)
      (Event.write .cleartext (.ofBytes [1]) (some 7) ::
        (List.replicate 3 (Event.go (.number 0)) ++ [Event.go (.number 1), Event.go (.number 0),
          Event.write .cleartext (.ofBytes [2, 2]) none] ++ List.replicate 14 (Event.go (.number 0)) ++
            [Event.returns, Event.go (.number 0), Event.go (.number 0)])),
      (s.stream .cleartext).accepted = [([1], some 7)] ∧ s.lock .cleartextPull = false := by
    decide +kernel
  have hlossless := lossless (Machine.reaches_of_run hs) .cleartext
  exact ⟨s, haccepted, hlock, hlossless.1, hlossless.2 hlock⟩

/-- A byte that is no UTF-8 is written to `cleartext`: `toString` throws, and the byte is not in
`_pending`. -/
theorem textless_lost : ¬∀ s : SecurePair ℕ,
    ((machine ℕ).restrict Undisturbed).Reaches (create true true) s → ∀ x, s.Lossless x := by
  intro hall
  obtain ⟨s, hs, hwritten, hpending, haccepted, hstack⟩ :
      ∃ s ∈ ((machine ℕ).restrict Undisturbed).run (create true true)
        [.write .cleartext (.ofBytes [0xff]) none],
        (s.stream .cleartext).written = [([0xff], none)] ∧ (s.stream .cleartext).pending = [] ∧
          (s.stream .cleartext).accepted = [] ∧ s.stack = [] := by decide +kernel
  obtain ⟨taken, rest, hqueue, hdata, -, htaken, -⟩ :=
    hall s (Machine.reaches_of_run hs) .cleartext
  have hhand : s.inHand .cleartext = [] := by
    rw [inHand, hstack]
    rfl
  obtain rfl : rest = [] := List.map_eq_nil_iff.mp (hdata.symm.trans hpending)
  rw [hwritten, hhand, List.append_nil, List.append_nil] at hqueue
  rw [haccepted, ← hqueue] at htaken
  cases htaken

end SecurePair

end SpiderNode.Tls
