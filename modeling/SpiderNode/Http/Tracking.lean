import SpiderNode.Http.Agent

/-!
# Where a request is

The agent never loses track of a request: it is in the queue once, or one socket carries it, or it
is done. `Tracked` is the invariant behind that, and it holds in every run, with requests aborted at
any time and as often as one likes.

Two things can go wrong. `abort` does not clear `_queue` when it takes a request out of the queue;
when the same request is aborted again, it is not there any more, and another request goes in its
place. And the `'end'` listener of a response relies on what it did not check: that the socket still
carries the request, and that `destroySoon` destroys it at once. `good_iff` says that there is
nothing else.
-/

namespace SpiderNode.Http.Agent

open Function (update)

variable {a b : Agent} {r s : ℕ}

/-! ## The invariant -/

/-- The three records of a request agree. -/
structure Tracked (a : Agent) : Prop where
  /-- A request and its socket know each other. -/
  connection_iff : ∀ r s, (a.request r).connection = some s ↔ (a.socket s).httpMessage = some r
  nodup : a.queue.Nodup
  queued_of_mem : ∀ r ∈ a.queue, (a.request r).queued = true
  lt_of_mem : ∀ r ∈ a.queue, r < a.requests
  /-- A request in the queue has no socket, and neither has one that was aborted there. -/
  connection_of_queued : ∀ r, (a.request r).queued = true → (a.request r).connection = none
  connection_of_le : ∀ r, a.requests ≤ r → (a.request r).connection = none
  sockets_lt : ∀ s ∈ a.sockets, s < a.created
  httpMessage_of_le : ∀ s, a.created ≤ s → (a.socket s).httpMessage = none

theorem tracked_init (maxSockets : ℕ) : Tracked (init maxSockets) where
  connection_iff r s := by simp [init]
  nodup := List.nodup_nil
  queued_of_mem _ h := by cases h
  lt_of_mem _ h := by cases h
  connection_of_queued _ _ := rfl
  connection_of_le _ _ := rfl
  sockets_lt _ h := by cases h
  httpMessage_of_le _ _ := rfl

namespace Tracked

theorem push (h : Tracked a) (t : Task) : Tracked (a.push t) := { h with }

theorem emitError (h : Tracked a) (r : ℕ) : Tracked (a.emitError r) := { h with }

theorem removeSocket (h : Tracked a) (s : ℕ) : Tracked (a.removeSocket s) :=
  { h with sockets_lt := fun s' hs ↦ h.sockets_lt s' (List.mem_of_mem_erase hs) }

theorem setQueue (h : Tracked a) {q : List ℕ} (hq : q.Sublist a.queue) : Tracked (a.setQueue q) :=
  { h with
    nodup := h.nodup.sublist hq
    queued_of_mem := fun r hr ↦ h.queued_of_mem r (hq.subset hr)
    lt_of_mem := fun r hr ↦ h.lt_of_mem r (hq.subset hr) }

/-- Only the message of a socket matters. -/
theorem setSocket (h : Tracked a) {k : AgentSocket}
    (hk : k.httpMessage = (a.socket s).httpMessage) : Tracked (a.setSocket s k) := by
  have hmsg := a.httpMessage_setSocket hk
  exact { h with
    connection_iff := fun r s' ↦ (h.connection_iff r s').trans (by rw [hmsg])
    httpMessage_of_le := fun s' hs ↦ (hmsg s').trans (h.httpMessage_of_le s' hs) }

theorem destroy (h : Tracked a) (s : ℕ) : Tracked (a.destroy s) := h.setSocket rfl

/-- Only the queue and the connection of a request matter. -/
theorem setRequest (h : Tracked a) {q : ClientRequest}
    (hcon : q.connection = (a.request r).connection)
    (hqueued : q.queued = (a.request r).queued) : Tracked (a.setRequest r q) := by
  have hcon' (r' : ℕ) :
      ((a.setRequest r q).request r').connection = (a.request r').connection := by
    by_cases hr : r' = r
    · rw [hr, request_setRequest_self, hcon]
    · rw [request_setRequest_of_ne _ hr]
  have hqueued' (r' : ℕ) : ((a.setRequest r q).request r').queued = (a.request r').queued := by
    by_cases hr : r' = r
    · rw [hr, request_setRequest_self, hqueued]
    · rw [request_setRequest_of_ne _ hr]
  exact { h with
    connection_iff := fun r' s ↦ by
      rw [hcon']
      exact h.connection_iff r' s
    queued_of_mem := fun r' hr ↦ (hqueued' r').trans (h.queued_of_mem r' hr)
    connection_of_queued := fun r' hr ↦
      (hcon' r').trans (h.connection_of_queued r' ((hqueued' r').symm.trans hr))
    connection_of_le := fun r' hr ↦ (hcon' r').trans (h.connection_of_le r' hr) }

/-- The first request leaves the queue. -/
theorem shift (h : Tracked a) {rest : List ℕ} (hq : a.queue = r :: rest) :
    Tracked ((a.setQueue rest).setRequest r { a.request r with queued := false }) := by
  have hnodup := h.nodup
  rw [hq, List.nodup_cons] at hnodup
  have hcon' (r' : ℕ) : (((a.setQueue rest).setRequest r
      { a.request r with queued := false }).request r').connection = (a.request r').connection := by
    by_cases hr : r' = r
    · rw [hr, request_setRequest_self]
    · rw [request_setRequest_of_ne _ hr]
      rfl
  have hmem (r' : ℕ) (hr : r' ∈ rest) : r' ∈ a.queue := hq ▸ List.mem_cons_of_mem r hr
  exact { h with
    connection_iff := fun r' s ↦ by
      rw [hcon']
      exact h.connection_iff r' s
    nodup := hnodup.2
    queued_of_mem := fun r' hr ↦ by
      have hne : r' ≠ r := fun he ↦ hnodup.1 (he ▸ hr)
      rw [request_setRequest_of_ne _ hne]
      exact h.queued_of_mem r' (hmem r' hr)
    lt_of_mem := fun r' hr ↦ h.lt_of_mem r' (hmem r' hr)
    connection_of_queued := fun r' hr ↦ by
      by_cases he : r' = r
      · rw [he, request_setRequest_self] at hr
        cases hr
      · rw [request_setRequest_of_ne _ he] at hr
        exact (hcon' r').trans (h.connection_of_queued r' hr)
    connection_of_le := fun r' hr ↦ (hcon' r').trans (h.connection_of_le r' hr) }

/-- A change of one request and one socket that leaves them attached to each other, or both to
nothing. -/
theorem link (h : Tracked a) {q : ClientRequest} {k : AgentSocket} (hr : r < a.requests)
    (hs : s < a.created)
    (hold : (a.request r).connection = none ∧ (a.socket s).httpMessage = none ∨
      (a.request r).connection = some s ∧ (a.socket s).httpMessage = some r)
    (hnew : q.connection = none ∧ k.httpMessage = none ∨
      q.connection = some s ∧ k.httpMessage = some r)
    (hqueued : q.queued = false) (hmem : r ∉ a.queue) :
    Tracked ((a.setSocket s k).setRequest r q) := by
  have hrequest {r' : ℕ} (hne : r' ≠ r) :
      ((a.setSocket s k).setRequest r q).request r' = a.request r' :=
    request_setRequest_of_ne _ hne q
  have hsocket {s' : ℕ} (hne : s' ≠ s) :
      ((a.setSocket s k).setRequest r q).socket s' = a.socket s' :=
    socket_setSocket_of_ne _ hne k
  have hsocket_self : ((a.setSocket s k).setRequest r q).socket s = k := socket_setSocket_self _ s k
  constructor
  · intro r' s'
    have hiff := h.connection_iff r' s'
    -- each of the two is either the one that changes or another one
    by_cases hr' : r' = r <;> by_cases hs' : s' = s
    · rw [hr', hs', request_setRequest_self, hsocket_self]
      rcases hnew with ⟨h₁, h₂⟩ | ⟨h₁, h₂⟩ <;> rw [h₁, h₂] <;> simp
    · -- another socket never had the request, and its own is not that one
      rw [hr'] at hiff ⊢
      rw [request_setRequest_self, hsocket hs', ← hiff]
      have hq : q.connection ≠ some s' := by
        rcases hnew with ⟨h₁, -⟩ | ⟨h₁, -⟩ <;> simp [h₁, Ne.symm hs']
      have hc : (a.request r).connection ≠ some s' := by
        rcases hold with ⟨h₁, -⟩ | ⟨h₁, -⟩ <;> simp [h₁, Ne.symm hs']
      exact iff_of_false hq hc
    · rw [hs'] at hiff ⊢
      rw [hrequest hr', hsocket_self, hiff]
      have hk : k.httpMessage ≠ some r' := by
        rcases hnew with ⟨-, h₁⟩ | ⟨-, h₁⟩ <;> simp [h₁, Ne.symm hr']
      have hm : (a.socket s).httpMessage ≠ some r' := by
        rcases hold with ⟨-, h₁⟩ | ⟨-, h₁⟩ <;> simp [h₁, Ne.symm hr']
      exact iff_of_false hm hk
    · rw [hrequest hr', hsocket hs']
      exact hiff
  · exact h.nodup
  · intro r' hr'
    have hne : r' ≠ r := fun he ↦ hmem (he ▸ hr')
    rw [hrequest hne]
    exact h.queued_of_mem r' hr'
  · exact h.lt_of_mem
  · intro r' hr'
    by_cases hne : r' = r
    · rw [hne, request_setRequest_self, hqueued] at hr'
      cases hr'
    · rw [hrequest hne] at hr' ⊢
      exact h.connection_of_queued r' hr'
  · intro r' hr'
    have hne : r' ≠ r := fun he ↦ by
      rw [he] at hr'
      exact absurd hr (Nat.not_lt.mpr hr')
    rw [hrequest hne]
    exact h.connection_of_le r' hr'
  · exact h.sockets_lt
  · intro s' hs'
    have hne : s' ≠ s := fun he ↦ by
      rw [he] at hs'
      exact absurd hs (Nat.not_lt.mpr hs')
    rw [hsocket hne]
    exact h.httpMessage_of_le s' hs'

/-- A request that a socket carries is one of the agent. -/
theorem lt_of_httpMessage (h : Tracked a) (hm : (a.socket s).httpMessage = some r) :
    r < a.requests := by
  by_contra hge
  rw [← h.connection_iff, h.connection_of_le r (Nat.not_lt.mp hge)] at hm
  cases hm

theorem socket_lt_of_httpMessage (h : Tracked a) (hm : (a.socket s).httpMessage = some r) :
    s < a.created := by
  by_contra hge
  rw [h.httpMessage_of_le s (Nat.not_lt.mp hge)] at hm
  cases hm

/-- A request that a socket carries is not in the queue. -/
theorem not_queued_of_httpMessage (h : Tracked a) (hm : (a.socket s).httpMessage = some r) :
    (a.request r).queued = false := by
  rw [← Bool.not_eq_true]
  intro hq
  rw [← h.connection_iff, h.connection_of_queued r hq] at hm
  cases hm

theorem not_mem_of_httpMessage (h : Tracked a) (hm : (a.socket s).httpMessage = some r) :
    r ∉ a.queue := by
  intro hq
  have hqueued := h.queued_of_mem r hq
  rw [h.not_queued_of_httpMessage hm] at hqueued
  cases hqueued

theorem detached (h : Tracked a) (hm : (a.socket s).httpMessage = some r) :
    Tracked (a.detached r s) :=
  h.link (h.lt_of_httpMessage hm) (h.socket_lt_of_httpMessage hm)
    (Or.inr ⟨(h.connection_iff r s).mpr hm, hm⟩) (Or.inl ⟨rfl, rfl⟩)
    (h.not_queued_of_httpMessage hm) (h.not_mem_of_httpMessage hm)

theorem dispatch (h : Tracked a) {rest : List ℕ} (hq : a.queue = r :: rest)
    (hs : a.sockets.find? a.available = some s) : Tracked (a.dispatch r s rest) := by
  have hmem : r ∈ a.queue := hq ▸ List.mem_cons_self ..
  have hcon := h.connection_of_queued r (h.queued_of_mem r hmem)
  have hnodup := h.nodup
  rw [hq, List.nodup_cons] at hnodup
  have hav := List.find?_some hs
  rw [available, Bool.and_eq_true, Option.isNone_iff_eq_none] at hav
  have hlink := (h.shift hq).link
    (q := { a.request r with queued := false, connection := some s })
    (k := { a.socket s with httpMessage := some r })
    (h.lt_of_mem r hmem) (h.sockets_lt s (List.mem_of_find?_eq_some hs))
    (Or.inl ⟨by rw [request_setRequest_self]; exact hcon, hav.1⟩) (Or.inr ⟨rfl, rfl⟩) rfl hnodup.1
  have heq : a.dispatch r s rest =
      { (((a.setQueue rest).setRequest r { a.request r with queued := false }).setSocket s
          { a.socket s with httpMessage := some r }).setRequest r
          { a.request r with queued := false, connection := some s } with
        stack := .cycle :: a.stack, assigned := a.assigned ++ [r] } := by
    simp [Agent.dispatch, Agent.setRequest, Agent.setSocket, Agent.setQueue]
  rw [heq]
  exact { hlink with }

theorem establish (h : Tracked a) : Tracked a.establish := by
  refine { h with connection_iff := ?_, sockets_lt := ?_, httpMessage_of_le := ?_ }
  · intro r s
    by_cases hs : s = a.created
    · rw [hs, socket_establish_self]
      have hiff := h.connection_iff r a.created
      rwa [h.httpMessage_of_le a.created (Nat.le_refl _)] at hiff
    · rw [socket_establish_of_ne hs]
      exact h.connection_iff r s
  · intro s hs
    rcases List.mem_append.mp hs with hs | hs
    · exact Nat.lt_succ_of_lt (h.sockets_lt s hs)
    · rw [List.mem_singleton.mp hs]
      exact Nat.lt_succ_self _
  · intro s hs
    rw [socket_establish_of_ne (Nat.ne_of_gt hs)]
    exact h.httpMessage_of_le s (Nat.le_of_lt hs)

theorem cycle (h : Tracked a) (hb : a.cycle = .ok b) : Tracked b := by
  rcases cycle_cases hb with ⟨rfl, -⟩ | ⟨r, rest, s, hq, hs, rfl⟩ | ⟨-, -, -, rfl⟩
  · exact h
  · exact h.dispatch hq hs
  · exact h.establish

/-- A new request goes to the end of the queue. -/
theorem append (h : Tracked a) : Tracked { a.setRequest a.requests
    { a.request a.requests with queued := true } with
      queue := a.queue ++ [a.requests], requests := a.requests + 1 } := by
  -- the requests are numbered, so that the new one is in no queue yet
  have hfresh : a.requests ∉ a.queue := fun hm ↦ Nat.lt_irrefl _ (h.lt_of_mem _ hm)
  have hcon (r : ℕ) : ((a.setRequest a.requests { a.request a.requests with queued := true }).request
      r).connection = (a.request r).connection := by
    by_cases hr : r = a.requests
    · rw [hr, request_setRequest_self]
    · rw [request_setRequest_of_ne _ hr]
  constructor
  · intro r s
    rw [hcon]
    exact h.connection_iff r s
  · exact List.nodup_append.mpr ⟨h.nodup, List.pairwise_singleton _ _, fun r hr r' hr' ↦ by
      rw [List.mem_singleton.mp hr']
      exact fun he ↦ hfresh (he ▸ hr)⟩
  · intro r hr
    by_cases he : r = a.requests
    · rw [he, request_setRequest_self]
    · rw [request_setRequest_of_ne _ he]
      rcases List.mem_append.mp hr with hr | hr
      · exact h.queued_of_mem r hr
      · exact absurd (List.mem_singleton.mp hr) he
  · intro r hr
    rcases List.mem_append.mp hr with hr | hr
    · exact Nat.lt_succ_of_lt (h.lt_of_mem r hr)
    · rw [List.mem_singleton.mp hr]
      exact Nat.lt_succ_self _
  · intro r hr
    rw [hcon]
    by_cases he : r = a.requests
    · exact h.connection_of_le r (Nat.le_of_eq he.symm)
    · rw [request_setRequest_of_ne _ he] at hr
      exact h.connection_of_queued r hr
  · intro r hr
    rw [hcon]
    exact h.connection_of_le r (Nat.le_of_succ_le hr)
  · exact h.sockets_lt
  · exact h.httpMessage_of_le

theorem abort (h : Tracked a) (hb : a.abort r = .ok b) : Tracked b := by
  unfold Agent.abort at hb
  split_ifs at hb with hq hc hm
  · obtain rfl := Except.ok.inj hb
    exact h.setQueue (List.erase_sublist ..)
  · obtain rfl := Except.ok.inj hb
    exact h.setQueue (List.dropLast_sublist _)
  · split at hb
    · obtain ⟨c, hc, hb⟩ := Machine.exists_of_bind_eq_ok hb
      unfold detachSocket at hc
      split_ifs at hc with hm
      obtain rfl := Except.ok.inj hc
      obtain rfl := Except.ok.inj hb
      exact (h.detached hm).destroy _
    · obtain rfl := Except.ok.inj hb
      exact h

theorem destroySoon (h : Tracked a) (s : ℕ) (shouldKeepAlive flushed : Bool) :
    Tracked (a.destroySoon s shouldKeepAlive flushed) := by
  have hincoming := h.setSocket (s := s) (k := { a.socket s with incoming := none }) rfl
  unfold Agent.destroySoon
  dsimp only
  split_ifs
  · exact hincoming.destroy s
  · exact hincoming

theorem onEnd (h : Tracked a) {shouldKeepAlive flushed : Bool}
    (hb : a.onEnd s shouldKeepAlive flushed = .ok b) : Tracked b := by
  rcases onEnd_cases hb with rfl | ⟨r, hm, hb⟩
  · exact h
  · exact ((h.destroySoon s _ _).detached hm).cycle hb

theorem onIncoming (h : Tracked a) (s : ℕ) (isContinue : Bool) :
    Tracked (a.onIncoming s isContinue) := by
  unfold Agent.onIncoming
  split
  · exact h.destroy s
  · rename_i r hm
    have hres := h.setRequest (r := r) (q := { a.request r with res := true }) rfl rfl
    dsimp only
    split_ifs
    · exact hres
    · exact hres.setSocket rfl

theorem onError (h : Tracked a) (hb : a.onError s = .ok b) : Tracked b := by
  unfold Agent.onError at hb
  split at hb
  · obtain rfl := Except.ok.inj hb
    exact (h.emitError _).push _
  · split at hb
    · rename_i hq
      split_ifs at hb
      obtain rfl := Except.ok.inj hb
      exact ((h.shift hq).emitError _).push _
    · cases hb

theorem onClose (h : Tracked a) (s : ℕ) : Tracked (a.onClose s) := by
  unfold Agent.onClose
  split
  · split_ifs
    · exact h.push _
    · exact (h.emitError _).push _
  · exact h.push _

theorem setStack (h : Tracked a) (l : List Task) : Tracked (a.setStack l) := { h with }

theorem resume (h : Tracked a) (hb : a.resume = .ok b) : Tracked b := by
  rcases resume_cases hb with ⟨-, rfl⟩ | ⟨t, stack, -, ⟨-, hb⟩ | ⟨s, -, -, rfl⟩ | ⟨s, r, -, hb⟩ |
    ⟨s, -, hb⟩⟩
  · exact h
  · exact (h.setStack stack).cycle hb
  · exact h.setStack stack
  · have hfailed := (h.setStack stack).setRequest (r := r)
      (q := { a.request r with hadError := true }) rfl rfl
    exact ((hfailed.destroy s).removeSocket s).cycle hb
  · exact ((h.setStack stack).removeSocket s).cycle hb

theorem step (h : Tracked a) {e : AgentEvent} (hb : a.step e = .ok b) : Tracked b := by
  cases e with
  | append => exact h.append.cycle hb
  | abort r => exact h.abort hb
  | responseEnd s shouldKeepAlive flushed => exact h.onEnd hb
  | error s => exact h.onError hb
  | resume => exact h.resume hb
  | connect s =>
    obtain rfl := Except.ok.inj hb
    have hconnect := h.setSocket (s := s)
      (k := { a.socket s with httpConnecting := false, writable := true, readable := true }) rfl
    exact hconnect.push _
  | response s isContinue =>
    obtain rfl := Except.ok.inj hb
    exact h.onIncoming s isContinue
  | close s =>
    obtain rfl := Except.ok.inj hb
    exact h.onClose s
  | down s writable readable =>
    obtain rfl := Except.ok.inj hb
    exact h.setSocket rfl

end Tracked

theorem tracked_of_reaches {maxSockets : ℕ} (h : machine.Reaches (init maxSockets) a) : Tracked a :=
  h.invariant (tracked_init maxSockets) fun ht _ hb ↦ ht.step hb

/-! ## Every request is somewhere -/

/-- Where a request can be. -/
inductive Whereabouts where
  | queued
  | assigned (s : ℕ)
  | done
  deriving DecidableEq, Repr

/-- A request is in the queue once, or carried by exactly one socket, or neither. -/
def Is (a : Agent) (r : ℕ) : Whereabouts → Prop
  | .queued => a.queue.count r = 1 ∧ ∀ s, (a.socket s).httpMessage ≠ some r
  | .assigned s => r ∉ a.queue ∧ ∀ s', (a.socket s').httpMessage = some r ↔ s' = s
  | .done => r ∉ a.queue ∧ ∀ s, (a.socket s).httpMessage ≠ some r

theorem Tracked.existsUnique_is (h : Tracked a) (r : ℕ) : ∃! w, a.Is r w := by
  by_cases hq : r ∈ a.queue
  · have hnone (s : ℕ) : (a.socket s).httpMessage ≠ some r := fun hm ↦
      h.not_mem_of_httpMessage hm hq
    refine ⟨.queued, ⟨List.count_eq_one_of_mem h.nodup hq, hnone⟩, ?_⟩
    rintro (_ | s | _) hw
    · rfl
    · exact absurd hq hw.1
    · exact absurd hq hw.1
  · have hcount : a.queue.count r ≠ 1 := by
      rw [List.count_eq_zero_of_not_mem hq]
      exact Nat.zero_ne_one
    rcases hc : (a.request r).connection with _ | s
    · have hnone (s : ℕ) : (a.socket s).httpMessage ≠ some r := by
        rw [ne_eq, ← h.connection_iff, hc]
        exact nofun
      refine ⟨.done, ⟨hq, hnone⟩, ?_⟩
      rintro (_ | s | _) hw
      · exact absurd hw.1 hcount
      · exact absurd ((hw.2 s).mpr rfl) (hnone s)
      · rfl
    · have hiff (s' : ℕ) : (a.socket s').httpMessage = some r ↔ s' = s := by
        rw [← h.connection_iff, hc, Option.some.injEq, eq_comm]
      refine ⟨.assigned s, ⟨hq, hiff⟩, ?_⟩
      rintro (_ | s' | _) hw
      · exact absurd hw.1 hcount
      · rw [← (hiff s').mp ((hw.2 s').mpr rfl)]
      · exact absurd ((hiff s).mpr rfl) (hw.2 s)

/-! ## What goes wrong -/

/-- From `a` to `b`, only the request and its own socket have changed. -/
structure OnlyOwn (a : Agent) (r : ℕ) (b : Agent) : Prop where
  request_eq : ∀ r' ≠ r, b.request r' = a.request r'
  socket_eq : ∀ s, (a.request r).connection ≠ some s → b.socket s = a.socket s
  queue_eq : b.queue = a.queue.erase r
  sockets_eq : b.sockets = a.sockets
  errors_eq : b.errors = a.errors
  assigned_eq : b.assigned = a.assigned
  stack_eq : b.stack = a.stack

/-- The step keeps to the records: none of the assertions about them fails, and `abort` is about one
request only. -/
def Good (a : Agent) (e : AgentEvent) : Prop :=
  (∀ f, a.step e = .error f → f.isTracking = false) ∧
    ∀ r b, e = .abort r → a.step e = .ok b → OnlyOwn a r b

/-- A request is not aborted after it was taken out of the queue by `abort`, unless the queue is
empty. A response ends only while the socket carries its request; and if the connection is not kept
alive, the socket is flushed then, or not writable any more. -/
def Careful (a : Agent) : AgentEvent → Prop
  | .abort r => (a.request r).queued = true → r ∈ a.queue ∨ a.queue = []
  | .responseEnd s shouldKeepAlive flushed => ∀ r, (a.socket s).incoming = some r →
      (a.socket s).httpMessage = some r ∧
        (shouldKeepAlive = true ∨ (a.socket s).writable = false ∨ flushed = true)
  | _ => True

theorem onError_error {f : Failure} (h : a.onError s = .error f) : f.isTracking = false := by
  unfold onError at h
  split at h
  · cases h
  · split at h
    · split_ifs at h
      obtain rfl := Except.error.inj h
      rfl
    · obtain rfl := Except.error.inj h
      rfl

theorem resume_error_isTracking {f : Failure} (h : a.resume = .error f) : f.isTracking = false := by
  rcases resume_error h with rfl | ⟨rfl, -⟩ <;> rfl

theorem abort_onlyOwn (h : Tracked a) (hc : Careful a (.abort r)) :
    ∃ b, a.abort r = .ok b ∧ OnlyOwn a r b := by
  unfold Agent.abort
  by_cases hq : (a.request r).queued = true
  · -- either it is in the queue, or nothing is
    have hcon := h.connection_of_queued r hq
    rw [if_pos hq, hcon, if_neg (by decide)]
    refine ⟨_, rfl, fun _ _ ↦ rfl, fun _ _ ↦ rfl, ?_, rfl, rfl, rfl, rfl⟩
    rcases hc hq with hmem | hnil
    · exact if_pos hmem
    · rw [setQueue, hnil]
      rfl
  · rw [if_neg hq]
    have hmem : r ∉ a.queue := fun hm ↦ hq (h.queued_of_mem r hm)
    rcases hcon : (a.request r).connection with _ | s
    · exact ⟨a, rfl, fun _ _ ↦ rfl, fun _ _ ↦ rfl, (List.erase_of_not_mem hmem).symm, rfl, rfl, rfl,
        rfl⟩
    · have hm := (h.connection_iff r s).mp hcon
      dsimp only
      rw [detachSocket, if_pos hm]
      refine ⟨_, rfl, fun r' hr ↦ ?_, fun s' hs ↦ ?_, (List.erase_of_not_mem hmem).symm, rfl, rfl,
        rfl, rfl⟩
      · exact request_setRequest_of_ne _ hr _
      · have hne : s' ≠ s := fun he ↦ hs (by rw [he, hcon])
        rw [destroy, socket_setSocket_of_ne _ hne]
        exact socket_setSocket_of_ne _ hne _

theorem good_abort_iff (h : Tracked a) : Good a (.abort r) ↔ Careful a (.abort r) := by
  constructor
  · rintro ⟨-, hown⟩ hq
    by_contra hnot
    obtain ⟨hmem, hne⟩ := not_or.mp hnot
    -- `splice(-1, 1)` shortens the queue
    have hstep : a.step (.abort r) = .ok (a.setQueue a.queue.dropLast) := by
      rw [step, abort, if_pos hq, h.connection_of_queued r hq, if_neg (by decide), if_neg hmem]
    have hqueue := (hown r _ rfl hstep).queue_eq
    rw [List.erase_of_not_mem hmem] at hqueue
    have hlen := congrArg List.length hqueue
    have hpos := List.length_pos_iff.mpr hne
    rw [setQueue, List.length_dropLast] at hlen
    omega
  · intro hc
    obtain ⟨b, hb, hown⟩ := abort_onlyOwn h hc
    refine ⟨fun f hf ↦ ?_, fun r' b' he hb' ↦ ?_⟩
    · rw [step, hb] at hf
      cases hf
    · obtain rfl := AgentEvent.abort.inj he
      rw [step, hb] at hb'
      rwa [← Except.ok.inj hb']

theorem socket_destroySoon (a : Agent) (s : ℕ) (shouldKeepAlive flushed : Bool) :
    ((a.destroySoon s shouldKeepAlive flushed).socket s).httpMessage = (a.socket s).httpMessage ∧
      ((a.destroySoon s shouldKeepAlive flushed).socket s).writable =
        ((a.socket s).writable && !(!shouldKeepAlive && flushed)) := by
  simp only [destroySoon, destroy, socket_setSocket_self]
  split_ifs with hd
  · rw [socket_setSocket_self]
    rcases shouldKeepAlive <;> rcases flushed <;> simp_all
  · rw [socket_setSocket_self]
    rcases shouldKeepAlive <;> rcases flushed <;> simp_all

theorem good_responseEnd_iff {shouldKeepAlive flushed : Bool}
    (hin : (a.socket s).incoming.isSome = true) :
    Good a (.responseEnd s shouldKeepAlive flushed) ↔
      Careful a (.responseEnd s shouldKeepAlive flushed) := by
  obtain ⟨r, hr⟩ := Option.isSome_iff_exists.mp hin
  obtain ⟨hmsg, hwritable⟩ := socket_destroySoon a s shouldKeepAlive flushed
  simp only [Good, Careful, step, onEnd, hr, Option.some.injEq, forall_eq', hwritable]
  by_cases hw :
      (!shouldKeepAlive && ((a.socket s).writable && !(!shouldKeepAlive && flushed))) = true
  · -- the socket is still writable
    rw [if_pos hw]
    refine iff_of_false (fun h ↦ ?_) ?_
    · exact absurd (h.1 _ rfl) (by decide)
    · rintro ⟨-, h⟩
      rcases shouldKeepAlive <;> rcases flushed <;> simp_all
  · rw [if_neg hw]
    have hclosed : shouldKeepAlive = true ∨ (a.socket s).writable = false ∨ flushed = true := by
      rcases shouldKeepAlive <;> rcases flushed <;> simp_all
    by_cases hm : (a.socket s).httpMessage = some r
    · rw [detachSocket, if_pos (hmsg.trans hm)]
      refine iff_of_true ⟨fun f hf ↦ ?_, fun _ _ h ↦ by cases h⟩ ⟨hm, hclosed⟩
      change (if ((Agent.setSocket _ s _).socket s).httpMessage.isSome = true then _ else _) = _ at hf
      simp only [socket_setSocket_self, Option.isSome_none, Bool.false_eq_true, if_false] at hf
      rw [cycle_error hf]
      rfl
    · rw [detachSocket, hmsg, if_neg hm]
      refine iff_of_false (fun h ↦ ?_) fun h ↦ hm h.1
      exact absurd (h.1 _ rfl) (by decide)

/-- In every run, every request is somewhere; and exactly the careful steps keep to the records. -/
theorem conserves_iff {maxSockets : ℕ} (h : machine.Reaches (init maxSockets) a) :
    (∀ r, ∃! w, a.Is r w) ∧ ∀ e, a.Allows e → (Good a e ↔ Careful a e) := by
  have ht := tracked_of_reaches h
  refine ⟨ht.existsUnique_is, fun e he ↦ ?_⟩
  -- all other steps end in `_cycle`, or have assertions of another kind
  have hother (hne : ∀ r, e ≠ .abort r)
      (hf : ∀ f, a.step e = .error f → f.isTracking = false) : Good a e :=
    ⟨hf, fun r _ he _ ↦ absurd he (hne r)⟩
  cases e with
  | abort r => exact good_abort_iff ht
  | responseEnd s shouldKeepAlive flushed => exact good_responseEnd_iff he.2.1
  | append =>
    refine iff_of_true (hother nofun fun f hf ↦ ?_) trivial
    rw [cycle_error hf]
    rfl
  | error s =>
    refine iff_of_true (hother nofun fun f hf ↦ ?_) trivial
    exact onError_error hf
  | resume =>
    refine iff_of_true (hother nofun fun f hf ↦ ?_) trivial
    exact resume_error_isTracking hf
  | connect s | response s | close s | down s =>
    refine iff_of_true (hother nofun fun f hf ↦ ?_) trivial
    cases hf

/-- Two requests for one connection: the first is given to it, the second waits and is aborted. -/
theorem conserves_iff_aborted :
    ∃ a, machine.run (init 1) [.append, .resume, .resume, .resume, .append, .abort 1] = some a ∧
      (∀ r, ∃! w, a.Is r w) ∧ ∀ e, a.Allows e → (Good a e ↔ Careful a e) := by
  obtain ⟨a, ha⟩ := Option.isSome_iff_exists.mp (show (machine.run (init 1)
    [.append, .resume, .resume, .resume, .append, .abort 1]).isSome = true by decide)
  exact ⟨a, ha, conserves_iff (Machine.reaches_of_run ha)⟩

/-- A request that waits is aborted twice, and the request behind it disappears. -/
theorem abort_twice_not_good :
    ¬∀ (maxSockets : ℕ) (a : Agent), machine.Reaches (init maxSockets) a →
      (∀ r, ∃! w, a.Is r w) ∧ ∀ e, a.Allows e → Good a e := by
  intro hall
  obtain ⟨a, ha⟩ := Option.isSome_iff_exists.mp (show (machine.run (init 1)
    [.append, .resume, .resume, .resume, .append, .append, .abort 1]).isSome = true by decide)
  have hrun : (machine.run (init 1)
      [.append, .resume, .resume, .resume, .append, .append, .abort 1]).map
        (fun a ↦ (a.queue, (a.request 1).queued, a.requests)) = some ([2], true, 3) := by decide
  rw [ha, Option.map_some, Option.some.injEq, Prod.mk.injEq, Prod.mk.injEq] at hrun
  obtain ⟨hqueue, hqueued, hrequests⟩ := hrun
  have hreach := Machine.reaches_of_run ha
  have hgood := (hall 1 a hreach).2 (.abort 1) (show 1 < a.requests by omega)
  have hcareful := (good_abort_iff (tracked_of_reaches hreach)).mp hgood hqueued
  rw [hqueue] at hcareful
  exact absurd hcareful (by decide)

/-! ## A socket that fails -/

/-- From `a` to `b`, no request got an error, and requests left the queue only for a socket. -/
structure Moved (a b : Agent) : Prop where
  errors_eq : b.errors = a.errors
  requests_eq : b.requests = a.requests
  maxSockets_eq : b.maxSockets = a.maxSockets
  exists_assigned : ∃ l, b.assigned = a.assigned ++ l ∧ a.queue = l ++ b.queue

theorem Moved.refl (a : Agent) : Moved a a := ⟨rfl, rfl, rfl, [], (List.append_nil _).symm, rfl⟩

theorem Moved.trans {c : Agent} (h : Moved a b) (h' : Moved b c) : Moved a c := by
  obtain ⟨he, hr, hm, l, ha, hq⟩ := h
  obtain ⟨he', hr', hm', l', ha', hq'⟩ := h'
  refine ⟨he'.trans he, hr'.trans hr, hm'.trans hm, l ++ l', ?_, ?_⟩
  · rw [ha', ha, List.append_assoc]
  · rw [hq, hq', List.append_assoc]

theorem moved_of_cycle (h : a.cycle = .ok b) : Moved a b := by
  rcases cycle_cases h with ⟨rfl, -⟩ | ⟨r, rest, s, hq, -, rfl⟩ | ⟨-, -, -, rfl⟩
  · exact Moved.refl _
  · exact ⟨rfl, rfl, rfl, [r], rfl, hq⟩
  · exact ⟨rfl, rfl, rfl, [], (List.append_nil _).symm, rfl⟩

theorem moved_destroySoon (a : Agent) (s : ℕ) (shouldKeepAlive flushed : Bool) :
    Moved a (a.destroySoon s shouldKeepAlive flushed) := by
  unfold destroySoon
  dsimp only
  split_ifs <;> exact ⟨rfl, rfl, rfl, (Moved.refl a).exists_assigned⟩

theorem moved_of_onEnd {shouldKeepAlive flushed : Bool}
    (h : a.onEnd s shouldKeepAlive flushed = .ok b) : Moved a b := by
  rcases onEnd_cases h with rfl | ⟨r, -, h⟩
  · exact Moved.refl _
  · exact (moved_destroySoon a s _ _).trans { moved_of_cycle h with }

theorem moved_of_resume (h : a.resume = .ok b) : Moved a b := by
  rcases resume_cases h with ⟨-, rfl⟩ | ⟨t, stack, -, ⟨-, h⟩ | ⟨s, -, -, rfl⟩ | ⟨s, r, -, h⟩ |
    ⟨s, -, h⟩⟩
  · exact Moved.refl _
  · exact { moved_of_cycle h with }
  · exact ⟨rfl, rfl, rfl, (Moved.refl a).exists_assigned⟩
  · exact { moved_of_cycle h with }
  · exact { moved_of_cycle h with }

/-- What is left to do for the `'error'` listener of a socket: it finishes the parser, destroys the
socket, and calls `_cycle`. -/
def handler (s : ℕ) : Machine Agent AgentEvent Failure :=
  machine.restrict fun _ e ↦ e = .resume ∨ ∃ shouldKeepAlive flushed,
    e = .responseEnd s shouldKeepAlive flushed

theorem moved_of_handler {s : ℕ} (h : (handler s).Reaches a b) : Moved a b := by
  refine h.invariant (Moved.refl a) ?_
  rintro b c e hb ⟨-, rfl | ⟨shouldKeepAlive, flushed, rfl⟩⟩ hc
  · exact hb.trans (moved_of_resume hc)
  · exact hb.trans (moved_of_onEnd hc)

/-- An error of a socket is charged to the request it carries: the listener does not fail, no other
request gets the error, and none leaves the queue but for a socket. -/
def Charged (a : Agent) (s : ℕ) : Prop :=
  ∃ b, a.step (.error s) = .ok b ∧ ∀ c, (handler s).Reaches b c →
    (∃ l, c.errors = a.errors ++ l ∧ ∀ r ∈ l, (a.socket s).httpMessage = some r) ∧
      ∃ l, c.assigned = a.assigned ++ l ∧ a.queue = l ++ c.queue

/-- It is charged to the right request if and only if the socket carries one. -/
theorem charged_iff (a : Agent) (s : ℕ) :
    a.Charged s ↔ (a.socket s).httpMessage.isSome = true := by
  rcases hm : (a.socket s).httpMessage with _ | r
  · refine iff_of_false ?_ (by decide)
    rintro ⟨b, hb, hc⟩
    rw [step, onError, hm] at hb
    rcases hq : a.queue with _ | ⟨r, rest⟩
    · rw [hq] at hb
      cases hb
    · -- the first request of the queue gets the error
      simp only [hq] at hb
      split_ifs at hb
      obtain rfl := Except.ok.inj hb
      obtain ⟨⟨l, hl, hcarried⟩, -⟩ := hc _ .init
      have hmem : r ∈ l := by
        have heq : l = [r] := (List.append_cancel_left hl).symm
        rw [heq]
        exact List.mem_singleton_self r
      have := hcarried r hmem
      rw [hm] at this
      cases this
  · refine iff_of_true ?_ rfl
    refine ⟨(a.emitError r).push (.failed s r), ?_, fun c hc ↦ ?_⟩
    · rw [step, onError, hm]
    · obtain ⟨he, -, -, hmoved⟩ := moved_of_handler hc
      refine ⟨⟨[r], he, fun r' hr ↦ ?_⟩, hmoved⟩
      rw [List.mem_singleton.mp hr]
      exact hm

/-- A connection is kept alive after its response, and fails while nothing is asked of it. -/
theorem idle_not_charged :
    ¬∀ (maxSockets : ℕ) (a : Agent) (s : ℕ), machine.Reaches (init maxSockets) a →
      a.Allows (.error s) → a.Charged s := by
  intro hall
  obtain ⟨a, ha⟩ := Option.isSome_iff_exists.mp (show (machine.run (init 1)
    [.append, .resume, .resume, .resume, .connect 0, .resume, .response 0 false,
      .responseEnd 0 true true]).isSome = true by decide)
  have hrun : (machine.run (init 1)
      [.append, .resume, .resume, .resume, .connect 0, .resume, .response 0 false,
        .responseEnd 0 true true]).map
        (fun a ↦ (a.created, a.stack, (a.socket 0).httpMessage, a.queue)) =
          some (1, [], none, []) := by decide
  rw [ha, Option.map_some, Option.some.injEq, Prod.mk.injEq, Prod.mk.injEq, Prod.mk.injEq] at hrun
  obtain ⟨hcreated, hstack, hmessage, hqueue⟩ := hrun
  obtain ⟨b, hb, -⟩ := hall 1 a 0 (Machine.reaches_of_run ha) ⟨by omega, hstack⟩
  rw [step, onError, hmessage, hqueue] at hb
  cases hb

end SpiderNode.Http.Agent
