import SpiderNode.Http.Tracking

/-!
# The order in which an agent hands out its requests

Without `abort`, and as long as only sockets with a request fail, the requests leave the queue for a
socket and for nothing else. So they are given to sockets in the order in which they were appended,
each of them once.

`_establishNewConnection` puts a socket into the list and calls `_cycle`, and then asserts that the
new socket has a message. `_cycle` looks for *any* available socket; it is the new one because the
call came from a `_cycle` that had found none, and nothing happens in between that would make
another one available. That is the invariant `Pending`.
-/

namespace SpiderNode.Http.Agent

open Function (update)

variable {a b : Agent} {n : ℕ}

/-- The events of a run without `abort`, where only sockets with a request fail. -/
def Undisturbed (a : Agent) : AgentEvent → Prop
  | .abort _ => False
  | .error s => (a.socket s).httpMessage.isSome = true
  | _ => True

instance : ∀ (a : Agent) (e : AgentEvent), Decidable (Undisturbed a e)
  | _, .abort _ => inferInstanceAs (Decidable False)
  | a, .error s => inferInstanceAs (Decidable ((a.socket s).httpMessage.isSome = true))
  | _, .append | _, .connect _ | _, .response _ _ | _, .responseEnd _ _ _ | _, .close _
  | _, .down _ _ _ | _, .resume => inferInstanceAs (Decidable True)

/-! ## Order and number -/

/-- There are not too many sockets, and what has left the queue was given a socket. -/
structure Ordered (n : ℕ) (a : Agent) : Prop where
  maxSockets_eq : a.maxSockets = n
  length_le : a.sockets.length ≤ n
  order : a.assigned ++ a.queue = List.range a.requests

namespace Ordered

theorem of_moved (h : Ordered n a) (hm : Moved a b) (hs : b.sockets.length ≤ n) : Ordered n b := by
  obtain ⟨l, ha, hq⟩ := hm.exists_assigned
  refine ⟨hm.maxSockets_eq.trans h.maxSockets_eq, hs, ?_⟩
  rw [ha, List.append_assoc, ← hq, hm.requests_eq]
  exact h.order

theorem cycle (h : Ordered n a) (hb : a.cycle = .ok b) : Ordered n b := by
  refine h.of_moved (moved_of_cycle hb) ?_
  rcases cycle_cases hb with ⟨rfl, -⟩ | ⟨r, rest, s, -, -, rfl⟩ | ⟨-, -, hlt, rfl⟩
  · exact h.length_le
  · exact h.length_le
  · rw [establish, List.length_append, List.length_singleton]
    exact h.maxSockets_eq ▸ hlt

theorem append (h : Ordered n a) : Ordered n { a.setRequest a.requests
    { a.request a.requests with queued := true } with
      queue := a.queue ++ [a.requests], requests := a.requests + 1 } := by
  refine ⟨h.maxSockets_eq, h.length_le, ?_⟩
  change a.assigned ++ (a.queue ++ [a.requests]) = List.range (a.requests + 1)
  rw [← List.append_assoc, h.order, List.range_succ]

theorem removeSocket (h : Ordered n a) (s : ℕ) : Ordered n (a.removeSocket s) :=
  { h with length_le := Nat.le_trans (List.erase_sublist ..).length_le h.length_le }

theorem destroySoon (h : Ordered n a) (s : ℕ) (shouldKeepAlive flushed : Bool) :
    Ordered n (a.destroySoon s shouldKeepAlive flushed) := by
  refine h.of_moved (moved_destroySoon a s _ _) ?_
  unfold Agent.destroySoon
  dsimp only
  split_ifs <;> exact h.length_le

theorem resume (h : Ordered n a) (hb : a.resume = .ok b) : Ordered n b := by
  rcases resume_cases hb with ⟨-, rfl⟩ | ⟨t, stack, -, ⟨-, hb⟩ | ⟨s, -, -, rfl⟩ | ⟨s, r, -, hb⟩ |
    ⟨s, -, hb⟩⟩
  · exact h
  · have hpop : Ordered n (a.setStack stack) := { h with }
    exact hpop.cycle hb
  · exact { h with }
  · have hfailed : Ordered n (((a.setStack stack).setRequest r
        { a.request r with hadError := true }).destroy s) := { h with }
    exact (hfailed.removeSocket s).cycle hb
  · have hpop : Ordered n (a.setStack stack) := { h with }
    exact (hpop.removeSocket s).cycle hb

theorem step (h : Ordered n a) {e : AgentEvent} (he : Undisturbed a e) (hb : a.step e = .ok b) :
    Ordered n b := by
  cases e with
  | append => exact h.append.cycle hb
  | abort r => exact he.elim
  | responseEnd s shouldKeepAlive flushed =>
    rcases onEnd_cases hb with rfl | ⟨r, -, hb⟩
    · exact h
    · have hdetached : Ordered n ((a.destroySoon s shouldKeepAlive flushed).detached r s) :=
        { h.destroySoon s shouldKeepAlive flushed with }
      exact hdetached.cycle hb
  | error s =>
    obtain ⟨r, hm⟩ := Option.isSome_iff_exists.mp he
    rw [Agent.step, onError, hm] at hb
    obtain rfl := Except.ok.inj hb
    exact { h with }
  | resume => exact h.resume hb
  | connect s | down s writable readable =>
    obtain rfl := Except.ok.inj hb
    exact { h with }
  | response s isContinue =>
    obtain rfl := Except.ok.inj hb
    unfold onIncoming
    split
    · exact { h with }
    · dsimp only
      split_ifs <;> exact { h with }
  | close s =>
    obtain rfl := Except.ok.inj hb
    unfold onClose
    split
    · split_ifs <;> exact { h with }
    · exact { h with }

end Ordered

/-! ## The socket that waits for its message -/

/-- All new sockets have got their message. -/
def Settled (a : Agent) : Prop :=
  ∀ s, .established s ∈ a.stack → (a.socket s).httpMessage.isSome = true

/-- The new socket `s` has not, but it will get one: a request is waiting, and no other socket is
available. -/
structure Awaiting (a : Agent) (s : ℕ) : Prop where
  settled : ∀ s', .established s' ∈ a.stack → s' ≠ s → (a.socket s').httpMessage.isSome = true
  queue_ne : a.queue ≠ []
  mem : s ∈ a.sockets
  httpMessage : (a.socket s).httpMessage = none
  httpConnecting : (a.socket s).httpConnecting = true
  only : ∀ s' ∈ a.sockets, a.available s' = true → s' = s

/-- Every new socket has its message, or will get it from the `_cycle` on top of the stack. -/
def Pending (a : Agent) : Prop := Settled a ∨ ∃ s, Awaiting a s ∧ a.stack.head? = some .cycle

theorem isSome_httpMessage_dispatch {r s s' : ℕ} {rest : List ℕ}
    (h : s' ≠ s → (a.socket s').httpMessage.isSome = true) :
    ((a.dispatch r s rest).socket s').httpMessage.isSome = true := by
  by_cases hs : s' = s
  · rw [hs, socket_dispatch_self]
    rfl
  · rw [socket_dispatch_of_ne hs]
    exact h hs

/-- A new socket is the only one that is available. -/
theorem awaiting_establish (ht : Tracked a) (h : Settled a) (hq : a.queue ≠ [])
    (hbusy : ∀ s ∈ a.sockets, a.available s = false) : Awaiting a.establish a.created := by
  constructor
  · intro s hs hne
    rw [socket_establish_of_ne hne]
    apply h
    simpa [establish, hne] using hs
  · exact hq
  · exact List.mem_append_right _ (List.mem_singleton_self _)
  · rw [socket_establish_self]
  · rw [socket_establish_self]
  · intro s hs hav
    rcases List.mem_append.mp hs with hs | hs
    · have hne : s ≠ a.created := Nat.ne_of_lt (ht.sockets_lt s hs)
      rw [available, socket_establish_of_ne hne] at hav
      exact absurd hav (by rw [← available, hbusy s hs]; decide)
    · exact List.mem_singleton.mp hs

/-- `_cycle` serves the socket that waits. -/
theorem pending_of_cycle (ht : Tracked a) (h : Settled a ∨ ∃ s, Awaiting a s)
    (hb : a.cycle = .ok b) : Pending b := by
  rcases h with h | ⟨s, h⟩
  · rcases cycle_cases hb with ⟨rfl, -⟩ | ⟨r, rest, s, -, -, rfl⟩ | ⟨hq, hbusy, -, rfl⟩
    · exact Or.inl h
    · refine Or.inl fun s' hs ↦ isSome_httpMessage_dispatch fun _ ↦ h s' ?_
      simpa [dispatch] using hs
    · exact Or.inr ⟨a.created, awaiting_establish ht h hq hbusy, rfl⟩
  · have hav : a.available s = true := by
      rw [available, h.httpMessage, h.httpConnecting]
      simp
    rcases cycle_cases hb with ⟨-, hq | hbusy⟩ | ⟨r, rest, s', -, hs', rfl⟩ | ⟨-, hbusy, -, -⟩
    · exact absurd hq h.queue_ne
    · exact absurd hav (by rw [hbusy s h.mem]; decide)
    · have heq : s' = s := h.only s' (List.mem_of_find?_eq_some hs') (List.find?_some hs')
      refine Or.inl fun s'' hs ↦ isSome_httpMessage_dispatch fun hne ↦ h.settled s'' ?_ (heq ▸ hne)
      simpa [dispatch] using hs
    · exact absurd hav (by rw [hbusy s h.mem]; decide)

theorem settled_of_stack (h : ∀ s, .established s ∉ a.stack) : Settled a :=
  fun s hs ↦ absurd hs (h s)

/-- While a parser runs, no connection is being made. -/
theorem not_mem_stack_of_parsing {s : ℕ} (h : a.parsing s = true) (s' : ℕ) :
    .established s' ∉ a.stack := by
  unfold parsing at h
  split at h
  · rename_i hs
    rw [hs]
    exact List.not_mem_nil
  · rename_i hs
    rw [hs, List.mem_singleton]
    exact nofun
  · cases h

theorem stack_destroySoon (a : Agent) (s : ℕ) (shouldKeepAlive flushed : Bool) :
    (a.destroySoon s shouldKeepAlive flushed).stack = a.stack := by
  unfold destroySoon
  dsimp only
  split_ifs <;> rfl

theorem stack_onIncoming (a : Agent) (s : ℕ) (isContinue : Bool) :
    (a.onIncoming s isContinue).stack = a.stack := by
  unfold onIncoming
  split
  · rfl
  · dsimp only
    split_ifs <;> rfl

theorem stack_onClose (a : Agent) (s : ℕ) : (a.onClose s).stack = .closed s :: a.stack := by
  unfold onClose
  split
  · split_ifs <;> rfl
  · rfl

namespace Pending

theorem append (ht : Tracked a) (h : Pending a) (hb : a.appendMessage = .ok b) : Pending b := by
  refine pending_of_cycle ht.append ?_ hb
  rcases h with h | ⟨s, h, -⟩
  · exact Or.inl h
  · refine Or.inr ⟨s, { h with queue_ne := ?_ }⟩
    exact List.append_ne_nil_of_right_ne_nil _ (List.cons_ne_nil _ _)

theorem resume (ht : Tracked a) (h : Pending a) (hb : a.resume = .ok b) : Pending b := by
  rcases resume_cases hb with ⟨-, rfl⟩ | ⟨t, stack, hstack, hb⟩
  · exact h
  have hmem (s : ℕ) (hs : .established s ∈ stack) : .established s ∈ a.stack :=
    hstack ▸ List.mem_cons_of_mem t hs
  rcases h with h | ⟨s, h, htop⟩
  · have hpop : Settled (a.setStack stack) := fun s hs ↦ h s (hmem s hs)
    rcases hb with ⟨-, hb⟩ | ⟨s, -, -, rfl⟩ | ⟨s, r, -, hb⟩ | ⟨s, -, hb⟩
    · exact pending_of_cycle (ht.setStack stack) (Or.inl hpop) hb
    · exact Or.inl hpop
    · have hfailed := (ht.setStack stack).setRequest (r := r)
        (q := { a.request r with hadError := true }) rfl rfl
      refine pending_of_cycle ((hfailed.destroy s).removeSocket s) (Or.inl fun s' hs ↦ ?_) hb
      exact (congrArg Option.isSome (httpMessage_destroy _ s s')).trans (hpop s' hs)
    · exact pending_of_cycle ((ht.setStack stack).removeSocket s) (Or.inl hpop) hb
  · -- the top of the stack is the call of `_cycle` that serves the socket
    rw [hstack, List.head?_cons, Option.some.injEq] at htop
    subst htop
    rcases hb with ⟨-, hb⟩ | ⟨_, ht, -, -⟩ | ⟨_, _, ht, -⟩ | ⟨_, ht, -⟩
    · have hpop : Awaiting (a.setStack stack) s :=
        { h with settled := fun s' hs ↦ h.settled s' (hmem s' hs) }
      exact pending_of_cycle (ht.setStack stack) (Or.inr ⟨s, hpop⟩) hb
    all_goals cases ht

/-- A socket that goes down is not available instead of the new one. -/
theorem down (h : Pending a) (s : ℕ) (writable readable : Bool) :
    Pending (a.down s writable readable) := by
  have hmsg (s' : ℕ) : ((a.down s writable readable).socket s').httpMessage =
      (a.socket s').httpMessage := by
    apply httpMessage_setSocket
    rfl
  have hcon (s' : ℕ) : ((a.down s writable readable).socket s').httpConnecting =
      (a.socket s').httpConnecting := by
    by_cases he : s' = s
    · rw [he, Agent.down, socket_setSocket_self]
    · rw [Agent.down, socket_setSocket_of_ne _ he]
  -- a socket that is down can only become unavailable
  have hav (s' : ℕ) (hs : (a.down s writable readable).available s' = true) :
      a.available s' = true := by
    rw [available, hmsg, hcon] at hs
    by_cases he : s' = s
    · rw [he, Agent.down, socket_setSocket_self] at hs
      rw [he, available]
      rcases writable <;> rcases readable <;> simp_all
    · rwa [Agent.down, socket_setSocket_of_ne _ he] at hs
  rcases h with h | ⟨s', h, htop⟩
  · refine Or.inl fun s' hs ↦ ?_
    rw [hmsg]
    exact h s' hs
  · refine Or.inr ⟨s', ⟨fun s'' hs hne ↦ ?_, h.queue_ne, h.mem, ?_, ?_, fun s'' hs hs' ↦ ?_⟩, htop⟩
    · rw [hmsg]
      exact h.settled s'' hs hne
    · rw [hmsg]
      exact h.httpMessage
    · rw [hcon]
      exact h.httpConnecting
    · exact h.only s'' hs (hav s'' hs')

theorem step (ht : Tracked a) (h : Pending a) {e : AgentEvent} (hg : a.Allows e)
    (he : Undisturbed a e) (hb : a.step e = .ok b) : Pending b := by
  cases e with
  | append => exact h.append ht hb
  | abort r => exact he.elim
  | connect s =>
    obtain rfl := Except.ok.inj hb
    refine Or.inl (settled_of_stack fun s' ↦ ?_)
    rw [onConnect, push, setSocket, hg.2.2]
    simp
  | responseEnd s shouldKeepAlive flushed =>
    rcases onEnd_cases hb with rfl | ⟨r, hm, hb⟩
    · exact h
    · refine pending_of_cycle ((ht.destroySoon s _ _).detached hm)
        (Or.inl (settled_of_stack fun s' ↦ ?_)) hb
      have hnot := not_mem_stack_of_parsing hg.2.2 s'
      rwa [← stack_destroySoon a s shouldKeepAlive flushed] at hnot
  | resume => exact h.resume ht hb
  | down s writable readable =>
    obtain rfl := Except.ok.inj hb
    exact h.down s writable readable
  | response s isContinue =>
    obtain rfl := Except.ok.inj hb
    refine Or.inl (settled_of_stack fun s' ↦ ?_)
    rw [stack_onIncoming, hg.2.2]
    exact List.not_mem_nil
  | error s =>
    obtain ⟨r, hm⟩ := Option.isSome_iff_exists.mp he
    rw [Agent.step, onError, hm] at hb
    obtain rfl := Except.ok.inj hb
    refine Or.inl (settled_of_stack fun s' ↦ ?_)
    rw [push, emitError, hg.2]
    simp
  | close s =>
    obtain rfl := Except.ok.inj hb
    refine Or.inl (settled_of_stack fun s' ↦ ?_)
    rw [stack_onClose, hg.2]
    simp

end Pending

theorem pending_of_reaches {maxSockets : ℕ}
    (h : (machine.restrict Undisturbed).Reaches (init maxSockets) a) : Pending a := by
  refine h.invariant_of (fun h ↦ tracked_of_reaches h.of_restrict) (Or.inl ?_)
    fun ht hp hg hb ↦ hp.step ht hg.1 hg.2 hb
  exact settled_of_stack fun _ ↦ List.not_mem_nil

theorem ordered_of_reaches {maxSockets : ℕ}
    (h : (machine.restrict Undisturbed).Reaches (init maxSockets) a) : Ordered maxSockets a := by
  refine h.invariant ⟨rfl, Nat.zero_le _, rfl⟩ ?_
  intro b c e ho hg hc
  exact ho.step hg.2 hc

theorem Pending.step_error (h : Pending a) {e : AgentEvent} (he : Undisturbed a e) {f : Failure}
    (hf : a.step e = .error f) : f ≠ .assignMessage ∧ f ≠ .establishMessage := by
  cases e with
  | append =>
    rw [cycle_error hf]
    decide
  | abort r => exact he.elim
  | responseEnd s shouldKeepAlive flushed =>
    rw [Agent.step, onEnd] at hf
    split at hf
    · cases hf
    · dsimp only at hf
      -- only the two failures of detaching are left, and those of `_cycle`
      unfold detachSocket at hf
      split_ifs at hf
      · obtain rfl := Except.error.inj hf
        decide
      · change (if _ then _ else _) = _ at hf
        split_ifs at hf
        · obtain rfl := Except.error.inj hf
          decide
        · rw [cycle_error hf]
          decide
      · obtain rfl := Except.error.inj hf
        decide
  | error s =>
    obtain ⟨r, hm⟩ := Option.isSome_iff_exists.mp he
    rw [Agent.step, onError, hm] at hf
    cases hf
  | resume =>
    rcases resume_error hf with rfl | ⟨-, s, stack, hstack, hm⟩
    · decide
    · -- the socket on top has got its message
      rcases h with h | ⟨s', -, htop⟩
      · have hsome := h s (by rw [hstack]; exact List.mem_cons_self ..)
        rw [hm] at hsome
        cases hsome
      · rw [hstack] at htop
        cases htop
  | connect s | response s | close s | down s => cases hf

/-- In an undisturbed run there are never more than `maxSockets` sockets; no request is carried by
two of them; the requests are given to sockets in the order in which they were appended, each once;
and a socket that is given a request carries none, and a new one carries one as soon as `_cycle` has
returned. -/
theorem dispatches_in_order {maxSockets : ℕ}
    (h : (machine.restrict Undisturbed).Reaches (init maxSockets) a) :
    a.sockets.length ≤ maxSockets ∧
      (∀ r s s', (a.socket s).httpMessage = some r → (a.socket s').httpMessage = some r → s = s') ∧
      a.assigned.Nodup ∧ a.assigned ++ a.queue = List.range a.requests ∧
      ∀ e, Undisturbed a e →
        a.step e ≠ .error .assignMessage ∧ a.step e ≠ .error .establishMessage := by
  have ht := tracked_of_reaches h.of_restrict
  have ho := ordered_of_reaches h
  have hp := pending_of_reaches h
  refine ⟨ho.length_le, fun r s s' hs hs' ↦ ?_, ?_, ho.order, fun e he ↦ ?_⟩
  · rw [← ht.connection_iff] at hs hs'
    exact Option.some.inj (hs.symm.trans hs')
  · have hnodup := List.nodup_range (n := a.requests)
    rw [← ho.order] at hnodup
    exact (List.nodup_append.mp hnodup).1
  · exact ⟨fun hf ↦ (hp.step_error he hf).1 rfl, fun hf ↦ (hp.step_error he hf).2 rfl⟩

/-- Three requests for two connections; the first is answered, and its connection is kept. -/
def threeRequests : List AgentEvent :=
  [.append, .resume, .resume, .resume, .append, .append, .connect 0, .resume, .resume, .resume,
    .resume, .response 0 false, .responseEnd 0 true true]

theorem dispatches_in_order_three :
    ∃ a, (machine.restrict Undisturbed).run (init 2) threeRequests = some a ∧
      a.sockets.length ≤ 2 ∧
      (∀ r s s', (a.socket s).httpMessage = some r → (a.socket s').httpMessage = some r → s = s') ∧
      a.assigned.Nodup ∧ a.assigned ++ a.queue = List.range a.requests ∧
      ∀ e, Undisturbed a e →
        a.step e ≠ .error .assignMessage ∧ a.step e ≠ .error .establishMessage := by
  obtain ⟨a, ha⟩ := Option.isSome_iff_exists.mp (show
    ((machine.restrict Undisturbed).run (init 2) threeRequests).isSome = true by decide)
  exact ⟨a, ha, dispatches_in_order (Machine.reaches_of_run ha)⟩

end SpiderNode.Http.Agent
