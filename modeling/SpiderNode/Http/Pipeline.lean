import SpiderNode.Http.Bodiless
import SpiderNode.Http.Flow
import SpiderNode.Http.Queued

/-!
# Pipelined responses

A connection makes a response for each request it parses. One response owns the socket; the others
wait in `outgoing`, in the order of their requests. When the one that owns the socket is finished,
the next one gets it, sends what it has kept, and may turn out to be finished already.

The connection has three records of this: `socket._httpMessage`, the queue `outgoing` and the list
`incoming` of the requests without an answer. `Pipelined` says how they hang together, and
`in_order` that they do in every run: no assertion fails, the socket belongs to the oldest response
that is not finished, and what is written to the socket is the output of the first response, then
that of the second, and so on.

The socket is writable all the time. What listeners of `drain` and `finish` do is not part of the
step that emits the event: both are the last thing a call does, so it can follow as a step of its
own.
-/

namespace SpiderNode.Http

open Net (JsError)

/-! ## Connections -/

/-- A request, as far as its response depends on it. -/
structure Request where
  isHead : Bool
  major : ℕ
  minor : ℕ
  /-- What the parser passes to `onIncoming`. -/
  shouldKeepAlive : Bool
  /-- There is a header `expect`, and `continueExpression` finds itself in it. -/
  expects : Bool

def Request.expectContinue (r : Request) : Bool := r.expects && (r.major == 1 && r.minor == 1)

def Request.response (r : Request) : Message :=
  { serverResponse r.isHead r.major r.minor with
    shouldKeepAlive := r.shouldKeepAlive
    expectContinue := r.expectContinue }

def Message.withLast (m : Message) : Message := { m with last := true }

/-- The state of `connectionListener`. Requests and responses are named by the order in which they
were parsed. -/
structure Connection where
  responses : List Message
  /-- `socket._httpMessage` -/
  httpMessage : Option ℕ
  outgoing : List ℕ
  incoming : List ℕ
  /-- The calls of `socket.write`, with the response that made each. -/
  log : List (ℕ × Entry)
  /-- `socket.destroySoon()` or `socket.end()` has been called. -/
  closed : Bool
  deriving DecidableEq, Repr

namespace Connection

/-- Response `i` goes on to a new state, and what it wrote is recorded. -/
def put (c : Connection) (i : ℕ) (m m' : Message) : Connection :=
  { c with
    responses := c.responses.set i m'
    log := c.log ++ (m'.wire.drop m.wire.length).map (i, ·) }

/-- `assignSocket(socket)` on response `j`; also whether it emits `finish`. -/
def assignSocket (flushes : ℕ → Bool) (j : ℕ) (c : Connection) :
    Except JsError (Connection × Bool) :=
  if c.httpMessage.isSome then .error .assertion
  else
    match c.responses[j]? with
    | none => .error .typeError
    | some m =>
      let m' := Message.after (Message.assignSocket true (flushes j) m)
      .ok ({ c with httpMessage := some j }.put j m m', m.finishes < m'.finishes)

/-- The listener of `finish` on response `i`, given `outgoing`. If the next response has been ended
while it waited, it finishes at once and its own listener runs. -/
def onFinish (flushes : ℕ → Bool) (outgoing : List ℕ) (i : ℕ) (c : Connection) :
    Except JsError Connection :=
  if c.incoming.head? ≠ some i then .error .assertion
  -- `detachSocket`
  else if c.httpMessage ≠ some i then .error .assertion
  else
    let c := { c with incoming := c.incoming.tail, httpMessage := none }
    if c.responses[i]?.any (·.last) then .ok { c with closed := true }
    else
      match outgoing with
      | [] => .ok c
      | j :: outgoing =>
        match { c with outgoing := outgoing }.assignSocket flushes j with
        | .ok (c, true) => onFinish flushes outgoing j c
        | .ok (c, false) => .ok c
        | .error e => .error e

/-- A call on response `i`. If it throws, the handler may go on. -/
def call (flushes : ℕ → Bool) (i : ℕ) (x : Op Unit) (c : Connection) : Except JsError Connection :=
  match c.responses[i]? with
  | none => .error .typeError
  | some m =>
    let m' := Message.after (x m)
    if m.finishes < m'.finishes then (c.put i m m').onFinish flushes c.outgoing i
    else .ok (c.put i m m')

/-- The first half of `parser.onIncoming`. A new response has no listener yet when it gets its
socket. -/
def accept (flushes : ℕ → Bool) (r : Request) (c : Connection) : Except JsError Connection :=
  let i := c.responses.length
  let c := { c with incoming := c.incoming ++ [i], responses := c.responses ++ [r.response] }
  if c.httpMessage.isSome then .ok { c with outgoing := c.outgoing ++ [i] }
  else Prod.fst <$> c.assignSocket flushes i

/-- `parser.onIncoming`, up to the listeners of the server, which may want to see to
`checkContinue` themselves. -/
def onIncoming (flushes : ℕ → Bool) (checkContinue : Bool) (r : Request) (c : Connection) :
    Except JsError Connection := do
  let c' ← c.accept flushes r
  if r.expectContinue && !checkContinue then
    c'.call flushes c.responses.length Message.writeContinue
  else return c'

/-- `_last = true` -/
def setLast (c : Connection) (i : ℕ) : Connection :=
  { c with responses := c.responses.modify i Message.withLast }

/-- `socket.onend`, of a server with `httpAllowHalfOpen`. Without it the socket would be closed. -/
def onEnd (c : Connection) : Connection :=
  match c.outgoing.getLast?, c.httpMessage with
  | some i, _ => c.setLast i
  | none, some i => c.setLast i
  | none, none => { c with closed := true }

def start : Connection := ⟨[], none, [], [], [], false⟩

end Connection

/-! ## Runs -/

/-- A call of a handler. -/
inductive HandlerCall where
  | header (call : HeaderCall)
  | addTrailers (fields : List (JSString × JSString))
  | body (call : ResponseCall)
  | end (data : Option Chunk) (encoding : Option TextEncoding)

inductive Event where
  | request (r : Request)
  | call (i : ℕ) (call : HandlerCall)
  /-- The other side has ended the connection. -/
  | end

/-- What a connection runs in: the server's listeners, the socket, and functions of the language. -/
structure Setting where
  lower : JSString → JSString
  inherited : JSString → Option JSString
  checkContinue : Bool
  /-- What `socket.write` returns to each response. -/
  flushes : ℕ → Bool

def HandlerCall.run (w : Setting) : HandlerCall → Op Unit
  | header call => call.run w.lower
  | addTrailers fields => Message.addTrailers fields
  | body call => call.run w.inherited
  | .end data e => do let _ ← Message.end data e

namespace Connection

def step (w : Setting) (c : Connection) : Event → Except JsError Connection
  | .request r => c.onIncoming w.flushes w.checkContinue r
  | .call i call => c.call w.flushes i (call.run w)
  | .end => .ok c.onEnd

def run (w : Setting) (c : Connection) : List Event → Except JsError Connection
  | [] => .ok c
  | ev :: evs => do
    let c ← c.step w ev
    c.run w evs

/-- No call follows `end`, and only the newest response may be the last one of the connection. No
request comes once the socket has been closed. -/
def allows (w : Setting) (c : Connection) : Event → Bool
  | .request _ => !c.closed && c.responses.all (!·.last)
  | .call i call =>
    c.responses[i]?.any fun m ↦ !m.finished &&
      (i + 1 == c.responses.length || !(Message.after (call.run w m)).last)
  | .end => true

/-- Every event of a run is allowed when it happens. -/
def orderly (w : Setting) (c : Connection) : List Event → Bool
  | [] => true
  | ev :: evs =>
    c.allows w ev &&
      match c.step w ev with
      | .ok c' => c'.orderly w evs
      | .error _ => true

end Connection

/-! ## The place of a response -/

namespace Message

variable {m : Message} {f : Bool} {w : Setting}

/-- The response that has the socket. -/
structure Owns (f : Bool) (m : Message) : Prop where
  role : m.role = .response
  connection : m.connection = some ⟨true, true, f⟩
  output : m.output = []
  finished : m.finished = false

/-- A response in the queue. -/
structure Waits (m : Message) : Prop where
  role : m.role = .response
  connection : m.connection = none
  wire : m.wire = []

/-- A response that is done. -/
structure Gone (m : Message) : Prop where
  connection : m.connection = none
  finished : m.finished = true
  output : m.output = []

theorem headerCall_flows (lower : JSString → JSString) (call : HeaderCall) (m : Message) :
    Flows m (after (call.run lower m)) := by
  cases call with
  | setHeader name value =>
    simp only [HeaderCall.run, setHeader, Op.bind_apply, Op.get_apply]
    cases m.header.isSome with
    | true => exact Flows.refl m
    | false => exact Flows.of_eq rfl rfl rfl rfl rfl rfl
  | removeHeader name =>
    simp only [HeaderCall.run, removeHeader, Op.bind_apply, Op.get_apply]
    cases m.header.isSome with
    | true => exact Flows.refl m
    | false => exact Flows.of_eq rfl rfl rfl rfl rfl rfl
  | statusCode code => exact Flows.of_eq rfl rfl rfl rfl rfl rfl

theorem responseCall_flows (inherited : JSString → Option JSString) (call : ResponseCall)
    (m : Message) : Flows m (after (call.run inherited m)) := by
  cases call with
  | writeContinue =>
    exact (writeRaw_flows _ _ m).1.bind fun _ m' ↦ Flows.of_eq rfl rfl rfl rfl rfl rfl
  | writeHead code reason headers => exact writeHead_flows inherited code reason headers m
  | write c e => exact (write_flows c e m).bind fun _ m' ↦ Flows.refl m'

/-- Every call but `end` leaves a response where it is. -/
theorem handlerCall_cases (w : Setting) (call : HandlerCall) (m : Message) :
    Flows m (after (call.run w m)) ∨
      ∃ data e, after (call.run w m) = after («end» data e m) := by
  cases call with
  | header call => exact .inl (headerCall_flows w.lower call m)
  | addTrailers fields => exact .inl (Flows.of_eq rfl rfl rfl rfl rfl rfl)
  | body call => exact .inl (responseCall_flows w.inherited call m)
  | «end» data e =>
    refine .inr ⟨data, e, ?_⟩
    simp only [HandlerCall.run, Op.bind_apply]
    cases Message.end data e m <;> rfl

/-- A call on the response that has the socket writes to it, and `end` finishes the response. -/
theorem Owns.call (h : Owns f m) (call : HandlerCall) :
    (Owns f (after (call.run w m)) ∧ (after (call.run w m)).finishes = m.finishes ∨
      Gone (after (call.run w m)) ∧ (after (call.run w m)).finishes = m.finishes + 1) ∧
      m.wire <+: (after (call.run w m)).wire := by
  have ha : m.attached = true := attached_iff.mpr ⟨f, h.connection⟩
  rcases handlerCall_cases w call m with hf | ⟨data, e, he⟩
  · exact ⟨.inl ⟨⟨hf.role.trans h.role, hf.connection.trans h.connection, hf.passed ha h.output,
      hf.finished.trans h.finished⟩, hf.finishes⟩, hf.wire⟩
  · obtain ⟨-, hc, hn, hd, ho, hw⟩ := end_attached h.role ha h.output data e
    rw [he]
    exact ⟨.inr ⟨⟨hc, hd, ho⟩, hn⟩, hw⟩

/-- A call on a response in the queue leaves it there. -/
theorem Waits.call (h : Waits m) (call : HandlerCall) :
    Waits (after (call.run w m)) ∧ (after (call.run w m)).finishes = m.finishes := by
  rcases handlerCall_cases w call m with hf | ⟨data, e, he⟩
  · have ha : m.attached = false := by rw [attached, h.connection]
    exact ⟨⟨hf.role.trans h.role, hf.connection.trans h.connection, (hf.kept ha).trans h.wire⟩,
      hf.finishes⟩
  · obtain ⟨hr, hc, hn, hw⟩ := end_waiting h.connection data e
    rw [he]
    exact ⟨⟨hr.trans h.role, hc, hw.trans h.wire⟩, hn⟩

/-- The socket comes to a response in the queue: it is the new owner, or done if it was ended. -/
theorem Waits.assignSocket (h : Waits m) (f : Bool) :
    (m.finished = false ∧ Owns f (after (Message.assignSocket true f m)) ∧
        (after (Message.assignSocket true f m)).finishes = m.finishes ∨
      m.finished = true ∧ Gone (after (Message.assignSocket true f m)) ∧
        (after (Message.assignSocket true f m)).finishes = m.finishes + 1) ∧
      (after (Message.assignSocket true f m)).last = m.last := by
  cases hd : m.finished with
  | true =>
    rw [assignSocket_finished f hd h.role]
    exact ⟨.inr ⟨rfl, ⟨rfl, hd, rfl⟩, rfl⟩, rfl⟩
  | false =>
    have hflush := flush_apply (m := { m with connection := some ⟨true, true, f⟩ }) rfl rfl
    simp only [Message.assignSocket, Op.bind_apply, Op.modify_apply]
    rw [hflush, if_neg (by simp [hd]), after_ok]
    split_ifs
    · exact ⟨.inl ⟨trivial, ⟨h.role, rfl, rfl, hd⟩, rfl⟩, rfl⟩
    · exact ⟨.inl ⟨trivial, ⟨h.role, rfl, rfl, hd⟩, rfl⟩, rfl⟩

end Message

/-! ## The invariant -/

/-- The output of the responses, one after the other. -/
def inRequestOrder (k : ℕ) (responses : List Message) : List (ℕ × Entry) :=
  (responses.zipIdx k).flatMap fun p ↦ p.1.wire.map (p.2, ·)

/-- No response but the newest one is the last of the connection. -/
def OnlyNewest (responses : List Message) : Prop := ∀ m ∈ responses.dropLast, m.last = false

namespace Connection

open Message (Owns Waits Gone)

variable {w : Setting} {flushes : ℕ → Bool} {closed : Bool}
variable {past a b queue live : List Message} {m m' q q' : Message}

@[simp] theorem inRequestOrder_append (k : ℕ) (a b : List Message) :
    inRequestOrder k (a ++ b) = inRequestOrder k a ++ inRequestOrder (k + a.length) b := by
  simp [inRequestOrder, List.zipIdx_append]

@[simp] theorem inRequestOrder_cons (k : ℕ) (m : Message) (b : List Message) :
    inRequestOrder k (m :: b) = m.wire.map (k, ·) ++ inRequestOrder (k + 1) b := by
  simp [inRequestOrder]

@[simp] theorem inRequestOrder_nil (k : ℕ) : inRequestOrder k [] = [] := rfl

theorem inRequestOrder_silent (h : ∀ q ∈ b, Waits q) (k : ℕ) : inRequestOrder k b = [] := by
  induction b generalizing k with
  | nil => rfl
  | cons q b ih =>
    have hq : q.wire = [] := (h q (by simp)).wire
    rw [inRequestOrder_cons, hq, ih fun q hq ↦ h q (by simp [hq])]
    rfl

/-- The connection with given responses: those that are done, and the owner of the socket with the
queue behind it. -/
def ordered (past live : List Message) (closed : Bool) : Connection where
  responses := past ++ live
  httpMessage := live.head?.map fun _ ↦ past.length
  outgoing := List.range' (past.length + 1) (live.length - 1)
  incoming := List.range' past.length live.length
  log := inRequestOrder 0 (past ++ live)
  closed := closed

/-- The states of a connection. -/
inductive Pipelined (flushes : ℕ → Bool) : Connection → Prop where
  | idle {past : List Message} {closed : Bool} (hpast : ∀ m ∈ past, Gone m)
    (hlast : OnlyNewest past) : Pipelined flushes (ordered past [] closed)
  | busy {past : List Message} {m : Message} {queue : List Message} {closed : Bool}
    (hpast : ∀ m ∈ past, Gone m) (hm : Owns (flushes past.length) m) (hqueue : ∀ q ∈ queue, Waits q)
    (hlast : OnlyNewest (past ++ m :: queue)) : Pipelined flushes (ordered past (m :: queue) closed)

theorem onlyNewest_congr (h : OnlyNewest (a ++ m :: b)) (hm : b ≠ [] → m'.last = false) :
    OnlyNewest (a ++ m' :: b) := by
  unfold OnlyNewest at h ⊢
  rw [List.dropLast_append_cons] at h ⊢
  intro x hx
  rw [List.mem_append] at hx
  rcases hx with hx | hx
  · exact h x (List.mem_append_left _ hx)
  · rcases b with _ | ⟨y, b⟩
    · simp at hx
    · rw [List.dropLast_cons_cons, List.mem_cons] at hx
      rcases hx with rfl | hx
      · exact hm (by simp)
      · exact h x (by simp [hx])

theorem last_of_onlyNewest (h : OnlyNewest (a ++ m :: b)) (hb : b ≠ []) : m.last = false := by
  unfold OnlyNewest at h
  rw [List.dropLast_append_cons] at h
  obtain ⟨y, b, rfl⟩ := List.exists_cons_of_ne_nil hb
  exact h m (by simp)

/-- A response in the middle goes on: what it writes is in order, if no later one has written. -/
theorem inRequestOrder_set (hb : ∀ q ∈ b, Waits q) (h : m.wire <+: m'.wire) :
    inRequestOrder 0 (a ++ m :: b) ++ (m'.wire.drop m.wire.length).map (a.length, ·) =
      inRequestOrder 0 (a ++ m' :: b) := by
  obtain ⟨more, hmore⟩ := h
  rw [inRequestOrder_append, inRequestOrder_append, inRequestOrder_cons, inRequestOrder_cons,
    inRequestOrder_silent hb, ← hmore, List.drop_left]
  simp

theorem put_owner (hq : ∀ q ∈ queue, Waits q) (h : m.wire <+: m'.wire) :
    (ordered past (m :: queue) closed).put past.length m m' =
      ordered past (m' :: queue) closed := by
  unfold put ordered
  simp only [inRequestOrder_set hq h]
  simp

theorem put_queue (hb : ∀ q ∈ b, Waits q) (h : q.wire <+: q'.wire) :
    (ordered past (m :: (a ++ q :: b)) closed).put (past.length + (a.length + 1)) q q' =
      ordered past (m :: (a ++ q' :: b)) closed := by
  have hset := inRequestOrder_set (a := past ++ m :: a) hb h
  simp only [List.append_assoc, List.cons_append, List.length_append, List.length_cons] at hset
  unfold put ordered
  simp only [hset]
  simp

/-- The next response has the place of the owner. -/
theorem ordered_shift (past : List Message) (m q : Message) (queue : List Message) (closed : Bool) :
    ordered (past ++ [m]) (q :: queue) closed =
      { ordered past (m :: q :: queue) closed with
        httpMessage := some (past.length + 1)
        outgoing := List.range' (past.length + 2) queue.length
        incoming := List.range' (past.length + 1) (queue.length + 1) } := by
  simp [ordered]

/-- The socket is free, and the next response gets it. -/
theorem assignSocket_next (hq : Waits q) (hqueue : ∀ q ∈ queue, Waits q) (flushes : ℕ → Bool) :
    assignSocket flushes (past.length + 1)
        { ordered past (m :: q :: queue) closed with
          httpMessage := none
          outgoing := List.range' (past.length + 2) queue.length
          incoming := List.range' (past.length + 1) (queue.length + 1) } =
      .ok (ordered (past ++ [m])
          (Message.after (Message.assignSocket true (flushes (past.length + 1)) q) :: queue) closed,
        q.finishes <
          (Message.after (Message.assignSocket true (flushes (past.length + 1)) q)).finishes) := by
  have hwire : q.wire <+:
      (Message.after (Message.assignSocket true (flushes (past.length + 1)) q)).wire := by
    rw [hq.wire]
    exact List.nil_prefix
  have hput := @put_owner closed (past ++ [m]) _ _ _ hqueue hwire
  rw [ordered_shift, List.length_append, List.length_singleton] at hput
  have hidx : (past ++ m :: q :: queue)[past.length + 1]? = some q := by simp
  unfold assignSocket
  simp only [ordered, hidx, Option.isSome_none, Bool.false_eq_true, if_false]
  simp only [ordered] at hput
  rw [hput]

theorem onFinish_cons {c c' : Connection} {i j : ℕ} {outgoing : List ℕ} {finished : Bool}
    (hin : c.incoming.head? = some i) (hown : c.httpMessage = some i)
    (hlast : c.responses[i]?.any (·.last) = false)
    (h : assignSocket flushes j
      { c with httpMessage := none, outgoing := outgoing, incoming := c.incoming.tail } =
        .ok (c', finished)) :
    c.onFinish flushes (j :: outgoing) i =
      if finished then c'.onFinish flushes outgoing j else .ok c' := by
  conv_lhs => unfold onFinish
  simp only [hin, ne_eq, not_true_eq_false, if_false, hown, hlast, Bool.false_eq_true, h]
  cases finished <;> rfl

theorem gone_append (hpast : ∀ m ∈ past, Gone m) (hm : Gone m) : ∀ m' ∈ past ++ [m], Gone m' := by
  intro m' h
  rcases List.mem_append.mp h with h | h
  · exact hpast m' h
  · rw [List.mem_singleton.mp h]
    exact hm

/-- **The listener of `finish`.** The socket goes to the next response that is not finished, and
everything in front of it is sent. -/
theorem onFinish_ordered (hpast : ∀ m ∈ past, Gone m) (hm : Gone m) (hqueue : ∀ q ∈ queue, Waits q)
    (hlast : OnlyNewest (past ++ m :: queue)) :
    ∃ c', (ordered past (m :: queue) closed).onFinish flushes
      (List.range' (past.length + 1) queue.length) past.length = .ok c' ∧ Pipelined flushes c' := by
  have hidx : ∀ (q : List Message), (past ++ m :: q)[past.length]? = some m := by simp
  induction queue generalizing past m with
  | nil =>
    have hidle : ∀ closed, ordered (past ++ [m]) [] closed =
        { ordered past [m] closed with httpMessage := none, incoming := [] } := by
      intro closed
      simp [ordered]
    have hgone : ∀ closed, Pipelined flushes (ordered (past ++ [m]) [] closed) :=
      fun _ ↦ .idle (gone_append hpast hm) hlast
    unfold onFinish
    cases hl : m.last with
    | true =>
      refine ⟨ordered (past ++ [m]) [] true, ?_, hgone true⟩
      rw [hidle]
      simp [ordered, hl]
    | false =>
      refine ⟨ordered (past ++ [m]) [] closed, ?_, hgone closed⟩
      rw [hidle]
      simp [ordered, hl]
  | cons q queue ih =>
    have hl : m.last = false := last_of_onlyNewest hlast (by simp)
    have hq : Waits q := hqueue q (by simp)
    have hrest : ∀ q ∈ queue, Waits q := fun q h ↦ hqueue q (by simp [h])
    have hnext := @assignSocket_next closed past _ m _ hq hrest flushes
    obtain ⟨hplace, hsame⟩ := hq.assignSocket (flushes (past.length + 1))
    set q' := Message.after (Message.assignSocket true (flushes (past.length + 1)) q)
    have hlast' : OnlyNewest ((past ++ [m]) ++ q' :: queue) := by
      rw [List.append_cons] at hlast
      refine onlyNewest_congr hlast fun hne ↦ ?_
      rw [hsame]
      exact last_of_onlyNewest hlast hne
    rw [List.length_cons, List.range'_succ, onFinish_cons rfl rfl (by simp [ordered, hl]) hnext]
    -- the next response keeps the socket, or it was finished before and the loop goes on
    rcases hplace with ⟨-, howns, hn⟩ | ⟨-, hgone, hn⟩
    · rw [if_neg (by simp [hn])]
      refine ⟨_, rfl, .busy (gone_append hpast hm) ?_ hrest hlast'⟩
      rw [List.length_append]
      exact howns
    · rw [if_pos (by simp [hn])]
      have := ih (gone_append hpast hm) hgone hrest hlast' (by simp)
      simpa using this

/-! ## Steps -/

/-- A call on the owner of the socket. -/
theorem call_owner (hpast : ∀ m ∈ past, Gone m) (hm : Owns (w.flushes past.length) m)
    (hqueue : ∀ q ∈ queue, Waits q) (hlast : OnlyNewest (past ++ m :: queue)) (h : HandlerCall)
    (hl : queue ≠ [] → (Message.after (h.run w m)).last = false) :
    ∃ c', (ordered past (m :: queue) closed).call w.flushes past.length (h.run w) = .ok c' ∧
      Pipelined w.flushes c' := by
  have hidx : (ordered past (m :: queue) closed).responses[past.length]? = some m := by
    simp [ordered]
  obtain ⟨hplace, hwire⟩ := hm.call (w := w) h
  unfold call
  simp only [hidx, put_owner hqueue hwire]
  have hlast' := onlyNewest_congr hlast hl
  rcases hplace with ⟨howns, hn⟩ | ⟨hgone, hn⟩
  · rw [if_neg (by omega)]
    exact ⟨_, rfl, .busy hpast howns hqueue hlast'⟩
  · rw [if_pos (by omega)]
    exact onFinish_ordered hpast hgone hqueue hlast'

/-- A call on a response in the queue. -/
theorem call_queue (hpast : ∀ m ∈ past, Gone m) (hm : Owns (w.flushes past.length) m)
    (hqueue : ∀ x ∈ a ++ q :: b, Waits x) (hlast : OnlyNewest (past ++ m :: (a ++ q :: b)))
    (h : HandlerCall) (hl : b ≠ [] → (Message.after (h.run w q)).last = false) :
    ∃ c', (ordered past (m :: (a ++ q :: b)) closed).call w.flushes (past.length + (a.length + 1))
      (h.run w) = .ok c' ∧ Pipelined w.flushes c' := by
  have hidx : (ordered past (m :: (a ++ q :: b)) closed).responses[past.length + (a.length + 1)]? =
      some q := by
    simp [ordered]
  have hq : Waits q := hqueue q (by simp)
  obtain ⟨hwaits, hn⟩ := hq.call (w := w) h
  have hb : ∀ x ∈ b, Waits x := fun x hx ↦ hqueue x (by simp [hx])
  have hwire : q.wire <+: (Message.after (h.run w q)).wire := by
    rw [hq.wire]
    exact List.nil_prefix
  unfold call
  simp only [hidx, put_queue hb hwire]
  rw [if_neg (by omega)]
  refine ⟨_, rfl, .busy hpast hm ?_ ?_⟩
  · intro x hx
    rw [List.mem_append, List.mem_cons] at hx
    rcases hx with hx | rfl | hx
    · exact hqueue x (by simp [hx])
    · exact hwaits
    · exact hb x hx
  · have := onlyNewest_congr (a := past ++ m :: a) (m := q) (b := b) (by simpa using hlast) hl
    simpa using this

theorem exists_append_of_getElem? {l : List Message} {k : ℕ} (h : l[k]? = some m) :
    ∃ a b, l = a ++ m :: b ∧ a.length = k := by
  obtain ⟨hk, rfl⟩ := List.getElem?_eq_some_iff.mp h
  refine ⟨l.take k, l.drop (k + 1), ?_, ?_⟩
  · rw [List.getElem_cons_drop, List.take_append_drop]
  · rw [List.length_take]
    omega

/-- A response is done, has the socket, or waits. -/
theorem response_cases {x : Message} {i : ℕ} (h : (past ++ m :: queue)[i]? = some x) :
    (i < past.length ∧ x ∈ past) ∨ (i = past.length ∧ x = m) ∨
      ∃ k, i = past.length + (k + 1) ∧ queue[k]? = some x := by
  rcases lt_trichotomy i past.length with hlt | rfl | hgt
  · rw [List.getElem?_append_left hlt] at h
    exact .inl ⟨hlt, List.mem_of_getElem? h⟩
  · exact .inr (.inl ⟨rfl, by simpa using h.symm⟩)
  · obtain ⟨k, rfl⟩ : ∃ k, i = past.length + (k + 1) := ⟨i - past.length - 1, by omega⟩
    exact .inr (.inr ⟨k, rfl, by simpa [List.getElem?_append_right] using h⟩)

/-- **A call** on any response that has not been ended. -/
theorem Pipelined.call {c : Connection} (hc : Pipelined w.flushes c) {i : ℕ} {h : HandlerCall}
    {m₀ : Message} (hi : c.responses[i]? = some m₀) (hf : m₀.finished = false)
    (hl : i + 1 = c.responses.length ∨ (Message.after (h.run w m₀)).last = false) :
    ∃ c', c.call w.flushes i (h.run w) = .ok c' ∧ Pipelined w.flushes c' := by
  have hnot : ∀ {past : List Message}, (∀ m ∈ past, Gone m) → m₀ ∉ past := by
    intro past hpast hmem
    have := (hpast m₀ hmem).finished
    rw [hf] at this
    cases this
  cases hc with
  | idle hpast hlast =>
    simp only [ordered, List.append_nil] at hi
    exact absurd (List.mem_of_getElem? hi) (hnot hpast)
  | @busy past m queue closed hpast hm hqueue hlast =>
    simp only [ordered, List.length_append, List.length_cons] at hi hl
    rcases response_cases hi with ⟨-, hmem⟩ | ⟨rfl, rfl⟩ | ⟨k, rfl, hk⟩
    · exact absurd hmem (hnot hpast)
    · refine call_owner hpast hm hqueue hlast h fun hne ↦ ?_
      have := List.length_pos_of_ne_nil hne
      exact hl.resolve_left (by omega)
    · obtain ⟨a, b, rfl, rfl⟩ := exists_append_of_getElem? hk
      refine call_queue hpast hm hqueue hlast h fun hne ↦ ?_
      have := List.length_pos_of_ne_nil hne
      simp only [List.length_append, List.length_cons] at hl
      exact hl.resolve_left (by omega)

theorem waits_response (r : Request) : Waits r.response := ⟨rfl, rfl, rfl⟩

theorem onlyNewest_concat {l : List Message} (h : ∀ m ∈ l, m.last = false) (m : Message) :
    OnlyNewest (l ++ [m]) := by
  unfold OnlyNewest
  rw [List.dropLast_concat]
  exact h

/-- A new response owns the socket if nobody does, and else it is the last one in the queue. -/
theorem Pipelined.accept {c : Connection} (hc : Pipelined flushes c)
    (hl : ∀ m ∈ c.responses, m.last = false) (r : Request) :
    ∃ c', c.accept flushes r = .ok c' ∧ Pipelined flushes c' ∧
      c'.responses.length = c.responses.length + 1 ∧
      ∃ m, c'.responses[c.responses.length]? = some m ∧ m.finished = false := by
  have hr := waits_response r
  have hw : r.response.wire = [] := rfl
  have hf : r.response.finished = false := rfl
  cases hc with
  | @idle past closed hpast hlast =>
    obtain ⟨hplace, -⟩ := hr.assignSocket (flushes past.length)
    have hwire : r.response.wire <+:
        (Message.after (Message.assignSocket true (flushes past.length) r.response)).wire := by
      rw [hw]
      exact List.nil_prefix
    have hput := @put_owner closed past [] _ _ (by simp) hwire
    have howns := (hplace.resolve_right fun h ↦ by rw [hf] at h; simp at h).2.1
    have heq : (ordered past [] closed).accept flushes r =
        .ok (ordered past
          [Message.after (Message.assignSocket true (flushes past.length) r.response)] closed) := by
      rw [← hput]
      simp [Connection.accept, Connection.assignSocket, ordered, hw]
    refine ⟨_, heq, .busy hpast howns (by simp) ?_, by simp [ordered], _, by simp [ordered],
      howns.finished⟩
    simp only [ordered, List.append_nil] at hl
    exact onlyNewest_concat hl _
  | @busy past m queue closed hpast hm hqueue hlast =>
    have hrange : ∀ k n, List.range' k (n + 1) = List.range' k n ++ [k + n] := by
      intro k n
      rw [List.range'_concat, Nat.one_mul]
    have heq : (ordered past (m :: queue) closed).accept flushes r =
        .ok (ordered past (m :: (queue ++ [r.response])) closed) := by
      simp [Connection.accept, ordered, hrange, hw, Nat.add_assoc, Nat.add_comm 1]
    refine ⟨_, heq, .busy hpast hm ?_ ?_, by simp [ordered, Nat.add_assoc],
      r.response, by simp [ordered], hf⟩
    · intro q hq
      rcases List.mem_append.mp hq with hq | hq
      · exact hqueue q hq
      · rw [List.mem_singleton.mp hq]
        exact hr
    · have := onlyNewest_concat hl r.response
      simpa [ordered] using this

/-- **A request.** -/
theorem Pipelined.onIncoming {c : Connection} (hc : Pipelined w.flushes c)
    (hl : ∀ m ∈ c.responses, m.last = false) (r : Request) :
    ∃ c', c.onIncoming w.flushes w.checkContinue r = .ok c' ∧ Pipelined w.flushes c' := by
  obtain ⟨c₁, h₁, hc₁, hlen, m, hm, hf⟩ := hc.accept hl r
  simp only [Connection.onIncoming, h₁]
  cases r.expectContinue && !w.checkContinue with
  | false => exact ⟨c₁, rfl, hc₁⟩
  | true => exact hc₁.call (h := .body .writeContinue) hm hf (.inl hlen.symm)

theorem setLast_eq {c : Connection} {i : ℕ} (h : c.responses[i]? = some m) :
    c.setLast i = c.put i m m.withLast := by
  have hw : m.withLast.wire = m.wire := rfl
  simp [setLast, put, List.modify_eq_set_getElem?, h, hw]

/-- **The end of the other side.** -/
theorem Pipelined.onEnd {c : Connection} (hc : Pipelined flushes c) :
    Pipelined flushes c.onEnd := by
  cases hc with
  | idle hpast hlast => exact .idle hpast hlast
  | @busy past m queue closed hpast hm hqueue hlast =>
    -- the last response is the one that owns the socket, or the last one in the queue
    rcases List.eq_nil_or_concat' queue with rfl | ⟨a, q, rfl⟩
    · have hset : (ordered past [m] closed).onEnd =
          ordered past [m.withLast] closed := by
        calc (ordered past [m] closed).onEnd
          _ = (ordered past [m] closed).setLast past.length := rfl
          _ = (ordered past [m] closed).put past.length m m.withLast :=
            setLast_eq (by simp [ordered])
          _ = ordered past [m.withLast] closed :=
            put_owner (by simp) (List.prefix_refl m.wire : m.wire <+: m.withLast.wire)
      rw [hset]
      exact .busy hpast ⟨hm.role, hm.connection, hm.output, hm.finished⟩ (by simp)
        (onlyNewest_congr hlast (by simp))
    · have hset : (ordered past (m :: (a ++ [q])) closed).onEnd =
          ordered past (m :: (a ++ [q.withLast])) closed := by
        calc (ordered past (m :: (a ++ [q])) closed).onEnd
          _ = (ordered past (m :: (a ++ [q])) closed).setLast (past.length + (a.length + 1)) := by
            have hlast? : (ordered past (m :: (a ++ [q])) closed).outgoing.getLast? =
                some (past.length + (a.length + 1)) := by
              simp [ordered, List.getLast?_range']
              omega
            simp only [Connection.onEnd, hlast?]
          _ = (ordered past (m :: (a ++ [q])) closed).put (past.length + (a.length + 1)) q
              q.withLast := setLast_eq (by simp [ordered])
          _ = ordered past (m :: (a ++ [q.withLast])) closed :=
            put_queue (by simp) (List.prefix_refl q.wire : q.wire <+: q.withLast.wire)
      have hq := hqueue q (by simp)
      rw [hset]
      refine .busy hpast hm ?_ ?_
      · intro x hx
        rcases List.mem_append.mp hx with hx | hx
        · exact hqueue x (by simp [hx])
        · rw [List.mem_singleton.mp hx]
          exact ⟨hq.role, hq.connection, hq.wire⟩
      · rw [← List.cons_append, ← List.append_assoc] at hlast ⊢
        exact onlyNewest_congr hlast (by simp)

/-- **One step** of an orderly run. -/
theorem Pipelined.step {c : Connection} (hc : Pipelined w.flushes c) {ev : Event}
    (h : c.allows w ev = true) : ∃ c', c.step w ev = .ok c' ∧ Pipelined w.flushes c' := by
  cases ev with
  | request r =>
    simp only [allows, Bool.and_eq_true, List.all_eq_true, Bool.not_eq_true'] at h
    exact hc.onIncoming h.2 r
  | call i call =>
    simp only [allows, Option.any_eq_true, Bool.and_eq_true, Bool.not_eq_true', Bool.or_eq_true,
      beq_iff_eq] at h
    obtain ⟨m, hm, hf, hl⟩ := h
    exact hc.call hm hf hl
  | «end» => exact ⟨_, rfl, hc.onEnd⟩

/-- **A whole run.** -/
theorem Pipelined.run {c : Connection} (hc : Pipelined w.flushes c) {evs : List Event}
    (h : c.orderly w evs = true) : ∃ c', c.run w evs = .ok c' ∧ Pipelined w.flushes c' := by
  induction evs generalizing c with
  | nil => exact ⟨c, rfl, hc⟩
  | cons ev evs ih =>
    rw [orderly, Bool.and_eq_true] at h
    obtain ⟨c₁, h₁, hc₁⟩ := hc.step h.1
    rw [h₁] at h
    obtain ⟨c', h', hc'⟩ := ih hc₁ h.2
    refine ⟨c', ?_, hc'⟩
    simp only [Connection.run, h₁]
    exact h'

/-! ## All runs -/

theorem Pipelined.log {c : Connection} (hc : Pipelined flushes c) :
    c.log = inRequestOrder 0 c.responses := by
  cases hc <;> rfl

theorem Pipelined.connection {c : Connection} (hc : Pipelined flushes c) {i : ℕ}
    (hi : c.responses[i]? = some m) :
    m.connection = if c.httpMessage = some i then some ⟨true, true, flushes i⟩ else none := by
  cases hc with
  | idle hpast hlast =>
    simp only [ordered, List.append_nil] at hi
    simp [ordered, (hpast m (List.mem_of_getElem? hi)).connection]
  | @busy past m' queue closed hpast hm hqueue hlast =>
    simp only [ordered, List.head?_cons, Option.map_some, Option.some.injEq] at hi ⊢
    rcases response_cases hi with ⟨hlt, hmem⟩ | ⟨rfl, rfl⟩ | ⟨k, rfl, hk⟩
    · rw [if_neg (by omega), (hpast m hmem).connection]
    · rw [if_pos rfl, hm.connection]
    · rw [if_neg (by omega), (hqueue m (List.mem_of_getElem? hk)).connection]

theorem Pipelined.httpMessage {c : Connection} (hc : Pipelined flushes c) :
    c.httpMessage = c.responses.findIdx? (!·.finished) := by
  have hnone : ∀ {past : List Message}, (∀ m ∈ past, Gone m) →
      past.findIdx? (!·.finished) = none := by
    intro past hpast
    rw [List.findIdx?_eq_none_iff]
    intro m hm
    simp [(hpast m hm).finished]
  cases hc with
  | idle hpast hlast => simp [ordered, hnone hpast]
  | busy hpast hm hqueue hlast =>
    simp [ordered, List.findIdx?_append, hnone hpast, List.findIdx?_cons, hm.finished]

theorem Pipelined.output {c : Connection} (hc : Pipelined flushes c) {i : ℕ}
    (hi : c.responses[i]? = some m) (ho : m.output ≠ []) :
    ∃ j, c.httpMessage = some j ∧ j < i := by
  cases hc with
  | idle hpast hlast =>
    simp only [ordered, List.append_nil] at hi
    exact absurd (hpast m (List.mem_of_getElem? hi)).output ho
  | @busy past m' queue closed hpast hm hqueue hlast =>
    simp only [ordered] at hi
    rcases response_cases hi with ⟨-, hmem⟩ | ⟨-, rfl⟩ | ⟨k, rfl, -⟩
    · exact absurd (hpast m hmem).output ho
    · exact absurd hm.output ho
    · exact ⟨past.length, rfl, by omega⟩

/-- **Responses are in order.** In any orderly run, requests and calls in any order, no assertion
fails. The socket belongs to the oldest response that has not been ended, and to no other. What has
been written to it is the output of the first response, then that of the second and so on, and only
responses that are behind the owner of the socket have something left to write. -/
theorem in_order (w : Setting) (evs : List Event) (h : start.orderly w evs = true) :
    ∃ c, start.run w evs = .ok c ∧ c.log = inRequestOrder 0 c.responses ∧
      (∀ i m, c.responses[i]? = some m →
        m.connection = if c.httpMessage = some i then some ⟨true, true, w.flushes i⟩ else none) ∧
      c.httpMessage = c.responses.findIdx? (!·.finished) ∧
      ∀ i m, c.responses[i]? = some m → m.output ≠ [] → ∃ j, c.httpMessage = some j ∧ j < i := by
  have hstart : Pipelined w.flushes start :=
    @Pipelined.idle _ [] false (by simp) (by simp [OnlyNewest])
  obtain ⟨c, hrun, hc⟩ := hstart.run h
  exact ⟨c, hrun, hc.log, fun i m hi ↦ hc.connection hi, hc.httpMessage,
    fun i m hi ho ↦ hc.output hi ho⟩

/-- Two requests, the second of which is answered first. -/
def crossed : List Event :=
  [.request ⟨false, 1, 1, true, false⟩, .request ⟨false, 1, 1, true, true⟩,
    .call 1 (.body (.write (.str (js "b")) none)), .call 1 (.end none none),
    .call 0 (.body (.writeHead 200 none none)), .call 0 (.end (some (.str (js "a"))) none)]

theorem in_order_crossed :
    start.orderly ⟨id, fun _ ↦ none, false, fun _ ↦ true⟩ crossed = true ∧
      ∃ c, start.run ⟨id, fun _ ↦ none, false, fun _ ↦ true⟩ crossed = .ok c ∧
        c.log = inRequestOrder 0 c.responses ∧
        (∀ i m, c.responses[i]? = some m →
          m.connection = if c.httpMessage = some i then some ⟨true, true, true⟩ else none) ∧
        c.httpMessage = c.responses.findIdx? (!·.finished) ∧
        ∀ i m, c.responses[i]? = some m → m.output ≠ [] → ∃ j, c.httpMessage = some j ∧ j < i := by
  have h : start.orderly ⟨id, fun _ ↦ none, false, fun _ ↦ true⟩ crossed = true := by decide +kernel
  exact ⟨h, in_order _ _ h⟩

end Connection

end SpiderNode.Http
