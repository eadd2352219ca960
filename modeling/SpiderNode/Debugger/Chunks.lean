import SpiderNode.Debugger.Messages

/-!
# Chunks of the debugger protocol

However the text of some messages is cut, `execute` finds the same messages. A call that does not
get to the end of a message leaves a protocol that `Waits`: the next call gives what one call with
the text of both would give. So only the text counts that is not used up, and that is a part of one
message.

What is found is not always what was sent: `execute` loses what stands behind a second `": "` in a
header, and a header `__proto__`. Every request of `serialize` arrives.
-/

namespace SpiderNode.Debugger

open Protocol

variable {d : Doubles} {p p' : Protocol} {m : Message} {s t : JSString} {depth : ℕ}

theorem index_natCast (n length : ℕ) : (Number.finite n).index length = min n length := by
  simp [Number.index]

theorem not_le_of_gt {x : Number} {n : ℕ} (h : x.gt n = true) : x.le n = false := by
  cases x with
  | nan => rfl
  | infinity negative =>
    simp only [Number.gt, Number.le, Bool.not_eq_true'] at h ⊢
    exact h
  | finite q =>
    simp only [Number.gt, Number.le, decide_eq_true_eq, decide_eq_false_iff_not, not_le] at h ⊢
    exact h

namespace Protocol

/-- The headers have not ended yet. -/
def Begins (p : Protocol) : Prop := p.state = .headers ∧ p.headers = []

/-- `execute` may be called with more text. -/
def Waits (d : Doubles) (p : Protocol) : Prop :=
  p.Begins ∨ ∃ q : Protocol, q.Begins ∧ ∃ i, indexOfEnd q.raw = some i ∧ p = q.readHeaders d i

theorem execute_begins (hp : p.Begins) (s : JSString) : execute d (depth + 1) p s =
    match indexOfEnd (p.raw ++ s) with
    | none => ([], .ok { p with raw := p.raw ++ s })
    | some i =>
      (readHeaders d { p with raw := p.raw ++ s } i).takeBody d fun p ↦ execute d depth p [] := by
  rw [execute]
  simp only [hp.1]
  cases hend : indexOfEnd (p.raw ++ s) with
  | none => rfl
  | some i =>
    simp only
    split
    · rename_i hgt
      rw [takeBody, not_le_of_gt hgt]
      rfl
    · rfl

/-- A call goes on as if the text had come at once. -/
theorem Waits.execute_eq (hp : p.Waits d) (depth : ℕ) (s : JSString) :
    ∃ q : Protocol, q.Begins ∧ q.raw = p.raw ∧ execute d depth p s = execute d depth q s := by
  obtain hp | ⟨q, hq, i, hend, rfl⟩ := hp
  · exact ⟨p, hp, rfl, rfl⟩
  · refine ⟨q, hq, rfl, ?_⟩
    cases depth with
    | zero => rfl
    | succ depth =>
      rw [execute_begins hq, indexOfEnd_append hend]
      have htake : (q.raw ++ s).take i = q.raw.take i :=
        List.take_append_of_le_length (by have := indexOfEnd_le hend; omega)
      simp only [execute, readHeaders, htake]

theorem length_text (m : Message) :
    m.text.length = (headerText m.headers).length + 4 + m.body.length := by
  rw [Message.text, List.length_append, List.length_append]
  rfl

theorem indexOfEnd_text (hwf : m.WellFormed d) (t : JSString) :
    indexOfEnd (m.text ++ t) = some (headerText m.headers).length := by
  obtain ⟨h, hmem, -⟩ := hwf.length
  rw [Message.text, List.append_assoc, List.append_assoc]
  exact indexOfEnd_headerText (List.ne_nil_of_mem hmem) hwf.headers

/-- What the headers of a message come to. -/
theorem readHeaders_eq (hp : p.Begins) (hwf : m.WellFormed d)
    (htake : p.raw.take (headerText m.headers).length = headerText m.headers) :
    p.readHeaders d (headerText m.headers).length =
      { p with
        headers := m.received
        contentLength := .finite (m.body.length : ℕ)
        bodyStartIndex := (headerText m.headers).length + 4
        state := .body } := by
  simp only [readHeaders, htake, hp.2, foldl_received hwf, toNumber_received hwf]

/-- The text does not have all of a message. -/
theorem execute_part (depth : ℕ) (hp : p.Begins) (hwf : m.WellFormed d)
    (htext : p.raw ++ s <+: m.text)
    (hlength : (p.raw ++ s).length < m.text.length) :
    ∃ p' : Protocol, execute d (depth + 1) p s = ([], .ok p') ∧ p'.raw = p.raw ++ s ∧
      p'.Waits d := by
  obtain ⟨rest, hrest⟩ := htext
  have hbegins : Begins { p with raw := p.raw ++ s } := hp
  have hend : indexOfEnd (p.raw ++ s) = if (headerText m.headers).length + 4 ≤ (p.raw ++ s).length
      then some (headerText m.headers).length else none := by
    have htext := indexOfEnd_text hwf []
    rw [List.append_nil, ← hrest] at htext
    exact indexOfEnd_of_append htext
  rw [execute_begins hp, hend]
  split_ifs with hle
  · have htake : (p.raw ++ s).take (headerText m.headers).length = headerText m.headers := by
      rw [← List.take_append_of_le_length (by omega), hrest, Message.text,
        List.append_assoc]
      exact List.take_left
    have hread := readHeaders_eq hbegins hwf htake
    have hle' : (Number.finite (m.body.length : ℕ)).le
        ((p.raw ++ s).length - ((headerText m.headers).length + 4)) = false := by
      rw [length_text] at hlength
      simp only [Number.le, decide_eq_false_iff_not, Nat.cast_le]
      omega
    refine ⟨_, ?_, ?_, .inr ⟨_, hbegins, _, hend.trans (if_pos hle), hread.symm⟩⟩
    · simp only
      rw [hread, takeBody]
      simp only [available, hle']
      rfl
    · rfl
  · exact ⟨_, rfl, rfl, .inl hbegins⟩

/-- The text has a message, and more. -/
theorem execute_whole (depth : ℕ) (hp : p.Begins) (hwf : m.WellFormed d)
    (htext : p.raw ++ s = m.text ++ t) :
    ∃ q : Protocol, ∃ body, parseBody d m.body = some body ∧ q.Begins ∧ q.raw = t ∧
      execute d (depth + 1) p s =
        (⟨p.raw ++ s, m.received, body⟩ :: (execute d depth q []).1, (execute d depth q []).2) := by
  obtain ⟨body, hbody⟩ := Option.isSome_iff_exists.mp hwf.body
  have hbegins : Begins { p with raw := m.text ++ t } := hp
  have htake : (m.text ++ t).take (headerText m.headers).length = headerText m.headers := by
    rw [Message.text, List.append_assoc, List.append_assoc]
    exact List.take_left
  have hread := readHeaders_eq hbegins hwf htake
  have hlength : (m.text ++ t).length = m.text.length + t.length := List.length_append
  have htextLength := length_text m
  have hle : (Number.finite (m.body.length : ℕ)).le
      ((m.text ++ t).length - ((headerText m.headers).length + 4)) = true := by
    simp only [Number.le, decide_eq_true_eq, Nat.cast_le]
    omega
  have hbodyEnd : d.add ((headerText m.headers).length + 4) (.finite (m.body.length : ℕ)) =
      .finite (m.text.length : ℕ) := by
    rw [Doubles.add, ← Nat.cast_add, ← htextLength, d.round_natCast _ hwf.fits]
  have hbodyText : slice (m.text ++ t) (.finite ((headerText m.headers).length + 4 : ℕ))
      (.finite (m.text.length : ℕ)) = m.body := by
    rw [slice, index_natCast, index_natCast, Nat.min_eq_left (by omega), Nat.min_eq_left (by omega),
      List.take_left, Message.text]
    exact List.drop_left' (List.length_append.trans rfl)
  have hrest : slice (m.text ++ t) (.finite (m.text.length : ℕ)) (.infinity false) = t := by
    rw [slice, index_natCast, Nat.min_eq_left (by omega)]
    change ((m.text ++ t).take (m.text ++ t).length).drop m.text.length = t
    rw [List.take_length, List.drop_left]
  rw [execute_begins hp, htext, indexOfEnd_text hwf]
  simp only
  rw [hread, takeBody]
  simp only [available, hle, if_true, bodyText, rest, bodyEnd, hbodyEnd, hbodyText, hrest, hbody]
  exact ⟨_, body, rfl, ⟨rfl, rfl⟩, rfl, rfl⟩

end Protocol

/-- The headers and the body that `onResponse` gets. -/
def Response.content (r : Response) : Headers × Option Json := (r.headers, some r.body)

/-- The responses to some messages. -/
def received (d : Doubles) (messages : List Message) : List (Headers × Option Json) :=
  messages.map fun m ↦ (m.received, parseBody d m.body)

/-- A call finds the messages that have come to their end, and keeps a part of the next one. -/
theorem execute_messages {messages : List Message} (hwf : ∀ m ∈ messages, m.WellFormed d)
    (hp : p.Begins) (hdepth : messages.length < depth)
    (htext : p.raw ++ s <+: messages.flatMap Message.text) :
    ∃ done rest p', messages = done ++ rest ∧
      p.raw ++ s = done.flatMap Message.text ++ p'.raw ∧ p'.Waits d ∧
      (∀ m ∈ rest.head?, p'.raw.length < m.text.length) ∧
      (execute d depth p s).1.map Response.content = received d done ∧
      (execute d depth p s).2 = .ok p' := by
  obtain _ | depth := depth
  · cases hdepth
  induction messages generalizing p s depth with
  | nil =>
    have hnil : p.raw ++ s = [] := List.prefix_nil.mp htext
    rw [execute_begins hp, hnil]
    exact ⟨[], [], { p with raw := [] }, rfl, rfl, .inl hp, nofun, rfl, rfl⟩
  | cons m messages ih =>
    have hm := hwf m List.mem_cons_self
    rw [List.flatMap_cons] at htext
    obtain hlength | hlength := Nat.lt_or_ge (p.raw ++ s).length m.text.length
    · have hpart := List.prefix_of_prefix_length_le htext (List.prefix_append ..) hlength.le
      obtain ⟨p', hexecute, hraw, hwaits⟩ := execute_part depth hp hm hpart hlength
      rw [hexecute]
      refine ⟨[], m :: messages, p', rfl, hraw.symm, hwaits, ?_, rfl, rfl⟩
      rintro _ ⟨⟩
      rwa [hraw]
    · obtain ⟨t, ht⟩ := List.prefix_of_prefix_length_le (List.prefix_append ..) htext hlength
      obtain ⟨q, body, hbody, hq, hraw, hexecute⟩ := execute_whole depth hp hm ht.symm
      rw [List.length_cons] at hdepth
      obtain _ | depth := depth
      · omega
      have hrest : q.raw ++ [] <+: messages.flatMap Message.text := by
        rw [List.append_nil, hraw]
        rwa [← ht, List.prefix_append_right_inj] at htext
      obtain ⟨done, rest, p', rfl, htext', hwaits, hlength', hresponses, hresult⟩ :=
        ih (fun m hm ↦ hwf m (List.mem_cons_of_mem _ hm)) hq hrest depth (by omega)
      rw [hexecute]
      refine ⟨m :: done, rest, p', rfl, ?_, hwaits, hlength', ?_, hresult⟩
      · rw [← ht, ← hraw, List.flatMap_cons, List.append_assoc, ← htext', List.append_nil]
      · rw [List.map_cons, hresponses, received, received, List.map_cons, hbody]
        rfl

/-- However a text is cut, the messages are found. -/
theorem feed_messages (messages : List Message) (hwf : ∀ m ∈ messages, m.WellFormed d)
    (hp : p.Waits d) (hdepth : messages.length < depth) {chunks : List JSString}
    (hlength : ∀ m ∈ messages.head?, p.raw.length < m.text.length)
    (htext : p.raw ++ chunks.flatten = messages.flatMap Message.text) :
    (feed d depth p chunks).1.map Response.content = received d messages ∧
      ∃ p' : Protocol, (feed d depth p chunks).2 = .ok p' := by
  induction chunks generalizing p messages with
  | nil =>
    obtain _ | ⟨m, messages⟩ := messages
    · exact ⟨rfl, p, rfl⟩
    · rw [List.flatten_nil, List.append_nil, List.flatMap_cons] at htext
      have hlt := hlength m rfl
      rw [htext, List.length_append] at hlt
      omega
  | cons s chunks ih =>
    obtain ⟨q, hq, hraw, hexecute⟩ := hp.execute_eq depth s
    rw [List.flatten_cons, ← List.append_assoc] at htext
    obtain ⟨done, rest, p', rfl, htext', hwaits, hlength', hresponses, hresult⟩ :=
      execute_messages hwf hq hdepth (hraw.symm ▸ ⟨_, htext⟩ : q.raw ++ s <+: _)
    have hrest : p'.raw ++ chunks.flatten = rest.flatMap Message.text := by
      rw [← hraw, htext', List.flatMap_append, List.append_assoc] at htext
      exact List.append_cancel_left htext
    rw [List.length_append] at hdepth
    obtain ⟨hfeed, hok⟩ := ih rest (fun m hm ↦ hwf m (List.mem_append_right _ hm)) hwaits
      (by omega) hlength' hrest
    have heq : feed d depth p (s :: chunks) =
        ((execute d depth p s).1 ++ (feed d depth p' chunks).1, (feed d depth p' chunks).2) := by
      rw [feed, hexecute, ← Prod.mk.eta (p := execute d depth q s), hresult]
    rw [heq, hexecute]
    exact ⟨by rw [List.map_append, hresponses, hfeed, received, received, received,
      List.map_append], hok⟩

/-- Nothing is lost of the headers: each value is without `": "`, and no name is `__proto__`. -/
def Message.Kept (m : Message) : Prop :=
  ∀ h ∈ m.headers, ¬[0x3A, 0x20] <:+: h.value ∧ h.name ≠ js "__proto__"

instance (m : Message) : Decidable m.Kept :=
  inferInstanceAs (Decidable (∀ h ∈ m.headers,
    ¬[0x3A, 0x20] <:+: h.value ∧ h.name ≠ js "__proto__"))

theorem received_eq_sent_iff (m : Message) : m.received = m.sent ↔ m.Kept := by
  rw [Message.received, Message.sent, Message.Kept]
  constructor
  · intro heq h hh
    have hfilter : m.headers.filter (fun h ↦ h.name ≠ js "__proto__") = m.headers := by
      have hlength := congrArg List.length heq
      rw [List.length_map, List.length_map] at hlength
      exact List.filter_sublist.eq_of_length hlength
    rw [hfilter] at heq
    have hvalue := (Prod.mk.inj (List.map_inj_left.mp heq h hh)).2
    refine ⟨(cutField_eq_iff _).mp (Option.some.inj hvalue), ?_⟩
    have hname := List.filter_eq_self.mp hfilter h hh
    exact of_decide_eq_true hname
  · intro hkept
    rw [List.filter_eq_self.mpr fun h hh ↦ decide_eq_true (hkept h hh).2]
    refine List.map_congr_left fun h hh ↦ ?_
    rw [(cutField_eq_iff h.value).mpr (hkept h hh).1]

/-! ## Requests -/

theorem mem_setField {α : Type*} {fields : List (JSString × α)} {key : JSString} {value : α}
    {f : JSString × α} (h : f ∈ setField fields key value) : f = (key, value) ∨ f ∈ fields := by
  induction fields with
  | nil => exact .inl (List.mem_singleton.mp h)
  | cons g fields ih =>
    rw [setField] at h
    split_ifs at h
    · exact (List.mem_cons.mp h).imp_right (List.mem_cons_of_mem _)
    · obtain rfl | h := List.mem_cons.mp h
      · exact .inr List.mem_cons_self
      · exact (ih h).imp_right (List.mem_cons_of_mem _)

theorem nodup_setField {α : Type*} {fields : List (JSString × α)}
    (h : (fields.map Prod.fst).Nodup) (key : JSString) (value : α) :
    ((setField fields key value).map Prod.fst).Nodup := by
  induction fields with
  | nil => exact List.nodup_singleton key
  | cons g fields ih =>
    rw [List.map_cons, List.nodup_cons] at h
    rw [setField]
    split_ifs with hkey
    · exact List.nodup_cons.mpr ⟨hkey ▸ h.1, h.2⟩
    · refine List.nodup_cons.mpr ⟨fun hmem ↦ ?_, ih h.2⟩
      obtain ⟨f, hf, hfst⟩ := List.mem_map.mp hmem
      obtain rfl | hf := mem_setField hf
      · exact hkey hfst.symm
      · exact h.1 (hfst ▸ List.mem_map_of_mem hf)

theorem fieldsSerialisable_iff {fields : List (JSString × Json)} :
    Json.FieldsSerialisable d fields ↔ ∀ f ∈ fields, f.2.Serialisable d := by
  induction fields with
  | nil => exact ⟨fun _ ↦ nofun, fun _ ↦ trivial⟩
  | cons f fields ih => rw [Json.FieldsSerialisable, ih, List.forall_mem_cons]

theorem serialisable_setField {fields : List (JSString × Json)}
    (h : (Json.object fields).Serialisable d) (key : JSString) {v : Json} (hv : v.Serialisable d) :
    (Json.object (setField fields key v)).Serialisable d := by
  refine ⟨nodup_setField h.1 key v, fieldsSerialisable_iff.mpr fun f hf ↦ ?_⟩
  obtain rfl | hf := mem_setField hf
  · exact hv
  · exact fieldsSerialisable_iff.mp h.2 f hf

/-- The message that `serialize` makes. -/
def request (d : Doubles) (v : Json) : Message where
  headers := [⟨js "Content-Length", 0, d.toString (v.stringify d).length⟩]
  body := v.stringify d

theorem wellFormed_request {v : Json} (hv : v.Serialisable d)
    (hfits : (request d v).text.length ≤ 2 ^ 53) : (request d v).WellFormed d := by
  have hbody : (v.stringify d).length ≤ 2 ^ 53 := by
    refine Nat.le_trans ?_ hfits
    rw [length_text]
    exact Nat.le_add_left ..
  have hdecimal := d.toString_natCast _ hbody
  have hdigits : ∀ u ∈ d.toString (v.stringify d).length, isDigit u = true := fun u hu ↦
    isDigit_of_mem_decimal (hdecimal ▸ hu)
  refine ⟨?_, List.nodup_singleton _, ?_, ?_, hfits⟩
  · rintro h hh
    obtain rfl := List.mem_singleton.mp hh
    have hname : ∀ u ∈ js "Content-Length", u ≠ 0x0D ∧ u ≠ 0x0A ∧ u ≠ 0x3A := by decide
    refine ⟨hname, fun u hu ↦ ?_, fun u hu ↦ ?_⟩
    · exact forall_digit (p := fun u ↦ u ≠ 0x0D ∧ u ≠ 0x0A) (by decide) (hdigits u hu)
    · exact forall_digit (p := fun u ↦ u ≠ 0x20) (by decide) (hdigits u (List.mem_of_mem_head? hu))
  · refine ⟨_, List.mem_singleton_self _, rfl, ?_, hdigits, ?_⟩
    · exact hdecimal ▸ decimal_ne_nil _
    · exact (congrArg digitsValue hdecimal).trans (digitsValue_decimal _)
  · obtain ⟨u, t, htext, -⟩ := Json.stringify_head hv
    have hne : v.stringify d ≠ [] := htext ▸ List.cons_ne_nil _ _
    change (parseBody d (v.stringify d)).isSome
    rw [parseBody, if_neg hne, Json.parse_stringify hv]
    rfl

theorem feed_singleton (depth : ℕ) (p : Protocol) (s : JSString) :
    feed d depth p [s] = execute d depth p s := by
  rw [feed]
  split <;> rename_i h
  · rw [h, feed, List.append_nil]
  · exact h.symm

/-- Of a request, `execute` finds the headers and the body. -/
theorem execute_request {v : Json} (hv : v.Serialisable d)
    (hfits : (request d v).text.length ≤ 2 ^ 53) (hp : p.Begins) (hraw : p.raw = [])
    (hdepth : 1 < depth) :
    (execute d depth p (request d v).text).1.map Response.content =
        [((request d v).received, some v)] ∧
      ∃ p' : Protocol, (execute d depth p (request d v).text).2 = .ok p' := by
  have hwf := wellFormed_request hv hfits
  have htext : p.raw ++ [(request d v).text].flatten = [request d v].flatMap Message.text := by
    rw [hraw]
    simp
  have hlt : p.raw.length < (request d v).text.length := by
    rw [hraw, length_text]
    exact Nat.lt_of_lt_of_le (Nat.zero_lt_succ _) (Nat.le_add_right ..)
  have hfeed := feed_messages [request d v] (by simpa using hwf) (.inl hp) hdepth
    (by simpa using hlt) htext
  have hbody : parseBody d (v.stringify d) = some v := by
    obtain ⟨u, t, htext, -⟩ := Json.stringify_head hv
    rw [parseBody, if_neg (htext ▸ List.cons_ne_nil _ _), Json.parse_stringify hv]
  rw [feed_singleton] at hfeed
  refine ⟨hfeed.1.trans ?_, hfeed.2⟩
  exact congrArg (fun body ↦ [((request d v).received, body)]) hbody

theorem serialize_eq (d : Doubles) (p : Protocol) (req : List (JSString × Json)) :
    (p.serialize d req).1 = (request d (.object (p.serialize d req).2.1)).text := by
  simp only [serialize, Message.text, request, headerText, Header.line, List.replicate_zero,
    List.nil_append, List.append_assoc]
  rfl

/-- `serialize` keeps a request serialisable. -/
theorem serialisable_serialize {req : List (JSString × Json)}
    (hreq : (Json.object req).Serialisable d) (hseq : p.reqSeq ≤ 2 ^ 53) :
    (Json.object (p.serialize d req).2.1).Serialisable d :=
  have htype := serialisable_setField hreq (js "type") (v := .string (js "request")) trivial
  serialisable_setField htype _ ⟨_, rfl, d.round_natCast _ hseq⟩

/-- However the text of some messages is cut: each of them is found, in order, with the same headers
and body, if and only if nothing is lost of their headers. And each request of `serialize` is found
as it was sent. -/
theorem arrive_iff (d : Doubles) :
    (∀ (messages : List Message) (chunks : List JSString) (depth : ℕ),
      (∀ m ∈ messages, m.WellFormed d) → chunks.flatten = messages.flatMap Message.text →
        messages.length < depth →
          (((feed d depth new chunks).1.map Response.content =
                messages.map (fun m ↦ (m.sent, parseBody d m.body)) ∧
              ∃ p, (feed d depth new chunks).2 = .ok p) ↔
            ∀ m ∈ messages, m.Kept)) ∧
      ∀ (p q : Protocol) (req : List (JSString × Json)) (depth : ℕ),
        (Json.object req).Serialisable d → p.reqSeq ≤ 2 ^ 53 →
          (p.serialize d req).1.length ≤ 2 ^ 53 → q.Begins → q.raw = [] → 1 < depth →
            (execute d depth q (p.serialize d req).1).1.map Response.body =
                [.object (p.serialize d req).2.1] ∧
              ∃ q', (execute d depth q (p.serialize d req).1).2 = .ok q' := by
  refine ⟨fun messages chunks depth hwf htext hdepth ↦ ?_,
    fun p q req depth hreq hseq hfits hq hraw hdepth ↦ ?_⟩
  · have hlength : ∀ m ∈ messages.head?, (new.raw).length < m.text.length := fun m _ ↦ by
      rw [length_text]
      exact Nat.lt_of_lt_of_le (Nat.zero_lt_succ _) (Nat.le_add_right ..)
    obtain ⟨hresponses, hok⟩ := feed_messages _ hwf (p := new) (.inl ⟨rfl, rfl⟩) hdepth hlength
      htext
    rw [hresponses, received]
    refine ⟨fun h m hm ↦ ?_, fun hkept ↦ ⟨List.map_congr_left fun m hm ↦ ?_, hok⟩⟩
    · exact (received_eq_sent_iff m).mp (Prod.mk.inj (List.map_inj_left.mp h.1 m hm)).1
    · rw [(received_eq_sent_iff m).mpr (hkept m hm)]
  · rw [serialize_eq] at hfits ⊢
    obtain ⟨hresponses, hok⟩ :=
      execute_request (serialisable_serialize hreq hseq) hfits hq hraw hdepth
    refine ⟨?_, hok⟩
    have hbodies := congrArg (List.map Prod.snd) hresponses
    rw [List.map_map] at hbodies
    refine List.map_injective_iff.mpr (Option.some_injective _) ?_
    rw [List.map_map]
    exact hbodies

theorem blank_of_ne {s : JSString} (h : s.head? ≠ some 0x20) : ∀ u ∈ s.head?, u ≠ 0x20 := by
  rintro u hu rfl
  exact h hu

/-- A message without a body, and one with a body. -/
def connect : List Message :=
  [⟨[⟨js "Type", 0, js "connect"⟩, ⟨js "Content-Length", 0, js "0"⟩], []⟩,
    ⟨[⟨js "Content-Length", 2, js "9"⟩], js "\x7b\"a\": []\x7d"⟩]

theorem fits_of_le {n : ℕ} (h : n ≤ 200) : n ≤ 2 ^ 53 := h.trans (by norm_num)

theorem wellFormed_connect : ∀ m ∈ connect, m.WellFormed .naturals := by
  rintro m (_ | ⟨_, _ | ⟨_, ⟨⟩⟩⟩)
  · refine ⟨?_, by decide,
      ⟨_, List.mem_cons_of_mem _ List.mem_cons_self, rfl, by decide, by decide, rfl⟩, rfl,
      fits_of_le (by decide)⟩
    rintro h (_ | ⟨_, _ | ⟨_, ⟨⟩⟩⟩)
    · exact ⟨by decide, by decide, blank_of_ne (by decide)⟩
    · exact ⟨by decide, by decide, blank_of_ne (by decide)⟩
  · refine ⟨?_, by decide, ⟨_, List.mem_cons_self, rfl, by decide, by decide, rfl⟩,
      by decide +kernel, fits_of_le (by decide)⟩
    rintro h (_ | ⟨_, ⟨⟩⟩)
    exact ⟨by decide, by decide, blank_of_ne (by decide)⟩

/-- Both arrive, with a cut between `\r` and `\n`; and so does a request. -/
theorem arrive_connect :
    (feed .naturals 3 new [(connect.flatMap Message.text).take 14,
        (connect.flatMap Message.text).drop 14]).1.map Response.content =
      connect.map (fun m ↦ (m.sent, parseBody .naturals m.body)) ∧
    (execute .naturals 2 new
          (serialize .naturals new [(js "command", .string (js "version"))]).1).1.map
        Response.body =
      [.object (serialize .naturals new [(js "command", .string (js "version"))]).2.1] := by
  have hreq : (Json.object [(js "command", .string (js "version"))]).Serialisable .naturals :=
    ⟨List.nodup_singleton _, trivial, trivial⟩
  refine ⟨(((arrive_iff .naturals).1 connect _ 3 wellFormed_connect ?_ (by decide)).mpr ?_).1,
    ((arrive_iff .naturals).2 new new _ 2 hreq (fits_of_le (by decide)) ?_ ⟨rfl, rfl⟩ rfl
      (by decide)).1⟩
  · rw [List.flatten_cons, List.flatten_singleton, List.take_append_drop]
  · decide
  · exact fits_of_le (by decide +kernel)

/-- A value with a colon and a blank. -/
def embedding : Message :=
  ⟨[⟨js "Embedding-Host", 0, js "node: v0.6"⟩, ⟨js "Content-Length", 0, js "0"⟩], []⟩

/-- It does not arrive. -/
theorem embedding_lost : embedding.WellFormed .naturals ∧
    (feed .naturals 2 new [embedding.text]).1.map Response.content ≠
      [(embedding.sent, parseBody .naturals embedding.body)] := by
  have hwf : embedding.WellFormed .naturals := by
    refine ⟨?_, by decide,
      ⟨_, List.mem_cons_of_mem _ List.mem_cons_self, rfl, by decide, by decide, rfl⟩, rfl,
      fits_of_le (by decide)⟩
    rintro h (_ | ⟨_, _ | ⟨_, ⟨⟩⟩⟩)
    · exact ⟨by decide, by decide, blank_of_ne (by decide)⟩
    · exact ⟨by decide, by decide, blank_of_ne (by decide)⟩
  have htext : new.raw ++ [embedding.text].flatten = [embedding].flatMap Message.text := by
    simp
    rfl
  have hfeed := (feed_messages [embedding] (by simpa using hwf) (.inl ⟨rfl, rfl⟩)
    (by decide : _ < 2) (by simp; decide) htext).1
  refine ⟨hwf, fun heq ↦ ?_⟩
  have hsent := (Prod.mk.inj (List.cons.inj (hfeed.symm.trans heq)).1).1
  exact absurd ((received_eq_sent_iff embedding).mp hsent) (by decide)

end SpiderNode.Debugger