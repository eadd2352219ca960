import SpiderNode.Files.Resolved

/-!
# Normalizing with a stack

The loop of `normalizeArray` goes over the parts from the last to the first. It removes parts from
the array that it reads, and counts the `'..'` that have not met a part yet. `loop_eq` says what one
has at each index: the rest of the array is what the loop leaves of it, as `normalizeParts` has it.

The same is computed from the first part to the last with a stack, where `'..'` pops the part on
top. `normalizeInPlace_eq` compares the two. Both compute the net effect of the walk that the parts
are, one from its end and the other from its beginning, and net effects can be composed either way.
-/

namespace SpiderNode.Files.Parts

open Trees

/-! ## The loop -/

/-- One turn of the first loop: `parts.splice(i, 1)` does nothing behind the last part. -/
def turn (i : ℕ) (parts : List JSString) (up : ℕ) : List JSString × ℕ :=
  let last := parts[i]?
  if last = some (js ".") then (parts.eraseIdx i, up)
  else if last = some (js "..") then (parts.eraseIdx i, up + 1)
  else if 0 < up then (parts.eraseIdx i, up - 1)
  else (parts, up)

/-- The turns from an index down to the first. -/
def loop : ℕ → List JSString → ℕ → List JSString × ℕ
  | 0, parts, up => turn 0 parts up
  | i + 1, parts, up =>
    let (parts, up) := turn (i + 1) parts up
    loop i parts up

/-- The second loop. -/
def unshift : ℕ → List JSString → List JSString
  | 0, parts => parts
  | up + 1, parts => unshift up (js ".." :: parts)

/-- `normalizeArray`, as it changes its array. -/
def normalizeInPlace (parts : List JSString) (allowAboveRoot : Bool) : List JSString :=
  let (parts, up) := loop parts.length parts 0
  if allowAboveRoot then unshift up parts else parts

/-! ## The stack -/

/-- A part comes to a stack, whose top is the first of the list. A stack without names is empty, or
has only `'..'`. -/
def push (allowAboveRoot : Bool) (stack : List JSString) (part : JSString) : List JSString :=
  if part = js "." then stack
  else if part = js ".." then
    match stack with
    | [] => if allowAboveRoot then [js ".."] else []
    | top :: rest =>
      if top ≠ js ".." then rest else if allowAboveRoot then js ".." :: stack else stack
  else part :: stack

def normalizeStack (parts : List JSString) (allowAboveRoot : Bool) : List JSString :=
  (parts.foldl (push allowAboveRoot) []).reverse

/-! ## What the loop leaves -/

/-- The part at the index is in front of what has been dealt with already. -/
theorem turn_eq (front : List JSString) (last : JSString) (behind : List JSString) :
    turn front.length (front ++ last :: (normalizeParts behind).1) (normalizeParts behind).2 =
      (front ++ (normalizeParts (last :: behind)).1, (normalizeParts (last :: behind)).2) := by
  have hlast : (front ++ last :: (normalizeParts behind).1)[front.length]? = some last := by
    simp
  have herase : (front ++ last :: (normalizeParts behind).1).eraseIdx front.length =
      front ++ (normalizeParts behind).1 := by
    rw [List.eraseIdx_append_of_length_le (Nat.le_refl _), Nat.sub_self, List.eraseIdx_cons_zero]
  rw [turn, normalizeParts_cons, hlast, herase]
  simp only [Option.some.injEq]
  split_ifs <;> rfl

theorem loop_eq (front : List JSString) (last : JSString) (behind : List JSString) :
    loop front.length (front ++ last :: (normalizeParts behind).1) (normalizeParts behind).2 =
      normalizeParts (front ++ last :: behind) := by
  induction front using List.reverseRecOn generalizing last behind with
  | nil => exact turn_eq [] last behind
  | append_singleton front part ih =>
    have hlength : (front ++ [part]).length = front.length + 1 := List.length_append
    have hturn := turn_eq (front ++ [part]) last behind
    rw [hlength] at hturn ⊢
    rw [loop, hturn, List.append_assoc, List.append_assoc]
    exact ih part (last :: behind)

/-- **The loop** begins behind the last part, where there is nothing to do. -/
theorem loop_length (parts : List JSString) :
    loop parts.length parts 0 = normalizeParts parts := by
  have hturn : turn parts.length parts 0 = (parts, 0) := by
    rw [turn, List.getElem?_eq_none (Nat.le_refl _)]
    rfl
  rcases parts.eq_nil_or_concat' with rfl | ⟨front, last, rfl⟩
  · exact hturn
  · have hlength : (front ++ [last]).length = front.length + 1 := List.length_append
    rw [hlength] at hturn ⊢
    rw [loop, hturn]
    exact loop_eq front last []

theorem unshift_eq (up : ℕ) (parts : List JSString) :
    unshift up parts = List.replicate up (js "..") ++ parts := by
  induction up generalizing parts with
  | zero => rfl
  | succ up ih => rw [unshift, ih, List.replicate_succ', List.append_assoc, List.singleton_append]

theorem normalizeInPlace_eq (parts : List JSString) (allowAboveRoot : Bool) :
    normalizeInPlace parts allowAboveRoot = normalizeArray parts allowAboveRoot := by
  rw [normalizeInPlace, normalizeArray, loop_length]
  dsimp only
  rw [unshift_eq]

/-! ## What the stack has -/

/-- The stack after a walk with a net effect. -/
def stackOf (allowAboveRoot : Bool) (x : Net JSString) : List JSString :=
  x.downs.reverse ++ if allowAboveRoot then List.replicate x.ups (js "..") else []

variable {allowAboveRoot : Bool} {x : Net JSString}

theorem push_name (stack : List JSString) {part : JSString} (hdot : part ≠ js ".")
    (hdots : part ≠ js "..") : push allowAboveRoot stack part = part :: stack := by
  unfold push
  rw [if_neg hdot, if_neg hdots]

theorem push_dots_of_names (names : List JSString) {top : JSString} (htop : top ≠ js "..") :
    push allowAboveRoot (top :: names) (js "..") = names := if_pos htop

/-- With no name left, `'..'` stays or not. -/
theorem push_dots_of_ups (n : ℕ) :
    push allowAboveRoot (stackOf allowAboveRoot ⟨n, []⟩) (js "..") =
      stackOf allowAboveRoot ⟨n + 1, []⟩ := by
  cases allowAboveRoot with
  | false => rfl
  | true =>
    cases n with
    | zero => rfl
    | succ n => rfl

theorem push_stackOf (hx : js ".." ∉ x.downs) (part : JSString) :
    push allowAboveRoot (stackOf allowAboveRoot x) part =
      stackOf allowAboveRoot (x * (step part).net) := by
  obtain ⟨n, names⟩ := x
  rw [step]
  split_ifs with hdot hdots
  · rw [Step.net, mul_one, hdot]
    rfl
  · rw [hdots]
    rcases names.eq_nil_or_concat' with rfl | ⟨names, top, rfl⟩
    · exact push_dots_of_ups n
    · have htop : top ≠ js ".." := fun heq ↦ hx (heq ▸ List.mem_append_right _ List.mem_cons_self)
      have hnet : (⟨n, names ++ [top]⟩ : Net JSString) * Step.up.net = ⟨n, names⟩ := by
        ext1 <;> simp [Step.net]
      rw [hnet, stackOf, List.reverse_concat, List.cons_append, push_dots_of_names _ htop]
      rfl
  · have hnet : (⟨n, names⟩ : Net JSString) * (Step.down part).net = ⟨n, names ++ [part]⟩ := by
      ext1 <;> simp [Step.net]
    rw [hnet, stackOf, stackOf, List.reverse_concat, push_name _ hdot hdots]
    rfl

theorem dots_not_mem_downs (hx : js ".." ∉ x.downs) (part : JSString) :
    js ".." ∉ (x * (step part).net).downs := by
  rw [Net.downs_mul, List.mem_append]
  rintro (hmem | hmem)
  · exact hx (List.mem_of_mem_take hmem)
  · rw [step] at hmem
    split_ifs at hmem with hdot hdots
    · exact absurd hmem List.not_mem_nil
    · exact absurd hmem List.not_mem_nil
    · exact hdots (List.mem_singleton.mp hmem).symm

theorem foldl_push (hx : js ".." ∉ x.downs) (parts : List JSString) :
    parts.foldl (push allowAboveRoot) (stackOf allowAboveRoot x) =
      stackOf allowAboveRoot (x * net (parts.map step)) := by
  induction parts generalizing x with
  | nil => rw [List.map_nil, net_nil, mul_one, List.foldl_nil]
  | cons part parts ih =>
    rw [List.foldl_cons, push_stackOf hx, ih (dots_not_mem_downs hx part), List.map_cons, net_cons,
      mul_assoc]

/-- **`normalizeArray` is the algorithm with a stack.** -/
theorem normalizeInPlace_eq_normalizeStack (parts : List JSString) (allowAboveRoot : Bool) :
    normalizeInPlace parts allowAboveRoot = normalizeStack parts allowAboveRoot := by
  have hstack : ([] : List JSString) = stackOf allowAboveRoot 1 := by cases allowAboveRoot <;> rfl
  rw [normalizeInPlace_eq, normalizeArray, normalizeParts_eq, normalizeStack, hstack,
    foldl_push List.not_mem_nil, one_mul]
  rw [stackOf, List.reverse_append, List.reverse_reverse]
  cases allowAboveRoot with
  | false => rfl
  | true => simp only [if_true, List.reverse_replicate]

end SpiderNode.Files.Parts
