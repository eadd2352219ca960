import SpiderNode.Machine.Runs
import SpiderNode.Readline.Editor

/-!
# Keys and their commands

`Interface` of `lib/readline.js` on a terminal. Its keys are commands; some of them call functions
of the program: the listeners of `'line'`, `'SIGINT'`, `'attemptClose'` and `'close'`, the callback
of `question`, and the completer. Such a function may call the interface again before it returns,
and it may throw. What is left to do when it returns waits on a stack.

`Inv` of the editor holds whenever such a function is called and after each event
(`inv_of_reaches`).
-/

namespace SpiderNode.Readline

open Tty (Key)

/-! ## The interface -/

/-- The functions of the program that are called, with their arguments. -/
inductive Callee where
  | line (line : JSString)
  | question (line : JSString)
  | sigint
  | attemptClose
  | close
  | completer (text : JSString)

/-- What is left to do when such a function has returned. -/
inductive Rest where
  | nothing
  /-- The lines of a paste. -/
  | insert (lines : List JSString)
  | complete
  | closed

structure Interface where
  editor : Editor
  /-- `question` waits for a line. -/
  question : Bool
  closing : Bool
  closed : Bool
  /-- The calls that have not returned, the last first. -/
  calls : List (Callee × Rest)

/-- What the program has set up. -/
structure Setup where
  /-- `listeners('SIGINT').length` -/
  sigint : Bool
  /-- `listeners('attemptClose').length` -/
  attemptClose : Bool
  completer : Bool

/-- What a completer returns, where no completions are an empty list. -/
structure Completion where
  completions : List JSString
  completeOn : JSString

namespace Interface

def new : Interface := ⟨.new, false, false, false, []⟩

variable (rl : Interface)

def edit (f : Editor → Editor) : Interface := { rl with editor := f rl.editor }

/-- A function of the program is called. -/
def call (callee : Callee) (rest : Rest) : Interface :=
  { rl with calls := (callee, rest) :: rl.calls }

def prompt : Interface := rl.edit Editor.lineStart

/-- `question` with a callback. -/
def ask : Interface := { rl with question := true }.prompt

def onLine (line : JSString) (rest : Rest) : Interface :=
  if rl.question then { rl with question := false }.call (.question line) rest
  else rl.call (.line line) rest

/-- `_line` -/
def enter (rest : Rest) : Interface :=
  let (line, editor) := rl.editor.addHistory
  { rl with editor }.onLine line rest

def close : Interface :=
  if rl.closing then rl else { rl with closing := true }.call .close .closed

def attemptClose (setup : Setup) : Interface :=
  if setup.attemptClose then rl.call .attemptClose .nothing else rl.close

/-- The lines of a paste; each but the first is begun by `_line`. -/
def insertLines (lines : List JSString) : Interface :=
  match lines with
  | [] => rl
  | line :: lines =>
    let rl := rl.edit (·.insertString line)
    if lines = [] then rl else rl.enter (.insert lines)

/-- `_tabComplete`, up to the call of the completer. -/
def tabComplete (setup : Setup) : Interface :=
  if setup.completer then
    let read := [.slice 0 rl.editor.cursor rl.editor.length]
    (rl.edit fun e ↦ e.moveTo e.cursor read).call (.completer rl.editor.leading) .complete
  else rl

end Interface

/-- The units that two texts begin with. -/
def commonUnits : JSString → JSString → JSString
  | u :: s, v :: t => if u = v then u :: commonUnits s t else []
  | _, _ => []

def commonPrefix (strs : List JSString) : JSString :=
  let sorted := strs.mergeSort fun s t ↦ s ≤ t
  commonUnits (sorted.headD []) (sorted.getLastD [])

/-- `_tabComplete` from there on. -/
def Interface.complete (rv : Completion) (rl : Interface) : Interface :=
  let added (text : JSString) := slice text rv.completeOn.length text.length
  match rv.completions with
  | [] => rl
  | [text] => rl.edit (·.insertString (added text))
  | completions =>
    let shared := commonPrefix (completions.filter (· ≠ []))
    if rv.completeOn.length < shared.length then rl.edit (·.insertString (added shared)) else rl

/-! ## Keys -/

inductive Command where
  | wordLeft
  | wordRight
  | deleteLeft
  | deleteRight
  | deleteWordLeft
  | deleteWordRight
  | deleteLineLeft
  | deleteLineRight
  | deleteLine
  | lineStart
  | lineEnd
  | back
  | forward
  | historyNext
  | historyPrev
  | enter
  | tabComplete
  | interrupt
  /-- `ctrl-d` -/
  | deleteRightOrClose
  /-- `ctrl-z`, which does nothing to the interface. -/
  | suspend
  deriving DecidableEq

namespace Command

def ofCtrlShift : List (String × Command) :=
  [("backspace", deleteLineLeft), ("delete", deleteLineRight)]

def ofCtrl : List (String × Command) :=
  [("c", interrupt), ("h", deleteLeft), ("d", deleteRightOrClose), ("u", deleteLine),
    ("k", deleteLineRight), ("a", lineStart), ("e", lineEnd), ("b", back), ("f", forward),
    ("n", historyNext), ("p", historyPrev), ("z", suspend), ("w", deleteWordLeft),
    ("backspace", deleteWordLeft), ("delete", deleteWordRight), ("left", wordLeft),
    ("right", wordRight)]

def ofMeta : List (String × Command) :=
  [("b", wordLeft), ("f", wordRight), ("d", deleteWordRight), ("delete", deleteWordRight),
    ("backspace", deleteWordLeft)]

/-- Without a modifier. -/
def ofPlain : List (String × Command) :=
  [("enter", enter), ("backspace", deleteLeft), ("delete", deleteRight), ("tab", tabComplete),
    ("left", back), ("right", forward), ("home", lineStart), ("end", lineEnd),
    ("up", historyPrev), ("down", historyNext)]

def find (commands : List (String × Command)) (name : Option JSString) : Option Command :=
  (commands.find? fun c ↦ some (js c.1) = name).map Prod.snd

def run (setup : Setup) (rl : Interface) : Command → Interface
  | wordLeft => rl.edit Editor.wordLeft
  | wordRight => rl.edit Editor.wordRight
  | deleteLeft => rl.edit Editor.deleteLeft
  | deleteRight => rl.edit Editor.deleteRight
  | deleteWordLeft => rl.edit Editor.deleteWordLeft
  | deleteWordRight => rl.edit Editor.deleteWordRight
  | deleteLineLeft => rl.edit Editor.deleteLineLeft
  | deleteLineRight => rl.edit Editor.deleteLineRight
  | deleteLine => rl.edit Editor.deleteLine
  | lineStart => rl.edit Editor.lineStart
  | lineEnd => rl.edit Editor.lineEnd
  | back => rl.edit Editor.back
  | forward => rl.edit Editor.forward
  | historyNext => rl.edit Editor.historyNext
  | historyPrev => rl.edit Editor.historyPrev
  | enter => rl.enter .nothing
  | tabComplete => rl.tabComplete setup
  | interrupt => if setup.sigint then rl.call .sigint .nothing else rl.attemptClose setup
  | deleteRightOrClose =>
    if rl.editor.cursor = 0 ∧ rl.editor.length = 0 then rl.attemptClose setup
    else if rl.editor.cursor < rl.editor.length then rl.edit Editor.deleteRight
    else rl
  | suspend => rl

end Command

/-- `s.split(/\r\n|\n|\r/)` -/
def splitLines : JSString → List JSString
  | [] => [[]]
  | [u] => if u = 0x0A ∨ u = 0x0D then [[], []] else [[u]]
  | u :: v :: s =>
    if u = 0x0D ∧ v = 0x0A then [] :: splitLines s
    else if u = 0x0A ∨ u = 0x0D then [] :: splitLines (v :: s)
    else
      match splitLines (v :: s) with
      | line :: lines => (u :: line) :: lines
      | [] => [[u]]

/-- `_ttyWrite`; a buffer comes as the string that is made of it. -/
def Interface.ttyWrite (setup : Setup) (s : Option JSString) (key : Option Key) (rl : Interface) :
    Interface :=
  let key := key.getD ⟨none, false, false, false⟩
  let run (commands : List (String × Command)) : Interface :=
    match Command.find commands key.name with
    | some command => command.run setup rl
    | none => rl
  if key.ctrl && key.shift then run Command.ofCtrlShift
  else if key.ctrl then run Command.ofCtrl
  else if key.metaKey then run Command.ofMeta
  else
    match Command.find Command.ofPlain key.name with
    | some command => command.run setup rl
    | none =>
      match s with
      | some s => if s = [] then rl else rl.insertLines (splitLines s)
      | none => rl

/-! ## Runs -/

inductive Event where
  /-- A key is pressed, which does not ask whether the interface is closed. -/
  | keypress (setup : Setup) (s : Option JSString) (key : Option Key)
  | write (setup : Setup) (s : Option JSString) (key : Option Key)
  | prompt
  | question
  | close
  /-- The function that has been called last returns; what it returns is used of a completer. -/
  | returns (rv : Completion)
  | throws

def happen (rl : Interface) : Event → Interface
  | .keypress setup s key => rl.ttyWrite setup s key
  | .write setup s key => if rl.closed then rl else rl.ttyWrite setup s key
  | .prompt => rl.prompt
  | .question => rl.ask
  | .close => rl.close
  | .returns rv =>
    match rl.calls with
    | [] => rl
    | (_, rest) :: calls =>
      let rl := { rl with calls }
      match rest with
      | .nothing => rl
      | .insert lines => rl.insertLines lines
      | .complete => rl.complete rv
      | .closed => { rl with closed := true }
  | .throws => { rl with calls := rl.calls.tail }

/-- Functions of the program return, and throw, only if they have been called. -/
def Possible (rl : Interface) : Event → Prop
  | .returns _ => rl.calls ≠ []
  | .throws => rl.calls ≠ []
  | _ => True

def machine : Machine Interface Event Empty := ⟨Possible, fun rl event ↦ .ok (happen rl event)⟩

/-! ## The invariant -/

variable {rl : Interface} {setup : Setup} {rest : Rest}

theorem onLine_inv {line : JSString} (h : rl.editor.Inv) : (rl.onLine line rest).editor.Inv := by
  rw [Interface.onLine]
  split_ifs
  · exact h
  · exact h

theorem enter_inv (h : rl.editor.Inv) : (rl.enter rest).editor.Inv :=
  onLine_inv (Editor.Inv.addHistory h)

theorem close_inv (h : rl.editor.Inv) : rl.close.editor.Inv := by
  rw [Interface.close]
  split_ifs
  · exact h
  · exact h

theorem attemptClose_inv (h : rl.editor.Inv) : (rl.attemptClose setup).editor.Inv := by
  rw [Interface.attemptClose]
  split_ifs
  · exact h
  · exact close_inv h

theorem insertLines_inv {lines : List JSString} (h : rl.editor.Inv) :
    (rl.insertLines lines).editor.Inv := by
  rcases lines with _ | ⟨line, lines⟩
  · exact h
  · rw [Interface.insertLines]
    split_ifs
    · exact h.insertString line
    · exact enter_inv (h.insertString line)

theorem tabComplete_inv (h : rl.editor.Inv) : (rl.tabComplete setup).editor.Inv := by
  rw [Interface.tabComplete]
  split_ifs
  · exact h.set h.cursor_nonneg h.cursor_le (List.forall_mem_singleton.mpr h.leading)
  · exact h

/-- Whatever is completed. -/
theorem complete_inv {rv : Completion} (h : rl.editor.Inv) : (rl.complete rv).editor.Inv := by
  rw [Interface.complete]
  rcases rv.completions with _ | ⟨text, _ | ⟨text', l⟩⟩
  · exact h
  · exact h.insertString _
  · dsimp only
    split_ifs
    · exact h.insertString _
    · exact h

theorem run_inv (h : rl.editor.Inv) (command : Command) : (command.run setup rl).editor.Inv := by
  rcases command
  case wordLeft => exact h.wordLeft
  case wordRight => exact h.wordRight
  case deleteLeft => exact h.deleteLeft
  case deleteRight => exact h.deleteRight
  case deleteWordLeft => exact h.deleteWordLeft
  case deleteWordRight => exact h.deleteWordRight
  case deleteLineLeft => exact h.deleteLineLeft
  case deleteLineRight => exact h.deleteLineRight
  case deleteLine => exact h.deleteLine
  case lineStart => exact h.lineStart
  case lineEnd => exact h.lineEnd
  case back => exact h.back
  case forward => exact h.forward
  case historyNext => exact h.historyNext
  case historyPrev => exact h.historyPrev
  case enter => exact enter_inv h
  case tabComplete => exact tabComplete_inv h
  case interrupt =>
    rw [Command.run]
    split_ifs
    · exact h
    · exact attemptClose_inv h
  case deleteRightOrClose =>
    rw [Command.run]
    split_ifs
    · exact attemptClose_inv h
    · exact h.deleteRight
    · exact h
  case suspend => exact h

theorem ttyWrite_inv {s : Option JSString} {key : Option Key} (h : rl.editor.Inv) :
    (rl.ttyWrite setup s key).editor.Inv := by
  have hrun (commands : List (String × Command)) (name : Option JSString) :
      (match Command.find commands name with
        | some command => command.run setup rl
        | none => rl).editor.Inv := by
    rcases Command.find commands name with _ | command
    · exact h
    · exact run_inv h command
  unfold Interface.ttyWrite
  dsimp only
  split_ifs
  · exact hrun _ _
  · exact hrun _ _
  · exact hrun _ _
  · rcases Command.find Command.ofPlain (key.getD ⟨none, false, false, false⟩).name with _ | command
    · rcases s with _ | s
      · exact h
      · dsimp only
        split_ifs
        · exact h
        · exact insertLines_inv h
    · exact run_inv h command

/-- **One event** keeps the invariant. -/
theorem happen_inv (h : rl.editor.Inv) (event : Event) : (happen rl event).editor.Inv := by
  rcases event
  case keypress => exact ttyWrite_inv h
  case write =>
    rw [happen]
    split_ifs
    · exact h
    · exact ttyWrite_inv h
  case prompt => exact h.lineStart
  case question => exact h.lineStart
  case close => exact close_inv h
  case returns rv =>
    rw [happen]
    rcases rl.calls with _ | ⟨⟨callee, rest⟩, calls⟩
    · exact h
    · rcases rest
      case nothing => exact h
      case insert lines => exact insertLines_inv h
      case complete => exact complete_inv h
      case closed => exact h
  case throws => exact h

theorem inv_of_reaches (h : machine.Reaches .new rl) : rl.editor.Inv :=
  Machine.Reaches.invariant (p := fun rl ↦ rl.editor.Inv) Editor.Inv.new
    (fun {s t e} hs _ ht ↦ by
      obtain rfl : happen s e = t := Except.ok.inj ht
      exact happen_inv hs e) h

/-- **The bounds of the line editor**: cursor and place in the history are in range in every state
that is reached, and so is all that has been read, but for slices of `_deleteRight` that begin
behind the end. -/
theorem bounds_of_reaches (h : machine.Reaches .new rl) :
    (0 ≤ rl.editor.cursor ∧ rl.editor.cursor ≤ rl.editor.line.length) ∧
      rl.editor.history.length ≤ 30 ∧
      (-1 ≤ rl.editor.historyIndex ∧ rl.editor.historyIndex < rl.editor.history.length ∨
        rl.editor.historyIndex = -1 ∧ rl.editor.history = []) ∧
      ∀ a ∈ rl.editor.accesses, a.InRange ∨ a.BehindEnd :=
  have hinv := inv_of_reaches h
  ⟨⟨hinv.cursor_nonneg, hinv.cursor_le⟩, hinv.history_le, .inl ⟨hinv.index_ge, hinv.index_lt⟩,
    hinv.accesses⟩

/-- The delete key is pressed. -/
def deletion : Event :=
  .keypress ⟨false, false, false⟩ none (some ⟨js "delete", false, false, false⟩)

def typing (s : String) : Event := .write ⟨false, false, false⟩ (js s) none

/-- The delete key behind a text. -/
theorem bounds_of_deletion :
    let rl := happen (happen .new (typing "ls")) deletion
    (0 ≤ rl.editor.cursor ∧ rl.editor.cursor ≤ rl.editor.line.length) ∧
      rl.editor.history.length ≤ 30 ∧
      (-1 ≤ rl.editor.historyIndex ∧ rl.editor.historyIndex < rl.editor.history.length ∨
        rl.editor.historyIndex = -1 ∧ rl.editor.history = []) ∧
      ∀ a ∈ rl.editor.accesses, a.InRange ∨ a.BehindEnd :=
  have htyped : machine.Reaches .new (happen .new (typing "ls")) :=
    Machine.Reaches.init.step (e := typing "ls") trivial rfl
  bounds_of_reaches (htyped.step (e := deletion) trivial rfl)

theorem deletion_behindEnd :
    ¬∀ rl : Interface, machine.Reaches .new rl → ∀ a ∈ rl.editor.accesses, a.InRange := by
  intro h
  have hreach : machine.Reaches .new (happen .new deletion) :=
    Machine.Reaches.init.step (e := deletion) trivial rfl
  have hmem : Access.behindDeleted 1 0 0 ∈ (happen .new deletion).editor.accesses := by decide
  exact absurd (h _ hreach _ hmem).2.1 (by decide)

end SpiderNode.Readline
