import SpiderNode.Net.Pool
import Mathlib.Data.Int.Notation

/-!
# The write side of `net.Socket`

`write`, `_writeOut`, `flush`, `end`, `_shutdown` and `destroy` of `lib/net.js`, and the readiness
callbacks that drive them. A call takes the state of the world and returns a result together with
the new state; a call that throws still leaves the changes it made before throwing, which matters
because `flush` takes an entry off the queue before it knows whether it can be written.

Two things are left to the environment. The kernel answers each `write` or `sendMsg` with a reply
of its own choosing, and `pool.write` is a parameter: what it stores and reports depends on the
native encoders, and the queue only relies on a contract about it.

The four queues of a socket are kept as the program keeps them, side by side. `end` pushes
`END_OF_FILE` on the first one only, and `_writeQueueFD` is shifted on every flush but filled only
by some writes, so they are not columns of one table.
-/

namespace SpiderNode.Net

/-- What a call may throw. -/
inductive JsError where
  /-- `new Error(message)` -/
  | error (message : String)
  /-- A failed `assert`. -/
  | assertion
  /-- An error of the engine: calling or dereferencing what is not there, or making a string of what
  is not UTF-8. -/
  | typeError
  /-- Native code left the bounds of its memory, or aborted. -/
  | fault
  deriving DecidableEq, Repr

/-- What is written: a string or a `Buffer`. -/
inductive Data where
  | str (s : JSString)
  | buf (b : Buf)
  deriving DecidableEq, Repr

/-- `data.length`. -/
def Data.length : Data → ℕ
  | str s => s.length
  | buf b => b.length

/-- An entry of `_writeQueue`. -/
inductive QueueEntry where
  | data (d : Data)
  /-- The number `END_OF_FILE`. -/
  | endOfFile
  deriving DecidableEq, Repr

/-- An entry of `_writeQueueCallbacks`. -/
inductive Callback where
  /-- A callback handed to `write`, by number. -/
  | user (id : ℕ)
  /-- The function that `write` puts in place of two callbacks, when it joins a string to the entry
  at index `last`. -/
  | joined (last id : ℕ)
  deriving DecidableEq, Repr

inductive SocketType where
  | tcp
  | unix
  deriving DecidableEq, Repr

/-- The kernel's answer to a system call. -/
inductive KernelReply where
  /-- It accepts up to `n` bytes. -/
  | wrote (n : ℕ)
  /-- `EAGAIN` or `EINTR`. -/
  | again
  | failed
  deriving DecidableEq, Repr

/-- What `pool.write(string, encoding, pool.used)` did. -/
structure PoolWrite where
  /-- The bytes it stored. -/
  stored : Bytes
  /-- The number of bytes it reports. -/
  bytesWritten : ℤ
  /-- `Buffer._charsWritten` afterwards. -/
  charsWritten : ℤ
  deriving DecidableEq, Repr

/-- `pool.write`, given the encoding, the string and the space behind `pool.used`. -/
abbrev PoolWriter := Encoding → JSString → ℕ → Except JsError PoolWrite

/-- A socket, the pool it shares, and the kernel behind it. -/
structure World where
  type : SocketType
  connecting : Bool
  readable : Bool
  writable : Bool
  destroyed : Bool
  destroyOnDrain : Bool
  writeQueue : List QueueEntry
  writeQueueEncoding : List (Option Encoding)
  writeQueueCallbacks : List (Option Callback)
  writeQueueFD : List (Option ℕ)
  bufferSize : ℤ
  /-- Whether `_writeWatcher` is started. -/
  watching : Bool
  pool : Pool
  /-- The kernel's replies, and how many have been used up. -/
  kernel : ℕ → KernelReply
  calls : ℕ
  /-- The bytes the kernel has accepted. -/
  sent : Bytes
  /-- The descriptors that went along, each with the number of bytes of its call. -/
  sentFDs : List (ℕ × ℕ)
  /-- Whether `_shutdownImpl` has been called. -/
  shut : Bool
  /-- The callbacks that have been invoked. -/
  called : List ℕ

/-- A call: its result or what it throws, and the world it leaves. -/
abbrev Call (α : Type) := Except JsError α × World

namespace World

/-- The kernel's next reply. -/
def nextReply (w : World) : KernelReply := w.kernel w.calls

def destroy (w : World) : Call Unit :=
  if w.bufferSize < 0 then (.error .assertion, w)
  else
    (.ok (), { w with
      writeQueue := [], writeQueueEncoding := [], writeQueueCallbacks := [], writeQueueFD := [],
      bufferSize := 0, readable := false, writable := false, watching := false, destroyed := true })

/-- `noData(buf, off, len)` -/
def noData (b : Buf) (off len : ℕ) : Bool := b.length ≤ off || len == 0

/-- `_writeImpl`: the range checks of the native call and then the system call. The result is the
number of bytes taken, or `none` for the `null` that `sendMsg` returns on `EAGAIN`. -/
def writeImpl (w : World) (b : Buf) (off len : ℕ) (fd : Option ℕ) : Call (Option ℕ) :=
  if w.type = .unix ∧ fd.getD 0 ≠ 0 ∧ noData b off len then
    (.error (.error "File descriptors can only be written with data"), w)
  else if b.length ≤ off then
    (.error (.error (if w.type = .unix then "Offset into buffer too large"
      else "Offset is out of bounds")), w)
  else if b.length < off + len then
    (.error (.error (if w.type = .unix then "offset + length beyond buffer length"
      else "Length is extends beyond buffer")), w)
  else
    let w' := { w with calls := w.calls + 1 }
    match w.nextReply with
    | .failed => (.error (.error (if w.type = .unix then "sendmsg" else "write")), w')
    | .again => (.ok (if w.type = .unix then none else some 0), w')
    | .wrote n =>
      let k := min n len
      (.ok (some k),
        { w' with
          sent := w.sent ++ ((b.read w.pool).drop off).take k
          sentFDs := if w.type = .unix then w.sentFDs ++ (fd.toList.map fun f ↦ (f, k))
            else w.sentFDs })

/-- `cb()`. A joined callback is called as a plain function, so its `this` is not the socket and
`this._writeQueueCallbacks` is `undefined`. -/
def invoke (w : World) : Option Callback → Call Unit
  | none => (.ok (), w)
  | some (.user id) => (.ok (), { w with called := w.called ++ [id] })
  | some (.joined _ _) => (.error .typeError, w)

/-- The part of `data` that `_writeOut` is about to hand to the kernel. -/
structure Staged where
  buffer : Buf
  off : ℕ
  len : ℕ
  /-- `buffer === pool` -/
  fromPool : Bool
  /-- `queuedData`: the rest of the string went back on the queue. -/
  queuedData : Bool

/-- Put what is left of an entry back at the head of the queue. -/
def unshift (w : World) (d : Data) (encoding : Option Encoding) (cb : Option Callback) : World :=
  { w with
    bufferSize := w.bufferSize + d.length
    writeQueue := .data d :: w.writeQueue
    writeQueueEncoding := encoding :: w.writeQueueEncoding
    writeQueueCallbacks := cb :: w.writeQueueCallbacks
    watching := true }

/-- `!encoding || encoding == 'utf8' || encoding == 'utf-8'` -/
def defaultsToUtf8 : Option Encoding → Bool
  | none | some (.text .utf8) | some (.text .utf8Dash) => true
  | _ => false

/-- The encoding `_writeOut` passes to `pool.write`. -/
def poolEncoding (encoding : Option Encoding) : Encoding :=
  if defaultsToUtf8 encoding then .text .utf8 else encoding.getD (.text .utf8)

/-- The string branch of `_writeOut`: copy what fits into the pool, put the rest back. -/
def stageString (pw : PoolWriter) (w : World) (s : JSString) (encoding : Option Encoding)
    (cb : Option Callback) : Call Staged :=
  let w := { w with pool := w.pool.ensure }
  match pw (poolEncoding encoding) s w.pool.room with
  | .error e => (.error e, w)
  | .ok r =>
    let w := { w with pool := w.pool.store r.stored }
    let charsWritten := if defaultsToUtf8 encoding then r.charsWritten else r.bytesWritten
    if encoding.isSome ∧ 0 < s.length ∧ ¬0 < r.bytesWritten then (.error .assertion, w)
    -- only an absent encoding gets here with the encoder's error value: the range it would
    -- describe starts below its own offset
    else if r.bytesWritten < 0 then (.error .fault, w)
    else
      let len := r.bytesWritten.toNat
      let off := w.pool.used
      let buffer := .window w.pool.current 0 kPoolSize
      let w := { w with pool := w.pool.advance len }
      if charsWritten = s.length then (.ok ⟨buffer, off, len, true, false⟩, w)
      else if ¬charsWritten < s.length then (.error .assertion, w)
      else
        (.ok ⟨buffer, off, len, true, true⟩, w.unshift (.str (s.drop charsWritten.toNat)) encoding cb)

def stage (pw : PoolWriter) (w : World) (d : Data) (encoding : Option Encoding)
    (cb : Option Callback) : Call Staged :=
  match d with
  | .buf b => (.ok ⟨b, 0, b.length, false, false⟩, w)
  | .str s => w.stageString pw s encoding cb

/-- The rest of `_writeOut`: hand the staged bytes to the kernel and put back what it left. -/
def handOver (w : World) (st : Staged) (fd : Option ℕ) (cb : Option Callback) : Call Bool :=
  match w.writeImpl st.buffer st.off st.len fd with
  | (.error _, w) =>
    match w.destroy with
    | (.error e, w) => (.error e, w)
    | (.ok (), w) => (.ok false, w)
  | (.ok bytesWritten, w) =>
    if bytesWritten = some st.len then
      let w := { w with pool := if st.fromPool then w.pool.retreat st.len else w.pool }
      if st.queuedData then (.ok false, w)
      else
        match w.invoke cb with
        | (.error e, w) => (.error e, w)
        | (.ok (), w) => (.ok true, w)
    else
      let k := bytesWritten.getD 0
      let w := w.unshift (.buf (st.buffer.slice (st.off + k) (st.off + st.len))) none cb
      (.ok false,
        { w with writeQueueFD := if k = 0 then fd :: w.writeQueueFD else w.writeQueueFD })

/-- `Socket.prototype._writeOut` -/
def writeOut (pw : PoolWriter) (w : World) (d : Data) (encoding : Option Encoding)
    (fd : Option ℕ) (cb : Option Callback) : Call Bool :=
  if ¬w.writable then (.error (.error "Socket is not writable"), w)
  else
    match w.stage pw d encoding cb with
    | (.error e, w) => (.error e, w)
    | (.ok st, w) => w.handOver st fd cb

/-- `_writeQueueLast() === END_OF_FILE` -/
def endQueued (w : World) : Bool := w.writeQueue.getLast? == some .endOfFile

/-- `this._writeQueue[last]` and `data`, when the two strings may be joined. -/
def joinable (w : World) (d : Data) (encoding : Option Encoding) : Option (JSString × JSString) :=
  match d, w.writeQueue.getLast? with
  | .str s, some (.data (.str t)) =>
    if w.writeQueueEncoding.getD (w.writeQueue.length - 1) none = encoding then some (t, s)
    else none
  | _, _ => none

/-- The callback left at index `last` when a string is joined to the entry there. -/
def joinCallback (w : World) (cb : Option Callback) : List (Option Callback) :=
  let last := w.writeQueue.length - 1
  match cb with
  | none => w.writeQueueCallbacks
  | some c =>
    if w.writeQueueCallbacks.getD last none = none then w.writeQueueCallbacks.set last (some c)
    else
      match c with
      | .user id | .joined _ id => w.writeQueueCallbacks.set last (some (.joined last id))

/-- The slow branch of `write`: append to the queue. -/
def enqueue (w : World) (d : Data) (encoding : Option Encoding) (fd : Option ℕ)
    (cb : Option Callback) : World :=
  let w := { w with bufferSize := w.bufferSize + d.length }
  let w := match w.joinable d encoding with
    | some (t, s) =>
      { w with
        writeQueue := w.writeQueue.dropLast ++ [QueueEntry.data (.str (t ++ s))]
        writeQueueCallbacks := w.joinCallback cb }
    | none =>
      { w with
        writeQueue := w.writeQueue ++ [QueueEntry.data d]
        writeQueueEncoding := w.writeQueueEncoding ++ [encoding]
        writeQueueCallbacks := w.writeQueueCallbacks ++ [cb] }
  if fd.isSome then { w with writeQueueFD := w.writeQueueFD ++ [fd] } else w

/-- `Socket.prototype.write` -/
def write (pw : PoolWriter) (w : World) (d : Data) (encoding : Option Encoding) (fd : Option ℕ)
    (cb : Option Callback) : Call Bool :=
  if w.bufferSize < 0 then (.error .assertion, w)
  else if w.connecting ∨ w.writeQueue ≠ [] then
    if w.endQueued then (.error (.error "Socket.end() called already; cannot write."), w)
    else (.ok false, w.enqueue d encoding fd cb)
  else w.writeOut pw d encoding fd cb

/-- `Socket.prototype._shutdown` -/
def shutdown (w : World) : Call Unit :=
  if ¬w.writable then (.error (.error "The connection is not writable"), w)
  else
    let w := { w with writable := false }
    if w.readable then
      let w' := { w with calls := w.calls + 1, shut := true }
      match w.nextReply with
      | .failed => w'.destroy
      | _ => (.ok (), w')
    else w.destroy

/-- Take the head of the queues, as `flush` does. -/
def shiftQueues (w : World) (rest : List QueueEntry) : World :=
  { w with
    writeQueue := rest
    writeQueueEncoding := w.writeQueueEncoding.tail
    writeQueueCallbacks := w.writeQueueCallbacks.tail
    writeQueueFD := w.writeQueueFD.tail }

/-- The loop of `flush`; each turn that does not return makes the queue shorter. -/
def flushLoop (pw : PoolWriter) : ℕ → World → Call Bool
  | 0, w => (.ok true, w)
  | fuel + 1, w =>
    match w.writeQueue with
    | [] => (.ok true, { w with watching := false })
    | entry :: rest =>
      let encoding := w.writeQueueEncoding.head?.join
      let cb := w.writeQueueCallbacks.head?.join
      let fd := w.writeQueueFD.head?.join
      let w := w.shiftQueues rest
      match entry with
      | .endOfFile =>
        match w.shutdown with
        | (.error e, w) => (.error e, w)
        | (.ok (), w) => (.ok true, w)
      | .data d =>
        let w := { w with bufferSize := w.bufferSize - d.length }
        match w.writeOut pw d encoding fd cb with
        | (.error e, w) => (.error e, w)
        | (.ok false, w) => (.ok false, w)
        | (.ok true, w) => flushLoop pw fuel w

/-- `Socket.prototype.flush` -/
def flush (pw : PoolWriter) (w : World) : Call Bool := flushLoop pw (w.writeQueue.length + 1) w

/-- `Socket.prototype.end`, without data. -/
def «end» (pw : PoolWriter) (w : World) : Call Unit :=
  if w.writable ∧ ¬w.endQueued then
    let w := { w with writeQueue := w.writeQueue ++ [QueueEntry.endOfFile] }
    if w.connecting then (.ok (), w)
    else
      match w.flush pw with
      | (.error e, w) => (.error e, w)
      | (.ok _, w) => (.ok (), w)
  else (.ok (), w)

/-- `Socket.prototype._onWritable` -/
def onWritable (pw : PoolWriter) (w : World) : Call Unit :=
  match w.flush pw with
  | (.error e, w) => (.error e, w)
  | (.ok flushed, w) => if flushed ∧ w.destroyOnDrain then w.destroy else (.ok (), w)

/-- What `socketError` says about a pending connection. -/
inductive ConnectResult where
  | established
  | inProgress
  | refused
  deriving DecidableEq, Repr

/-- `Socket.prototype._onConnect` -/
def onConnect (pw : PoolWriter) (w : World) : ConnectResult → Call Unit
  | .established =>
    if ¬w.writable then (.error .assertion, { w with connecting := false })
    else
      let w := { w with connecting := false, readable := true, writable := true }
      if w.writeQueue = [] then (.ok (), w) else w.onWritable pw
  | .inProgress => (.ok (), w)
  | .refused => w.destroy

/-- The callback of `_writeWatcher`. -/
def writeReady (pw : PoolWriter) (w : World) (r : ConnectResult) : Call Unit :=
  if w.connecting then
    if ¬w.writable then (.error .assertion, w) else w.onConnect pw r
  else w.onWritable pw

/-- `Socket.prototype.destroySoon` -/
def destroySoon (pw : PoolWriter) (w : World) : Call Unit :=
  match w.flush pw with
  | (.error e, w) => (.error e, w)
  | (.ok true, w) => w.destroy
  | (.ok false, w) => (.ok (), { w with destroyOnDrain := true })

/-- What `_onReadable` of this or any other socket does to the pool when `b` has been read. -/
def poolRead (w : World) (b : Bytes) : World :=
  let p := w.pool.ensure
  let b := b.take p.room
  { w with pool := (p.store b).advance b.length }

end World

end SpiderNode.Net
