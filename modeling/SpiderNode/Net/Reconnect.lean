import SpiderNode.Net.Lifecycle

/-!
# The watchers of a socket

`initSocket` and `destroy` of `lib/net.js` with the watchers that they take from `ioWatchers` and
put back, a `FreeList` of `lib/freelist.js` that all sockets share. Watchers have numbers, in the
order in which they are made.

`connect` calls `initSocket` before it finds that the socket is open. `resets_open` says that no
open socket is left as it was: it has lost its watchers, and all that it had queued.
-/

namespace SpiderNode.Net

/-! ## Free lists -/

/-- `FreeList`, with the number of objects that its constructor has made. -/
structure FreeList where
  max : ℕ
  list : List ℕ
  made : ℕ
  deriving DecidableEq, Repr

namespace FreeList

variable (l : FreeList)

def alloc : ℕ × FreeList :=
  match l.list with
  | obj :: list => (obj, { l with list := list })
  | [] => (l.made, { l with made := l.made + 1 })

def free (obj : ℕ) : FreeList :=
  if l.list.length < l.max then { l with list := l.list ++ [obj] } else l

/-- An object that somebody has got. -/
def Taken (obj : ℕ) : Prop := obj < l.made ∧ obj ∉ l.list

instance (obj : ℕ) : Decidable (l.Taken obj) := inferInstanceAs (Decidable (_ ∧ _))

/-- The objects in the list have been made, and are there once. -/
structure Sound : Prop where
  lt_made : ∀ obj ∈ l.list, obj < l.made
  nodup : l.list.Nodup

end FreeList

/-! ## Sockets with watchers -/

/-- A socket, and the free list of watchers. -/
structure Wired where
  life : Life
  readWatcher : Option ℕ
  writeWatcher : Option ℕ
  ioWatchers : FreeList

namespace Wired

/-- `new Socket()`. Other sockets may have watchers. -/
def create (allowHalfOpen : Bool) (pool : Pool) (kernel : ℕ → KernelReply) (ioWatchers : FreeList) :
    Wired :=
  ⟨.create allowHalfOpen pool kernel, none, none, ioWatchers⟩

variable (pw : PoolWriter) (s : Wired)

/-- The watchers of `initSocket`. -/
def allocate : Wired :=
  let read := s.ioWatchers.alloc
  let write := read.2.alloc
  { s with readWatcher := some read.1, writeWatcher := some write.1, ioWatchers := write.2 }

/-- The watchers of `destroy`. -/
def release : Wired :=
  let ioWatchers := s.writeWatcher.elim s.ioWatchers s.ioWatchers.free
  { s with
    readWatcher := none
    writeWatcher := none
    ioWatchers := s.readWatcher.elim ioWatchers ioWatchers.free }

/-- The watchers are put back when the socket has been destroyed. -/
def settle (life : Life) : Wired :=
  if life.watchers then { s with life := life } else { s.release with life := life }

/-- `Socket.prototype.connect` -/
def connect (type : SocketType) (r : Opening) : Except JsError Unit × Wired :=
  ((s.life.connect type r).1, s.allocate.settle (s.life.connect type r).2)

/-- `Socket.prototype.open`, with a descriptor that somebody else has made. -/
def «open» (type : SocketType) : Wired :=
  let life := s.life.initSocket.socket
  { s.allocate with
    life := { life with
      world := { life.world with readable := true, writable := true, type := type } } }

/-- What happens to a socket, and to others. -/
inductive WiredEvent where
  | own (ev : Life.LifeEvent)
  | open (type : SocketType)
  /-- Another socket takes a watcher, or puts one of its own back. -/
  | takes
  | returns (obj : ℕ)

def Allows (s : Wired) : WiredEvent → Prop
  | .own ev => s.life.Allows ev
  | .open _ => s.life.fd = none
  | .takes => True
  | .returns obj =>
    s.ioWatchers.Taken obj ∧ some obj ≠ s.readWatcher ∧ some obj ≠ s.writeWatcher

instance (s : Wired) : DecidablePred s.Allows
  | .own ev => inferInstanceAs (Decidable (s.life.Allows ev))
  | .open _ => inferInstanceAs (Decidable (s.life.fd = none))
  | .takes => inferInstanceAs (Decidable True)
  | .returns obj =>
    inferInstanceAs (Decidable (s.ioWatchers.Taken obj ∧ some obj ≠ s.readWatcher ∧
      some obj ≠ s.writeWatcher))

def step : WiredEvent → Wired
  | .own (.connect type r) => (s.connect type r).2
  | .own ev => s.settle (s.life.step pw ev)
  | .open type => s.open type
  | .takes => { s with ioWatchers := s.ioWatchers.alloc.2 }
  | .returns obj => { s with ioWatchers := s.ioWatchers.free obj }

def machine : Machine Wired WiredEvent Empty := ⟨Allows, fun s ev ↦ .ok (s.step pw ev)⟩

instance (ev : WiredEvent) : Decidable ((machine pw).guard s ev) :=
  inferInstanceAs (Decidable (s.Allows ev))

/-- The life of the socket is the same with watchers. -/
theorem life_step (ev : Life.LifeEvent) : (s.step pw (.own ev)).life = s.life.step pw ev := by
  have hsettle (s : Wired) (life : Life) : (s.settle life).life = life := by
    rw [settle]
    split_ifs <;> rfl
  cases ev with
  | connect type r => exact hsettle s.allocate _
  | _ => exact hsettle s _

/-! ## What is to hold -/

/-- The socket is left as it was. -/
structure Keeps (s t : Wired) : Prop where
  readable : t.life.world.readable = s.life.world.readable
  writable : t.life.world.writable = s.life.world.writable
  writeQueue : t.life.world.writeQueue = s.life.world.writeQueue
  writeQueueEncoding : t.life.world.writeQueueEncoding = s.life.world.writeQueueEncoding
  writeQueueCallbacks : t.life.world.writeQueueCallbacks = s.life.world.writeQueueCallbacks
  writeQueueFD : t.life.world.writeQueueFD = s.life.world.writeQueueFD
  bufferSize : t.life.world.bufferSize = s.life.world.bufferSize
  readWatcher : t.readWatcher = s.readWatcher
  writeWatcher : t.writeWatcher = s.writeWatcher

/-- The socket has other watchers, nothing queued, and neither of its sides is open. -/
structure Resets (s t : Wired) : Prop where
  readable : t.life.world.readable = false
  writable : t.life.world.writable = false
  writeQueue : t.life.world.writeQueue = []
  bufferSize : t.life.world.bufferSize = 0
  readWatcher : t.readWatcher ≠ none ∧ t.readWatcher ≠ s.readWatcher
  writeWatcher : t.writeWatcher ≠ none ∧ t.writeWatcher ≠ s.writeWatcher

end Wired

/-! ## Free lists are sound -/

namespace FreeList

variable {l : FreeList} {obj : ℕ}

theorem Sound.alloc (h : l.Sound) : l.alloc.2.Sound ∧ l.alloc.2.Taken l.alloc.1 := by
  rw [FreeList.alloc]
  split
  · rename_i obj list hlist
    have hlt := h.lt_made
    have hnodup := h.nodup
    rw [hlist] at hlt hnodup
    exact ⟨⟨fun x hx ↦ hlt x (List.mem_cons_of_mem _ hx), hnodup.of_cons⟩,
      hlt obj List.mem_cons_self, (List.nodup_cons.mp hnodup).1⟩
  · rename_i hlist
    refine ⟨⟨fun x hx ↦ Nat.lt_succ_of_lt (h.lt_made x hx), h.nodup⟩, Nat.lt_succ_self _, ?_⟩
    exact hlist ▸ List.not_mem_nil

/-- What is taken is still taken, and is not what is taken next. -/
theorem Taken.alloc (h : l.Taken obj) : l.alloc.2.Taken obj ∧ l.alloc.1 ≠ obj := by
  obtain ⟨hlt, hmem⟩ := h
  rw [FreeList.alloc]
  split
  · rename_i first list hlist
    rw [hlist] at hmem
    exact ⟨⟨hlt, fun hobj ↦ hmem (List.mem_cons_of_mem _ hobj)⟩,
      fun he ↦ hmem (he ▸ List.mem_cons_self)⟩
  · exact ⟨⟨Nat.lt_succ_of_lt hlt, hmem⟩, hlt.ne'⟩

theorem Sound.free (h : l.Sound) (hobj : l.Taken obj) : (l.free obj).Sound := by
  rw [FreeList.free]
  split_ifs
  · refine ⟨fun x hx ↦ ?_, ?_⟩
    · obtain hx | hx := List.mem_append.mp hx
      · exact h.lt_made x hx
      · exact List.mem_singleton.mp hx ▸ hobj.1
    · exact List.nodup_append.mpr ⟨h.nodup, List.nodup_singleton obj, fun x hx y hy he ↦
        hobj.2 (List.mem_singleton.mp hy ▸ he ▸ hx)⟩
  · exact h

theorem Taken.free (h : l.Taken obj) {other : ℕ} (hne : obj ≠ other) :
    (l.free other).Taken obj := by
  rw [FreeList.free]
  split_ifs
  · refine ⟨h.1, fun hmem ↦ ?_⟩
    obtain hmem | hmem := List.mem_append.mp hmem
    · exact h.2 hmem
    · exact hne (List.mem_singleton.mp hmem)
  · exact h

end FreeList

namespace Wired

/-! ## The invariant -/

/-- The watchers of the socket are two, and nobody else can get them. -/
structure Attached (s : Wired) : Prop where
  sound : s.ioWatchers.Sound
  read : ∀ obj ∈ s.readWatcher, s.ioWatchers.Taken obj
  write : ∀ obj ∈ s.writeWatcher, s.ioWatchers.Taken obj
  ne : ∀ obj ∈ s.readWatcher, obj ∉ s.writeWatcher

variable {pw : PoolWriter} {s : Wired}

theorem Attached.allocate (h : s.Attached) : s.allocate.Attached := by
  have hread := h.sound.alloc
  have hwrite := hread.1.alloc
  have htaken := hread.2.alloc
  refine ⟨hwrite.1, fun obj hobj ↦ ?_, fun obj hobj ↦ ?_, fun obj hobj hsame ↦ ?_⟩
  · exact Option.some.inj hobj ▸ htaken.1
  · exact Option.some.inj hobj ▸ hwrite.2
  · exact htaken.2 ((Option.some.inj hsame).trans (Option.some.inj hobj).symm)

theorem Attached.release (h : s.Attached) : s.release.Attached := by
  have hfree : s.release.ioWatchers.Sound := by
    rw [Wired.release]
    dsimp only
    cases hwrite : s.writeWatcher with
    | none =>
      cases hread : s.readWatcher with
      | none => exact h.sound
      | some read => exact h.sound.free (h.read read hread)
    | some write =>
      have hsound := h.sound.free (h.write write hwrite)
      cases hread : s.readWatcher with
      | none => exact hsound
      | some read =>
        refine hsound.free ((h.read read hread).free fun he ↦ ?_)
        exact h.ne read hread (he ▸ hwrite)
  exact ⟨hfree, fun obj hobj ↦ (by cases hobj), fun obj hobj ↦ (by cases hobj),
    fun obj hobj ↦ (by cases hobj)⟩

theorem Attached.settle (h : s.Attached) (life : Life) : (s.settle life).Attached := by
  rw [Wired.settle]
  split_ifs
  · exact ⟨h.sound, h.read, h.write, h.ne⟩
  · exact ⟨h.release.sound, h.release.read, h.release.write, h.release.ne⟩

theorem Attached.step (h : s.Attached) {ev : WiredEvent} (hallows : s.Allows ev) :
    (s.step pw ev).Attached := by
  cases ev with
  | own ev =>
    cases ev with
    | connect type r => exact h.allocate.settle _
    | _ => exact h.settle _
  | «open» type => exact ⟨h.allocate.sound, h.allocate.read, h.allocate.write, h.allocate.ne⟩
  | takes =>
    exact ⟨h.sound.alloc.1, fun obj hobj ↦ (h.read obj hobj).alloc.1,
      fun obj hobj ↦ (h.write obj hobj).alloc.1, h.ne⟩
  | returns obj =>
    obtain ⟨htaken, hread, hwrite⟩ := hallows
    refine ⟨h.sound.free htaken, fun x hx ↦ (h.read x hx).free ?_,
      fun x hx ↦ (h.write x hx).free ?_, h.ne⟩
    · rintro rfl
      exact hread hx.symm
    · rintro rfl
      exact hwrite hx.symm

theorem attached_of_reaches {allowHalfOpen : Bool} {pool : Pool} {kernel : ℕ → KernelReply}
    {ioWatchers : FreeList} (hsound : ioWatchers.Sound)
    (h : (machine pw).Reaches (create allowHalfOpen pool kernel ioWatchers) s) : s.Attached := by
  refine h.invariant (p := Attached) ⟨hsound, fun obj hobj ↦ (by cases hobj),
    fun obj hobj ↦ (by cases hobj), fun obj hobj ↦ (by cases hobj)⟩ ?_
  rintro s t ev hs hallows ht
  obtain rfl := Except.ok.inj ht
  exact hs.step hallows

/-! ## `connect` of an open socket -/

/-- What `connect` does to an open socket. -/
theorem connect_of_open (hfd : s.life.fd ≠ none) (type : SocketType) (r : Opening) :
    s.connect type r =
      (.error (.error "Socket already opened"), { s.allocate with life := s.life.initSocket }) := by
  have hsome : s.life.initSocket.fd.isSome := Option.isSome_iff_ne_none.mpr hfd
  rw [connect, Life.connect, if_pos hsome]
  rfl

/-- `connect` throws if the socket is open, and the socket is never left as it was. -/
theorem resets_open {allowHalfOpen : Bool} {pool : Pool} {kernel : ℕ → KernelReply}
    {ioWatchers : FreeList} (hsound : ioWatchers.Sound)
    (h : (machine pw).Reaches (create allowHalfOpen pool kernel ioWatchers) s)
    (hfd : s.life.fd ≠ none) (type : SocketType) (r : Opening) :
    (s.connect type r).1 = .error (.error "Socket already opened") ∧
      s.Resets (s.connect type r).2 ∧ ¬s.Keeps (s.connect type r).2 := by
  have hattached := attached_of_reaches hsound h
  have hresets : s.Resets { s.allocate with life := s.life.initSocket } := by
    refine ⟨rfl, rfl, rfl, rfl, ⟨Option.some_ne_none _, fun he ↦ ?_⟩,
      ⟨Option.some_ne_none _, fun he ↦ ?_⟩⟩
    · exact (hattached.read _ he.symm).alloc.2 rfl
    · exact (hattached.write _ he.symm).alloc.1.alloc.2 rfl
  rw [connect_of_open hfd]
  exact ⟨rfl, hresets, fun hkeeps ↦ hresets.readWatcher.2 hkeeps.readWatcher⟩

/-- `ioWatchers`, when no socket has been made. -/
def noWatchers : FreeList := ⟨100, [], 0⟩

theorem noWatchers_sound : noWatchers.Sound := ⟨fun _ h ↦ absurd h List.not_mem_nil, List.nodup_nil⟩

theorem resets_open_tcp : ∃ s : Wired, s.life.readyState = .ok .open ∧
    (s.connect .tcp .pending).1 = .error (.error "Socket already opened") ∧
    ¬s.Keeps (s.connect .tcp .pending).2 := by
  obtain ⟨s, hrun, hopen, hfd⟩ : ∃ s : Wired,
      (machine fun _ _ _ ↦ .error .fault).run
        (create false Life.noPool (fun _ ↦ .wrote 1) noWatchers) [.takes, .open .tcp] = some s ∧
      s.life.readyState = .ok .open ∧ s.life.fd = some 0 := ⟨_, rfl, rfl, rfl⟩
  have hresets := resets_open noWatchers_sound (Machine.reaches_of_run hrun)
    (hfd ▸ Option.some_ne_none 0) .tcp .pending
  exact ⟨s, hopen, hresets.1, hresets.2.2⟩

/-- Two bytes are queued, and lost. -/
theorem connect_loses_queue : ∃ s : Wired,
    (machine fun _ _ _ ↦ .error .fault).Reaches
      (create false Life.noPool (fun _ ↦ .again) noWatchers) s ∧
    s.life.fd = some 0 ∧ s.life.world.bufferSize = 2 ∧ s.readWatcher = some 0 ∧
    (s.connect .tcp .pending).2.life.world.bufferSize = 0 ∧
    (s.connect .tcp .pending).2.readWatcher = some 2 ∧ ¬s.Keeps (s.connect .tcp .pending).2 := by
  obtain ⟨s, hrun, hfd, hsize, hread, hsize', hread'⟩ : ∃ s : Wired,
      (machine fun _ _ _ ↦ .error .fault).run
        (create false Life.noPool (fun _ ↦ .again) noWatchers)
        [.open .tcp, .own (.write (.buf (.own [1, 2])) none none none)] = some s ∧
      s.life.fd = some 0 ∧ s.life.world.bufferSize = 2 ∧ s.readWatcher = some 0 ∧
      (s.connect .tcp .pending).2.life.world.bufferSize = 0 ∧
      (s.connect .tcp .pending).2.readWatcher = some 2 := ⟨_, rfl, rfl, rfl, rfl, rfl, rfl⟩
  refine ⟨s, Machine.reaches_of_run hrun, hfd, hsize, hread, hsize', hread', fun hkeeps ↦ ?_⟩
  have hsame := hkeeps.bufferSize
  rw [hsize, hsize'] at hsame
  cases hsame

end Wired

end SpiderNode.Net
