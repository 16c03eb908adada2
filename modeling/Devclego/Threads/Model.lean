import Devclego.Datamaps.Shutdown

/-!
# Threads and the table they are registered in

`thread_t` records live in a heap of their own. `make_thread` registers each in the
built-in table, and three procedures take threads down: the stop of a `CMP_THREAD`
component, the stop of a `CMP_THREADS` component, and `dispose_thread`.
-/
namespace Devclego.Threads

open Foundation Devclego.Datamaps

inductive ThreadState where
  | constructed
  | ready
  | started
  | run
  | stop
  | stopped
deriving DecidableEq, Repr

/-- `thread_t`. The argument of interest is the component of a `CMP_THREADS` thread. -/
structure Thread where
  state : ThreadState
  arg : Ptr
deriving DecidableEq, Repr

/-- The heap of threads, with the calls of `thread_dtor` so far. -/
structure ThreadStore where
  heap : Memory Thread
  destroyed : List Addr
deriving DecidableEq, Repr

/-- The built-in table. Its rows have one destructor, `thread_dtor`. -/
abbrev ThreadTable := Dmap Addr Unit ThreadStore

/-- `PROGRAM_MAX_THREAD_NUM`. -/
def programMaxThreadNum : Nat := 32

/-! ## `lib_threading.c` -/

/-- A null lock faults, and who waits for a lock that is never released does not return. -/
def rwmutexWriteLock (rwmutex : Option Rwmutex) : Option (Option Rwmutex) := do
  let m ← rwmutex
  if m.held then none else some (some { held := true })

def rwmutexWriteUnlock (rwmutex : Option Rwmutex) : Option (Option Rwmutex) := do
  let _ ← rwmutex
  some (some { held := false })

/-- A reader waits for the writer only; it leaves nothing behind when it unlocks. -/
def rwmutexReadLock (rwmutex : Option Rwmutex) : Option (Option Rwmutex) := do
  let m ← rwmutex
  if m.held then none else some (some m)

def threadCtor (heap : Memory Thread) : Memory Thread × Addr :=
  heap.alloc { state := .constructed, arg := none }

def setupThread (heap : Memory Thread) (thread arg : Ptr) : Option (Memory Thread) :=
  match thread with
  | none => some heap
  | some t => do
    let th ← heap.read t
    if th.state ≠ .constructed then some heap
    else heap.write t { state := .ready, arg := arg }

def startThread (heap : Memory Thread) (thread : Ptr) : Option (Memory Thread) :=
  match thread with
  | none => some heap
  | some t => do
    let th ← heap.read t
    if th.state ≠ .ready then some heap
    else heap.write t { th with state := .started }

/-- While `stop_thread` waits, the thread ends or is cancelled. -/
def stopThread (heap : Memory Thread) (thread : Ptr) : Option (Memory Thread) :=
  match thread with
  | none => some heap
  | some t => do
    let th ← heap.read t
    if th.state ≠ .run then some heap
    else heap.write t { th with state := .ready }

def threadDtor (this : ThreadStore) (thread : Addr) : Option ThreadStore := do
  let th ← this.heap.read thread
  let heap ← (if th.state = .run then stopThread this.heap (some thread) else some this.heap)
  let heap ← heap.free thread
  some { heap := heap, destroyed := this.destroyed ++ [thread] }

/-- What the rows of the built-in table call. -/
def callThreadDtor (_ : Unit) (thread : Addr) (this : ThreadStore) : Option ThreadStore :=
  threadDtor this thread

/-! ## `dmap.c` and `lib_makers.c` -/

def dmapWrlockTableThr (this : ThreadTable) : Option ThreadTable := do
  let m ← rwmutexWriteLock this.table.rwmutex
  some { this with table := { this.table with rwmutex := m } }

def dmapWrunlockTableThr (this : ThreadTable) : Option ThreadTable := do
  let m ← rwmutexWriteUnlock this.table.rwmutex
  some { this with table := { this.table with rwmutex := m } }

def dmapAddThr (beyond : Option Ptr) (this : ThreadTable) (thread : Addr) : Option (ThreadTable × Int) :=
  dmapAdd beyond this (some thread) (some ())

def dmapRemThr (this : ThreadTable) (thread : Addr) : Option ThreadTable :=
  dmapRemItem callThreadDtor this (some thread)

def withHeap (this : ThreadTable) (heap : Memory Thread) : ThreadTable :=
  { this with world := { this.world with heap := heap } }

/-- `make_thread`. The result of the add is not looked at. -/
def makeThread (beyond : Option Ptr) (this : ThreadTable) (arg : Ptr) : Option (ThreadTable × Addr) := do
  let (heap, thread) := threadCtor this.world.heap
  let heap ← setupThread heap (some thread) arg
  let this ← dmapWrlockTableThr (withHeap this heap)
  let (this, _) ← dmapAddThr beyond this thread
  let this ← dmapWrunlockTableThr this
  some (this, thread)

/-! ## Components -/

/-- The threads of a `CMP_THREADS` component, after its `CHAIN_CTOR`. -/
structure Chain where
  threads : List Ptr
  rwmutex : Option Rwmutex
deriving DecidableEq, Repr

def chainCtor (length : Nat) : Chain where
  threads := List.replicate length none
  rwmutex := some rwmutexCtor

/-- Any number of components of both kinds. Of the components that a `CMP_THREADS` start
makes, `cmps` holds the activator. `current` lists the threads that were created and
that no stop and no dispose was asked for. -/
structure System where
  dmap : ThreadTable
  cmps : Memory Nat
  single : Nat → Ptr
  chains : Nat → Chain
  current : List Addr

inductive Op where
  | start (cmp : Nat)
  | stop (cmp : Nat)
  | startChain (cmp activator : Nat)
  | stopChain (cmp activator : Nat)
  | dispose (thread : Addr)
  | enters (thread : Addr)
deriving DecidableEq, Repr

/-- The start of a `CMP_THREAD` component. -/
def startSingle (beyond : Option Ptr) (this : System) (cmp : Nat) : Option System := do
  let (dmap, thread) ← makeThread beyond this.dmap none
  let heap ← startThread dmap.world.heap (some thread)
  let single := Function.update this.single cmp (some thread)
  some { this with dmap := withHeap dmap heap, single := single, current := this.current ++ [thread] }

/-- The stop of a `CMP_THREAD` component. -/
def stopSingle (this : System) (cmp : Nat) : Option System := do
  let heap ← stopThread this.dmap.world.heap (this.single cmp)
  let single := Function.update this.single cmp none
  let current := this.current.filter fun t => this.single cmp ≠ some t
  some { this with dmap := withHeap this.dmap heap, single := single, current := current }

/-- The start of a `CMP_THREADS` component. The scan for a free entry does not look at
the length of the array. -/
def startChain (beyond : Option Ptr) (this : System) (cmp activator : Nat) : Option System := do
  let (cmps, c) := this.cmps.alloc activator
  let (dmap, thread) ← makeThread beyond this.dmap (some c)
  let chain := this.chains cmp
  let m ← rwmutexReadLock chain.rwmutex
  let index ← chain.threads.findIdx? Option.isNone
  let m ← rwmutexWriteLock m
  let threads := chain.threads.set index (some thread)
  let m ← rwmutexWriteUnlock m
  let heap ← startThread dmap.world.heap (some thread)
  let chains := Function.update this.chains cmp { threads := threads, rwmutex := m }
  let current := this.current ++ [thread]
  some { this with dmap := withHeap dmap heap, cmps := cmps, chains := chains, current := current }

/-- The loop of the stop of a `CMP_THREADS` component: the first thread whose component
has the activator. -/
def findCmp (heap : Memory Thread) (cmps : Memory Nat) (activator : Nat) :
    List Ptr → Nat → Option (Option (Nat × Addr × Addr))
  | [], _ => some none
  | none :: rest, index => findCmp heap cmps activator rest (index + 1)
  | some thread :: rest, index => do
    let th ← heap.read thread
    let c ← th.arg
    let a ← cmps.read c
    if a = activator then some (some (index, thread, c)) else findCmp heap cmps activator rest (index + 1)

/-- The stop of a `CMP_THREADS` component. When it finds no component it returns with the
lock held. -/
def stopChain (this : System) (cmp activator : Nat) : Option System := do
  let chain := this.chains cmp
  let m ← rwmutexWriteLock chain.rwmutex
  match ← findCmp this.dmap.world.heap this.cmps activator chain.threads 0 with
  | none => some { this with chains := Function.update this.chains cmp { chain with rwmutex := m } }
  | some (index, thread, c) =>
    let threads := chain.threads.set index none
    let m ← rwmutexWriteUnlock m
    let heap ← stopThread this.dmap.world.heap (some thread)
    let world ← threadDtor { this.dmap.world with heap := heap } thread
    let cmps ← this.cmps.free c
    let chains := Function.update this.chains cmp { threads := threads, rwmutex := m }
    let current := this.current.filter fun t => t ≠ thread
    some { this with dmap := { this.dmap with world := world }, cmps := cmps, chains := chains, current := current }

def disposeThread (this : System) (thread : Addr) : Option System := do
  let heap ← stopThread this.dmap.world.heap (some thread)
  let dmap ← dmapRemThr (withHeap this.dmap heap) thread
  some { this with dmap := dmap, current := this.current.filter fun t => t ≠ thread }

/-- A started thread begins to run. -/
def threadEnters (this : System) (thread : Addr) : System :=
  match this.dmap.world.heap.read thread with
  | none => this
  | some th =>
    if th.state ≠ .started then this
    else
      let heap := this.dmap.world.heap.set thread (some { th with state := .run })
      { this with dmap := withHeap this.dmap heap }

def systemStep (beyond : Option Ptr) (this : System) (op : Op) : Option (System × Unit) :=
  match op with
  | .start cmp => (startSingle beyond this cmp).map (·, ())
  | .stop cmp => (stopSingle this cmp).map (·, ())
  | .startChain cmp activator => (startChain beyond this cmp activator).map (·, ())
  | .stopChain cmp activator => (stopChain this cmp activator).map (·, ())
  | .dispose thread => (disposeThread this thread).map (·, ())
  | .enters thread => some (threadEnters this thread, ())

/-- An initialised thread table, and components that have not been started. -/
def initialSystem (chainLength : Nat) : System where
  dmap := { mem := ⟨[]⟩, table := dmapTableInit programMaxThreadNum, world := { heap := ⟨[]⟩, destroyed := [] } }
  cmps := ⟨[]⟩
  single := fun _ => none
  chains := fun _ => chainCtor chainLength
  current := []

end Devclego.Threads
