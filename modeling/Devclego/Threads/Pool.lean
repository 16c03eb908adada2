import Devclego.Foundation.Slots
import Devclego.Threads.Model

/-!
# Starts and stops of a `CMP_THREADS` chain that overlap

A start looks for a free entry under the read lock and stores its thread under the write
lock; in between, other calls run. Each locked section is a step, together with what
its call does next to its own thread and component. The callers use distinct
activators and leave room for every component in the array.
-/
namespace Devclego.Threads

open Foundation Devclego.Datamaps

/-- A component is being started, first without and then with an entry for its thread,
or it has been started. -/
inductive Stage where
  | entered
  | found (index : Nat)
  | stored
deriving DecidableEq, Repr

structure Member where
  activator : Nat
  thread : Addr
  stage : Stage
deriving DecidableEq, Repr

/-- One chain, with the components that are live or being started. -/
structure Pool where
  store : ThreadStore
  cmps : Memory Nat
  chain : Chain
  members : List Member
deriving DecidableEq, Repr

/-- After the `CHAIN_CTOR`. -/
def emptyPool (maxThreadNum : Nat) : Pool where
  store := { heap := ⟨[]⟩, destroyed := [] }
  cmps := ⟨[]⟩
  chain := chainCtor maxThreadNum
  members := []

def reach (members : List Member) (activator : Nat) (stage : Stage) : List Member :=
  members.map fun x => if x.activator = activator then { x with stage := stage } else x

/-- The start procedure up to its first lock. The table of the threads is left out. -/
def startEnter (this : Pool) (activator : Nat) : Option Pool :=
  if activator ∈ this.members.map Member.activator ∨ this.chain.threads.length ≤ this.members.length then none
  else do
    let (cmps, c) := this.cmps.alloc activator
    let (heap, thread) := threadCtor this.store.heap
    let heap ← setupThread heap (some thread) (some c)
    let member : Member := { activator := activator, thread := thread, stage := .entered }
    some { this with store := { this.store with heap := heap }, cmps := cmps, members := this.members ++ [member] }

/-- The read-locked section. The loop does not look at the length of the array. -/
def startScan (this : Pool) (activator : Nat) : Option Pool := do
  let x ← this.members.find? fun x => x.activator = activator
  match x.stage with
  | .entered => do
    let _ ← rwmutexReadLock this.chain.rwmutex
    let index ← this.chain.threads.findIdx? Option.isNone
    some { this with members := reach this.members activator (.found index) }
  | _ => none

/-- The write-locked section, and the rest of the start procedure. -/
def startStore (this : Pool) (activator : Nat) : Option Pool := do
  let x ← this.members.find? fun x => x.activator = activator
  match x.stage with
  | .found index => do
    let m ← rwmutexWriteLock this.chain.rwmutex
    let threads := this.chain.threads.set index (some x.thread)
    let m ← rwmutexWriteUnlock m
    let heap ← startThread this.store.heap (some x.thread)
    some { this with
      store := { this.store with heap := heap }
      chain := { threads := threads, rwmutex := m }
      members := reach this.members activator .stored }
  | _ => none

/-- What the loop of the stop procedure ends with, once the lock is taken. -/
def stopFinds (this : Pool) (activator : Nat) : Option (Option (Nat × Addr × Addr)) := do
  let _ ← rwmutexWriteLock this.chain.rwmutex
  findCmp this.store.heap this.cmps activator this.chain.threads 0

/-- The stop procedure. When it finds no component it returns with the lock held. Nobody
stops a component that is still being started. -/
def stopTake (this : Pool) (activator : Nat) : Option Pool :=
  if ∃ x ∈ this.members, x.activator = activator ∧ x.stage ≠ .stored then none
  else do
    let m ← rwmutexWriteLock this.chain.rwmutex
    match ← findCmp this.store.heap this.cmps activator this.chain.threads 0 with
    | none => some { this with chain := { this.chain with rwmutex := m } }
    | some (index, thread, c) =>
      let threads := this.chain.threads.set index none
      let m ← rwmutexWriteUnlock m
      let heap ← stopThread this.store.heap (some thread)
      let store ← threadDtor { this.store with heap := heap } thread
      let cmps ← this.cmps.free c
      some {
        store := store
        cmps := cmps
        chain := { threads := threads, rwmutex := m }
        members := this.members.filter fun x => x.thread ≠ thread }

/-- A started thread begins to run. -/
def poolEnters (this : Pool) (thread : Addr) : Option Pool := do
  let th ← this.store.heap.read thread
  if th.state ≠ .started then none
  else do
    let heap ← this.store.heap.write thread { th with state := .run }
    some { this with store := { this.store with heap := heap } }

inductive Section where
  | enter (activator : Nat)
  | scan (activator : Nat)
  | store (activator : Nat)
  | stop (activator : Nat)
  | runs (thread : Addr)
deriving DecidableEq, Repr

def poolStep (this : Pool) (sec : Section) : Option (Pool × Unit) :=
  match sec with
  | .enter activator => (startEnter this activator).map (·, ())
  | .scan activator => (startScan this activator).map (·, ())
  | .store activator => (startStore this activator).map (·, ())
  | .stop activator => (stopTake this activator).map (·, ())
  | .runs thread => (poolEnters this thread).map (·, ())

end Devclego.Threads
