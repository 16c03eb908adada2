import Devclego.Foundation.Condition
import Devclego.Foundation.Machine
import Devclego.Puffers.Datapuffer

/-!
# Signalized puffers

The component that `CMP_DEF_SGPUFFER` generates: a data puffer and one signal for
both directions. A receiver call writes, a supplier call reads. A call tests the
puffer once, waits if it must, and then goes on whatever it finds. Threads are
numbered; a step is what one thread does while it holds the mutex.
-/
namespace Devclego.Signals

open Foundation Puffers

variable {α : Type}

inductive Call (α : Type) where
  | receiver (item : α)
  | supplier
deriving DecidableEq, Repr

/-- The component, with the items accepted and returned so far, and the number of
reads and writes that were executed when they should not have been. -/
structure Sgpuffer (α : Type) where
  puffer : Datapuffer α
  signal : Condition (Call α)
  accepted : List α
  returned : List (Option α)
  emptyReads : Nat
  fullWrites : Nat
deriving DecidableEq, Repr

def sgpufferInit (pufferLength : Nat) : Sgpuffer α where
  puffer := datapufferCtor pufferLength
  signal := Condition.make
  accepted := []
  returned := []
  emptyReads := 0
  fullWrites := 0

/-- `signal_set`, with the thread that the scheduler wakes. -/
def signalSet (this : Sgpuffer α) (wake : Nat) : Option (Sgpuffer α) :=
  (this.signal.signal wake).map fun signal => { this with signal := signal }

/-- The test before `signal_wait`. -/
def mustWait (puffer : Datapuffer α) : Call α → Bool
  | .receiver _ => datapufferIsfull puffer
  | .supplier => datapufferIsempty puffer

/-- `CMP_PUFFER_RECV_PROC_WAIT` from the wait on. -/
def pufferRecv (this : Sgpuffer α) (item : α) (wake : Nat) : Option (Sgpuffer α) :=
  let wasEmpty := datapufferIsempty this.puffer
  let wasFull := datapufferIsfull this.puffer
  let this := { this with
    puffer := datapufferWrite this.puffer item
    accepted := this.accepted ++ [item]
    fullWrites := if wasFull then this.fullWrites + 1 else this.fullWrites }
  if wasEmpty then signalSet this wake else some this

/-- `CMP_PUFFER_SUPPLY_PROC_WAIT` from the wait on. -/
def pufferSupply (this : Sgpuffer α) (wake : Nat) : Option (Sgpuffer α) :=
  let wasFull := datapufferIsfull this.puffer
  let wasEmpty := datapufferIsempty this.puffer
  let (puffer, item) := datapufferRead this.puffer
  let this := { this with
    puffer := puffer
    returned := this.returned ++ [item]
    emptyReads := if wasEmpty then this.emptyReads + 1 else this.emptyReads }
  if wasFull then signalSet this wake else some this

def proceed (this : Sgpuffer α) (call : Call α) (wake : Nat) : Option (Sgpuffer α) :=
  match call with
  | .receiver item => pufferRecv this item wake
  | .supplier => pufferSupply this wake

/-- What a thread does with the mutex: start a call, or come back from
`signal_wait`. `wake` is the choice of the scheduler if the section signals. -/
inductive Section (α : Type) where
  | enter (thread : Nat) (call : Call α) (wake : Nat)
  | resume (thread : Nat) (wake : Nat)
deriving DecidableEq, Repr

/-- A thread inside a call starts no other, and only a signalled thread resumes. -/
def sectionStep (this : Sgpuffer α) : Section α → Option (Sgpuffer α × Unit)
  | .enter thread call wake =>
    if this.signal.busy thread then none
    else if mustWait this.puffer call then
      some ({ this with signal := this.signal.wait thread call }, ())
    else (proceed this call wake).map fun this => (this, ())
  | .resume thread wake => do
    let (call, signal) ← this.signal.take thread
    let this ← proceed { this with signal := signal } call wake
    some (this, ())

end Devclego.Signals
