import Devclego.Foundation.Condition
import Devclego.Foundation.Machine

/-!
# The barrier of `lib_threading.c`

One unsigned 32-bit word counts the threads that have entered a round and, with the
flag added, those that have not left it yet. A step is what one thread does while it
holds the mutex, from the start of `barrier_wait` or from a return of
`pthread_cond_wait` to the next wait or the end of the call. A waiting thread may
return at any time, so broadcasts add nothing to what can happen.
-/
namespace Devclego.Barriers

open Foundation

/-- `BARRIER_FLAG`. -/
def barrierFlag : BitVec 32 := 1 <<< 31

/-- `PTHREAD_BARRIER_SERIAL_THREAD`. -/
def serialThread : Int := -1

/-- The loop of `barrier_wait` that a thread waits in. Behind the second one it has
been counted, as the `entry`-th call of all. -/
inductive Place where
  | gate
  | inside (entry : Nat)
deriving DecidableEq, Repr

/-- A call is counted, or returns. -/
inductive Event where
  | enter (thread : Nat)
  | leave (thread entry : Nat) (value : Int)
deriving DecidableEq, Repr

structure Barrier where
  gatenum : BitVec 32
  current : BitVec 32
  parked : List (Nat × Place)
  history : List Event
deriving DecidableEq, Repr

def makeBarrier (gatenum : Nat) : Barrier where
  gatenum := BitVec.ofNat 32 gatenum
  current := 0
  parked := []
  history := []

/-- The threads whose calls have been counted, in the order of entry. -/
def entered (history : List Event) : List Nat :=
  history.filterMap fun e => match e with
    | .enter thread => some thread
    | .leave _ _ _ => none

/-- The calls that have returned, with what they returned. -/
def left (history : List Event) : List (Nat × Int) :=
  history.filterMap fun e => match e with
    | .enter _ => none
    | .leave _ entry value => some (entry, value)

def park (this : Barrier) (thread : Nat) (place : Place) : Barrier :=
  { this with parked := this.parked ++ [(thread, place)] }

def leave (this : Barrier) (thread entry : Nat) (value : Int) : Barrier :=
  { this with history := this.history ++ [.leave thread entry value] }

/-- `barrier_wait` from the test of its second loop on. -/
def barrierInside (this : Barrier) (thread entry : Nat) : Barrier :=
  if this.current < barrierFlag then park this thread (.inside entry)
  else leave { this with current := this.current - 1 } thread entry 0

/-- `barrier_wait` behind its first loop. -/
def barrierEnter (this : Barrier) (thread : Nat) : Barrier :=
  let entry := (entered this.history).length
  let current := (if this.current = barrierFlag then 0 else this.current) + 1
  let this := { this with current := current, history := this.history ++ [.enter thread] }
  if this.current = this.gatenum then
    leave { this with current := this.current + (barrierFlag - 1) } thread entry serialThread
  else barrierInside this thread entry

def barrierGate (this : Barrier) (thread : Nat) : Barrier :=
  if barrierFlag < this.current then park this thread .gate else barrierEnter this thread

inductive Step where
  | call (thread : Nat)
  | wake (thread : Nat)
deriving DecidableEq, Repr

/-- A thread that waits makes no other call, and only a waiting thread returns from a
wait. -/
def barrierStep (this : Barrier) : Step → Option (Barrier × Unit)
  | .call thread =>
    if (this.parked.map Prod.fst).contains thread then none else some (barrierGate this thread, ())
  | .wake thread =>
    (pull thread this.parked).map fun r =>
      let this := { this with parked := r.2 }
      match r.1 with
      | .gate => (barrierGate this thread, ())
      | .inside entry => (barrierInside this thread entry, ())

end Devclego.Barriers
