import Devclego.Foundation.Linked
import Devclego.Foundation.Machine

/-!
# The queue of `lib_queue.c`

A doubly linked list with a pointer to either end and a signed 32-bit counter. The
nodes are `dlist_t` cells in a memory, so an end pointer that is left behind points
at a freed cell, and a function that follows it has no result.
-/
namespace Devclego.Queues

open Foundation

variable {α : Type}

structure Dlist (α : Type) where
  data : α
  next : Ptr
  prev : Ptr
deriving DecidableEq, Repr

/-- `queue_t` without its disposer, which only `queue_dtor` calls. -/
structure Queue where
  head : Ptr
  tail : Ptr
  counter : BitVec 32
deriving DecidableEq, Repr

abbrev Mem (α : Type) := Memory (Dlist α)

def makeQueue : Queue where
  head := none
  tail := none
  counter := 0

def makeDlist (mem : Mem α) (item : α) : Mem α × Addr := mem.alloc { data := item, next := none, prev := none }

@[simp] theorem makeDlist_addr (mem : Mem α) (item : α) : (makeDlist mem item).2 = mem.size := rfl

def queuePushHead (this : Queue) (mem : Mem α) (data : α) : Option (Queue × Mem α) :=
  let this := { this with counter := this.counter + 1 }
  match this.head with
  | none =>
    let (mem, item) := makeDlist mem data
    some ({ this with head := some item, tail := some item }, mem)
  | some head => do
    let (mem, item) := makeDlist mem data
    let n ← mem.read item
    let mem ← mem.write item { n with next := some head }
    let h ← mem.read head
    let mem ← mem.write head { h with prev := some item }
    some ({ this with head := some item }, mem)

def queuePopHead (this : Queue) (mem : Mem α) : Option (Queue × Mem α × Option α) :=
  match this.head with
  | none => some (this, mem, none)
  | some head => do
    let this := { this with counter := this.counter - 1 }
    let n ← mem.read head
    let mem ← mem.free head
    let this := { this with head := n.next }
    match n.next with
    | some next => do
      let h ← mem.read next
      let mem ← mem.write next { h with prev := none }
      some (this, mem, some n.data)
    | none => some ({ this with tail := none }, mem, some n.data)

def queuePeekHead (this : Queue) (mem : Mem α) : Option (Option α) :=
  match this.head with
  | none => some none
  | some head => (mem.read head).map fun n => some n.data

def queuePushTail (this : Queue) (mem : Mem α) (data : α) : Option (Queue × Mem α) :=
  let this := { this with counter := this.counter + 1 }
  match this.tail with
  | none =>
    let (mem, item) := makeDlist mem data
    some ({ this with head := some item, tail := some item }, mem)
  | some tail => do
    let (mem, item) := makeDlist mem data
    let n ← mem.read item
    let mem ← mem.write item { n with prev := some tail }
    let t ← mem.read tail
    let mem ← mem.write tail { t with next := some item }
    some ({ this with tail := some item }, mem)

/-- The last branch clears `tail`, which is null already, and leaves `head`. -/
def queuePopTail (this : Queue) (mem : Mem α) : Option (Queue × Mem α × Option α) :=
  match this.tail with
  | none => some (this, mem, none)
  | some tail => do
    let this := { this with counter := this.counter - 1 }
    let n ← mem.read tail
    let mem ← mem.free tail
    let this := { this with tail := n.prev }
    match n.prev with
    | some prev => do
      let t ← mem.read prev
      let mem ← mem.write prev { t with next := none }
      some (this, mem, some n.data)
    | none => some ({ this with tail := none }, mem, some n.data)

def queuePeekTail (this : Queue) (mem : Mem α) : Option (Option α) :=
  match this.tail with
  | none => some none
  | some tail => (mem.read tail).map fun n => some n.data

inductive Op (α : Type) where
  | pushHead (data : α)
  | pushTail (data : α)
  | popHead
  | popTail
  | peekHead
  | peekTail
deriving DecidableEq, Repr

def exec : Queue × Mem α → Op α → Option ((Queue × Mem α) × Option α)
  | (this, mem), .pushHead data => (queuePushHead this mem data).map (·, none)
  | (this, mem), .pushTail data => (queuePushTail this mem data).map (·, none)
  | (this, mem), .popHead => (queuePopHead this mem).map fun (this, mem, data) => ((this, mem), data)
  | (this, mem), .popTail => (queuePopTail this mem).map fun (this, mem, data) => ((this, mem), data)
  | (this, mem), .peekHead => (queuePeekHead this mem).map (((this, mem), ·))
  | (this, mem), .peekTail => (queuePeekTail this mem).map (((this, mem), ·))

/-- The abstract deque: its contents from head to tail, and what an operation returns. -/
def dequeStep (xs : List α) : Op α → List α × Option α
  | .pushHead data => (data :: xs, none)
  | .pushTail data => (xs ++ [data], none)
  | .popHead => (xs.tail, xs.head?)
  | .popTail => (xs.dropLast, xs.getLast?)
  | .peekHead => (xs, xs.head?)
  | .peekTail => (xs, xs.getLast?)

end Devclego.Queues
