import Devclego.Foundation.Machine
import Devclego.Queues.Model

/-!
# The linked lists of `lib_funcs.c`

An item is a pointer that the caller chooses, so it may point at a node as well. A
`datchain_t` has the fields of a `dlist_t`. A walk gets the fuel to read every cell of
the memory: one that needs more goes around in a circle.
-/
namespace Devclego.Lists

open Foundation Queues

/-- The loop to the last node. -/
def findTail {N : Type} (next : N → Ptr) (mem : Memory N) : Nat → Addr → Option Addr
  | 0, _ => none
  | fuel + 1, tail => do
    let n ← mem.read tail
    match next n with
    | none => some tail
    | some tail => findTail next mem fuel tail

/-- The nodes that the loop of a `foreach` hands to its procedure. -/
def visits {N : Type} (next : N → Ptr) (mem : Memory N) : Nat → Ptr → Option (List Addr)
  | 0, _ => none
  | _ + 1, none => some []
  | fuel + 1, some chain => do
    let n ← mem.read chain
    let rest ← visits next mem fuel (next n)
    some (chain :: rest)

def prepend (mem : Mem Ptr) (chain item : Ptr) : Option (Mem Ptr × Ptr) :=
  let (mem, head) := makeDlist mem item
  match chain with
  | none => some (mem, some head)
  | some chain => do
    let h ← mem.read head
    let mem ← mem.write head { h with next := some chain }
    let c ← mem.read chain
    let mem ← mem.write chain { c with prev := some head }
    some (mem, some head)

/-! ## `datchain_t` -/

def makeDatchain (mem : Mem Ptr) (item : Ptr) : Mem Ptr × Addr := makeDlist mem item

def datchainPrepend (mem : Mem Ptr) (chain item : Ptr) : Option (Mem Ptr × Ptr) := prepend mem chain item

/-- The new node is left where it was made: the last node gets the item as its `next`. -/
def datchainAppend (mem : Mem Ptr) (chain item : Ptr) : Option (Mem Ptr × Ptr) :=
  let (mem, tail) := makeDatchain mem item
  match chain with
  | none => some (mem, some tail)
  | some head => do
    let tail ← findTail Dlist.next mem (mem.size + 1) head
    let t ← mem.read tail
    let mem ← mem.write tail { t with next := item }
    some (mem, some head)

def datchainForeach (mem : Mem Ptr) (chain : Ptr) : Option (List Addr) := visits Dlist.next mem (mem.size + 1) chain

/-! ## `dlist_t` -/

def dlistPrepend (mem : Mem Ptr) (dlist item : Ptr) : Option (Mem Ptr × Ptr) := prepend mem dlist item

def dlistAppend (mem : Mem Ptr) (dlist item : Ptr) : Option (Mem Ptr × Ptr) :=
  match dlist with
  | none =>
    let (mem, new) := makeDlist mem item
    some (mem, some new)
  | some dlist => do
    let tail ← findTail Dlist.next mem (mem.size + 1) dlist
    let (mem, new) := makeDlist mem item
    let t ← mem.read tail
    let mem ← mem.write tail { t with next := some new }
    let n ← mem.read new
    let mem ← mem.write new { n with prev := some tail }
    some (mem, some dlist)

def dlistForeach (mem : Mem Ptr) (dlist : Ptr) : Option (List Addr) := visits Dlist.next mem (mem.size + 1) dlist

/-! ## `slist_t` -/

structure Slist where
  data : Ptr
  next : Ptr
deriving DecidableEq, Repr

def makeSlist (mem : Memory Slist) (item : Ptr) : Memory Slist × Addr := mem.alloc { data := item, next := none }

def slistAppend (mem : Memory Slist) (slist item : Ptr) : Option (Memory Slist × Ptr) :=
  match slist with
  | none =>
    let (mem, new) := makeSlist mem item
    some (mem, some new)
  | some slist => do
    let tail ← findTail Slist.next mem (mem.size + 1) slist
    let (mem, new) := makeSlist mem item
    let t ← mem.read tail
    let mem ← mem.write tail { t with next := some new }
    some (mem, some slist)

/-- The statements from the label `again` on. -/
def cpyLoop : Nat → Memory Slist → Ptr → Addr → Option (Memory Slist × Ptr)
  | 0, _, _, _ => none
  | fuel + 1, mem, head, actual => do
    let a ← mem.read actual
    let (mem, head) ← slistAppend mem head a.data
    let a ← mem.read actual
    match a.next with
    | none => some (mem, head)
    | some actual => cpyLoop fuel mem head actual

/-- The source does not initialise `head`: it is whatever the variable holds on entry. -/
def slistCpy (mem : Memory Slist) (slist head : Ptr) : Option (Memory Slist × Ptr) :=
  match slist with
  | none => some (mem, none)
  | some actual => cpyLoop (mem.size + 1) mem head actual

/-! ## Either kind -/

inductive Kind where
  | datchain
  | dlist
deriving DecidableEq, Repr

def Kind.append : Kind → Mem Ptr → Ptr → Ptr → Option (Mem Ptr × Ptr)
  | .datchain => datchainAppend
  | .dlist => dlistAppend

def Kind.prepend : Kind → Mem Ptr → Ptr → Ptr → Option (Mem Ptr × Ptr)
  | .datchain => datchainPrepend
  | .dlist => dlistPrepend

def Kind.foreach : Kind → Mem Ptr → Ptr → Option (List Addr)
  | .datchain => datchainForeach
  | .dlist => dlistForeach

inductive ListOp where
  | append (item : Ptr)
  | prepend (item : Ptr)
deriving DecidableEq, Repr

/-- A list in memory beside the items that it should hold. -/
structure Compared where
  mem : Mem Ptr
  head : Ptr
  items : List Ptr
deriving DecidableEq, Repr

def listStep (kind : Kind) (s : Compared) : ListOp → Option (Compared × Unit)
  | .append item => (kind.append s.mem s.head item).map fun r => (⟨r.1, r.2, s.items ++ [item]⟩, ())
  | .prepend item => (kind.prepend s.mem s.head item).map fun r => (⟨r.1, r.2, item :: s.items⟩, ())

end Devclego.Lists
