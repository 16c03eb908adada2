import Mathlib.Algebra.Group.Nat.Defs
import Mathlib.Data.List.Basic

/-!
# Vectors

`lib_vector.c`. The items of a vector lie in one block, of which an item is a cell; what
was never written there is not initialised. An access outside the block faults, and so
does an assertion that fails. `size_t` has 64 bits, and no block has more than
`PTRDIFF_MAX` bytes.
-/
namespace Devclego.Vectors

/-- `vector_t` without its disposer -/
structure Vec (α : Type) where
  itemSize : Nat
  itemsNum : Nat
  itemsAllocNum : Nat
  items : List (Option α)
deriving DecidableEq, Repr

variable {α : Type}

def blockMax : Nat := 2 ^ 63 - 1

/-- The conversion of a `size_t` to `int`. -/
def toInt (i : Nat) : Int := (BitVec.ofNat 32 i).toInt

/-- How many whole items a block of so many bytes has, if there can be one. -/
def cellsOf (itemSize bytes : Nat) : Option Nat := if bytes ≤ blockMax then some (bytes / itemSize) else none

/-- `realloc`, to so many items. -/
def resize (items : List (Option α)) (cells : Nat) : List (Option α) :=
  items.take cells ++ List.replicate (cells - items.length) none

/-- `memcpy` to an item -/
def writeItem (items : List (Option α)) (index : Nat) (elem : Option α) : Option (List (Option α)) :=
  if index < items.length then some (items.set index elem) else none

/-- `memmove` of so many items -/
def moveItems (items : List (Option α)) (target source count : Nat) : Option (List (Option α)) :=
  if source + count ≤ items.length ∧ target + count ≤ items.length then
    some (items.take target ++ (items.drop source).take count ++ items.drop (target + count))
  else none

def hasSpace (v : Vec α) : Bool := (v.itemsNum + 1) % 2 ^ 64 ≤ v.itemsAllocNum

def inBounds (v : Vec α) (index : Nat) : Bool := 0 ≤ toInt index && index < v.itemsNum

def decrement (n : Nat) : Nat := (n + (2 ^ 64 - 1)) % 2 ^ 64

def vectorInit (elemSize initSize : Nat) : Option (Vec α) := do
  let itemsAllocNum := if 0 < toInt initSize then initSize else 4
  let cells ← cellsOf elemSize (elemSize * itemsAllocNum % 2 ^ 64)
  some { itemSize := elemSize, itemsNum := 0, itemsAllocNum := itemsAllocNum, items := List.replicate cells none }

def vectorCopy (v1 v2 : Vec α) : Option (Vec α) := do
  let cells ← cellsOf v1.itemSize (v1.itemsAllocNum * v1.itemSize % 2 ^ 64)
  -- what was in the block of `v2` is not kept as items
  if v1.itemsNum ≤ v1.items.length ∧ v1.itemsNum ≤ cells then
    some { v2 with
      itemSize := v1.itemSize
      itemsNum := v1.itemsNum
      itemsAllocNum := v1.itemsAllocNum
      items := resize (v1.items.take v1.itemsNum) cells }
  else none

def vectorGrow (v : Vec α) (size : Nat) : Option (Vec α) := do
  let itemsAllocNum := if v.itemsAllocNum < size then size else v.itemsAllocNum * 2 % 2 ^ 64
  let cells ← cellsOf v.itemSize (v.itemSize * itemsAllocNum % 2 ^ 64)
  some { v with itemsAllocNum := itemsAllocNum, items := resize v.items cells }

/-- `if (!VECTOR_HASSPACE(v)) vector_grow(v, size);` -/
def reserve (v : Vec α) (size : Nat) : Option (Vec α) := if hasSpace v then some v else vectorGrow v size

def vectorInsert (v : Vec α) (elem : α) (index : Nat) : Option (Vec α) :=
  if -1 < toInt index then
    if inBounds v index then do
      let items ← writeItem v.items index (some elem)
      some { v with items := items }
    else some v
  else do
    let v ← reserve v 0
    let items ← writeItem v.items v.itemsNum (some elem)
    some { v with itemsNum := (v.itemsNum + 1) % 2 ^ 64, items := items }

def vectorInsertAt (v : Vec α) (elem : α) (index : Nat) : Option (Vec α) :=
  if toInt index < 0 then some v
  else do
    let v ← reserve v 0
    let items ← (if index < v.itemsNum then moveItems v.items (index + 1) index (v.itemsNum - index) else some v.items)
    vectorInsert { v with itemsNum := (v.itemsNum + 1) % 2 ^ 64, items := items } elem index

def vectorPush (v : Vec α) (elem : α) : Option (Vec α) := vectorInsert v elem (2 ^ 64 - 1)

def vectorPop (v : Vec α) : Option (Vec α × Option α) := do
  let elem ← v.items[decrement v.itemsNum]?
  some ({ v with itemsNum := decrement v.itemsNum }, elem)

def vectorShift (v : Vec α) : Option (Vec α × Option α) := do
  let elem ← v.items[0]?
  let items ← moveItems v.items 0 1 v.itemsNum
  some ({ v with itemsNum := decrement v.itemsNum, items := items }, elem)

def vectorUnshift (v : Vec α) (elem : α) : Option (Vec α) := do
  let v ← reserve v ((v.itemsNum + 1) % 2 ^ 64)
  let items ← moveItems v.items 1 0 v.itemsNum
  let items ← writeItem items 0 (some elem)
  some { v with itemsNum := (v.itemsNum + 1) % 2 ^ 64, items := items }

/-- What is written to the buffer of the caller, if anything. -/
def vectorGet (v : Vec α) (index : Nat) : Option (Option (Option α)) :=
  if toInt index < 0 then none
  else if inBounds v index then (v.items[index]?).map some
  else some none

def vectorGetAll (v : Vec α) : Option (List (Option α)) :=
  if v.itemsNum ≤ v.items.length then some (v.items.take v.itemsNum) else none

def vectorRemove (v : Vec α) (index : Nat) : Option (Vec α) :=
  if 0 < toInt index then
    if inBounds v index then do
      let items ← moveItems v.items index (index + 1) 1
      some { v with itemsNum := decrement v.itemsNum, items := items }
    else some v
  else none

/-- The block is given as many bytes as it had items. -/
def vectorRemoveAll (v : Vec α) : Option (Vec α) := do
  let cells ← cellsOf v.itemSize v.itemsAllocNum
  some { v with itemsNum := 0, items := resize v.items cells }

end Devclego.Vectors
