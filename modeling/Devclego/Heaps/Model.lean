import Mathlib.Data.List.Basic
import Mathlib.Algebra.Group.Nat.Defs

/-!
# The binary heap of `lib_heap.c`

The array has `size` cells, those from `count` on hold no value that may be read: a
read of such a cell, or an access outside the array, faults. Counters and indexes are
`unsigned int`. An allocation that fails ends the process and is not modelled. The
loops get the fuel that their index can use up.
-/
namespace Devclego.Heaps

structure Heap where
  size : Nat
  count : Nat
  data : List (Option Int)
deriving DecidableEq, Repr

def baseSize : Nat := 4

/-- `HEAP_CMP` -/
def heapCmp (a b : Int) : Bool := b ≤ a

def readCell (data : List (Option Int)) (index : Nat) : Option Int := data[index]?.join

def writeCell (data : List (Option Int)) (index : Nat) (value : Int) : Option (List (Option Int)) :=
  if index < data.length then some (data.set index (some value)) else none

def realloc (data : List (Option Int)) (size : Nat) : List (Option Int) :=
  data.take size ++ List.replicate (size - data.length) none

def heapInit : Heap where
  size := baseSize
  count := 0
  data := List.replicate baseSize none

/-- The loop that finds out where to put the element, and the write after it. -/
def pushLoop (value : Int) : Nat → List (Option Int) → Nat → Option (List (Option Int))
  | 0, _, _ => none
  | fuel + 1, data, index =>
    if index = 0 then writeCell data index value
    else do
      let parent := (index - 1) / 2
      let above ← readCell data parent
      if heapCmp above value then writeCell data index value
      else do
        let data ← writeCell data index above
        pushLoop value fuel data parent

/-- The first part of `_heap_push`. -/
def growIfFull (h : Heap) : Heap :=
  if h.count = h.size then
    { h with size := h.size * 2 % 2 ^ 32, data := realloc h.data (h.size * 2 % 2 ^ 32) }
  else h

def heapPush (h : Heap) (value : Int) : Option Heap := do
  let h := growIfFull h
  let data ← pushLoop value (h.count + 1) h.data h.count
  some { h with count := (h.count + 1) % 2 ^ 32, data := data }

/-- The child to swap with, of the two that follow `swap`. -/
def swapChild (data : List (Option Int)) (count swap : Nat) : Option Nat :=
  let other := (swap + 1) % 2 ^ 32
  if other < count then do
    let right ← readCell data other
    let left ← readCell data swap
    some (if heapCmp right left then other else swap)
  else some swap

/-- The loop that reorders the elements, and the write after it. -/
def popLoop (temp : Int) (count : Nat) : Nat → List (Option Int) → Nat → Option (List (Option Int))
  | 0, _, _ => none
  | fuel + 1, data, index =>
    let swap := (index * 2 + 1) % 2 ^ 32
    if count ≤ swap then writeCell data index temp
    else do
      let swap ← swapChild data count swap
      let child ← readCell data swap
      if heapCmp temp child then writeCell data index temp
      else do
        let data ← writeCell data index child
        popLoop temp count fuel data swap

/-- The part of `_heap_pop` behind the removal of the last element. -/
def shrinkIfSparse (h : Heap) : Heap :=
  if h.count ≤ h.size / 4 ∧ baseSize < h.size then
    { h with size := h.size / 2, data := realloc h.data (h.size / 2) }
  else h

def heapPop (h : Heap) : Option Heap := do
  let h := { h with count := (h.count + (2 ^ 32 - 1)) % 2 ^ 32 }
  let temp ← readCell h.data h.count
  let h := shrinkIfSparse h
  let data ← popLoop temp h.count (h.count + 1) h.data 0
  some { h with data := data }

/-- The inner loop of `_heapify`: what it leaves, and the index where it breaks. -/
def siftLoop (temp : Int) (count : Nat) : Nat → List (Option Int) → Nat → Option (List (Option Int) × Nat)
  | 0, _, _ => none
  | fuel + 1, data, index =>
    let swap := (index * 2 + 1) % 2 ^ 32
    if count ≤ swap then some (data, index)
    else do
      let swap ← swapChild data count swap
      let child ← readCell data swap
      if heapCmp temp child then some (data, index)
      else do
        let data ← writeCell data index child
        siftLoop temp count fuel data swap

/-- The body of the outer loop of `_heapify`. -/
def heapifyItem (data : List (Option Int)) (count item : Nat) : Option (List (Option Int)) := do
  let temp ← readCell data item
  let (data, index) ← siftLoop temp count (count + 1) data item
  if index ≠ item then writeCell data index temp else some data

/-- The outer loop, from the given item down to the first. -/
def heapifyLoop (count : Nat) : Nat → List (Option Int) → Option (List (Option Int))
  | 0, data => heapifyItem data count 0
  | item + 1, data => do
    let data ← heapifyItem data count (item + 1)
    heapifyLoop count item data

def heapify (data : List (Option Int)) (count : Nat) : Option (List (Option Int)) :=
  heapifyLoop count ((count / 2 + (2 ^ 32 - 1)) % 2 ^ 32) data

def heapFront (h : Heap) : Option Int := readCell h.data 0

inductive HeapOp where
  | push (value : Int)
  | pop
deriving DecidableEq, Repr

/-- A caller takes the front before it pops. -/
def heapStep (h : Heap) : HeapOp → Option (Heap × Option Int)
  | .push value => (heapPush h value).map (·, none)
  | .pop => do
    let front ← heapFront h
    let h ← heapPop h
    some (h, some front)

/-- Pops only from a heap that is not empty, and fewer than `2 ^ 31` elements. -/
def Within (h : Heap) : HeapOp → Prop
  | .push _ => h.count + 1 < 2 ^ 31
  | .pop => 0 < h.count

instance (h : Heap) : (op : HeapOp) → Decidable (Within h op)
  | .push _ => inferInstanceAs (Decidable (_ < _))
  | .pop => inferInstanceAs (Decidable (_ < _))

end Devclego.Heaps
