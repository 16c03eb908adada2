import Devclego.Foundation.Machine
import Devclego.Foundation.Memory

/-!
# Datamap tables of `dmap.c`

A table is an array of row pointers, and a row holds an item with its destructor.
Destructors are code of the callers: `call` runs one on an item and changes the
`world`, which is whatever they act on. Freeing and destroying a row are faults when
the row is gone, as is reading a slot outside the array.
-/
namespace Devclego.Datamaps

open Foundation

/-- A read-write lock, as its writers see it. -/
structure Rwmutex where
  held : Bool
deriving DecidableEq, Repr

def rwmutexCtor : Rwmutex where
  held := false

structure DmapRow (ι δ : Type) where
  item : Option ι
  dtor : Option δ
deriving DecidableEq, Repr

structure DmapTable where
  size : Nat
  rwmutex : Option Rwmutex
  rows : List Ptr
deriving DecidableEq, Repr

/-- A table with the memory of its rows. -/
structure Dmap (ι δ ω : Type) where
  mem : Memory (DmapRow ι δ)
  table : DmapTable
  world : ω
deriving DecidableEq, Repr

/-- `DEVCLEGO_ERROR_TABLE_IS_FULL`. -/
def errorTableIsFull : Int := -1

/-- `DEVCLEGO_DMAP_ERROR_ADD`. -/
def dmapErrorAdd : Int := -2

section Rows

variable {ι δ ω : Type} (call : δ → ι → ω → Option ω)

def freeRow (this : Dmap ι δ ω) (row : Addr) : Option (Dmap ι δ ω) := do
  let mem ← this.mem.free row
  some { this with mem := mem }

def dmapRowDtor (this : Dmap ι δ ω) (row : Addr) : Option (Dmap ι δ ω) := do
  let r ← this.mem.read row
  match r.item with
  | none => freeRow this row
  | some item =>
    match r.dtor with
    | none => freeRow this row
    | some dtor =>
      let world ← call dtor item this.world
      freeRow { this with world := world } row

def makeDmapRow (this : Dmap ι δ ω) (item : Option ι) (dtor : Option δ) : Dmap ι δ ω × Addr :=
  let (mem, row) := this.mem.alloc { item := item, dtor := dtor }
  ({ this with mem := mem }, row)

end Rows

def dmapTableInit (size : Nat) : DmapTable where
  size := size
  rwmutex := some rwmutexCtor
  rows := List.replicate size none

/-- The loop of `_dmap_itr_table`. The fuel is the number of slots behind `index`. -/
def nextRow (table : DmapTable) : Nat → Nat → Option Nat
  | 0, index => some index
  | fuel + 1, index =>
    if index < table.size then do
      let row ← table.rows[index]?
      if row = none then nextRow table fuel (index + 1) else some index
    else some index

/-- `_dmap_itr_table`: the index, and the row there. The null pointer stands for
`BOOL_FALSE`. -/
def dmapItrTable (table : DmapTable) (index : Nat) : Option (Nat × Ptr) := do
  let index ← nextRow table (table.size - index) index
  if table.size ≤ index then some (index, none)
  else do
    let row ← table.rows[index]?
    some (index, row)

/-- The loop of `_dmap_add_row`. It reads a slot before it looks at the size, so on a
full table it reads the word behind the array; what stands there is `beyond`, and
without one the read faults. -/
def freeSlot (beyond : Option Ptr) (table : DmapTable) : Nat → Nat → Option Nat
  | 0, _ => none
  | fuel + 1, result => do
    let row ← (table.rows[result]?).or beyond
    if row ≠ none ∧ result < table.size then freeSlot beyond table fuel (result + 1) else some result

def dmapAddRow (beyond : Option Ptr) (table : DmapTable) (row : Ptr) : Option (DmapTable × Int) :=
  if row = none then some (table, dmapErrorAdd)
  else do
    let result ← freeSlot beyond table (table.size + 1) 0
    if result = table.size then some (table, errorTableIsFull)
    else some ({ table with rows := table.rows.set result row }, result)

section Tables

variable {ι δ ω : Type} (call : δ → ι → ω → Option ω)

def dmapGetItem (this : Dmap ι δ ω) (index : Int) : Option (Option ι) :=
  if index < 0 ∨ this.table.size ≤ index then some none
  else do
    let row ← this.table.rows[index.toNat]?
    match row with
    | none => some none
    | some row =>
      let r ← this.mem.read row
      some r.item

def dmapRem (this : Dmap ι δ ω) (index : Int) : Option (Dmap ι δ ω) :=
  if index < 0 ∨ this.table.size ≤ index then some this
  else do
    let row ← this.table.rows[index.toNat]?
    match row with
    | none => some this
    | some row =>
      let this ← dmapRowDtor call this row
      some { this with table := { this.table with rows := this.table.rows.set index.toNat none } }

/-- The loop of `_dmap_rem_item`. It goes on while the row holds the item. -/
def skipRows [DecidableEq ι] (this : Dmap ι δ ω) (item : Option ι) : Nat → Nat → Option (Nat × Ptr)
  | 0, _ => none
  | fuel + 1, index => do
    let (index, row) ← dmapItrTable this.table index
    match row with
    | none => some (index, none)
    | some row =>
      let r ← this.mem.read row
      if item = r.item then skipRows this item fuel (index + 1) else some (index, some row)

def dmapRemItem [DecidableEq ι] (this : Dmap ι δ ω) (item : Option ι) : Option (Dmap ι δ ω) := do
  let (index, row) ← skipRows this item (this.table.size + 1) 0
  if index = this.table.size then some this
  else match row with
    | none => none
    | some row => dmapRowDtor call this row

/-- `dmap_itr_do`. An iterator gives the index where it stopped and the item there, or
nothing for `BOOL_FALSE`. -/
def dmapItrDo {σ : Type} (iterator : σ → Nat → Option (Option (Nat × Option ι)))
    (action : σ → Option ι → Option σ) : Nat → Nat → σ → Option σ
  | 0, _, _ => none
  | fuel + 1, index, s => do
    match ← iterator s index with
    | none => some s
    | some (index, item) =>
      let s ← action s item
      dmapItrDo iterator action fuel (index + 1) s

/-- The iterator that `DMAP_DEF_ITR_TABLE_PROC` defines. -/
def dmapItrItem (this : Dmap ι δ ω) (index : Nat) : Option (Option (Nat × Option ι)) := do
  let (index, row) ← dmapItrTable this.table index
  match row with
  | none => some none
  | some row =>
    let r ← this.mem.read row
    some (some (index, r.item))

/-- The procedure that `DMAP_DEF_TABLE_ADD_VOIDT_PROC` and its sibling define. -/
def dmapAdd (beyond : Option Ptr) (this : Dmap ι δ ω) (item : Option ι) (dtor : Option δ) :
    Option (Dmap ι δ ω × Int) := do
  let (this, row) := makeDmapRow this item dtor
  let (table, result) ← dmapAddRow beyond this.table (some row)
  some ({ this with table := table }, result)

end Tables

end Devclego.Datamaps
