import Devclego.Datamaps.Model
import Devclego.Foundation.Slots

/-!
# A datamap table is a partial map from ids to rows

The abstract datamap gives an id to a row and keeps the id until it is removed. The
rows that will ever be added may be in the memory from the start; they do not change
before they are destroyed, so their contents are a fixed function of the address.
-/
namespace Devclego.Datamaps

open Foundation

variable {ι δ ω : Type}

/-- What the users of a table ask for. An iteration starts at index 0, and its body may
remove the index it has reached. -/
inductive Op where
  | add (row : Ptr)
  | rem (index : Int)
  | get (index : Int)
  | iterate (remove : Nat → Bool)

/-- What they get. -/
inductive Result (ι : Type) where
  | added (result : Int)
  | removed
  | got (item : Option ι)
  | visited (rows : List (Nat × Addr))
deriving DecidableEq, Repr

/-- The loop of `_dmap_table_deinit`, with a body that may leave the row. -/
def iterateRows (call : δ → ι → ω → Option ω) (remove : Nat → Bool) :
    Nat → Nat → Dmap ι δ ω → Option (Dmap ι δ ω × List (Nat × Addr))
  | 0, _, _ => none
  | fuel + 1, index, this => do
    let (index, row) ← dmapItrTable this.table index
    match row with
    | none => some (this, [])
    | some row =>
      let this ← (if remove index then dmapRem call this index else some this)
      let (this, rows) ← iterateRows call remove fuel (index + 1) this
      some (this, (index, row) :: rows)

def dmapStep (call : δ → ι → ω → Option ω) (beyond : Option Ptr) (this : Dmap ι δ ω) :
    Op → Option (Dmap ι δ ω × Result ι)
  | .add row => do
    let (table, result) ← dmapAddRow beyond this.table row
    some ({ this with table := table }, .added result)
  | .rem index => do
    let this ← dmapRem call this index
    some (this, .removed)
  | .get index => do
    let item ← dmapGetItem this index
    some (this, .got item)
  | .iterate remove => do
    let (this, rows) ← iterateRows call remove (this.table.size + 1) 0 this
    some (this, .visited rows)

/-- A destructor that is only noted down. -/
def record (dtor : δ) (item : ι) (calls : List (δ × ι)) : Option (List (δ × ι)) :=
  some (calls ++ [(dtor, item)])

/-- A new table, among rows that are there already. -/
def newTable (mem : Memory (DmapRow ι δ)) (size : Nat) : Dmap ι δ (List (δ × ι)) where
  mem := mem
  table := dmapTableInit size
  world := []

/-! ## The abstract datamap -/

structure Datamap (ι δ : Type) where
  slot : Nat → Ptr
  destroyed : List (δ × ι)

namespace Datamap

def empty : Datamap ι δ where
  slot := fun _ => none
  destroyed := []

/-- The destructor call for a row: none unless it has both an item and a destructor. -/
def calls (row : Option (DmapRow ι δ)) : List (δ × ι) :=
  match row.bind DmapRow.item, row.bind DmapRow.dtor with
  | some item, some dtor => [(dtor, item)]
  | _, _ => []

def add (size : Nat) (m : Datamap ι δ) : Ptr → Datamap ι δ × Int
  | none => (m, dmapErrorAdd)
  | some row =>
    match leastFree m.slot size with
    | none => (m, errorTableIsFull)
    | some id => ({ m with slot := Function.update m.slot id (some row) }, id)

variable (content : Addr → Option (DmapRow ι δ))

def remove (m : Datamap ι δ) (id : Nat) : Datamap ι δ where
  slot := Function.update m.slot id none
  destroyed := m.destroyed ++ calls ((m.slot id).bind content)

def item (m : Datamap ι δ) (id : Nat) : Option ι :=
  ((m.slot id).bind content).bind DmapRow.item

/-- Visit the occupied ones of some indices. -/
def visit (choose : Nat → Bool) : List Nat → Datamap ι δ → Datamap ι δ × List (Nat × Addr)
  | [], m => (m, [])
  | id :: ids, m =>
    match m.slot id with
    | none => visit choose ids m
    | some row =>
      let (m', rows) := visit choose ids (if choose id then m.remove content id else m)
      (m', (id, row) :: rows)

def step (size : Nat) (m : Datamap ι δ) : Op → Datamap ι δ × Result ι
  | .add row =>
    let (m', result) := m.add size row
    (m', .added result)
  | .rem index => (if index < 0 then m else m.remove content index.toNat, .removed)
  | .get index => (m, .got (if index < 0 then none else m.item content index.toNat))
  | .iterate choose =>
    let (m', rows) := m.visit content choose (List.range size)
    (m', .visited rows)

end Datamap

end Devclego.Datamaps
