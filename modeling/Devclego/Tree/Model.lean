import Devclego.Foundation.Shape
import Devclego.Puffers.Datapuffer

/-!
# The reference-counted binary tree of `lib_bintree.c`

Nodes live in a memory and every pointer of the source is an address in it, so
cached extremes, unlinked nodes and recycled nodes are what they are in the C
code. A step that reads a null or freed node, or frees a node twice, has no
result. Loops and recursions carry a bound of one more than the addresses handed
out; a walk over distinct live nodes never meets it.

`this->cmp` is the parameter `cmp`: it is set once by `make_bintree`, and the
data it dereferences belong to the caller. A set `duplicate_notifier` is
represented by the list of arguments it has been called with. The references of a
node and both counters are `int32_t`: their sums and differences wrap.
-/
namespace Devclego.Tree

open Foundation Puffers

structure Bintreenode (D : Type) where
  data : D
  left : Ptr
  right : Ptr
  ref : Int32
deriving DecidableEq, Repr

structure Bintree (D : Type) where
  root : Ptr
  bottom : Ptr
  top : Ptr
  recycle : Datapuffer Addr
  nodeCounter : Int32
  duplicateCounter : Int32
  duplicateNotifier : Option (List D)
deriving DecidableEq, Repr

abbrev Mem (D : Type) := Memory (Bintreenode D)

variable {D : Type}

def recycleSize : Nat := 32

def makeBintree : Bintree D where
  root := none
  bottom := none
  top := none
  recycle := datapufferCtor recycleSize
  nodeCounter := 0
  duplicateCounter := 0
  duplicateNotifier := none

/-! ## Walks -/

/-- `while(node->right) node = node->right`. -/
def rightestLoop (mem : Mem D) : Nat → Addr → Option Addr
  | 0, _ => none
  | fuel + 1, node => do
    let n ← mem.read node
    match n.right with
    | none => some node
    | some right => rightestLoop mem fuel right

def leftestLoop (mem : Mem D) : Nat → Addr → Option Addr
  | 0, _ => none
  | fuel + 1, node => do
    let n ← mem.read node
    match n.left with
    | none => some node
    | some left => leftestLoop mem fuel left

/-- `_get_rightest_value`: null stays null. Its second argument, the parent, is
written and never read by the callers. -/
def getRightestValue (mem : Mem D) (node : Ptr) : Option Ptr :=
  match node with
  | none => some none
  | some node => (rightestLoop mem (mem.size + 1) node).map some

def getLeftestValue (mem : Mem D) (node : Ptr) : Option Ptr :=
  match node with
  | none => some none
  | some node => (leftestLoop mem (mem.size + 1) node).map some

/-- The loop of `_search_value`, with the current node and its parent. -/
def searchLoop (cmp : D → D → Int) (mem : Mem D) (data : D) : Nat → Ptr → Ptr → Option (Ptr × Ptr)
  | 0, _, _ => none
  | _ + 1, none, parent => some (none, parent)
  | fuel + 1, some node, parent => do
    let n ← mem.read node
    let c := cmp data n.data
    if c = 0 then some (some node, parent)
    else searchLoop cmp mem data fuel (if c < 0 then n.left else n.right) (some node)

/-- The node that holds `data` and its parent. -/
def searchValue (cmp : D → D → Int) (this : Bintree D) (mem : Mem D) (data : D) :
    Option (Ptr × Ptr) :=
  searchLoop cmp mem data (mem.size + 1) this.root none

/-! ## Cached extremes and recycled nodes -/

def refreshTop (this : Bintree D) (mem : Mem D) : Option (Bintree D) := do
  let top ← mem.load this.top
  let top ← getRightestValue mem (if top.left.isSome then top.left else this.root)
  some { this with top := top }

def refreshBottom (this : Bintree D) (mem : Mem D) : Option (Bintree D) := do
  let bottom ← mem.load this.bottom
  let bottom ← getLeftestValue mem (if bottom.right.isSome then bottom.right else this.root)
  some { this with bottom := bottom }

/-- `if(node == this->top) _refresh_top(this)`. -/
def refreshIfTop (this : Bintree D) (mem : Mem D) (node : Addr) : Option (Bintree D) :=
  if some node = this.top then refreshTop this mem else some this

def refreshIfBottom (this : Bintree D) (mem : Mem D) (node : Addr) : Option (Bintree D) :=
  if some node = this.bottom then refreshBottom this mem else some this

/-- The two repairs every removal makes after the unlink. -/
def refreshExtremes (this : Bintree D) (mem : Mem D) (node : Addr) : Option (Bintree D) := do
  let this ← refreshIfTop this mem node
  refreshIfBottom this mem node

def makeBintreenode (this : Bintree D) (mem : Mem D) (data : D) : Option (Bintree D × Mem D × Addr) :=
  let node : Bintreenode D := { data := data, left := none, right := none, ref := 1 }
  if datapufferIsempty this.recycle then
    let (mem, result) := mem.alloc node
    some (this, mem, result)
  else do
    let (recycle, result) := datapufferRead this.recycle
    let result ← result
    let mem ← mem.write result node
    some ({ this with recycle := recycle }, mem, result)

def trashBintreenode (this : Bintree D) (mem : Mem D) (node : Addr) : Option (Bintree D × Mem D) := do
  let this ← refreshExtremes this mem node
  if datapufferIsfull this.recycle then
    let mem ← mem.free node
    some (this, mem)
  else
    some ({ this with recycle := datapufferWrite this.recycle node }, mem)

/-! ## Insertion -/

/-- `_insert_into_tree`. The second address is what `*insert` is left pointing
to: the inserted node, or the node it was merged into. -/
def insertIntoTree (cmp : D → D → Int) :
    Nat → Bintree D → Mem D → Ptr → Addr → Option (Bintree D × Mem D × Addr × Addr)
  | 0, _, _, _, _ => none
  | _ + 1, this, mem, none, insert =>
    some ({ this with nodeCounter := this.nodeCounter + 1 }, mem, insert, insert)
  | fuel + 1, this, mem, some actual, insert => do
    let a ← mem.read actual
    let i ← mem.read insert
    let c := cmp a.data i.data
    if c = 0 then
      -- the notifier sees the datum that is about to be replaced
      let this := { this with duplicateNotifier := this.duplicateNotifier.map (· ++ [a.data]) }
      let mem ← mem.write actual { a with data := i.data, ref := a.ref + i.ref }
      let (this, mem) ← trashBintreenode this mem insert
      some ({ this with duplicateCounter := this.duplicateCounter + 1 }, mem, actual, actual)
    else if c < 0 then
      let (this, mem, right, insert) ← insertIntoTree cmp fuel this mem a.right insert
      let a ← mem.read actual
      let mem ← mem.write actual { a with right := some right }
      some (this, mem, actual, insert)
    else
      let (this, mem, left, insert) ← insertIntoTree cmp fuel this mem a.left insert
      let a ← mem.read actual
      let mem ← mem.write actual { a with left := some left }
      some (this, mem, actual, insert)

/-- The end of `_insert`: what the inserted node does to the cached extremes. -/
def insertExtremes (cmp : D → D → Int) (this : Bintree D) (mem : Mem D) (insert : Addr) :
    Option (Bintree D) :=
  if this.nodeCounter = 1 then
    some { this with top := some insert, bottom := some insert }
  else do
    let top ← mem.load this.top
    let i ← mem.read insert
    if cmp top.data i.data < 0 then some { this with top := some insert }
    else
      let bottom ← mem.load this.bottom
      if cmp i.data bottom.data < 0 then some { this with bottom := some insert } else some this

/-- `this->root = _insert(this, this->root, insert)`. -/
def insertRoot (cmp : D → D → Int) (this : Bintree D) (mem : Mem D) (insert : Addr) :
    Option (Bintree D × Mem D) := do
  let (this, mem, result, insert) ← insertIntoTree cmp (mem.size + 1) this mem this.root insert
  let this ← insertExtremes cmp this mem insert
  some ({ this with root := some result }, mem)

/-! ## Removal -/

/-- The branches under the labels `remove` that take `node` out of the links. -/
def unlinkNode (this : Bintree D) (mem : Mem D) (parent : Ptr) (node : Addr) (candidate : Ptr) :
    Option (Bintree D × Mem D) :=
  match parent with
  | none => some ({ this with root := candidate }, mem)
  | some parent => do
    let p ← mem.read parent
    if p.left = some node then
      let mem ← mem.write parent { p with left := candidate }
      some (this, mem)
    else
      let mem ← mem.write parent { p with right := candidate }
      some (this, mem)

/-- Label `remove` of `_pop_from_tree`. -/
def popRemove (this : Bintree D) (mem : Mem D) (parent : Ptr) (node : Addr) (candidate : Ptr) :
    Option (Bintree D × Mem D × Ptr) := do
  let (this, mem) ← unlinkNode this mem parent node candidate
  let n ← mem.read node
  let this := { this with
    nodeCounter := this.nodeCounter - 1
    duplicateCounter := this.duplicateCounter - (n.ref - 1) }
  let mem ← mem.write node { n with left := none, right := none }
  let this ← refreshExtremes this mem node
  some (this, mem, some node)

/-- `_pop_from_tree`. With two children the in-order predecessor is popped and
trades places with the node. -/
def popFromTree (cmp : D → D → Int) :
    Nat → Bintree D → Mem D → D → Option (Bintree D × Mem D × Ptr)
  | 0, _, _, _ => none
  | fuel + 1, this, mem, data => do
    let (node, parent) ← searchValue cmp this mem data
    match node with
    | none => some (this, mem, none)
    | some node =>
      let n ← mem.read node
      match n.left, n.right with
      | none, none => popRemove this mem parent node none
      | none, some right => popRemove this mem parent node (some right)
      | some left, none => popRemove this mem parent node (some left)
      | some left, some _ =>
        let candidate ← getRightestValue mem (some left)
        let c ← mem.load candidate
        let (this, mem, candidate) ← popFromTree cmp fuel this mem c.data
        let candidate ← candidate
        let n ← mem.read node
        let c ← mem.read candidate
        let mem ← mem.write node { n with data := c.data, ref := c.ref }
        let mem ← mem.write candidate { data := n.data, left := none, right := none, ref := n.ref }
        let this ← refreshExtremes this mem candidate
        some (this, mem, some candidate)

/-- The recursion of `_pop_from_tree` ends in its second round, since a
predecessor has no right child. -/
def popDepth : Nat := 2

/-- Label `remove` of `_deref_from_tree`. -/
def derefRemove (this : Bintree D) (mem : Mem D) (parent : Ptr) (node : Addr) (candidate : Ptr) :
    Option (Bintree D × Mem D) := do
  let (this, mem) ← unlinkNode this mem parent node candidate
  let (this, mem) ← trashBintreenode this mem node
  some ({ this with nodeCounter := this.nodeCounter - 1 }, mem)

def derefFromTree (cmp : D → D → Int) (this : Bintree D) (mem : Mem D) (data : D) :
    Option (Bintree D × Mem D) := do
  let (node, parent) ← searchValue cmp this mem data
  match node with
  | none => some (this, mem)
  | some node =>
    let n ← mem.read node
    if 1 < n.ref then
      let mem ← mem.write node { n with ref := n.ref - 1 }
      some ({ this with duplicateCounter := this.duplicateCounter - 1 }, mem)
    else
      match n.left, n.right with
      | none, none => derefRemove this mem parent node none
      | none, some right => derefRemove this mem parent node (some right)
      | some left, none => derefRemove this mem parent node (some left)
      | some left, some _ =>
        let candidate ← getRightestValue mem (some left)
        let c ← mem.load candidate
        let (this, mem, candidate) ← popFromTree cmp popDepth this mem c.data
        let candidate ← candidate
        let n ← mem.read node
        let c ← mem.read candidate
        let mem ← mem.write node { n with data := c.data, ref := c.ref }
        trashBintreenode this mem candidate

/-! ## The functions of `lib_bintree.h` -/

def bintreeInsertNode (cmp : D → D → Int) (this : Bintree D) (mem : Mem D) (node : Addr) :
    Option (Bintree D × Mem D) :=
  insertRoot cmp this mem node

def bintreeInsertData (cmp : D → D → Int) (this : Bintree D) (mem : Mem D) (data : D) :
    Option (Bintree D × Mem D) := do
  let (this, mem, node) ← makeBintreenode this mem data
  insertRoot cmp this mem node

def bintreeDeleteValue (cmp : D → D → Int) (this : Bintree D) (mem : Mem D) (data : D) :
    Option (Bintree D × Mem D) :=
  derefFromTree cmp this mem data

def bintreePopNode (cmp : D → D → Int) (this : Bintree D) (mem : Mem D) (data : D) :
    Option (Bintree D × Mem D × Ptr) :=
  popFromTree cmp popDepth this mem data

def bintreePopTopNode (cmp : D → D → Int) (this : Bintree D) (mem : Mem D) :
    Option (Bintree D × Mem D × Ptr) :=
  match this.top with
  | none => some (this, mem, none)
  | some top => do
    let n ← mem.read top
    popFromTree cmp popDepth this mem n.data

def bintreePopBottomNode (cmp : D → D → Int) (this : Bintree D) (mem : Mem D) :
    Option (Bintree D × Mem D × Ptr) :=
  match this.bottom with
  | none => some (this, mem, none)
  | some bottom => do
    let n ← mem.read bottom
    popFromTree cmp popDepth this mem n.data

def bintreePopTopData (cmp : D → D → Int) (this : Bintree D) (mem : Mem D) :
    Option (Bintree D × Mem D × Option D) :=
  match this.top with
  | none => some (this, mem, none)
  | some top => do
    let n ← mem.read top
    let (this, mem) ← derefFromTree cmp this mem n.data
    some (this, mem, some n.data)

def bintreePopBottomData (cmp : D → D → Int) (this : Bintree D) (mem : Mem D) :
    Option (Bintree D × Mem D × Option D) :=
  match this.bottom with
  | none => some (this, mem, none)
  | some bottom => do
    let n ← mem.read bottom
    let (this, mem) ← derefFromTree cmp this mem n.data
    some (this, mem, some n.data)

def bintreeGetTopData (this : Bintree D) (mem : Mem D) : Option (Option D) :=
  match this.top with
  | none => some none
  | some top => (mem.read top).map fun n => some n.data

def bintreeGetBottomData (this : Bintree D) (mem : Mem D) : Option (Option D) :=
  match this.bottom with
  | none => some none
  | some bottom => (mem.read bottom).map fun n => some n.data

def bintreeHasValue (cmp : D → D → Int) (this : Bintree D) (mem : Mem D) (data : D) : Option Bool := do
  let (node, _) ← searchValue cmp this mem data
  some node.isSome

def bintreeTrashNode (this : Bintree D) (mem : Mem D) (node : Addr) : Option (Bintree D × Mem D) :=
  trashBintreenode this mem node

def bintreeGetNodenum (this : Bintree D) : Int32 := this.nodeCounter

def bintreeGetRefnum (this : Bintree D) : Int32 := this.nodeCounter + this.duplicateCounter

/-- `_ruin_full`: children first, then the node. -/
def ruinFull : Nat → Bintree D → Mem D → Ptr → Option (Bintree D × Mem D)
  | 0, _, _, _ => none
  | _ + 1, this, mem, none => some (this, mem)
  | fuel + 1, this, mem, some node => do
    let n ← mem.read node
    let (this, mem) ← ruinFull fuel this mem n.left
    let n ← mem.read node
    let (this, mem) ← ruinFull fuel this mem n.right
    let (this, mem) ← trashBintreenode this mem node
    some ({ this with nodeCounter := this.nodeCounter - 1 }, mem)

/-- `free` as the destructor of `datapuffer_clear`: freeing null does nothing. -/
def freeItems (mem : Mem D) : List Ptr → Option (Mem D)
  | [] => some mem
  | none :: items => freeItems mem items
  | some item :: items => do
    let mem ← mem.free item
    freeItems mem items

def bintreeReset (this : Bintree D) (mem : Mem D) : Option (Bintree D × Mem D) := do
  let (this, mem) ← ruinFull (mem.size + 1) this mem this.root
  let this := { this with nodeCounter := 0 }
  let (recycle, items) := datapufferClear this.recycle
  let mem ← freeItems mem items
  some ({ this with recycle := recycle, root := none }, mem)

/-- `bintreecmp_int32` on the integers its arguments point to. -/
def bintreecmpInt32 (a b : Int) : Int := if a = b then 0 else if a < b then -1 else 1

end Devclego.Tree
