import Devclego.Foundation.Doubles
import Devclego.Tree.Model

/-!
# The percentile plugin of `lib_swplugins.c`

The window is kept in two trees: `maxtree` holds its lower part and `mintree`
its upper part. `mxc` and `mnc` are the counters the balancer works with, words whose
sum may wrap; `percentile` and `required` are set once and small. The type of the
ratios is a parameter. Comparing with a null datum, or moving one between the trees,
dereferences null and has no result.
-/
namespace Devclego.Percentile

open Foundation Devclego.Tree

structure Swpercentilecandidates (D : Type) where
  processed : Bool
  left : Option D
  right : Option D
deriving DecidableEq, Repr

structure Swpercentile (F D : Type) where
  mintree : Bintree D
  maxtree : Bintree D
  percentile : Int
  ratio : F
  required : Int
  candidates : Swpercentilecandidates D
  mxc : Int32
  mnc : Int32

variable {F D : Type} [Doubles F]

/-- `CONSTRAIN(min,max,value)`. -/
def constrain (min max value : Int) : Int :=
  let lifted := if min < value then value else min
  if max < lifted then max else lifted

def requiredItems (ratio : F) : Int :=
  let one : F := Doubles.ofInt 1
  if Doubles.lt ratio one then Doubles.trunc (Doubles.add (Doubles.div one ratio) one)
  else if Doubles.lt one ratio then Doubles.trunc (Doubles.add ratio one)
  else 2

def swpercentileprivCtor (percentile : Int) : Swpercentile F D :=
  let percentile := constrain 10 90 percentile
  let ratio : F := Doubles.div (Doubles.ofInt percentile) (Doubles.ofInt (100 - percentile))
  { mintree := makeBintree
    maxtree := makeBintree
    percentile := percentile
    ratio := ratio
    required := requiredItems ratio
    candidates := { processed := false, left := none, right := none }
    mxc := 0
    mnc := 0 }

/-- `_swpercentile_pipe`: what the callback is given. -/
def swpercentilePipe (this : Swpercentile F D) (mem : Mem D) : Option (Swpercentile F D) :=
  if (this.mnc + this.mxc).toInt < this.required then
    some { this with candidates := { processed := false, left := none, right := none } }
  else
    let ratio : F := Doubles.div (Doubles.ofInt this.mxc.toInt) (Doubles.ofInt this.mnc.toInt)
    if Doubles.lt this.ratio ratio then do
      let left ← bintreeGetTopData this.maxtree mem
      some { this with candidates := { processed := true, left := left, right := none } }
    else if Doubles.lt ratio this.ratio then do
      let right ← bintreeGetBottomData this.mintree mem
      some { this with candidates := { processed := true, left := none, right := right } }
    else do
      let left ← bintreeGetTopData this.maxtree mem
      let right ← bintreeGetBottomData this.mintree mem
      some { this with candidates := { processed := true, left := left, right := right } }

/-- One move of `reduce_mintree`. -/
def moveToMaxtree (cmp : D → D → Int) (this : Swpercentile F D) (mem : Mem D) :
    Option (Swpercentile F D × Mem D) := do
  let data ← bintreeGetBottomData this.mintree mem
  let data ← data
  let (mintree, mem) ← bintreeDeleteValue cmp this.mintree mem data
  let (maxtree, mem) ← bintreeInsertData cmp this.maxtree mem data
  some ({ this with mintree := mintree, maxtree := maxtree, mnc := this.mnc - 1, mxc := this.mxc + 1 }, mem)

/-- One move of `reduce_maxtree`. -/
def moveToMintree (cmp : D → D → Int) (this : Swpercentile F D) (mem : Mem D) :
    Option (Swpercentile F D × Mem D) := do
  let data ← bintreeGetTopData this.maxtree mem
  let data ← data
  let (maxtree, mem) ← bintreeDeleteValue cmp this.maxtree mem data
  let (mintree, mem) ← bintreeInsertData cmp this.mintree mem data
  some ({ this with mintree := mintree, maxtree := maxtree, mxc := this.mxc - 1, mnc := this.mnc + 1 }, mem)

/-- The exit test of `reduce_mintree`. -/
def mintreeReduced (this : Swpercentile F D) : Bool :=
  let ratio : F := Doubles.div (Doubles.ofInt (this.mxc + 1).toInt) (Doubles.ofInt (this.mnc - 1).toInt)
  Doubles.lt this.ratio ratio || decide (this.mnc < 1)

/-- The exit test of `reduce_maxtree`. -/
def maxtreeReduced (this : Swpercentile F D) : Bool :=
  let ratio : F := Doubles.div (Doubles.ofInt (this.mxc - 1).toInt) (Doubles.ofInt (this.mnc + 1).toInt)
  Doubles.lt ratio this.ratio || decide (this.mxc < 1)

def reduceMintree (cmp : D → D → Int) :
    Nat → Swpercentile F D → Mem D → Option (Swpercentile F D × Mem D)
  | 0, _, _ => none
  | fuel + 1, this, mem =>
    if mintreeReduced this then some (this, mem)
    else do
      let (this, mem) ← moveToMaxtree cmp this mem
      reduceMintree cmp fuel this mem

def reduceMaxtree (cmp : D → D → Int) :
    Nat → Swpercentile F D → Mem D → Option (Swpercentile F D × Mem D)
  | 0, _, _ => none
  | fuel + 1, this, mem =>
    if maxtreeReduced this then some (this, mem)
    else do
      let (this, mem) ← moveToMintree cmp this mem
      reduceMaxtree cmp fuel this mem

/-- Every move takes one off a counter that is tested against one, which bounds
both loops. -/
def swpercentileBalancer (cmp : D → D → Int) (this : Swpercentile F D) (mem : Mem D) :
    Option (Swpercentile F D × Mem D) :=
  if (this.mxc + this.mnc).toInt < this.required then some (this, mem)
  else if this.mnc = 0 then reduceMaxtree cmp (this.mxc.toInt.toNat + 1) this mem
  else if this.mxc = 0 then reduceMintree cmp (this.mnc.toInt.toNat + 1) this mem
  else
    let ratio : F := Doubles.div (Doubles.ofInt this.mxc.toInt) (Doubles.ofInt this.mnc.toInt)
    if Doubles.lt this.ratio ratio then reduceMaxtree cmp (this.mxc.toInt.toNat + 1) this mem
    else reduceMintree cmp (this.mnc.toInt.toNat + 1) this mem

def addMaxtree (cmp : D → D → Int) (this : Swpercentile F D) (mem : Mem D) (item : D) :
    Option (Swpercentile F D × Mem D) := do
  let (maxtree, mem) ← bintreeInsertData cmp this.maxtree mem item
  some ({ this with maxtree := maxtree, mxc := this.mxc + 1 }, mem)

def addMintree (cmp : D → D → Int) (this : Swpercentile F D) (mem : Mem D) (item : D) :
    Option (Swpercentile F D × Mem D) := do
  let (mintree, mem) ← bintreeInsertData cmp this.mintree mem item
  some ({ this with mintree := mintree, mnc := this.mnc + 1 }, mem)

/-- The insertion of `_swpercentile_add_pipe`, by warm-up or by comparison. -/
def placeItem (cmp : D → D → Int) (this : Swpercentile F D) (mem : Mem D) (item : D) :
    Option (Swpercentile F D × Mem D) :=
  if (this.mxc + this.mnc).toInt < this.required then addMaxtree cmp this mem item
  else do
    let top ← bintreeGetTopData this.maxtree mem
    let top ← top
    if cmp item top ≤ 0 then addMaxtree cmp this mem item else addMintree cmp this mem item

def swpercentileAddPipe (cmp : D → D → Int) (this : Swpercentile F D) (mem : Mem D) (item : D) :
    Option (Swpercentile F D × Mem D) := do
  let (this, mem) ← placeItem cmp this mem item
  let (this, mem) ← swpercentileBalancer cmp this mem
  let this ← swpercentilePipe this mem
  some (this, mem)

/-- The loop of `_swpercentile_rem_pipe` that empties `mintree`. -/
def drainMintree (cmp : D → D → Int) :
    Nat → Swpercentile F D → Mem D → Option (Swpercentile F D × Mem D)
  | 0, _, _ => none
  | fuel + 1, this, mem =>
    if 0 < this.mnc then do
      let (mintree, mem, data) ← bintreePopBottomData cmp this.mintree mem
      let data ← data
      let (maxtree, mem) ← bintreeInsertData cmp this.maxtree mem data
      drainMintree cmp fuel
        { this with mintree := mintree, maxtree := maxtree, mxc := this.mxc + 1, mnc := this.mnc - 1 } mem
    else some (this, mem)

/-- The deletions of `_swpercentile_rem_pipe` and the counters read afterwards. -/
def takeItem (cmp : D → D → Int) (this : Swpercentile F D) (mem : Mem D) (item : D) :
    Option (Swpercentile F D × Mem D) := do
  let (maxtree, mem) ← bintreeDeleteValue cmp this.maxtree mem item
  let (mintree, mem) ← bintreeDeleteValue cmp this.mintree mem item
  some ({ this with
    maxtree := maxtree
    mintree := mintree
    mxc := bintreeGetRefnum maxtree
    mnc := bintreeGetRefnum mintree }, mem)

/-- The refill of the warm-up tree after a removal. -/
def drainIfShort (cmp : D → D → Int) (this : Swpercentile F D) (mem : Mem D) :
    Option (Swpercentile F D × Mem D) :=
  if (this.mxc + this.mnc).toInt < this.required then drainMintree cmp (this.mnc.toInt.toNat + 1) this mem
  else some (this, mem)

def swpercentileRemPipe (cmp : D → D → Int) (this : Swpercentile F D) (mem : Mem D) (item : D) :
    Option (Swpercentile F D × Mem D) := do
  let (this, mem) ← takeItem cmp this mem item
  let (this, mem) ← drainIfShort cmp this mem
  let (this, mem) ← swpercentileBalancer cmp this mem
  let this ← swpercentilePipe this mem
  some (this, mem)

/-! ## The window around the plugin -/

/-- The plugin with its memory and the items added and not yet removed, oldest
first. -/
structure Window (F D : Type) where
  plugin : Swpercentile F D
  mem : Mem D
  live : List D

inductive Event (D : Type) where
  | add (item : D)
  | rem
deriving DecidableEq, Repr

/-- A call of the window and what the percentile callback receives. A removal
passes the oldest live item; an empty window has none to pass. -/
def windowStep (cmp : D → D → Int) (w : Window F D) :
    Event D → Option (Window F D × Swpercentilecandidates D)
  | .add item => (swpercentileAddPipe cmp w.plugin w.mem item).map fun (plugin, mem) =>
      (⟨plugin, mem, w.live ++ [item]⟩, plugin.candidates)
  | .rem =>
    match w.live with
    | [] => none
    | item :: live => (swpercentileRemPipe cmp w.plugin w.mem item).map fun (plugin, mem) =>
        (⟨plugin, mem, live⟩, plugin.candidates)

def makeWindow (percentile : Int) (mem : Mem D) : Window F D :=
  { plugin := swpercentileprivCtor percentile, mem := mem, live := [] }

end Devclego.Percentile
