import Devclego.Foundation.Machine
import Devclego.Sliding.Model
import Devclego.Tree.Model

/-!
# The min/max plugin of `lib_swplugins.c`

The pipes keep a tree of the data pointers and report its ends. The comparator looks
at what the pointers lead to, that is at the storage of the window as it is when the
pipe is called. The callback gets the statistics and can look there too.
-/
namespace Devclego.Sliding

open Foundation Devclego.Puffers Devclego.Tree

/-- `bintreecmp_int32`. A pointer that leads to no value counts as one to zero; the
plugin compares none. -/
def cmpAt (storage : Swstorage) (a b : IntRef) : Int :=
  bintreecmpInt32 ((a.deref storage).getD 0) ((b.deref storage).getD 0)

structure Swminmaxstat where
  min : Option IntRef
  max : Option IntRef
deriving DecidableEq, Repr

/-- What a call of `minmax_pipe` can see: the statistics, and the storage of that moment,
which their pointers lead to. -/
structure MinmaxReport where
  stat : Swminmaxstat
  storage : Swstorage
deriving DecidableEq, Repr

/-- The private record, with the memory of the tree and the data of the callback. -/
structure Swminmax (κ : Type) where
  tree : Bintree IntRef
  minmaxPipe : Option (κ → MinmaxReport → κ)
  minmaxData : κ
  stat : Swminmaxstat
  mem : Mem IntRef

variable {κ : Type}

def swminmaxprivCtor (minmaxPipe : Option (κ → MinmaxReport → κ)) (minmaxData : κ) : Swminmax κ where
  tree := makeBintree
  minmaxPipe := minmaxPipe
  minmaxData := minmaxData
  stat := { min := none, max := none }
  mem := ⟨[]⟩

/-- The end of both pipes. -/
def reportMinmax (storage : Swstorage) (this : Swminmax κ) : Option (Swminmax κ) := do
  let min ← bintreeGetBottomData this.tree this.mem
  let max ← bintreeGetTopData this.tree this.mem
  let stat : Swminmaxstat := { min := min, max := max }
  match this.minmaxPipe with
  | none => some { this with stat := stat }
  | some pipe => some { this with
      stat := stat
      minmaxData := pipe this.minmaxData { stat := stat, storage := storage } }

/-- `_swminmax_add_pipe`. A null datum has no value to compare and faults. -/
def swminmaxAddPipe (storage : Swstorage) (itemptr : Option IntRef) (this : Swminmax κ) : Option (Swminmax κ) := do
  let item ← itemptr
  let (tree, mem) ← bintreeInsertData (cmpAt storage) this.tree this.mem item
  reportMinmax storage { this with tree := tree, mem := mem }

def swminmaxRemPipe (storage : Swstorage) (itemptr : Option IntRef) (this : Swminmax κ) : Option (Swminmax κ) := do
  let item ← itemptr
  let (tree, mem) ← bintreeDeleteValue (cmpAt storage) this.tree this.mem item
  reportMinmax storage { this with tree := tree, mem := mem }

/-- The world of a window with the plugin. There is no record any more once a pipe has
faulted. -/
abbrev MinmaxWorld (κ : Type) := IntWorld (Option (Swminmax κ))

/-- `make_swminmax(bintreecmp_int32, ...)`; its record lies in the world. -/
def makeSwminmax : Swplugin IntRef (MinmaxWorld κ) where
  remPipe := some fun data world => { world with rest := world.rest.bind (swminmaxRemPipe world.swstorage data) }
  addPipe := some fun data world => { world with rest := world.rest.bind (swminmaxAddPipe world.swstorage data) }

/-- The calls on a window before the plugin is attached, that call, and those after it. -/
def minmaxCalls (before after : List IntCall) : List (Call IntRef (MinmaxWorld κ)) :=
  before.map IntCall.call ++ .addPlugin makeSwminmax :: after.map IntCall.call

end Devclego.Sliding
