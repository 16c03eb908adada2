import Devclego.Foundation.Doubles
import Devclego.Foundation.Memory
import Devclego.Puffers.Datapuffer

/-!
# Sliding windows of `lib_puffers.c`

A window tracks item records in a ring and keeps used records in a second one. The
plugins and the storage are code of the callers: they act on a `world`, which also
holds what their data pointers point to. Every call is given the readings of the
clock that it makes, in their order. `notices` lists the pipe calls made so far and
is read by nothing.
-/
namespace Devclego.Sliding

open Foundation Devclego.Puffers

/-- A `struct timeval`. -/
structure Mtime where
  tvSec : Int
  tvUsec : Nat
  inRange : tvUsec < 1000000
deriving DecidableEq, Repr

instance : LE Mtime where
  le s t := s.tvSec < t.tvSec ∨ (s.tvSec = t.tvSec ∧ s.tvUsec ≤ t.tvUsec)

instance (s t : Mtime) : Decidable (s ≤ t) :=
  inferInstanceAs (Decidable (s.tvSec < t.tvSec ∨ (s.tvSec = t.tvSec ∧ s.tvUsec ≤ t.tvUsec)))

def Mtime.zero : Mtime where
  tvSec := 0
  tvUsec := 0
  inRange := by decide

/-- Milliseconds, in the integer arithmetic of `diffmtime`. -/
def Mtime.millis (t : Mtime) : Int := t.tvSec * 1000 + (t.tvUsec / 1000 : Nat)

/-- `diffmtime(begin, end)`. -/
def diffmtime (start finish : Mtime) : Exact := .fin (start.millis - finish.millis : Int)

structure Slidingwindowitem (P : Type) where
  data : Option P
  pushed : Mtime
deriving DecidableEq, Repr

inductive Kind where
  | add
  | rem
deriving DecidableEq, Repr

/-- A plugin; a pipe comes with its `add_data` or `rem_data`. -/
structure Swplugin (P ω : Type) where
  remPipe : Option (Option P → ω → ω)
  addPipe : Option (Option P → ω → ω)

def Swplugin.pipe {P ω : Type} (this : Swplugin P ω) : Kind → Option (Option P → ω → ω)
  | .add => this.addPipe
  | .rem => this.remPipe

/-- The `store` of a `swstorage_t`, which lives in the world. -/
abbrev Store (P ω : Type) := Option P → ω → Option (Option P × ω)

/-- A call of the pipe of the plugin at a position in the list. -/
structure Notice (P : Type) where
  plugin : Nat
  kind : Kind
  data : Option P
deriving DecidableEq, Repr

structure Slidingwindow (P ω : Type) where
  mem : Memory (Slidingwindowitem P)
  recycle : Datapuffer Addr
  trackeditems : Datapuffer Addr
  plugins : List (Swplugin P ω)
  storage : Option (Store P ω)
  numLimit : Nat
  timeLimit : Exact
  world : ω
  notices : List (Notice P)

variable {P ω : Type}

def slidingwindowCtor (numLimit : Nat) (timeLimit : Exact) (storageMaker : Option (Nat → ω → Store P ω × ω))
    (world : ω) : Slidingwindow P ω :=
  let numLimit := if numLimit = 0 then 32 else numLimit
  let made := storageMaker.map fun maker => maker numLimit world
  { mem := ⟨[]⟩
    recycle := datapufferCtor (min 1024 numLimit)
    trackeditems := datapufferCtor numLimit
    plugins := []
    storage := made.map Prod.fst
    numLimit := numLimit
    timeLimit := timeLimit
    world := (made.map Prod.snd).getD world
    notices := [] }

/-- `slist_append`, on the data of the chain. -/
def slistAppend {α : Type} : List α → α → List α
  | [], item => [item]
  | head :: next, item => head :: slistAppend next item

/-- The loop over the plugins from position `i` on. -/
def callPipes (kind : Kind) (data : Option P) :
    Nat → List (Swplugin P ω) → ω × List (Notice P) → ω × List (Notice P)
  | _, [], s => s
  | i, swplugin :: next, (world, notices) =>
    match swplugin.pipe kind with
    | none => callPipes kind data (i + 1) next (world, notices)
    | some pipe => callPipes kind data (i + 1) next (pipe data world, notices ++ [⟨i, kind, data⟩])

def notify (kind : Kind) (data : Option P) (this : Slidingwindow P ω) : Slidingwindow P ω :=
  let (world, notices) := callPipes kind data 0 this.plugins (this.world, this.notices)
  { this with world := world, notices := notices }

def slidingwindowRem (this : Slidingwindow P ω) : Option (Slidingwindow P ω) := do
  let (trackeditems, item) := datapufferRead this.trackeditems
  let item ← item
  let cell ← this.mem.read item
  let this := notify .rem cell.data { this with trackeditems := trackeditems }
  let mem ← this.mem.write item { cell with data := none }
  if datapufferIsfull this.recycle then do
    let mem ← mem.free item
    some { this with mem := mem }
  else some { this with mem := mem, recycle := datapufferWrite this.recycle item }

/-- The loop of `slidingwindow_clear`. -/
def clearLoop : Nat → Slidingwindow P ω → Option (Slidingwindow P ω)
  | 0, _ => none
  | fuel + 1, this =>
    if datapufferIsempty this.trackeditems then some this
    else do
      let this ← slidingwindowRem this
      clearLoop fuel this

/-- More than the rounds a loop over the tracked items can take. -/
def rounds (this : Slidingwindow P ω) : Nat := (datapufferReadcapacity this.trackeditems).toNat + 1

def slidingwindowClear (this : Slidingwindow P ω) : Option (Slidingwindow P ω) := clearLoop (rounds this) this

/-- The loop of `_slidingwindow_obsolate_num_limit`. -/
def numLimitLoop : Nat → Slidingwindow P ω → Option (Slidingwindow P ω)
  | 0, _ => none
  | fuel + 1, this =>
    if datapufferIsfull this.trackeditems then do
      let this ← slidingwindowRem this
      numLimitLoop fuel this
    else some this

def slidingwindowObsolateNumLimit (this : Slidingwindow P ω) : Option (Slidingwindow P ω) :=
  numLimitLoop (rounds this) this

/-- The loop of `_slidingwindow_obsolate_time_limit`. The clock has been read `k` times
in this call. -/
def timeLimitLoop (clock : Nat → Mtime) : Nat → Nat → Slidingwindow P ω → Option (Slidingwindow P ω × Nat)
  | 0, _, _ => none
  | fuel + 1, k, this =>
    match datapufferPeekFirst this.trackeditems with
    | none => some (this, k)
    | some item => do
      let cell ← this.mem.read item
      if Exact.lt (diffmtime (clock k) cell.pushed) this.timeLimit then some (this, k + 1)
      else do
        let this ← slidingwindowRem this
        timeLimitLoop clock fuel (k + 1) this

def slidingwindowObsolateTimeLimit (clock : Nat → Mtime) (this : Slidingwindow P ω) :
    Option (Slidingwindow P ω × Nat) :=
  if this.timeLimit = .fin 0 then some (this, 0) else timeLimitLoop clock (rounds this) 0 this

/-- `slidingwindow_refresh`, with the number of clock readings it made. -/
def slidingwindowRefresh (clock : Nat → Mtime) (this : Slidingwindow P ω) : Option (Slidingwindow P ω × Nat) := do
  let (this, k) ← slidingwindowObsolateTimeLimit clock this
  let this ← slidingwindowObsolateNumLimit this
  some (this, k)

/-- The zeroed record of a new item, allocated or taken from the pool. -/
def makeItem (this : Slidingwindow P ω) : Option (Slidingwindow P ω × Addr) :=
  let zeroed : Slidingwindowitem P := { data := none, pushed := Mtime.zero }
  if datapufferIsempty this.recycle then
    let (mem, item) := this.mem.alloc zeroed
    some ({ this with mem := mem }, item)
  else do
    let (recycle, item) := datapufferRead this.recycle
    let item ← item
    let mem ← this.mem.write item zeroed
    some ({ this with mem := mem, recycle := recycle }, item)

/-- The storing of the data: the pointer that is used from then on. -/
def storeData (this : Slidingwindow P ω) (data : Option P) : Option (Slidingwindow P ω × Option P) :=
  match this.storage with
  | none => some (this, data)
  | some store => do
    let (data, world) ← store data this.world
    some ({ this with world := world }, data)

/-- `slidingwindow_add_data`, with the pointer it gave to the plugins. -/
def slidingwindowAddData (clock : Nat → Mtime) (this : Slidingwindow P ω) (data : Option P) :
    Option (Slidingwindow P ω × Option P) := do
  let (this, k) ← slidingwindowRefresh clock this
  let (this, item) ← makeItem this
  let (this, data) ← storeData this data
  let mem ← this.mem.write item { data := data, pushed := clock k }
  let this := { this with mem := mem, trackeditems := datapufferWrite this.trackeditems item }
  some (notify .add data this, data)

def slidingwindowAddPlugin (this : Slidingwindow P ω) (swplugin : Swplugin P ω) : Slidingwindow P ω :=
  { this with plugins := slistAppend this.plugins swplugin }

def slidingwindowIsEmpty (this : Slidingwindow P ω) : Bool := datapufferIsempty this.trackeditems

/-- The data pointers of the tracked items, oldest first. -/
def trackedData (this : Slidingwindow P ω) : Option (List (Option P)) :=
  this.trackeditems.contents.mapM fun item => (this.mem.read item).map Slidingwindowitem.data

/-- A call of a window, with the clock readings it will make. -/
inductive Call (P ω : Type) where
  | addData (clock : Nat → Mtime) (data : Option P)
  | refresh (clock : Nat → Mtime)
  | clear
  | addPlugin (swplugin : Swplugin P ω)

/-- The output of an addition is the pointer of the new item. -/
def callStep (this : Slidingwindow P ω) : Call P ω → Option (Slidingwindow P ω × Option (Option P))
  | .addData clock data => (slidingwindowAddData clock this data).map fun (this, data) => (this, some data)
  | .refresh clock => (slidingwindowRefresh clock this).map fun (this, _) => (this, none)
  | .clear => (slidingwindowClear this).map fun this => (this, none)
  | .addPlugin swplugin => some (slidingwindowAddPlugin this swplugin, none)

/-! ## Windows of integers -/

/-- The storage that `SWSTORAGE_MAKER` and `SWSTORAGE_STOREFNC` define. A slot that was
never written holds nothing; a null block has no slot. -/
structure Swstorage where
  storage : List (Option Int)
  index : Nat
  length : Int32
deriving DecidableEq, Repr

/-- A pointer to an integer: into the storage, or to the argument of a call. -/
inductive IntRef where
  | slot (i : Nat)
  | item (value : Int)
deriving DecidableEq, Repr

/-- The length is counted in a word. Where it comes out negative the size that is asked
for is near 2^64, and `malloc` gives null. -/
def makeSwstorageInt32 (numLimit : Nat) : Swstorage :=
  let length := Int32.ofNat numLimit + 1
  { storage := List.replicate length.toInt.toNat none
    index := 0
    length := length }

def IntRef.deref (storage : Swstorage) : IntRef → Option Int
  | .slot i => (storage.storage[i]?).join
  | .item value => some value

def swstorageStoreInt32 (src : Option IntRef) (this : Swstorage) : Option (Option IntRef × Swstorage) := do
  let src ← src
  let value ← src.deref this
  if this.index < this.storage.length then
    some (some (.slot this.index),
      { this with
        storage := this.storage.set this.index (some value)
        index := if Int32.ofNat (this.index + 1) = this.length then 0 else this.index + 1 })
  else none

/-- The storage of a window and what else its plugins act on. -/
structure IntWorld (ω : Type) where
  swstorage : Swstorage
  rest : ω
deriving DecidableEq, Repr

def intStore : Store IntRef (IntWorld ω) := fun src world => do
  let (dst, swstorage) ← swstorageStoreInt32 src world.swstorage
  some (dst, { world with swstorage := swstorage })

def intStorageMaker (numLimit : Nat) (world : IntWorld ω) : Store IntRef (IntWorld ω) × IntWorld ω :=
  (intStore, { world with swstorage := makeSwstorageInt32 numLimit })

/-- `slidingwindow_int32_ctor`. -/
def slidingwindowInt32Ctor (numLimit : Nat) (timeLimit : Exact) (rest : ω) : Slidingwindow IntRef (IntWorld ω) :=
  slidingwindowCtor numLimit timeLimit (some intStorageMaker)
    { swstorage := { storage := [], index := 0, length := 0 }, rest := rest }

def slidingwindowAddInt (clock : Nat → Mtime) (this : Slidingwindow IntRef (IntWorld ω)) (item : Int) :
    Option (Slidingwindow IntRef (IntWorld ω) × Option IntRef) :=
  slidingwindowAddData clock this (some (.item item))

/-- The calls of an integer window. -/
inductive IntCall where
  | addInt (clock : Nat → Mtime) (item : Int)
  | refresh (clock : Nat → Mtime)
  | clear

/-- An addition of an integer is one of a pointer to the argument. -/
def IntCall.call : IntCall → Call IntRef (IntWorld ω)
  | .addInt clock item => .addData clock (some (.item item))
  | .refresh clock => .refresh clock
  | .clear => .clear

/-- What the data pointers of the tracked items point to, oldest first. -/
def trackedValues (this : Slidingwindow IntRef (IntWorld ω)) : Option (List Int) := do
  let refs ← trackedData this
  refs.mapM fun ref => ref.bind (IntRef.deref this.world.swstorage)

end Devclego.Sliding
