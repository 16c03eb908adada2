import Devclego.Foundation.Machine
import Devclego.Foundation.Memory
import Devclego.Puffers.Datapuffer

/-!
# Components that `CMP_DEF` defines

The generated constructor and destructor of the state machine and of the signalized
and recycle puffers, with the blocks they allocate in one memory. Reading, writing or
freeing a block through the null pointer or after it was freed faults. Item
destructors are code of the callers.
-/
namespace Devclego.Components

open Foundation Devclego.Puffers

/-- The states of `fsm_t`; a zeroed block is in the first one. -/
inductive FsmState where
  | stateRun
  | stateHalt
deriving DecidableEq, Repr

inductive Cell where
  | mutex (destroyed : Bool)
  | spin (destroyed : Bool)
  | signal (mutex : Ptr)
  | puffer (puffer : Datapuffer Addr)
  | item
  | fsm (current : FsmState) (fire : Bool) (signal : Ptr)
  | sgpuffer (puffer : Ptr) (receiver supplier : Bool) (signal : Ptr)
  | recpuffer (puffer : Ptr) (receiver supplier : Bool) (spin : Ptr)
deriving DecidableEq, Repr

/-- The component variable with everything its procedures touch, the blocks on which
the init procedure has run, and for each run of the deinit procedure whether it was on
a live one of them. -/
structure World where
  mem : Memory Cell
  var : Ptr
  sysdatMutex : Ptr
  initialised : List Addr
  deinits : List Bool
deriving DecidableEq, Repr

inductive Component where
  | fsm
  | sgpuffer (length : Nat)
  | recpuffer (length : Nat)
deriving DecidableEq, Repr

/-! ## `lib_threading.c` and `lib_puffers.c` -/

def allocCell (w : World) (cell : Cell) : World × Addr :=
  ({ w with mem := (w.mem.alloc cell).1 }, w.mem.size)

def freeCell (w : World) (a : Addr) : Option World :=
  (w.mem.free a).map fun mem => { w with mem := mem }

def writeCell (w : World) (a : Addr) (cell : Cell) : Option World :=
  (w.mem.write a cell).map fun mem => { w with mem := mem }

def mutexCtor (w : World) : World × Addr := allocCell w (.mutex false)

/-- It does not free the mutex. -/
def mutexDtor (w : World) (mutex : Ptr) : Option World :=
  match mutex with
  | none => some w
  | some target => writeCell w target (.mutex true)

def spinCtor (w : World) : World × Addr := allocCell w (.spin false)

def spinDtor (w : World) (spin : Ptr) : Option World :=
  match spin with
  | none => some w
  | some target => writeCell w target (.spin true)

def signalCtor (w : World) : World × Addr :=
  let (w, mutex) := mutexCtor w
  allocCell w (.signal (some mutex))

def signalDtor (w : World) (signal : Ptr) : Option World :=
  match signal with
  | none => some w
  | some target => do
    match ← w.mem.read target with
    | .signal mutex => do
      let w ← mutexDtor w mutex
      freeCell w target
    | _ => none

def pufferCtor (w : World) (size : Nat) : World × Addr := allocCell w (.puffer (datapufferCtor size))

/-- The loop of `datapuffer_dtor`, which frees every item. -/
def freeItems (w : World) : List (Option Addr) → Option World
  | [] => some w
  | none :: items => freeItems w items
  | some item :: items => do
    let w ← freeCell w item
    freeItems w items

def pufferDtor (w : World) (puffer : Ptr) : Option World :=
  match puffer with
  | none => some w
  | some target => do
    match ← w.mem.read target with
    | .puffer p => do
      let w ← freeItems w p.items
      freeCell w target
    | _ => none

/-! ## Init and deinit procedures -/

/-- What `BZERO` makes of a new block. -/
def zeroed : Component → Cell
  | .fsm => .fsm .stateRun false none
  | .sgpuffer _ => .sgpuffer none false false none
  | .recpuffer _ => .recpuffer none false false none

/-- `_fsm_ntrt_init`, with `dmap_init`, and the init procedures of the puffers. -/
def init (component : Component) (w : World) : Option World := do
  let this ← w.var
  match component with
  | .fsm =>
    let (w, signal) := signalCtor w
    let (w, mutex) := mutexCtor w
    writeCell { w with sysdatMutex := some mutex } this (.fsm .stateHalt true (some signal))
  | .sgpuffer length =>
    let (w, puffer) := pufferCtor w length
    let (w, signal) := signalCtor w
    writeCell w this (.sgpuffer (some puffer) true true (some signal))
  | .recpuffer length =>
    let (w, puffer) := pufferCtor w length
    let (w, spin) := spinCtor w
    writeCell w this (.recpuffer (some puffer) true true (some spin))

/-- The loop of `GEN_PUFF_CLEAR_PROC`. -/
def clearLoop (itemDtor : Ptr → Memory Cell → Option (Memory Cell)) (puffer : Addr) :
    Nat → World → Option World
  | 0, _ => none
  | fuel + 1, w => do
    match ← w.mem.read puffer with
    | .puffer p =>
      if datapufferIsempty p then some w
      else do
        let w ← writeCell w puffer (.puffer (datapufferRead p).1)
        let mem ← itemDtor (datapufferRead p).2 w.mem
        clearLoop itemDtor puffer fuel { w with mem := mem }
    | _ => none

/-- Each round takes one item, so the loop has as many rounds as there are items. -/
def clearPuffer (itemDtor : Ptr → Memory Cell → Option (Memory Cell)) (w : World) (puffer : Ptr) :
    Option World := do
  let a ← puffer
  match ← w.mem.read a with
  | .puffer p => clearLoop itemDtor a (p.count.toNat + 1) w
  | _ => none

def deinit (itemDtor : Ptr → Memory Cell → Option (Memory Cell)) (component : Component) (w : World) :
    Option World :=
  match component with
  | .fsm => do
    let w ← mutexDtor w w.sysdatMutex
    match ← w.mem.load w.var with
    | .fsm _ _ signal => signalDtor w signal
    | _ => none
  | .sgpuffer _ => do
    match ← w.mem.load w.var with
    | .sgpuffer puffer _ _ signal => do
      let w ← clearPuffer itemDtor w puffer
      let w ← pufferDtor w puffer
      signalDtor w signal
    | _ => none
  | .recpuffer _ => do
    match ← w.mem.load w.var with
    | .recpuffer puffer _ _ spin => do
      let w ← clearPuffer itemDtor w puffer
      let w ← pufferDtor w puffer
      spinDtor w spin
    | _ => none

/-! ## The generated procedures -/

/-- `CMP_DEF_CTOR`; the components have no test. -/
def cmpCtor (component : Component) (w : World) : Option World :=
  match w.var with
  | some _ => some w
  | none => do
    let (w, var) := allocCell w (zeroed component)
    let w ← init component { w with var := some var }
    some { w with initialised := w.initialised ++ [var] }

/-- The deinit procedure would run on a live block that was initialised. -/
def deinitRight (w : World) : Bool :=
  match w.var with
  | none => false
  | some a => (w.mem.read a).isSome && w.initialised.contains a

/-- `CMP_DEF_DTOR` -/
def cmpDtor (itemDtor : Ptr → Memory Cell → Option (Memory Cell)) (component : Component) (w : World) :
    Option World := do
  let right := deinitRight w
  let w ← deinit itemDtor component w
  let w := { w with deinits := w.deinits ++ [right] }
  match w.var with
  | none => some w
  | some var => freeCell w var

inductive Call where
  | ctor
  | dtor
deriving DecidableEq, Repr

/-- The world and the last call. -/
structure Life where
  world : World
  last : Option Call
deriving DecidableEq, Repr

def lifeStep (itemDtor : Ptr → Memory Cell → Option (Memory Cell)) (component : Component) (s : Life) :
    Call → Option (Life × Unit)
  | .ctor => (cmpCtor component s.world).map fun w => ({ world := w, last := some .ctor }, ())
  | .dtor => (cmpDtor itemDtor component s.world).map fun w => ({ world := w, last := some .dtor }, ())

/-- Before the first call, with any other blocks in memory. -/
def atStart (mem : Memory Cell) : Life where
  world := { mem := mem, var := none, sysdatMutex := none, initialised := [], deinits := [] }
  last := none

end Devclego.Components
