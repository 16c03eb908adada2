import Devclego.Components.Model
import Devclego.Datamaps.Shutdown
import Devclego.Foundation.Strtol
import Devclego.Ini.Accepting

/-!
# The program

The state machine of `fsm.c` with its transitions, the configuration that a setup loads
(`fsm_actions.c`) and `program` of `main.c`. The components have no procedures yet, so
that starting and stopping them does nothing. What is printed is left out.
-/
namespace Devclego.Program

open Foundation Devclego.Components Devclego.Datamaps Devclego.Dictionaries Devclego.Ini

/-- An event of the machine: its number and the string that is its argument. -/
abbrev Event := BitVec 32 × Option Text

def eventStart : BitVec 32 := 64

def eventStop : BitVec 32 := 68

def eventSetup : BitVec 32 := 72

def eventShutdown : BitVec 32 := 76

/-- The thread table holds threads, with one destructor for all. -/
abbrev ThreadTable := Dmap Addr Unit (List (Unit × Addr))

/-- `fsm_t` with what its transitions touch: the strings of a configuration, the mutex of
the system data and the thread table. -/
structure Machine where
  current : FsmState
  stateStr : Text
  eventStr : Text
  mem : Mem
  sysdatLocked : Bool
  threads : ThreadTable
deriving DecidableEq, Repr

/-- What a transition comes to: the machine goes on, or the program exits with a code. -/
abbrev Step := Except Nat Machine

/-- `strcpy` into `char_t[255]` -/
def strcpy255 (s : Text) : Option Text := if s.length + 1 ≤ 255 then some s else none

/-- `_str_state`, of a state that is an enumerator. -/
def strState (state : FsmState) : Option Text :=
  match state with
  | .stateRun => strcpy255 (text "Run")
  | .stateHalt => strcpy255 (text "Halt")

/-- `_str_event`; an unknown number is printed into a buffer of the same size first. -/
def strEvent (event : BitVec 32) : Option Text :=
  if event = eventSetup then strcpy255 (text "Setup")
  else if event = eventShutdown then strcpy255 (text "Shutdown")
  else if event = eventStart then strcpy255 (text "Start")
  else if event = eventStop then strcpy255 (text "Stop")
  else (strcpy255 (text "Unknown (" ++ decimal event.toInt ++ text ")")).bind strcpy255

/-- A mutex that is locked already would never be given. -/
def dmapLockSysdat (this : Machine) : Option Machine :=
  if this.sysdatLocked then none else some { this with sysdatLocked := true }

def dmapUnlockSysdat (this : Machine) : Option Machine :=
  if this.sysdatLocked then some { this with sysdatLocked := false } else none

/-- `config_load_from_file`. The message for a file that does not open goes into
`char_t line[128]`. -/
def configLoadFromFile (files : Text → Option (List Byte)) (this : Machine) (filename : Text) : Option Step :=
  match files filename with
  | none => if (text "File read open error: " ++ filename ++ newline).length + 1 ≤ 128 then some (.error 3) else none
  | some _ => do
    match ← iniparserLoad (files filename) this.mem with
    | (none, _) => some (.error 3)
    | (some conf, mem) =>
      let this ← dmapLockSysdat { this with mem := mem }
      let mem ← dictionaryDel conf this.mem
      let this ← dmapUnlockSysdat { this with mem := mem }
      some (.ok this)

def sysSetup (files : Text → Option (List Byte)) (this : Machine) (configFile : Option Text) : Option Step :=
  match configFile with
  | none => some (.ok this)
  | some filename => configLoadFromFile files this filename

def fsmRunTrans (this : Machine) (event : BitVec 32) : FsmState :=
  if event = eventStop then .stateHalt else this.current

/-- `_fsm_halt_trans`, with the state that `_fsm_fire` then stores. -/
def fsmHaltTrans (files : Text → Option (List Byte)) (this : Machine) (event : BitVec 32) (arg : Option Text) :
    Option Step := do
  if event = eventSetup then
    let step ← sysSetup files this arg
    some (step.map fun this => { this with current := .stateHalt })
  else if event = eventStart then some (.ok { this with current := .stateRun })
  else if event = eventShutdown then
    let threads ← sysShutdown record this.threads
    some (.ok { this with threads := threads, current := .stateHalt })
  else some (.ok this)

def fsmFire (files : Text → Option (List Byte)) (this : Machine) (event : BitVec 32) (arg : Option Text) : Option Step := do
  let this := { this with eventStr := ← strEvent event }
  let this := { this with stateStr := ← strState this.current }
  let step ← match this.current with
    | .stateRun => some (.ok { this with current := fsmRunTrans this event })
    | .stateHalt => fsmHaltTrans files this event arg
  match step with
  | .error code => some (.error code)
  | .ok this => some (.ok { this with stateStr := ← strState this.current })

/-- The events that are fired one after the other. -/
def fireAll (files : Text → Option (List Byte)) : Machine → List Event → Option Step
  | this, [] => some (.ok this)
  | this, (event, arg) :: events => do
    match ← fsmFire files this event arg with
    | .error code => some (.error code)
    | .ok this => fireAll files this events

/-- After `fsm_ctor`: nothing initialises the thread table, which is static. -/
def constructed (mem : Mem) : Machine where
  current := .stateHalt
  stateStr := []
  eventStr := []
  mem := mem
  sysdatLocked := false
  threads := { mem := ⟨[]⟩, table := { size := 0, rwmutex := none, rows := [] }, world := [] }

/-! ## `main.c` -/

/-- The loop of `program`, for so many rounds: after how many seconds it ends. `running`
says what each test reads; `time` is the value of the option. -/
def programLoop (running : Nat → Bool) (time : Option Int) : Nat → Nat → Int → Option Nat
  | 0, _, _ => none
  | fuel + 1, slept, sec =>
    if running slept then
      match time with
      | none => programLoop running time fuel (slept + 1) sec
      | some ival =>
        if sec + 1 ≤ intMax then
          if ival < sec + 1 then some (slept + 1) else programLoop running time fuel (slept + 1) (sec + 1)
        else none
    else some slept

/-- `program`, with the seconds that it sleeps. -/
def program (files : Text → Option (List Byte)) (this : Machine) (running : Nat → Bool) (time : Option Int)
    (fuel : Nat) : Option (Step × Nat) := do
  match ← fireAll files this [(eventSetup, none), (eventStart, none)] with
  | .error code => some (.error code, 0)
  | .ok this =>
    let slept ← programLoop running time fuel 0 0
    let step ← fireAll files this [(eventStop, none), (eventShutdown, none)]
    some (step, slept)

end Devclego.Program
