import Mathlib.Data.Nat.Digits.Defs
import Devclego.Program.Model

/-!
# Every sequence of events

Whether the machine runs is decided by the last start or stop. A setup that is fired
while it is halted loads its configuration and frees it again, or it ends the program.
-/
namespace Devclego.Program

open Foundation Devclego.Components Devclego.Datamaps Devclego.Dictionaries Devclego.Ini

/-- The file that an argument names has no NUL bytes. -/
def NamesText (files : Text → Option (List Byte)) (arg : Option Text) : Prop :=
  ∀ name file, arg = some name → files name = some file → ∀ c ∈ file, c ≠ 0

/-- What a setup comes to. -/
inductive Setup where
  | loaded
  | exits
  | faults
deriving DecidableEq, Repr

/-- A file that does not open is reported if its name fits into the message. -/
def setupOf (files : Text → Option (List Byte)) : Option Text → Setup
  | none => .loaded
  | some filename =>
    match files filename with
    | none => if filename.length + 24 ≤ 128 then .exits else .faults
    | some file =>
      if ¬ Readable Progress.start (parsedLines file).1 then .faults
      else if (parsedLines file).2 = true ∨ lastEntry (parsedLines file).1 = some .bad then .exits
      else .loaded

/-- The last start or stop decides. -/
def modeAfter (mode : FsmState) (event : Event) : FsmState :=
  if event.1 = eventStart then .stateRun else if event.1 = eventStop then .stateHalt else mode

/-- The first setup of a halted machine that does not succeed. -/
def failingSetup (files : Text → Option (List Byte)) : FsmState → List Event → Setup
  | _, [] => .loaded
  | mode, event :: events =>
    if mode = .stateHalt ∧ event.1 = eventSetup ∧ setupOf files event.2 ≠ .loaded then setupOf files event.2
    else failingSetup files (modeAfter mode event) events

/-- Between two events: nothing is held, and the strings are those of others. -/
structure Settled (before : Addr → Option Text) (this : Machine) (mode : FsmState) : Prop where
  current : this.current = mode
  unlocked : this.sysdatLocked = false
  mem : this.mem.read = before
  threads : this.threads = (constructed ⟨[]⟩).threads

variable {files : Text → Option (List Byte)} {before : Addr → Option Text} {this : Machine} {mode : FsmState}

/-! ## Strings -/

theorem length_text (s : String) : (text s).length = s.length := by
  rw [text, List.length_map, String.length_toList]

theorem length_decimal (n : BitVec 32) : (decimal n.toInt).length ≤ 11 := by
  have hlow := BitVec.le_toInt n
  have hhigh := BitVec.toInt_lt (x := n)
  have hrepr : ∀ m : Nat, m < 10 ^ 10 → (Nat.repr m).length ≤ 10 := fun m hm => Nat.repr_length m 10 (by decide) hm
  rw [decimal, length_text]
  generalize n.toInt = i at hlow hhigh
  cases i with
  | ofNat m =>
    rw [Int.ofNat_eq_natCast] at hhigh
    have hm := hrepr m (by omega)
    show (Nat.repr m).length ≤ 11
    omega
  | negSucc m =>
    have hm := hrepr (m + 1) (by omega)
    show ("-" ++ Nat.repr (m + 1)).length ≤ 11
    rw [String.length_append]
    have hminus : "-".length = 1 := rfl
    omega

theorem strcpy255_some {s : Text} (h : s.length ≤ 254) : strcpy255 s = some s := if_pos (by omega)

/-- The buffers have room for the name of every event. -/
theorem strEvent_some (event : BitVec 32) : ∃ s, strEvent event = some s := by
  have hlength := length_decimal event
  have hfits : (text "Unknown (" ++ decimal event.toInt ++ text ")").length ≤ 254 := by
    rw [List.length_append, List.length_append, length_text, length_text]
    have hopen : "Unknown (".length = 9 := rfl
    have hclose : ")".length = 1 := rfl
    omega
  rw [strEvent, strcpy255_some hfits]
  split
  · exact ⟨_, rfl⟩
  · split
    · exact ⟨_, rfl⟩
    · split
      · exact ⟨_, rfl⟩
      · split
        · exact ⟨_, rfl⟩
        · exact ⟨_, strcpy255_some hfits⟩

theorem strState_some (state : FsmState) : ∃ s, strState state = some s := by
  cases state with
  | stateRun => exact ⟨_, rfl⟩
  | stateHalt => exact ⟨_, rfl⟩

/-! ## The configuration -/

/-- What a setup does. -/
inductive SetupResult (before : Addr → Option Text) (this : Machine) : Setup → Option Step → Prop where
  | loaded (mem : Mem) (h : mem.read = before) : SetupResult before this .loaded (some (.ok { this with mem := mem }))
  | exits : SetupResult before this .exits (some (.error 3))
  | faults : SetupResult before this .faults none

theorem sysSetup_spec {arg : Option Text} (harg : NamesText files arg) (hunlocked : this.sysdatLocked = false)
    (hmem : this.mem.read = before) :
    SetupResult before this (setupOf files arg) (sysSetup files this arg) := by
  cases arg with
  | none => exact .loaded this.mem hmem
  | some filename =>
    rw [setupOf, sysSetup, configLoadFromFile]
    cases hfile : files filename with
    | none =>
      have hlength : (text "File read open error: " ++ filename ++ newline).length + 1 = filename.length + 24 := by
        rw [List.length_append, List.length_append, length_text]
        have htext : "File read open error: ".length = 22 := rfl
        have hnewline : newline.length = 1 := rfl
        omega
      simp only [hlength]
      split
      · exact .exits
      · exact .faults
    | some file =>
      obtain ⟨hreads, hfaults⟩ := load_spec (harg filename file rfl hfile) this.mem
      by_cases hread : Readable Progress.start (parsedLines file).1
      · obtain ⟨r, mem', hload, houtcome⟩ := hreads hread
        have hzero := errs_eq_zero_iff (parsedLines file).1
        simp only [if_neg (not_not.mpr hread), hload, Option.bind_eq_bind, Option.bind_some]
        cases r with
        | none =>
          rw [if_pos (houtcome.1.imp_right fun h => not_not.mp (mt hzero.mpr h))]
          exact .exits
        | some conf =>
          obtain ⟨hbroken, herrs, rows, hrep, -⟩ := houtcome
          obtain ⟨mem'', hdel, hback⟩ := dictionaryDel_spec hrep
          have haccepted : ¬ ((parsedLines file).2 = true ∨ lastEntry (parsedLines file).1 = some .bad) := by
            rintro (hb | hbad)
            · cases hbroken.symm.trans hb
            · exact hzero.mp herrs hbad
          rw [if_neg haccepted]
          simp only [dmapLockSysdat, hunlocked, hdel, dmapUnlockSysdat, Bool.false_eq_true, ↓reduceIte, Option.bind_some]
          have hresult : { this with mem := mem'', sysdatLocked := false } = { this with mem := mem'' } := by
            rw [← hunlocked]
          rw [hresult]
          exact .loaded mem'' (hback.trans hmem)
      · simp only [if_pos hread, hfaults hread]
        exact .faults

/-! ## One event -/

/-- What firing an event does to a settled machine. -/
inductive FireResult (before : Addr → Option Text) (mode : FsmState) : Setup → Option Step → Prop where
  | loaded (this : Machine) (h : Settled before this mode) : FireResult before mode .loaded (some (.ok this))
  | exits : FireResult before mode .exits (some (.error 3))
  | faults : FireResult before mode .faults none

theorem sysShutdown_none (h : this.threads = (constructed ⟨[]⟩).threads) :
    sysShutdown record this.threads = some this.threads := by
  rw [h]
  exact sysShutdown_empty rfl fun row hrow => absurd hrow List.not_mem_nil

theorem fsmRunTrans_eq (h : this.current = .stateRun) (event : Event) :
    fsmRunTrans this event.1 = modeAfter .stateRun event := by
  rw [fsmRunTrans, modeAfter, h]
  by_cases hstart : event.1 = eventStart
  · rw [if_pos hstart, hstart, if_neg (by decide)]
  · rw [if_neg hstart]

/-- A halted machine answers any other event but a setup. -/
theorem fsmHaltTrans_spec (h : Settled before this .stateHalt) (event : Event) (hother : event.1 ≠ eventSetup) :
    ∃ next, fsmHaltTrans files this event.1 event.2 = some (.ok next) ∧ Settled before next (modeAfter .stateHalt event) := by
  rw [fsmHaltTrans, if_neg hother, modeAfter]
  by_cases hstart : event.1 = eventStart
  · rw [if_pos hstart, if_pos hstart]
    exact ⟨_, rfl, rfl, h.unlocked, h.mem, h.threads⟩
  · have hmode : (if event.1 = eventStop then FsmState.stateHalt else .stateHalt) = .stateHalt := ite_self _
    rw [if_neg hstart, if_neg hstart, hmode]
    by_cases hshutdown : event.1 = eventShutdown
    · rw [if_pos hshutdown, sysShutdown_none h.threads]
      exact ⟨_, rfl, rfl, h.unlocked, h.mem, h.threads⟩
    · rw [if_neg hshutdown]
      exact ⟨_, rfl, h⟩

/-- What follows when the event and the state have been printed. -/
theorem fsmFire_eq {named : Machine} {name shown : Text} {event : Event} (hname : strEvent event.1 = some name)
    (hshown : strState this.current = some shown) (hnamed : named = { this with eventStr := name, stateStr := shown }) :
    fsmFire files this event.1 event.2 =
      (match named.current with
        | .stateRun => some (Except.ok { named with current := fsmRunTrans named event.1 })
        | .stateHalt => fsmHaltTrans files named event.1 event.2).bind fun step : Step =>
      match step with
      | .error code => some (.error code)
      | .ok this => (strState this.current).bind fun s => some (Except.ok { this with stateStr := s }) := by
  subst hnamed
  rw [fsmFire, hname]
  simp only [Option.bind_eq_bind, Option.bind_some, hshown]
  cases this.current with
  | stateRun => rfl
  | stateHalt => rfl

theorem fsmFire_spec (h : Settled before this mode) (event : Event) (harg : NamesText files event.2) :
    FireResult before (modeAfter mode event)
      (if mode = .stateHalt ∧ event.1 = eventSetup then setupOf files event.2 else .loaded)
      (fsmFire files this event.1 event.2) := by
  obtain ⟨name, hname⟩ := strEvent_some event.1
  obtain ⟨shown, hshown⟩ := strState_some this.current
  obtain ⟨named, hnamed⟩ : ∃ named : Machine, named = { this with eventStr := name, stateStr := shown } := ⟨_, rfl⟩
  have hsettled : Settled before named mode := by
    rw [hnamed]
    exact ⟨h.current, h.unlocked, h.mem, h.threads⟩
  -- what the transition leaves is printed, which changes nothing else
  have hprinted : ∀ next mode', Settled before next mode' → FireResult before mode' .loaded
      ((strState next.current).bind fun s => some (.ok { next with stateStr := s })) := by
    intro next mode' hnext
    obtain ⟨final, hfinal⟩ := strState_some next.current
    rw [hfinal, Option.bind_some]
    exact .loaded _ ⟨hnext.current, hnext.unlocked, hnext.mem, hnext.threads⟩
  rw [fsmFire_eq hname hshown hnamed, hsettled.current]
  cases mode with
  | stateRun =>
    rw [if_neg fun hs => by cases hs.1]
    refine hprinted { named with current := fsmRunTrans named event.1 } _ ?_
    exact ⟨fsmRunTrans_eq hsettled.current event, hsettled.unlocked, hsettled.mem, hsettled.threads⟩
  | stateHalt =>
    by_cases hsetup : event.1 = eventSetup
    · have hmode : modeAfter .stateHalt event = .stateHalt := by
        rw [modeAfter, hsetup, if_neg (by decide), ite_self]
      have hresult := sysSetup_spec harg hsettled.unlocked hsettled.mem
      rw [if_pos ⟨rfl, hsetup⟩, hmode, fsmHaltTrans, if_pos hsetup]
      generalize setupOf files event.2 = setup at hresult
      generalize sysSetup files named event.2 = step at hresult
      cases hresult with
      | loaded mem hmem =>
        refine hprinted { named with mem := mem, current := .stateHalt } _ ?_
        exact ⟨rfl, hsettled.unlocked, hmem, hsettled.threads⟩
      | exits => exact .exits
      | faults => exact .faults
    · obtain ⟨next, htrans, hnext⟩ := @fsmHaltTrans_spec files before named hsettled event hsetup
      rw [if_neg fun hs => hsetup hs.2]
      dsimp only
      rw [htrans]
      exact hprinted next _ hnext

/-! ## All events -/

theorem fireAll_spec (h : Settled before this mode) (events : List Event) (hargs : ∀ event ∈ events, NamesText files event.2) :
    FireResult before (events.foldl modeAfter mode) (failingSetup files mode events) (fireAll files this events) := by
  induction events generalizing this mode with
  | nil => exact .loaded this h
  | cons event events ih =>
    have hfire := fsmFire_spec h event (hargs event (List.mem_cons_self ..))
    have hrest := fun e he => hargs e (List.mem_cons_of_mem event he)
    rw [failingSetup, fireAll, List.foldl_cons]
    by_cases hsetup : mode = .stateHalt ∧ event.1 = eventSetup
    · rw [if_pos hsetup] at hfire
      generalize hset : setupOf files event.2 = setup at hfire
      generalize fsmFire files this event.1 event.2 = step at hfire
      cases hfire with
      | loaded next hnext =>
        rw [if_neg fun hs => hs.2.2 rfl]
        exact ih hnext hrest
      | exits =>
        rw [if_pos ⟨hsetup.1, hsetup.2, by decide⟩]
        exact .exits
      | faults =>
        rw [if_pos ⟨hsetup.1, hsetup.2, by decide⟩]
        exact .faults
    · rw [if_neg hsetup] at hfire
      rw [if_neg fun hs => hsetup ⟨hs.1, hs.2.1⟩]
      generalize fsmFire files this event.1 event.2 = step at hfire
      cases hfire with
      | loaded next hnext => exact ih hnext hrest

theorem settled_constructed (mem : Mem) : Settled mem.read (constructed mem) .stateHalt := ⟨rfl, rfl, rfl, rfl⟩

/-- A configuration file. -/
def serverFiles (name : Text) : Option (List Byte) := if name = text "devclego.ini" then some serverIni else none

def serverEvents : List Event :=
  [(eventSetup, some (text "devclego.ini")), (eventStart, none), (eventSetup, some (text "none.ini"))]

theorem names_serverFiles : ∀ event ∈ serverEvents, NamesText serverFiles event.2 := by
  intro event hevent name file hname hfile
  rw [serverFiles] at hfile
  split at hfile
  · cases hfile
    decide
  · cases hfile

end Devclego.Program
