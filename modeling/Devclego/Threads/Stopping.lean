import Devclego.Foundation.Machine
import Devclego.Threads.Model

/-!
# Starting and stopping one thread

One caller runs `start_thread` and later `stop_thread`, the new thread runs the entry
point that `LIB_DEF_THREAD` generates, and they share the state word. Each of its reads
and writes is a step of its own. `stop_thread` asks only a thread whose state is
`THREAD_STATE_RUN` to stop, so a thread that was created but has not stored that state
yet goes on to its main procedure.
-/
namespace Devclego.Threads

open Foundation

/-- The caller's next statement, in `start_thread` and then in `stop_thread`. -/
inductive CallerPc where
  | startCheck
  | startStore
  | create
  | stopCheck
  | stopStore
  | wait (wait : Nat)
  | limitCheck (wait : Nat)
  | readyStore
  | returned
deriving DecidableEq, Repr

/-- The next statement of the entry point. The main procedure is in its loop, or past it
and not yet returned. -/
inductive ThreadPc where
  | unborn
  | init
  | runStore
  | loop
  | afterLoop
  | stoppedStore
  | deinit
  | ended
deriving DecidableEq, Repr

def ThreadPc.BeforeRun (pc : ThreadPc) : Prop := pc = .init ∨ pc = .runStore

def ThreadPc.InMain (pc : ThreadPc) : Prop := pc = .loop ∨ pc = .afterLoop

/-- `state` is `thread->state`, and `none` when the pointer to the thread is null. -/
structure Lifetime where
  state : Option ThreadState
  caller : CallerPc
  thread : ThreadPc
  cancelled : Bool
deriving DecidableEq, Repr

/-- `wait_limit` -/
def waitLimit : Nat := 10

/-- `start_thread`, then `stop_thread`. -/
def callerStep (this : Lifetime) : Option Lifetime :=
  match this.caller with
  | .startCheck => some { this with caller := if this.state = some .ready then .startStore else .stopCheck }
  | .startStore => some { this with state := some .started, caller := .create }
  | .create => some { this with thread := .init, caller := .stopCheck }
  | .stopCheck => some { this with caller := if this.state = some .run then .stopStore else .returned }
  | .stopStore => some { this with state := some .stop, caller := .wait 0 }
  | .wait wait =>
    -- `wait` counts up only when the state was not yet `THREAD_STATE_STOPPED`
    if this.state = some .stopped then some { this with caller := .limitCheck wait }
    else if wait < waitLimit then some { this with caller := .wait (wait + 1) }
    else some { this with caller := .limitCheck (wait + 1) }
  | .limitCheck wait => some { this with cancelled := this.cancelled || waitLimit ≤ wait, caller := .readyStore }
  | .readyStore => some { this with state := some .ready, caller := .returned }
  | .returned => none

/-- The generated entry point, with the test of the main procedure's loop. -/
def entryStep (this : Lifetime) : Option Lifetime :=
  match this.thread with
  | .unborn => none
  | .init => some { this with thread := .runStore }
  | .runStore => some { this with state := some .run, thread := .loop }
  | .loop => some { this with thread := if this.state = some .run then .loop else .afterLoop }
  | .afterLoop => some { this with thread := .stoppedStore }
  | .stoppedStore => some { this with state := some .stopped, thread := .deinit }
  | .deinit => some { this with thread := .ended }
  | .ended => none

/-- Besides the statements of both sides, the main procedure may leave its loop for reasons
of its own, and a cancelled thread ends wherever it is. -/
inductive Turn where
  | caller
  | entry
  | leaves
  | dies
deriving DecidableEq, Repr

def lifetimeStep (this : Lifetime) (turn : Turn) : Option (Lifetime × Unit) :=
  match turn with
  | .caller => (callerStep this).map (·, ())
  | .entry => (entryStep this).map (·, ())
  | .leaves => if this.thread = .loop then some ({ this with thread := .afterLoop }, ()) else none
  | .dies =>
    if this.cancelled && this.thread ≠ .unborn then some ({ this with thread := .ended }, ()) else none

/-- Before `start_thread`, on a thread in any state. -/
def beforeStart (state : Option ThreadState) : Lifetime where
  state := state
  caller := .startCheck
  thread := .unborn
  cancelled := false

/-- Once `stop_thread` has returned without cancelling, the main procedure does not run, now
or later. -/
def ReallyStopped (this : Lifetime) : Prop :=
  this.caller = .returned → this.cancelled = false →
    ∀ turns this' outs, run lifetimeStep this turns = some (this', outs) → ¬ this'.thread.InMain

/-- `stop_thread` reads the state when a thread that was created has stored
`THREAD_STATE_RUN`. -/
def RunStored (this : Lifetime) : Turn → Prop
  | .caller => this.caller = .stopCheck → ¬ this.thread.BeforeRun
  | _ => True

/-! ## What each statement of the caller relies on -/

/-- The main procedure is not running and is not still to come. -/
def Over (pc : ThreadPc) : Prop := ¬ pc.BeforeRun ∧ ¬ pc.InMain

/-- What holds of the thread at each statement of the caller. -/
def Expected (this : Lifetime) : Prop :=
  match this.caller with
  | .startCheck | .startStore => this.thread = .unborn
  | .create => this.thread = .unborn ∧ this.state = some .started
  | .stopCheck =>
    (this.thread.BeforeRun → this.state = some .started) ∧ (this.thread.InMain → this.state = some .run)
  | .stopStore | .wait _ => ¬ this.thread.BeforeRun
  | .limitCheck wait => ¬ this.thread.BeforeRun ∧ (wait < waitLimit → Over this.thread)
  | .readyStore | .returned => ¬ this.thread.BeforeRun ∧ (this.cancelled = false → Over this.thread)

structure InStep (this : Lifetime) : Prop where
  expected : Expected this
  stopped : this.state = some .stopped → Over this.thread
  asked : this.cancelled = true → this.caller = .readyStore ∨ this.caller = .returned

variable {this this' : Lifetime}

theorem over_unborn : Over .unborn := by
  constructor <;> intro h <;> cases h <;> contradiction

theorem over_of_late {pc : ThreadPc} (h : pc = .stoppedStore ∨ pc = .deinit ∨ pc = .ended) : Over pc := by
  rcases h with rfl | rfl | rfl <;> constructor <;> intro h <;> cases h <;> contradiction

theorem inStep_beforeStart (state : Option ThreadState) : InStep (beforeStart state) where
  expected := rfl
  stopped := fun _ => over_unborn
  asked := fun hc => by cases hc

/-- Between its creation and its store of the state, the thread meets a caller that has
not asked it to stop. -/
theorem Expected.beforeRun (h : Expected this) (hpc : this.thread.BeforeRun) :
    this.caller = .stopCheck ∧ this.state = some .started := by
  obtain ⟨state, caller, thread, cancelled⟩ := this
  have hborn : thread ≠ .unborn := by
    rintro rfl
    exact over_unborn.1 hpc
  cases caller with
  | startCheck => exact absurd h hborn
  | startStore => exact absurd h hborn
  | create => exact absurd h.1 hborn
  | stopCheck => exact ⟨rfl, h.1 hpc⟩
  | stopStore => exact absurd hpc h
  | wait wait => exact absurd hpc h
  | limitCheck wait => exact absurd hpc h.1
  | readyStore => exact absurd hpc h.1
  | returned => exact absurd hpc h.1

/-- The caller cannot tell two states of a thread that was created apart by more than this. -/
theorem Expected.progress (h : Expected this) (hborn : this.thread ≠ .unborn) {pc : ThreadPc}
    (hbefore : pc.BeforeRun → this.thread.BeforeRun) (hmain : pc.InMain → this.thread.InMain) :
    Expected { this with thread := pc } := by
  have hover : Over this.thread → Over pc := fun ho => ⟨mt hbefore ho.1, mt hmain ho.2⟩
  obtain ⟨state, caller, thread, cancelled⟩ := this
  cases caller with
  | startCheck => exact absurd h hborn
  | startStore => exact absurd h hborn
  | create => exact absurd h.1 hborn
  | stopCheck => exact ⟨fun hpc => h.1 (hbefore hpc), fun hpc => h.2 (hmain hpc)⟩
  | stopStore => exact mt hbefore h
  | wait wait => exact mt hbefore h
  | limitCheck wait => exact ⟨mt hbefore h.1, fun hlt => hover (h.2 hlt)⟩
  | readyStore => exact ⟨mt hbefore h.1, fun hc => hover (h.2 hc)⟩
  | returned => exact ⟨mt hbefore h.1, fun hc => hover (h.2 hc)⟩

/-- Nothing is asked of the state word once the main procedure is over. -/
theorem Expected.finished (h : Expected this) (hborn : this.thread ≠ .unborn) {pc : ThreadPc} (hpc : Over pc)
    (state : Option ThreadState) : Expected { this with state := state, thread := pc } := by
  obtain ⟨old, caller, thread, cancelled⟩ := this
  cases caller with
  | startCheck => exact absurd h hborn
  | startStore => exact absurd h hborn
  | create => exact absurd h.1 hborn
  | stopCheck => exact ⟨fun hb => absurd hb hpc.1, fun hm => absurd hm hpc.2⟩
  | stopStore => exact hpc.1
  | wait wait => exact hpc.1
  | limitCheck wait => exact ⟨hpc.1, fun _ => hpc⟩
  | readyStore => exact ⟨hpc.1, fun _ => hpc⟩
  | returned => exact ⟨hpc.1, fun _ => hpc⟩

/-! ## One step -/

/-- The thread moves within the main procedure or within what comes before it. -/
theorem InStep.progress (h : InStep this) (hborn : this.thread ≠ .unborn) {pc : ThreadPc}
    (hbefore : pc.BeforeRun → this.thread.BeforeRun) (hmain : pc.InMain → this.thread.InMain) :
    InStep { this with thread := pc } where
  expected := h.expected.progress hborn hbefore hmain
  stopped := fun hs => ⟨mt hbefore (h.stopped hs).1, mt hmain (h.stopped hs).2⟩
  asked := h.asked

theorem InStep.finished (h : InStep this) (hborn : this.thread ≠ .unborn) {pc : ThreadPc} (hpc : Over pc)
    (state : Option ThreadState) : InStep { this with state := state, thread := pc } where
  expected := h.expected.finished hborn hpc state
  stopped := fun _ => hpc
  asked := h.asked

theorem entryStep_inStep (h : InStep this) (hstep : entryStep this = some this') : InStep this' := by
  obtain ⟨state, caller, thread, cancelled⟩ := this
  cases thread with
  | unborn => cases hstep
  | init =>
    cases hstep
    exact h.progress (by simp) (fun _ => Or.inl rfl) (fun hm => by cases hm <;> contradiction)
  | runStore =>
    cases hstep
    obtain ⟨hcaller, -⟩ := h.expected.beforeRun (Or.inr rfl)
    cases hcaller
    refine ⟨⟨fun hb => ?_, fun _ => rfl⟩, nofun, h.asked⟩
    cases hb <;> contradiction
  | loop =>
    cases hstep
    refine h.progress (by simp) (fun hb => ?_) (fun _ => Or.inl rfl)
    by_cases hrun : state = some .run
    · simp [hrun, ThreadPc.BeforeRun] at hb
    · simp [hrun, ThreadPc.BeforeRun] at hb
  | afterLoop =>
    cases hstep
    exact h.finished (by simp) (over_of_late (Or.inl rfl)) state
  | stoppedStore =>
    cases hstep
    exact h.finished (by simp) (over_of_late (Or.inr (Or.inl rfl))) _
  | deinit =>
    cases hstep
    exact h.finished (by simp) (over_of_late (Or.inr (Or.inr rfl))) state
  | ended => cases hstep

theorem callerStep_inStep (h : InStep this) (hguard : RunStored this .caller)
    (hstep : callerStep this = some this') : InStep this' := by
  obtain ⟨state, caller, thread, cancelled⟩ := this
  obtain ⟨hexpected, hstopped, hasked⟩ := h
  cases caller with
  | startCheck =>
    cases hstep
    have hunborn : thread = .unborn := hexpected
    subst hunborn
    refine ⟨?_, hstopped, fun hc => absurd (hasked hc) (by simp)⟩
    by_cases hready : state = some .ready
    · simp only [hready, ↓reduceIte]
      rfl
    · simp only [hready, ↓reduceIte]
      exact ⟨fun hb => absurd hb over_unborn.1, fun hm => absurd hm over_unborn.2⟩
  | startStore =>
    cases hstep
    exact ⟨⟨hexpected, rfl⟩, nofun, fun hc => absurd (hasked hc) (by simp)⟩
  | create =>
    cases hstep
    have hstarted : state = some .started := hexpected.2
    subst hstarted
    refine ⟨⟨fun _ => rfl, fun hm => ?_⟩, nofun, fun hc => absurd (hasked hc) (by simp)⟩
    cases hm <;> contradiction
  | stopCheck =>
    cases hstep
    have hstored : ¬ thread.BeforeRun := hguard rfl
    refine ⟨?_, hstopped, fun hc => absurd (hasked hc) (by simp)⟩
    by_cases hrun : state = some .run
    · simp only [hrun, ↓reduceIte]
      exact hstored
    · simp only [hrun, ↓reduceIte]
      exact ⟨hstored, fun _ => ⟨hstored, fun hm => hrun (hexpected.2 hm)⟩⟩
  | stopStore =>
    cases hstep
    exact ⟨hexpected, nofun, fun hc => absurd (hasked hc) (by simp)⟩
  | wait wait =>
    simp only [callerStep] at hstep
    split at hstep
    next hover =>
      cases hstep
      exact ⟨⟨hexpected, fun _ => hstopped hover⟩, hstopped, fun hc => absurd (hasked hc) (by simp)⟩
    next =>
      split at hstep
      next =>
        cases hstep
        exact ⟨hexpected, hstopped, fun hc => absurd (hasked hc) (by simp)⟩
      next hlimit =>
        cases hstep
        refine ⟨⟨hexpected, fun hlt => ?_⟩, hstopped, fun hc => absurd (hasked hc) (by simp)⟩
        exact absurd (Nat.lt_of_succ_lt hlt) hlimit
  | limitCheck wait =>
    cases hstep
    refine ⟨⟨hexpected.1, fun hc => hexpected.2 ?_⟩, hstopped, fun _ => Or.inl rfl⟩
    simp only [Bool.or_eq_false_iff, decide_eq_false_iff_not, Nat.not_le] at hc
    exact hc.2
  | readyStore =>
    cases hstep
    exact ⟨hexpected, nofun, fun _ => Or.inr rfl⟩
  | returned => cases hstep

theorem lifetimeStep_inStep {turn : Turn} (h : InStep this) (hguard : RunStored this turn)
    (hstep : lifetimeStep this turn = some (this', ())) : InStep this' := by
  cases turn with
  | caller => exact callerStep_inStep h hguard (silent_iff.mp hstep)
  | entry => exact entryStep_inStep h (silent_iff.mp hstep)
  | leaves =>
    rw [lifetimeStep] at hstep
    by_cases hloop : this.thread = .loop
    · rw [if_pos hloop] at hstep
      cases hstep
      refine h.progress (by rw [hloop]; simp) (fun hb => ?_) (fun _ => Or.inl hloop)
      cases hb <;> contradiction
    · rw [if_neg hloop] at hstep
      cases hstep
  | dies =>
    rw [lifetimeStep] at hstep
    by_cases hdies : (this.cancelled && this.thread ≠ .unborn) = true
    · rw [if_pos hdies] at hstep
      cases hstep
      have hborn : this.thread ≠ .unborn := of_decide_eq_true (Bool.and_eq_true_iff.mp hdies).2
      exact h.finished hborn (over_of_late (Or.inr (Or.inr rfl))) this.state
    · rw [if_neg hdies] at hstep
      cases hstep

/-! ## Whole runs -/

/-- What stays true once the caller has returned and the main procedure is over. -/
structure Settled (this : Lifetime) : Prop where
  caller : this.caller = .returned
  finished : Over this.thread

theorem Settled.step (h : Settled this) {turn : Turn} (hstep : lifetimeStep this turn = some (this', ())) :
    Settled this' := by
  obtain ⟨state, caller, thread, cancelled⟩ := this
  obtain ⟨hcaller, hover⟩ := h
  cases hcaller
  cases turn with
  | caller => cases hstep
  | entry =>
    cases thread with
    | unborn => cases hstep
    | init => exact absurd (Or.inl rfl) hover.1
    | runStore => exact absurd (Or.inr rfl) hover.1
    | loop => exact absurd (Or.inl rfl) hover.2
    | afterLoop => exact absurd (Or.inr rfl) hover.2
    | stoppedStore =>
      cases hstep
      exact ⟨rfl, over_of_late (Or.inr (Or.inl rfl))⟩
    | deinit =>
      cases hstep
      exact ⟨rfl, over_of_late (Or.inr (Or.inr rfl))⟩
    | ended => cases hstep
  | leaves =>
    have hloop : thread ≠ .loop := fun he => hover.2 (Or.inl he)
    rw [lifetimeStep, if_neg hloop] at hstep
    cases hstep
  | dies =>
    rw [lifetimeStep] at hstep
    split at hstep
    next =>
      cases hstep
      exact ⟨rfl, over_of_late (Or.inr (Or.inr rfl))⟩
    next => cases hstep

theorem InStep.reallyStopped (h : InStep this) : ReallyStopped this := by
  intro hcaller hcancelled turns this' outs hrun
  have hexpected := h.expected
  unfold Expected at hexpected
  rw [hcaller] at hexpected
  have hkept : ∀ (s : Lifetime) (turn : Turn) (s' : Lifetime) (out : Unit), Settled s → True →
      lifetimeStep s turn = some (s', out) → Settled s' := fun _ _ _ _ hs _ hstep => hs.step hstep
  have hsettled : Settled this' :=
    run_preserves hkept ⟨hcaller, hexpected.2 hcancelled⟩ (guarded_trivial this turns) hrun
  exact hsettled.finished.2

/-- A stop that comes before the store lets the thread enter its main procedure. -/
theorem InStep.too_early (h : InStep this) (hcaller : this.caller = .stopCheck)
    (hbefore : this.thread.BeforeRun) :
    ∃ this', lifetimeStep this .caller = some (this', ()) ∧ ¬ ReallyStopped this' := by
  obtain ⟨-, hstarted⟩ := h.expected.beforeRun hbefore
  have hcancelled : this.cancelled = false := by
    by_contra hc
    have hlate := h.asked ((Bool.not_eq_false _).mp hc)
    rw [hcaller] at hlate
    cases hlate <;> contradiction
  obtain ⟨state, caller, thread, cancelled⟩ := this
  cases hcaller
  cases hstarted
  cases hcancelled
  refine ⟨_, rfl, fun hstops => ?_⟩
  rcases hbefore with hinit | hstore
  · cases hinit
    exact hstops rfl rfl [.entry, .entry] _ _ rfl (Or.inl rfl)
  · cases hstore
    exact hstops rfl rfl [.entry] _ _ rfl (Or.inl rfl)

/-- `stop_thread` stops the thread exactly when it does not read the state between the
creation of the thread and its store of `THREAD_STATE_RUN`. -/
theorem stop_thread_iff (state : Option ThreadState) (turns : List Turn) :
    (∀ k this outs, run lifetimeStep (beforeStart state) (turns.take k) = some (this, outs) →
      ReallyStopped this) ↔ Guarded lifetimeStep RunStored (beforeStart state) turns := by
  refine prefixes_iff_guarded (fun s (h : InStep s) => h.reallyStopped) ?_ ?_ (inStep_beforeStart state) turns
  · intro s turn s' out h hstep
    refine ⟨fun hguard => lifetimeStep_inStep h hguard hstep, fun hgood => ?_⟩
    cases turn with
    | caller =>
      intro hcaller hbefore
      obtain ⟨s'', hstep', hbad⟩ := h.too_early hcaller hbefore
      cases hstep.symm.trans hstep'
      exact hbad hgood
    | entry => trivial
    | leaves => trivial
    | dies => trivial
  · intro s turn h hnone
    cases turn with
    | caller =>
      intro hcaller hbefore
      obtain ⟨s', hstep, -⟩ := h.too_early hcaller hbefore
      rw [hnone] at hstep
      cases hstep
    | entry => trivial
    | leaves => trivial
    | dies => trivial

/-- A thread is stopped right after it was started: the call returns at once, and the thread
enters its main procedure. -/
theorem stop_thread_too_early :
    ∃ this, run lifetimeStep (beforeStart (some .ready)) [.caller, .caller, .caller, .caller] =
        some (this, [(), (), (), ()]) ∧
      this.caller = .returned ∧ this.cancelled = false ∧
      (∃ later, run lifetimeStep this [.entry, .entry] = some (later, [(), ()]) ∧ later.thread = .loop) ∧
      ¬ ReallyStopped this := by
  refine ⟨_, rfl, by decide, by decide, ⟨_, rfl, by decide⟩, fun hstops => ?_⟩
  exact hstops rfl rfl [.entry, .entry] _ _ rfl (Or.inl rfl)

end Devclego.Threads
