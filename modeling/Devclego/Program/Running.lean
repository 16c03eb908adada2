import Devclego.Program.Events

/-!
# How long the program runs

The loop of `program` ends at the first test that reads the flag of the signal handler,
or one second after the time that was given. Then the machine is stopped and shut down.
-/
namespace Devclego.Program

open Foundation Devclego.Components Devclego.Dictionaries

/-- After how many seconds the option ends the loop. -/
def limit (time : Option Int) : Option Nat := time.map fun ival => (max ival 0 + 1).toNat

/-- The loop ends after so many seconds, for the first time. -/
structure EndsAfter (running : Nat → Bool) (time : Option Int) (n : Nat) : Prop where
  ends : running n = false ∨ limit time = some n
  before : ∀ k < n, running k = true ∧ limit time ≠ some k
  /-- The seconds that are counted fit into an `int`. -/
  counted : ∀ ival, time = some ival → (n : Int) ≤ intMax

/-- The variables of the loop at a test. -/
structure Waiting (running : Nat → Bool) (time : Option Int) (slept : Nat) (sec : Int) : Prop where
  sec : ∀ ival, time = some ival → sec = slept
  below : ∀ ival, time = some ival → (slept : Int) ≤ max ival 0
  before : ∀ k < slept, running k = true
  counted : ∀ ival, time = some ival → (slept : Int) ≤ intMax

variable {running : Nat → Bool} {time : Option Int} {slept n : Nat} {sec : Int}

theorem Waiting.limit (h : Waiting running time slept sec) {k : Nat} (hk : k ≤ slept) : limit time ≠ some k := by
  intro hlimit
  obtain ⟨ival, htime, hk'⟩ := Option.map_eq_some_iff.mp hlimit
  have hbelow := h.below ival htime
  omega

/-- A second that does not end the loop. -/
theorem Waiting.sleep (h : Waiting running time slept sec) (hrunning : running slept = true) {sec' : Int}
    (hsec : ∀ ival, time = some ival → sec' = slept + 1 ∧ ¬ ival < slept + 1 ∧ (slept : Int) + 1 ≤ intMax) :
    Waiting running time (slept + 1) sec' where
  sec := by
    intro ival htime
    rw [(hsec ival htime).1]
    rfl
  below := by
    intro ival htime
    have hover := (hsec ival htime).2.1
    push_cast
    omega
  before := by
    intro k hk
    rcases Nat.lt_succ_iff_lt_or_eq.mp hk with hk | rfl
    · exact h.before k hk
    · exact hrunning
  counted := by
    intro ival htime
    exact (hsec ival htime).2.2

theorem programLoop_sound (fuel : Nat) (h : Waiting running time slept sec)
    (hloop : programLoop running time fuel slept sec = some n) : EndsAfter running time n := by
  induction fuel generalizing slept sec with
  | zero => cases hloop
  | succ fuel ih =>
    unfold programLoop at hloop
    by_cases hrunning : running slept = true
    · rw [if_pos hrunning] at hloop
      cases htime : time with
      | none =>
        subst htime
        exact ih (h.sleep hrunning nofun) hloop
      | some ival =>
        subst htime
        have hsec := h.sec ival rfl
        have hbelow := h.below ival rfl
        simp only [hsec] at hloop
        by_cases hcount : (slept : Int) + 1 ≤ intMax
        · rw [if_pos hcount] at hloop
          by_cases hover : ival < slept + 1
          · rw [if_pos hover] at hloop
            cases hloop
            refine ⟨Or.inr ?_, fun k hk => ⟨?_, h.limit (Nat.le_of_lt_succ hk)⟩, fun _ _ => hcount⟩
            · rw [Program.limit, Option.map_some, Option.some.injEq]
              omega
            · rcases Nat.lt_succ_iff_lt_or_eq.mp hk with hk | rfl
              · exact h.before k hk
              · exact hrunning
          · rw [if_neg hover] at hloop
            refine ih (h.sleep hrunning fun i hi => ?_) hloop
            cases hi
            exact ⟨rfl, hover, hcount⟩
        · rw [if_neg hcount] at hloop
          cases hloop
    · rw [if_neg hrunning] at hloop
      cases hloop
      exact ⟨Or.inl (Bool.eq_false_iff.mpr hrunning), fun k hk => ⟨h.before k hk, h.limit (Nat.le_of_lt hk)⟩, h.counted⟩

theorem programLoop_complete (rounds : Nat) (h : Waiting running time slept sec) (hends : EndsAfter running time n)
    (hrounds : slept + rounds = n) : programLoop running time (rounds + 1) slept sec = some n := by
  induction rounds generalizing slept sec with
  | zero =>
    have hn : slept = n := hrounds
    subst hn
    have hrunning := hends.ends.resolve_right (h.limit (Nat.le_refl slept))
    unfold programLoop
    rw [if_neg (by rw [hrunning]; exact Bool.false_ne_true)]
  | succ rounds ih =>
    have hrunning := (hends.before slept (by omega)).1
    unfold programLoop
    rw [if_pos hrunning]
    cases htime : time with
    | none =>
      subst htime
      exact ih (h.sleep hrunning nofun) (by omega)
    | some ival =>
      subst htime
      have hsec := h.sec ival rfl
      have hbelow := h.below ival rfl
      have hcount := hends.counted ival rfl
      dsimp only
      rw [hsec, if_pos (by omega)]
      by_cases hover : ival < slept + 1
      · -- the limit is reached, which cannot be before `n`
        have hlimit : limit (some ival) = some (slept + 1) := by
          rw [limit, Option.map_some, Option.some.injEq]
          omega
        by_cases hlast : slept + 1 = n
        · rw [if_pos hover, hlast]
        · exact absurd hlimit (hends.before (slept + 1) (by omega)).2
      · rw [if_neg hover]
        refine ih (h.sleep hrunning fun i hi => ?_) (by omega)
        cases hi
        exact ⟨rfl, hover, by omega⟩

theorem waiting_start (running : Nat → Bool) (time : Option Int) : Waiting running time 0 0 where
  sec := fun _ _ => rfl
  below := by
    intro ival _
    have hzero : (0 : Int) ≤ max ival 0 := le_max_right ..
    exact hzero
  before := nofun
  counted := fun _ _ => by decide

/-- The loop can end after so many seconds, given enough rounds. -/
theorem programLoop_ends_iff (running : Nat → Bool) (time : Option Int) (n : Nat) :
    (∃ fuel, programLoop running time fuel 0 0 = some n) ↔ EndsAfter running time n := by
  constructor
  · rintro ⟨fuel, hloop⟩
    exact programLoop_sound fuel (waiting_start running time) hloop
  · intro hends
    exact ⟨n + 1, programLoop_complete n (waiting_start running time) hends (Nat.zero_add n)⟩

/-- The events around the loop set up nothing, and leave the machine halted. -/
theorem program_fires (files : Text → Option (List Byte)) (mem : Mem) :
    ∃ stopped, Settled mem.read stopped .stateHalt ∧ ∀ running time fuel,
      program files (constructed mem) running time fuel =
        (programLoop running time fuel 0 0).map fun slept => (.ok stopped, slept) := by
  have hnone : ∀ events : List Event, (∀ event ∈ events, event.2 = none) → ∀ event ∈ events, NamesText files event.2 := by
    intro events hevents event hevent name file hname
    rw [hevents event hevent] at hname
    cases hname
  obtain ⟨started, hstart, hstarted⟩ : ∃ this, fireAll files (constructed mem) [(eventSetup, none), (eventStart, none)] =
      some (.ok this) ∧ Settled mem.read this .stateRun := by
    have hresult := fireAll_spec (settled_constructed mem) [(eventSetup, none), (eventStart, none)] (hnone _ (by simp))
    generalize fireAll files (constructed mem) [(eventSetup, none), (eventStart, none)] = step at hresult
    cases hresult with
    | loaded this h => exact ⟨this, rfl, h⟩
  obtain ⟨stopped, hstop, hstopped⟩ : ∃ this, fireAll files started [(eventStop, none), (eventShutdown, none)] =
      some (.ok this) ∧ Settled mem.read this .stateHalt := by
    have hresult := fireAll_spec hstarted [(eventStop, none), (eventShutdown, none)] (hnone _ (by simp))
    generalize fireAll files started [(eventStop, none), (eventShutdown, none)] = step at hresult
    cases hresult with
    | loaded this h => exact ⟨this, rfl, h⟩
  refine ⟨stopped, hstopped, fun running time fuel => ?_⟩
  rw [program, hstart]
  simp only [Option.bind_eq_bind, Option.bind_some, hstop]
  cases programLoop running time fuel 0 0 <;> rfl

/-- The program ends after so many seconds just when the flag or the option says so
then and not before; it has stopped and shut down the machine and exits by itself. -/
theorem program_ends_iff (files : Text → Option (List Byte)) (mem : Mem) (running : Nat → Bool) (time : Option Int) (n : Nat) :
    ((∃ step fuel, program files (constructed mem) running time fuel = some (step, n)) ↔ EndsAfter running time n) ∧
    ∀ step fuel, program files (constructed mem) running time fuel = some (step, n) →
      ∃ this, step = .ok this ∧ this.current = .stateHalt ∧ this.sysdatLocked = false ∧ this.mem.read = mem.read := by
  obtain ⟨stopped, hstopped, hprogram⟩ := program_fires files mem
  have hmap : ∀ step fuel, program files (constructed mem) running time fuel = some (step, n) ↔
      programLoop running time fuel 0 0 = some n ∧ step = .ok stopped := by
    intro step fuel
    rw [hprogram, Option.map_eq_some_iff]
    constructor
    · rintro ⟨slept, hloop, he⟩
      cases he
      exact ⟨hloop, rfl⟩
    · rintro ⟨hloop, rfl⟩
      exact ⟨n, hloop, rfl⟩
  refine ⟨⟨?_, fun hends => ?_⟩, ?_⟩
  · rintro ⟨step, fuel, h⟩
    exact (programLoop_ends_iff running time n).mp ⟨fuel, ((hmap step fuel).mp h).1⟩
  · obtain ⟨fuel, hloop⟩ := (programLoop_ends_iff running time n).mpr hends
    exact ⟨.ok stopped, fuel, (hmap _ fuel).mpr ⟨hloop, rfl⟩⟩
  · intro step fuel h
    exact ⟨stopped, ((hmap step fuel).mp h).2, hstopped.current, hstopped.unlocked, hstopped.mem⟩

end Devclego.Program
