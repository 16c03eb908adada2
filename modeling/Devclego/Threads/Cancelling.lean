import Devclego.Foundation.Traced
import Devclego.Threads.Stopping

/-!
# When a thread is cancelled

`stop_thread` reads the state word once before each of its sleeps and once after the last.
The counter it decides by does not tell what that last read found.
-/
namespace Devclego.Threads

open Foundation Traced

/-- What `stop_thread` does, in order. -/
inductive StopAct where
  | read (state : ThreadState)
  | store (state : ThreadState)
  | sleep (ms : Nat)
  | cancel
  | warn (text : String)
deriving DecidableEq, Repr

/-- The waiting loop from the read that it makes with the counter at `wait`, and the counter
after the loop. The state word shows `reads n` at read number `n`. -/
def waitLoop (reads : Nat → ThreadState) (wait : Nat) : Traced StopAct Nat := do
  let state ← access (.read (reads wait)) (reads wait)
  if state = .stopped then pure wait
  else if wait < waitLimit then do
    access (.sleep 50) ()
    waitLoop reads (wait + 1)
  else pure (wait + 1)
termination_by waitLimit - wait

/-- `stop_thread`, with what `thread->state` is when it returns. -/
def stopThreadWith (reads : Nat → ThreadState) (thread : Option ThreadState) :
    Traced StopAct (Option ThreadState) :=
  match thread with
  | none => access (.warn "Thread stop is called and the desired thread is not in run state") none
  | some state => do
    let state ← access (.read state) state
    if state ≠ .run then
      access (.warn "Thread stop is called and the desired thread is not in run state") (some state)
    else do
      access (.store .stop) ()
      let wait ← waitLoop reads 0
      if waitLimit ≤ wait then do
        access (.warn "thread must be cancelled") ()
        access .cancel ()
        access (.store .ready) (some .ready)
      else access (.store .ready) (some .ready)

/-- A thread is cancelled just when it was not seen to stop. -/
structure CancelsJustly (stopping : Traced StopAct (Option ThreadState)) : Prop where
  cancel : StopAct.cancel ∈ stopping.accesses ↔ StopAct.read .stopped ∉ stopping.accesses
  sleeps : stopping.accesses.countP (· matches .sleep _) ≤ waitLimit
  ready : stopping.result = some .ready ∧ stopping.accesses.getLast? = some (.store .ready)

/-- If the last read shows the thread stopped, so does an earlier one. -/
def StopSeenInTime (reads : Nat → ThreadState) : Prop :=
  reads waitLimit = .stopped → ∃ i < waitLimit, reads i = .stopped

variable {reads : Nat → ThreadState} {wait : Nat}

/-! ## The waiting loop -/

theorem waitLoop_stopped (h : reads wait = .stopped) : waitLoop reads wait = ⟨wait, [.read .stopped]⟩ := by
  rw [waitLoop, h]
  rfl

theorem waitLoop_sleep (h : reads wait ≠ .stopped) (hlt : wait < waitLimit) :
    waitLoop reads wait = ⟨(waitLoop reads (wait + 1)).result,
      .read (reads wait) :: .sleep 50 :: (waitLoop reads (wait + 1)).accesses⟩ := by
  rw [waitLoop]
  simp only [bind, access, h, hlt, ↓reduceIte]
  rfl

theorem waitLoop_over (h : reads wait ≠ .stopped) (hlt : ¬ wait < waitLimit) :
    waitLoop reads wait = ⟨wait + 1, [.read (reads wait)]⟩ := by
  rw [waitLoop]
  simp only [bind, access, h, hlt, ↓reduceIte]
  rfl

/-- The reads and sleeps before read number `last`. -/
def waiting (reads : Nat → ThreadState) (wait last : Nat) : List StopAct :=
  (List.range' wait (last - wait)).flatMap fun i => [.read (reads i), .sleep 50]

theorem waiting_self : waiting reads wait wait = [] := by
  rw [waiting, Nat.sub_self]
  rfl

theorem waiting_succ {last : Nat} (h : wait + 1 ≤ last) :
    waiting reads wait last = .read (reads wait) :: .sleep 50 :: waiting reads (wait + 1) last := by
  obtain ⟨k, rfl⟩ := Nat.exists_eq_add_of_le h
  rw [waiting, waiting, show wait + 1 + k - wait = k + 1 from by omega, Nat.add_sub_cancel_left, List.range'_succ,
    List.flatMap_cons]
  rfl

/-- How the loop ends: the state was seen at read number `last`, or that is the last read
and it was not. -/
structure WaitedTo (reads : Nat → ThreadState) (wait last : Nat) (t : Traced StopAct Nat) : Prop where
  reached : wait ≤ last ∧ last ≤ waitLimit
  accesses : t.accesses = waiting reads wait last ++ [.read (reads last)]
  earlier : ∀ i, wait ≤ i → i < last → reads i ≠ .stopped
  exit : reads last = .stopped ∧ t.result = last ∨
    last = waitLimit ∧ reads last ≠ .stopped ∧ t.result = waitLimit + 1

theorem waitLoop_spec (reads : Nat → ThreadState) (hle : wait ≤ waitLimit) :
    ∃ last, WaitedTo reads wait last (waitLoop reads wait) := by
  obtain ⟨left, hleft⟩ := Nat.exists_eq_add_of_le hle
  induction left generalizing wait with
  | zero =>
    have hlast : wait = waitLimit := by omega
    refine ⟨wait, ⟨Nat.le_refl wait, hle⟩, ?_, by omega, ?_⟩
    · by_cases hstopped : reads wait = .stopped
      · rw [waitLoop_stopped hstopped, waiting_self, hstopped]
        rfl
      · rw [waitLoop_over hstopped (by omega), waiting_self]
        rfl
    · by_cases hstopped : reads wait = .stopped
      · rw [waitLoop_stopped hstopped]
        exact Or.inl ⟨hstopped, rfl⟩
      · rw [waitLoop_over hstopped (by omega)]
        exact Or.inr ⟨hlast, hstopped, by rw [hlast]⟩
  | succ left ih =>
    by_cases hstopped : reads wait = .stopped
    · refine ⟨wait, ⟨Nat.le_refl wait, hle⟩, ?_, by omega, Or.inl ⟨hstopped, ?_⟩⟩
      · rw [waitLoop_stopped hstopped, waiting_self, hstopped]
        rfl
      · rw [waitLoop_stopped hstopped]
    · have hnext : wait + 1 ≤ waitLimit := by omega
      obtain ⟨last, hreached, haccesses, hearlier, hexit⟩ := ih hnext (by omega)
      refine ⟨last, ⟨by omega, hreached.2⟩, ?_, ?_, ?_⟩
      · rw [waitLoop_sleep hstopped (by omega), haccesses, waiting_succ hreached.1]
        rfl
      · intro i hi hlt
        rcases Nat.lt_or_ge wait i with hlater | hnow
        · exact hearlier i hlater hlt
        · rwa [Nat.le_antisymm hnow hi]
      · rw [waitLoop_sleep hstopped (by omega)]
        exact hexit

theorem mem_waiting {act : StopAct} {last : Nat} :
    act ∈ waiting reads wait last ↔ ∃ i, wait ≤ i ∧ i < last ∧ (act = .read (reads i) ∨ act = .sleep 50) := by
  simp only [waiting, List.mem_flatMap, List.mem_range'_1, List.mem_cons, List.not_mem_nil, or_false]
  constructor
  · rintro ⟨i, hi, hact⟩
    exact ⟨i, hi.1, by omega, hact⟩
  · rintro ⟨i, hi, hlt, hact⟩
    exact ⟨i, ⟨hi, by omega⟩, hact⟩

theorem countP_waiting (reads : Nat → ThreadState) {last : Nat} (h : wait ≤ last) :
    (waiting reads wait last).countP (· matches .sleep _) = last - wait := by
  obtain ⟨k, rfl⟩ := Nat.exists_eq_add_of_le h
  rw [Nat.add_sub_cancel_left]
  induction k generalizing wait with
  | zero => rw [Nat.add_zero, waiting_self, List.countP_nil]
  | succ k ih =>
    have hrest := ih (Nat.le_add_right (wait + 1) k)
    rw [waiting_succ (by omega), List.countP_cons_of_neg (by simp), List.countP_cons_of_pos rfl,
      show wait + (k + 1) = wait + 1 + k from by omega, hrest]

/-! ## The call -/

theorem WaitedTo.limit_iff {t : Traced StopAct Nat} {last : Nat} (h : WaitedTo reads wait last t) :
    waitLimit ≤ t.result ↔ last = waitLimit := by
  have hle := h.reached.2
  rcases h.exit with ⟨-, hresult⟩ | ⟨hlast, -, hresult⟩ <;> omega

theorem stopThreadWith_spec (reads : Nat → ThreadState) :
    ∃ last, WaitedTo reads 0 last (waitLoop reads 0) ∧
      (stopThreadWith reads (some .run)).result = some .ready ∧
      (stopThreadWith reads (some .run)).accesses =
        [.read .run, .store .stop] ++ (waiting reads 0 last ++ [.read (reads last)]) ++
          (if last = waitLimit then [.warn "thread must be cancelled", .cancel] else []) ++ [.store .ready] := by
  obtain ⟨last, h⟩ := waitLoop_spec reads (Nat.zero_le waitLimit)
  refine ⟨last, h, ?_⟩
  rw [← h.accesses]
  by_cases hcancel : waitLimit ≤ (waitLoop reads 0).result
  · simp [stopThreadWith, bind, access, hcancel, h.limit_iff.mp hcancel]
  · simp [stopThreadWith, bind, access, hcancel, mt h.limit_iff.mpr hcancel]

/-- Where the call stops waiting decides what it does. -/
theorem stopThreadWith_outcome (reads : Nat → ThreadState) :
    ∃ last, WaitedTo reads 0 last (waitLoop reads 0) ∧
      (StopAct.cancel ∈ (stopThreadWith reads (some .run)).accesses ↔ last = waitLimit) ∧
      (StopAct.read .stopped ∈ (stopThreadWith reads (some .run)).accesses ↔ reads last = .stopped) ∧
      (stopThreadWith reads (some .run)).accesses.countP (· matches .sleep _) = last := by
  obtain ⟨last, h, -, haccesses⟩ := stopThreadWith_spec reads
  have hsleeps := countP_waiting reads (Nat.zero_le last)
  have hseen : StopAct.read .stopped ∈ waiting reads 0 last ++ [.read (reads last)] ↔ reads last = .stopped := by
    rw [List.mem_append, mem_waiting, List.mem_singleton]
    constructor
    · rintro (⟨i, hi, hlt, hact | hact⟩ | hact)
      · exact absurd (StopAct.read.inj hact).symm (h.earlier i hi hlt)
      · cases hact
      · exact (StopAct.read.inj hact).symm
    · intro hstopped
      rw [hstopped]
      exact Or.inr rfl
  rw [haccesses]
  refine ⟨last, h, ?_⟩
  by_cases hcancel : last = waitLimit
  · subst hcancel
    rw [if_pos rfl]
    refine ⟨by simp, ?_, by simp [hsleeps]⟩
    rw [← hseen]
    simp
  · rw [if_neg hcancel]
    refine ⟨by simp [hcancel, mem_waiting], ?_, by simp [hsleeps]⟩
    rw [← hseen]
    simp

theorem cancel_iff (reads : Nat → ThreadState) :
    StopAct.cancel ∈ (stopThreadWith reads (some .run)).accesses ↔ waitLimit ≤ (waitLoop reads 0).result := by
  obtain ⟨last, h, hcancel, -⟩ := stopThreadWith_outcome reads
  rw [hcancel, h.limit_iff]

/-- `stop_thread` cancels the thread just when it was not seen to stop, unless the read after
the last sleep is the first that shows it stopped. -/
theorem stop_thread_cancels_justly_iff (reads : Nat → ThreadState) :
    CancelsJustly (stopThreadWith reads (some .run)) ↔ StopSeenInTime reads := by
  obtain ⟨last, h, hcancel, hseen, hsleeps⟩ := stopThreadWith_outcome reads
  have hexit : reads last = .stopped ∨ last = waitLimit := h.exit.imp And.left And.left
  constructor
  · intro hjust hstopped
    by_contra hlate
    have hcontrary := hcancel.symm.trans hjust.cancel
    rw [hseen] at hcontrary
    rcases hexit with hlast | hlast
    · have hne : last ≠ waitLimit := fun he => hcontrary.mp he hlast
      exact hlate ⟨last, Nat.lt_of_le_of_ne h.reached.2 hne, hlast⟩
    · rw [← hlast] at hstopped
      exact hcontrary.mp hlast hstopped
  · intro hintime
    obtain ⟨_, _, hresult, haccesses⟩ := stopThreadWith_spec reads
    refine ⟨?_, hsleeps ▸ h.reached.2, hresult, ?_⟩
    · rw [hcancel, hseen]
      constructor
      · intro hlast hstopped
        rw [hlast] at hstopped
        obtain ⟨i, hlt, hi⟩ := hintime hstopped
        exact h.earlier i (Nat.zero_le i) (hlast ▸ hlt) hi
      · intro hrunning
        exact hexit.resolve_left hrunning
    · rw [haccesses, List.getLast?_concat]

/-- The thread stops during the last sleep. It is seen to, and cancelled. -/
theorem stop_thread_cancels_stopped :
    let reads := fun i => if i < 10 then ThreadState.stop else .stopped
    (∀ i, reads i = .stopped → reads (i + 1) = .stopped) ∧
      StopAct.read .stopped ∈ (stopThreadWith reads (some .run)).accesses ∧
      StopAct.cancel ∈ (stopThreadWith reads (some .run)).accesses ∧
      ¬ CancelsJustly (stopThreadWith reads (some .run)) := by
  intro reads
  have hstays : ∀ i, reads i = .stopped → reads (i + 1) = .stopped := by
    intro i hi
    have hlate : ¬ i < 10 := fun hlt => by simp [reads, hlt] at hi
    exact if_neg (by omega)
  obtain ⟨last, h, hcancel, hseen, -⟩ := stopThreadWith_outcome reads
  have hlast : last = waitLimit := by
    by_contra hne
    have hstopped : reads last = .stopped := (h.exit.imp And.left And.left).resolve_right hne
    have hearly : reads last = .stop := if_pos (Nat.lt_of_le_of_ne h.reached.2 hne)
    rw [hearly] at hstopped
    cases hstopped
  subst hlast
  have hread := hseen.mpr rfl
  exact ⟨hstays, hread, hcancel.mpr rfl, fun hjust => hjust.cancel.mp (hcancel.mpr rfl) hread⟩

/-! ## The call among the steps of both sides -/

/-- The call ends with what it does to a thread at once. -/
theorem stopThread_eq (reads : Nat → ThreadState) {heap : Memory Thread} {t : Addr} {th : Thread}
    (hth : heap.read t = some th) (hrun : th.state = .run) (state : ThreadState)
    (hstate : (stopThreadWith reads (some th.state)).result = some state) :
    stopThread heap (some t) = heap.write t { th with state := state } := by
  obtain ⟨_, _, hresult, _⟩ := stopThreadWith_spec reads
  rw [hrun, hresult] at hstate
  cases hstate
  simp [stopThread, hth, hrun]

/-- The state word shows `reads` at the reads of the waiting loop. -/
def Shows (reads : Nat → ThreadState) (this : Lifetime) : Turn → Prop
  | .caller => ∀ wait, this.caller = .wait wait → this.state = some (reads wait)
  | _ => True

/-- How far the caller is in the call. -/
def Following (reads : Nat → ThreadState) (this : Lifetime) : Prop :=
  match this.caller with
  | .stopStore => this.cancelled = false
  | .wait wait => this.cancelled = false ∧ (waitLoop reads wait).result = (waitLoop reads 0).result
  | .limitCheck wait => this.cancelled = false ∧ wait = (waitLoop reads 0).result
  | .readyStore | .returned => this.cancelled = decide (waitLimit ≤ (waitLoop reads 0).result)
  | .startCheck | .startStore | .create | .stopCheck => False

theorem callerStep_following {this this' : Lifetime} (h : Following reads this)
    (hshows : Shows reads this .caller) (hstep : callerStep this = some this') : Following reads this' := by
  obtain ⟨state, caller, thread, cancelled⟩ := this
  cases caller with
  | startCheck => cases h
  | startStore => cases h
  | create => cases h
  | stopCheck => cases h
  | stopStore =>
    cases hstep
    exact ⟨h, rfl⟩
  | wait wait =>
    obtain ⟨hcancelled, hresult⟩ := h
    have hstate : state = some (reads wait) := hshows wait rfl
    subst hstate
    by_cases hstopped : reads wait = .stopped
    · simp only [callerStep, hstopped, ↓reduceIte, Option.some.injEq] at hstep
      subst hstep
      rw [waitLoop_stopped hstopped] at hresult
      exact ⟨hcancelled, hresult⟩
    · by_cases hlt : wait < waitLimit
      · simp only [callerStep, Option.some.injEq, hstopped, hlt, ↓reduceIte] at hstep
        subst hstep
        rw [waitLoop_sleep hstopped hlt] at hresult
        exact ⟨hcancelled, hresult⟩
      · simp only [callerStep, Option.some.injEq, hstopped, hlt, ↓reduceIte] at hstep
        subst hstep
        rw [waitLoop_over hstopped hlt] at hresult
        exact ⟨hcancelled, hresult⟩
  | limitCheck wait =>
    cases hstep
    obtain ⟨hcancelled, hresult⟩ := h
    cases hcancelled
    simp only [Following, Bool.false_or, hresult]
  | readyStore =>
    cases hstep
    exact h
  | returned => cases hstep

theorem lifetimeStep_following {this this' : Lifetime} {turn : Turn} {out : Unit} (h : Following reads this)
    (hshows : Shows reads this turn) (hstep : lifetimeStep this turn = some (this', out)) :
    Following reads this' := by
  cases turn with
  | caller => exact callerStep_following h hshows (silent_iff.mp hstep)
  | entry =>
    have hentry := silent_iff.mp hstep
    obtain ⟨state, caller, thread, cancelled⟩ := this
    cases thread with
    | unborn => cases hentry
    | init => cases hentry; exact h
    | runStore => cases hentry; exact h
    | loop => cases hentry; exact h
    | afterLoop => cases hentry; exact h
    | stoppedStore => cases hentry; exact h
    | deinit => cases hentry; exact h
    | ended => cases hentry
  | leaves =>
    rw [lifetimeStep] at hstep
    split at hstep
    next =>
      cases hstep
      exact h
    next => cases hstep
  | dies =>
    rw [lifetimeStep] at hstep
    split at hstep
    next =>
      cases hstep
      exact h
    next => cases hstep

/-- Whatever the thread does in the meantime, the caller cancels it just when the call does on
the states that the caller was shown. -/
theorem lifetime_cancels_iff {this this' : Lifetime} {turns : List Turn} {outs : List Unit}
    (hasked : this.caller = .stopStore) (hcancelled : this.cancelled = false)
    (hshows : Guarded lifetimeStep (Shows reads) this turns)
    (hrun : run lifetimeStep this turns = some (this', outs)) (hreturned : this'.caller = .returned) :
    this'.cancelled = true ↔ StopAct.cancel ∈ (stopThreadWith reads (some .run)).accesses := by
  have hbefore : Following reads this := by
    unfold Following
    rw [hasked]
    exact hcancelled
  have hafter := run_preserves (fun _ _ _ _ h hi hs => lifetimeStep_following h hi hs) hbefore hshows hrun
  unfold Following at hafter
  rw [hreturned] at hafter
  rw [hafter, decide_eq_true_iff, cancel_iff]

end Devclego.Threads
