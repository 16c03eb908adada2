import Devclego.Signals.Safety

/-!
# Waiters and wakeups

A write signals only if it finds the puffer empty, a read only if it finds it full,
and a signal goes to either kind of waiter. Suppliers wait for items and receivers
for free slots. As long as every section that adds a unit wakes a call that waits for
it, or enough such calls are on their way, nobody is left waiting for what is there.
-/
namespace Devclego.Signals

open Foundation Foundation.Condition Puffers

variable {α : Type}

def Call.isSupplier : Call α → Bool
  | .supplier => true
  | .receiver _ => false

def Call.isReceiver : Call α → Bool
  | .supplier => false
  | .receiver _ => true

/-- When no signalled thread is pending, whoever waits still has to: suppliers at an
empty puffer, receivers at a full one. -/
def NotStranded (this : Sgpuffer α) : Prop :=
  this.signal.woken = [] → ∀ u ∈ this.signal.parked, mustWait this.puffer u.2 = true

/-- The section wakes a call for the item, or the slot, that it adds. -/
def WakesOne (this : Sgpuffer α) (call : Call α) (wake : Nat) : Prop :=
  match call with
  | .receiver _ => this.signal.Wakes Call.isSupplier (datapufferReadcapacity this.puffer).toNat
      (datapufferIsempty this.puffer) wake
  | .supplier => this.signal.Wakes Call.isReceiver (datapufferWritecapacity this.puffer).toNat
      (datapufferIsfull this.puffer) wake

/-- The same for a section, which adds nothing if it waits. -/
def SectionWakes (this : Sgpuffer α) : Section α → Prop
  | .enter _ call wake => mustWait this.puffer call = true ∨ WakesOne this call wake
  | .resume thread wake =>
    ∀ r ∈ this.signal.take thread, WakesOne { this with signal := r.2 } r.1 wake

instance (this : Sgpuffer α) (call : Call α) (wake : Nat) : Decidable (WakesOne this call wake) :=
  match call with
  | .receiver _ => inferInstanceAs (Decidable (this.signal.Wakes _ _ _ wake))
  | .supplier => inferInstanceAs (Decidable (this.signal.Wakes _ _ _ wake))

instance (this : Sgpuffer α) (s : Section α) : Decidable (SectionWakes this s) :=
  match s with
  | .enter _ call wake => inferInstanceAs (Decidable (mustWait this.puffer call = true ∨ WakesOne this call wake))
  | .resume thread wake => inferInstanceAs (Decidable (∀ r ∈ this.signal.take thread, WakesOne _ r.1 wake))

/-- The queue, with the waiting suppliers covered for its items and the waiting
receivers for its free slots. -/
structure Served (len : Nat) (this : Sgpuffer α) (q : List α) : Prop where
  sound : Sound len this q
  suppliers : this.signal.Covered Call.isSupplier q.length
  receivers : this.signal.Covered Call.isReceiver (len - q.length)

variable {len : Nat} {this this' : Sgpuffer α} {q : List α} {wake : Nat}

theorem served_init (hlen : 1 ≤ len) : Served len (sgpufferInit len : Sgpuffer α) [] :=
  ⟨sound_init hlen, covered_make _ _, covered_make _ _⟩

theorem Served.notStranded (h : Served len this q) : NotStranded this := by
  intro hnone u hu
  have hwoken : ∀ p, this.signal.wokenCount p = 0 := fun p => by rw [wokenCount, hnone]; rfl
  have hparked : ∀ p : Call α → Bool, p u.2 = true → 0 < this.signal.parkedCount p := fun p hp =>
    List.countP_pos_iff.mpr ⟨u, hu, hp⟩
  obtain ⟨thread, call⟩ := u
  cases call with
  | supplier =>
    have hq := h.suppliers (hparked _ rfl)
    rw [hwoken, Nat.le_zero, List.length_eq_zero_iff] at hq
    exact h.sound.holds.isempty_iff.mpr hq
  | receiver item =>
    have hq := h.receivers (hparked _ rfl)
    have hfits := h.sound.holds.fits
    rw [hwoken] at hq
    exact h.sound.holds.isfull_iff.mpr (by omega)

/-- A call that starts to wait finds no unit. -/
theorem wait_served (h : Served len this q) (thread : Nat) {call : Call α}
    (hwait : mustWait this.puffer call = true) :
    Served len { this with signal := this.signal.wait thread call } q := by
  refine ⟨h.sound.withSignal _, h.suppliers.wait fun hk => ?_, h.receivers.wait fun hk => ?_⟩
  · cases call with
    | supplier => rw [h.sound.holds.isempty_iff.mp hwait, List.length_nil]
    | receiver item => cases hk
  · cases call with
    | supplier => cases hk
    | receiver item =>
      have hfull := h.sound.holds.isfull_iff.mp hwait
      omega

/-- A section that goes on and wakes one keeps everybody covered. Its own thread is
not among the signalled ones, so the unit that it removes is not counted for it. -/
theorem proceed_served {call : Call α} (h : Sound len this q)
    (hs : this.signal.Covered Call.isSupplier (if call.isSupplier then q.length - 1 else q.length))
    (hr : this.signal.Covered Call.isReceiver (if call.isReceiver then len - q.length - 1 else len - q.length))
    (hready : mustWait this.puffer call = false) (hwakes : WakesOne this call wake)
    (hrun : proceed this call wake = some this') : ∃ q', Served len this' q' := by
  cases call with
  | receiver item =>
    have hroom := (mustWait_receiver h item).mp hready
    obtain ⟨h', hsig⟩ := pufferRecv_sound h hroom hrun
    have hunits : (datapufferReadcapacity this.puffer).toNat = q.length := by
      rw [datapufferReadcapacity, h.holds.count_eq, Int.toNat_natCast]
    have hsent : datapufferIsempty this.puffer = decide (q = []) := by
      rw [Bool.eq_iff_iff, h.holds.isempty_iff, decide_eq_true_iff]
    rw [WakesOne, hunits, hsent] at hwakes
    refine ⟨q ++ [item], h', ?_, ?_⟩
    · rw [List.length_append, List.length_singleton]
      exact Covered.add hs hsig hwakes
    · rw [List.length_append, List.length_singleton, ← Nat.sub_sub]
      exact Covered.signal hr hsig
  | supplier =>
    obtain ⟨x, rest, rfl⟩ := (mustWait_supplier h).mp hready
    obtain ⟨h', hsig⟩ := pufferSupply_sound h hrun
    have hfits := h.holds.fits
    rw [List.length_cons] at hfits
    have hunits : (datapufferWritecapacity this.puffer).toNat = len - (rest.length + 1) := by
      rw [datapufferWritecapacity, h.holds.count_eq, h.holds.absLength_eq, List.length_cons]
      omega
    have hsent : datapufferIsfull this.puffer = decide (rest.length + 1 = len) := by
      rw [Bool.eq_iff_iff, h.holds.isfull_iff, List.length_cons, decide_eq_true_iff]
    rw [WakesOne, hunits, hsent] at hwakes
    refine ⟨rest, h', Covered.signal hs hsig, ?_⟩
    have hslots : len - rest.length = len - (rest.length + 1) + 1 := by omega
    rw [hslots]
    exact Covered.add hr hsig hwakes

/-! ## Runs -/

/-- The condition on one section: it wakes whom it should, and it is ready when it
resumes. -/
def Serves (this : Sgpuffer α) (s : Section α) : Prop := ResumesReady this s ∧ SectionWakes this s

instance (this : Sgpuffer α) (s : Section α) : Decidable (Serves this s) :=
  inferInstanceAs (Decidable (_ ∧ _))

theorem section_served (this : Sgpuffer α) (s : Section α) (this' : Sgpuffer α) (o : Unit)
    (h : ∃ q, Served len this q) (hguard : Serves this s)
    (hstep : sectionStep this s = some (this', o)) : ∃ q, Served len this' q := by
  obtain ⟨q, h⟩ := h
  obtain ⟨hready, hwakes⟩ := hguard
  cases sectionStep_does hstep with
  | waits thread call wake hwait => exact ⟨q, wait_served h thread hwait⟩
  | enters thread call wake _ hnow hrun =>
    refine proceed_served h.sound (h.suppliers.mono ?_) (h.receivers.mono ?_) hnow ?_ hrun
    · split <;> omega
    · split <;> omega
    · exact hwakes.resolve_left (by rw [hnow]; decide)
  | resumes thread wake call signal _ htake hrun =>
    exact proceed_served (h.sound.withSignal signal) (h.suppliers.take htake) (h.receivers.take htake)
      (hready (call, signal) htake) (hwakes (call, signal) htake) hrun

/-- In every interleaving whose sections resume ready and wake whom they should, no
waiter is stranded in any state reached. -/
theorem no_waiter_stranded (hlen : 1 ≤ len) {sections : List (Section α)} {this : Sgpuffer α} {os : List Unit}
    (hguard : Guarded sectionStep Serves (sgpufferInit len : Sgpuffer α) sections)
    (hrun : run sectionStep (sgpufferInit len) sections = some (this, os)) : NotStranded this := by
  have hinit : ∃ q, Served len (sgpufferInit len : Sgpuffer α) q := ⟨[], served_init hlen⟩
  obtain ⟨q, h⟩ := run_preserves section_served hinit hguard hrun
  exact h.notStranded

/-- Two suppliers wait, and each write wakes one of them. -/
theorem no_waiter_stranded_run :
    ∃ this os, run sectionStep (sgpufferInit 3 : Sgpuffer Int)
        [.enter 0 .supplier 0, .enter 1 .supplier 0, .enter 2 (.receiver 7) 0, .resume 0 0,
          .enter 2 (.receiver 8) 1, .resume 1 0, .enter 0 .supplier 0] = some (this, os) ∧
      NotStranded this := by
  have hrun : run sectionStep (sgpufferInit 3 : Sgpuffer Int)
      [.enter 0 .supplier 0, .enter 1 .supplier 0, .enter 2 (.receiver 7) 0, .resume 0 0,
        .enter 2 (.receiver 8) 1, .resume 1 0, .enter 0 .supplier 0] = some (_, _) := rfl
  exact ⟨_, _, hrun, no_waiter_stranded (by decide) (by decide) hrun⟩

/-- Two items arrive before the first woken supplier is back. The second write finds
the puffer not empty and signals nobody, so the other supplier waits beside an item. -/
theorem supplier_left_waiting :
    ∃ this os, run sectionStep (sgpufferInit 3 : Sgpuffer Int)
        [.enter 0 .supplier 0, .enter 1 .supplier 0, .enter 2 (.receiver 7) 0, .enter 2 (.receiver 8) 0,
          .resume 0 0] = some (this, os) ∧ ¬ NotStranded this :=
  ⟨_, _, rfl, fun h => absurd (h rfl (1, .supplier) (by decide)) (by decide)⟩

end Devclego.Signals
