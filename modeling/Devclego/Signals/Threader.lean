import Devclego.Foundation.Machine

/-!
# The thread separator

The component that `CMP_PUSH_THREADER` generates: one item slot and a signal without a
condition. The component thread waits for the signal, passes the item on and waits
again. A signal that is set while it does not wait is lost, and an item that is set
before the previous one is passed on takes its place.
-/
namespace Devclego.Signals

open Foundation

variable {α : Type}

/-- Where the component thread is: outside its critical section, in `signal_wait`, or
signalled and not yet scheduled. -/
inductive Phase where
  | outside
  | waiting
  | signalled
deriving DecidableEq, Repr

/-- The component, with the items passed to the receiver and to `send` so far. -/
structure Threader (α : Type) where
  item : Option α
  phase : Phase
  received : List α
  sent : List (Option α)
deriving DecidableEq, Repr

/-- The component after its initialization, with its thread started. -/
def threaderInit : Threader α where
  item := none
  phase := .outside
  received := []
  sent := []

/-- `_cmp_receiver`, of whatever thread. Only a waiting thread notices the signal. -/
def threaderReceiver (this : Threader α) (item : α) : Threader α :=
  { this with
    item := some item
    phase := if this.phase = .waiting then .signalled else this.phase
    received := this.received ++ [item] }

/-- `_thr_main_proc` up to the wait. -/
def threaderWait (this : Threader α) : Option (Threader α) :=
  if this.phase = .outside then some { this with phase := .waiting } else none

/-- `_thr_main_proc` from the return of `signal_wait` on. The item is sent while the lock
is held. -/
def threaderSend (this : Threader α) : Option (Threader α) :=
  if this.phase = .signalled then some { this with phase := .outside, sent := this.sent ++ [this.item] } else none

/-- What is done with the lock held, one section a step. -/
inductive Turn (α : Type) where
  | receiver (item : α)
  | wait
  | send
deriving DecidableEq, Repr

def threaderStep (this : Threader α) : Turn α → Option (Threader α × Unit)
  | .receiver item => some (threaderReceiver this item, ())
  | .wait => (threaderWait this).map (·, ())
  | .send => (threaderSend this).map (·, ())

/-! ## Exactly once -/

/-- No item is skipped, repeated or moved, and none is left when the thread waits. -/
def Delivers (this : Threader α) : Prop :=
  this.sent <+: this.received.map some ∧ (this.phase = .waiting → this.sent = this.received.map some)

/-- So in every state that the component thread reaches by itself. -/
def Settles (this : Threader α) : Prop :=
  ∀ turns this' os, (∀ turn ∈ turns, ∀ item, turn ≠ .receiver item) →
    run threaderStep this turns = some (this', os) → Delivers this'

/-- The receiver finds the thread waiting, and no signal on its way. -/
def FindsWaiting (this : Threader α) : Turn α → Prop
  | .receiver _ => this.phase = .waiting
  | _ => True

/-- Every received item has been sent, or it is the one in the slot and the thread is
about to send it. -/
def InHand (this : Threader α) : Prop :=
  if this.phase = .signalled then this.received.map some = this.sent ++ [this.item]
  else this.received.map some = this.sent

variable {this this' : Threader α}

theorem inHand_init : InHand (threaderInit : Threader α) := rfl

theorem InHand.delivers (h : InHand this) : Delivers this := by
  unfold InHand at h
  by_cases hphase : this.phase = .signalled
  · rw [if_pos hphase] at h
    refine ⟨h ▸ List.prefix_append _ _, fun hwait => ?_⟩
    rw [hphase] at hwait
    cases hwait
  · rw [if_neg hphase] at h
    exact ⟨h ▸ List.prefix_rfl, fun _ => h.symm⟩

theorem threaderWait_inHand (h : InHand this) (hwait : threaderWait this = some this') : InHand this' := by
  obtain ⟨item, phase, received, sent⟩ := this
  cases phase with
  | outside =>
    cases hwait
    exact h
  | waiting => cases hwait
  | signalled => cases hwait

theorem threaderSend_inHand (h : InHand this) (hsend : threaderSend this = some this') : InHand this' := by
  obtain ⟨item, phase, received, sent⟩ := this
  cases phase with
  | outside => cases hsend
  | waiting => cases hsend
  | signalled =>
    cases hsend
    exact h

theorem threaderReceiver_inHand (h : InHand this) (item : α) (hwait : this.phase = .waiting) :
    InHand (threaderReceiver this item) := by
  have hall : this.received.map some = this.sent := by
    rwa [InHand, if_neg (by rw [hwait]; decide)] at h
  show InHand { this with item := some item, phase := _, received := this.received ++ [item] }
  rw [InHand, if_pos (if_pos hwait), List.map_append, hall]
  rfl

/-- The steps of the component thread alone keep the items in hand. -/
theorem threaderStep_inHand (h : InHand this) {turn : Turn α} (hturn : FindsWaiting this turn) {o : Unit}
    (hstep : threaderStep this turn = some (this', o)) : InHand this' := by
  cases turn with
  | receiver item =>
    cases hstep
    exact threaderReceiver_inHand h item hturn
  | wait => exact threaderWait_inHand h (silent_iff.mp hstep)
  | send => exact threaderSend_inHand h (silent_iff.mp hstep)

theorem InHand.settles (h : InHand this) : Settles this := by
  intro turns
  induction turns generalizing this with
  | nil =>
    intro this' os _ hrun
    cases hrun
    exact h.delivers
  | cons turn turns ih =>
    intro this' os hown hrun
    obtain ⟨next, o, this'', os', hstep, hrest, he⟩ := run_cons.mp hrun
    cases he
    have hturn : FindsWaiting this turn := by
      cases turn with
      | receiver item => exact absurd rfl (hown _ (List.mem_cons_self ..) item)
      | wait => trivial
      | send => trivial
    exact ih (threaderStep_inHand h hturn hstep) this' os' (fun t ht => hown t (List.mem_cons_of_mem _ ht)) hrest

/-- Two items in hand: the thread sends one of them at most before it waits again. -/
theorem unsettled (h : InHand this) (item : α) (hphase : this.phase ≠ .waiting) :
    ¬ Settles (threaderReceiver this item) := by
  intro hsettles
  obtain ⟨slot, phase, received, sent⟩ := this
  cases phase with
  | waiting => exact hphase rfl
  | outside =>
    -- The signal is lost: the thread waits with the item unsent.
    have hall : received.map some = sent := h
    obtain ⟨-, hsent⟩ := hsettles [.wait] _ [()] (by simp) rfl
    have hlen := congrArg List.length (hsent rfl)
    rw [← hall] at hlen
    simp [threaderReceiver] at hlen
  | signalled =>
    -- The item in the slot has been replaced.
    have hall : received.map some = sent ++ [slot] := h
    obtain ⟨-, hsent⟩ := hsettles [.send, .wait] _ [(), ()] (by simp) rfl
    have hlen := congrArg List.length (hsent rfl)
    have hlen' := congrArg List.length hall
    simp [threaderReceiver] at hlen hlen'
    omega

/-- The separator delivers exactly once just when every receiver call finds the thread
waiting. -/
theorem threader_delivers_iff (turns : List (Turn α)) :
    (∀ k this os, run threaderStep threaderInit (turns.take k) = some (this, os) → Settles this) ↔
      Guarded threaderStep FindsWaiting (threaderInit : Threader α) turns := by
  have hgood : ∀ this : Threader α, InHand this → Settles this := fun _ h => h.settles
  refine prefixes_iff_guarded hgood ?_ ?_ inHand_init turns
  · intro this turn this' o h hstep
    refine ⟨fun hturn => threaderStep_inHand h hturn hstep, fun hsettles => ?_⟩
    cases turn with
    | receiver item =>
      by_contra hphase
      cases hstep
      exact unsettled h item hphase hsettles
    | wait => trivial
    | send => trivial
  · intro this turn h hstep
    cases turn with
    | receiver item => cases hstep
    | wait => trivial
    | send => trivial

/-- An item that comes before the thread waits stays behind, and of two items that come
before it is scheduled the first is skipped. -/
theorem threader_loses_items :
    ¬ (∀ turns (this : Threader Nat) os, run threaderStep threaderInit turns = some (this, os) → Delivers this) ∧
      (run threaderStep threaderInit [.receiver 1, .wait]).map (fun r => (r.1.phase, r.1.received, r.1.sent)) =
        some (.waiting, [1], []) ∧
      (run threaderStep threaderInit [.wait, .receiver 1, .receiver 2, .send]).map
        (fun r => (r.1.received, r.1.sent)) = some ([1, 2], [some 2]) := by
  refine ⟨fun hall => ?_, by decide, by decide⟩
  obtain ⟨-, hsent⟩ := hall [.receiver 1, .wait] _ [(), ()] rfl
  cases hsent rfl

end Devclego.Signals
