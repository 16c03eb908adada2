import Mathlib.Data.List.Basic

/-!
# A condition variable

Threads wait at it with what they were doing. A signal makes one waiting thread
runnable, whichever the scheduler chooses, and is lost if none waits. A runnable
thread leaves when it has the mutex again. Everything that happens while one thread
holds the mutex is one step, so the mutex itself does not appear.
-/
namespace Devclego.Foundation

/-- What is held for the thread `t`, and the rest. -/
def pull {κ : Type} (t : Nat) : List (Nat × κ) → Option (κ × List (Nat × κ))
  | [] => none
  | u :: us => if u.1 = t then some (u.2, us) else (pull t us).map fun r => (r.1, u :: r.2)

structure Condition (κ : Type) where
  parked : List (Nat × κ)
  woken : List (Nat × κ)
deriving DecidableEq, Repr

namespace Condition

variable {κ : Type}

def make : Condition κ := { parked := [], woken := [] }

/-- The thread is inside a wait, signalled or not. -/
def busy (c : Condition κ) (t : Nat) : Bool :=
  (c.parked.map Prod.fst).contains t || (c.woken.map Prod.fst).contains t

def wait (c : Condition κ) (t : Nat) (k : κ) : Condition κ := { c with parked := c.parked ++ [(t, k)] }

/-- The scheduler must name a waiting thread, unless there is none. -/
def signal (c : Condition κ) (t : Nat) : Option (Condition κ) :=
  match c.parked with
  | [] => some c
  | _ :: _ => (pull t c.parked).map fun r => { parked := r.2, woken := c.woken ++ [(t, r.1)] }

def take (c : Condition κ) (t : Nat) : Option (κ × Condition κ) :=
  (pull t c.woken).map fun r => (r.1, { c with woken := r.2 })

/-- What a section does that signals if `sent` holds. -/
def SignalIf (sent : Prop) [Decidable sent] (c : Condition κ) (t : Nat) (c' : Condition κ) : Prop :=
  if sent then c.signal t = some c' else c' = c

/-- How many waiting threads are of a kind. -/
def parkedCount (c : Condition κ) (p : κ → Bool) : Nat := c.parked.countP fun u => p u.2

/-- How many signalled threads are of a kind. -/
def wokenCount (c : Condition κ) (p : κ → Bool) : Nat := c.woken.countP fun u => p u.2

end Condition

variable {κ : Type} {t : Nat} {k : κ} {xs ys : List (Nat × κ)}

theorem pull_split (h : pull t xs = some (k, ys)) : ∃ x y, xs = x ++ (t, k) :: y ∧ ys = x ++ y := by
  induction xs generalizing ys with
  | nil => cases h
  | cons u us ih =>
    simp only [pull] at h
    by_cases hu : u.1 = t
    · rw [if_pos hu] at h
      cases h
      exact ⟨[], us, by rw [← hu]; rfl, rfl⟩
    · rw [if_neg hu, Option.map_eq_some_iff] at h
      obtain ⟨⟨k', zs⟩, hz, he⟩ := h
      cases he
      obtain ⟨x, y, rfl, rfl⟩ := ih hz
      exact ⟨u :: x, y, rfl, rfl⟩

theorem pull_countP (h : pull t xs = some (k, ys)) (p : κ → Bool) :
    xs.countP (fun u => p u.2) = ys.countP (fun u => p u.2) + if p k then 1 else 0 := by
  obtain ⟨x, y, rfl, rfl⟩ := pull_split h
  rw [List.countP_append, List.countP_cons, List.countP_append]
  exact (Nat.add_assoc _ _ _).symm

namespace Condition

variable {c c' : Condition κ}

@[simp] theorem parkedCount_make (p : κ → Bool) : (make : Condition κ).parkedCount p = 0 := rfl

@[simp] theorem parkedCount_wait (c : Condition κ) (t : Nat) (k : κ) (p : κ → Bool) :
    (c.wait t k).parkedCount p = c.parkedCount p + if p k then 1 else 0 := by
  simp [parkedCount, wait, List.countP_append, List.countP_cons]

@[simp] theorem wokenCount_wait (c : Condition κ) (t : Nat) (k : κ) (p : κ → Bool) :
    (c.wait t k).wokenCount p = c.wokenCount p := rfl

/-- A signal is lost, or it moves one thread. -/
theorem signal_cases (h : c.signal t = some c') :
    (c.parked = [] ∧ c' = c) ∨ ∃ k, (pull t c.parked).map Prod.fst = some k ∧
      (∀ p, c.parkedCount p = c'.parkedCount p + if p k then 1 else 0) ∧
      ∀ p, c'.wokenCount p = c.wokenCount p + if p k then 1 else 0 := by
  unfold signal at h
  split at h
  · rename_i hnil
    cases h
    exact Or.inl ⟨hnil, rfl⟩
  · obtain ⟨⟨k, rest⟩, hp, rfl⟩ := Option.map_eq_some_iff.mp h
    refine Or.inr ⟨k, by rw [hp]; rfl, fun p => pull_countP hp p, fun p => ?_⟩
    simp [wokenCount, List.countP_append, List.countP_cons]

/-- A section can only move threads from waiting to signalled. -/
theorem SignalIf.mono {sent : Prop} [Decidable sent] (h : SignalIf sent c t c') (p : κ → Bool) :
    c'.parkedCount p ≤ c.parkedCount p ∧ c.wokenCount p ≤ c'.wokenCount p := by
  unfold SignalIf at h
  split at h
  · rcases signal_cases h with ⟨-, rfl⟩ | ⟨k, -, hparked, hwoken⟩
    · exact ⟨Nat.le_refl _, Nat.le_refl _⟩
    · have hp := hparked p
      have hw := hwoken p
      exact ⟨by omega, by omega⟩
  · rw [h]
    exact ⟨Nat.le_refl _, Nat.le_refl _⟩

/-- A thread that leaves was signalled. -/
theorem take_spec (h : c.take t = some (k, c')) :
    c'.parked = c.parked ∧ ∀ p, c.wokenCount p = c'.wokenCount p + if p k then 1 else 0 := by
  obtain ⟨⟨k', rest⟩, hp, he⟩ := Option.map_eq_some_iff.mp h
  cases he
  exact ⟨rfl, pull_countP hp⟩

/-! ## Units for waiting threads

Threads of a kind wait for units of something: items, or free slots. They are covered
if the threads of that kind that are already signalled can use up all units there are.
-/

/-- As long as threads of the kind wait, no more than `n` of them are signalled for `n`
units. -/
def Covered (c : Condition κ) (p : κ → Bool) (n : Nat) : Prop := 0 < c.parkedCount p → n ≤ c.wokenCount p

/-- A section that adds a unit to `n` signals a thread of the kind, unless none waits
or enough are signalled. -/
def Wakes (c : Condition κ) (p : κ → Bool) (n : Nat) (sent : Bool) (t : Nat) : Prop :=
  c.parkedCount p = 0 ∨ (sent = true ∧ ((pull t c.parked).map fun r => p r.1) = some true) ∨
    n < c.wokenCount p

instance (c : Condition κ) (p : κ → Bool) (n : Nat) (sent : Bool) (t : Nat) :
    Decidable (c.Wakes p n sent t) :=
  inferInstanceAs (Decidable (_ ∨ (_ ∧ _) ∨ _))

variable {p : κ → Bool} {m n : Nat}

theorem covered_make (p : κ → Bool) (n : Nat) : (make : Condition κ).Covered p n := by
  intro h
  rw [parkedCount_make] at h
  omega

theorem Covered.mono (h : c.Covered p n) (hmn : m ≤ n) : c.Covered p m := fun h0 => Nat.le_trans hmn (h h0)

/-- Threads start to wait when there is no unit for them. -/
theorem Covered.wait (h : c.Covered p n) (hk : p k = true → n = 0) : (c.wait t k).Covered p n := by
  intro hpos
  rw [parkedCount_wait] at hpos
  rw [wokenCount_wait]
  by_cases hp : p k = true
  · rw [hk hp]
    exact Nat.zero_le _
  · rw [if_neg hp, Nat.add_zero] at hpos
    exact h hpos

/-- A thread of the kind that leaves uses up a unit. -/
theorem Covered.take (h : c.Covered p n) (ht : c.take t = some (k, c')) :
    c'.Covered p (if p k then n - 1 else n) := by
  obtain ⟨hparked, hwoken⟩ := take_spec ht
  intro hpos
  have hn := h (by rw [parkedCount, ← hparked]; exact hpos)
  have hw := hwoken p
  by_cases hp : p k = true
  · rw [if_pos hp] at hw ⊢
    omega
  · rw [if_neg hp] at hw ⊢
    omega

theorem Covered.signal {sent : Prop} [Decidable sent] (h : c.Covered p n) (hs : SignalIf sent c t c') :
    c'.Covered p n := by
  obtain ⟨hparked, hwoken⟩ := hs.mono p
  intro hpos
  exact Nat.le_trans (h (by omega)) hwoken

/-- A section that adds a unit and wakes a thread for it keeps the rest covered. -/
theorem Covered.add {sent : Prop} [Decidable sent] (h : c.Covered p n) (hs : SignalIf sent c t c')
    (hw : c.Wakes p n (decide sent) t) : c'.Covered p (n + 1) := by
  obtain ⟨hparked, hwoken⟩ := hs.mono p
  intro hpos
  rcases hw with hnone | ⟨hsent, hwake⟩ | hmany
  · omega
  · rw [SignalIf, if_pos (of_decide_eq_true hsent)] at hs
    have hn := h (by omega)
    rcases signal_cases hs with ⟨hnil, -⟩ | ⟨k, hk, -, hmoved⟩
    · rw [hnil] at hwake
      cases hwake
    · obtain ⟨r, hr, rfl⟩ := Option.map_eq_some_iff.mp hk
      have hp : p r.1 = true := by simpa [hr] using hwake
      have hmore := hmoved p
      rw [if_pos hp] at hmore
      omega
  · omega

end Condition

end Devclego.Foundation
