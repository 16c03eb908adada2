import Mathlib.Data.List.Basic

/-!
# Computations with their accesses

A result together with a list of what was accessed on the way to it, in order. A bound
on the accesses composes along the computation.
-/
namespace Devclego.Foundation

variable {κ ρ τ : Type}

structure Traced (κ ρ : Type) where
  result : ρ
  accesses : List κ
deriving DecidableEq, Repr

namespace Traced

instance : Monad (Traced κ) where
  pure x := ⟨x, []⟩
  bind t f := ⟨(f t.result).result, t.accesses ++ (f t.result).accesses⟩

/-- One access, with what it gives. -/
def access (k : κ) (x : ρ) : Traced κ ρ := ⟨x, [k]⟩

@[simp] theorem result_pure (x : ρ) : (pure x : Traced κ ρ).result = x := rfl

@[simp] theorem result_access (k : κ) (x : ρ) : (access k x).result = x := rfl

@[simp] theorem result_bind (t : Traced κ ρ) (f : ρ → Traced κ τ) : (t >>= f).result = (f t.result).result := rfl

@[simp] theorem accesses_bind (t : Traced κ ρ) (f : ρ → Traced κ τ) :
    (t >>= f).accesses = t.accesses ++ (f t.result).accesses := rfl

/-- Every access is one of those allowed. -/
def Within (allowed : κ → Prop) (t : Traced κ ρ) : Prop := ∀ k ∈ t.accesses, allowed k

variable {allowed : κ → Prop} {t : Traced κ ρ} {f : ρ → Traced κ τ}

theorem within_pure (x : ρ) : Within allowed (pure x : Traced κ ρ) := fun _ hk => absurd hk List.not_mem_nil

theorem within_access {k : κ} {x : ρ} : Within allowed (access k x) ↔ allowed k :=
  ⟨fun h => h k (List.mem_singleton_self k), fun h _ hk => List.mem_singleton.mp hk ▸ h⟩

theorem within_bind : Within allowed (t >>= f) ↔ Within allowed t ∧ Within allowed (f t.result) := by
  rw [Within, accesses_bind, List.forall_mem_append]
  rfl

end Traced

/-! ## Computations that may fault -/

/-- A computation that faults keeps what it accessed before. -/
abbrev Attempt (κ : Type) := OptionT (Traced κ)

namespace Attempt

def result (x : Attempt κ ρ) : Option ρ := (OptionT.run x).result

def accesses (x : Attempt κ ρ) : List κ := (OptionT.run x).accesses

/-- One access, which may fault. -/
def access (k : κ) (x : Option ρ) : Attempt κ ρ := OptionT.mk (Traced.access k x)

variable {x : Attempt κ ρ} {f : ρ → Attempt κ τ} {allowed : κ → Prop}

@[simp] theorem result_pure (a : ρ) : result (pure a : Attempt κ ρ) = some a := rfl

@[simp] theorem result_failure : result (failure : Attempt κ ρ) = none := rfl

@[simp] theorem result_access (k : κ) (x : Option ρ) : result (access k x) = x := rfl

@[simp] theorem result_bind (x : Attempt κ ρ) (f : ρ → Attempt κ τ) :
    result (x >>= f) = (result x).bind fun a => result (f a) := by
  show (OptionT.run (x >>= f)).result = _
  rw [OptionT.run_bind, Option.elimM, Traced.result_bind, result]
  cases (OptionT.run x).result with
  | none => rfl
  | some a => rfl

theorem accesses_bind {a : ρ} (h : result x = some a) : accesses (x >>= f) = accesses x ++ accesses (f a) := by
  show (OptionT.run (x >>= f)).accesses = _
  rw [OptionT.run_bind, Option.elimM, Traced.accesses_bind, show (OptionT.run x).result = some a from h]
  rfl

/-- A computation that returns has made allowed accesses only. -/
def Checked (allowed : κ → Prop) (x : Attempt κ ρ) : Prop := (result x).isSome → ∀ k ∈ accesses x, allowed k

theorem checked_pure (a : ρ) : Checked allowed (pure a : Attempt κ ρ) := fun _ _ hk => absurd hk List.not_mem_nil

theorem checked_failure : Checked allowed (failure : Attempt κ ρ) := nofun

/-- An access that faults unless it is allowed. -/
theorem checked_access {k : κ} {x : Option ρ} (h : x.isSome → allowed k) : Checked allowed (access k x) := by
  intro hx k' hk
  rw [List.mem_singleton.mp hk]
  exact h hx

theorem checked_bind (hx : Checked allowed x) (hf : ∀ a, Checked allowed (f a)) : Checked allowed (x >>= f) := by
  intro hsome k hk
  cases hr : result x with
  | none =>
    rw [result_bind, hr] at hsome
    cases hsome
  | some a =>
    rw [result_bind, hr, Option.bind_some] at hsome
    rw [accesses_bind hr, List.mem_append] at hk
    rcases hk with hk | hk
    · exact hx (by rw [hr]; rfl) k hk
    · exact hf a hsome k hk

end Attempt

end Devclego.Foundation
