import Mathlib.Data.List.Basic
import Mathlib.Algebra.Group.Nat.Defs
import Mathlib.Tactic.Cases

/-!
# Appending within bounds

Steps on a state that holds a list of bounded length. A step appends a piece where this
fits, and faults where it does not; so do steps one after the other.
-/
namespace Devclego.Foundation

variable {α σ : Type} {holds : List α → σ → Prop} {size : Nat}

/-- A step appends the piece where less than `size` elements come of it, and else faults. -/
def Appends (holds : List α → σ → Prop) (size : Nat) (f : σ → Option σ) (piece : List α) : Prop :=
  ∀ s d, holds s d →
    (s.length + piece.length < size → ∃ d', f d = some d' ∧ holds (s ++ piece) d') ∧
    (size ≤ s.length + piece.length → f d = none)

variable {f g : σ → Option σ} {p q : List α}

theorem appends_nil (hbound : ∀ s d, holds s d → s.length < size) : Appends holds size some [] := by
  intro s d h
  refine ⟨fun _ => ⟨d, rfl, ?_⟩, fun hfull => ?_⟩
  · rw [List.append_nil]
    exact h
  · exact absurd (hbound s d h) (Nat.not_lt.mpr hfull)

theorem Appends.bind (hf : Appends holds size f p) (hg : Appends holds size g q) :
    Appends holds size (fun d => (f d).bind g) (p ++ q) := by
  intro s d h
  obtain ⟨hfits, hfaults⟩ := hf s d h
  rw [List.length_append]
  dsimp only
  constructor
  · intro hroom
    obtain ⟨mid, hmid, hholds⟩ := hfits (by omega)
    obtain ⟨d', hd', hall⟩ := (hg _ mid hholds).1 (by rw [List.length_append]; omega)
    refine ⟨d', ?_, ?_⟩
    · rw [hmid]
      exact hd'
    · rw [← List.append_assoc]
      exact hall
  · intro hfull
    by_cases hroom : s.length + p.length < size
    · obtain ⟨mid, hmid, hholds⟩ := hfits hroom
      rw [hmid]
      exact (hg _ mid hholds).2 (by rw [List.length_append]; omega)
    · rw [hfaults (Nat.not_lt.mp hroom)]
      rfl

theorem Appends.ite {P : Prop} [Decidable P] (hf : Appends holds size f p) (hg : Appends holds size g q) :
    Appends holds size (fun d => if P then f d else g d) (if P then p else q) := by
  by_cases h : P
  · simp only [if_pos h]
    exact hf
  · simp only [if_neg h]
    exact hg

theorem Appends.congr (h : Appends holds size f p) (hf : ∀ d, f d = g d) (hp : p = q) : Appends holds size g q := by
  rw [← hp, ← funext hf]
  exact h

end Devclego.Foundation
