import Mathlib.Data.List.Basic
import Mathlib.Logic.Function.Basic

/-!
# Things that are at one place

A stock says which things are at which place. It is exclusive when nothing is at two
places or twice at one; that survives when something leaves, arrives from outside or
moves.
-/
namespace Devclego.Foundation

variable {L α : Type}

/-- Nothing is at two places, nor twice at one. -/
structure Exclusive (stock : L → List α) : Prop where
  nodup : ∀ l, (stock l).Nodup
  apart : ∀ l m x, x ∈ stock l → x ∈ stock m → l = m

variable {stock stock' : L → List α} {l m : L} {x : α}

theorem exclusive_nil : Exclusive fun _ : L => ([] : List α) where
  nodup := fun _ => List.nodup_nil
  apart := by
    intro l m x hx
    cases hx

/-- Where a thing that leaves a place was, it is no more. -/
theorem Exclusive.leaves (h : Exclusive stock) (hl : (stock l).Perm (x :: stock' l))
    (hother : ∀ k, k ≠ l → stock' k = stock k) (k : L) : x ∉ stock' k := by
  intro hx
  have hin : x ∈ stock l := hl.symm.subset (List.mem_cons_self ..)
  by_cases hk : k = l
  · subst hk
    have hnodup := hl.nodup_iff.mp (h.nodup k)
    exact (List.nodup_cons.mp hnodup).1 hx
  · rw [hother k hk] at hx
    exact hk (h.apart k l x hx hin)

theorem Exclusive.remove (h : Exclusive stock) (hl : (stock l).Perm (x :: stock' l))
    (hother : ∀ k, k ≠ l → stock' k = stock k) : Exclusive stock' := by
  have hsub : ∀ k y, y ∈ stock' k → y ∈ stock k := by
    intro k y hy
    by_cases hk : k = l
    · subst hk
      exact hl.symm.subset (List.mem_cons_of_mem x hy)
    · rwa [hother k hk] at hy
  refine ⟨fun k => ?_, fun k k' y hy hy' => h.apart k k' y (hsub k y hy) (hsub k' y hy')⟩
  by_cases hk : k = l
  · subst hk
    exact (hl.nodup_iff.mp (h.nodup k)).of_cons
  · rw [hother k hk]
    exact h.nodup k

theorem Exclusive.insert (h : Exclusive stock) (hx : ∀ k, x ∉ stock k)
    (hm : (stock' m).Perm (x :: stock m)) (hother : ∀ k, k ≠ m → stock' k = stock k) : Exclusive stock' := by
  have hsplit : ∀ k y, y ∈ stock' k → y = x ∧ k = m ∨ y ∈ stock k := by
    intro k y hy
    by_cases hk : k = m
    · subst hk
      rcases List.mem_cons.mp (hm.subset hy) with he | hin
      · exact Or.inl ⟨he, rfl⟩
      · exact Or.inr hin
    · rw [hother k hk] at hy
      exact Or.inr hy
  constructor
  · intro k
    by_cases hk : k = m
    · subst hk
      exact hm.nodup_iff.mpr (List.nodup_cons.mpr ⟨hx k, h.nodup k⟩)
    · rw [hother k hk]
      exact h.nodup k
  · intro k k' y hy hy'
    rcases hsplit k y hy with ⟨rfl, rfl⟩ | hin
    · rcases hsplit k' y hy' with ⟨-, he⟩ | hin'
      · exact he.symm
      · exact absurd hin' (hx k')
    · rcases hsplit k' y hy' with ⟨rfl, -⟩ | hin'
      · exact absurd hin (hx k)
      · exact h.apart k k' y hin hin'

theorem Exclusive.move [DecidableEq L] (h : Exclusive stock) (hlm : l ≠ m)
    (hl : (stock l).Perm (x :: stock' l)) (hm : (stock' m).Perm (x :: stock m))
    (hother : ∀ k, k ≠ l → k ≠ m → stock' k = stock k) : Exclusive stock' := by
  -- On the way the thing is nowhere.
  let between := Function.update stock' m (stock m)
  have hatl : between l = stock' l := Function.update_of_ne hlm _ _
  have hatm : between m = stock m := Function.update_self ..
  have hrest : ∀ k, k ≠ l → between k = stock k := by
    intro k hk
    by_cases hkm : k = m
    · rw [hkm, hatm]
    · exact (Function.update_of_ne hkm _ _).trans (hother k hk hkm)
  have hout : (stock l).Perm (x :: between l) := by rwa [hatl]
  have hin : (stock' m).Perm (x :: between m) := by rwa [hatm]
  refine (h.remove hout hrest).insert (h.leaves hout hrest) hin fun k hk => ?_
  exact (Function.update_of_ne hk _ _).symm

/-- The places may be listed in any order. -/
theorem Exclusive.perm (h : Exclusive stock) (hperm : ∀ k, (stock' k).Perm (stock k)) :
    Exclusive stock' where
  nodup := fun k => (hperm k).nodup_iff.mpr (h.nodup k)
  apart := fun k k' y hy hy' => h.apart k k' y ((hperm k).subset hy) ((hperm k').subset hy')

end Devclego.Foundation
