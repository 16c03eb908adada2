import Mathlib.Data.List.Basic
import Mathlib.Logic.Function.Basic

/-!
# Arrays of slots

An array whose entries may be free, read as a partial map from its indices.
-/
namespace Devclego.Foundation

variable {α : Type}

/-- What stands in a slot. Nothing stands outside the array. -/
def slotAt (rows : List (Option α)) (i : Nat) : Option α := (rows[i]?).join

theorem getElem?_of_slotAt {rows : List (Option α)} {i : Nat} {a : α} (h : slotAt rows i = some a) :
    rows[i]? = some (some a) :=
  Option.join_eq_some_iff.mp h

theorem lt_of_slotAt {rows : List (Option α)} {i : Nat} {a : α} (h : slotAt rows i = some a) :
    i < rows.length :=
  (List.getElem?_eq_some_iff.mp (getElem?_of_slotAt h)).1

theorem getElem?_slotAt {rows : List (Option α)} {i : Nat} (h : i < rows.length) :
    rows[i]? = some (slotAt rows i) := by
  simp [slotAt, h]

theorem drop_eq_slotAt_cons {rows : List (Option α)} {i : Nat} (h : i < rows.length) :
    rows.drop i = slotAt rows i :: rows.drop (i + 1) := by
  have hget := getElem?_slotAt h
  rw [List.getElem?_eq_getElem h] at hget
  rw [List.drop_eq_getElem_cons h, Option.some.inj hget]

theorem slotAt_replicate (n i : Nat) : slotAt (List.replicate n (none : Option α)) i = none := by
  rw [slotAt, List.getElem?_replicate]
  by_cases hi : i < n
  · rw [if_pos hi]
    rfl
  · rw [if_neg hi]
    rfl

theorem slotAt_set {rows : List (Option α)} {i : Nat} (h : i < rows.length) (v : Option α) :
    slotAt (rows.set i v) = Function.update (slotAt rows) i v := by
  funext j
  by_cases hj : j = i
  · rw [hj, slotAt, List.getElem?_set_self h, Function.update_self]
    rfl
  · rw [slotAt, List.getElem?_set_ne (Ne.symm hj), Function.update_of_ne hj]
    rfl

theorem mem_iff_slotAt {rows : List (Option α)} {a : α} : some a ∈ rows ↔ ∃ i, slotAt rows i = some a := by
  rw [List.mem_iff_getElem?]
  constructor
  · intro hmem
    obtain ⟨i, hi⟩ := hmem
    exact ⟨i, by rw [slotAt, hi]; rfl⟩
  · intro hmem
    obtain ⟨i, hi⟩ := hmem
    exact ⟨i, getElem?_of_slotAt hi⟩

theorem slotAt_append_free (rows : List (Option α)) (n : Nat) :
    slotAt (rows ++ List.replicate n none) = slotAt rows := by
  funext i
  by_cases hi : i < rows.length
  · rw [slotAt, List.getElem?_append_left hi]
    rfl
  · have hout : rows[i]? = none := List.getElem?_eq_none (Nat.le_of_not_lt hi)
    have hfree := (slotAt_replicate n (i - rows.length) : slotAt (List.replicate n (none : Option α)) _ = none)
    rw [slotAt, List.getElem?_append_right (Nat.le_of_not_lt hi)]
    rw [slotAt] at hfree
    rw [hfree, slotAt, hout]
    rfl

theorem slotAt_of_free {rows : List (Option α)} (hfree : ∀ row ∈ rows, row = none) (i : Nat) :
    slotAt rows i = none := by
  cases hslot : slotAt rows i with
  | none => rfl
  | some a => cases hfree _ (mem_iff_slotAt.mpr ⟨i, hslot⟩)

/-- The least free index below a bound. -/
def leastFree (slot : Nat → Option α) (size : Nat) : Option Nat :=
  (List.range size).find? fun i => (slot i).isNone

theorem leastFree_some {slot : Nat → Option α} {size i : Nat} :
    leastFree slot size = some i ↔ slot i = none ∧ i < size ∧ ∀ j < i, slot j ≠ none := by
  rw [leastFree, List.find?_range_eq_some]
  simp only [Option.isNone_iff_eq_none, List.mem_range, Bool.not_eq_eq_eq_not, Bool.not_true,
    Option.isNone_eq_false_iff, Option.isSome_iff_ne_none]

theorem leastFree_none {slot : Nat → Option α} {size : Nat} :
    leastFree slot size = none ↔ ∀ j < size, slot j ≠ none := by
  rw [leastFree, List.find?_range_eq_none]
  simp only [Bool.not_eq_eq_eq_not, Bool.not_true, Option.isNone_eq_false_iff, Option.isSome_iff_ne_none]

end Devclego.Foundation
