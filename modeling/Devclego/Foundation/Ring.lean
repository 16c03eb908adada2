import Mathlib.Data.List.Basic
import Mathlib.Data.Nat.ModEq

/-!
# Circular slots

A fixed row of optional slots read as a queue from a start index, wrapping at
the end of the row. Every slot outside the queue is empty.
-/
namespace Devclego.Foundation

variable {α : Type}

/-- The slots, read from `start` with wrap-around, are the queue and then empty. -/
def RingHolds (items : List (Option α)) (start : Nat) (q : List α) : Prop :=
  ∀ i, i < items.length → items[(start + i) % items.length]? = some q[i]?

/-- Offsets below the length address distinct slots. -/
theorem ring_index_inj {n s i j : Nat} (hi : i < n) (hj : j < n)
    (h : (s + i) % n = (s + j) % n) : i = j := by
  have hm : i % n = j % n := Nat.ModEq.add_left_cancel' s h
  rwa [Nat.mod_eq_of_lt hi, Nat.mod_eq_of_lt hj] at hm

/-- Every slot has an offset from the start. -/
theorem exists_ring_offset {n s i : Nat} (hs : s < n) (hi : i < n) : ∃ j, j < n ∧ (s + j) % n = i := by
  rcases Nat.lt_or_ge i s with hlt | hge
  · refine ⟨n - s + i, by omega, ?_⟩
    rw [show s + (n - s + i) = i + n by omega, Nat.add_mod_right, Nat.mod_eq_of_lt hi]
  · refine ⟨i - s, by omega, ?_⟩
    rw [show s + (i - s) = i by omega, Nat.mod_eq_of_lt hi]

theorem ring_wrap {n s : Nat} (hs : s < n) : (if n ≤ s + 1 then 0 else s + 1) = (s + 1) % n := by
  by_cases h : n ≤ s + 1
  · have he : s + 1 = n := by omega
    rw [if_pos h, he, Nat.mod_self]
  · rw [if_neg h, Nat.mod_eq_of_lt (by omega)]

theorem ringHolds_empty (n s : Nat) : RingHolds (List.replicate n (none : Option α)) s [] := by
  intro i hi
  rw [List.length_replicate] at hi ⊢
  have hlt : (s + i) % n < n := Nat.mod_lt _ (by omega)
  simp [hlt]

theorem RingHolds.push {items : List (Option α)} {start : Nat} {q : List α}
    (h : RingHolds items start q) (hq : q.length < items.length) (x : α) :
    RingHolds (items.set ((start + q.length) % items.length) (some x)) start (q ++ [x]) := by
  intro i hi
  rw [List.length_set] at hi ⊢
  have hlt : (start + q.length) % items.length < items.length := Nat.mod_lt _ (by omega)
  by_cases he : i = q.length
  · subst he
    simp [hlt]
  · have hne : (start + q.length) % items.length ≠ (start + i) % items.length :=
      fun hc => he (ring_index_inj hq hi hc).symm
    rw [List.getElem?_set_ne hne, h i hi]
    rcases Nat.lt_or_gt_of_ne he with hl | hg
    · rw [List.getElem?_append_left hl]
    · rw [List.getElem?_eq_none (by omega), List.getElem?_eq_none (by simp; omega)]

theorem RingHolds.head {items : List (Option α)} {start : Nat} {q : List α}
    (h : RingHolds items start q) (hs : start < items.length) : items[start]? = some q[0]? := by
  have h0 := h 0 (by omega)
  rwa [Nat.add_zero, Nat.mod_eq_of_lt hs] at h0

theorem RingHolds.pop {items : List (Option α)} {start : Nat} {x : α} {q : List α}
    (h : RingHolds items start (x :: q)) (hs : start < items.length) (hq : q.length < items.length) :
    RingHolds (items.set start none) ((start + 1) % items.length) q := by
  intro i hi
  rw [List.length_set] at hi ⊢
  have hidx : ((start + 1) % items.length + i) % items.length = (start + (i + 1)) % items.length := by
    rw [Nat.mod_add_mod]
    congr 1
    omega
  rw [hidx]
  by_cases hl : i + 1 < items.length
  · have hne : start ≠ (start + (i + 1)) % items.length := by
      intro hc
      have h0 : (start + 0) % items.length = (start + (i + 1)) % items.length := by
        rw [Nat.add_zero, Nat.mod_eq_of_lt hs]; exact hc
      have := ring_index_inj (by omega) hl h0
      omega
    rw [List.getElem?_set_ne hne, h (i + 1) hl, List.getElem?_cons_succ]
  · have hlast : i + 1 = items.length := by omega
    rw [hlast, Nat.add_mod_right, Nat.mod_eq_of_lt hs, List.getElem?_set_self hs,
      List.getElem?_eq_none (by omega)]

end Devclego.Foundation
