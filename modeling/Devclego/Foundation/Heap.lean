import Mathlib.Order.Basic
import Mathlib.Data.List.Basic

/-!
# Binary heaps in a list

A list read as a complete binary tree: the parent of position `i` is `(i - 1) / 2`.
A value that rises or sinks leaves the order broken at one position only, the hole;
the two `Ready` structures say what is left of it, with the value already put there.
-/
namespace Devclego.Foundation

variable {α : Type} [Preorder α]

/-- Every element is at most its parent. -/
def HeapOrdered (xs : List α) : Prop :=
  ∀ i x y, 0 < i → xs[i]? = some x → xs[(i - 1) / 2]? = some y → x ≤ y

/-- The elements `x` at `i` and `y` at `j`, put in each other's place. -/
def exchange (xs : List α) (i j : Nat) (x y : α) : List α := (xs.set i y).set j x

variable {xs : List α} {i j k hole : Nat} {x y v p w : α}

omit [Preorder α] in
theorem lt_of_getElem? (h : xs[i]? = some x) : i < xs.length := (List.getElem?_eq_some_iff.mp h).1

omit [Preorder α] in
theorem exchange_first (hij : i ≠ j) (hi : xs[i]? = some x) : (exchange xs i j v y)[i]? = some y := by
  rw [exchange, List.getElem?_set_ne hij.symm, List.getElem?_set_self (lt_of_getElem? hi)]

omit [Preorder α] in
theorem exchange_second (hj : xs[j]? = some y) : (exchange xs i j x v)[j]? = some x := by
  rw [exchange, List.getElem?_set_self (by rw [List.length_set]; exact lt_of_getElem? hj)]

omit [Preorder α] in
theorem exchange_other (hki : k ≠ i) (hkj : k ≠ j) : (exchange xs i j x y)[k]? = xs[k]? := by
  rw [exchange, List.getElem?_set_ne hkj.symm, List.getElem?_set_ne hki.symm]

omit [Preorder α] in
theorem exchange_perm (hi : xs[i]? = some x) (hj : xs[j]? = some y) : (exchange xs i j x y).Perm xs := by
  obtain ⟨hilt, rfl⟩ := List.getElem?_eq_some_iff.mp hi
  obtain ⟨hjlt, rfl⟩ := List.getElem?_eq_some_iff.mp hj
  exact List.set_set_perm hilt hjlt

omit [Preorder α] in
theorem length_exchange : (exchange xs i j x y).length = xs.length := by
  rw [exchange, List.length_set, List.length_set]

/-- The root is at least every element. -/
theorem HeapOrdered.le_root (h : HeapOrdered xs) (hroot : xs[0]? = some y) (hi : xs[i]? = some x) :
    x ≤ y := by
  induction i using Nat.strongRecOn generalizing x with
  | ind i ih =>
    rcases Nat.eq_zero_or_pos i with rfl | hpos
    · rw [hi] at hroot
      cases hroot
      exact le_refl _
    · have hup : (i - 1) / 2 < i := by omega
      have hlt := lt_of_getElem? hi
      obtain ⟨z, hz⟩ : ∃ z, xs[(i - 1) / 2]? = some z := ⟨_, List.getElem?_eq_getElem (by omega)⟩
      exact (h i x z hpos hi hz).trans (ih _ hup hz)

/-! ## A value that rises -/

/-- The order holds but between the hole and its parent, and the hole's children are
at most its parent. -/
structure RiseReady (xs : List α) (hole : Nat) : Prop where
  order : ∀ i x y, 0 < i → i ≠ hole → xs[i]? = some x → xs[(i - 1) / 2]? = some y → x ≤ y
  grand : ∀ i x y, 0 < i → (i - 1) / 2 = hole → 0 < hole → xs[i]? = some x →
    xs[(hole - 1) / 2]? = some y → x ≤ y

theorem HeapOrdered.concat (h : HeapOrdered xs) (v : α) : RiseReady (xs ++ [v]) xs.length where
  order := by
    intro i x y hpos hne hx hy
    have hlt := lt_of_getElem? hx
    rw [List.length_append, List.length_singleton] at hlt
    rw [List.getElem?_append_left (by omega)] at hx hy
    exact h i x y hpos hx hy
  grand := by
    intro i x y hpos hpar hhole hx hy
    have hlt := lt_of_getElem? hx
    rw [List.length_append, List.length_singleton] at hlt
    omega

/-- The value changes places with a parent that it exceeds. -/
theorem RiseReady.move (h : RiseReady xs hole) (hpos : 0 < hole) (hv : xs[hole]? = some v)
    (hp : xs[(hole - 1) / 2]? = some p) (hle : p ≤ v) :
    RiseReady (exchange xs hole ((hole - 1) / 2) v p) ((hole - 1) / 2) := by
  have hup : (hole - 1) / 2 < hole := by omega
  have hatHole : (exchange xs hole ((hole - 1) / 2) v p)[hole]? = some p := exchange_first (by omega) hv
  have hatParent : (exchange xs hole ((hole - 1) / 2) v p)[(hole - 1) / 2]? = some v := exchange_second hp
  constructor
  · intro i x y hi hne hx hy
    by_cases hih : i = hole
    · subst hih
      rw [hatHole] at hx
      rw [hatParent] at hy
      cases hx
      cases hy
      exact hle
    · rw [exchange_other hih hne] at hx
      by_cases hph : (i - 1) / 2 = hole
      · rw [hph, hatHole] at hy
        cases hy
        exact h.grand i x p hi hph hpos hx hp
      · by_cases hpp : (i - 1) / 2 = (hole - 1) / 2
        · rw [hpp, hatParent] at hy
          cases hy
          exact (h.order i x p hi hih hx (hpp ▸ hp)).trans hle
        · rw [exchange_other hph hpp] at hy
          exact h.order i x y hi hih hx hy
  · intro i x y hi hpar hq hx hy
    rw [exchange_other (by omega) (by omega)] at hy
    have hpy : p ≤ y := h.order _ p y hq (by omega) hp hy
    by_cases hih : i = hole
    · subst hih
      rw [hatHole] at hx
      cases hx
      exact hpy
    · rw [exchange_other hih (by omega)] at hx
      exact (h.order i x p hi hih hx (hpar ▸ hp)).trans hpy

/-- The value has risen far enough. -/
theorem RiseReady.stop (h : RiseReady xs hole) (hv : xs[hole]? = some v)
    (hstop : 0 < hole → ∀ p, xs[(hole - 1) / 2]? = some p → v ≤ p) : HeapOrdered xs := by
  intro i x y hi hx hy
  by_cases hih : i = hole
  · subst hih
    rw [hv] at hx
    cases hx
    exact hstop hi y hy
  · exact h.order i x y hi hih hx hy

/-! ## A value that sinks -/

/-- The order holds but between the hole and its children, and the children are at
most the hole's parent. -/
structure SinkReady (xs : List α) (hole : Nat) : Prop where
  order : ∀ i x y, 0 < i → (i - 1) / 2 ≠ hole → xs[i]? = some x → xs[(i - 1) / 2]? = some y → x ≤ y
  grand : ∀ i x y, 0 < i → (i - 1) / 2 = hole → 0 < hole → xs[i]? = some x →
    xs[(hole - 1) / 2]? = some y → x ≤ y

/-- Every element is at most its parent, as far as the parent stands at `n` or behind. -/
def HeapOrderedFrom (n : Nat) (xs : List α) : Prop :=
  ∀ i x y, 0 < i → n ≤ (i - 1) / 2 → xs[i]? = some x → xs[(i - 1) / 2]? = some y → x ≤ y

/-- `SinkReady` as far as the parents stand at `n` or behind. -/
structure SinkReadyFrom (n : Nat) (xs : List α) (hole : Nat) : Prop where
  start_le : n ≤ hole
  order : ∀ i x y, 0 < i → n ≤ (i - 1) / 2 → (i - 1) / 2 ≠ hole → xs[i]? = some x →
    xs[(i - 1) / 2]? = some y → x ≤ y
  grand : ∀ i x y, 0 < i → (i - 1) / 2 = hole → 0 < hole → n ≤ (hole - 1) / 2 → xs[i]? = some x →
    xs[(hole - 1) / 2]? = some y → x ≤ y

theorem heapOrderedFrom_zero : HeapOrderedFrom 0 xs ↔ HeapOrdered xs :=
  ⟨fun h i x y hi hx hy => h i x y hi (Nat.zero_le _) hx hy, fun h i x y hi _ hx hy => h i x y hi hx hy⟩

/-- Behind the last parent there is nothing to order. -/
theorem heapOrderedFrom_half (xs : List α) : HeapOrderedFrom (xs.length / 2) xs := by
  intro i x y hi hle hx hy
  have hlt := lt_of_getElem? hx
  omega

theorem SinkReady.from_zero (h : SinkReady xs hole) : SinkReadyFrom 0 xs hole where
  start_le := Nat.zero_le hole
  order := fun i x y hi _ hne hx hy => h.order i x y hi hne hx hy
  grand := fun i x y hi hpar hhole _ hx hy => h.grand i x y hi hpar hhole hx hy

/-- The element before an ordered part can start to sink into it. -/
theorem HeapOrderedFrom.sink {n : Nat} (h : HeapOrderedFrom (n + 1) xs) : SinkReadyFrom n xs n where
  start_le := Nat.le_refl n
  order := fun i x y hi hle hne hx hy => h i x y hi (by omega) hx hy
  grand := by
    intro i x y hi hpar hpos hle hx hy
    omega

/-- The last element of a heap put in the place of its root. -/
theorem HeapOrdered.replace_root {mid : List α} (h : HeapOrdered (y :: (mid ++ [v]))) :
    SinkReady (v :: mid) 0 where
  order := by
    intro i x z hi hpar hx hz
    have hold : ∀ k t, 0 < k → (v :: mid)[k]? = some t → (y :: (mid ++ [v]))[k]? = some t := by
      intro k t hk ht
      obtain ⟨k, rfl⟩ := Nat.exists_eq_succ_of_ne_zero (Nat.ne_of_gt hk)
      rw [List.getElem?_cons_succ] at ht ⊢
      rw [List.getElem?_append_left (lt_of_getElem? ht), ht]
    exact h i x z hi (hold i x hi hx) (hold _ z (Nat.pos_of_ne_zero hpar) hz)
  grand := by
    intro i x z hi hpar hhole
    exact absurd hhole (Nat.lt_irrefl 0)

/-- The value changes places with the greater of the children. -/
theorem SinkReadyFrom.move {n : Nat} (h : SinkReadyFrom n xs hole) (hi : 0 < i) (hpar : (i - 1) / 2 = hole)
    (hv : xs[hole]? = some v) (hw : xs[i]? = some w) (hle : v ≤ w)
    (hmax : ∀ k x, 0 < k → (k - 1) / 2 = hole → xs[k]? = some x → x ≤ w) :
    SinkReadyFrom n (exchange xs hole i v w) i := by
  have hatHole : (exchange xs hole i v w)[hole]? = some w := exchange_first (by omega) hv
  have hatChild : (exchange xs hole i v w)[i]? = some v := exchange_second hw
  have hstart := h.start_le
  refine ⟨by omega, ?_, ?_⟩
  · intro k x y hk hin hne hx hy
    by_cases hkh : k = hole
    · subst hkh
      rw [hatHole] at hx
      rw [exchange_other (by omega) hne] at hy
      cases hx
      exact h.grand i w y hi hpar hk hin hw hy
    · by_cases hph : (k - 1) / 2 = hole
      · rw [hph, hatHole] at hy
        cases hy
        by_cases hki : k = i
        · subst hki
          rw [hatChild] at hx
          cases hx
          exact hle
        · rw [exchange_other hkh hki] at hx
          exact hmax k x hk hph hx
      · rw [exchange_other hph hne] at hy
        by_cases hki : k = i
        · exact absurd (hki ▸ hpar) hph
        · rw [exchange_other hkh hki] at hx
          exact h.order k x y hk hin hph hx hy
  · intro k x y hk hpk hpos hin hx hy
    rw [hpar, hatHole] at hy
    cases hy
    rw [exchange_other (by omega) (by omega)] at hx
    exact h.order k x w hk (by omega) (by omega) hx (hpk ▸ hw)

/-- The value has sunk far enough. -/
theorem SinkReadyFrom.stop {n : Nat} (h : SinkReadyFrom n xs hole) (hv : xs[hole]? = some v)
    (hstop : ∀ k x, 0 < k → (k - 1) / 2 = hole → xs[k]? = some x → x ≤ v) : HeapOrderedFrom n xs := by
  intro k x y hk hin hx hy
  by_cases hph : (k - 1) / 2 = hole
  · rw [hph, hv] at hy
    cases hy
    exact hstop k x hk hph hx
  · exact h.order k x y hk hin hph hx hy

end Devclego.Foundation
