import Devclego.Foundation.Ring
import Mathlib.Data.List.ReduceOption
import Mathlib.Data.List.Rotate

/-!
# Circular slots with holes

A ring whose stored part may have empty slots between its elements. The stored
part is a list of cells; the elements in it, in order, are its `reduceOption`.
-/
namespace Devclego.Foundation

variable {α : Type}

/-- The slots, read from `start` with wrap-around, are the cells and then empty. -/
def SparseRing (items : List (Option α)) (start : Nat) (cells : List (Option α)) : Prop :=
  ∀ i, i < items.length → items[(start + i) % items.length]? = some cells[i]?.join

variable {items cells pre post : List (Option α)} {start : Nat}

theorem sparseRing_empty (n s : Nat) : SparseRing (List.replicate n (none : Option α)) s [] := by
  intro i hi
  rw [List.length_replicate] at hi ⊢
  have hlt : (s + i) % n < n := Nat.mod_lt _ (by omega)
  simp [hlt]

theorem SparseRing.push (h : SparseRing items start cells) (hc : cells.length < items.length) (x : α) :
    SparseRing (items.set ((start + cells.length) % items.length) (some x)) start (cells ++ [some x]) := by
  intro i hi
  rw [List.length_set] at hi ⊢
  have hlt : (start + cells.length) % items.length < items.length := Nat.mod_lt _ (by omega)
  by_cases he : i = cells.length
  · subst he
    simp [hlt]
  · have hne : (start + cells.length) % items.length ≠ (start + i) % items.length :=
      fun hmod => he (ring_index_inj hc hi hmod).symm
    rw [List.getElem?_set_ne hne, h i hi]
    rcases Nat.lt_or_gt_of_ne he with hl | hg
    · rw [List.getElem?_append_left hl]
    · rw [List.getElem?_eq_none (by omega), List.getElem?_eq_none (by simp; omega)]

/-- An empty first cell can be left behind. -/
theorem SparseRing.skip (h : SparseRing items start (none :: cells)) (hc : cells.length < items.length) :
    SparseRing items ((start + 1) % items.length) cells := by
  intro i hi
  have hidx : ((start + 1) % items.length + i) % items.length = (start + (i + 1)) % items.length := by
    rw [Nat.mod_add_mod]
    congr 1
    omega
  rw [hidx]
  by_cases hl : i + 1 < items.length
  · rw [h (i + 1) hl, List.getElem?_cons_succ]
  · have hlast : i + 1 = items.length := by omega
    have hfirst := h 0 (by omega)
    have hout : cells[i]? = none := List.getElem?_eq_none (by omega)
    rw [Nat.add_zero] at hfirst
    rw [hlast, Nat.add_mod_right, hfirst, hout]
    rfl

theorem SparseRing.slot (h : SparseRing items start (pre ++ post)) (hp : pre.length < items.length) :
    items[(start + pre.length) % items.length]? = some post.head?.join := by
  rw [h pre.length hp, List.getElem?_append_right (Nat.le_refl _), Nat.sub_self, List.head?_eq_getElem?]

/-- The cell of an element that stands in a slot. -/
theorem SparseRing.cell_of {i : Nat} {x : α} (h : SparseRing items start cells) (hs : start < items.length)
    (hi : items[i]? = some (some x)) :
    ∃ pre post, cells = pre ++ some x :: post ∧ pre.length < items.length ∧
      (start + pre.length) % items.length = i := by
  obtain ⟨j, hj, rfl⟩ := exists_ring_offset hs (List.getElem?_eq_some_iff.mp hi).1
  have hcell : cells[j]? = some (some x) := by
    rw [h j hj, Option.some.injEq] at hi
    exact Option.join_eq_some_iff.mp hi
  obtain ⟨hlt, hx⟩ := List.getElem?_eq_some_iff.mp hcell
  have hlen : (cells.take j).length = j := List.length_take_of_le (Nat.le_of_lt hlt)
  refine ⟨cells.take j, cells.drop (j + 1), ?_, by rw [hlen]; exact hj, by rw [hlen]⟩
  rw [← hx, ← List.drop_eq_getElem_cons hlt, List.take_append_drop]

/-- Taking an element out leaves an empty cell in its place. -/
theorem SparseRing.vacate {x : α} (h : SparseRing items start (pre ++ some x :: post))
    (hp : pre.length < items.length) :
    SparseRing (items.set ((start + pre.length) % items.length) none) start (pre ++ none :: post) := by
  intro i hi
  rw [List.length_set] at hi ⊢
  have hlt : (start + pre.length) % items.length < items.length := Nat.mod_lt _ (by omega)
  by_cases he : i = pre.length
  · subst he
    simp [hlt]
  · have hne : (start + pre.length) % items.length ≠ (start + i) % items.length :=
      fun hmod => he (ring_index_inj hp hi hmod).symm
    rw [List.getElem?_set_ne hne, h i hi]
    rcases Nat.lt_or_gt_of_ne he with hl | hg
    · rw [List.getElem?_append_left hl, List.getElem?_append_left hl]
    · obtain ⟨j, rfl⟩ : ∃ j, i = pre.length + (j + 1) := ⟨i - pre.length - 1, by omega⟩
      rw [List.getElem?_append_right (by omega), List.getElem?_append_right (by omega),
        Nat.add_sub_cancel_left, List.getElem?_cons_succ, List.getElem?_cons_succ]

/-- Cells without an element can be forgotten. -/
theorem SparseRing.forget (h : SparseRing items start cells) (hnone : cells.reduceOption = []) :
    SparseRing items start [] := by
  intro i hi
  obtain ⟨n, rfl⟩ := (List.reduceOption_eq_nil_iff cells).mp hnone
  rw [h i hi, List.getElem?_nil, List.getElem?_replicate]
  split
  · rfl
  · rfl

/-- The ring, turned so that it begins at `start`. -/
theorem SparseRing.rotate (h : SparseRing items start cells) (hc : cells.length ≤ items.length) :
    items.rotate start = cells ++ List.replicate (items.length - cells.length) none := by
  apply List.ext_getElem?
  intro i
  by_cases hi : i < items.length
  · rw [List.getElem?_rotate hi, Nat.add_comm i start, h i hi]
    by_cases hl : i < cells.length
    · rw [List.getElem?_append_left hl, List.getElem?_eq_getElem hl]
      rfl
    · rw [List.getElem?_append_right (by omega), List.getElem?_eq_none (by omega),
        List.getElem?_replicate_of_lt (by omega)]
      rfl
  · rw [List.getElem?_eq_none (by rw [List.length_rotate]; omega),
      List.getElem?_eq_none (by rw [List.length_append, List.length_replicate]; omega)]

/-- The elements of a ring with holes, found by walking once around it. -/
theorem SparseRing.elements (h : SparseRing items start cells) (hc : cells.length ≤ items.length) :
    (items.rotate start).reduceOption = cells.reduceOption := by
  rw [h.rotate hc, List.reduceOption_append, List.reduceOption_replicate_none, List.append_nil]

/-! ## Cells up to an element -/

/-- The empty cells before the first element, and the cells behind it. -/
theorem reduceOption_eq_cons {x : α} {xs : List α} (h : cells.reduceOption = x :: xs) :
    ∃ d rest, cells = List.replicate d none ++ some x :: rest ∧ rest.reduceOption = xs := by
  induction cells with
  | nil => cases h
  | cons c cells ih =>
    cases c with
    | none =>
      rw [List.reduceOption_cons_of_none] at h
      obtain ⟨d, rest, he, hrest⟩ := ih h
      exact ⟨d + 1, rest, by rw [he, List.replicate_succ, List.cons_append], hrest⟩
    | some y =>
      rw [List.reduceOption_cons_of_some] at h
      obtain ⟨rfl, hrest⟩ := List.cons.inj h
      exact ⟨0, cells, rfl, hrest⟩

end Devclego.Foundation
