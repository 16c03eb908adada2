import Devclego.Heaps.Priority

/-!
# Ordering an array in place

The loop of `_heapify` goes from the last parent down to the first element; behind the
element that it has reached the array is ordered already. An array of one element has
no parent, and there the index of the last one wraps around.
-/
namespace Devclego.Heaps

open Foundation

variable {data : List (Option Int)} {xs : List Int} {item : Nat} {v : Int}

theorem stored_map (xs : List Int) : Stored (xs.map some) xs := by
  intro i x hx
  rw [List.getElem?_map, hx]
  rfl

/-- An array of no more cells than there are elements stores nothing else. -/
theorem Stored.eq_map (h : Stored data xs) (hsize : data.length = xs.length) : data = xs.map some := by
  rw [← h.take, List.take_of_length_le (Nat.le_of_eq hsize)]

/-- A stored element put in its own place changes nothing. -/
theorem Stored.set_self (h : Stored data xs) (hv : xs[item]? = some v) : data.set item (some v) = data := by
  obtain ⟨hin, hcell⟩ := List.getElem?_eq_some_iff.mp (h item v hv)
  rw [← hcell, List.set_getElem_self]

/-- What `_heapify` has done when it is at element `n`. -/
structure OrderedDownTo (n : Nat) (data : List (Option Int)) (xs : List Int) (data' : List (Option Int))
    (xs' : List Int) : Prop where
  length_eq : data'.length = data.length
  stored : Stored data' xs'
  ordered : HeapOrderedFrom n xs'
  perm : xs'.Perm xs

/-- One element sinks into the ordered part behind it. -/
theorem heapifyItem_spec (h : Stored data xs) (hordered : HeapOrderedFrom (item + 1) xs) (hitem : item < xs.length)
    (hshort : xs.length < 2 ^ 31) :
    ∃ data' xs', heapifyItem data xs.length item = some data' ∧ OrderedDownTo item data xs data' xs' := by
  obtain ⟨v, hv⟩ : ∃ v, xs[item]? = some v := ⟨_, List.getElem?_eq_getElem hitem⟩
  have htemp : readCell data item = some v := h.read hv
  have hput : Stored (data.set item (some v)) xs := by
    rw [h.set_self hv]
    exact h
  obtain ⟨data', index, xs', hloop, hleft⟩ :=
    siftLoop_spec hput hv hordered.sink hshort (show xs.length - item < xs.length + 1 by omega)
  rw [heapifyItem, htemp]
  simp only [hloop, Option.bind_eq_bind, Option.bind_some]
  by_cases hmoved : index = item
  · -- Without a move there is no write, and the value is still in its place.
    have hsame := hleft.stayed hmoved
    subst hmoved hsame
    have hstored := hleft.stored
    rw [h.set_self hv] at hstored
    exact ⟨_, xs', if_neg fun hne => hne rfl, rfl, hstored, hleft.ordered, hleft.perm⟩
  · refine ⟨data'.set index (some v), xs', ?_, ?_, hleft.stored, hleft.ordered, hleft.perm⟩
    · rw [if_pos hmoved]
      exact writeCell_eq (hleft.stored.hole_lt hleft.value)
    · rw [List.length_set, hleft.length_eq]

theorem heapifyLoop_spec (h : Stored data xs) (hordered : HeapOrderedFrom (item + 1) xs) (hitem : item < xs.length)
    (hshort : xs.length < 2 ^ 31) :
    ∃ data' xs', heapifyLoop xs.length item data = some data' ∧ OrderedDownTo 0 data xs data' xs' := by
  induction item generalizing data xs with
  | zero => exact heapifyItem_spec h hordered hitem hshort
  | succ item ih =>
    obtain ⟨data₁, xs₁, hbody, hone⟩ := heapifyItem_spec h hordered hitem hshort
    have hlength : xs₁.length = xs.length := hone.perm.length_eq
    obtain ⟨data', xs', hloop, hrest⟩ := ih hone.stored hone.ordered (by omega) (by omega)
    rw [hlength] at hloop
    refine ⟨data', xs', ?_, hrest.length_eq.trans hone.length_eq, hrest.stored, hrest.ordered,
      hrest.perm.trans hone.perm⟩
    rw [heapifyLoop, hbody]
    exact hloop

/-- From two elements on the loop starts at the last parent. -/
theorem heapify_spec (xs : List Int) (hmore : 2 ≤ xs.length) (hshort : xs.length < 2 ^ 31) :
    ∃ ys, heapify (xs.map some) xs.length = some (ys.map some) ∧ ys.Perm xs ∧ HeapOrdered ys := by
  have hstart : (xs.length / 2 + (2 ^ 32 - 1)) % 2 ^ 32 = xs.length / 2 - 1 := by omega
  have hlast : HeapOrderedFrom (xs.length / 2 - 1 + 1) xs := by
    rw [Nat.sub_add_cancel (by omega)]
    exact heapOrderedFrom_half xs
  obtain ⟨data', ys, hloop, hleft⟩ := heapifyLoop_spec (stored_map xs) hlast (by omega) hshort
  have hsize : data'.length = ys.length := by
    rw [hleft.length_eq, List.length_map, hleft.perm.length_eq]
  refine ⟨ys, ?_, hleft.perm, heapOrderedFrom_zero.mp hleft.ordered⟩
  rw [heapify, hstart, hloop, hleft.stored.eq_map hsize]

/-- A loop that starts outside the array faults. -/
theorem heapifyLoop_outside {count : Nat} (hout : data.length ≤ item) : heapifyLoop count item data = none := by
  have hread : readCell data item = none := by
    rw [readCell, List.getElem?_eq_none hout]
    rfl
  have hbody : heapifyItem data count item = none := by
    rw [heapifyItem, hread]
    rfl
  cases item with
  | zero => exact hbody
  | succ item =>
    rw [heapifyLoop, hbody]
    rfl

/-- The array of one element: half of its length is zero, and the index before it wraps
around. -/
theorem heapify_single (x : Int) : heapify [some x] 1 = none := by
  apply heapifyLoop_outside
  rw [List.length_singleton]
  decide

/-- A non-empty array becomes a heap of the same elements, with every access inside it, just
when it has more than one element. -/
theorem heapify_orders_iff (xs : List Int) (hne : 1 ≤ xs.length) (hshort : xs.length < 2 ^ 31) :
    (∃ ys, heapify (xs.map some) xs.length = some (ys.map some) ∧ ys.Perm xs ∧ HeapOrdered ys) ↔
      xs.length ≠ 1 := by
  constructor
  · rintro ⟨ys, hrun, -, -⟩ hone
    obtain ⟨x, rfl⟩ := List.length_eq_one_iff.mp hone
    exact absurd ((heapify_single x).symm.trans hrun) nofun
  · intro hmore
    exact heapify_spec xs (by omega) hshort

/-- Five elements, the last of which is the maximum. -/
theorem heapify_orders_iff_five :
    (∃ ys, heapify ([3, 1, 4, 1, 5].map some) 5 = some (ys.map some) ∧ ys.Perm [3, 1, 4, 1, 5] ∧ HeapOrdered ys) ↔
      [3, 1, 4, 1, 5].length ≠ 1 :=
  heapify_orders_iff [3, 1, 4, 1, 5] (by decide) (by decide)

/-- One element is a heap already, but its address is not what the loop reads. -/
theorem heapify_one_faults :
    ¬ ∃ ys, heapify ([7].map some) 1 = some (ys.map some) ∧ ys.Perm [7] ∧ HeapOrdered ys := by
  rintro ⟨ys, hrun, -, -⟩
  exact absurd ((heapifyLoop_outside (by decide)).symm.trans hrun) nofun

end Devclego.Heaps
