import Devclego.Foundation.Machine
import Devclego.Vectors.Model

/-!
# A vector is a list

The items of a vector are a list, whatever the block looks like behind them. For each
call it is said exactly when it does to the list what its name says: a full vector cannot
be shifted, and of the items behind one that is removed only the next one moves.
-/
namespace Devclego.Vectors

open Foundation

/-- A list and the number of items that there is room for. -/
abbrev Room (α : Type) := List α × Nat

inductive Call (α : Type) where
  | push (elem : α)
  | insert (elem : α) (index : Nat)
  | insertAt (elem : α) (index : Nat)
  | pop
  | shift
  | unshift (elem : α)
  | get (index : Nat)
  | getAll
  | length
  | remove (index : Nat)
  | removeAll
deriving DecidableEq, Repr

inductive Reply (α : Type) where
  | done
  | item (elem : Option α)
  | got (elem : Option (Option α))
  | items (elems : List (Option α))
  | count (n : Nat)
deriving DecidableEq, Repr

variable {α : Type}

def callStep (v : Vec α) : Call α → Option (Vec α × Reply α)
  | .push elem => (vectorPush v elem).map fun v => (v, .done)
  | .insert elem index => (vectorInsert v elem index).map fun v => (v, .done)
  | .insertAt elem index => (vectorInsertAt v elem index).map fun v => (v, .done)
  | .pop => (vectorPop v).map fun r => (r.1, .item r.2)
  | .shift => (vectorShift v).map fun r => (r.1, .item r.2)
  | .unshift elem => (vectorUnshift v elem).map fun v => (v, .done)
  | .get index => (vectorGet v index).map fun elem => (v, .got elem)
  | .getAll => (vectorGetAll v).map fun elems => (v, .items elems)
  | .length => some (v, .count v.itemsNum)
  | .remove index => (vectorRemove v index).map fun v => (v, .done)
  | .removeAll => (vectorRemoveAll v).map fun v => (v, .done)

/-- The room after one more item, when a full vector is doubled. -/
def doubled (r : Room α) : Nat := if r.1.length < r.2 then r.2 else r.2 * 2

/-- What the calls do to a list; a negative index of `insert` appends. -/
def listStep (r : Room α) : Call α → Room α × Reply α
  | .push elem => ((r.1 ++ [elem], doubled r), .done)
  | .insert elem index =>
    if -1 < toInt index then ((r.1.set index elem, r.2), .done) else ((r.1 ++ [elem], doubled r), .done)
  | .insertAt elem index => if toInt index < 0 then (r, .done) else ((r.1.insertIdx index elem, doubled r), .done)
  | .pop => ((r.1.dropLast, r.2), .item r.1.getLast?)
  | .shift => ((r.1.tail, r.2), .item r.1.head?)
  | .unshift elem => ((elem :: r.1, if r.1.length < r.2 then r.2 else r.1.length + 1), .done)
  | .get index => (r, .got (r.1[index]?.map some))
  | .getAll => (r, .items (r.1.map some))
  | .length => (r, .count r.1.length)
  | .remove index => ((r.1.eraseIdx index, r.2), .done)
  | .removeAll => (([], r.2), .done)

/-- There is room for one more item, or the block can be doubled. -/
def Grows (itemSize : Nat) (r : Room α) : Prop := r.1.length < r.2 ∨ itemSize * (r.2 * 2) ≤ blockMax

/-- When a call does to the vector what it does to the list. -/
def Guard (itemSize : Nat) (r : Room α) : Call α → Prop
  | .push _ => Grows itemSize r
  | .insert _ index => -1 < toInt index ∨ Grows itemSize r
  | .insertAt _ index => toInt index < 0 ∨ index ≤ r.1.length ∧ Grows itemSize r
  | .pop => r.1 ≠ []
  | .shift => r.1 ≠ [] ∧ r.1.length < r.2
  | .unshift _ => r.1.length < r.2 ∨ itemSize * (r.1.length + 1) ≤ blockMax
  | .get index => 0 ≤ toInt index
  | .getAll => True
  | .length => True
  | .remove index => 0 < toInt index ∧ (index < r.1.length → index + 1 < r.2 ∧
      ∀ k, index < k → k + 1 < r.1.length → r.1[k]? = r.1[k + 1]?)
  | .removeAll => itemSize = 1

/-- A vector with these items in a block with that much room. -/
structure Stores (v : Vec α) (r : Room α) : Prop where
  size : 0 < v.itemSize
  room : 0 < r.2
  fits : v.itemSize * r.2 ≤ blockMax
  alloc : v.itemsAllocNum = r.2
  cells : v.items.length = r.2
  num : v.itemsNum = r.1.length
  length_le : r.1.length ≤ r.2
  held : ∀ (k : Nat) (x : α), r.1[k]? = some x → v.items[k]? = some (some x)

variable {v : Vec α} {r : Room α} {l : List α} {items : List (Option α)} {elem : α} {index cap : Nat}
  {call : Call α}

/-! ## Blocks -/

theorem Stores.room_le (h : Stores v r) : r.2 ≤ blockMax :=
  Nat.le_trans (Nat.le_mul_of_pos_left r.2 h.size) h.fits

theorem Stores.hasSpace_iff (h : Stores v r) : hasSpace v = true ↔ r.1.length < r.2 := by
  have hle := h.length_le
  have hroom := h.room_le
  have hmax : blockMax = 2 ^ 63 - 1 := rfl
  unfold hasSpace
  rw [decide_eq_true_iff, h.num, h.alloc, Nat.mod_eq_of_lt (by omega)]
  exact Iff.rfl

theorem Stores.next (h : Stores v r) : (v.itemsNum + 1) % 2 ^ 64 = r.1.length + 1 := by
  have hle := h.length_le
  have hroom := h.room_le
  have hmax : blockMax = 2 ^ 63 - 1 := rfl
  rw [h.num, Nat.mod_eq_of_lt (by omega)]

theorem decrement_succ {n : Nat} (hn : n + 1 < 2 ^ 64) : decrement (n + 1) = n := by
  unfold decrement
  omega

theorem cellsOf_mul {itemSize cells : Nat} (hsize : 0 < itemSize) (hcells : itemSize * cells < 2 ^ 64) :
    cellsOf itemSize (itemSize * cells % 2 ^ 64) = if itemSize * cells ≤ blockMax then some cells else none := by
  rw [Nat.mod_eq_of_lt hcells, cellsOf, Nat.mul_div_cancel_left _ hsize]

theorem length_resize (items : List (Option α)) (cells : Nat) : (resize items cells).length = cells := by
  unfold resize
  rw [List.length_append, List.length_take, List.length_replicate]
  omega

theorem getElem?_resize {cells k : Nat} (hk : k < items.length) (hcells : k < cells) :
    (resize items cells)[k]? = items[k]? := by
  unfold resize
  rw [List.getElem?_append_left (by rw [List.length_take]; omega), List.getElem?_take_of_lt hcells]

theorem moveItems_spec {items' : List (Option α)} {target source count : Nat}
    (h : moveItems items target source count = some items') :
    items'.length = items.length ∧ ∀ k : Nat, items'[k]? =
      if target ≤ k ∧ k < target + count then items[source + (k - target)]? else items[k]? := by
  unfold moveItems at h
  split at h
  case isFalse => cases h
  case isTrue hfits =>
    cases h
    have htake : (items.take target).length = target := by
      rw [List.length_take]
      omega
    have hmoved : ((items.drop source).take count).length = count := by
      rw [List.length_take, List.length_drop]
      omega
    constructor
    · rw [List.length_append, List.length_append, htake, hmoved, List.length_drop]
      omega
    · intro k
      rw [List.append_assoc]
      by_cases hlow : k < target
      · rw [List.getElem?_append_left (by rw [htake]; exact hlow), List.getElem?_take_of_lt hlow, if_neg (by omega)]
      · rw [List.getElem?_append_right (by rw [htake]; omega), htake]
        by_cases hmid : k < target + count
        · rw [List.getElem?_append_left (by rw [hmoved]; omega), List.getElem?_take_of_lt (by omega), List.getElem?_drop,
            if_pos ⟨by omega, hmid⟩]
        · have hback : target + count + (k - target - count) = k := by omega
          rw [List.getElem?_append_right (by rw [hmoved]; omega), hmoved, List.getElem?_drop, if_neg (by omega), hback]

/-- More room for the same items. -/
theorem Stores.grown (h : Stores v r) (hcap : r.2 ≤ cap) (hfits : v.itemSize * cap ≤ blockMax) :
    Stores { v with itemsAllocNum := cap, items := resize v.items cap } (r.1, cap) where
  size := h.size
  room := Nat.lt_of_lt_of_le h.room hcap
  fits := hfits
  alloc := rfl
  cells := length_resize ..
  num := h.num
  length_le := Nat.le_trans h.length_le hcap
  held := by
    intro k x hk
    have hlt := Nat.lt_of_lt_of_le (List.getElem?_eq_some_iff.mp hk).1 h.length_le
    dsimp only
    rw [getElem?_resize (by rw [h.cells]; exact hlt) (Nat.lt_of_lt_of_le hlt hcap)]
    exact h.held k x hk

theorem Stores.doubles (h : Stores v r) :
    vectorGrow v 0 = if v.itemSize * (r.2 * 2) ≤ blockMax then
      some { v with itemsAllocNum := r.2 * 2, items := resize v.items (r.2 * 2) } else none := by
  have hroom := h.room_le
  have hfits := h.fits
  have hmax : blockMax = 2 ^ 63 - 1 := rfl
  have htwice : v.itemSize * (r.2 * 2) = v.itemSize * r.2 * 2 := (Nat.mul_assoc ..).symm
  unfold vectorGrow
  rw [if_neg (Nat.not_lt_zero _), h.alloc, Nat.mod_eq_of_lt (by omega)]
  dsimp only
  rw [cellsOf_mul h.size (by omega)]
  split
  · rfl
  · rfl

theorem Stores.grows (h : Stores v r) (hfull : ¬ r.1.length < r.2) :
    vectorGrow v (r.1.length + 1) = if v.itemSize * (r.1.length + 1) ≤ blockMax then
      some { v with itemsAllocNum := r.1.length + 1, items := resize v.items (r.1.length + 1) } else none := by
  have hle := h.length_le
  have hsame : r.2 = r.1.length := by omega
  have hfits := h.fits
  have hone := Nat.le_mul_of_pos_right v.itemSize h.room
  have hmax : blockMax = 2 ^ 63 - 1 := rfl
  have hmore : v.itemSize * (r.1.length + 1) = v.itemSize * r.2 + v.itemSize := by rw [hsame, Nat.mul_succ]
  unfold vectorGrow
  rw [if_pos (by rw [h.alloc]; omega)]
  dsimp only
  rw [cellsOf_mul h.size (by omega)]
  split
  · rfl
  · rfl

/-- Room for one more item, as `push` and `insert_at` make it. -/
theorem Stores.reserve (h : Stores v r) :
    (Grows v.itemSize r → ∃ v', Vectors.reserve v 0 = some v' ∧
      Stores v' (r.1, doubled r) ∧ v'.itemSize = v.itemSize ∧ r.1.length < doubled r) ∧
    (¬ Grows v.itemSize r → Vectors.reserve v 0 = none) := by
  unfold Grows doubled Vectors.reserve
  by_cases hspace : r.1.length < r.2
  · rw [if_pos (h.hasSpace_iff.mpr hspace), if_pos hspace]
    exact ⟨fun _ => ⟨v, rfl, h, rfl, hspace⟩, fun hnot => absurd (Or.inl hspace) hnot⟩
  · rw [if_neg (mt h.hasSpace_iff.mp hspace), if_neg hspace, h.doubles]
    have hroom := h.room
    have hle := h.length_le
    constructor
    · intro hgrows
      have hfits := hgrows.resolve_left hspace
      rw [if_pos hfits]
      exact ⟨_, rfl, h.grown (by omega) hfits, rfl, by omega⟩
    · intro hnot
      rw [if_neg fun hfits => hnot (Or.inr hfits)]

/-! ## Items -/

/-- Other items in the same block. -/
theorem Stores.replace {n : Nat} {l' : List α} (h : Stores v r) (hlength : items.length = r.2) (hn : n = l'.length)
    (hle : l'.length ≤ r.2) (hheld : ∀ (k : Nat) (x : α), l'[k]? = some x → items[k]? = some (some x)) :
    Stores { v with itemsNum := n, items := items } (l', r.2) where
  size := h.size
  room := h.room
  fits := h.fits
  alloc := h.alloc
  cells := hlength
  num := hn
  length_le := hle
  held := hheld

theorem Stores.read (h : Stores v r) (hindex : index < r.1.length) : v.items[index]? = r.1[index]?.map some := by
  have hitem := List.getElem?_eq_getElem hindex
  rw [hitem, h.held index _ hitem]
  rfl

theorem Stores.inBounds_iff (h : Stores v r) : inBounds v index = true ↔ 0 ≤ toInt index ∧ index < r.1.length := by
  unfold inBounds
  rw [Bool.and_eq_true, decide_eq_true_iff, decide_eq_true_iff, h.num]

/-- An item over another one. -/
theorem Stores.write (h : Stores v r) (hindex : index < r.1.length) :
    ∃ v', ((writeItem v.items index (some elem)).bind fun items => some { v with items := items }) = some v' ∧
      Stores v' (r.1.set index elem, r.2) ∧ v'.itemSize = v.itemSize := by
  have hlt : index < v.items.length := by
    rw [h.cells]
    exact Nat.lt_of_lt_of_le hindex h.length_le
  unfold writeItem
  rw [if_pos hlt]
  refine ⟨_, rfl, h.replace ?_ ?_ ?_ ?_, rfl⟩
  · rw [List.length_set]
    exact h.cells
  · rw [List.length_set]
    exact h.num
  · rw [List.length_set]
    exact h.length_le
  · intro k x hk
    rw [List.getElem?_set] at hk ⊢
    split at hk
    · rw [if_pos ‹_›, if_pos (by omega), hk]
    · rw [if_neg ‹_›]
      exact h.held k x hk

/-- An item behind the last one. -/
theorem Stores.append (h : Stores v r) (hspace : r.1.length < r.2) :
    ∃ v', ((writeItem v.items v.itemsNum (some elem)).bind fun items =>
        some { v with itemsNum := (v.itemsNum + 1) % 2 ^ 64, items := items }) = some v' ∧
      Stores v' (r.1 ++ [elem], r.2) ∧ v'.itemSize = v.itemSize := by
  have hlt : r.1.length < v.items.length := by
    rw [h.cells]
    exact hspace
  have hlength : (r.1 ++ [elem]).length = r.1.length + 1 := by rw [List.length_append, List.length_singleton]
  unfold writeItem
  rw [h.num, if_pos hlt]
  refine ⟨_, rfl, h.replace ?_ ?_ ?_ ?_, rfl⟩
  · rw [List.length_set]
    exact h.cells
  · rw [← h.num, h.next, hlength]
  · rw [hlength]
    exact hspace
  · intro k x hk
    by_cases hold : k < r.1.length
    · rw [List.getElem?_append_left hold] at hk
      rw [List.getElem?_set_ne (by omega)]
      exact h.held k x hk
    · have hnew : k = r.1.length := by
        have hbound := (List.getElem?_eq_some_iff.mp hk).1
        omega
      subst hnew
      rw [List.getElem?_concat_length] at hk
      rw [List.getElem?_set_self hlt, hk]

/-! ## Calls -/

/-- The call does to the vector what it does to the list. -/
def Acts (v : Vec α) (r : Room α) (call : Call α) : Prop :=
  ∃ v', callStep v call = some (v', (listStep r call).2) ∧ Stores v' (listStep r call).1 ∧ v'.itemSize = v.itemSize

theorem push_spec (h : Stores v r) (hinsert : toInt index ≤ -1) :
    (Grows v.itemSize r → ∃ v', vectorInsert v elem index = some v' ∧ Stores v' (r.1 ++ [elem], doubled r) ∧
      v'.itemSize = v.itemSize) ∧
    (¬ Grows v.itemSize r → vectorInsert v elem index = none) := by
  obtain ⟨hgrow, hnone⟩ := h.reserve
  unfold vectorInsert
  rw [if_neg (by omega)]
  simp only [Option.bind_eq_bind]
  constructor
  · intro hgrows
    obtain ⟨v', hreserve, hstores, hsize, hspace⟩ := hgrow hgrows
    obtain ⟨v'', hwrite, hstores', hsize'⟩ := @Stores.append _ v' _ elem hstores hspace
    rw [hreserve, Option.bind_some]
    exact ⟨v'', hwrite, hstores', hsize'.trans hsize⟩
  · intro hnot
    rw [hnone hnot]
    rfl

theorem not_acts (h : callStep v call = none) : ¬ Acts v r call := by
  rintro ⟨v', hstep, -⟩
  cases h.symm.trans hstep

theorem acts_push_iff (h : Stores v r) : Acts v r (.push elem) ↔ Grows v.itemSize r := by
  obtain ⟨hpush, hnone⟩ := @push_spec _ v r elem (2 ^ 64 - 1) h (by decide)
  constructor
  · intro hacts
    by_contra hnot
    exact not_acts (by rw [callStep, vectorPush, hnone hnot]; rfl) hacts
  · intro hgrows
    obtain ⟨v', hpushed, hstores, hsize⟩ := hpush hgrows
    exact ⟨v', by rw [callStep, vectorPush, hpushed]; rfl, hstores, hsize⟩

theorem acts_insert_iff (h : Stores v r) :
    Acts v r (.insert elem index) ↔ -1 < toInt index ∨ Grows v.itemSize r := by
  unfold Acts
  rw [callStep, listStep]
  by_cases hindex : -1 < toInt index
  · refine iff_of_true ?_ (Or.inl hindex)
    rw [if_pos hindex]
    unfold vectorInsert
    rw [if_pos hindex]
    by_cases hbounds : inBounds v index = true
    · obtain ⟨v', hwrite, hstores, hsize⟩ := @Stores.write _ v r elem index h (h.inBounds_iff.mp hbounds).2
      rw [if_pos hbounds]
      simp only [Option.bind_eq_bind, hwrite]
      exact ⟨v', rfl, hstores, hsize⟩
    · have hout : r.1.length ≤ index := by
        by_contra hin
        exact hbounds (h.inBounds_iff.mpr ⟨by omega, by omega⟩)
      rw [if_neg hbounds, List.set_eq_of_length_le hout]
      exact ⟨v, rfl, h, rfl⟩
  · obtain ⟨hpush, hnone⟩ := @push_spec _ v r elem index h (by omega)
    rw [if_neg hindex, or_iff_right hindex]
    constructor
    · rintro ⟨v', hstep, -⟩
      by_contra hnot
      rw [hnone hnot] at hstep
      cases hstep
    · intro hgrows
      obtain ⟨v', hpushed, hstores, hsize⟩ := hpush hgrows
      exact ⟨v', by rw [hpushed]; rfl, hstores, hsize⟩

theorem acts_pop_iff (h : Stores v r) : Acts v r .pop ↔ r.1 ≠ [] := by
  have hroom := h.room_le
  have hle := h.length_le
  have hmax : blockMax = 2 ^ 63 - 1 := rfl
  unfold Acts
  rw [callStep, listStep, vectorPop]
  constructor
  · rintro ⟨v', hstep, -⟩ hnil
    have hzero : v.itemsNum = 0 := by rw [h.num, hnil, List.length_nil]
    rw [hzero, List.getElem?_eq_none (by rw [h.cells, decrement]; omega)] at hstep
    cases hstep
  · intro hsome
    obtain ⟨l, last, hlast⟩ := (List.eq_nil_or_concat' r.1).resolve_left hsome
    have hlength : r.1.length = l.length + 1 := by rw [hlast, List.length_append, List.length_singleton]
    have hnum : decrement v.itemsNum = l.length := by rw [h.num, hlength, decrement_succ (by omega)]
    have hread : v.items[l.length]? = some (some last) :=
      h.held l.length last (by rw [hlast, List.getElem?_concat_length])
    rw [hnum, hread, hlast, List.dropLast_concat, List.getLast?_concat]
    refine ⟨_, rfl, h.replace h.cells rfl (by omega) fun k x hk => ?_, rfl⟩
    refine h.held k x ?_
    rw [hlast, List.getElem?_append_left (List.getElem?_eq_some_iff.mp hk).1]
    exact hk

theorem acts_shift_iff (h : Stores v r) : Acts v r .shift ↔ r.1 ≠ [] ∧ r.1.length < r.2 := by
  have hroom := h.room_le
  have hle := h.length_le
  have hmax : blockMax = 2 ^ 63 - 1 := rfl
  unfold Acts
  rw [callStep, listStep, vectorShift]
  simp only [Option.bind_eq_bind]
  by_cases hfull : r.1.length < r.2
  · obtain ⟨items, hmove⟩ : ∃ items, moveItems v.items 0 1 v.itemsNum = some items :=
      ⟨_, if_pos (by rw [h.num, h.cells]; omega)⟩
    obtain ⟨hlength, hitems⟩ := moveItems_spec hmove
    rw [hmove]
    constructor
    · rintro ⟨v', hstep, hstores, -⟩
      refine ⟨fun hnil => ?_, hfull⟩
      obtain ⟨elem, helem⟩ : ∃ elem, v.items[0]? = some elem :=
        ⟨_, List.getElem?_eq_getElem (by rw [h.cells]; omega)⟩
      rw [helem] at hstep
      cases hstep
      have hnum := hstores.num
      dsimp only at hnum
      rw [h.num, hnil, decrement, List.tail_nil, List.length_nil] at hnum
      omega
    · rintro ⟨hsome, -⟩
      obtain ⟨first, l, hl⟩ := List.exists_cons_of_ne_nil hsome
      have hsize : r.1.length = l.length + 1 := by rw [hl, List.length_cons]
      have hnum : decrement v.itemsNum = l.length := by rw [h.num, hsize, decrement_succ (by omega)]
      have hread : v.items[0]? = some (some first) := h.held 0 first (by rw [hl]; rfl)
      rw [hread, hnum, hl, List.tail_cons, List.head?_cons]
      refine ⟨_, rfl, h.replace (hlength.trans h.cells) rfl (by omega) fun k x hk => ?_, rfl⟩
      have hlt := (List.getElem?_eq_some_iff.mp hk).1
      have hnext : v.items[k + 1]? = some (some x) := h.held (k + 1) x (by rw [hl]; exact hk)
      rw [hitems, if_pos ⟨Nat.zero_le k, by rw [h.num]; omega⟩, Nat.sub_zero, Nat.add_comm 1 k]
      exact hnext
  · have hmove : moveItems v.items 0 1 v.itemsNum = none := if_neg (by rw [h.num, h.cells]; omega)
    rw [hmove]
    refine iff_of_false ?_ fun hboth => hfull hboth.2
    rintro ⟨v', hstep, -⟩
    cases hitem : v.items[0]? with
    | none => rw [hitem] at hstep; cases hstep
    | some elem => rw [hitem] at hstep; cases hstep

/-- An item before the others, when there is room. -/
theorem Stores.prepend (h : Stores v r) (hspace : r.1.length < r.2) :
    ∃ v', ((moveItems v.items 1 0 v.itemsNum).bind fun items => (writeItem items 0 (some elem)).bind fun items =>
        some { v with itemsNum := (v.itemsNum + 1) % 2 ^ 64, items := items }) = some v' ∧
      Stores v' (elem :: r.1, r.2) ∧ v'.itemSize = v.itemSize := by
  obtain ⟨items, hmove⟩ : ∃ items, moveItems v.items 1 0 v.itemsNum = some items :=
    ⟨_, if_pos (by rw [h.num, h.cells]; omega)⟩
  obtain ⟨hlength, hitems⟩ := moveItems_spec hmove
  have hroom := h.room
  have hlt : 0 < items.length := by rw [hlength, h.cells]; exact hroom
  have hwrite : writeItem items 0 (some elem) = some (items.set 0 (some elem)) := if_pos hlt
  rw [hmove, Option.bind_some, hwrite, Option.bind_some, h.next]
  refine ⟨_, rfl, h.replace ?_ rfl (by rw [List.length_cons]; omega) ?_, rfl⟩
  · rw [List.length_set, hlength]
    exact h.cells
  · intro k x hk
    cases k with
    | zero => rw [List.getElem?_set_self hlt, ← hk, List.getElem?_cons_zero]
    | succ k =>
      have hold : r.1[k]? = some x := hk
      have hbound := (List.getElem?_eq_some_iff.mp hold).1
      rw [List.getElem?_set_ne (by omega), hitems, if_pos ⟨by omega, by rw [h.num]; omega⟩, Nat.zero_add,
        Nat.add_sub_cancel]
      exact h.held k x hold

theorem acts_unshift_iff (h : Stores v r) :
    Acts v r (.unshift elem) ↔ r.1.length < r.2 ∨ v.itemSize * (r.1.length + 1) ≤ blockMax := by
  unfold Acts
  rw [callStep, listStep, vectorUnshift, h.next, Vectors.reserve]
  simp only [Option.bind_eq_bind]
  by_cases hspace : r.1.length < r.2
  · obtain ⟨v', hprepend, hstores, hsize⟩ := @Stores.prepend _ v r elem h hspace
    rw [h.next] at hprepend
    rw [if_pos (h.hasSpace_iff.mpr hspace), Option.bind_some, h.next, hprepend, if_pos hspace]
    exact iff_of_true ⟨v', rfl, hstores, hsize⟩ (Or.inl hspace)
  · rw [if_neg (mt h.hasSpace_iff.mp hspace), h.grows hspace, if_neg hspace, or_iff_right hspace]
    have hle := h.length_le
    by_cases hfits : v.itemSize * (r.1.length + 1) ≤ blockMax
    · have hgrown := @Stores.grown _ v r (r.1.length + 1) h (by omega) hfits
      obtain ⟨v', hprepend, hstores, hsize⟩ := @Stores.prepend _ _ _ elem hgrown (Nat.lt_succ_self _)
      rw [if_pos hfits, Option.bind_some, hprepend]
      exact iff_of_true ⟨v', rfl, hstores, hsize⟩ hfits
    · rw [if_neg hfits]
      refine iff_of_false ?_ hfits
      rintro ⟨v', hstep, -⟩
      cases hstep

/-- An item between others, when there is room. -/
theorem Stores.insertAt (h : Stores v r) (hspace : r.1.length < r.2) (hindex : 0 ≤ toInt index)
    (hin : index ≤ r.1.length) :
    ∃ v', ((if index < v.itemsNum then moveItems v.items (index + 1) index (v.itemsNum - index) else some v.items).bind
        fun items => vectorInsert { v with itemsNum := (v.itemsNum + 1) % 2 ^ 64, items := items } elem index) = some v' ∧
      Stores v' (r.1.insertIdx index elem, r.2) ∧ v'.itemSize = v.itemSize := by
  obtain ⟨items, hmove, hlength, hlow, hhigh⟩ : ∃ items,
      (if index < v.itemsNum then moveItems v.items (index + 1) index (v.itemsNum - index) else some v.items) =
        some items ∧
      items.length = v.items.length ∧ (∀ k : Nat, k < index → items[k]? = v.items[k]?) ∧
      ∀ k : Nat, index ≤ k → k < r.1.length → items[k + 1]? = v.items[k]? := by
    by_cases hlast : index < v.itemsNum
    · obtain ⟨items, hmove⟩ : ∃ items, moveItems v.items (index + 1) index (v.itemsNum - index) = some items :=
        ⟨_, if_pos (by rw [h.num, h.cells]; omega)⟩
      obtain ⟨hlength, hitems⟩ := moveItems_spec hmove
      rw [if_pos hlast]
      refine ⟨items, hmove, hlength, fun k hk => ?_, fun k hk hn => ?_⟩
      · rw [hitems, if_neg (by omega)]
      · have hback : index + (k + 1 - (index + 1)) = k := by omega
        rw [hitems, if_pos (by rw [h.num]; omega), hback]
    · rw [if_neg hlast]
      refine ⟨v.items, rfl, rfl, fun k hk => rfl, fun k hk hn => ?_⟩
      rw [h.num] at hlast
      omega
  have hlt : index < items.length := by rw [hlength, h.cells]; omega
  have hwrite : writeItem items index (some elem) = some (items.set index (some elem)) := if_pos hlt
  have hsize : (r.1.insertIdx index elem).length = r.1.length + 1 := List.length_insertIdx_of_le_length hin elem
  have hbounds : inBounds { v with itemsNum := r.1.length + 1, items := items } index = true := by
    unfold inBounds
    rw [Bool.and_eq_true, decide_eq_true_iff, decide_eq_true_iff]
    exact ⟨hindex, Nat.lt_succ_of_le hin⟩
  rw [hmove, Option.bind_some, h.next, vectorInsert, if_pos (by omega), if_pos hbounds]
  simp only [Option.bind_eq_bind, hwrite, Option.bind_some]
  refine ⟨_, rfl, h.replace ?_ hsize.symm (by rw [hsize]; exact hspace) ?_, rfl⟩
  · rw [List.length_set, hlength]
    exact h.cells
  · intro k x hk
    rw [List.getElem?_insertIdx] at hk
    rcases Nat.lt_trichotomy k index with hless | rfl | hmore
    · rw [if_pos hless] at hk
      rw [List.getElem?_set_ne (by omega), hlow k hless]
      exact h.held k x hk
    · rw [if_neg (Nat.lt_irrefl _), if_pos rfl, if_pos hin] at hk
      rw [List.getElem?_set_self hlt, hk]
    · obtain ⟨k, rfl⟩ : ∃ j, k = j + 1 := ⟨k - 1, by omega⟩
      rw [if_neg (by omega), if_neg (by omega), Nat.add_sub_cancel] at hk
      rw [List.getElem?_set_ne (by omega), hhigh k (by omega) (List.getElem?_eq_some_iff.mp hk).1]
      exact h.held k x hk

theorem acts_insertAt_iff (h : Stores v r) :
    Acts v r (.insertAt elem index) ↔ toInt index < 0 ∨ index ≤ r.1.length ∧ Grows v.itemSize r := by
  unfold Acts
  rw [callStep, listStep, vectorInsertAt]
  by_cases hindex : toInt index < 0
  · rw [if_pos hindex, if_pos hindex]
    exact iff_of_true ⟨v, rfl, h, rfl⟩ (Or.inl hindex)
  · rw [if_neg hindex, if_neg hindex, or_iff_right hindex]
    obtain ⟨hgrow, hnone⟩ := h.reserve
    simp only [Option.bind_eq_bind]
    by_cases hgrows : Grows v.itemSize r
    · obtain ⟨mid, hreserve, hstores, hsize, hspace⟩ := hgrow hgrows
      rw [hreserve, Option.bind_some]
      by_cases hin : index ≤ r.1.length
      · obtain ⟨v', hinsert, hstores', hsize'⟩ := @Stores.insertAt _ mid _ elem index hstores hspace (by omega) hin
        rw [hinsert]
        exact iff_of_true ⟨v', rfl, hstores', hsize'.trans hsize⟩ ⟨hin, hgrows⟩
      · -- the item before the new end is never written
        refine iff_of_false ?_ fun hboth => hin hboth.1
        have hout : inBounds { mid with itemsNum := r.1.length + 1 } index = false := by
          unfold inBounds
          rw [Bool.and_eq_false_iff, decide_eq_false_iff_not, decide_eq_false_iff_not]
          right
          dsimp only
          omega
        rw [if_neg (by rw [hstores.num]; dsimp only; omega), Option.bind_some, hstores.next, vectorInsert,
          if_pos (by omega), hout, List.insertIdx_of_length_lt (by omega)]
        rintro ⟨v', hstep, hstores', -⟩
        cases hstep
        have hnum : r.1.length + 1 = r.1.length := hstores'.num
        omega
    · rw [hnone hgrows]
      refine iff_of_false ?_ fun hboth => hgrows hboth.2
      rintro ⟨v', hstep, -⟩
      cases hstep

theorem acts_get_iff (h : Stores v r) : Acts v r (.get index) ↔ 0 ≤ toInt index := by
  unfold Acts
  rw [callStep, listStep, vectorGet]
  by_cases hindex : toInt index < 0
  · rw [if_pos hindex]
    refine iff_of_false ?_ (Int.not_le.mpr hindex)
    rintro ⟨v', hstep, -⟩
    cases hstep
  · rw [if_neg hindex]
    refine iff_of_true ?_ (Int.not_lt.mp hindex)
    by_cases hbounds : inBounds v index = true
    · have hin := (h.inBounds_iff.mp hbounds).2
      rw [if_pos hbounds, h.read hin, List.getElem?_eq_getElem hin]
      exact ⟨v, rfl, h, rfl⟩
    · have hout : r.1.length ≤ index := by
        by_contra hin
        exact hbounds (h.inBounds_iff.mpr ⟨by omega, by omega⟩)
      rw [if_neg hbounds, List.getElem?_eq_none hout]
      exact ⟨v, rfl, h, rfl⟩

theorem acts_getAll (h : Stores v r) : Acts v r .getAll := by
  have hle := h.length_le
  have hall : v.items.take r.1.length = r.1.map some := by
    apply List.ext_getElem?
    intro k
    rw [List.getElem?_map]
    by_cases hk : k < r.1.length
    · rw [List.getElem?_take_of_lt hk]
      exact h.read hk
    · rw [List.getElem?_eq_none (by rw [List.length_take]; omega), List.getElem?_eq_none (Nat.not_lt.mp hk)]
      rfl
  unfold Acts
  rw [callStep, listStep, vectorGetAll, if_pos (by rw [h.num, h.cells]; exact hle), h.num, hall]
  exact ⟨v, rfl, h, rfl⟩

/-- When it is enough to move one item of those behind an item that is removed. -/
theorem eraseIdx_eq_iff (l : List α) (index : Nat) :
    (∀ k : Nat, k < l.length - 1 → (l.eraseIdx index)[k]? = if k = index then l[index + 1]? else l[k]?) ↔
      ∀ k, index < k → k + 1 < l.length → l[k]? = l[k + 1]? := by
  constructor
  · intro h k hk hlast
    have hsame := h k (by omega)
    rw [List.getElem?_eraseIdx_of_ge (by omega), if_neg (by omega)] at hsame
    exact hsame.symm
  · intro h k hk
    rcases Nat.lt_trichotomy k index with hless | rfl | hmore
    · rw [List.getElem?_eraseIdx_of_lt hless, if_neg (by omega)]
    · rw [List.getElem?_eraseIdx_of_ge (Nat.le_refl _), if_pos rfl]
    · rw [List.getElem?_eraseIdx_of_ge (by omega), if_neg (by omega), h k hmore (by omega)]

theorem acts_remove_iff (h : Stores v r) : Acts v r (.remove index) ↔ 0 < toInt index ∧
    (index < r.1.length → index + 1 < r.2 ∧ ∀ k, index < k → k + 1 < r.1.length → r.1[k]? = r.1[k + 1]?) := by
  have hle := h.length_le
  have hroom := h.room_le
  have hmax : blockMax = 2 ^ 63 - 1 := rfl
  unfold Acts
  rw [callStep, listStep, vectorRemove]
  by_cases hindex : 0 < toInt index
  · rw [if_pos hindex, and_iff_right hindex]
    by_cases hin : index < r.1.length
    · have hbounds : inBounds v index = true := h.inBounds_iff.mpr ⟨Int.le_of_lt hindex, hin⟩
      rw [if_pos hbounds]
      simp only [Option.bind_eq_bind]
      by_cases hnext : index + 1 < r.2
      · obtain ⟨items, hmove⟩ : ∃ items, moveItems v.items index (index + 1) 1 = some items :=
          ⟨_, if_pos (by rw [h.cells]; omega)⟩
        obtain ⟨hlength, hitems⟩ := moveItems_spec hmove
        have hnum : decrement v.itemsNum = r.1.length - 1 := by
          obtain ⟨n, hn⟩ : ∃ n, r.1.length = n + 1 := ⟨r.1.length - 1, by omega⟩
          rw [h.num, hn, decrement_succ (by omega), Nat.add_sub_cancel]
        have herased : (r.1.eraseIdx index).length = r.1.length - 1 := List.length_eraseIdx_of_lt hin
        have hmoved : ∀ k : Nat, k < r.1.length - 1 →
            items[k]? = (if k = index then r.1[index + 1]? else r.1[k]?).map some := by
          intro k hk
          rw [hitems]
          by_cases hhere : k = index
          · rw [if_pos ⟨by omega, by omega⟩, if_pos hhere, hhere, Nat.sub_self, Nat.add_zero]
            exact h.read (by omega)
          · rw [if_neg (by omega), if_neg hhere]
            exact h.read (by omega)
        rw [hmove, Option.bind_some, hnum]
        have hall := eraseIdx_eq_iff r.1 index
        constructor
        · rintro ⟨v', hstep, hstores, -⟩ _
          cases hstep
          refine ⟨hnext, hall.mp fun k hk => ?_⟩
          have hitem := List.getElem?_eq_getElem (show k < (r.1.eraseIdx index).length by omega)
          have hheld := (hmoved k hk).symm.trans (hstores.held k _ hitem)
          rw [hitem]
          obtain ⟨x, hx, he⟩ := Option.map_eq_some_iff.mp hheld
          rw [hx, Option.some.inj he]
        · intro hguard
          have hsame := hall.mpr (hguard hin).2
          refine ⟨_, rfl, h.replace (hlength.trans h.cells) herased.symm (by omega) fun k x hk => ?_, rfl⟩
          have hlt : k < r.1.length - 1 := herased ▸ (List.getElem?_eq_some_iff.mp hk).1
          rw [hmoved k hlt, ← hsame k hlt, hk]
          rfl
      · have hmove : moveItems v.items index (index + 1) 1 = none := if_neg (by rw [h.cells]; omega)
        rw [hmove]
        refine iff_of_false ?_ fun hall => hnext (hall hin).1
        rintro ⟨v', hstep, -⟩
        cases hstep
    · have hbounds : ¬ inBounds v index = true := fun hbounds => hin (h.inBounds_iff.mp hbounds).2
      rw [if_neg hbounds, List.eraseIdx_of_length_le (Nat.not_lt.mp hin)]
      exact iff_of_true ⟨v, rfl, h, rfl⟩ fun hin' => absurd hin' hin
  · rw [if_neg hindex]
    refine iff_of_false ?_ fun hboth => hindex hboth.1
    rintro ⟨v', hstep, -⟩
    cases hstep

theorem acts_removeAll_iff (h : Stores v r) : Acts v r .removeAll ↔ v.itemSize = 1 := by
  have hroom := h.room
  have hcells : cellsOf v.itemSize v.itemsAllocNum = some (r.2 / v.itemSize) := by
    rw [h.alloc, cellsOf, if_pos h.room_le]
  unfold Acts
  rw [callStep, listStep, vectorRemoveAll, hcells]
  constructor
  · rintro ⟨v', hstep, hstores, -⟩
    cases hstep
    have hlength := hstores.cells
    dsimp only at hlength
    rw [length_resize] at hlength
    have hsize := h.size
    by_contra hne
    have hless := Nat.div_lt_self hroom (show 1 < v.itemSize by omega)
    omega
  · intro hone
    have hsame : r.2 / v.itemSize = r.2 := by rw [hone, Nat.div_one]
    rw [hsame]
    refine ⟨_, rfl, h.replace (length_resize ..) rfl (Nat.zero_le _) fun k x hk => ?_, rfl⟩
    cases hk

/-- Each call acts on the vector as on the list just where it is said to. -/
theorem acts_iff (h : Stores v r) (call : Call α) : Acts v r call ↔ Guard v.itemSize r call := by
  cases call with
  | push elem => exact acts_push_iff h
  | insert elem index => exact acts_insert_iff h
  | insertAt elem index => exact acts_insertAt_iff h
  | pop => exact acts_pop_iff h
  | shift => exact acts_shift_iff h
  | unshift elem => exact acts_unshift_iff h
  | get index => exact acts_get_iff h
  | getAll => exact iff_of_true (acts_getAll h) trivial
  | length => exact iff_of_true ⟨v, by rw [callStep, listStep, h.num], h, rfl⟩ trivial
  | remove index => exact acts_remove_iff h
  | removeAll => exact acts_removeAll_iff h

/-! ## Runs -/

/-- How many items `vector_init` makes room for. -/
def initialNum (initSize : Nat) : Nat := if 0 < toInt initSize then initSize else 4

theorem vectorInit_stores {elemSize initSize : Nat} (hsize : 0 < elemSize)
    (hfits : elemSize * initialNum initSize ≤ blockMax) :
    ∃ v : Vec α, vectorInit elemSize initSize = some v ∧ Stores v ([], initialNum initSize) ∧ v.itemSize = elemSize := by
  have hroom : 0 < initialNum initSize := by
    unfold initialNum
    split
    case isTrue hpos =>
      refine Nat.pos_of_ne_zero fun hzero => ?_
      rw [hzero] at hpos
      exact absurd hpos (by decide)
    case isFalse => exact Nat.succ_pos 3
  have hmax : blockMax = 2 ^ 63 - 1 := rfl
  unfold vectorInit
  dsimp only
  rw [← initialNum, cellsOf_mul hsize (by omega), if_pos hfits]
  refine ⟨_, rfl, ⟨hsize, hroom, hfits, rfl, List.length_replicate, rfl, Nat.zero_le _, fun k x hk => ?_⟩, rfl⟩
  cases hk

/-- `vector_copy` makes the same list, with the same room. -/
theorem vectorCopy_stores {other : Vec α} (h : Stores v r) : ∃ v', vectorCopy v other = some v' ∧ Stores v' r := by
  have hfits := h.fits
  have hle := h.length_le
  have hmax : blockMax = 2 ^ 63 - 1 := rfl
  have hcells : cellsOf v.itemSize (v.itemsAllocNum * v.itemSize % 2 ^ 64) = some r.2 := by
    rw [h.alloc, Nat.mul_comm, cellsOf_mul h.size (by omega), if_pos hfits]
  unfold vectorCopy
  rw [hcells]
  simp only [Option.bind_eq_bind, Option.bind_some]
  rw [if_pos (by rw [h.num, h.cells]; omega)]
  refine ⟨_, rfl, ⟨h.size, h.room, h.fits, h.alloc, length_resize .., h.num, h.length_le, fun k x hk => ?_⟩⟩
  have hlt := (List.getElem?_eq_some_iff.mp hk).1
  dsimp only
  rw [getElem?_resize (by rw [List.length_take, h.num, h.cells]; omega) (by omega),
    List.getElem?_take_of_lt (by rw [h.num]; exact hlt)]
  exact h.held k x hk

/-- A new vector follows the list at every point of a run just when each call is one of
those that act on it as they should. -/
theorem vector_follows_list_iff (elemSize initSize : Nat) (hsize : 0 < elemSize)
    (hfits : elemSize * initialNum initSize ≤ blockMax) :
    ∃ v : Vec α, vectorInit elemSize initSize = some v ∧ ∀ calls : List (Call α),
      (∀ k, ∃ v', run callStep v (calls.take k) =
          some (v', (specRun listStep ([], initialNum initSize) (calls.take k)).2) ∧
        Stores v' (specRun listStep ([], initialNum initSize) (calls.take k)).1 ∧ v'.itemSize = elemSize) ↔
      Guarded (fun r call => some (listStep r call)) (Guard elemSize) ([], initialNum initSize) calls := by
  obtain ⟨v, hinit, hstores, hitem⟩ := @vectorInit_stores α elemSize initSize hsize hfits
  refine ⟨v, hinit, fun calls => ?_⟩
  have hexact : ∀ (v : Vec α) (r : Room α) (call : Call α), Stores v r ∧ v.itemSize = elemSize →
      ((∃ v', callStep v call = some (v', (listStep r call).2) ∧ Stores v' (listStep r call).1 ∧ v'.itemSize = elemSize) ↔
        Guard elemSize r call) := by
    rintro v r call ⟨h, rfl⟩
    exact acts_iff h call
  exact follows_iff_guarded hexact ⟨hstores, hitem⟩ calls

/-- Two items of eight bytes; the third doubles the block. -/
theorem vector_follows_list_doubling : ∃ v : Vec Nat, vectorInit 8 2 = some v ∧ ∃ v',
    run callStep v [.push 5, .push 6, .unshift 4, .insertAt 7 1, .pop] =
      some (v', [.done, .done, .done, .done, .item (some 6)]) := by
  obtain ⟨v, hinit, hfollows⟩ := @vector_follows_list_iff Nat 8 2 (by decide) (by decide)
  have hguarded : Guarded (fun r call => some (listStep r call)) (Guard 8) ([], initialNum 2)
      [.push 5, .push 6, .unshift 4, .insertAt 7 1, .pop] := by
    refine (guarded_cons rfl).mpr ⟨Or.inl (by decide), (guarded_cons rfl).mpr ⟨Or.inl (by decide), ?_⟩⟩
    refine (guarded_cons rfl).mpr ⟨Or.inr (by decide), (guarded_cons rfl).mpr ⟨Or.inr ⟨by decide, Or.inr (by decide)⟩, ?_⟩⟩
    exact (guarded_cons rfl).mpr ⟨List.cons_ne_nil _ _, trivial⟩
  obtain ⟨v', hrun, -⟩ := (hfollows _).mpr hguarded 5
  exact ⟨v, hinit, v', hrun⟩

/-! ## After `vector_remove_all` -/

/-- The block has fewer items than the vector believes. -/
theorem pushes_short {c cap : Nat} (hshort : c < cap) (hcap : cap ≤ blockMax) (elems : List α)
    (hcells : v.items.length = c) (halloc : v.itemsAllocNum = cap) (hnum : v.itemsNum ≤ c) :
    (∃ v' replies, run callStep v (elems.map Call.push) = some (v', replies)) ↔ v.itemsNum + elems.length ≤ c := by
  have hmax : blockMax = 2 ^ 63 - 1 := rfl
  induction elems generalizing v with
  | nil => exact iff_of_true ⟨v, [], rfl⟩ hnum
  | cons elem elems ih =>
    have hspace : hasSpace v = true := by
      unfold hasSpace
      rw [decide_eq_true_iff, halloc]
      omega
    have hstep : callStep v (.push elem) = (writeItem v.items v.itemsNum (some elem)).map fun items =>
        ({ v with itemsNum := (v.itemsNum + 1) % 2 ^ 64, items := items }, .done) := by
      have hlast : ¬ -1 < toInt (2 ^ 64 - 1) := by decide
      rw [callStep, vectorPush, vectorInsert, if_neg hlast, Vectors.reserve, if_pos hspace]
      simp only [Option.bind_eq_bind, Option.bind_some]
      cases writeItem v.items v.itemsNum (some elem) <;> rfl
    rw [List.map_cons, List.length_cons]
    by_cases hin : v.itemsNum < c
    · have hwrite : writeItem v.items v.itemsNum (some elem) = some (v.items.set v.itemsNum (some elem)) :=
        if_pos (by rw [hcells]; exact hin)
      rw [hwrite, Option.map_some] at hstep
      have hnext : (v.itemsNum + 1) % 2 ^ 64 = v.itemsNum + 1 := Nat.mod_eq_of_lt (by omega)
      rw [hnext] at hstep
      have hrest := @ih { v with itemsNum := v.itemsNum + 1, items := v.items.set v.itemsNum (some elem) }
        (List.length_set.trans hcells) halloc hin
      dsimp only at hrest
      rw [show v.itemsNum + (elems.length + 1) = v.itemsNum + 1 + elems.length by omega]
      refine Iff.trans ?_ hrest
      constructor
      · rintro ⟨v', replies, hrun⟩
        obtain ⟨t, o, v'', os, hs, hr, -⟩ := run_cons.mp hrun
        cases hstep.symm.trans hs
        exact ⟨v'', os, hr⟩
      · rintro ⟨v', replies, hrun⟩
        exact ⟨v', _, run_cons.mpr ⟨_, _, v', replies, hstep, hrun, rfl⟩⟩
    · have hwrite : writeItem v.items v.itemsNum (some elem) = none := if_neg (by rw [hcells]; exact hin)
      rw [hwrite, Option.map_none] at hstep
      refine iff_of_false ?_ (by omega)
      rintro ⟨v', replies, hrun⟩
      obtain ⟨t, o, v'', os, hs, -⟩ := run_cons.mp hrun
      cases hstep.symm.trans hs

/-- Items of more than one byte do not all fit again: the pushes stay in the block just
as long as it has room for them in bytes. -/
theorem pushes_after_removeAll_iff (v : Vec α) (r : Room α) (h : Stores v r) (hsize : 1 < v.itemSize) (elems : List α) :
    (∃ v' replies, run callStep v (.removeAll :: elems.map Call.push) = some (v', replies)) ↔
      elems.length ≤ r.2 / v.itemSize := by
  have hstep : callStep v .removeAll =
      some ({ v with itemsNum := 0, items := resize v.items (r.2 / v.itemSize) }, .done) := by
    rw [callStep, vectorRemoveAll, h.alloc, cellsOf, if_pos h.room_le, ← h.alloc]
    rfl
  have hpushes := @pushes_short α { v with itemsNum := 0, items := resize v.items (r.2 / v.itemSize) }
    (r.2 / v.itemSize) r.2 (Nat.div_lt_self h.room hsize) h.room_le elems (length_resize ..) h.alloc (Nat.zero_le _)
  rw [Nat.zero_add] at hpushes
  refine Iff.trans ?_ hpushes
  constructor
  · rintro ⟨v', replies, hrun⟩
    obtain ⟨t, o, v'', os, hs, hr, -⟩ := run_cons.mp hrun
    cases hstep.symm.trans hs
    exact ⟨v'', os, hr⟩
  · rintro ⟨v', replies, hrun⟩
    exact ⟨v', _, run_cons.mpr ⟨_, _, v', replies, hstep, hrun, rfl⟩⟩

/-- Sixteen items of eight bytes leave room for two. -/
theorem third_push_after_removeAll : ∃ v : Vec Nat, vectorInit 8 16 = some v ∧
    run callStep v [.removeAll, .push 1, .push 2, .push 3] = none := by
  obtain ⟨v, hinit, hstores, hsize⟩ := @vectorInit_stores Nat 8 16 (by decide) (by decide)
  refine ⟨v, hinit, Option.eq_none_iff_forall_ne_some.mpr fun result hrun => ?_⟩
  have hshort := (pushes_after_removeAll_iff v _ hstores (by rw [hsize]; decide) [1, 2, 3]).mp ⟨result.1, result.2, hrun⟩
  rw [hsize] at hshort
  exact absurd hshort (by decide)

end Devclego.Vectors
