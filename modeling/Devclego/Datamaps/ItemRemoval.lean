import Devclego.Datamaps.Shutdown

/-!
# Removing a row by its item

`_dmap_rem_item` should destroy the row that holds an item and free its slot. Its loop
stops at the first row that does not hold the item, so it does so on no table with a
row in it.
-/
namespace Devclego.Datamaps

open Foundation

variable {ι δ : Type}

/-- A table of live rows with pairwise distinct items, none of them null. -/
structure HoldsRows {ω : Type} (this : Dmap ι δ ω) : Prop where
  length : this.table.rows.length = this.table.size
  live : ∀ i a, slotAt this.table.rows i = some a → ∃ r, this.mem.read a = some r ∧ r.item ≠ none
  apart : ∀ i j a b r s, slotAt this.table.rows i = some a → slotAt this.table.rows j = some b →
    this.mem.read a = some r → this.mem.read b = some s → r.item = s.item → i = j

/-- Slot `i` points to the row `r`, at address `a`. -/
def RowAt {ω : Type} (this : Dmap ι δ ω) (i : Nat) (a : Addr) (r : DmapRow ι δ) : Prop :=
  slotAt this.table.rows i = some a ∧ this.mem.read a = some r

/-- The row of the item, if there is one, has been destroyed once and its slot is free;
without one nothing has happened. No other row has changed. -/
def RemovesItem (this final : Dmap ι δ (List (δ × ι))) (item : Option ι) : Prop :=
  (∀ i a r, RowAt this i a r → r.item = item →
    final.world = this.world ++ Datamap.calls (some r) ∧
      final.table = { this.table with rows := this.table.rows.set i none } ∧
      dmapGetItem final i = some none ∧
      ∀ j b s, j ≠ i → RowAt this j b s → final.mem.read b = some s) ∧
  ((∀ i a r, RowAt this i a r → r.item ≠ item) →
    final.table = this.table ∧ final.world = this.world ∧ ∀ j b s, RowAt this j b s → final.mem.read b = some s)

variable {this : Dmap ι δ (List (δ × ι))}

/-- The iterator finds a row when there is one at or behind its index. -/
theorem dmapItrTable_finds {table : DmapTable} (hlen : table.rows.length = table.size) {i k : Nat} {a : Addr}
    (h : slotAt table.rows (i + k) = some a) :
    ∃ j b, dmapItrTable table i = some (j, some b) ∧ slotAt table.rows j = some b := by
  induction k generalizing i with
  | zero => exact ⟨i, a, dmapItrTable_full hlen h, h⟩
  | succ k ih =>
    cases hrow : slotAt table.rows i with
    | some b => exact ⟨i, b, dmapItrTable_full hlen hrow, hrow⟩
    | none =>
      have hi : i < table.size := by
        have hlt := lt_of_slotAt h
        omega
      rw [dmapItrTable_free hlen hi hrow]
      apply ih
      rwa [show i + 1 + k = i + (k + 1) by omega]

section Items

variable [DecidableEq ι]

/-- An item that no row holds costs some row its life. -/
theorem dmapRemItem_absent (h : HoldsRows this) {item : Option ι} {i : Nat} {a : Addr}
    (hrow : slotAt this.table.rows i = some a) (habsent : ∀ j b r, RowAt this j b r → r.item ≠ item) :
    ∃ j b r, RowAt this j b r ∧ dmapRemItem record this item =
      some { this with mem := this.mem.set b none, world := this.world ++ Datamap.calls (some r) } := by
  rw [← Nat.zero_add i] at hrow
  obtain ⟨j, b, hitr, hslot⟩ := dmapItrTable_finds h.length hrow
  obtain ⟨r, hread, -⟩ := h.live j b hslot
  have hne : item ≠ r.item := (habsent j b r ⟨hslot, hread⟩).symm
  have hj : j ≠ this.table.size := Nat.ne_of_lt (h.length ▸ lt_of_slotAt hslot)
  have hskip : skipRows this item (this.table.size + 1) 0 = some (j, some b) := by
    simp [skipRows, hitr, hread, hne]
  refine ⟨j, b, r, ⟨hslot, hread⟩, ?_⟩
  rw [dmapRemItem, hskip]
  show (if j = this.table.size then some this else dmapRowDtor record this b) = _
  rw [if_neg hj, dmapRowDtor_record hread]

theorem dmapRemItem_empty (hlen : this.table.rows.length = this.table.size)
    (hfree : ∀ row ∈ this.table.rows, row = none) (item : Option ι) :
    dmapRemItem record this item = some this := by
  have hitr := dmapItrTable_behind hlen (i := 0) (Nat.zero_le _) fun j _ => slotAt_of_free hfree j
  simp [dmapRemItem, skipRows, hitr]

/-- Removing by item works on an empty table only. -/
theorem rem_item_iff (h : HoldsRows this) (item : Option ι) :
    (∃ final, dmapRemItem record this item = some final ∧ RemovesItem this final item) ↔
      ∀ row ∈ this.table.rows, row = none := by
  constructor
  · intro hfinal row hrow
    obtain ⟨final, hrem, hheld, habsent⟩ := hfinal
    cases row with
    | none => rfl
    | some a =>
      obtain ⟨i, hslot⟩ := mem_iff_slotAt.mp hrow
      by_cases hsome : ∃ i a r, RowAt this i a r ∧ r.item = item
      · -- The slot of the item would have to be free, but the call changes no slot.
        obtain ⟨i, a, r, hat, hitem⟩ := hsome
        obtain ⟨-, htable, -, -⟩ := hheld i a r hat hitem
        rw [dmapRemItem_table hrem] at htable
        have hlt := lt_of_slotAt hat.1
        have hkept := hat.1
        rw [htable, slotAt_set hlt, Function.update_self] at hkept
        cases hkept
      · -- The call destroys a row that it had to leave alone.
        have hno : ∀ i a r, RowAt this i a r → r.item ≠ item :=
          fun i a r hat hitem => hsome ⟨i, a, r, hat, hitem⟩
        obtain ⟨-, -, hunchanged⟩ := habsent hno
        obtain ⟨j, b, r, hat, hcall⟩ := dmapRemItem_absent h hslot hno
        have hkept := hunchanged j b r hat
        cases hrem.symm.trans hcall
        rw [Memory.read_set_self hat.2] at hkept
        cases hkept
  · intro hfree
    have hnone : ∀ i a r, ¬ RowAt this i a r := by
      intro i a r hat
      have hslot := hat.1
      rw [slotAt_of_free hfree] at hslot
      cases hslot
    refine ⟨this, dmapRemItem_empty h.length hfree item, ?_, ?_⟩
    · exact fun i a r hat => absurd hat (hnone i a r)
    · exact fun _ => ⟨rfl, rfl, fun j b s hat => hat.2⟩

end Items

/-- A table whose only row is to be removed by its item. -/
theorem rem_item_iff_run :
    (∃ final, dmapRemItem record (filled [none, some 1]) (some 11) = some final ∧
        RemovesItem (filled [none, some 1]) final (some 11)) ↔
      ∀ row ∈ (filled [none, some 1]).table.rows, row = none := by
  have hrows : HoldsRows (filled [none, some 1]) := by
    refine ⟨rfl, ?_, ?_⟩
    · intro i a hslot
      obtain rfl : i = 1 := by
        match i, hslot with
        | 1, _ => rfl
      cases hslot
      exact ⟨_, rfl, by decide⟩
    · intro i j a b r s hi hj
      obtain rfl : i = 1 := by
        match i, hi with
        | 1, _ => rfl
      obtain rfl : j = 1 := by
        match j, hj with
        | 1, _ => rfl
      exact fun _ _ _ => rfl
  exact rem_item_iff hrows (some 11)

/-- The row of item 11 stays in its slot when 11 is removed, and is destroyed when
item 12, which no row holds, is. -/
theorem rem_item_wrongly :
    dmapRemItem record (filled [some 1]) (some 11) = some (filled [some 1]) ∧
      ¬ RemovesItem (filled [some 1]) (filled [some 1]) (some 11) ∧
      (dmapRemItem record (filled [some 1]) (some 12)).map (·.world) = some [((), 11)] := by
  refine ⟨by decide, fun h => ?_, by decide⟩
  obtain ⟨-, htable, -, -⟩ := h.1 0 1 _ ⟨rfl, rfl⟩ rfl
  exact absurd htable (by decide)

end Devclego.Datamaps
