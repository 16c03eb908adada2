import Devclego.Datamaps.Shutdown
import Devclego.Foundation.Traced

/-!
# Which slots a table reads

The procedures of `dmap.c` once more, with the index of every `rows[i]` that they
evaluate. Rows may have been freed, so what their items read as is a parameter, as is
the word behind the array; neither decides which slots are read.
-/
namespace Devclego.Datamaps

open Foundation Traced

variable {ι δ ω : Type}

/-- What a call finds: the word behind the array, and the items of the rows. -/
structure Surroundings (ι : Type) where
  beyond : Ptr
  items : Addr → Option ι

section Calls

variable (env : Surroundings ι) (table : DmapTable)

def evalRow (index : Nat) : Traced Int Ptr := access index ((table.rows[index]?).getD env.beyond)

def assignRow (index : Nat) (row : Ptr) : Traced Int DmapTable :=
  access index { table with rows := table.rows.set index row }

def nextRowTraced : Nat → Nat → Traced Int Nat
  | 0, index => pure index
  | fuel + 1, index =>
    if index < table.size then do
      let row ← evalRow env table index
      if row = none then nextRowTraced fuel (index + 1) else pure index
    else pure index

def itrTableTraced (index : Nat) : Traced Int (Nat × Ptr) := do
  let index ← nextRowTraced env table (table.size - index) index
  if table.size ≤ index then pure (index, none)
  else do
    let row ← evalRow env table index
    pure (index, row)

def freeSlotTraced : Nat → Nat → Traced Int Nat
  | 0, result => pure result
  | fuel + 1, result => do
    let row ← evalRow env table result
    if row ≠ none ∧ result < table.size then freeSlotTraced fuel (result + 1) else pure result

def addRowTraced (row : Ptr) : Traced Int (DmapTable × Int) :=
  if row = none then pure (table, dmapErrorAdd)
  else do
    let result ← freeSlotTraced env table (table.size + 1) 0
    if result = table.size then pure (table, errorTableIsFull)
    else do
      let table ← assignRow table result row
      pure (table, result)

def getItemTraced (index : Int) : Traced Int (Option ι) :=
  if index < 0 ∨ table.size ≤ index then pure none
  else do
    let row ← evalRow env table index.toNat
    pure (row.bind env.items)

def remTraced (index : Int) : Traced Int DmapTable :=
  if index < 0 ∨ table.size ≤ index then pure table
  else do
    let row ← evalRow env table index.toNat
    if row = none then pure table else assignRow table index.toNat none

def skipRowsTraced [DecidableEq ι] (item : Option ι) : Nat → Nat → Traced Int (Nat × Ptr)
  | 0, index => pure (index, none)
  | fuel + 1, index => do
    let (index, row) ← itrTableTraced env table index
    match row with
    | none => pure (index, none)
    | some row => if item = env.items row then skipRowsTraced item fuel (index + 1) else pure (index, some row)

/-- `_dmap_rem_item`: the row that it destroys, if any. -/
def remItemTraced [DecidableEq ι] (item : Option ι) : Traced Int Ptr := do
  let (index, row) ← skipRowsTraced env table item (table.size + 1) 0
  if index = table.size then pure none else pure row

end Calls

inductive TableCall (ι : Type) where
  | addRow (row : Ptr)
  | rem (index : Int)
  | remItem (item : Option ι)
  | getItem (index : Int)
  | itrTable (index : Nat)
deriving DecidableEq, Repr

variable [DecidableEq ι]

/-- The table after a call. -/
def tableCall (env : Surroundings ι) (table : DmapTable) : TableCall ι → Traced Int DmapTable
  | .addRow row => do
    let (table, _) ← addRowTraced env table row
    pure table
  | .rem index => remTraced env table index
  | .remItem item => do
    let _ ← remItemTraced env table item
    pure table
  | .getItem index => do
    let _ ← getItemTraced env table index
    pure table
  | .itrTable index => do
    let _ ← itrTableTraced env table index
    pure table

/-- A table with all accesses so far. -/
def tableStep (s : Traced Int DmapTable) (call : TableCall ι × Surroundings ι) :
    Option (Traced Int DmapTable × Unit) :=
  some (s >>= fun table => tableCall call.2 table call.1, ())

/-- `rows[i]` is in the array. -/
def InTable (size : Nat) (i : Int) : Prop := 0 ≤ i ∧ i < size

/-- A row is added to a table with a free slot, or it is null. -/
def FindsFree (s : Traced Int DmapTable) (call : TableCall ι × Surroundings ι) : Prop :=
  match call.1 with
  | .addRow row => row = none ∨ none ∈ s.result.rows
  | _ => True

instance (s : Traced Int DmapTable) (call : TableCall ι × Surroundings ι) : Decidable (FindsFree s call) := by
  unfold FindsFree
  split
  · infer_instance
  · infer_instance

/-! ## The calls of the model -/

omit [DecidableEq ι]

variable {env : Surroundings ι} {table : DmapTable} {i size : Nat}

theorem evalRow_result (hi : i < table.rows.length) : (evalRow env table i).result = slotAt table.rows i := by
  show (table.rows[i]?).getD env.beyond = _
  rw [getElem?_slotAt hi]
  rfl

theorem nextRow_traced (env : Surroundings ι) (hlen : table.rows.length = table.size) (fuel : Nat) :
    nextRow table fuel i = some (nextRowTraced env table fuel i).result := by
  induction fuel generalizing i with
  | zero => rfl
  | succ fuel ih =>
    rw [nextRow, nextRowTraced]
    by_cases hi : i < table.size
    · have hin : i < table.rows.length := by rwa [hlen]
      rw [if_pos hi, if_pos hi, result_bind, evalRow_result hin, getElem?_slotAt hin]
      cases hrow : slotAt table.rows i with
      | none => exact ih
      | some a => rfl
    · rw [if_neg hi, if_neg hi]
      rfl

theorem dmapItrTable_traced (env : Surroundings ι) (hlen : table.rows.length = table.size) (i : Nat) :
    dmapItrTable table i = some (itrTableTraced env table i).result := by
  rw [dmapItrTable, nextRow_traced env hlen, itrTableTraced, result_bind]
  generalize (nextRowTraced env table (table.size - i) i).result = j
  by_cases hj : table.size ≤ j
  · simp only [Option.bind_eq_bind, Option.bind_some, if_pos hj]
    rfl
  · have hin : j < table.rows.length := by omega
    simp only [Option.bind_eq_bind, Option.bind_some, if_neg hj, getElem?_slotAt hin, result_bind,
      evalRow_result hin, result_pure]

theorem freeSlot_traced (env : Surroundings ι) (table : DmapTable) (fuel : Nat) (hi : i ≤ table.size)
    (hfuel : fuel + i = table.size + 1) :
    freeSlot (some env.beyond) table fuel i = some (freeSlotTraced env table fuel i).result := by
  induction fuel generalizing i with
  | zero => omega
  | succ fuel ih =>
    have hread : (table.rows[i]?).or (some env.beyond) = some (evalRow env table i).result := by
      show _ = some ((table.rows[i]?).getD env.beyond)
      cases table.rows[i]? with
      | none => rfl
      | some row => rfl
    rw [freeSlot, freeSlotTraced, hread, result_bind]
    generalize (evalRow env table i).result = row
    by_cases hmore : row ≠ none ∧ i < table.size
    · rw [if_pos hmore]
      show (if row ≠ none ∧ i < table.size then _ else _) = _
      rw [if_pos hmore]
      exact ih (by omega) (by omega)
    · rw [if_neg hmore]
      show (if row ≠ none ∧ i < table.size then _ else _) = _
      rw [if_neg hmore]
      rfl

theorem dmapAddRow_traced (row : Ptr) :
    dmapAddRow (some env.beyond) table row = some (addRowTraced env table row).result := by
  rw [dmapAddRow, addRowTraced]
  split
  next => rfl
  next =>
    rw [freeSlot_traced env table _ (Nat.zero_le _) rfl, result_bind]
    generalize (freeSlotTraced env table (table.size + 1) 0).result = result
    simp only [Option.bind_eq_bind, Option.bind_some]
    split
    next => rfl
    next => rfl

theorem dmapGetItem_traced {this : Dmap ι δ ω} (hlen : this.table.rows.length = this.table.size)
    (hitems : ∀ a r, this.mem.read a = some r → env.items a = r.item) {index : Int} {item : Option ι}
    (h : dmapGetItem this index = some item) : (getItemTraced env this.table index).result = item := by
  rw [dmapGetItem] at h
  rw [getItemTraced]
  split at h
  next hout =>
    rw [if_pos hout]
    exact Option.some.inj h
  next hin =>
    have hlt : index.toNat < this.table.rows.length := by omega
    rw [if_neg hin, result_bind, evalRow_result hlt]
    rw [getElem?_slotAt hlt] at h
    cases hrow : slotAt this.table.rows index.toNat with
    | none =>
      rw [hrow] at h
      exact Option.some.inj h
    | some a =>
      simp only [hrow, Option.bind_eq_bind, Option.bind_some] at h
      obtain ⟨r, hr, he⟩ := Option.bind_eq_some_iff.mp h
      exact (hitems a r hr).trans (Option.some.inj he)

theorem dmapRem_traced {call : δ → ι → ω → Option ω} {this this' : Dmap ι δ ω}
    (hlen : this.table.rows.length = this.table.size) {index : Int} (h : dmapRem call this index = some this') :
    this'.table = (remTraced env this.table index).result := by
  rw [dmapRem] at h
  rw [remTraced]
  split at h
  next hout =>
    rw [if_pos hout]
    cases h
    rfl
  next hin =>
    have hlt : index.toNat < this.table.rows.length := by omega
    rw [if_neg hin, result_bind, evalRow_result hlt]
    rw [getElem?_slotAt hlt] at h
    cases hrow : slotAt this.table.rows index.toNat with
    | none =>
      rw [hrow] at h
      cases h
      rfl
    | some a =>
      simp only [hrow, Option.bind_eq_bind, Option.bind_some] at h
      obtain ⟨next, hdtor, he⟩ := Option.bind_eq_some_iff.mp h
      cases he
      rw [if_neg (Option.some_ne_none a), dmapRowDtor_table hdtor]
      rfl

theorem skipRows_traced [DecidableEq ι] {this : Dmap ι δ ω} (hlen : this.table.rows.length = this.table.size)
    (hitems : ∀ a r, this.mem.read a = some r → env.items a = r.item) {item : Option ι} {fuel : Nat} {r : Nat × Ptr}
    (h : skipRows this item fuel i = some r) : (skipRowsTraced env this.table item fuel i).result = r := by
  induction fuel generalizing i with
  | zero => cases h
  | succ fuel ih =>
    rw [skipRows, dmapItrTable_traced env hlen i] at h
    rw [skipRowsTraced, result_bind]
    generalize (itrTableTraced env this.table i).result = found at h ⊢
    obtain ⟨j, row⟩ := found
    cases row with
    | none => exact Option.some.inj h
    | some a =>
      simp only [Option.bind_eq_bind, Option.bind_some] at h
      obtain ⟨row, hrow, h⟩ := Option.bind_eq_some_iff.mp h
      simp only [hitems a row hrow]
      split at h
      next hsame =>
        rw [if_pos hsame]
        exact ih h
      next hother =>
        rw [if_neg hother]
        exact Option.some.inj h

/-- The row that is found is destroyed, and without one nothing is. -/
theorem dmapRemItem_traced [DecidableEq ι] {call : δ → ι → ω → Option ω} {this this' : Dmap ι δ ω}
    (hlen : this.table.rows.length = this.table.size)
    (hitems : ∀ a r, this.mem.read a = some r → env.items a = r.item) {item : Option ι}
    (h : dmapRemItem call this item = some this') :
    ((remItemTraced env this.table item).result = none ∧ this' = this) ∨
      ∃ a, (remItemTraced env this.table item).result = some a ∧ dmapRowDtor call this a = some this' := by
  rw [dmapRemItem] at h
  obtain ⟨⟨j, row⟩, hskip, h⟩ := Option.bind_eq_some_iff.mp h
  rw [remItemTraced, result_bind, skipRows_traced hlen hitems hskip]
  simp only at h ⊢
  split at h
  next hend =>
    rw [if_pos hend]
    cases h
    exact Or.inl ⟨rfl, rfl⟩
  next hin =>
    rw [if_neg hin]
    cases row with
    | none => cases h
    | some a => exact Or.inr ⟨a, rfl, h⟩

/-! ## The accesses -/

theorem evalRow_within (hi : i < table.size) : Within (InTable table.size) (evalRow env table i) :=
  within_access.mpr ⟨Int.natCast_nonneg i, Int.ofNat_lt.mpr hi⟩

theorem assignRow_within (hi : i < table.size) (row : Ptr) : Within (InTable table.size) (assignRow table i row) :=
  within_access.mpr ⟨Int.natCast_nonneg i, Int.ofNat_lt.mpr hi⟩

theorem nextRowTraced_within (fuel : Nat) : Within (InTable table.size) (nextRowTraced env table fuel i) := by
  induction fuel generalizing i with
  | zero => exact within_pure i
  | succ fuel ih =>
    rw [nextRowTraced]
    split
    next hi =>
      refine within_bind.mpr ⟨evalRow_within hi, ?_⟩
      split
      next => exact ih
      next => exact within_pure i
    next => exact within_pure i

theorem itrTableTraced_within (i : Nat) : Within (InTable table.size) (itrTableTraced env table i) := by
  refine within_bind.mpr ⟨nextRowTraced_within _, ?_⟩
  split
  next => exact within_pure _
  next hi => exact within_bind.mpr ⟨evalRow_within (Nat.lt_of_not_le hi), within_pure _⟩

theorem getItemTraced_within (index : Int) : Within (InTable table.size) (getItemTraced env table index) := by
  rw [getItemTraced]
  split
  next => exact within_pure _
  next hin => exact within_bind.mpr ⟨evalRow_within (by omega), within_pure _⟩

theorem remTraced_within (index : Int) : Within (InTable table.size) (remTraced env table index) := by
  rw [remTraced]
  split
  next => exact within_pure _
  next hin =>
    refine within_bind.mpr ⟨evalRow_within (by omega), ?_⟩
    split
    next => exact within_pure _
    next => exact assignRow_within (by omega) none

theorem remItemTraced_within [DecidableEq ι] (item : Option ι) :
    Within (InTable table.size) (remItemTraced env table item) := by
  have hskip : ∀ fuel i, Within (InTable table.size) (skipRowsTraced env table item fuel i) := by
    intro fuel
    induction fuel with
    | zero => exact fun i => within_pure _
    | succ fuel ih =>
      intro i
      refine within_bind.mpr ⟨itrTableTraced_within i, ?_⟩
      generalize (itrTableTraced env table i).result = found
      obtain ⟨j, row⟩ := found
      cases row with
      | none => exact within_pure _
      | some a =>
        simp only
        split
        next => exact ih (j + 1)
        next => exact within_pure _
  refine within_bind.mpr ⟨hskip _ 0, ?_⟩
  generalize (skipRowsTraced env table item (table.size + 1) 0).result = found
  obtain ⟨j, row⟩ := found
  simp only
  split
  next => exact within_pure _
  next => exact within_pure _

/-- The scan for a free slot stays in the array when it meets one. -/
theorem freeSlotTraced_within {j : Nat} (hlen : table.rows.length = table.size) (hfree : slotAt table.rows j = none)
    (hj : j < table.size) (hi : i ≤ j) (fuel : Nat) :
    Within (InTable table.size) (freeSlotTraced env table fuel i) := by
  induction fuel generalizing i with
  | zero => exact within_pure i
  | succ fuel ih =>
    refine within_bind.mpr ⟨evalRow_within (Nat.lt_of_le_of_lt hi hj), ?_⟩
    rw [evalRow_result (by omega)]
    split
    next hmore =>
      refine ih (Nat.lt_of_le_of_ne hi ?_)
      rintro rfl
      exact hmore.1 hfree
    next => exact within_pure i

/-- On a full table the scan reads the word behind the array. -/
theorem freeSlotTraced_full (hlen : table.rows.length = table.size)
    (hfull : ∀ j < table.size, slotAt table.rows j ≠ none) (fuel : Nat) (hi : i ≤ table.size)
    (hfuel : fuel + i = table.size + 1) : (table.size : Int) ∈ (freeSlotTraced env table fuel i).accesses := by
  induction fuel generalizing i with
  | zero => omega
  | succ fuel ih =>
    rw [freeSlotTraced, accesses_bind]
    by_cases hend : i = table.size
    · exact List.mem_append_left _ (hend ▸ List.mem_singleton_self _)
    · have hlt : i < table.size := by omega
      apply List.mem_append_right
      rw [evalRow_result (by omega), if_pos ⟨hfull i hlt, hlt⟩]
      exact ih (by omega) (by omega)

theorem freeSlotTraced_le (env : Surroundings ι) (hlen : table.rows.length = table.size) :
    (freeSlotTraced env table (table.size + 1) 0).result ≤ table.size := by
  have hscan := freeSlot_eq env.beyond hlen (table.size + 1) (Nat.zero_le _) rfl fun j hj => absurd hj (Nat.not_lt_zero j)
  have hsame := freeSlot_traced env table (table.size + 1) (Nat.zero_le _) rfl
  rw [Option.some.inj (hsame.symm.trans hscan)]
  cases hfree : leastFree (slotAt table.rows) table.size with
  | none => exact Nat.le_refl _
  | some j => exact Nat.le_of_lt (leastFree_some.mp hfree).2.1

theorem none_mem_iff (hlen : table.rows.length = table.size) :
    none ∈ table.rows ↔ ∃ j < table.size, slotAt table.rows j = none := by
  rw [List.mem_iff_getElem?, ← hlen]
  constructor
  · rintro ⟨j, hj⟩
    exact ⟨j, (List.getElem?_eq_some_iff.mp hj).1, by rw [slotAt, hj]; rfl⟩
  · rintro ⟨j, hj, hfree⟩
    exact ⟨j, by rw [getElem?_slotAt hj, hfree]⟩

theorem addRowTraced_within (hlen : table.rows.length = table.size) {row : Ptr} (hfree : row = none ∨ none ∈ table.rows) :
    Within (InTable table.size) (addRowTraced env table row) := by
  rw [addRowTraced]
  split
  next => exact within_pure _
  next hrow =>
    obtain ⟨j, hj, hslot⟩ := (none_mem_iff hlen).mp (hfree.resolve_left hrow)
    have hle := freeSlotTraced_le env hlen
    refine within_bind.mpr ⟨freeSlotTraced_within hlen hslot hj (Nat.zero_le j) _, ?_⟩
    split
    next => exact within_pure _
    next hne => exact within_bind.mpr ⟨assignRow_within (by omega) row, within_pure _⟩

theorem addRowTraced_beyond (hlen : table.rows.length = table.size) {row : Ptr}
    (hfull : ¬ (row = none ∨ none ∈ table.rows)) : ¬ Within (InTable table.size) (addRowTraced env table row) := by
  rw [not_or] at hfull
  have hslots : ∀ j < table.size, slotAt table.rows j ≠ none := by
    intro j hj hfree
    exact hfull.2 ((none_mem_iff hlen).mpr ⟨j, hj, hfree⟩)
  intro hwithin
  rw [addRowTraced, if_neg hfull.1] at hwithin
  have hout := (within_bind.mp hwithin).1 _ (freeSlotTraced_full hlen hslots _ (Nat.zero_le _) rfl)
  exact absurd hout.2 (Int.lt_irrefl _)

/-! ## Runs -/

/-- The size of a table never changes. -/
def OfSize (size : Nat) (table : DmapTable) : Prop := table.size = size ∧ table.rows.length = size

theorem addRowTraced_size (h : OfSize size table) (row : Ptr) : OfSize size (addRowTraced env table row).result.1 := by
  rw [addRowTraced]
  split
  next => exact h
  next =>
    rw [result_bind]
    split
    next => exact h
    next => exact ⟨h.1, List.length_set.trans h.2⟩

theorem remTraced_size (h : OfSize size table) (index : Int) : OfSize size (remTraced env table index).result := by
  rw [remTraced]
  split
  next => exact h
  next =>
    rw [result_bind]
    split
    next => exact h
    next => exact ⟨h.1, List.length_set.trans h.2⟩

theorem tableCall_size [DecidableEq ι] (h : OfSize size table) (call : TableCall ι) :
    OfSize size (tableCall env table call).result := by
  cases call with
  | addRow row => exact addRowTraced_size h row
  | rem index => exact remTraced_size h index
  | remItem item => exact h
  | getItem index => exact h
  | itrTable index => exact h

/-- A call stays in the array just when an add finds a free slot. -/
theorem tableCall_within_iff [DecidableEq ι] {s : Traced Int DmapTable} (h : OfSize size s.result)
    (call : TableCall ι × Surroundings ι) :
    Within (InTable size) (tableCall call.2 s.result call.1) ↔ FindsFree s call := by
  obtain ⟨call, env⟩ := call
  obtain ⟨rfl, hlen⟩ := h
  cases call with
  | addRow row =>
    constructor
    · intro hwithin
      by_contra hfull
      exact addRowTraced_beyond hlen hfull (within_bind.mp hwithin).1
    · intro hfree
      exact within_bind.mpr ⟨addRowTraced_within hlen hfree, within_pure _⟩
  | rem index => exact iff_of_true (remTraced_within index) trivial
  | remItem item => exact iff_of_true (within_bind.mpr ⟨remItemTraced_within item, within_pure _⟩) trivial
  | getItem index => exact iff_of_true (within_bind.mpr ⟨getItemTraced_within index, within_pure _⟩) trivial
  | itrTable index => exact iff_of_true (within_bind.mpr ⟨itrTableTraced_within index, within_pure _⟩) trivial

/-- From a new table of any size, whatever the rows read as: every access of every call is in
the array just when no row is added to a full table. -/
theorem accesses_in_table_iff [DecidableEq ι] (size : Nat) (calls : List (TableCall ι × Surroundings ι)) :
    (∀ k s os, run tableStep (pure (dmapTableInit size)) (calls.take k) = some (s, os) → Within (InTable size) s) ↔
      Guarded tableStep FindsFree (pure (dmapTableInit size)) calls := by
  have hinit : OfSize size (dmapTableInit size) := ⟨rfl, List.length_replicate⟩
  have hstep : ∀ (s : Traced Int DmapTable) (call : TableCall ι × Surroundings ι) s' o,
      OfSize size s.result ∧ Within (InTable size) s → tableStep s call = some (s', o) →
        (FindsFree s call → OfSize size s'.result ∧ Within (InTable size) s') ∧
          (Within (InTable size) s' → FindsFree s call) := by
    rintro s call s' o ⟨hsize, hwithin⟩ hcall
    cases hcall
    constructor
    · intro hfree
      exact ⟨tableCall_size hsize call.1, within_bind.mpr ⟨hwithin, (tableCall_within_iff hsize call).mpr hfree⟩⟩
    · intro hafter
      exact (tableCall_within_iff hsize call).mp (within_bind.mp hafter).2
  exact prefixes_iff_guarded (fun s h => h.2) hstep (fun s call _ hfault => nomatch hfault)
    ⟨hinit, within_pure _⟩ calls

/-- A second row for a table of one: the scan reads the slot with index 1. -/
theorem full_table_reads_beyond :
    ∃ s os, run tableStep (pure (dmapTableInit 1))
        [((.addRow (some 0) : TableCall Nat), ⟨none, fun _ => none⟩), (.addRow (some 1), ⟨none, fun _ => none⟩)] =
          some (s, os) ∧
      s.accesses = [0, 0, 0, 1] ∧ ¬ Within (InTable 1) s := by
  refine ⟨_, _, rfl, rfl, ?_⟩
  intro h
  exact absurd (h 1 (by decide)).2 (by decide)

end Devclego.Datamaps
