import Devclego.Datamaps.Datamap

/-!
# The table refines the datamap

Each scan of the table is described one slot at a time, and an iteration is then the
walk of the abstract datamap over all ids. A stored row stays live because no row is
in two slots.
-/
namespace Devclego.Datamaps

open Foundation

variable {ι δ ω : Type} {table : DmapTable} {i : Nat} {a : Addr}

/-! ## Scanning -/

theorem dmapItrTable_end (h : table.size ≤ i) : dmapItrTable table i = some (i, none) := by
  have hfuel : table.size - i = 0 := by omega
  simp [dmapItrTable, hfuel, nextRow, h]

theorem dmapItrTable_full (hlen : table.rows.length = table.size) (h : slotAt table.rows i = some a) :
    dmapItrTable table i = some (i, some a) := by
  have hi : i < table.size := hlen ▸ lt_of_slotAt h
  have hrow := getElem?_of_slotAt h
  obtain ⟨fuel, hfuel⟩ : ∃ fuel, table.size - i = fuel + 1 := ⟨table.size - i - 1, by omega⟩
  simp [dmapItrTable, hfuel, nextRow, hi, hrow]

theorem dmapItrTable_free (hlen : table.rows.length = table.size) (hi : i < table.size)
    (h : slotAt table.rows i = none) : dmapItrTable table i = dmapItrTable table (i + 1) := by
  have hrow : table.rows[i]? = some none := by
    rw [getElem?_slotAt (by omega), h]
  have hfuel : table.size - i = table.size - (i + 1) + 1 := by omega
  rw [dmapItrTable, hfuel, nextRow, if_pos hi, hrow]
  rfl

/-- Behind the last row the iterator stops at the end. -/
theorem dmapItrTable_behind (hlen : table.rows.length = table.size) (hi : i ≤ table.size)
    (hfree : ∀ j, i ≤ j → slotAt table.rows j = none) : dmapItrTable table i = some (table.size, none) := by
  obtain ⟨k, hk⟩ := Nat.exists_eq_add_of_le hi
  induction k generalizing i with
  | zero =>
    cases hk
    exact dmapItrTable_end (Nat.le_refl _)
  | succ k ih =>
    rw [dmapItrTable_free hlen (by omega) (hfree i (Nat.le_refl i))]
    exact ih (by omega) (fun j hj => hfree j (by omega)) (by omega)

/-- The scan of `_dmap_add_row` stops at the least free slot, or at the size. -/
theorem freeSlot_eq (word : Ptr) (hlen : table.rows.length = table.size) (fuel : Nat) (hi : i ≤ table.size)
    (hfuel : fuel + i = table.size + 1) (hfull : ∀ j < i, slotAt table.rows j ≠ none) :
    freeSlot (some word) table fuel i =
      some ((leastFree (slotAt table.rows) table.size).getD table.size) := by
  induction fuel generalizing i with
  | zero => omega
  | succ fuel ih =>
    rw [freeSlot]
    by_cases hend : i = table.size
    · have hnone : leastFree (slotAt table.rows) table.size = none :=
        leastFree_none.mpr fun j hj => hfull j (hend ▸ hj)
      have hrow : table.rows[i]? = none := List.getElem?_eq_none (by omega)
      simp [hend, hnone]
    · have hlt : i < table.size := by omega
      rw [getElem?_slotAt (by omega)]
      cases hrow : slotAt table.rows i with
      | none =>
        have hleast := leastFree_some.mpr ⟨hrow, hlt, hfull⟩
        simp [hleast]
      | some a =>
        have hnext : ∀ j < i + 1, slotAt table.rows j ≠ none := by
          intro j hj
          rcases Nat.lt_succ_iff_lt_or_eq.mp hj with hj | rfl
          · exact hfull j hj
          · rw [hrow]
            exact Option.some_ne_none a
        have hrest := ih (by omega) (by omega) hnext
        simpa [hlt] using hrest

/-! ## Rows -/

/-- The table holds the datamap: the rows in its slots are live, and no row is in two. -/
structure Represents (content : Addr → Option (DmapRow ι δ)) (size : Nat)
    (this : Dmap ι δ (List (δ × ι))) (m : Datamap ι δ) : Prop where
  bound : this.table.size = size
  length : this.table.rows.length = size
  slots : slotAt this.table.rows = m.slot
  injective : ∀ i j a, m.slot i = some a → m.slot j = some a → i = j
  live : ∀ i a, m.slot i = some a → (this.mem.read a).isSome
  unchanged : ∀ a r, this.mem.read a = some r → content a = some r
  destroyed : this.world = m.destroyed

variable {content : Addr → Option (DmapRow ι δ)} {size : Nat} {this : Dmap ι δ (List (δ × ι))}
  {m : Datamap ι δ}

theorem represents_new (mem : Memory (DmapRow ι δ)) (size : Nat) :
    Represents mem.read size (newTable mem size) Datamap.empty where
  bound := rfl
  length := List.length_replicate
  slots := by
    funext i
    exact slotAt_replicate size i
  injective := fun _ _ _ h => by cases h
  live := fun _ _ h => by cases h
  unchanged := fun _ _ h => h
  destroyed := rfl

theorem Represents.lt (h : Represents content size this m) (hrow : m.slot i = some a) : i < size := by
  rw [← h.slots] at hrow
  exact h.length ▸ lt_of_slotAt hrow

/-- The row in a slot, with its contents. -/
theorem Represents.row (h : Represents content size this m) (hrow : m.slot i = some a) :
    ∃ r, this.mem.read a = some r ∧ content a = some r := by
  obtain ⟨r, hr⟩ := Option.isSome_iff_exists.mp (h.live i a hrow)
  exact ⟨r, hr, h.unchanged a r hr⟩

/-- A live row is destroyed and freed. -/
theorem dmapRowDtor_record {r : DmapRow ι δ} (hr : this.mem.read a = some r) :
    dmapRowDtor record this a =
      some { this with mem := this.mem.set a none, world := this.world ++ Datamap.calls (some r) } := by
  obtain ⟨item, dtor⟩ := r
  simp only [dmapRowDtor, hr, Option.bind_eq_bind, Option.bind_some]
  cases item with
  | none => simp [freeRow, Memory.free_live hr, Datamap.calls]
  | some item =>
    cases dtor with
    | none => simp [freeRow, Memory.free_live hr, Datamap.calls]
    | some dtor => simp [freeRow, Memory.free_live hr, record, Datamap.calls]

/-- The owner of a row takes it out of the table and destroys it. -/
theorem Represents.destroy (h : Represents content size this m) {r : DmapRow ι δ} (hrow : m.slot i = some a)
    (hr : content a = some r) :
    Represents content size
      { mem := this.mem.set a none, table := { this.table with rows := this.table.rows.set i none },
        world := this.world ++ Datamap.calls (some r) } (m.remove content i) := by
  have hi := h.lt hrow
  have hother : ∀ {j b}, Function.update m.slot i none j = some b → m.slot j = some b ∧ b ≠ a := by
    intro j b hj
    have hji : j ≠ i := by
      rintro rfl
      rw [Function.update_self] at hj
      cases hj
    rw [Function.update_of_ne hji] at hj
    refine ⟨hj, ?_⟩
    rintro rfl
    exact hji (h.injective j i b hj hrow)
  constructor
  · exact h.bound
  · rw [List.length_set]
    exact h.length
  · rw [slotAt_set (by rw [h.length]; exact hi), h.slots]
    rfl
  · intro j k b hj hk
    exact h.injective j k b (hother hj).1 (hother hk).1
  · intro j b hj
    obtain ⟨hb, hne⟩ := hother hj
    rw [Memory.read_set_ne _ hne]
    exact h.live j b hb
  · intro b s hs
    by_cases hb : b = a
    · obtain ⟨r', hr', -⟩ := h.row hrow
      rw [hb, Memory.read_set_self hr'] at hs
      cases hs
    · rw [Memory.read_set_ne _ hb] at hs
      exact h.unchanged b s hs
  · simp only [Datamap.remove, hrow, Option.bind_some, hr, h.destroyed]

theorem Represents.remove_free (hrow : m.slot i = none) : m.remove content i = m := by
  have hcalls : Datamap.calls (none : Option (DmapRow ι δ)) = [] := rfl
  simp only [Datamap.remove, hrow, Option.bind_none, hcalls, List.append_nil]
  rw [← hrow, Function.update_eq_self]

/-! ## Operations -/

theorem Represents.slot_at (h : Represents content size this m) (hi : i < size) :
    this.table.rows[i]? = some (m.slot i) := by
  rw [← h.slots]
  exact getElem?_slotAt (by rw [h.length]; exact hi)

theorem Represents.slot_end (h : Represents content size this m) (hi : size ≤ i) : m.slot i = none := by
  cases hrow : m.slot i with
  | none => rfl
  | some a => exact absurd (h.lt hrow) (by omega)

theorem dmapRem_refines (h : Represents content size this m) (index : Int) :
    ∃ this', dmapRem record this index = some this' ∧
      Represents content size this' (if index < 0 then m else m.remove content index.toNat) := by
  unfold dmapRem
  by_cases hneg : index < 0
  · refine ⟨this, ?_, ?_⟩
    · rw [if_pos (Or.inl hneg)]
    · rw [if_pos hneg]
      exact h
  · rw [if_neg hneg]
    by_cases hend : (this.table.size : Int) ≤ index
    · have hfree := h.slot_end (i := index.toNat) (by rw [← h.bound]; omega)
      refine ⟨this, ?_, ?_⟩
      · rw [if_pos (Or.inr hend)]
      · rw [Represents.remove_free hfree]
        exact h
    · have hsize := h.bound
      rw [if_neg (fun hor => hor.elim hneg hend), h.slot_at (by omega)]
      cases hrow : m.slot index.toNat with
      | none =>
        refine ⟨this, rfl, ?_⟩
        rw [Represents.remove_free hrow]
        exact h
      | some a =>
        obtain ⟨r, hr, hc⟩ := h.row hrow
        refine ⟨_, ?_, h.destroy hrow hc⟩
        simp [dmapRowDtor_record hr]

theorem dmapGetItem_refines (h : Represents content size this m) (index : Int) :
    dmapGetItem this index = some (if index < 0 then none else m.item content index.toNat) := by
  unfold dmapGetItem
  by_cases hneg : index < 0
  · rw [if_pos (Or.inl hneg), if_pos hneg]
  · rw [if_neg hneg]
    by_cases hend : (this.table.size : Int) ≤ index
    · have hfree := h.slot_end (i := index.toNat) (by rw [← h.bound]; omega)
      rw [if_pos (Or.inr hend), Datamap.item, hfree]
      rfl
    · have hsize := h.bound
      rw [if_neg (fun hor => hor.elim hneg hend), h.slot_at (by omega), Datamap.item]
      cases hrow : m.slot index.toNat with
      | none => rfl
      | some a =>
        obtain ⟨r, hr, hc⟩ := h.row hrow
        simp [hr, hc]

/-- A new row may stand in a free slot. -/
theorem Represents.store (h : Represents content size this m) {a : Addr} (hi : i < size)
    (hlive : (this.mem.read a).isSome) (hnew : some a ∉ this.table.rows) :
    Represents content size { this with table := { this.table with rows := this.table.rows.set i (some a) } }
      { m with slot := Function.update m.slot i (some a) } := by
  have hnot : ∀ j, m.slot j ≠ some a := by
    intro j hj
    rw [← h.slots] at hj
    exact hnew (mem_iff_slotAt.mpr ⟨j, hj⟩)
  constructor
  · exact h.bound
  · exact List.length_set.trans h.length
  · show slotAt (this.table.rows.set i (some a)) = _
    rw [slotAt_set (by rw [h.length]; exact hi), h.slots]
  · intro j k b hj hk
    simp only [Function.update_apply] at hj hk
    split at hj
    · split at hk
      · simp_all
      · cases hj
        exact absurd hk (hnot k)
    · split at hk
      · cases hk
        exact absurd hj (hnot j)
      · exact h.injective j k b hj hk
  · intro j b hj
    simp only [Function.update_apply] at hj
    split at hj
    · cases hj
      exact hlive
    · exact h.live j b hj
  · exact h.unchanged
  · exact h.destroyed

/-- The row handed to an add is the caller's own: it is live, and in no slot. -/
def OwnRow (this : Dmap ι δ ω) : Op → Prop
  | .add (some a) => (this.mem.read a).isSome ∧ some a ∉ this.table.rows
  | _ => True

theorem dmapAddRow_refines (h : Represents content size this m) (word row : Ptr)
    (hown : OwnRow this (.add row)) :
    ∃ table, dmapAddRow (some word) this.table row = some (table, (m.add size row).2) ∧
      Represents content size { this with table := table } (m.add size row).1 := by
  cases row with
  | none => exact ⟨this.table, rfl, h⟩
  | some a =>
    cases h.bound
    have hscan := freeSlot_eq word h.length (this.table.size + 1) (Nat.zero_le _) rfl
      (fun j hj => absurd hj (Nat.not_lt_zero j))
    rw [h.slots] at hscan
    simp only [dmapAddRow, reduceCtorEq, if_false, hscan, Option.bind_eq_bind, Option.bind_some, Datamap.add]
    cases hfree : leastFree m.slot this.table.size with
    | none =>
      refine ⟨this.table, ?_, h⟩
      rw [Option.getD_none, if_pos rfl]
    | some id =>
      obtain ⟨-, hid, -⟩ := leastFree_some.mp hfree
      refine ⟨_, ?_, h.store hid hown.1 hown.2⟩
      rw [Option.getD_some, if_neg (by omega)]

/-! ## Iterations -/

theorem visit_free {choose : Nat → Bool} {ids : List Nat} (hrow : m.slot i = none) :
    m.visit content choose (i :: ids) = m.visit content choose ids := by
  simp [Datamap.visit, hrow]

theorem iterateRows_refines (choose : Nat → Bool) (fuel k : Nat) (h : Represents content size this m)
    (hend : i + k = size) (hfuel : k < fuel) :
    ∃ this', iterateRows record choose fuel i this =
        some (this', (m.visit content choose (List.range' i k)).2) ∧
      Represents content size this' (m.visit content choose (List.range' i k)).1 := by
  induction k generalizing i fuel this m with
  | zero =>
    obtain ⟨fuel, rfl⟩ : ∃ f, fuel = f + 1 := ⟨fuel - 1, by omega⟩
    have hitr : dmapItrTable this.table i = some (i, none) := dmapItrTable_end (by rw [h.bound]; omega)
    refine ⟨this, ?_, h⟩
    simp [iterateRows, hitr, Datamap.visit]
  | succ k ih =>
    have hlen : this.table.rows.length = this.table.size := h.length.trans h.bound.symm
    have hi : i < size := by omega
    obtain ⟨fuel, rfl⟩ : ∃ f, fuel = f + 1 := ⟨fuel - 1, by omega⟩
    rw [List.range'_succ]
    cases hrow : m.slot i with
    | none =>
      -- The scan of the table goes on behind the free slot by itself.
      have hskip : iterateRows record choose (fuel + 1) i this =
          iterateRows record choose (fuel + 1) (i + 1) this := by
        rw [iterateRows, iterateRows,
          dmapItrTable_free hlen (by rw [h.bound]; exact hi) (by rw [h.slots]; exact hrow)]
      rw [visit_free hrow, hskip]
      exact ih (fuel + 1) h (by omega) (by omega)
    | some a =>
      have hitr : dmapItrTable this.table i = some (i, some a) :=
        dmapItrTable_full hlen (by rw [h.slots]; exact hrow)
      obtain ⟨this₁, hbody, h₁⟩ : ∃ this₁,
          (if choose i then dmapRem record this i else some this) = some this₁ ∧
            Represents content size this₁ (if choose i then m.remove content i else m) := by
        cases choose i with
        | false => exact ⟨this, rfl, h⟩
        | true =>
          obtain ⟨this₁, hrem, h₁⟩ := dmapRem_refines h (i : Int)
          rw [if_neg (by omega), Int.toNat_natCast] at h₁
          exact ⟨this₁, hrem, h₁⟩
      obtain ⟨this', hrest, h'⟩ := ih (i := i + 1) fuel h₁ (by omega) (by omega)
      refine ⟨this', ?_, ?_⟩
      · simp [iterateRows, hitr, hbody, hrest, Datamap.visit, hrow]
      · simpa [Datamap.visit, hrow] using h'

theorem dmapStep_refines (word : Ptr) (h : Represents content size this m) (op : Op) (hown : OwnRow this op) :
    ∃ this' o, dmapStep record (some word) this op = some (this', o) ∧
      Represents content size this' (m.step content size op).1 ∧ o = (m.step content size op).2 := by
  cases op with
  | add row =>
    obtain ⟨table, hadd, h'⟩ := dmapAddRow_refines h word row hown
    exact ⟨_, _, by rw [dmapStep, hadd]; rfl, h', rfl⟩
  | rem index =>
    obtain ⟨this', hrem, h'⟩ := dmapRem_refines h index
    exact ⟨this', .removed, by rw [dmapStep, hrem]; rfl, h', rfl⟩
  | get index =>
    have hget := dmapGetItem_refines h index
    exact ⟨this, _, by rw [dmapStep, hget]; rfl, h, rfl⟩
  | iterate choose =>
    obtain ⟨this', hitr, h'⟩ := iterateRows_refines (i := 0) choose (this.table.size + 1) size h
      (Nat.zero_add _) (by rw [h.bound]; omega)
    rw [← List.range_eq_range'] at hitr h'
    exact ⟨this', _, by rw [dmapStep, hitr]; rfl, h', rfl⟩

/-! ## Stable ids -/

/-- The operations that may free a slot. -/
def Removes (id : Nat) : Op → Prop
  | .rem index => index = id
  | .iterate remove => remove id = true
  | _ => False

theorem add_slot {row : Ptr} {id : Nat} (h : (m.add size row).2 = (id : Int)) :
    (m.add size row).1.slot id = row := by
  cases row with
  | none => cases h
  | some a =>
    unfold Datamap.add at h ⊢
    cases hfree : leastFree m.slot size with
    | none =>
      rw [hfree] at h
      cases h
    | some id' =>
      rw [hfree] at h
      cases Int.ofNat_inj.mp h
      exact Function.update_self ..

theorem visit_keeps {choose : Nat → Bool} {id : Nat} (hnot : choose id = false) (ids : List Nat)
    (hrow : m.slot id = some a) : (m.visit content choose ids).1.slot id = some a := by
  induction ids generalizing m with
  | nil => exact hrow
  | cons j ids ih =>
    cases hj : m.slot j with
    | none =>
      rw [visit_free hj]
      exact ih hrow
    | some b =>
      simp only [Datamap.visit, hj]
      refine ih ?_
      by_cases hc : choose j = true
      · have hne : id ≠ j := by
          rintro rfl
          rw [hnot] at hc
          cases hc
        rw [if_pos hc]
        exact (Function.update_of_ne hne _ _).trans hrow
      · rw [if_neg hc]
        exact hrow

theorem step_keeps {id : Nat} {op : Op} (hnot : ¬ Removes id op) (hrow : m.slot id = some a) :
    (m.step content size op).1.slot id = some a := by
  cases op with
  | add row =>
    cases row with
    | none => exact hrow
    | some b =>
      simp only [Datamap.step, Datamap.add]
      cases hfree : leastFree m.slot size with
      | none => exact hrow
      | some j =>
        have hne : id ≠ j := by
          rintro rfl
          rw [(leastFree_some.mp hfree).1] at hrow
          cases hrow
        exact (Function.update_of_ne hne _ _).trans hrow
  | rem index =>
    simp only [Datamap.step]
    by_cases hneg : index < 0
    · rw [if_pos hneg]
      exact hrow
    · have hne : id ≠ index.toNat := fun he => hnot (by rw [Removes]; omega)
      rw [if_neg hneg]
      exact (Function.update_of_ne hne _ _).trans hrow
  | get index => exact hrow
  | iterate choose => exact visit_keeps (Bool.eq_false_iff.mpr hnot) _ hrow

/-- The index an add returned names the row that was added, until it is removed. -/
def KeepsIds (mem : Memory (DmapRow ι δ)) (ops : List Op) (results : List (Result ι)) (this : Dmap ι δ ω) :
    Prop :=
  ∀ (before : List Op) (row : Ptr) (after : List Op) (id : Nat), ops = before ++ .add row :: after →
    results[before.length]? = some (.added id) → (∀ op ∈ after, ¬ Removes id op) →
    dmapGetItem this id = some ((row.bind mem.read).bind DmapRow.item)

theorem Represents.keeps_ids {mem : Memory (DmapRow ι δ)} {ops : List Op}
    (h : Represents mem.read size this (specRun (Datamap.step mem.read size) Datamap.empty ops).1) :
    KeepsIds mem ops (specRun (Datamap.step mem.read size) Datamap.empty ops).2 this := by
  intro before row after id hops hresult hnot
  let m := (specRun (Datamap.step mem.read size) Datamap.empty before).1
  have hlen := length_specRun (Datamap.step mem.read size) Datamap.empty before
  have hadded : (m.add size row).2 = (id : Int) := by
    rw [hops, specRun_append, ← hlen, List.getElem?_append_right (Nat.le_refl _), Nat.sub_self] at hresult
    exact Result.added.inj (Option.some.inj hresult)
  have hslot := add_slot hadded
  obtain ⟨a, rfl⟩ : ∃ a, row = some a := by
    cases row with
    | none => cases hadded
    | some a => exact ⟨a, rfl⟩
  have hkeep : ∀ m', ∀ op ∈ after, m'.slot id = some a → (Datamap.step mem.read size m' op).1.slot id = some a :=
    fun _ op hop => step_keeps (hnot op hop)
  have hfinal := specRun_preserves hkeep hslot
  have hget := dmapGetItem_refines h id
  rw [if_neg (by omega), Int.toNat_natCast, hops, specRun_append] at hget
  rw [hget]
  exact congrArg (fun row => some ((row.bind mem.read).bind DmapRow.item)) hfinal

theorem run_represents (mem : Memory (DmapRow ι δ)) (size : Nat) (word : Ptr) (ops : List Op)
    (hown : Guarded (dmapStep record (some word)) OwnRow (newTable mem size) ops) :
    ∃ this results, run (dmapStep record (some word)) (newTable mem size) ops = some (this, results) ∧
      Represents mem.read size this (specRun (Datamap.step mem.read size) Datamap.empty ops).1 ∧
      results = (specRun (Datamap.step mem.read size) Datamap.empty ops).2 := by
  have hstep := fun s m op (h : Represents mem.read size s m) => dmapStep_refines word h op
  obtain ⟨this, results, hrun, h, hout⟩ := run_refines hstep (represents_new mem size) hown
  rw [List.forall₂_eq_eq_eq] at hout
  exact ⟨this, results, hrun, h, hout⟩

/-- Every sequence of calls gives what the datamap gives, and leaves its rows, its
destructor calls and its ids. -/
theorem table_refines_datamap (mem : Memory (DmapRow ι δ)) (size : Nat) (word : Ptr) (ops : List Op)
    (hown : Guarded (dmapStep record (some word)) OwnRow (newTable mem size) ops) :
    ∃ this results, run (dmapStep record (some word)) (newTable mem size) ops = some (this, results) ∧
      Represents mem.read size this (specRun (Datamap.step mem.read size) Datamap.empty ops).1 ∧
      results = (specRun (Datamap.step mem.read size) Datamap.empty ops).2 ∧
      KeepsIds mem ops results this := by
  obtain ⟨this, results, hrun, h, hout⟩ := run_represents mem size word ops hown
  refine ⟨this, results, hrun, h, hout, ?_⟩
  rw [hout]
  exact h.keeps_ids

instance (this : Dmap ι δ ω) : (op : Op) → Decidable (OwnRow this op)
  | .add (some a) => inferInstanceAs (Decidable ((this.mem.read a).isSome ∧ some a ∉ this.table.rows))
  | .add none => isTrue trivial
  | .rem _ => isTrue trivial
  | .get _ => isTrue trivial
  | .iterate _ => isTrue trivial

/-- Three rows of one item each. -/
def threeRows : Memory (DmapRow Nat Unit) where
  cells := [some { item := some 10, dtor := some () }, some { item := some 11, dtor := some () },
    some { item := some 12, dtor := none }]

/-- A full table, and a slot that is used again. -/
def mixedOps : List Op :=
  [.add (some 0), .add (some 1), .add (some 2), .rem 0, .add (some 2), .get 0, .iterate fun id => id == 1]

theorem table_refines_datamap_run :
    ∃ this results, run (dmapStep record (some none)) (newTable threeRows 2) mixedOps = some (this, results) ∧
      Represents threeRows.read 2 this (specRun (Datamap.step threeRows.read 2) Datamap.empty mixedOps).1 ∧
      results = (specRun (Datamap.step threeRows.read 2) Datamap.empty mixedOps).2 ∧
      KeepsIds threeRows mixedOps results this :=
  table_refines_datamap threeRows 2 none mixedOps (by decide)

end Devclego.Datamaps
