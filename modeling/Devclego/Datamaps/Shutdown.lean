import Devclego.Datamaps.Refinement

/-!
# Shutting a table down

`_sys_shutdown` runs `dmap_rem_thr` on every item of the thread table. The procedure
skips the rows that hold the item and destroys the first one that does not, and it
never frees a slot.
-/
namespace Devclego.Datamaps

open Foundation

variable {ι δ ω : Type}

/-- `_sys_shutdown`, for any table. -/
def sysShutdown [DecidableEq ι] (call : δ → ι → ω → Option ω) (this : Dmap ι δ ω) : Option (Dmap ι δ ω) :=
  dmapItrDo dmapItrItem (fun this item => dmapRemItem call this item) (this.table.size + 1) 0 this

/-- The destructor calls that the rows of a table ask for. -/
def presentCalls (this : Dmap ι δ ω) : List (δ × ι) :=
  this.table.rows.flatMap fun row => Datamap.calls (this.mem.load row)

/-- Every row that was there has been destroyed once, nothing else has, and no slot is
taken. -/
def DisposesAll (this final : Dmap ι δ (List (δ × ι))) : Prop :=
  (∃ calls, final.world = this.world ++ calls ∧ calls.Perm (presentCalls this)) ∧
    ∀ row ∈ final.table.rows, row = none

/-! ## No slot changes -/

theorem freeRow_table {this this' : Dmap ι δ ω} {row : Addr} (h : freeRow this row = some this') :
    this'.table = this.table := by
  simp only [freeRow, Option.bind_eq_bind, Option.bind_eq_some_iff, Option.some.injEq] at h
  obtain ⟨mem, -, rfl⟩ := h
  rfl

theorem dmapRowDtor_table {call : δ → ι → ω → Option ω} {this this' : Dmap ι δ ω} {row : Addr}
    (h : dmapRowDtor call this row = some this') : this'.table = this.table := by
  simp only [dmapRowDtor, Option.bind_eq_bind, Option.bind_eq_some_iff] at h
  obtain ⟨r, -, h⟩ := h
  split at h
  · exact freeRow_table h
  · split at h
    · exact freeRow_table h
    · obtain ⟨world, -, h⟩ := Option.bind_eq_some_iff.mp h
      have htable := freeRow_table h
      exact htable

theorem presentCalls_empty {this : Dmap ι δ ω} (hfree : ∀ row ∈ this.table.rows, row = none) :
    presentCalls this = [] := by
  refine List.flatMap_eq_nil_iff.mpr fun row hrow => ?_
  rw [hfree row hrow]
  rfl

section Shutdown

variable [DecidableEq ι]

theorem dmapRemItem_table {call : δ → ι → ω → Option ω} {this this' : Dmap ι δ ω} {item : Option ι}
    (h : dmapRemItem call this item = some this') : this'.table = this.table := by
  simp only [dmapRemItem, Option.bind_eq_bind, Option.bind_eq_some_iff] at h
  obtain ⟨⟨index, row⟩, -, h⟩ := h
  split at h
  · cases h
    rfl
  · cases row with
    | none => cases h
    | some row => exact dmapRowDtor_table h

theorem dmapItrDo_table {call : δ → ι → ω → Option ω} {fuel index : Nat} {this this' : Dmap ι δ ω}
    (h : dmapItrDo dmapItrItem (fun this item => dmapRemItem call this item) fuel index this = some this') :
    this'.table = this.table := by
  induction fuel generalizing index this with
  | zero => cases h
  | succ fuel ih =>
    simp only [dmapItrDo, Option.bind_eq_bind, Option.bind_eq_some_iff] at h
    obtain ⟨_ | ⟨index', item⟩, -, h⟩ := h
    · cases h
      rfl
    · obtain ⟨next, hrem, hrest⟩ := Option.bind_eq_some_iff.mp h
      exact (ih hrest).trans (dmapRemItem_table hrem)

/-! ## The empty table -/

theorem sysShutdown_empty {call : δ → ι → ω → Option ω} {this : Dmap ι δ ω}
    (hlen : this.table.rows.length = this.table.size) (hfree : ∀ row ∈ this.table.rows, row = none) :
    sysShutdown call this = some this := by
  have hitr := dmapItrTable_behind hlen (i := 0) (Nat.zero_le _) fun j _ => slotAt_of_free hfree j
  simp [sysShutdown, dmapItrDo, dmapItrItem, hitr]

/-- Shutting down works on an empty table only. -/
theorem shutdown_disposes_iff (mem : Memory (DmapRow ι δ)) (size : Nat) (word : Ptr) (ops : List Op)
    (hown : Guarded (dmapStep record (some word)) OwnRow (newTable mem size) ops)
    {this : Dmap ι δ (List (δ × ι))} {results : List (Result ι)}
    (hrun : run (dmapStep record (some word)) (newTable mem size) ops = some (this, results)) :
    (∃ final, sysShutdown record this = some final ∧ DisposesAll this final) ↔
      ∀ row ∈ this.table.rows, row = none := by
  constructor
  · intro hfinal
    obtain ⟨final, hshut, -, hfree⟩ := hfinal
    rwa [dmapItrDo_table hshut] at hfree
  · intro hfree
    obtain ⟨this', results', hrun', h, -⟩ := run_represents mem size word ops hown
    cases hrun.symm.trans hrun'
    refine ⟨this, sysShutdown_empty (h.length.trans h.bound.symm) hfree, ⟨[], ?_, ?_⟩, hfree⟩
    · rw [List.append_nil]
    · rw [presentCalls_empty hfree]

end Shutdown

/-- The rows of `threeRows` in a table. -/
def filled (rows : List Ptr) : Dmap Nat Unit (List (Unit × Nat)) where
  mem := threeRows
  table := { size := rows.length, rwmutex := some rwmutexCtor, rows := rows }
  world := []

theorem shutdown_disposes_iff_run :
    (∃ final, sysShutdown record (filled [some 1]) = some final ∧ DisposesAll (filled [some 1]) final) ↔
      ∀ row ∈ (filled [some 1]).table.rows, row = none :=
  have hrun : run (dmapStep record (some none)) (newTable threeRows 1) [.add (some 1)] =
      some (filled [some 1], [.added 0]) := by
    decide
  shutdown_disposes_iff threeRows 1 none [.add (some 1)] (by decide) hrun

/-- The only item of a table is not destroyed; of two items, the second one is
destroyed for the first, and the iteration then reads its row. -/
theorem shutdown_disposes_wrongly :
    run (dmapStep record (some none)) (newTable threeRows 1) [.add (some 1)] = some (filled [some 1], [.added 0]) ∧
      (¬ ∃ final, sysShutdown record (filled [some 1]) = some final ∧ DisposesAll (filled [some 1]) final) ∧
      sysShutdown record (filled [some 0, some 1]) = none := by
  refine ⟨by decide, ?_, by decide⟩
  intro hfinal
  obtain ⟨final, hshut, -, hfree⟩ := hfinal
  have hsame : sysShutdown record (filled [some 1]) = some (filled [some 1]) := by decide
  cases hshut.symm.trans hsame
  exact absurd (hfree (some 1) (by decide)) (by decide)

end Devclego.Datamaps
