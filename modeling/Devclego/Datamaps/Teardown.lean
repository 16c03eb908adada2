import Devclego.Datamaps.Shutdown

/-!
# Tearing a table down

`_dmap_table_deinit` removes each row at the index that the iterator stopped at. The slots
behind are still as they were, so the rest of the loop is the teardown of the rest of the
table. Freeing a row twice is a fault, so a row that was live and is gone afterwards has been
freed once.
-/
namespace Devclego.Datamaps

open Foundation

variable {ι δ ω : Type}

def dmapTableDeinit (call : δ → ι → ω → Option ω) (this : Dmap ι δ ω) : Option (Dmap ι δ ω) := do
  let (this, _) ← iterateRows call (fun _ => true) (this.table.size + 1) 0 this
  if this.table.rwmutex.isSome then some { this with table := { this.table with rwmutex := none } }
  else some this

/-- No two slots hold one row. -/
def Apart (rows : List Ptr) : Prop := rows.Pairwise fun row other => ∀ a, row = some a → other ≠ some a

/-- What has become of the rows of some slots, the first of which has index `i`. -/
structure TornDown (this final : Dmap ι δ (List (δ × ι))) (done rest : List Ptr) : Prop where
  table : final.table = { this.table with rows := done ++ List.replicate rest.length none }
  calls : final.world = this.world ++ rest.flatMap fun row => Datamap.calls (this.mem.load row)
  freed : ∀ a, some a ∈ rest → final.mem.read a = none
  kept : ∀ a, some a ∉ rest → final.mem.read a = this.mem.read a

variable {this : Dmap ι δ (List (δ × ι))} {done rest : List Ptr}

theorem slotAt_middle (done rest : List Ptr) (row : Ptr) : slotAt (done ++ row :: rest) done.length = row := by
  rw [slotAt, List.getElem?_append_right (Nat.le_refl _), Nat.sub_self]
  rfl

theorem set_middle (done rest : List Ptr) (row : Ptr) :
    (done ++ row :: rest).set done.length none = (done ++ [none]) ++ rest := by
  rw [List.set_append_right _ _ (Nat.le_refl _), Nat.sub_self, List.set_cons_zero, List.append_assoc]
  rfl

/-- A free slot is passed over. -/
theorem TornDown.skip {final : Dmap ι δ (List (δ × ι))} (h : TornDown this final (done ++ [none]) rest) :
    TornDown this final done (none :: rest) where
  table := by
    rw [h.table, List.append_assoc]
    rfl
  calls := h.calls
  freed := by
    intro a ha
    rcases List.mem_cons.mp ha with he | ha
    · cases he
    · exact h.freed a ha
  kept := fun a ha => h.kept a fun hin => ha (List.mem_cons_of_mem _ hin)

/-- The table once the row of a slot has been destroyed. -/
def destroyRow (this : Dmap ι δ (List (δ × ι))) (index : Nat) (a : Addr) : Dmap ι δ (List (δ × ι)) where
  mem := this.mem.set a none
  table := { this.table with rows := this.table.rows.set index none }
  world := this.world ++ Datamap.calls (this.mem.load (some a))

theorem dmapRem_row {index : Nat} {a : Addr} {r : DmapRow ι δ} (hslot : slotAt this.table.rows index = some a)
    (hin : index < this.table.size) (hr : this.mem.read a = some r) :
    dmapRem record this (index : Int) = some (destroyRow this index a) := by
  have hbounds : ¬ ((index : Int) < 0 ∨ (this.table.size : Int) ≤ (index : Int)) := by omega
  rw [dmapRem, if_neg hbounds, Int.toNat_natCast, getElem?_of_slotAt hslot, destroyRow, Memory.load_some, hr]
  simp only [Option.bind_eq_bind, Option.bind_some, dmapRowDtor_record hr]

/-- A row that is in no later slot is destroyed. -/
theorem TornDown.take {final : Dmap ι δ (List (δ × ι))} {a : Addr} (hlive : (this.mem.read a).isSome)
    (hgone : some a ∉ rest) (h : TornDown (destroyRow this done.length a) final (done ++ [none]) rest) :
    TornDown this final done (some a :: rest) where
  table := by
    rw [h.table, List.append_assoc]
    rfl
  calls := by
    have hsame : (rest.flatMap fun row => Datamap.calls ((this.mem.set a none).load row)) =
        rest.flatMap fun row => Datamap.calls (this.mem.load row) := by
      refine List.flatMap_congr fun row hrow => ?_
      cases row with
      | none => rfl
      | some b =>
        have hne : b ≠ a := fun he => hgone (he ▸ hrow)
        rw [Memory.load_some, Memory.load_some, Memory.read_set_ne _ hne]
    rw [h.calls, List.flatMap_cons, ← List.append_assoc]
    exact congrArg _ hsame
  freed := by
    intro b hb
    by_cases hrest : some b ∈ rest
    · exact h.freed b hrest
    · rcases List.mem_cons.mp hb with he | hb
      · cases he
        obtain ⟨r, hr⟩ := Option.isSome_iff_exists.mp hlive
        rw [h.kept a hrest]
        exact Memory.read_set_self hr none
      · exact absurd hb hrest
  kept := by
    intro b hb
    rw [List.mem_cons, not_or] at hb
    rw [h.kept b hb.2]
    exact Memory.read_set_ne _ (fun he => hb.1 (congrArg some he)) _

/-- The slots from `i` on are torn down: their rows are live, and none is in two of them. -/
theorem iterateRows_all {fuel : Nat} (hrows : this.table.rows = done ++ rest)
    (hsize : this.table.rows.length = this.table.size)
    (hlive : ∀ a, some a ∈ rest → (this.mem.read a).isSome) (hapart : Apart rest) (hfuel : rest.length < fuel) :
    ∃ final visited, iterateRows record (fun _ => true) fuel done.length this = some (final, visited) ∧
      TornDown this final done rest := by
  induction rest generalizing done this fuel with
  | nil =>
    obtain ⟨fuel, rfl⟩ := Nat.exists_eq_succ_of_ne_zero (Nat.ne_of_gt hfuel)
    rw [List.append_nil] at hrows
    have hitr : dmapItrTable this.table done.length = some (done.length, none) :=
      dmapItrTable_end (by rw [← hsize, hrows])
    refine ⟨this, [], ?_, ?_, (List.append_nil _).symm, fun a ha => absurd ha List.not_mem_nil, fun _ _ => rfl⟩
    · rw [iterateRows, hitr]
      rfl
    · rw [List.length_nil, List.replicate_zero, List.append_nil, ← hrows]
  | cons row rest ih =>
    obtain ⟨fuel, rfl⟩ := Nat.exists_eq_succ_of_ne_zero (Nat.ne_of_gt (Nat.zero_lt_of_lt hfuel))
    obtain ⟨hfirst, hrest⟩ := List.pairwise_cons.mp hapart
    have hslot : slotAt this.table.rows done.length = row := by rw [hrows, slotAt_middle]
    have hin : done.length < this.table.size := by
      rw [← hsize, hrows, List.length_append, List.length_cons]
      omega
    cases row with
    | none =>
      have hnext : this.table.rows = (done ++ [none]) ++ rest := by rw [hrows, List.append_assoc]; rfl
      have hskip : iterateRows record (fun _ => true) (fuel + 1) done.length this =
          iterateRows record (fun _ => true) (fuel + 1) (done ++ [none]).length this := by
        rw [List.length_append, List.length_singleton, iterateRows, iterateRows, dmapItrTable_free hsize hin hslot]
      obtain ⟨final, visited, hrun, htorn⟩ := ih hnext hsize (fun a ha => hlive a (List.mem_cons_of_mem _ ha)) hrest
        (Nat.lt_of_succ_lt hfuel)
      exact ⟨final, visited, hskip.trans hrun, htorn.skip⟩
    | some a =>
      have hlivea := hlive a (List.mem_cons_self ..)
      obtain ⟨r, hr⟩ := Option.isSome_iff_exists.mp hlivea
      have hgone : some a ∉ rest := fun ha => hfirst _ ha a rfl rfl
      have hnext : (destroyRow this done.length a).table.rows = (done ++ [none]) ++ rest := by
        show this.table.rows.set done.length none = _
        rw [hrows, set_middle]
      have hlivenext : ∀ b, some b ∈ rest → ((destroyRow this done.length a).mem.read b).isSome := by
        intro b hb
        have hne : b ≠ a := fun he => hgone (he ▸ hb)
        show ((this.mem.set a none).read b).isSome
        rw [Memory.read_set_ne _ hne]
        exact hlive b (List.mem_cons_of_mem _ hb)
      obtain ⟨final, visited, hrun, htorn⟩ := ih hnext (List.length_set.trans hsize) hlivenext hrest
        (Nat.lt_of_succ_lt_succ hfuel)
      rw [List.length_append, List.length_singleton] at hrun
      refine ⟨final, (done.length, a) :: visited, ?_, htorn.take hlivea hgone⟩
      rw [iterateRows, dmapItrTable_full hsize hslot]
      simp only [Option.bind_eq_bind, Option.bind_some, if_true, dmapRem_row hslot hin hr, hrun]

/-! ## After any calls -/

/-- Every row that was present has been destroyed in the order of the slots and freed, nothing
else has, and no slot is taken. -/
structure Destroys (this final : Dmap ι δ (List (δ × ι))) : Prop where
  calls : final.world = this.world ++ presentCalls this
  freed : ∀ a, some a ∈ this.table.rows → (this.mem.read a).isSome ∧ final.mem.read a = none
  kept : ∀ a, some a ∉ this.table.rows → final.mem.read a = this.mem.read a
  free : final.table.rows = List.replicate this.table.size none

theorem Represents.apart {content : Addr → Option (DmapRow ι δ)} {size : Nat} {m : Datamap ι δ}
    (h : Represents content size this m) : Apart this.table.rows := by
  refine List.pairwise_iff_getElem.mpr fun i j hi hj hij a hrow hother => ?_
  have hslot : ∀ k (hk : k < this.table.rows.length), this.table.rows[k] = some a → m.slot k = some a := by
    intro k hk he
    rw [← h.slots, slotAt, List.getElem?_eq_getElem hk, he]
    rfl
  exact Nat.ne_of_lt hij (h.injective i j a (hslot i hi hrow) (hslot j hj hother))

theorem Represents.mem_live {content : Addr → Option (DmapRow ι δ)} {size : Nat} {m : Datamap ι δ}
    (h : Represents content size this m) {a : Addr} (ha : some a ∈ this.table.rows) : (this.mem.read a).isSome := by
  obtain ⟨i, hi⟩ := mem_iff_slotAt.mp ha
  rw [h.slots] at hi
  exact h.live i a hi

theorem Represents.deinit {content : Addr → Option (DmapRow ι δ)} {size : Nat} {m : Datamap ι δ}
    (h : Represents content size this m) : ∃ final, dmapTableDeinit record this = some final ∧ Destroys this final := by
  have hsize : this.table.rows.length = this.table.size := h.length.trans h.bound.symm
  have hrows : this.table.rows = [] ++ this.table.rows := rfl
  obtain ⟨torn, visited, hrun, htorn⟩ := iterateRows_all hrows hsize (fun a ha => h.mem_live ha) h.apart
    (Nat.lt_succ_of_le (Nat.le_of_eq hsize))
  have hfree : torn.table.rows = List.replicate this.table.size none := by
    rw [htorn.table, ← hsize]
    rfl
  have hdestroys : Destroys this torn :=
    ⟨htorn.calls, fun a ha => ⟨h.mem_live ha, htorn.freed a ha⟩, htorn.kept, hfree⟩
  rw [List.length_nil] at hrun
  rw [dmapTableDeinit, hrun]
  simp only [Option.bind_eq_bind, Option.bind_some]
  split
  next => exact ⟨_, rfl, hdestroys.calls, hdestroys.freed, hdestroys.kept, hdestroys.free⟩
  next => exact ⟨torn, rfl, hdestroys⟩

/-- After any calls on a new table, with rows of the callers' own, the table can be torn down:
every present row is destroyed and freed once, in order. -/
theorem deinit_destroys_rows (mem : Memory (DmapRow ι δ)) (size : Nat) (word : Ptr) (ops : List Op)
    (hown : Guarded (dmapStep record (some word)) OwnRow (newTable mem size) ops) :
    ∃ this results final, run (dmapStep record (some word)) (newTable mem size) ops = some (this, results) ∧
      dmapTableDeinit record this = some final ∧ Destroys this final := by
  obtain ⟨this, results, hrun, h, -⟩ := run_represents mem size word ops hown
  obtain ⟨final, hdeinit, hdestroys⟩ := h.deinit
  exact ⟨this, results, final, hrun, hdeinit, hdestroys⟩

/-- A table of four with a hole before its rows, one of which has no destructor. -/
theorem deinit_destroys_rows_run :
    ∃ this results final, run (dmapStep record (some none)) (newTable threeRows 4)
        [.add (some 0), .add (some 2), .add (some 1), .rem 0] = some (this, results) ∧
      dmapTableDeinit record this = some final ∧ Destroys this final :=
  deinit_destroys_rows threeRows 4 none [.add (some 0), .add (some 2), .add (some 1), .rem 0] (by decide)

end Devclego.Datamaps
