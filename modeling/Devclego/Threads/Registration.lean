import Devclego.Threads.Model
import Mathlib.Data.List.ReduceOption

/-!
# Registering threads

From an initialised table the threads stand in the table in the order they were made.
`dmap_init` does not initialise it: the macro defines the procedure, and nothing calls
it.
-/
namespace Devclego.Threads

open Foundation Devclego.Datamaps

/-- The row of a thread. -/
def threadRow (thread : Addr) : DmapRow Addr Unit where
  item := some thread
  dtor := some ()

/-- The table holds the threads in its first slots, and its lock is free. -/
structure Filled (this : ThreadTable) (rows threads : List Addr) : Prop where
  bound : this.table.size = programMaxThreadNum
  lock : this.table.rwmutex = some rwmutexCtor
  slots : this.table.rows = rows.map some ++ List.replicate (programMaxThreadNum - rows.length) none
  contents : rows.map this.mem.read = threads.map fun t => some (threadRow t)
  room : rows.length ≤ programMaxThreadNum

variable {this : ThreadTable} {rows threads : List Addr}

theorem Filled.same_length (h : Filled this rows threads) : rows.length = threads.length := by
  have hlen := congrArg List.length h.contents
  rwa [List.length_map, List.length_map] at hlen

theorem Filled.length (h : Filled this rows threads) : this.table.rows.length = this.table.size := by
  have hroom := h.room
  rw [h.slots, h.bound, List.length_append, List.length_map, List.length_replicate]
  omega

theorem Filled.row_live (h : Filled this rows threads) {a : Addr} (ha : a ∈ rows) :
    ∃ t ∈ threads, this.mem.read a = some (threadRow t) := by
  have hmem : this.mem.read a ∈ rows.map this.mem.read := List.mem_map_of_mem ha
  rw [h.contents] at hmem
  obtain ⟨t, ht, he⟩ := List.mem_map.mp hmem
  exact ⟨t, ht, he.symm⟩

theorem slotAt_filled {n k : Nat} (rows : List Addr) (hk : k < rows.length) :
    slotAt (rows.map some ++ List.replicate n none) k = some rows[k] := by
  have hk' : k < (rows.map some).length := by rwa [List.length_map]
  rw [slotAt, List.getElem?_append_left hk', List.getElem?_map, List.getElem?_eq_getElem hk]
  rfl

theorem slotAt_behind {n k : Nat} (rows : List Addr) (hk : rows.length ≤ k) :
    slotAt (rows.map some ++ List.replicate n none) k = none := by
  have hk' : (rows.map some).length ≤ k := by rwa [List.length_map]
  rw [slotAt, List.getElem?_append_right hk']
  exact slotAt_replicate n _

/-- The slot behind the threads is the least free one. -/
theorem Filled.leastFree (h : Filled this rows threads) (hroom : rows.length < programMaxThreadNum) :
    leastFree (slotAt this.table.rows) this.table.size = some rows.length := by
  rw [leastFree_some, h.slots, h.bound]
  refine ⟨slotAt_behind rows (Nat.le_refl _), hroom, fun j hj => ?_⟩
  rw [slotAt_filled rows hj]
  exact Option.some_ne_none _

theorem set_filled (rows : List Addr) (a : Addr) {n : Nat} (hroom : rows.length < n) :
    (rows.map some ++ List.replicate (n - rows.length) none).set rows.length (some a) =
      (rows ++ [a]).map some ++ List.replicate (n - (rows ++ [a]).length) none := by
  obtain ⟨k, hk⟩ : ∃ k, n - rows.length = k + 1 := ⟨n - rows.length - 1, by omega⟩
  have hk' : n - (rows ++ [a]).length = k := by
    rw [List.length_append, List.length_singleton]
    omega
  have hset : rows.length - (rows.map some).length = 0 := by
    rw [List.length_map]
    omega
  rw [hk, hk', List.set_append_right _ _ (by rw [List.length_map]), hset, List.replicate_succ, List.set_cons_zero,
    List.map_append, List.append_assoc]
  rfl

/-- A fresh cell that is overwritten might have been made with its final value. -/
theorem alloc_set {N : Type} (m : Memory N) (n n' : N) :
    (m.alloc n).1.set m.size (some n') = (m.alloc n').1 := by
  simp [Memory.alloc, Memory.set, Memory.size]

theorem setup_new (heap : Memory Thread) (arg : Ptr) :
    setupThread (threadCtor heap).1 (some (threadCtor heap).2) arg =
      some (heap.alloc { state := .ready, arg := arg }).1 := by
  have hread := Memory.read_alloc_self heap { state := .constructed, arg := none }
  change setupThread _ (some heap.size) arg = _
  simp only [setupThread, threadCtor, hread, Option.bind_eq_bind, Option.bind_some, ne_eq, not_true_eq_false,
    if_false, Memory.write_live hread, alloc_set]

/-- The scan for a free slot, whatever the state of the lock. -/
theorem freeSlot_locked (h : Filled this rows threads) (word : Ptr) (m : Option Rwmutex) :
    freeSlot (some word) { this.table with rwmutex := m } (this.table.size + 1) 0 =
      some ((leastFree (slotAt this.table.rows) this.table.size).getD this.table.size) := by
  let table : DmapTable := { this.table with rwmutex := m }
  have hlen : table.rows.length = table.size := h.length
  exact freeSlot_eq word hlen _ (Nat.zero_le _) rfl fun j hj => absurd hj (Nat.not_lt_zero j)

/-- The row of a new thread goes to the first free slot. -/
theorem dmapAddThr_fills (h : Filled this rows threads) (hroom : rows.length < programMaxThreadNum)
    (word : Ptr) (t : Addr) {m : Option Rwmutex} :
    ∃ this' result, dmapAddThr (some word) { this with table := { this.table with rwmutex := m } } t =
        some ({ this' with table := { this'.table with rwmutex := m } }, result) ∧
      Filled this' (rows ++ [this.mem.size]) (threads ++ [t]) ∧ this'.world = this.world := by
  let mem := (this.mem.alloc (threadRow t)).1
  let table := { this.table with rows := this.table.rows.set rows.length (some this.mem.size) }
  have hscan := freeSlot_locked h word m
  have hleast := h.leastFree hroom
  have hne : rows.length ≠ this.table.size := by
    rw [h.bound]
    omega
  refine ⟨{ mem := mem, table := table, world := this.world }, rows.length, ?_, ?_, rfl⟩
  · simp only [hleast, Option.getD_some] at hscan
    simp only [dmapAddThr, dmapAdd, makeDmapRow, dmapAddRow, reduceCtorEq, if_false, hscan,
      Option.bind_eq_bind, Option.bind_some, hne]
    rfl
  · constructor
    · exact h.bound
    · exact h.lock
    · show this.table.rows.set rows.length (some this.mem.size) = _
      rw [h.slots]
      exact set_filled rows this.mem.size hroom
    · rw [List.map_append, List.map_append, ← h.contents]
      congr 1
      · refine List.map_congr_left fun a ha => Memory.read_alloc_ne this.mem _ ?_
        obtain ⟨s, -, hs⟩ := h.row_live ha
        exact Nat.ne_of_lt (Memory.lt_size_of_read hs)
      · exact congrArg (fun r => [r]) (Memory.read_alloc_self this.mem (threadRow t))
    · rw [List.length_append, List.length_singleton]
      omega

/-- `make_thread` puts its thread behind the others. -/
theorem makeThread_fills (h : Filled this rows threads) (hroom : threads.length < programMaxThreadNum)
    (word arg : Ptr) :
    ∃ this', makeThread (some word) this arg = some (this', this.world.heap.size) ∧
      Filled this' (rows ++ [this.mem.size]) (threads ++ [this.world.heap.size]) ∧
      this'.world = { this.world with heap := (this.world.heap.alloc { state := .ready, arg := arg }).1 } := by
  rw [← h.same_length] at hroom
  let heap := (this.world.heap.alloc { state := .ready, arg := arg }).1
  have h₀ : Filled (withHeap this heap) rows threads := ⟨h.bound, h.lock, h.slots, h.contents, h.room⟩
  obtain ⟨this', result, hadd, h', hworld⟩ :=
    dmapAddThr_fills h₀ hroom word this.world.heap.size (m := some { held := true })
  refine ⟨this', ?_, h', hworld⟩
  simp only [makeThread, setup_new, Option.bind_eq_bind, Option.bind_some, dmapWrlockTableThr, withHeap, h.lock,
    rwmutexWriteLock, rwmutexCtor, Bool.false_eq_true, if_false]
  refine (congrArg (Option.bind · _) hadd).trans ?_
  -- The unlocked table is the one the lemma speaks of.
  have hlock := h'.lock
  obtain ⟨mem, ⟨size, lock, slots⟩, world⟩ := this'
  cases hlock
  rfl

/-- A full table stays as it is, the row is left aside, and the thread is made all the same. -/
theorem makeThread_aside (h : Filled this rows threads) (hfull : none ∉ this.table.rows) (word arg : Ptr) :
    makeThread (some word) this arg =
      some ({ this with
        mem := (this.mem.alloc (threadRow this.world.heap.size)).1
        world := { this.world with heap := (this.world.heap.alloc { state := .ready, arg := arg }).1 } },
        this.world.heap.size) := by
  have hnone : leastFree (slotAt this.table.rows) this.table.size = none := by
    refine leastFree_none.mpr fun j hj hfree => hfull ?_
    have hrow : this.table.rows[j]? = some (slotAt this.table.rows j) := getElem?_slotAt (by rw [h.length]; exact hj)
    rw [hfree] at hrow
    exact List.mem_of_getElem? hrow
  have hscan := freeSlot_locked h word (some { held := true })
  have hlock : this.table = { this.table with rwmutex := some rwmutexCtor } := by rw [← h.lock]
  simp only [hnone, Option.getD_none] at hscan
  simp only [makeThread, setup_new, Option.bind_eq_bind, Option.bind_some, dmapWrlockTableThr, withHeap, h.lock,
    rwmutexWriteLock, rwmutexCtor, Bool.false_eq_true, if_false, dmapAddThr, dmapAdd, makeDmapRow, dmapAddRow,
    reduceCtorEq, hscan, if_true, dmapWrunlockTableThr, rwmutexWriteUnlock]
  rw [hlock]
  rfl

theorem makeThread_full {this' : ThreadTable} {word arg : Ptr} {t : Addr} (h : Filled this rows threads)
    (hfull : none ∉ this.table.rows) (hmake : makeThread (some word) this arg = some (this', t)) :
    this'.table.rows = this.table.rows := by
  cases hmake.symm.trans (makeThread_aside h hfull word arg)
  rfl

/-- Free slots stand behind the threads only. -/
theorem Filled.room_iff (h : Filled this rows threads) :
    none ∈ this.table.rows ↔ threads.length < programMaxThreadNum := by
  have hroom := h.room
  rw [h.slots, ← h.same_length, List.mem_append, List.mem_replicate, List.mem_map]
  constructor
  · intro hor
    rcases hor with hmem | hmem
    · obtain ⟨a, -, ha⟩ := hmem
      cases ha
    · omega
  · intro hlt
    exact Or.inr ⟨by omega, rfl⟩

/-! ## Reading the table back -/

/-- The items in the slots of a table, in the order of the slots. -/
def registered (this : ThreadTable) : List (Option Addr) :=
  this.table.rows.reduceOption.map fun row => (this.mem.read row).bind DmapRow.item

theorem Filled.registered (h : Filled this rows threads) : registered this = threads.map some := by
  have hrows : this.table.rows.reduceOption = rows := by
    rw [h.slots, List.reduceOption_append, List.reduceOption_replicate_none, List.append_nil]
    simp [List.reduceOption]
  have hitems := congrArg (List.map fun r => Option.bind r DmapRow.item) h.contents
  rw [List.map_map, List.map_map] at hitems
  rw [Threads.registered, hrows]
  exact hitems

theorem Filled.row_at (h : Filled this rows threads) {k : Nat} {t : Addr} (ht : threads[k]? = some t) :
    ∃ a, slotAt this.table.rows k = some a ∧ this.mem.read a = some (threadRow t) := by
  obtain ⟨hk, rfl⟩ := List.getElem?_eq_some_iff.mp ht
  have hk' : k < rows.length := h.same_length ▸ hk
  refine ⟨rows[k], ?_, ?_⟩
  · rw [h.slots]
    exact slotAt_filled rows hk'
  · have hread := congrArg (·[k]?) h.contents
    simpa [hk, hk'] using hread

/-- `dmap_get_thr` finds the threads under the indices of their creation. -/
theorem Filled.get (h : Filled this rows threads) {k : Nat} {t : Addr} (ht : threads[k]? = some t) :
    dmapGetItem this k = some (some t) := by
  obtain ⟨a, hslot, hread⟩ := h.row_at ht
  have hk : k < this.table.size := h.length ▸ lt_of_slotAt hslot
  have hin : ¬ ((k : Int) < 0 ∨ (this.table.size : Int) ≤ k) := by omega
  rw [dmapGetItem, if_neg hin, Int.toNat_natCast, getElem?_of_slotAt hslot]
  simp [hread, threadRow]

/-- The items that a full iteration with the table's iterator sees. -/
def iterated (this : ThreadTable) : Option (List (Option Addr)) :=
  (dmapItrDo (fun s => dmapItrItem s.1) (fun s item => some (s.1, s.2 ++ [item]))
    (this.table.size + 1) 0 (this, [])).map Prod.snd

theorem Filled.iterates (h : Filled this rows threads) {k fuel : Nat} (hk : k ≤ threads.length)
    (hfuel : threads.length < k + fuel) (seen : List (Option Addr)) :
    dmapItrDo (fun s => dmapItrItem s.1) (fun s item => some (s.1, s.2 ++ [item])) fuel k (this, seen) =
      some (this, seen ++ (threads.drop k).map some) := by
  induction fuel generalizing k seen with
  | zero => omega
  | succ fuel ih =>
    rcases Nat.lt_or_eq_of_le hk with hlt | rfl
    · obtain ⟨a, hslot, hread⟩ := h.row_at (List.getElem?_eq_getElem hlt)
      have hitr := dmapItrTable_full h.length hslot
      have hrest := ih hlt (by omega) (seen ++ [some threads[k]])
      rw [List.drop_eq_getElem_cons hlt]
      simp only [dmapItrDo, dmapItrItem, hitr, hread, threadRow, Option.bind_eq_bind, Option.bind_some, hrest]
      rw [List.append_assoc]
      rfl
    · have hend := dmapItrTable_behind h.length (i := threads.length)
        (by rw [h.bound, ← h.same_length]; exact h.room)
        (fun j hj => by rw [h.slots]; exact slotAt_behind rows (by rw [h.same_length]; exact hj))
      simp [dmapItrDo, dmapItrItem, hend]

theorem Filled.iterated (h : Filled this rows threads) : iterated this = some (threads.map some) := by
  have hbound : threads.length ≤ this.table.size := by
    rw [h.bound, ← h.same_length]
    exact h.room
  rw [Threads.iterated, h.iterates (Nat.zero_le _) (by omega) []]
  rfl

theorem filled_init : Filled
    { mem := ⟨[]⟩, table := dmapTableInit programMaxThreadNum, world := { heap := ⟨[]⟩, destroyed := [] } }
    [] [] where
  bound := rfl
  lock := rfl
  slots := rfl
  contents := rfl
  room := Nat.zero_le _

/-! ## Between `dmap_init` and `dmap_deinit` -/

structure Mutex where
  held : Bool
deriving DecidableEq, Repr

/-- The static variables of `dmap.c`. -/
structure Statics where
  tableThr : ThreadTable
  sysdatMutex : Option Mutex
deriving DecidableEq, Repr

/-- Static variables are zero at first. -/
def zeroStatics : Statics where
  tableThr :=
    { mem := ⟨[]⟩, table := { size := 0, rwmutex := none, rows := [] }, world := { heap := ⟨[]⟩, destroyed := [] } }
  sysdatMutex := none

def dmapInit (this : Statics) : Statics :=
  { this with sysdatMutex := some { held := false } }

/-- What `dmap_init_table_thr` would do. -/
def dmapInitTableThr (this : Statics) : Statics :=
  { this with tableThr := { this.tableThr with table := dmapTableInit programMaxThreadNum } }

def makeThreadStep (beyond : Option Ptr) (this : Statics) (arg : Ptr) : Option (Statics × Addr) := do
  let (table, thread) ← makeThread beyond this.tableThr arg
  some ({ this with tableThr := table }, thread)

/-- Allocated rows, the size and a lock. -/
def Initialised (table : DmapTable) : Prop :=
  table.size = programMaxThreadNum ∧ table.rows.length = programMaxThreadNum ∧ table.rwmutex.isSome

/-- Every call finds the table initialised, and the threads are registered in the order
of their creation. -/
structure Registers (beyond : Option Ptr) (init : Statics) (args : List Ptr) : Prop where
  accesses : Guarded (makeThreadStep beyond) (fun this _ => Initialised this.tableThr.table) init args
  returns : ∃ this threads, run (makeThreadStep beyond) init args = some (this, threads) ∧
    (∀ (k : Nat) t, threads[k]? = some t → dmapGetItem this.tableThr k = some (some t)) ∧
    iterated this.tableThr = some (threads.map some)

/-- After `dmap_init` the table works as long as nobody uses it. -/
theorem registers_iff (beyond : Option Ptr) (args : List Ptr) :
    Registers beyond (dmapInit zeroStatics) args ↔ args = [] := by
  constructor
  · intro h
    cases args with
    | nil => rfl
    | cons arg args =>
      obtain ⟨hsize, -⟩ := h.accesses.1
      cases hsize
  · rintro rfl
    refine ⟨trivial, dmapInit zeroStatics, [], rfl, ?_, rfl⟩
    intro k t hk
    rw [List.getElem?_nil] at hk
    cases hk

/-- The first call locks the null pointer. -/
theorem first_thread_faults : makeThreadStep none (dmapInit zeroStatics) none = none ∧
    ¬ Registers none (dmapInit zeroStatics) [none] := by
  refine ⟨rfl, fun h => ?_⟩
  obtain ⟨this, threads, hrun, -⟩ := h.returns
  cases hrun

theorem Filled.initialised (h : Filled this rows threads) : Initialised this.table := by
  refine ⟨h.bound, h.length.trans h.bound, ?_⟩
  rw [h.lock]
  rfl

theorem makeThread_run {this : Statics} (word : Ptr) (h : Filled this.tableThr rows threads) (args : List Ptr)
    (hroom : threads.length + args.length ≤ programMaxThreadNum) :
    Guarded (makeThreadStep (some word)) (fun this _ => Initialised this.tableThr.table) this args ∧
      ∃ this' rows' new, run (makeThreadStep (some word)) this args = some (this', new) ∧
        Filled this'.tableThr rows' (threads ++ new) := by
  induction args generalizing this rows threads with
  | nil => exact ⟨trivial, this, rows, [], rfl, by rwa [List.append_nil]⟩
  | cons arg args ih =>
    rw [List.length_cons] at hroom
    obtain ⟨table, hmake, h', -⟩ := makeThread_fills h (by omega) word arg
    have hstep : makeThreadStep (some word) this arg =
        some ({ this with tableThr := table }, this.tableThr.world.heap.size) := by
      rw [makeThreadStep, hmake]
      rfl
    let next : Statics := { this with tableThr := table }
    have hnext : Filled next.tableThr _ _ := h'
    obtain ⟨hguard, this', rows', new, hrun, hfinal⟩ := ih hnext
      (by rw [List.length_append, List.length_singleton]; omega)
    rw [List.append_assoc, List.singleton_append] at hfinal
    exact ⟨(guarded_cons hstep).mpr ⟨h.initialised, hguard⟩, this', rows', _,
      run_cons.mpr ⟨_, _, this', new, hstep, hrun, rfl⟩, hfinal⟩

/-- With the table initialised, as many threads register as it has slots. -/
theorem registers_initialised (word : Ptr) (args : List Ptr) (hroom : args.length ≤ programMaxThreadNum) :
    Registers (some word) (dmapInitTableThr (dmapInit zeroStatics)) args := by
  have h : Filled (dmapInitTableThr (dmapInit zeroStatics)).tableThr [] [] := filled_init
  obtain ⟨hguard, this, rows, threads, hrun, hfinal⟩ := makeThread_run word h args
    (by rwa [List.length_nil, Nat.zero_add])
  exact ⟨hguard, this, threads, hrun, fun k t ht => hfinal.get ht, hfinal.iterated⟩

end Devclego.Threads
