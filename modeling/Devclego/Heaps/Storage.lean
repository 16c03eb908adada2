import Devclego.Foundation.Traced
import Devclego.Heaps.Priority

/-!
# Where the heap reads and writes

The functions of `lib_heap.c` once more, with every `data[i]` that they evaluate and
the number of items the storage has at that moment. An access outside the storage
faults, so a call that returns has made none; the size is a power of two times
`base_size` along every sequence of calls.
-/
namespace Devclego.Heaps

open Foundation Attempt

structure Access where
  index : Nat
  items : Nat
deriving DecidableEq, Repr

def readCellTraced (data : List (Option Int)) (index : Nat) : Attempt Access Int :=
  access ⟨index, data.length⟩ (readCell data index)

def writeCellTraced (data : List (Option Int)) (index : Nat) (value : Int) : Attempt Access (List (Option Int)) :=
  access ⟨index, data.length⟩ (writeCell data index value)

def pushLoopTraced (value : Int) : Nat → List (Option Int) → Nat → Attempt Access (List (Option Int))
  | 0, _, _ => failure
  | fuel + 1, data, index =>
    if index = 0 then writeCellTraced data index value
    else do
      let parent := (index - 1) / 2
      let above ← readCellTraced data parent
      if heapCmp above value then writeCellTraced data index value
      else do
        let above ← readCellTraced data parent
        let data ← writeCellTraced data index above
        pushLoopTraced value fuel data parent

def heapPushTraced (h : Heap) (value : Int) : Attempt Access Heap := do
  let h := growIfFull h
  let data ← pushLoopTraced value (h.count + 1) h.data h.count
  pure { h with count := (h.count + 1) % 2 ^ 32, data := data }

def swapChildTraced (data : List (Option Int)) (count swap : Nat) : Attempt Access Nat :=
  let other := (swap + 1) % 2 ^ 32
  if other < count then do
    let right ← readCellTraced data other
    let left ← readCellTraced data swap
    pure (if heapCmp right left then other else swap)
  else pure swap

def popLoopTraced (temp : Int) (count : Nat) : Nat → List (Option Int) → Nat → Attempt Access (List (Option Int))
  | 0, _, _ => failure
  | fuel + 1, data, index =>
    let swap := (index * 2 + 1) % 2 ^ 32
    if count ≤ swap then writeCellTraced data index temp
    else do
      let swap ← swapChildTraced data count swap
      let child ← readCellTraced data swap
      if heapCmp temp child then writeCellTraced data index temp
      else do
        let child ← readCellTraced data swap
        let data ← writeCellTraced data index child
        popLoopTraced temp count fuel data swap

def heapPopTraced (h : Heap) : Attempt Access Heap := do
  let h := { h with count := (h.count + (2 ^ 32 - 1)) % 2 ^ 32 }
  let temp ← readCellTraced h.data h.count
  let h := shrinkIfSparse h
  let data ← popLoopTraced temp h.count (h.count + 1) h.data 0
  pure { h with data := data }

def heapCall (h : Heap) : HeapOp → Attempt Access Heap
  | .push value => heapPushTraced h value
  | .pop => heapPopTraced h

/-- One call on a heap with all accesses so far. -/
def storageStep (s : Heap × List Access) (op : HeapOp) : Option ((Heap × List Access) × Unit) :=
  (result (heapCall s.1 op)).map fun h => ((h, s.2 ++ accesses (heapCall s.1 op)), ())

/-- The index is below the number of items. -/
def Access.Inside (a : Access) : Prop := a.index < a.items

/-- The call is one of those `Within` allows. -/
def WithinCalls (s : Heap × List Access) (op : HeapOp) : Prop := Within s.1 op

instance (s : Heap × List Access) (op : HeapOp) : Decidable (WithinCalls s op) :=
  inferInstanceAs (Decidable (Within s.1 op))

/-! ## The functions of the model -/

@[simp] theorem result_readCellTraced (data : List (Option Int)) (index : Nat) :
    result (readCellTraced data index) = readCell data index := rfl

@[simp] theorem result_writeCellTraced (data : List (Option Int)) (index : Nat) (value : Int) :
    result (writeCellTraced data index value) = writeCell data index value := rfl

theorem pushLoop_traced (value : Int) (fuel : Nat) (data : List (Option Int)) (index : Nat) :
    result (pushLoopTraced value fuel data index) = pushLoop value fuel data index := by
  induction fuel generalizing data index with
  | zero => rfl
  | succ fuel ih =>
    rw [pushLoopTraced, pushLoop]
    split
    next => rfl
    next =>
      cases hread : readCell data ((index - 1) / 2) with
      | none => simp [hread]
      | some above =>
        simp only [result_bind, result_readCellTraced, hread, Option.bind_eq_bind, Option.bind_some]
        split
        next => rfl
        next => simp only [result_bind, result_readCellTraced, hread, result_writeCellTraced, ih, Option.bind_some]

theorem heapPush_traced (h : Heap) (value : Int) : result (heapPushTraced h value) = heapPush h value := by
  simp [heapPushTraced, heapPush, pushLoop_traced]

theorem swapChild_traced (data : List (Option Int)) (count swap : Nat) :
    result (swapChildTraced data count swap) = swapChild data count swap := by
  rw [swapChildTraced, swapChild]
  split
  next => simp
  next => rfl

theorem popLoop_traced (temp : Int) (count fuel : Nat) (data : List (Option Int)) (index : Nat) :
    result (popLoopTraced temp count fuel data index) = popLoop temp count fuel data index := by
  induction fuel generalizing data index with
  | zero => rfl
  | succ fuel ih =>
    rw [popLoopTraced, popLoop]
    split
    next => rfl
    next =>
      simp only [result_bind, swapChild_traced, Option.bind_eq_bind]
      cases swapChild data count ((index * 2 + 1) % 2 ^ 32) with
      | none => rfl
      | some swap =>
        cases hread : readCell data swap with
        | none => simp [hread]
        | some child =>
          simp only [result_readCellTraced, hread, Option.bind_some]
          split
          next => rfl
          next => simp only [result_bind, result_readCellTraced, hread, result_writeCellTraced, ih, Option.bind_some]

theorem heapPop_traced (h : Heap) : result (heapPopTraced h) = heapPop h := by
  simp [heapPopTraced, heapPop, popLoop_traced]

/-! ## Accesses -/

theorem checked_readCell (data : List (Option Int)) (index : Nat) :
    Checked Access.Inside (readCellTraced data index) := by
  apply checked_access
  intro hread
  show index < data.length
  by_contra hout
  rw [readCell, List.getElem?_eq_none (Nat.le_of_not_lt hout)] at hread
  cases hread

theorem checked_writeCell (data : List (Option Int)) (index : Nat) (value : Int) :
    Checked Access.Inside (writeCellTraced data index value) := by
  apply checked_access
  intro hwrite
  show index < data.length
  by_contra hout
  rw [writeCell, if_neg hout] at hwrite
  cases hwrite

theorem checked_pushLoop (value : Int) (fuel : Nat) (data : List (Option Int)) (index : Nat) :
    Checked Access.Inside (pushLoopTraced value fuel data index) := by
  induction fuel generalizing data index with
  | zero => exact checked_failure
  | succ fuel ih =>
    rw [pushLoopTraced]
    split
    · exact checked_writeCell data index value
    · refine checked_bind (checked_readCell data _) fun above => ?_
      split
      · exact checked_writeCell data index value
      · exact checked_bind (checked_readCell data _) fun above =>
          checked_bind (checked_writeCell data index above) fun data' => ih data' _

theorem checked_swapChild (data : List (Option Int)) (count swap : Nat) :
    Checked Access.Inside (swapChildTraced data count swap) := by
  rw [swapChildTraced]
  split
  · exact checked_bind (checked_readCell data _) fun right =>
      checked_bind (checked_readCell data swap) fun left => checked_pure _
  · exact checked_pure swap

theorem checked_popLoop (temp : Int) (count fuel : Nat) (data : List (Option Int)) (index : Nat) :
    Checked Access.Inside (popLoopTraced temp count fuel data index) := by
  induction fuel generalizing data index with
  | zero => exact checked_failure
  | succ fuel ih =>
    rw [popLoopTraced]
    split
    · exact checked_writeCell data index temp
    · refine checked_bind (checked_swapChild data count _) fun swap => ?_
      refine checked_bind (checked_readCell data swap) fun child => ?_
      split
      · exact checked_writeCell data index temp
      · exact checked_bind (checked_readCell data swap) fun child =>
          checked_bind (checked_writeCell data index child) fun data' => ih data' swap

theorem checked_heapCall (h : Heap) (op : HeapOp) : Checked Access.Inside (heapCall h op) := by
  cases op with
  | push value => exact checked_bind (checked_pushLoop value _ _ _) fun _ => checked_pure _
  | pop => exact checked_bind (checked_readCell _ _) fun temp => checked_bind (checked_popLoop temp _ _ _ _) fun _ => checked_pure _

/-! ## Sizes -/

/-- The sizes that growing and shrinking lead to. -/
def Doubled (size : Nat) : Prop := ∃ k, size = baseSize * 2 ^ k

theorem Doubled.base_le {size : Nat} (h : Doubled size) : baseSize ≤ size := by
  obtain ⟨k, rfl⟩ := h
  exact Nat.le_mul_of_pos_right baseSize (Nat.two_pow_pos k)

theorem Doubled.double {size : Nat} (h : Doubled size) : Doubled (size * 2) := by
  obtain ⟨k, rfl⟩ := h
  exact ⟨k + 1, by rw [Nat.pow_succ, Nat.mul_assoc]⟩

/-- Only a size that was doubled is above the base. -/
theorem Doubled.half {size : Nat} (h : Doubled size) (hbase : baseSize < size) : Doubled (size / 2) := by
  obtain ⟨k, rfl⟩ := h
  cases k with
  | zero => exact absurd hbase (Nat.lt_irrefl _)
  | succ k =>
    refine ⟨k, ?_⟩
    rw [Nat.pow_succ, ← Nat.mul_assoc]
    exact Nat.mul_div_cancel _ (by decide)

/-- A full heap has fewer than `2 ^ 31` elements, so doubling its size does not overflow. -/
theorem Doubled.growIfFull {h : Heap} {xs : List Int} (hd : Doubled h.size) (hh : Holds h xs) :
    Doubled (growIfFull h).size := by
  rw [Heaps.growIfFull]
  by_cases hfull : h.count = h.size
  · have hword : h.size * 2 < 2 ^ 32 := by
      have hshort := hh.short
      have hcount := hh.count_eq
      omega
    rw [if_pos hfull]
    show Doubled (h.size * 2 % 2 ^ 32)
    rw [Nat.mod_eq_of_lt hword]
    exact hd.double
  · rw [if_neg hfull]
    exact hd

theorem Doubled.shrinkIfSparse {h : Heap} (hd : Doubled h.size) : Doubled (shrinkIfSparse h).size := by
  rw [Heaps.shrinkIfSparse]
  by_cases hsparse : h.count ≤ h.size / 4 ∧ baseSize < h.size
  · rw [if_pos hsparse]
    exact hd.half hsparse.2
  · rw [if_neg hsparse]
    exact hd

theorem heapPush_size {h h' : Heap} {value : Int} (hrun : heapPush h value = some h') :
    h'.size = (growIfFull h).size := by
  obtain ⟨data, -, he⟩ := Option.bind_eq_some_iff.mp hrun
  cases he
  rfl

theorem size_withData (h : Heap) (data : List (Option Int)) : ({ h with data := data } : Heap).size = h.size := rfl

theorem heapPop_size {h h' : Heap} (hrun : heapPop h = some h') :
    ∃ count, h'.size = (shrinkIfSparse { h with count := count }).size := by
  simp only [heapPop, Option.bind_eq_bind, Option.bind_eq_some_iff, Option.some.injEq] at hrun
  obtain ⟨temp, -, data, -, he⟩ := hrun
  exact ⟨_, (congrArg Heap.size he).symm.trans (size_withData _ data)⟩

/-! ## Runs -/

/-- A heap whose storage has the size that the heap records. -/
structure WithinStorage (h : Heap) : Prop where
  doubled : Doubled h.size
  base_le : baseSize ≤ h.size
  room : h.count ≤ h.size
  items : h.data.length = h.size

/-- The invariant: a heap of some elements in a storage of a proper size. -/
def StoresIn (h : Heap) : Prop := (∃ xs, Holds h xs) ∧ Doubled h.size

theorem StoresIn.withinStorage {h : Heap} (hs : StoresIn h) : WithinStorage h := by
  obtain ⟨⟨xs, hh⟩, hd⟩ := hs
  refine ⟨hd, hd.base_le, ?_, hh.size_eq⟩
  rw [hh.count_eq]
  exact hh.room

theorem heapCall_stores {h : Heap} {op : HeapOp} (hs : StoresIn h) (hop : Within h op) :
    ∃ h', result (heapCall h op) = some h' ∧ StoresIn h' := by
  obtain ⟨⟨xs, hh⟩, hd⟩ := hs
  cases op with
  | push value =>
    have hshort : h.count + 1 < 2 ^ 31 := hop
    rw [hh.count_eq] at hshort
    obtain ⟨h', xs', hpush, hh', -⟩ := hh.push hshort value
    refine ⟨h', (heapPush_traced h value).trans hpush, ⟨xs', hh'⟩, ?_⟩
    rw [heapPush_size hpush]
    exact hd.growIfFull hh
  | pop =>
    have hpos : 0 < h.count := hop
    rw [hh.count_eq] at hpos
    obtain ⟨x, rest, rfl⟩ := List.exists_cons_of_length_pos hpos
    obtain ⟨h', xs', hpop, hh', -⟩ := hh.pop
    refine ⟨h', (heapPop_traced h).trans hpop, ⟨xs', hh'⟩, ?_⟩
    obtain ⟨count, hsize⟩ := heapPop_size hpop
    rw [hsize]
    apply Doubled.shrinkIfSparse
    exact hd

theorem storageStep_keeps (s : Heap × List Access) (op : HeapOp)
    (hs : StoresIn s.1 ∧ ∀ a ∈ s.2, a.Inside) (hop : WithinCalls s op) :
    ∃ s' u, storageStep s op = some (s', u) ∧ StoresIn s'.1 ∧ ∀ a ∈ s'.2, a.Inside := by
  obtain ⟨hstores, hinside⟩ := hs
  obtain ⟨h', hcall, hstores'⟩ := heapCall_stores hstores hop
  refine ⟨(h', s.2 ++ accesses (heapCall s.1 op)), (), by rw [storageStep, hcall]; rfl, hstores', ?_⟩
  intro a ha
  rcases List.mem_append.mp ha with hold | hnew
  · exact hinside a hold
  · exact checked_heapCall s.1 op (by rw [hcall]; rfl) a hnew

/-- In every sequence of pushes and of pops of a non-empty heap, with fewer than
`2 ^ 31` elements, each call returns, the size stays a doubled base size with room for
the elements, and every access was inside the storage as it was at that moment. -/
theorem heap_stays_in_storage (ops : List HeapOp) (hops : Guarded storageStep WithinCalls (heapInit, []) ops)
    (k : Nat) :
    ∃ h accesses outs, run storageStep (heapInit, []) (ops.take k) = some ((h, accesses), outs) ∧
      WithinStorage h ∧ ∀ a ∈ accesses, a.Inside := by
  have hinit : StoresIn heapInit := ⟨⟨[], holds_init⟩, 0, rfl⟩
  obtain ⟨⟨h, accesses⟩, outs, hrun, hstores, hinside⟩ :=
    run_total storageStep_keeps ⟨hinit, fun a ha => absurd ha List.not_mem_nil⟩ (hops.take k)
  exact ⟨h, accesses, outs, hrun, hstores.withinStorage, hinside⟩

/-- The fifth push doubles the storage and the third pop halves it. -/
theorem heap_stays_in_storage_run :
    ∃ h accesses outs, run storageStep (heapInit, [])
        ([.push 2, .push 7, .push 1, .push 7, .push (-4), .pop, .pop, .pop].take 8) = some ((h, accesses), outs) ∧
      WithinStorage h ∧ ∀ a ∈ accesses, a.Inside :=
  heap_stays_in_storage _ (by decide +kernel) 8

end Devclego.Heaps
