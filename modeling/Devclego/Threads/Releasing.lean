import Devclego.Foundation.Slots
import Devclego.Threads.Lifecycle

/-!
# The lock of a chain between two calls

One `CMP_THREADS` chain is started and stopped by calls that follow each other. A start
gives back what it takes, and so does a stop that finds its component; a stop that finds
none returns from inside the locked section.
-/
namespace Devclego.Threads

open Foundation Devclego.Datamaps

/-- The calls on a chain, and what its threads do by themselves. -/
inductive ChainCall where
  | start (activator : Nat)
  | stop (activator : Nat)
  | runs (thread : Addr)
  | ends (thread : Addr)
deriving DecidableEq, Repr

/-- A thread that runs comes to its end. -/
def threadEnds (this : System) (thread : Addr) : System :=
  match this.dmap.world.heap.read thread with
  | none => this
  | some th =>
    if th.state ≠ .run then this
    else
      let heap := this.dmap.world.heap.set thread (some { th with state := .stopped })
      { this with dmap := withHeap this.dmap heap }

def chainStep (beyond : Option Ptr) (cmp : Nat) (this : System) (call : ChainCall) : Option (System × Unit) :=
  match call with
  | .start activator => (startChain beyond this cmp activator).map (·, ())
  | .stop activator => (stopChain this cmp activator).map (·, ())
  | .runs thread => some (threadEnters this thread, ())
  | .ends thread => some (threadEnds this thread, ())

/-- Some thread of the chain belongs to a component with the activator. -/
def Started (this : System) (cmp activator : Nat) : Prop :=
  ∃ t, some t ∈ (this.chains cmp).threads ∧ activatorOf this.dmap.world.heap this.cmps t = some activator

/-- A stop is for an activator whose component is there. -/
def StopsStarted (cmp : Nat) (this : System) : ChainCall → Prop
  | .stop activator => Started this cmp activator
  | _ => True

/-- Nobody holds the lock of the chain, so no call waits for it: a stop returns, and so does
a start that finds a free entry. A stop for an activator without a component changes no
entry, no thread and no component. -/
structure Released (beyond : Option Ptr) (cmp : Nat) (this : System) : Prop where
  free : (this.chains cmp).rwmutex = some rwmutexCtor
  starts : ∀ activator, none ∈ (this.chains cmp).threads → ∃ this', startChain beyond this cmp activator = some this'
  stops : ∀ activator, ∃ this', stopChain this cmp activator = some this'
  unknown : ∀ activator this', ¬ Started this cmp activator → stopChain this cmp activator = some this' →
    (this'.chains cmp).threads = (this.chains cmp).threads ∧ this'.dmap = this.dmap ∧ this'.cmps = this.cmps

/-- The threads of a chain are live, with a live component each, and no component is in two
entries. -/
structure Steady (dmap : ThreadTable) (cmps : Memory Nat) (chain : Chain) : Prop where
  filled : ∃ rows threads, Filled dmap rows threads
  free : chain.rwmutex = some rwmutexCtor
  live : ∀ i t, slotAt chain.threads i = some t → ∃ c a, componentOf dmap.world.heap t = some c ∧ cmps.read c = some a
  apart : ∀ i j s t c, slotAt chain.threads i = some s → slotAt chain.threads j = some t →
    componentOf dmap.world.heap s = some c → componentOf dmap.world.heap t = some c → i = j

/-- The same of a chain of the system. -/
def SteadyAt (cmp : Nat) (this : System) : Prop := Steady this.dmap this.cmps (this.chains cmp)

variable {this this' : System} {dmap : ThreadTable} {cmps : Memory Nat} {chain : Chain} {cmp activator : Nat}
  {heap : Memory Thread}

theorem steady_initial (maxThreadNum cmp : Nat) : SteadyAt cmp (initialSystem maxThreadNum) where
  filled := ⟨[], [], filled_init⟩
  free := rfl
  live := by
    intro i t ht
    rw [initialSystem, chainCtor, slotAt_replicate] at ht
    cases ht
  apart := by
    intro i j s t c hs
    rw [initialSystem, chainCtor, slotAt_replicate] at hs
    cases hs

/-! ## Stops -/

theorem Steady.entries_live (h : Steady dmap cmps chain) (t : Addr) (ht : some t ∈ chain.threads) :
    (activatorOf dmap.world.heap cmps t).isSome := by
  obtain ⟨i, hi⟩ := mem_iff_slotAt.mp ht
  obtain ⟨c, a, hc, ha⟩ := h.live i t hi
  rw [activatorOf_component hc, ha]
  rfl

/-- A stop that finds no component takes the lock and changes nothing else. -/
theorem SteadyAt.stop_unknown (h : SteadyAt cmp this) (hunknown : ¬ Started this cmp activator) :
    stopChain this cmp activator = some { this with
      chains := Function.update this.chains cmp { this.chains cmp with rwmutex := some { held := true } } } := by
  have hother : ∀ t, some t ∈ (this.chains cmp).threads →
      activatorOf this.dmap.world.heap this.cmps t ≠ some activator :=
    fun t ht he => hunknown ⟨t, ht, he⟩
  have hfind := findCmp_none (Steady.entries_live h) hother 0
  simp only [stopChain, Steady.free h, rwmutexWriteLock, rwmutexCtor, hfind, Option.bind_eq_bind, Option.bind_some,
    Bool.false_eq_true, if_false]

/-- An entry is emptied, its thread and its component are freed. -/
theorem Steady.take (h : Steady dmap cmps chain) {k : Nat} {t c : Addr} (hk : slotAt chain.threads k = some t)
    (hc : componentOf dmap.world.heap t = some c) (hsame : ∀ s, componentOf heap s = componentOf dmap.world.heap s)
    (destroyed : List Addr) :
    Steady { dmap with world := { heap := heap.set t none, destroyed := destroyed } } (cmps.set c none)
      { threads := chain.threads.set k none, rwmutex := some rwmutexCtor } := by
  have hold : ∀ i s, slotAt (chain.threads.set k none) i = some s → i ≠ k ∧ slotAt chain.threads i = some s := by
    intro i s hs
    rw [slotAt_set (lt_of_slotAt hk), Function.update_apply] at hs
    split at hs
    next => cases hs
    next hne => exact ⟨hne, hs⟩
  have hcomponent : ∀ i s, i ≠ k → slotAt chain.threads i = some s →
      componentOf (heap.set t none) s = componentOf dmap.world.heap s := by
    intro i s hne hs
    have hst : s ≠ t := by
      rintro rfl
      exact hne (h.apart i k s s c hs hk hc hc)
    rw [componentOf, Memory.read_set_ne _ hst]
    exact hsame s
  constructor
  · obtain ⟨rows, threads, hfilled⟩ := h.filled
    exact ⟨rows, threads, hfilled.bound, hfilled.lock, hfilled.slots, hfilled.contents, hfilled.room⟩
  · rfl
  · intro i s hs
    obtain ⟨hne, hs⟩ := hold i s hs
    obtain ⟨d, a, hd, hread⟩ := h.live i s hs
    have hdc : d ≠ c := by
      rintro rfl
      exact hne (h.apart i k s t d hs hk hd hc)
    refine ⟨d, a, (hcomponent i s hne hs).trans hd, ?_⟩
    rw [Memory.read_set_ne _ hdc, hread]
  · intro i j s s' d hs hs' hd hd'
    obtain ⟨hi, hs⟩ := hold i s hs
    obtain ⟨hj, hs'⟩ := hold j s' hs'
    exact h.apart i j s s' d hs hs' ((hcomponent i s hi hs).symm.trans hd)
      ((hcomponent j s' hj hs').symm.trans hd')

theorem SteadyAt.stop_known (h : SteadyAt cmp this) (hknown : Started this cmp activator) :
    ∃ this', stopChain this cmp activator = some this' ∧ SteadyAt cmp this' := by
  obtain ⟨t₀, ht₀, hactivator⟩ := hknown
  rcases findCmp_cases activator (Steady.entries_live h) 0 with ⟨-, hnone⟩ | ⟨k, t, c, hfind, hk, hc, ha⟩
  · exact absurd hactivator (hnone t₀ ht₀)
  · obtain ⟨th, hth, -⟩ := Option.bind_eq_some_iff.mp hc
    obtain ⟨heap, th', hstop, hth', hidle, hsame⟩ := stopThread_live hth
    rw [Nat.zero_add] at hfind
    refine ⟨_, by
      simp only [stopChain, Steady.free h, hfind, hstop, threadDtor, hth', hidle, rwmutexWriteLock,
        rwmutexWriteUnlock, rwmutexCtor, Memory.free_live hth', Memory.free_live ha, Option.bind_eq_bind,
        Option.bind_some, Bool.false_eq_true, if_false]
      rfl, ?_⟩
    show Steady _ _ (Function.update this.chains cmp _ cmp)
    rw [Function.update_self]
    exact Steady.take h (by rw [slotAt, hk]; rfl) hc hsame _

/-! ## Starts -/

/-- The row of a new thread finds a free slot of the table or is left aside; the thread is
made either way. -/
theorem makeThread_returns {rows threads : List Addr} (h : Filled dmap rows threads) (word arg : Ptr) :
    ∃ dmap', makeThread (some word) dmap arg = some (dmap', dmap.world.heap.size) ∧
      (∃ rows' threads', Filled dmap' rows' threads') ∧
      dmap'.world = { dmap.world with heap := (dmap.world.heap.alloc { state := .ready, arg := arg }).1 } := by
  by_cases hroom : threads.length < programMaxThreadNum
  · obtain ⟨dmap', hmake, hfilled, hworld⟩ := makeThread_fills h hroom word arg
    exact ⟨dmap', hmake, ⟨_, _, hfilled⟩, hworld⟩
  · have hfull : none ∉ dmap.table.rows := fun hmem => hroom (h.room_iff.mp hmem)
    refine ⟨_, makeThread_aside h hfull word arg, ⟨rows, threads, h.bound, h.lock, h.slots, ?_, h.room⟩, rfl⟩
    rw [← h.contents]
    refine List.map_congr_left fun a ha => Memory.read_alloc_ne dmap.mem _ ?_
    obtain ⟨s, -, hs⟩ := h.row_live ha
    exact Nat.ne_of_lt (Memory.lt_size_of_read hs)

/-- A new thread, with a new component, stands in a free entry. -/
theorem Steady.store (h : Steady dmap cmps chain) {dmap' : ThreadTable} {index : Nat}
    (hfilled : ∃ rows threads, Filled dmap' rows threads)
    (hheap : dmap'.world.heap = (dmap.world.heap.alloc { state := .started, arg := some cmps.size }).1)
    (hindex : index < chain.threads.length) (activator : Nat) :
    Steady dmap' (cmps.alloc activator).1
      { threads := chain.threads.set index (some dmap.world.heap.size), rwmutex := some rwmutexCtor } := by
  have hnew : componentOf dmap'.world.heap dmap.world.heap.size = some cmps.size := by
    rw [hheap, componentOf, Memory.read_alloc_self]
    rfl
  have hkept : ∀ i s, slotAt chain.threads i = some s → ∃ c a, componentOf dmap.world.heap s = some c ∧
      componentOf dmap'.world.heap s = some c ∧ cmps.read c = some a ∧ c ≠ cmps.size := by
    intro i s hs
    obtain ⟨c, a, hc, ha⟩ := h.live i s hs
    obtain ⟨th, hth, -⟩ := Option.bind_eq_some_iff.mp hc
    have hsize := Nat.ne_of_lt (Memory.lt_size_of_read hth)
    refine ⟨c, a, hc, ?_, ha, Nat.ne_of_lt (Memory.lt_size_of_read ha)⟩
    rw [hheap, componentOf, Memory.read_alloc_ne _ _ hsize]
    exact hc
  have hcases : ∀ i s, slotAt (chain.threads.set index (some dmap.world.heap.size)) i = some s →
      i = index ∧ s = dmap.world.heap.size ∨ i ≠ index ∧ slotAt chain.threads i = some s := by
    intro i s hs
    rw [slotAt_set hindex, Function.update_apply] at hs
    split at hs
    next he => exact Or.inl ⟨he, (Option.some.inj hs).symm⟩
    next hne => exact Or.inr ⟨hne, hs⟩
  constructor
  · exact hfilled
  · rfl
  · intro i s hs
    rcases hcases i s hs with ⟨-, rfl⟩ | ⟨-, hold⟩
    · exact ⟨cmps.size, activator, hnew, Memory.read_alloc_self _ _⟩
    · obtain ⟨c, a, -, hc, ha, hne⟩ := hkept i s hold
      exact ⟨c, a, hc, (Memory.read_alloc_ne _ _ hne).trans ha⟩
  · intro i j s t c hs ht hc hd
    rcases hcases i s hs with ⟨hi, rfl⟩ | ⟨-, hs⟩
    · rcases hcases j t ht with ⟨hj, -⟩ | ⟨-, ht⟩
      · rw [hi, hj]
      · obtain ⟨d, a, -, hd', -, hne⟩ := hkept j t ht
        cases hnew.symm.trans hc
        cases hd.symm.trans hd'
        exact absurd rfl hne
    · obtain ⟨d, a, hold, hc', -, hne⟩ := hkept i s hs
      cases hc.symm.trans hc'
      rcases hcases j t ht with ⟨-, rfl⟩ | ⟨-, ht⟩
      · cases hnew.symm.trans hd
        exact absurd rfl hne
      · obtain ⟨d, b, hold', hd', -, -⟩ := hkept j t ht
        cases hd.symm.trans hd'
        exact h.apart i j s t c hs ht hold hold'

theorem SteadyAt.start (h : SteadyAt cmp this) (word : Ptr) (activator : Nat)
    (hentry : none ∈ (this.chains cmp).threads) :
    ∃ this', startChain (some word) this cmp activator = some this' ∧ SteadyAt cmp this' := by
  obtain ⟨rows, threads, hfilled⟩ := Steady.filled h
  obtain ⟨dmap, hmake, hfilled', hworld⟩ := makeThread_returns hfilled word (some this.cmps.size)
  obtain ⟨index, hindex⟩ : ∃ index, (this.chains cmp).threads.findIdx? Option.isNone = some index := by
    rw [← Option.isSome_iff_exists, List.findIdx?_isSome, List.any_eq_true]
    exact ⟨none, hentry, rfl⟩
  have hlt : index < (this.chains cmp).threads.length := by
    rw [List.findIdx?_eq_some_iff_getElem] at hindex
    exact hindex.1
  have hmake' : makeThread (some word) this.dmap (some (this.cmps.alloc activator).2) = _ := hmake
  have hstart : startThread dmap.world.heap (some this.dmap.world.heap.size) =
      some (this.dmap.world.heap.alloc { state := .started, arg := some this.cmps.size }).1 := by
    rw [hworld]
    exact start_new _ _
  refine ⟨_, by
    simp only [startChain, hmake', hindex, Steady.free h, hstart, rwmutexReadLock, rwmutexWriteLock,
      rwmutexWriteUnlock, rwmutexCtor, Bool.false_eq_true, if_false, Option.bind_eq_bind, Option.bind_some]
    rfl, ?_⟩
  obtain ⟨rows', threads', hfilled'⟩ := hfilled'
  show Steady _ _ (Function.update this.chains cmp _ cmp)
  rw [Function.update_self]
  exact Steady.store h ⟨rows', threads', hfilled'.withHeap _⟩ rfl hlt activator

/-! ## Every sequence of calls -/

/-- A thread stores a new state. -/
theorem SteadyAt.restate (h : SteadyAt cmp this) {t : Addr} {th : Thread}
    (hth : this.dmap.world.heap.read t = some th) (state : ThreadState) :
    SteadyAt cmp { this with
      dmap := withHeap this.dmap (this.dmap.world.heap.set t (some { th with state := state })) } := by
  have hsame := componentOf_restate hth state
  constructor
  · obtain ⟨rows, threads, hfilled⟩ := Steady.filled h
    exact ⟨rows, threads, hfilled.withHeap _⟩
  · exact Steady.free h
  · intro i s hs
    obtain ⟨c, a, hc, ha⟩ := Steady.live h i s hs
    exact ⟨c, a, (hsame s).trans hc, ha⟩
  · intro i j s s' c hs hs' hc hc'
    exact Steady.apart h i j s s' c hs hs' ((hsame s).symm.trans hc) ((hsame s').symm.trans hc')

theorem threadEnters_steady (h : SteadyAt cmp this) (thread : Addr) : SteadyAt cmp (threadEnters this thread) := by
  unfold threadEnters
  cases hth : this.dmap.world.heap.read thread with
  | none => exact h
  | some th =>
    simp only
    split
    · exact h
    · exact h.restate hth .run

theorem threadEnds_steady (h : SteadyAt cmp this) (thread : Addr) : SteadyAt cmp (threadEnds this thread) := by
  unfold threadEnds
  cases hth : this.dmap.world.heap.read thread with
  | none => exact h
  | some th =>
    simp only
    split
    · exact h
    · exact h.restate hth .stopped

theorem SteadyAt.released (h : SteadyAt cmp this) (word : Ptr) : Released (some word) cmp this where
  free := Steady.free h
  starts := by
    intro activator hentry
    obtain ⟨this', hstart, -⟩ := h.start word activator hentry
    exact ⟨this', hstart⟩
  stops := by
    intro activator
    by_cases hknown : Started this cmp activator
    · obtain ⟨this', hstop, -⟩ := h.stop_known hknown
      exact ⟨this', hstop⟩
    · exact ⟨_, h.stop_unknown hknown⟩
  unknown := by
    intro activator this' hunknown hstop
    cases hstop.symm.trans (h.stop_unknown hunknown)
    refine ⟨?_, rfl, rfl⟩
    show (Function.update this.chains cmp _ cmp).threads = _
    rw [Function.update_self]

/-- A start that returned has found a free entry. -/
theorem startChain_entry {beyond : Option Ptr} (hstep : startChain beyond this cmp activator = some this') :
    none ∈ (this.chains cmp).threads := by
  simp only [startChain, Option.bind_eq_bind, Option.bind_eq_some_iff] at hstep
  obtain ⟨-, -, -, -, index, hindex, -⟩ := hstep
  have hsome := congrArg Option.isSome hindex
  rw [List.findIdx?_isSome, Option.isSome_some, List.any_eq_true] at hsome
  obtain ⟨entry, hentry, hnone⟩ := hsome
  rwa [Option.isNone_iff_eq_none.mp hnone] at hentry

theorem chainStep_steady (h : SteadyAt cmp this) (word : Ptr) {call : ChainCall}
    (hguard : StopsStarted cmp this call) (hstep : chainStep (some word) cmp this call = some (this', ())) :
    SteadyAt cmp this' := by
  cases call with
  | start activator =>
    have hstart := silent_iff.mp hstep
    obtain ⟨next, hreturns, hnext⟩ := h.start word activator (startChain_entry hstart)
    cases hstart.symm.trans hreturns
    exact hnext
  | stop activator =>
    obtain ⟨next, hreturns, hnext⟩ := h.stop_known hguard
    cases (silent_iff.mp hstep).symm.trans hreturns
    exact hnext
  | runs thread =>
    cases hstep
    exact threadEnters_steady h thread
  | ends thread =>
    cases hstep
    exact threadEnds_steady h thread

theorem unknown_keeps_lock (h : SteadyAt cmp this) (word : Ptr) {call : ChainCall}
    (hguard : ¬ StopsStarted cmp this call) :
    ∃ this', chainStep (some word) cmp this call = some (this', ()) ∧ ¬ Released (some word) cmp this' := by
  cases call with
  | stop activator =>
    refine ⟨_, by rw [chainStep, h.stop_unknown hguard]; rfl, fun hreleased => ?_⟩
    have hfree := hreleased.free
    change (Function.update this.chains cmp _ cmp).rwmutex = _ at hfree
    rw [Function.update_self] at hfree
    cases hfree
  | start activator => exact absurd trivial hguard
  | runs thread => exact absurd trivial hguard
  | ends thread => exact absurd trivial hguard

/-- Every call of a sequence leaves the lock of the chain to nobody just when every stop is for
an activator whose component is there. -/
theorem chain_released_iff (maxThreadNum cmp : Nat) (word : Ptr) (calls : List ChainCall) :
    (∀ k this outs, run (chainStep (some word) cmp) (initialSystem maxThreadNum) (calls.take k) = some (this, outs) →
      Released (some word) cmp this) ↔
      Guarded (chainStep (some word) cmp) (StopsStarted cmp) (initialSystem maxThreadNum) calls := by
  refine prefixes_iff_guarded (fun s (h : SteadyAt cmp s) => h.released word) (fun s call s' out h hstep => ?_)
    (fun s call h hnone => ?_) (steady_initial maxThreadNum cmp) calls
  · refine ⟨fun hguard => chainStep_steady h word hguard hstep, fun hreleased => ?_⟩
    by_contra hguard
    obtain ⟨next, hreturns, hkept⟩ := unknown_keeps_lock h word hguard
    cases hstep.symm.trans hreturns
    exact hkept hreleased
  · by_contra hguard
    obtain ⟨next, hreturns, -⟩ := unknown_keeps_lock h word hguard
    cases hnone.symm.trans hreturns

/-- A component is started and stopped twice. The second stop keeps the lock, and no start
returns any more. -/
theorem second_stop_keeps_lock :
    (run (chainStep (some none) 0) (initialSystem 4) [.start 7, .stop 7, .stop 7]).map
        (fun r => (r.1.chains 0).rwmutex) = some (some { held := true }) ∧
      run (chainStep (some none) 0) (initialSystem 4) [.start 7, .stop 7, .stop 7, .start 8] = none ∧
      ¬ ∀ k this outs, run (chainStep (some none) 0) (initialSystem 4)
        ([ChainCall.start 7, .stop 7, .stop 7].take k) = some (this, outs) → Released (some none) 0 this := by
  have hlock : (run (chainStep (some none) 0) (initialSystem 4) [.start 7, .stop 7, .stop 7]).map
      (fun r => (r.1.chains 0).rwmutex) = some (some { held := true }) := by decide
  refine ⟨hlock, by decide, fun hall => ?_⟩
  obtain ⟨⟨this, outs⟩, hrun, hheld⟩ := Option.map_eq_some_iff.mp hlock
  have hfree := (hall 3 this outs hrun).free
  rw [hheld] at hfree
  cases hfree

end Devclego.Threads
