import Devclego.Threads.Lifecycle
import Devclego.Threads.Pool
import Mathlib.Data.List.Perm.Subperm

/-!
# Who owns which entry of a chain

The entry that a start found may be taken before the start stores its thread; the
thread that stood there is lost, and its stop finds nothing and keeps the lock. As long
as every start stores into an entry that is still empty, and nobody stops what was never
started while something is live, each live component has an entry of its own.
-/
namespace Devclego.Threads

open Foundation Devclego.Datamaps

/-- Every live component has exactly one entry and no other component has it, indexes stay
inside the array, and the stop of a live component finds it. -/
structure OwnSlots (this : Pool) : Prop where
  stored : ∀ x ∈ this.members, x.stage = .stored → ∃! i, slotAt this.chain.threads i = some x.thread
  apart : ∀ x ∈ this.members, ∀ y ∈ this.members, ∀ i, slotAt this.chain.threads i = some x.thread →
    slotAt this.chain.threads i = some y.thread → x = y
  below : ∀ x ∈ this.members, ∀ i, x.stage = .found i → i < this.chain.threads.length
  scans : ∀ x ∈ this.members, x.stage = .entered → none ∈ this.chain.threads
  stops : ∀ x ∈ this.members, x.stage = .stored →
    ∃ index c, stopFinds this x.activator = some (some (index, x.thread, c)) ∧
      slotAt this.chain.threads index = some x.thread

/-- A start stores its thread where there is still none, and a stop is for a component that
is there, unless none is live. -/
def SlotKept (this : Pool) : Section → Prop
  | .store activator =>
    ∀ x ∈ this.members, x.activator = activator → ∀ i, x.stage = .found i → slotAt this.chain.threads i = none
  | .stop activator =>
    (∃ x ∈ this.members, x.activator = activator) ∨ ∀ x ∈ this.members, x.stage ≠ .stored
  | _ => True

/-- The entries are those of the live components. -/
structure Apart (this : Pool) : Prop where
  lock : this.chain.rwmutex = some rwmutexCtor ∨
    this.chain.rwmutex = some { held := true } ∧ ∀ x ∈ this.members, x.stage ≠ .stored
  activators : (this.members.map Member.activator).Nodup
  known : ∀ x ∈ this.members, activatorOf this.store.heap this.cmps x.thread = some x.activator
  owned : ∀ i t, slotAt this.chain.threads i = some t → ∃ x ∈ this.members, x.thread = t ∧ x.stage = .stored
  there : ∀ x ∈ this.members, x.stage = .stored → ∃ i, slotAt this.chain.threads i = some x.thread
  once : ∀ i j t, slotAt this.chain.threads i = some t → slotAt this.chain.threads j = some t → i = j
  below : ∀ x ∈ this.members, ∀ i, x.stage = .found i → i < this.chain.threads.length
  room : this.members.length ≤ this.chain.threads.length

variable {this this' : Pool} {members : List Member} {x y : Member} {activator : Nat}

theorem apart_empty (maxThreadNum : Nat) : Apart (emptyPool maxThreadNum) where
  lock := Or.inl rfl
  activators := List.nodup_nil
  known := nofun
  owned := by
    intro i t ht
    rw [emptyPool, chainCtor, slotAt_replicate] at ht
    cases ht
  there := nofun
  once := by
    intro i j t ht
    rw [emptyPool, chainCtor, slotAt_replicate] at ht
    cases ht
  below := nofun
  room := Nat.zero_le _

/-! ## Members -/

theorem Apart.same (h : Apart this) (hx : x ∈ this.members) (hy : y ∈ this.members)
    (he : x.activator = y.activator) : x = y :=
  List.inj_on_of_nodup_map h.activators hx hy he

/-- Two components have two threads. -/
theorem Apart.same_thread (h : Apart this) (hx : x ∈ this.members) (hy : y ∈ this.members)
    (he : x.thread = y.thread) : x = y := by
  have hactivator := h.known x hx
  rw [he, h.known y hy, Option.some.injEq] at hactivator
  exact h.same hx hy hactivator.symm

theorem mem_of_find (h : (members.find? fun y => y.activator = activator) = some x) :
    x ∈ members ∧ x.activator = activator := by
  have hactivator := List.find?_some h
  exact ⟨List.mem_of_find?_eq_some h, of_decide_eq_true hactivator⟩

theorem Apart.find (h : Apart this) (hx : x ∈ this.members) :
    (this.members.find? fun y => y.activator = x.activator) = some x := by
  obtain ⟨y, hy⟩ : ∃ y, (this.members.find? fun y => y.activator = x.activator) = some y := by
    rw [← Option.isSome_iff_exists, List.find?_isSome]
    exact ⟨x, hx, decide_eq_true rfl⟩
  obtain ⟨hmem, hactivator⟩ := mem_of_find hy
  rw [hy, h.same hmem hx hactivator]

theorem mem_reach {stage : Stage} : x ∈ reach members activator stage ↔
    ∃ y ∈ members, (if y.activator = activator then { y with stage := stage } else y) = x :=
  List.mem_map

theorem reach_activators (members : List Member) (activator : Nat) (stage : Stage) :
    (reach members activator stage).map Member.activator = members.map Member.activator := by
  rw [reach, List.map_map]
  refine List.map_congr_left fun x _ => ?_
  by_cases hx : x.activator = activator
  · simp only [Function.comp_apply, if_pos hx]
  · simp only [Function.comp_apply, if_neg hx]

theorem length_reach (members : List Member) (activator : Nat) (stage : Stage) :
    (reach members activator stage).length = members.length := by
  rw [reach, List.length_map]

/-- A component is what it was, or it is the one that moved on. -/
theorem Apart.reach_cases (h : Apart this) (hx : x ∈ this.members) {stage : Stage}
    (hy : y ∈ reach this.members x.activator stage) :
    y ∈ this.members ∧ y.activator ≠ x.activator ∨ y = { x with stage := stage } := by
  obtain ⟨z, hz, he⟩ := mem_reach.mp hy
  by_cases hactivator : z.activator = x.activator
  · rw [if_pos hactivator, h.same hz hx hactivator] at he
    exact Or.inr he.symm
  · rw [if_neg hactivator] at he
    subst he
    exact Or.inl ⟨hz, hactivator⟩

theorem mem_reach_of_ne (hx : x ∈ members) (hne : x.activator ≠ activator) (stage : Stage) :
    x ∈ reach members activator stage :=
  mem_reach.mpr ⟨x, hx, if_neg hne⟩

/-! ## The entries -/

theorem Apart.vacant (h : Apart this) (hx : x ∈ this.members) (hstage : x.stage ≠ .stored) (i : Nat) :
    slotAt this.chain.threads i ≠ some x.thread := by
  intro hi
  obtain ⟨y, hy, hthread, hstored⟩ := h.owned i x.thread hi
  rw [h.same_thread hy hx hthread] at hstored
  exact hstage hstored

theorem Apart.unlocked (h : Apart this) (hx : x ∈ this.members) (hstored : x.stage = .stored) :
    this.chain.rwmutex = some rwmutexCtor := by
  rcases h.lock with hfree | ⟨-, hnone⟩
  · exact hfree
  · exact absurd hstored (hnone x hx)

/-- A component that is not stored leaves an entry free: there are no more components than
entries. -/
theorem Apart.free_slot (h : Apart this) (hx : x ∈ this.members) (hstage : x.stage ≠ .stored) :
    none ∈ this.chain.threads := by
  by_contra hfull
  have hsome : ∀ i < this.chain.threads.length, ∃ t, slotAt this.chain.threads i = some t := by
    intro i hi
    rw [← Option.ne_none_iff_exists']
    intro hnone
    apply hfull
    rw [← hnone]
    exact List.mem_of_getElem? (getElem?_slotAt hi)
  have hnodup : ((List.range this.chain.threads.length).map (slotAt this.chain.threads)).Nodup := by
    refine List.Nodup.map_on (fun i hi j _ he => ?_) List.nodup_range
    obtain ⟨t, ht⟩ := hsome i (List.mem_range.mp hi)
    exact h.once i j t ht (he ▸ ht)
  have hsub : (List.range this.chain.threads.length).map (slotAt this.chain.threads) ⊆
      (this.members.erase x).map fun y => some y.thread := by
    intro slot hslot
    obtain ⟨i, hi, rfl⟩ := List.mem_map.mp hslot
    obtain ⟨t, ht⟩ := hsome i (List.mem_range.mp hi)
    obtain ⟨y, hy, hthread, hstored⟩ := h.owned i t ht
    have hne : y ≠ x := by
      rintro rfl
      exact hstage hstored
    rw [ht, ← hthread]
    exact List.mem_map.mpr ⟨y, (List.mem_erase_of_ne hne).mpr hy, rfl⟩
  have hle := (hnodup.subperm hsub).length_le
  rw [List.length_map, List.length_map, List.length_range, List.length_erase_of_mem hx] at hle
  have hpos := List.length_pos_of_mem hx
  have hroom := h.room
  omega

/-- The loop ends at the component that has the activator. -/
theorem findCmp_found {heap : Memory Thread} {cmps : Memory Nat} {entries : List Ptr} {t : Addr}
    (hlive : ∀ s, some s ∈ entries → (activatorOf heap cmps s).isSome) (ht : some t ∈ entries)
    (hactivator : activatorOf heap cmps t = some activator)
    (hunique : ∀ s, some s ∈ entries → activatorOf heap cmps s = some activator → s = t) (index : Nat) :
    ∃ i c th, findCmp heap cmps activator entries index = some (some (index + i, t, c)) ∧
      entries[i]? = some (some t) ∧ heap.read t = some th ∧ th.arg = some c := by
  rcases findCmp_cases activator hlive index with ⟨-, hnone⟩ | ⟨i, s, c, hfind, hi, hc, ha⟩
  · exact absurd hactivator (hnone t ht)
  · have hst : s = t := hunique s (List.mem_of_getElem? hi) ((activatorOf_component hc).trans ha)
    subst hst
    obtain ⟨th, hth, harg⟩ := Option.bind_eq_some_iff.mp hc
    exact ⟨i, c, th, hfind, hi, hth, harg⟩

theorem Apart.chain_live (h : Apart this) {t : Addr} (ht : some t ∈ this.chain.threads) :
    (activatorOf this.store.heap this.cmps t).isSome := by
  obtain ⟨i, hi⟩ := mem_iff_slotAt.mp ht
  obtain ⟨y, hy, rfl, -⟩ := h.owned i t hi
  rw [h.known y hy]
  rfl

/-- What the stop of a live component finds. -/
theorem Apart.finds (h : Apart this) (hx : x ∈ this.members) (hstored : x.stage = .stored) :
    ∃ i c th, findCmp this.store.heap this.cmps x.activator this.chain.threads 0 = some (some (i, x.thread, c)) ∧
      slotAt this.chain.threads i = some x.thread ∧ this.store.heap.read x.thread = some th ∧ th.arg = some c := by
  obtain ⟨k, hk⟩ := h.there x hx hstored
  have hunique : ∀ s, some s ∈ this.chain.threads →
      activatorOf this.store.heap this.cmps s = some x.activator → s = x.thread := by
    intro s hs hactivator
    obtain ⟨j, hj⟩ := mem_iff_slotAt.mp hs
    obtain ⟨y, hy, rfl, -⟩ := h.owned j s hj
    rw [h.known y hy, Option.some.injEq] at hactivator
    rw [h.same hy hx hactivator]
  obtain ⟨i, c, th, hfind, hi, hth, hc⟩ := findCmp_found (fun s => h.chain_live)
    (mem_iff_slotAt.mpr ⟨k, hk⟩) (h.known x hx) hunique 0
  rw [Nat.zero_add] at hfind
  exact ⟨i, c, th, hfind, by rw [slotAt, hi]; rfl, hth, hc⟩

theorem Apart.ownSlots (h : Apart this) : OwnSlots this := by
  refine ⟨fun x hx hstored => ?_, fun x hx y hy i hi hi' => ?_, h.below, fun x hx he => ?_, fun x hx hstored => ?_⟩
  · obtain ⟨i, hi⟩ := h.there x hx hstored
    exact ⟨i, hi, fun j hj => h.once j i x.thread hj hi⟩
  · exact h.same_thread hx hy (Option.some.inj (hi.symm.trans hi'))
  · exact h.free_slot hx (by rw [he]; simp)
  · obtain ⟨i, c, th, hfind, hi, -, -⟩ := h.finds hx hstored
    refine ⟨i, c, ?_, hi⟩
    rw [stopFinds, h.unlocked hx hstored]
    exact hfind

/-! ## Starts -/

/-- The heap may change as long as no thread changes its component. -/
theorem Apart.heap (h : Apart this) {heap : Memory Thread}
    (hsame : ∀ s, activatorOf heap this.cmps s = activatorOf this.store.heap this.cmps s) :
    Apart { this with store := { this.store with heap := heap } } where
  lock := h.lock
  activators := h.activators
  known := fun x hx => (hsame x.thread).trans (h.known x hx)
  owned := h.owned
  there := h.there
  once := h.once
  below := h.below
  room := h.room

theorem startEnter_apart (h : Apart this) (hstep : startEnter this activator = some this') : Apart this' := by
  unfold startEnter at hstep
  split at hstep
  next => cases hstep
  next hfree =>
    rw [not_or, Nat.not_le] at hfree
    obtain ⟨hnew, hroom⟩ := hfree
    have hsetup := setup_new this.store.heap (some this.cmps.size)
    obtain ⟨heap, hheap, he⟩ := Option.bind_eq_some_iff.mp hstep
    cases hsetup.symm.trans hheap
    cases he
    constructor
    · refine h.lock.imp_right fun hheld => ⟨hheld.1, fun y hy => ?_⟩
      rcases List.mem_append.mp hy with hy | hy
      · exact hheld.2 y hy
      · rw [List.mem_singleton.mp hy]
        exact Stage.noConfusion
    · rw [List.map_append, List.nodup_append_comm]
      exact List.nodup_cons.mpr ⟨hnew, h.activators⟩
    · intro y hy
      rcases List.mem_append.mp hy with hy | hy
      · exact activatorOf_heap (activatorOf_cmps (h.known y hy) activator) _
      · rw [List.mem_singleton.mp hy]
        exact activatorOf_new this.store.heap this.cmps activator .ready
    · intro i t ht
      obtain ⟨y, hy, hthread, hstored⟩ := h.owned i t ht
      exact ⟨y, List.mem_append_left _ hy, hthread, hstored⟩
    · intro y hy hstored
      rcases List.mem_append.mp hy with hy | hy
      · exact h.there y hy hstored
      · rw [List.mem_singleton.mp hy] at hstored
        cases hstored
    · exact h.once
    · intro y hy i hi
      rcases List.mem_append.mp hy with hy | hy
      · exact h.below y hy i hi
      · rw [List.mem_singleton.mp hy] at hi
        cases hi
    · rw [List.length_append, List.length_singleton]
      exact hroom

theorem startScan_apart (h : Apart this) (hstep : startScan this activator = some this') : Apart this' := by
  simp only [startScan, Option.bind_eq_bind, Option.bind_eq_some_iff] at hstep
  obtain ⟨x, hfind, hstep⟩ := hstep
  obtain ⟨hx, rfl⟩ := mem_of_find hfind
  cases hstage : x.stage with
  | entered =>
    simp only [hstage, Option.bind_eq_some_iff] at hstep
    obtain ⟨m, -, index, hindex, he⟩ := hstep
    cases he
    have hlt : index < this.chain.threads.length := by
      rw [List.findIdx?_eq_some_iff_getElem] at hindex
      exact hindex.1
    have hunstored : x.stage ≠ .stored := by rw [hstage]; simp
    have hold : ∀ y ∈ reach this.members x.activator (.found index), y.stage = .stored →
        y ∈ this.members := by
      intro y hy hstored
      rcases h.reach_cases hx hy with ⟨hmem, -⟩ | rfl
      · exact hmem
      · cases hstored
    constructor
    · refine h.lock.imp_right fun hheld => ⟨hheld.1, fun y hy hstored => ?_⟩
      exact hheld.2 y (hold y hy hstored) hstored
    · rw [reach_activators]
      exact h.activators
    · intro y hy
      rcases h.reach_cases hx hy with ⟨hmem, -⟩ | rfl
      · exact h.known y hmem
      · exact h.known x hx
    · intro i t ht
      obtain ⟨y, hy, rfl, hstored⟩ := h.owned i t ht
      have hne : y.activator ≠ x.activator := by
        intro he
        rw [h.same hy hx he] at hstored
        exact hunstored hstored
      exact ⟨y, mem_reach_of_ne hy hne _, rfl, hstored⟩
    · exact fun y hy hstored => h.there y (hold y hy hstored) hstored
    · exact h.once
    · intro y hy i hi
      rcases h.reach_cases hx hy with ⟨hmem, -⟩ | rfl
      · exact h.below y hmem i hi
      · cases hi
        exact hlt
    · rw [length_reach]
      exact h.room
  | found index => simp [hstage] at hstep
  | stored => simp [hstage] at hstep

/-- Starting a thread changes nothing but its state word. -/
theorem startThread_keeps {heap : Memory Thread} {t : Addr} {th : Thread} (hth : heap.read t = some th) :
    ∃ heap', startThread heap (some t) = some heap' ∧
      ∀ cmps s, activatorOf heap' cmps s = activatorOf heap cmps s := by
  by_cases hready : th.state = .ready
  · refine ⟨heap.set t (some { th with state := .started }), ?_, fun cmps s => activatorOf_restate hth _ s⟩
    simp [startThread, hth, hready, Memory.write_live hth]
  · exact ⟨heap, by simp [startThread, hth, hready], fun _ _ => rfl⟩

theorem Apart.thread_live (h : Apart this) (hx : x ∈ this.members) :
    ∃ th, this.store.heap.read x.thread = some th := by
  obtain ⟨th, hth, -⟩ := Option.bind_eq_some_iff.mp (h.known x hx)
  exact ⟨th, hth⟩

/-- A start with an entry stores its thread whenever the lock is free. -/
theorem Apart.store_returns (h : Apart this) (hx : x ∈ this.members) {index : Nat} (hstage : x.stage = .found index)
    (hlock : this.chain.rwmutex = some rwmutexCtor) :
    ∃ heap, startStore this x.activator = some { this with
        store := { this.store with heap := heap }
        chain := { threads := this.chain.threads.set index (some x.thread), rwmutex := some rwmutexCtor }
        members := reach this.members x.activator .stored } ∧
      ∀ s, activatorOf heap this.cmps s = activatorOf this.store.heap this.cmps s := by
  obtain ⟨th, hth⟩ := h.thread_live hx
  obtain ⟨heap, hstart, hsame⟩ := startThread_keeps hth
  refine ⟨heap, ?_, hsame this.cmps⟩
  simp only [startStore, h.find hx, hstage, hlock, hstart, rwmutexWriteLock, rwmutexWriteUnlock, rwmutexCtor,
    Option.bind_eq_bind, Option.bind_some, Bool.false_eq_true, if_false]

theorem startStore_cases (hstep : startStore this activator = some this') :
    ∃ x ∈ this.members, x.activator = activator ∧ (∃ index, x.stage = .found index) ∧
      this.chain.rwmutex = some rwmutexCtor := by
  simp only [startStore, Option.bind_eq_bind, Option.bind_eq_some_iff] at hstep
  obtain ⟨x, hfind, hstep⟩ := hstep
  obtain ⟨hx, hactivator⟩ := mem_of_find hfind
  cases hstage : x.stage with
  | found index =>
    simp only [hstage, rwmutexWriteLock, Option.bind_eq_bind, Option.bind_eq_some_iff] at hstep
    obtain ⟨_, ⟨m, hm, hfree⟩, -⟩ := hstep
    exact ⟨x, hx, hactivator, ⟨index, hstage⟩, by rw [hm, eq_rwmutexCtor hfree]⟩
  | entered => simp [hstage] at hstep
  | stored => simp [hstage] at hstep

theorem startStore_apart (h : Apart this) (hguard : SlotKept this (.store activator))
    (hstep : startStore this activator = some this') : Apart this' := by
  obtain ⟨x, hx, rfl, ⟨index, hstage⟩, hlock⟩ := startStore_cases hstep
  obtain ⟨heap, hstore, hsame⟩ := h.store_returns hx hstage hlock
  cases hstep.symm.trans hstore
  have hlt := h.below x hx index hstage
  have hempty := hguard x hx rfl index hstage
  have hunstored : x.stage ≠ .stored := by rw [hstage]; simp
  have hat : slotAt (this.chain.threads.set index (some x.thread)) =
      Function.update (slotAt this.chain.threads) index (some x.thread) := slotAt_set hlt _
  have hnew : ∀ i t, slotAt (this.chain.threads.set index (some x.thread)) i = some t →
      i = index ∧ t = x.thread ∨ i ≠ index ∧ slotAt this.chain.threads i = some t := by
    intro i t ht
    rw [hat, Function.update_apply] at ht
    split at ht
    next he => exact Or.inl ⟨he, (Option.some.inj ht).symm⟩
    next hne => exact Or.inr ⟨hne, ht⟩
  constructor
  · exact Or.inl rfl
  · rw [reach_activators]
    exact h.activators
  · intro y hy
    rcases h.reach_cases hx hy with ⟨hmem, -⟩ | rfl
    · exact (hsame y.thread).trans (h.known y hmem)
    · exact (hsame x.thread).trans (h.known x hx)
  · intro i t ht
    rcases hnew i t ht with ⟨-, rfl⟩ | ⟨-, hold⟩
    · exact ⟨{ x with stage := .stored }, mem_reach.mpr ⟨x, hx, if_pos rfl⟩, rfl, rfl⟩
    · obtain ⟨y, hy, rfl, hstored⟩ := h.owned i t hold
      have hne : y.activator ≠ x.activator := by
        intro he
        rw [h.same hy hx he] at hstored
        exact hunstored hstored
      exact ⟨y, mem_reach_of_ne hy hne _, rfl, hstored⟩
  · intro y hy hstored
    rcases h.reach_cases hx hy with ⟨hmem, -⟩ | rfl
    · obtain ⟨i, hi⟩ := h.there y hmem hstored
      have hne : i ≠ index := by
        rintro rfl
        rw [hempty] at hi
        cases hi
      refine ⟨i, ?_⟩
      show slotAt (this.chain.threads.set index (some x.thread)) i = _
      rw [hat, Function.update_of_ne hne, hi]
    · refine ⟨index, ?_⟩
      show slotAt (this.chain.threads.set index (some x.thread)) index = _
      rw [hat, Function.update_self]
  · intro i j t hi hj
    rcases hnew i t hi with ⟨hi', rfl⟩ | ⟨-, hold⟩
    · rcases hnew j _ hj with ⟨hj', -⟩ | ⟨-, hold⟩
      · rw [hi', hj']
      · exact absurd hold (h.vacant hx hunstored j)
    · rcases hnew j t hj with ⟨-, rfl⟩ | ⟨-, hold'⟩
      · exact absurd hold (h.vacant hx hunstored i)
      · exact h.once i j t hold hold'
  · intro y hy i hi
    show i < (this.chain.threads.set index (some x.thread)).length
    rw [List.length_set]
    rcases h.reach_cases hx hy with ⟨hmem, -⟩ | rfl
    · exact h.below y hmem i hi
    · cases hi
  · show (reach this.members x.activator .stored).length ≤
      (this.chain.threads.set index (some x.thread)).length
    rw [length_reach, List.length_set]
    exact h.room

/-- A thread that is stored over another one takes its entry away. -/
theorem startStore_loses (h : Apart this) (hguard : ¬ SlotKept this (.store activator))
    (hstep : startStore this activator = some this') : ¬ OwnSlots this' := by
  intro hown
  apply hguard
  intro x hx hactivator index hstage
  subst hactivator
  obtain ⟨-, -, -, -, hlock⟩ := startStore_cases hstep
  obtain ⟨heap, hstore, -⟩ := h.store_returns hx hstage hlock
  cases hstep.symm.trans hstore
  by_contra hfull
  obtain ⟨t, ht⟩ := Option.ne_none_iff_exists'.mp hfull
  obtain ⟨y, hy, rfl, hstored⟩ := h.owned index t ht
  have hne : y.activator ≠ x.activator := by
    intro he
    rw [h.same hy hx he, hstage] at hstored
    cases hstored
  obtain ⟨i, hi, -⟩ := hown.stored y (mem_reach_of_ne hy hne _) hstored
  change slotAt (this.chain.threads.set index (some x.thread)) i = some y.thread at hi
  rw [slotAt_set (h.below x hx index hstage), Function.update_apply] at hi
  split at hi
  · have he := h.same_thread hy hx (Option.some.inj hi).symm
    exact hne (by rw [he])
  · next hi' => exact hi' (h.once i index y.thread hi ht)

/-! ## Stops -/

/-- Other components stay what they are when a thread and its component are freed. -/
theorem activatorOf_freed {heap : Memory Thread} {cmps : Memory Nat} {s t c : Addr} {a b : Nat}
    (hs : activatorOf heap cmps s = some b) (hne : s ≠ t) (hc : cmps.read c = some a) (hab : b ≠ a) :
    activatorOf (heap.set t none) (cmps.set c none) s = some b := by
  obtain ⟨th, hth, hrest⟩ := Option.bind_eq_some_iff.mp hs
  obtain ⟨d, hd, hread⟩ := Option.bind_eq_some_iff.mp hrest
  have hdc : d ≠ c := by
    rintro rfl
    rw [hc, Option.some.injEq] at hread
    exact hab hread.symm
  simp [activatorOf, Memory.read_set_ne _ hne, hth, hd, Memory.read_set_ne _ hdc, hread]

/-- The stop of a live component takes its thread and the component away. -/
theorem Apart.stop_live (h : Apart this) (hx : x ∈ this.members) (hstored : x.stage = .stored) :
    ∃ index store cmps, slotAt this.chain.threads index = some x.thread ∧
      stopTake this x.activator = some {
        store := store
        cmps := cmps
        chain := { threads := this.chain.threads.set index none, rwmutex := some rwmutexCtor }
        members := this.members.filter fun y => y.thread ≠ x.thread } ∧
      ∀ y ∈ this.members, y.thread ≠ x.thread → activatorOf store.heap cmps y.thread = some y.activator := by
  obtain ⟨index, c, th, hfind, hindex, hth, harg⟩ := h.finds hx hstored
  obtain ⟨heap, th', hstop, hth', hidle, hsame⟩ := stopThread_live hth
  have hc : this.cmps.read c = some x.activator := by
    have hknown := h.known x hx
    rw [activatorOf, hth] at hknown
    simpa [harg] using hknown
  have hnone : ¬ ∃ y ∈ this.members, y.activator = x.activator ∧ y.stage ≠ .stored := by
    rintro ⟨y, hy, he, hne⟩
    rw [h.same hy hx he] at hne
    exact hne hstored
  refine ⟨index, { heap := heap.set x.thread none, destroyed := this.store.destroyed ++ [x.thread] },
    this.cmps.set c none, hindex, ?_, fun y hy hne => ?_⟩
  · simp only [stopTake, hnone, if_false, h.unlocked hx hstored, rwmutexWriteLock, rwmutexWriteUnlock, rwmutexCtor,
      hfind, hstop, threadDtor, hth', hidle, Memory.free_live hth', Memory.free_live hc, Option.bind_eq_bind,
      Option.bind_some, Bool.false_eq_true]
  · have hactivators : y.activator ≠ x.activator := fun he => hne (by rw [h.same hy hx he])
    have hknown : activatorOf heap this.cmps y.thread = some y.activator := by
      rw [activatorOf_eq, hsame, ← activatorOf_eq]
      exact h.known y hy
    exact activatorOf_freed hknown hne hc hactivators

/-- The stop of a component that is not there keeps the lock. -/
theorem Apart.stop_missing (h : Apart this) (hlock : this.chain.rwmutex = some rwmutexCtor)
    (hmissing : ∀ x ∈ this.members, x.activator ≠ activator) :
    stopTake this activator =
      some { this with chain := { this.chain with rwmutex := some { held := true } } } := by
  have hother : ∀ t, some t ∈ this.chain.threads →
      activatorOf this.store.heap this.cmps t ≠ some activator := by
    intro t ht hactivator
    obtain ⟨i, hi⟩ := mem_iff_slotAt.mp ht
    obtain ⟨y, hy, rfl, -⟩ := h.owned i t hi
    rw [h.known y hy, Option.some.injEq] at hactivator
    exact hmissing y hy hactivator
  have hfind := findCmp_none (fun t => h.chain_live) hother 0
  have hnone : ¬ ∃ y ∈ this.members, y.activator = activator ∧ y.stage ≠ .stored := by
    rintro ⟨y, hy, he, -⟩
    exact hmissing y hy he
  simp only [stopTake, hnone, if_false, hlock, rwmutexWriteLock, rwmutexCtor, hfind, Option.bind_eq_bind,
    Option.bind_some, Bool.false_eq_true]

theorem stopTake_cases (hstep : stopTake this activator = some this') :
    this.chain.rwmutex = some rwmutexCtor ∧
      ∀ x ∈ this.members, x.activator = activator → x.stage = .stored := by
  unfold stopTake at hstep
  split at hstep
  next => cases hstep
  next hnone =>
    simp only [rwmutexWriteLock, Option.bind_eq_bind, Option.bind_eq_some_iff] at hstep
    obtain ⟨_, ⟨m, hm, hfree⟩, -⟩ := hstep
    refine ⟨by rw [hm, eq_rwmutexCtor hfree], fun x hx he => ?_⟩
    by_contra hne
    exact hnone ⟨x, hx, he, hne⟩

theorem Apart.removed (h : Apart this) {index : Nat} {store : ThreadStore}
    {cmps : Memory Nat} (hindex : slotAt this.chain.threads index = some x.thread)
    (hknown : ∀ y ∈ this.members, y.thread ≠ x.thread →
      activatorOf store.heap cmps y.thread = some y.activator) :
    Apart {
      store := store
      cmps := cmps
      chain := { threads := this.chain.threads.set index none, rwmutex := some rwmutexCtor }
      members := this.members.filter fun y => y.thread ≠ x.thread } := by
  have hmem : ∀ y, y ∈ this.members.filter (fun y => y.thread ≠ x.thread) ↔
      y ∈ this.members ∧ y.thread ≠ x.thread := by
    intro y
    rw [List.mem_filter, decide_eq_true_iff]
  have hat : slotAt (this.chain.threads.set index none) =
      Function.update (slotAt this.chain.threads) index none := slotAt_set (lt_of_slotAt hindex) _
  have hold : ∀ i t, slotAt (this.chain.threads.set index none) i = some t →
      i ≠ index ∧ slotAt this.chain.threads i = some t := by
    intro i t ht
    rw [hat, Function.update_apply] at ht
    split at ht
    next => cases ht
    next hne => exact ⟨hne, ht⟩
  constructor
  · exact Or.inl rfl
  · exact h.activators.sublist (List.filter_sublist.map _)
  · intro y hy
    obtain ⟨hy, hne⟩ := (hmem y).mp hy
    exact hknown y hy hne
  · intro i t ht
    obtain ⟨hne, ht⟩ := hold i t ht
    obtain ⟨y, hy, rfl, hstored⟩ := h.owned i t ht
    refine ⟨y, (hmem y).mpr ⟨hy, fun he => hne ?_⟩, rfl, hstored⟩
    rw [he] at ht
    exact h.once i index x.thread ht hindex
  · intro y hy hstored
    obtain ⟨hy, hne⟩ := (hmem y).mp hy
    obtain ⟨i, hi⟩ := h.there y hy hstored
    refine ⟨i, ?_⟩
    show slotAt (this.chain.threads.set index none) i = _
    rw [hat, Function.update_of_ne, hi]
    rintro rfl
    exact hne (Option.some.inj (hi.symm.trans hindex))
  · exact fun i j t hi hj => h.once i j t (hold i t hi).2 (hold j t hj).2
  · intro y hy i hi
    show i < (this.chain.threads.set index none).length
    rw [List.length_set]
    exact h.below y ((hmem y).mp hy).1 i hi
  · show (this.members.filter fun y => y.thread ≠ x.thread).length ≤
      (this.chain.threads.set index none).length
    rw [List.length_set]
    exact Nat.le_trans (List.length_filter_le _ _) h.room

theorem stopTake_apart (h : Apart this) (hguard : SlotKept this (.stop activator))
    (hstep : stopTake this activator = some this') : Apart this' := by
  obtain ⟨hlock, hstored⟩ := stopTake_cases hstep
  by_cases hthere : ∃ x ∈ this.members, x.activator = activator
  · obtain ⟨x, hx, rfl⟩ := hthere
    obtain ⟨index, store, cmps, hindex, hstop, hknown⟩ := h.stop_live hx (hstored x hx rfl)
    cases hstep.symm.trans hstop
    exact h.removed hindex hknown
  · have hmissing : ∀ x ∈ this.members, x.activator ≠ activator := fun x hx he => hthere ⟨x, hx, he⟩
    cases hstep.symm.trans (h.stop_missing hlock hmissing)
    exact ⟨Or.inr ⟨rfl, hguard.resolve_left hthere⟩, h.activators, h.known, h.owned, h.there, h.once, h.below,
      h.room⟩

/-- A stop that finds nothing is the last one, so a component that is live stays so. -/
theorem stopTake_loses (h : Apart this) (hguard : ¬ SlotKept this (.stop activator))
    (hstep : stopTake this activator = some this') : ¬ OwnSlots this' := by
  intro hown
  obtain ⟨hlock, -⟩ := stopTake_cases hstep
  rw [SlotKept, not_or] at hguard
  have hmissing : ∀ x ∈ this.members, x.activator ≠ activator := fun x hx he => hguard.1 ⟨x, hx, he⟩
  cases hstep.symm.trans (h.stop_missing hlock hmissing)
  apply hguard.2
  intro x hx hstored
  obtain ⟨index, c, hfinds, -⟩ := hown.stops x hx hstored
  simp [stopFinds, rwmutexWriteLock] at hfinds

/-! ## Every interleaving -/

theorem poolEnters_apart (h : Apart this) {thread : Addr} (hstep : poolEnters this thread = some this') :
    Apart this' := by
  obtain ⟨th, hth, hstep⟩ := Option.bind_eq_some_iff.mp hstep
  split at hstep
  next => cases hstep
  next =>
    rw [Memory.write_live hth] at hstep
    cases hstep
    exact h.heap fun s => activatorOf_restate hth .run s

/-- A step that the guard refuses returns, as some component is live and the lock is free. -/
theorem refused_returns (h : Apart this) {sec : Section} (hguard : ¬ SlotKept this sec) :
    poolStep this sec ≠ none := by
  cases sec with
  | store activator =>
    simp only [SlotKept, not_forall] at hguard
    obtain ⟨x, hx, hactivator, index, hstage, hfull⟩ := hguard
    subst hactivator
    obtain ⟨t, ht⟩ := Option.ne_none_iff_exists'.mp hfull
    obtain ⟨y, hy, -, hstored⟩ := h.owned index t ht
    obtain ⟨heap, hstore, -⟩ := h.store_returns hx hstage (h.unlocked hy hstored)
    simp [poolStep, hstore]
  | stop activator =>
    simp only [SlotKept, not_or, not_forall, not_not] at hguard
    obtain ⟨hthere, x, hx, hstored⟩ := hguard
    have hmissing : ∀ y ∈ this.members, y.activator ≠ activator := fun y hy he => hthere ⟨y, hy, he⟩
    simp [poolStep, h.stop_missing (h.unlocked hx hstored) hmissing]
  | enter activator => exact absurd trivial hguard
  | scan activator => exact absurd trivial hguard
  | runs thread => exact absurd trivial hguard

/-- In every interleaving: each live component has its own entry after every section just
when every start stores into an empty entry and no stop is for a component that is not
there while one is live. -/
theorem own_slots_iff (maxThreadNum : Nat) (secs : List Section) :
    (∀ k this outs, run poolStep (emptyPool maxThreadNum) (secs.take k) = some (this, outs) → OwnSlots this) ↔
      Guarded poolStep SlotKept (emptyPool maxThreadNum) secs := by
  refine prefixes_iff_guarded (fun s (h : Apart s) => h.ownSlots) (fun s sec s' out h hstep => ?_)
    (fun s sec h hnone => ?_) (apart_empty maxThreadNum) secs
  · refine ⟨fun hguard => ?_, fun hgood => ?_⟩
    · cases sec with
      | enter activator => exact startEnter_apart h (silent_iff.mp hstep)
      | scan activator => exact startScan_apart h (silent_iff.mp hstep)
      | store activator => exact startStore_apart h hguard (silent_iff.mp hstep)
      | stop activator => exact stopTake_apart h hguard (silent_iff.mp hstep)
      | runs thread => exact poolEnters_apart h (silent_iff.mp hstep)
    · by_contra hguard
      cases sec with
      | enter activator => exact hguard trivial
      | scan activator => exact hguard trivial
      | store activator => exact startStore_loses h hguard (silent_iff.mp hstep) hgood
      | stop activator => exact stopTake_loses h hguard (silent_iff.mp hstep) hgood
      | runs thread => exact hguard trivial
  · by_contra hguard
    exact refused_returns h hguard hnone

/-- Two starts find the same entry. The first thread is lost, and the stop of its component
finds nothing and keeps the lock. -/
theorem two_starts_one_slot :
    ∃ this outs, run poolStep (emptyPool 2) [.enter 1, .enter 2, .scan 1, .scan 2, .store 1, .store 2] =
        some (this, outs) ∧
      this.chain.threads = [some 1, none] ∧ stopFinds this 1 = some none ∧ ¬ OwnSlots this ∧
      (run poolStep this [.stop 1]).map (fun r => r.1.chain.rwmutex) = some (some { held := true }) := by
  refine ⟨_, _, rfl, by decide, by decide, fun hown => ?_, by decide⟩
  obtain ⟨index, c, hfinds, -⟩ := hown.stops ⟨1, 0, .stored⟩ (by decide) rfl
  have hnothing : some none = some (some (index, 0, c)) := hfinds
  cases hnothing

end Devclego.Threads
