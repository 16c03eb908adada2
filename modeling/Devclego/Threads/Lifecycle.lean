import Devclego.Threads.Registration

/-!
# Threads come and go, the table only grows

Nothing that takes a thread down frees its slot, so the table is right only as long as
threads are created and there is room for them.
-/
namespace Devclego.Threads

open Foundation Devclego.Datamaps

/-- The table holds the current threads, none of them is destroyed, and no thread is
destroyed twice. -/
structure TableHolds (this : System) : Prop where
  exact : (registered this.dmap).Perm (this.current.map some)
  alive : ∀ t, some t ∈ registered this.dmap → t ∉ this.dmap.world.destroyed
  once : this.dmap.world.destroyed.Nodup

/-- The activator of the component a thread belongs to. -/
def activatorOf (heap : Memory Thread) (cmps : Memory Nat) (thread : Addr) : Option Nat := do
  let th ← heap.read thread
  let c ← th.arg
  cmps.read c

/-- The component of a thread. -/
def componentOf (heap : Memory Thread) (thread : Addr) : Option Addr :=
  (heap.read thread).bind Thread.arg

/-- The steps that do not take a thread down: starts that find room, and stops that find
nothing to stop. -/
def Harmless (this : System) : Op → Prop
  | .start _ => none ∈ this.dmap.table.rows
  | .stop cmp => this.single cmp = none
  | .startChain cmp _ =>
    none ∈ this.dmap.table.rows ∧ none ∈ (this.chains cmp).threads ∧
      (this.chains cmp).rwmutex = some rwmutexCtor
  | .stopChain cmp activator =>
    (∀ t, some t ∈ (this.chains cmp).threads → activatorOf this.dmap.world.heap this.cmps t ≠ some activator) ∧
      (this.chains cmp).rwmutex = some rwmutexCtor
  | .dispose _ => False
  | .enters _ => True

structure Kept (this : System) : Prop where
  filled : ∃ rows, Filled this.dmap rows this.current
  untouched : this.dmap.world.destroyed = []
  live : ∀ t, (this.dmap.world.heap.read t).isSome ↔ t ∈ this.current
  single : ∀ cmp t, this.single cmp = some t → t ∈ this.current
  chain : ∀ cmp t, some t ∈ (this.chains cmp).threads →
    t ∈ this.current ∧ (activatorOf this.dmap.world.heap this.cmps t).isSome

variable {this this' : System} {rows threads : List Addr} {heap : Memory Thread} {cmps : Memory Nat}

theorem kept_initial (chainLength : Nat) : Kept (initialSystem chainLength) where
  filled := ⟨[], filled_init⟩
  untouched := rfl
  live := by simp [initialSystem, Memory.read]
  single := fun _ _ h => by cases h
  chain := by
    intro cmp t ht
    simp [initialSystem, chainCtor] at ht

theorem Kept.holds (h : Kept this) : TableHolds this := by
  obtain ⟨rows, hfilled⟩ := h.filled
  refine ⟨?_, fun t _ => ?_, ?_⟩
  · rw [hfilled.registered]
  · rw [h.untouched]
    exact List.not_mem_nil
  · rw [h.untouched]
    exact List.nodup_nil

/-! ## What breaks the table -/

/-- With the same rows and another number of threads the table is wrong. -/
theorem Kept.breaks (h : Kept this) (hrows : this'.dmap.table.rows = this.dmap.table.rows)
    (hlen : this'.current.length ≠ this.current.length) : ¬ TableHolds this' := by
  intro hholds
  obtain ⟨rows, hfilled⟩ := h.filled
  have hregistered := congrArg List.length hfilled.registered
  have hperm := hholds.exact.length_eq
  rw [registered, List.length_map, List.length_map] at hregistered hperm
  rw [hrows] at hperm
  exact hlen (hperm.symm.trans hregistered)

theorem Kept.breaks_without (h : Kept this) (hrows : this'.dmap.table.rows = this.dmap.table.rows) {t : Addr}
    (ht : t ∈ this.current) {p : Addr → Bool} (hp : p t = false) (hcurrent : this'.current = this.current.filter p) :
    ¬ TableHolds this' := by
  refine h.breaks hrows ?_
  rw [hcurrent]
  refine Nat.ne_of_lt (List.length_filter_lt_length_iff_exists.mpr ⟨t, ht, ?_⟩)
  rw [hp]
  exact Bool.false_ne_true

/-! ## Creating a thread -/

theorem Filled.withHeap {dmap : ThreadTable} (h : Filled dmap rows threads) (heap : Memory Thread) :
    Filled (withHeap dmap heap) rows threads :=
  ⟨h.bound, h.lock, h.slots, h.contents, h.room⟩

theorem start_new (heap : Memory Thread) (arg : Ptr) :
    startThread (heap.alloc { state := .ready, arg := arg }).1 (some heap.size) =
      some (heap.alloc { state := .started, arg := arg }).1 := by
  have hread := Memory.read_alloc_self heap { state := .ready, arg := arg }
  simp only [startThread, hread, Option.bind_eq_bind, Option.bind_some, ne_eq, not_true_eq_false, if_false,
    Memory.write_live hread, alloc_set]

/-- A thread is made, registered and started. -/
theorem create_thread {dmap : ThreadTable} (h : Filled dmap rows threads) (hroom : none ∈ dmap.table.rows)
    (word arg : Ptr) :
    ∃ dmap' rows', makeThread (some word) dmap arg = some (dmap', dmap.world.heap.size) ∧
      startThread dmap'.world.heap (some dmap.world.heap.size) =
        some (dmap.world.heap.alloc { state := .started, arg := arg }).1 ∧
      Filled dmap' rows' (threads ++ [dmap.world.heap.size]) ∧
      dmap'.world.destroyed = dmap.world.destroyed := by
  obtain ⟨dmap', hmake, h', hworld⟩ := makeThread_fills h (h.room_iff.mp hroom) word arg
  refine ⟨dmap', _, hmake, ?_, h', ?_⟩
  · rw [hworld]
    exact start_new _ arg
  · rw [hworld]

theorem live_alloc (h : ∀ t, (heap.read t).isSome ↔ t ∈ threads) (th : Thread) (t : Addr) :
    ((heap.alloc th).1.read t).isSome ↔ t ∈ threads ++ [heap.size] := by
  rw [List.mem_append, List.mem_singleton]
  by_cases ht : t = heap.size
  · rw [ht, Memory.read_alloc_self]
    exact iff_of_true rfl (Or.inr rfl)
  · rw [Memory.read_alloc_ne heap th ht, h t]
    exact ⟨Or.inl, fun hor => hor.elim id fun he => absurd he ht⟩

theorem activatorOf_heap {t : Addr} {a : Nat} (h : activatorOf heap cmps t = some a) (th : Thread) :
    activatorOf (heap.alloc th).1 cmps t = some a := by
  obtain ⟨th', hth, hrest⟩ := Option.bind_eq_some_iff.mp h
  have ht := Nat.ne_of_lt (Memory.lt_size_of_read hth)
  rw [activatorOf, Memory.read_alloc_ne heap th ht, hth]
  exact hrest

theorem activatorOf_cmps {t : Addr} {a : Nat} (h : activatorOf heap cmps t = some a) (activator : Nat) :
    activatorOf heap (cmps.alloc activator).1 t = some a := by
  obtain ⟨th, hth, hrest⟩ := Option.bind_eq_some_iff.mp h
  obtain ⟨c, hc, hread⟩ := Option.bind_eq_some_iff.mp hrest
  have hne := Nat.ne_of_lt (Memory.lt_size_of_read hread)
  simp [activatorOf, hth, hc, Memory.read_alloc_ne cmps activator hne, hread]

theorem activatorOf_new (heap : Memory Thread) (cmps : Memory Nat) (activator : Nat) (state : ThreadState) :
    activatorOf (heap.alloc { state := state, arg := some cmps.size }).1 (cmps.alloc activator).1 heap.size =
      some activator := by
  have hread := Memory.read_alloc_self heap { state := state, arg := some cmps.size }
  have hcmp := Memory.read_alloc_self cmps activator
  simp [activatorOf, hread, hcmp]

/-- A new state of a thread is not a new component. -/
theorem componentOf_restate {t : Addr} {th : Thread} (hth : heap.read t = some th) (state : ThreadState) (s : Addr) :
    componentOf (heap.set t (some { th with state := state })) s = componentOf heap s := by
  by_cases hs : s = t
  · rw [hs, componentOf, componentOf, Memory.read_set_self hth, hth]
    rfl
  · rw [componentOf, componentOf, Memory.read_set_ne _ hs]

theorem activatorOf_eq (heap : Memory Thread) (cmps : Memory Nat) (t : Addr) :
    activatorOf heap cmps t = (componentOf heap t).bind cmps.read := by
  rw [activatorOf, componentOf, Option.bind_assoc]
  rfl

theorem activatorOf_restate {t : Addr} {th : Thread} (hth : heap.read t = some th) (state : ThreadState)
    (s : Addr) :
    activatorOf (heap.set t (some { th with state := state })) cmps s = activatorOf heap cmps s := by
  rw [activatorOf_eq, activatorOf_eq, componentOf_restate hth]

/-- A stopped thread stays live, with its component. -/
theorem stopThread_live {t : Addr} {th : Thread} (hth : heap.read t = some th) :
    ∃ heap' th', stopThread heap (some t) = some heap' ∧ heap'.read t = some th' ∧ th'.state ≠ .run ∧
      ∀ s, componentOf heap' s = componentOf heap s := by
  by_cases hrun : th.state = .run
  · refine ⟨heap.set t (some { th with state := .ready }), { th with state := .ready }, ?_,
      Memory.read_set_self hth _, by simp, componentOf_restate hth .ready⟩
    simp [stopThread, hth, hrun, Memory.write_live hth]
  · exact ⟨heap, th, by simp [stopThread, hth, hrun], hth, hrun, fun _ => rfl⟩

/-! ## Harmless steps -/

theorem startSingle_kept (h : Kept this) (word : Ptr) (cmp : Nat) (hroom : none ∈ this.dmap.table.rows) :
    ∃ this', startSingle (some word) this cmp = some this' ∧ Kept this' := by
  obtain ⟨rows, hfilled⟩ := h.filled
  obtain ⟨dmap, rows', hmake, hstart, hfilled', hdestroyed⟩ := create_thread hfilled hroom word none
  refine ⟨_, by simp only [startSingle, hmake, hstart, Option.bind_eq_bind, Option.bind_some]; rfl, ?_⟩
  constructor
  · exact ⟨rows', hfilled'.withHeap _⟩
  · exact hdestroyed.trans h.untouched
  · exact live_alloc h.live _
  · intro c t ht
    change Function.update this.single cmp _ c = some t at ht
    rw [Function.update_apply] at ht
    split at ht
    · cases ht
      exact List.mem_append_right _ (List.mem_singleton_self _)
    · exact List.mem_append_left _ (h.single c t ht)
  · intro c t ht
    obtain ⟨hmem, hact⟩ := h.chain c t ht
    obtain ⟨a, ha⟩ := Option.isSome_iff_exists.mp hact
    exact ⟨List.mem_append_left _ hmem, Option.isSome_iff_exists.mpr ⟨a, activatorOf_heap ha _⟩⟩

theorem stopSingle_kept (h : Kept this) (cmp : Nat) (hidle : this.single cmp = none) :
    ∃ this', stopSingle this cmp = some this' ∧ Kept this' := by
  have hcurrent : (this.current.filter fun t => this.single cmp ≠ some t) = this.current := by
    refine List.filter_eq_self.mpr fun t _ => ?_
    simp [hidle]
  refine ⟨_, by simp only [stopSingle, hidle, stopThread, Option.bind_eq_bind, Option.bind_some]; rfl, ?_⟩
  rw [hidle] at hcurrent
  constructor
  · rw [hcurrent]
    exact h.filled
  · exact h.untouched
  · rw [hcurrent]
    exact h.live
  · rw [hcurrent]
    intro c t ht
    change Function.update this.single cmp none c = some t at ht
    rw [Function.update_apply] at ht
    split at ht
    · cases ht
    · exact h.single c t ht
  · rw [hcurrent]
    exact h.chain

theorem startChain_kept (h : Kept this) (word : Ptr) (cmp activator : Nat) (hroom : none ∈ this.dmap.table.rows)
    (hentry : none ∈ (this.chains cmp).threads) (hlock : (this.chains cmp).rwmutex = some rwmutexCtor) :
    ∃ this', startChain (some word) this cmp activator = some this' ∧ Kept this' := by
  obtain ⟨rows, hfilled⟩ := h.filled
  obtain ⟨dmap, rows', hmake, hstart, hfilled', hdestroyed⟩ :=
    create_thread hfilled hroom word (some this.cmps.size)
  obtain ⟨index, hindex⟩ : ∃ index, (this.chains cmp).threads.findIdx? Option.isNone = some index := by
    rw [← Option.isSome_iff_exists, List.findIdx?_isSome, List.any_eq_true]
    exact ⟨none, hentry, rfl⟩
  have hmake' : makeThread (some word) this.dmap (some (this.cmps.alloc activator).2) = _ := hmake
  refine ⟨_, by
    simp only [startChain, hmake', hindex, hlock, hstart, rwmutexReadLock, rwmutexWriteLock, rwmutexWriteUnlock,
      rwmutexCtor, Bool.false_eq_true, if_false, Option.bind_eq_bind, Option.bind_some]
    rfl, ?_⟩
  constructor
  · exact ⟨rows', hfilled'.withHeap _⟩
  · exact hdestroyed.trans h.untouched
  · exact live_alloc h.live _
  · intro c t ht
    exact List.mem_append_left _ (h.single c t ht)
  · intro c t ht
    have hold : ∀ c, some t ∈ (this.chains c).threads → t ∈ this.current ++ [this.dmap.world.heap.size] ∧
        (activatorOf (this.dmap.world.heap.alloc { state := .started, arg := some this.cmps.size }).1
          (this.cmps.alloc activator).1 t).isSome := by
      intro c ht
      obtain ⟨hmem, hact⟩ := h.chain c t ht
      obtain ⟨a, ha⟩ := Option.isSome_iff_exists.mp hact
      exact ⟨List.mem_append_left _ hmem,
        Option.isSome_iff_exists.mpr ⟨a, activatorOf_heap (activatorOf_cmps ha activator) _⟩⟩
    simp only [Function.update_apply] at ht
    split at ht
    · rcases List.mem_or_eq_of_mem_set ht with ht | ht
      · exact hold _ ht
      · cases ht
        refine ⟨List.mem_append_right _ (List.mem_singleton_self _), ?_⟩
        rw [withHeap, activatorOf_new]
        rfl
    · exact hold c ht

theorem activatorOf_component {t c : Addr} (hc : componentOf heap t = some c) :
    activatorOf heap cmps t = cmps.read c := by
  rw [activatorOf_eq, hc, Option.bind_some]

/-- The loop ends at a thread whose component has the activator, or there is none. -/
theorem findCmp_cases {entries : List Ptr} (activator : Nat)
    (hlive : ∀ t, some t ∈ entries → (activatorOf heap cmps t).isSome) (index : Nat) :
    (findCmp heap cmps activator entries index = some none ∧
        ∀ t, some t ∈ entries → activatorOf heap cmps t ≠ some activator) ∨
      ∃ k t c, findCmp heap cmps activator entries index = some (some (index + k, t, c)) ∧
        entries[k]? = some (some t) ∧ componentOf heap t = some c ∧ cmps.read c = some activator := by
  induction entries generalizing index with
  | nil => exact Or.inl ⟨rfl, nofun⟩
  | cons entry entries ih =>
    have hrest := ih (fun t ht => hlive t (List.mem_cons_of_mem _ ht)) (index + 1)
    -- What the rest of the loop finds, seen from this entry.
    have hskip : findCmp heap cmps activator (entry :: entries) index =
          findCmp heap cmps activator entries (index + 1) →
        (∀ t, entry = some t → activatorOf heap cmps t ≠ some activator) →
        (findCmp heap cmps activator (entry :: entries) index = some none ∧
            ∀ t, some t ∈ entry :: entries → activatorOf heap cmps t ≠ some activator) ∨
          ∃ k t c, findCmp heap cmps activator (entry :: entries) index = some (some (index + k, t, c)) ∧
            (entry :: entries)[k]? = some (some t) ∧ componentOf heap t = some c ∧
              cmps.read c = some activator := by
      intro hstep hentry
      rw [hstep]
      rcases hrest with ⟨hfind, hnone⟩ | ⟨k, t, c, hfind, hk, hc, ha⟩
      · refine Or.inl ⟨hfind, fun t ht => ?_⟩
        rcases List.mem_cons.mp ht with he | hin
        · exact hentry t he.symm
        · exact hnone t hin
      · refine Or.inr ⟨k + 1, t, c, ?_, hk, hc, ha⟩
        rw [hfind, Nat.add_right_comm, Nat.add_assoc]
    cases entry with
    | none => exact hskip rfl nofun
    | some t =>
      obtain ⟨a, hactivator⟩ := Option.isSome_iff_exists.mp (hlive t (List.mem_cons_self ..))
      obtain ⟨th, hth, harg⟩ := Option.bind_eq_some_iff.mp hactivator
      obtain ⟨c, harg, ha⟩ := Option.bind_eq_some_iff.mp harg
      have hc : componentOf heap t = some c := by rw [componentOf, hth, Option.bind_some, harg]
      by_cases he : a = activator
      · subst he
        refine Or.inr ⟨0, t, c, ?_, rfl, hc, ha⟩
        simp [findCmp, hth, harg, ha]
      · refine hskip (by simp [findCmp, hth, harg, ha, he]) fun s hs => ?_
        cases hs
        rw [hactivator]
        exact fun hsame => he (Option.some.inj hsame)

/-- The loop finds nothing where no component has the activator. -/
theorem findCmp_none {activator : Nat} {entries : List Ptr}
    (hlive : ∀ t, some t ∈ entries → (activatorOf heap cmps t).isSome)
    (hother : ∀ t, some t ∈ entries → activatorOf heap cmps t ≠ some activator) (index : Nat) :
    findCmp heap cmps activator entries index = some none := by
  rcases findCmp_cases activator hlive index with ⟨hfind, -⟩ | ⟨k, t, c, -, hk, hc, ha⟩
  · exact hfind
  · exact absurd ((activatorOf_component hc).trans ha) (hother t (List.mem_of_getElem? hk))

theorem stopChain_kept (h : Kept this) (cmp activator : Nat)
    (hother : ∀ t, some t ∈ (this.chains cmp).threads →
      activatorOf this.dmap.world.heap this.cmps t ≠ some activator)
    (hlock : (this.chains cmp).rwmutex = some rwmutexCtor) :
    ∃ this', stopChain this cmp activator = some this' ∧ Kept this' := by
  have hfind := findCmp_none (fun t ht => (h.chain cmp t ht).2) hother 0
  refine ⟨_, by
    simp only [stopChain, hfind, hlock, rwmutexWriteLock, rwmutexCtor, Bool.false_eq_true, if_false,
      Option.bind_eq_bind, Option.bind_some]
    rfl, ?_⟩
  refine ⟨h.filled, h.untouched, h.live, h.single, fun c t ht => ?_⟩
  simp only [Function.update_apply] at ht
  split at ht
  · exact h.chain cmp t ht
  · exact h.chain c t ht

theorem threadEnters_kept (h : Kept this) (thread : Addr) : Kept (threadEnters this thread) := by
  unfold threadEnters
  cases hth : this.dmap.world.heap.read thread with
  | none => exact h
  | some th =>
    simp only
    split
    · exact h
    · have hself := Memory.read_set_self hth (some { th with state := .run })
      refine ⟨?_, h.untouched, ?_, h.single, ?_⟩
      · obtain ⟨rows, hfilled⟩ := h.filled
        exact ⟨rows, hfilled.withHeap _⟩
      · intro t
        rw [← h.live t]
        by_cases ht : t = thread
        · rw [ht, hth]
          exact iff_of_true (by rw [withHeap, hself]; rfl) rfl
        · rw [withHeap, Memory.read_set_ne _ ht]
      · intro c t ht
        obtain ⟨hmem, hact⟩ := h.chain c t ht
        exact ⟨hmem, by rwa [withHeap, activatorOf_restate hth]⟩

/-! ## Every other step -/

/-- Who got past the test of a lock found it free. -/
theorem eq_rwmutexCtor {β : Type} {m : Rwmutex} {x y : β} (h : (if m.held then none else some x) = some y) :
    m = rwmutexCtor := by
  obtain ⟨held⟩ := m
  cases held with
  | false => rfl
  | true => cases h

theorem startSingle_full (h : Kept this) {word : Ptr} {cmp : Nat} (hfull : none ∉ this.dmap.table.rows)
    (hstep : startSingle (some word) this cmp = some this') : ¬ TableHolds this' := by
  obtain ⟨rows, hfilled⟩ := h.filled
  simp only [startSingle, Option.bind_eq_bind, Option.bind_eq_some_iff, Option.some.injEq] at hstep
  obtain ⟨⟨dmap, t⟩, hmake, heap, -, rfl⟩ := hstep
  have hrows := makeThread_full hfilled hfull hmake
  exact h.breaks hrows (by simp)

theorem stopSingle_started (h : Kept this) {cmp : Nat} (hstarted : this.single cmp ≠ none)
    (hstep : stopSingle this cmp = some this') : ¬ TableHolds this' := by
  obtain ⟨t, ht⟩ := Option.ne_none_iff_exists'.mp hstarted
  simp only [stopSingle, Option.bind_eq_bind, Option.bind_eq_some_iff, Option.some.injEq] at hstep
  obtain ⟨heap, -, rfl⟩ := hstep
  exact h.breaks_without rfl (h.single cmp t ht) (by simp [ht]) rfl

theorem startChain_crowded (h : Kept this) {word : Ptr} {cmp activator : Nat}
    (hstep : startChain (some word) this cmp activator = some this')
    (hbad : ¬ Harmless this (.startChain cmp activator)) : ¬ TableHolds this' := by
  obtain ⟨rows, hfilled⟩ := h.filled
  simp only [startChain, rwmutexReadLock, Option.bind_eq_bind, Option.bind_eq_some_iff, Option.some.injEq] at hstep
  obtain ⟨⟨dmap, t⟩, hmake, m, ⟨m', hm', hfree⟩, index, hindex, _, -, _, -, heap, -, rfl⟩ := hstep
  have hentry : none ∈ (this.chains cmp).threads := by
    have hsome := congrArg Option.isSome hindex
    rw [List.findIdx?_isSome, Option.isSome_some, List.any_eq_true] at hsome
    obtain ⟨entry, hentry, hnone⟩ := hsome
    rwa [Option.isNone_iff_eq_none.mp hnone] at hentry
  have hlock : (this.chains cmp).rwmutex = some rwmutexCtor := by
    rw [hm', eq_rwmutexCtor hfree]
  have hrows := makeThread_full hfilled (fun hroom => hbad ⟨hroom, hentry, hlock⟩) hmake
  exact h.breaks hrows (by simp)

/-- What the loop finds is an entry, and where it finds nothing no component matches. -/
theorem findCmp_spec {activator : Nat} {entries : List Ptr} {index : Nat} {found : Option (Nat × Addr × Addr)}
    (h : findCmp heap cmps activator entries index = some found) :
    (∀ f, found = some f → some f.2.1 ∈ entries) ∧
      (found = none → ∀ t, some t ∈ entries → activatorOf heap cmps t ≠ some activator) := by
  induction entries generalizing index with
  | nil =>
    cases h
    refine ⟨fun f hf => ?_, fun _ t ht => ?_⟩
    · cases hf
    · cases ht
  | cons entry entries ih =>
    cases entry with
    | none =>
      obtain ⟨hmem, hnone⟩ := ih h
      refine ⟨fun f hf => List.mem_cons_of_mem _ (hmem f hf), fun hf t ht => ?_⟩
      rcases List.mem_cons.mp ht with ht | ht
      · cases ht
      · exact hnone hf t ht
    | some s =>
      simp only [findCmp, Option.bind_eq_bind, Option.bind_eq_some_iff] at h
      obtain ⟨th, hth, c, hc, a, ha, h⟩ := h
      by_cases hact : a = activator
      · rw [if_pos hact] at h
        cases h
        exact ⟨fun f hf => by cases hf; exact List.mem_cons_self .., fun hf => by cases hf⟩
      · rw [if_neg hact] at h
        obtain ⟨hmem, hnone⟩ := ih h
        refine ⟨fun f hf => List.mem_cons_of_mem _ (hmem f hf), fun hf t ht => ?_⟩
        rcases List.mem_cons.mp ht with ht | ht
        · cases ht
          simpa [activatorOf, hth, hc, ha] using hact
        · exact hnone hf t ht

theorem stopChain_found (h : Kept this) {cmp activator : Nat}
    (hstep : stopChain this cmp activator = some this') (hbad : ¬ Harmless this (.stopChain cmp activator)) :
    ¬ TableHolds this' := by
  simp only [stopChain, Option.bind_eq_bind, Option.bind_eq_some_iff] at hstep
  obtain ⟨m, hm, found, hfind, hstep⟩ := hstep
  obtain ⟨hmem, hnone⟩ := findCmp_spec hfind
  cases found with
  | none =>
    refine absurd ⟨hnone rfl, ?_⟩ hbad
    simp only [rwmutexWriteLock, Option.bind_eq_bind, Option.bind_eq_some_iff] at hm
    obtain ⟨m', hm', hfree⟩ := hm
    rw [hm', eq_rwmutexCtor hfree]
  | some f =>
    obtain ⟨index, t, c⟩ := f
    simp only [Option.bind_eq_some_iff, Option.some.injEq] at hstep
    obtain ⟨_, -, heap, -, world, -, cmps, -, rfl⟩ := hstep
    exact h.breaks_without rfl (h.chain cmp t (hmem _ rfl)).1 (by simp) rfl

theorem disposeThread_breaks (h : Kept this) {t : Addr} (hstep : disposeThread this t = some this') :
    ¬ TableHolds this' := by
  simp only [disposeThread, Option.bind_eq_bind, Option.bind_eq_some_iff, Option.some.injEq] at hstep
  obtain ⟨heap, hstop, dmap, hrem, rfl⟩ := hstep
  have ht : t ∈ this.current := by
    obtain ⟨th, hth, -⟩ := Option.bind_eq_some_iff.mp hstop
    exact (h.live t).mp (by rw [hth]; rfl)
  have hrows := congrArg DmapTable.rows (dmapRemItem_table hrem)
  exact h.breaks_without hrows ht (by simp) rfl

/-! ## Runs -/

theorem systemStep_kept (word : Ptr) (this : System) (op : Op) (h : Kept this) (hop : Harmless this op) :
    ∃ this' o, systemStep (some word) this op = some (this', o) ∧ Kept this' := by
  have hlift : ∀ {r : Option System}, (∃ this', r = some this' ∧ Kept this') →
      ∃ this' o, r.map (·, ()) = some (this', o) ∧ Kept this' := by
    intro r hr
    obtain ⟨this', rfl, h'⟩ := hr
    exact ⟨this', (), rfl, h'⟩
  cases op with
  | start cmp => exact hlift (startSingle_kept h word cmp hop)
  | stop cmp => exact hlift (stopSingle_kept h cmp hop)
  | startChain cmp activator => exact hlift (startChain_kept h word cmp activator hop.1 hop.2.1 hop.2.2)
  | stopChain cmp activator => exact hlift (stopChain_kept h cmp activator hop.1 hop.2)
  | dispose t => exact absurd hop id
  | enters t => exact ⟨_, (), rfl, threadEnters_kept h t⟩

theorem systemStep_breaks (word : Ptr) (this : System) (op : Op) (this' : System) (o : Unit) (h : Kept this)
    (hop : ¬ Harmless this op) (hstep : systemStep (some word) this op = some (this', o)) :
    ¬ TableHolds this' := by
  cases op with
  | start cmp => exact startSingle_full h hop (silent_iff.mp hstep)
  | stop cmp => exact stopSingle_started h hop (silent_iff.mp hstep)
  | startChain cmp activator => exact startChain_crowded h (silent_iff.mp hstep) hop
  | stopChain cmp activator => exact stopChain_found h (silent_iff.mp hstep) hop
  | dispose t => exact disposeThread_breaks h (silent_iff.mp hstep)
  | enters t => exact absurd trivial hop

/-- The table is right after every step just when no step takes a thread down and every
start finds room. -/
theorem table_holds_iff (chainLength : Nat) (word : Ptr) (ops : List Op) :
    (∀ k, ∃ this os, run (systemStep (some word)) (initialSystem chainLength) (ops.take k) = some (this, os) ∧
      TableHolds this) ↔ Guarded (systemStep (some word)) Harmless (initialSystem chainLength) ops :=
  returns_iff_guarded (fun _ h => h.holds) (systemStep_kept word) (systemStep_breaks word)
    (kept_initial chainLength) ops

/-- The number of slots taken, and the number of threads that are there. -/
def occupancy (this : System) : Nat × Nat :=
  ((registered this.dmap).length, this.current.length)

/-- A component is started and stopped twice: two slots stay taken, for no thread. A
thread of a component of the other kind is destroyed when it stops, and its row stays. -/
theorem stopped_threads_stay :
    (run (systemStep (some none)) (initialSystem 4) [.start 0, .enters 0, .stop 0, .start 0, .stop 0]).map
        (fun r => occupancy r.1) = some (2, 0) ∧
      (run (systemStep (some none)) (initialSystem 4) [.startChain 0 7, .stopChain 0 7]).map
        (fun r => (registered r.1.dmap, r.1.dmap.world.destroyed)) = some ([some 0], [0]) ∧
      ¬ ∀ k, ∃ this os, run (systemStep (some none)) (initialSystem 4) ([Op.start 0, .stop 0].take k) =
        some (this, os) ∧ TableHolds this := by
  refine ⟨by decide, by decide, fun hall => ?_⟩
  obtain ⟨this, os, hrun, hholds⟩ := hall 2
  have hcount : (run (systemStep (some none)) (initialSystem 4) [.start 0, .stop 0]).map
      (fun r => occupancy r.1) = some (1, 0) := by decide
  have hrun' : run (systemStep (some none)) (initialSystem 4) [.start 0, .stop 0] = some (this, os) := hrun
  rw [hrun'] at hcount
  have hperm := hholds.exact.length_eq
  have hcount' := Option.some.inj hcount
  simp only [occupancy, Prod.mk.injEq] at hcount'
  rw [List.length_map, hcount'.1, hcount'.2] at hperm
  cases hperm

end Devclego.Threads
