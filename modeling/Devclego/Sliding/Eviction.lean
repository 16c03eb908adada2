import Devclego.Foundation.Suffix
import Devclego.Sliding.Model

/-!
# What evictions do to a window

`Tracks` says which items a window holds, oldest first, and which records wait in
its pool. Every loop of the window removes a front of these items: `Evicted` says
what the plugins are told about it. The records and both rings are followed here
once; later modules only speak of the tracked items.
-/
namespace Devclego.Sliding

open Foundation Devclego.Puffers

variable {P ω : Type}

/-! ## Notices -/

/-- The world after the plugins have been called. -/
def pipeWorld (kind : Kind) (data : Option P) : List (Swplugin P ω) → ω → ω
  | [], world => world
  | swplugin :: next, world =>
    pipeWorld kind data next (((swplugin.pipe kind).map fun pipe => pipe data world).getD world)

/-- The calls this makes, for plugins from position `i` on. -/
def pipeNotices (kind : Kind) (data : Option P) : Nat → List (Swplugin P ω) → List (Notice P)
  | _, [] => []
  | i, swplugin :: next =>
    ((swplugin.pipe kind).map fun _ => (⟨i, kind, data⟩ : Notice P)).toList ++ pipeNotices kind data (i + 1) next

theorem callPipes_eq (kind : Kind) (data : Option P) (i : Nat) (plugins : List (Swplugin P ω)) (world : ω)
    (notices : List (Notice P)) : callPipes kind data i plugins (world, notices) =
      (pipeWorld kind data plugins world, notices ++ pipeNotices kind data i plugins) := by
  induction plugins generalizing i world notices with
  | nil => simp [callPipes, pipeWorld, pipeNotices]
  | cons swplugin next ih =>
    unfold callPipes pipeWorld pipeNotices
    cases swplugin.pipe kind with
    | none => exact ih _ _ _
    | some pipe =>
      refine (ih _ _ _).trans ?_
      simp

/-- The world and the notices after a list of events has been told to the plugins. -/
def tell (plugins : List (Swplugin P ω)) : List (Kind × Option P) → ω × List (Notice P) → ω × List (Notice P)
  | [], s => s
  | e :: events, s => tell plugins events (callPipes e.1 e.2 0 plugins s)

theorem tell_append (plugins : List (Swplugin P ω)) (events events' : List (Kind × Option P))
    (s : ω × List (Notice P)) : tell plugins (events ++ events') s = tell plugins events' (tell plugins events s) := by
  induction events generalizing s with
  | nil => rfl
  | cons e events ih => exact ih _

theorem tell_notices (plugins : List (Swplugin P ω)) (events : List (Kind × Option P)) (s : ω × List (Notice P)) :
    (tell plugins events s).2 = s.2 ++ events.flatMap fun e => pipeNotices e.1 e.2 0 plugins := by
  induction events generalizing s with
  | nil => exact (List.append_nil _).symm
  | cons e events ih =>
    obtain ⟨world, notices⟩ := s
    rw [tell, ih, callPipes_eq, List.flatMap_cons, List.append_assoc]

theorem pipeWorld_append (kind : Kind) (data : Option P) (plugins plugins' : List (Swplugin P ω)) (world : ω) :
    pipeWorld kind data (plugins ++ plugins') world = pipeWorld kind data plugins' (pipeWorld kind data plugins world) := by
  induction plugins generalizing world with
  | nil => rfl
  | cons swplugin next ih => exact ih _

theorem slistAppend_eq {α : Type} (slist : List α) (item : α) : slistAppend slist item = slist ++ [item] := by
  induction slist with
  | nil => rfl
  | cons head next ih => rw [slistAppend, ih, List.cons_append]

/-! ## Tracked items -/

/-- The tracked items with their records, oldest first, and the records of the pool. -/
structure Tracks (this : Slidingwindow P ω) (q : List (Addr × Slidingwindowitem P)) (spare : List Addr) :
    Prop where
  tracked : this.trackeditems.Holds this.numLimit (q.map Prod.fst)
  pool : this.recycle.Holds (min 1024 this.numLimit) spare
  cells : ∀ u ∈ q, this.mem.read u.1 = some u.2
  pooled : ∀ a ∈ spare, (this.mem.read a).isSome
  distinct : (q.map Prod.fst ++ spare).Nodup

/-- The data of tracked items. -/
def datas (q : List (Addr × Slidingwindowitem P)) : List (Option P) := q.map fun u => u.2.data

theorem datas_append (q q' : List (Addr × Slidingwindowitem P)) : datas (q ++ q') = datas q ++ datas q' :=
  List.map_append

/-- What no call of the window changes after it is set up. -/
structure SameSetup (this this' : Slidingwindow P ω) : Prop where
  plugins : this'.plugins = this.plugins
  storage : this'.storage = this.storage
  numLimit : this'.numLimit = this.numLimit
  timeLimit : this'.timeLimit = this.timeLimit

/-- The removals of some items, as they are told to the plugins. -/
def removals (gone : List (Addr × Slidingwindowitem P)) : List (Kind × Option P) :=
  gone.map fun u => (.rem, u.2.data)

structure Evicted (this this' : Slidingwindow P ω) (gone : List (Addr × Slidingwindowitem P)) : Prop where
  setup : SameSetup this this'
  told : (this'.world, this'.notices) = tell this.plugins (removals gone) (this.world, this.notices)

theorem SameSetup.refl (this : Slidingwindow P ω) : SameSetup this this := ⟨rfl, rfl, rfl, rfl⟩

theorem SameSetup.trans {this this' this'' : Slidingwindow P ω} (h : SameSetup this this')
    (h' : SameSetup this' this'') : SameSetup this this'' :=
  ⟨h'.plugins.trans h.plugins, h'.storage.trans h.storage, h'.numLimit.trans h.numLimit,
    h'.timeLimit.trans h.timeLimit⟩

theorem Evicted.refl (this : Slidingwindow P ω) : Evicted this this [] := ⟨SameSetup.refl this, rfl⟩

theorem Evicted.trans {this this' this'' : Slidingwindow P ω} {gone gone' : List (Addr × Slidingwindowitem P)}
    (h : Evicted this this' gone) (h' : Evicted this' this'' gone') : Evicted this this'' (gone ++ gone') where
  setup := h.setup.trans h'.setup
  told := by
    rw [h'.told, h.setup.plugins, h.told, removals, removals, removals, List.map_append, tell_append]

variable {this : Slidingwindow P ω} {q : List (Addr × Slidingwindowitem P)} {spare : List Addr}

theorem Tracks.length_le (h : Tracks this q spare) : q.length ≤ this.numLimit := by
  have hf := h.tracked.fits
  rwa [List.length_map] at hf

theorem Tracks.positive (h : Tracks this q spare) : 0 < this.numLimit := Nat.zero_lt_of_lt h.tracked.start_lt

theorem Tracks.rounds_eq (h : Tracks this q spare) : rounds this = q.length + 1 := by
  have hc := h.tracked.count_eq
  rw [List.length_map] at hc
  rw [rounds, datapufferReadcapacity, hc, Int.toNat_natCast]

theorem Tracks.isempty_iff (h : Tracks this q spare) : datapufferIsempty this.trackeditems = true ↔ q = [] := by
  rw [h.tracked.isempty_iff, List.map_eq_nil_iff]

theorem Tracks.isfull_iff (h : Tracks this q spare) :
    datapufferIsfull this.trackeditems = true ↔ q.length = this.numLimit := by
  rw [h.tracked.isfull_iff, List.length_map]

theorem Tracks.trackedData_eq (h : Tracks this q spare) : trackedData this = some (datas q) := by
  have hread : ∀ u ∈ q, (this.mem.read u.1).map Slidingwindowitem.data = some u.2.data := by
    intro u hu
    rw [h.cells u hu, Option.map_some]
  rw [trackedData, h.tracked.contents_eq]
  clear h
  induction q with
  | nil => rfl
  | cons u q ih =>
    have hrest := ih fun v hv => hread v (List.mem_cons_of_mem _ hv)
    rw [List.map_cons, List.mapM_cons, hread u (List.mem_cons_self ..), hrest]
    rfl

/-- The window after the oldest item has been read and told to the plugins. -/
def announced (this : Slidingwindow P ω) (cell : Slidingwindowitem P) : Slidingwindow P ω :=
  notify .rem cell.data { this with trackeditems := (datapufferRead this.trackeditems).1 }

theorem slidingwindowRem_eq {item : Addr} {cell : Slidingwindowitem P} {mem : Memory (Slidingwindowitem P)}
    (hread : (datapufferRead this.trackeditems).2 = some item) (hcell : this.mem.read item = some cell)
    (hwrite : this.mem.write item { cell with data := none } = some mem) :
    slidingwindowRem this =
      if datapufferIsfull this.recycle then (mem.free item).map fun mem => { announced this cell with mem := mem }
      else some { announced this cell with mem := mem, recycle := datapufferWrite this.recycle item } := by
  have hpair : datapufferRead this.trackeditems = ((datapufferRead this.trackeditems).1, some item) :=
    Prod.ext rfl hread
  unfold slidingwindowRem
  rw [hpair]
  simp only [Option.bind_eq_bind, Option.bind_some, hcell, notify, hwrite]
  cases mem.free item <;> rfl

/-- The oldest item is told to the plugins, and its record goes to the pool or is freed. -/
theorem slidingwindowRem_spec {u : Addr × Slidingwindowitem P} (h : Tracks this (u :: q) spare) :
    ∃ this' spare', slidingwindowRem this = some this' ∧ Tracks this' q spare' ∧ Evicted this this' [u] := by
  have hread : (datapufferRead this.trackeditems).2 = some u.1 := h.tracked.read_result
  have hkept : (datapufferRead this.trackeditems).1.Holds this.numLimit (q.map Prod.fst) := h.tracked.read
  have hcell : this.mem.read u.1 = some u.2 := h.cells u (List.mem_cons_self ..)
  have hdistinct : u.1 ∉ q.map Prod.fst ++ spare ∧ (q.map Prod.fst ++ spare).Nodup :=
    List.nodup_cons.mp h.distinct
  obtain ⟨hfresh, hnodup⟩ := hdistinct
  have hq : ∀ v ∈ q, v.1 ≠ u.1 := by
    intro v hv he
    exact hfresh (List.mem_append_left _ (he ▸ List.mem_map_of_mem hv))
  have hspare : ∀ a ∈ spare, a ≠ u.1 := by
    intro a ha he
    exact hfresh (List.mem_append_right _ (he ▸ ha))
  have hwrite := this.mem.write_live hcell { u.2 with data := none }
  have hafter : (this.mem.set u.1 (some { u.2 with data := none })).read u.1 = some { u.2 with data := none } :=
    Memory.read_set_self hcell _
  have hrem := slidingwindowRem_eq hread hcell hwrite
  have hev : ∀ this' : Slidingwindow P ω, SameSetup this this' →
      (this'.world, this'.notices) = ((announced this u.2).world, (announced this u.2).notices) →
      Evicted this this' [u] := fun this' hsetup htold => ⟨hsetup, htold⟩
  by_cases hfull : datapufferIsfull this.recycle = true
  · rw [if_pos hfull, Memory.free_live hafter] at hrem
    refine ⟨_, spare, hrem, ⟨hkept, h.pool, fun v hv => ?_, fun a ha => ?_, hnodup⟩, hev _ ⟨rfl, rfl, rfl, rfl⟩ rfl⟩
    · refine (Memory.read_set_ne _ (hq v hv) _).trans ((Memory.read_set_ne _ (hq v hv) _).trans ?_)
      exact h.cells v (List.mem_cons_of_mem _ hv)
    · have hsame := (Memory.read_set_ne _ (hspare a ha) none).trans
        (Memory.read_set_ne this.mem (hspare a ha) (some { u.2 with data := none }))
      exact (congrArg Option.isSome hsame).trans (h.pooled a ha)
  · have hroom : spare.length < min 1024 this.numLimit := by
      have hf := h.pool.fits
      have hne : spare.length ≠ min 1024 this.numLimit := fun he => hfull (h.pool.isfull_iff.mpr he)
      omega
    rw [if_neg hfull] at hrem
    refine ⟨_, spare ++ [u.1], hrem, ⟨hkept, h.pool.write hroom u.1, fun v hv => ?_, fun a ha => ?_, ?_⟩,
      hev _ ⟨rfl, rfl, rfl, rfl⟩ rfl⟩
    · exact (Memory.read_set_ne _ (hq v hv) _).trans (h.cells v (List.mem_cons_of_mem _ hv))
    · rcases List.mem_append.mp ha with ha | ha
      · exact (congrArg Option.isSome (Memory.read_set_ne this.mem (hspare a ha) _)).trans (h.pooled a ha)
      · rw [List.mem_singleton.mp ha]
        exact congrArg Option.isSome hafter
    · rw [← List.append_assoc]
      exact (List.perm_append_singleton _ _).nodup_iff.mpr h.distinct

/-! ## Loops -/

theorem clearLoop_spec {fuel : Nat} (h : Tracks this q spare) (hf : q.length < fuel) :
    ∃ this' spare', clearLoop fuel this = some this' ∧ Tracks this' [] spare' ∧ Evicted this this' q := by
  induction q generalizing this spare fuel with
  | nil =>
    obtain ⟨fuel, rfl⟩ : ∃ n, fuel = n + 1 := ⟨fuel - 1, by omega⟩
    have he : datapufferIsempty this.trackeditems = true := h.isempty_iff.mpr rfl
    exact ⟨this, spare, by rw [clearLoop, if_pos he], h, Evicted.refl this⟩
  | cons u q ih =>
    obtain ⟨fuel, rfl⟩ : ∃ n, fuel = n + 1 := ⟨fuel - 1, by omega⟩
    have he : ¬ datapufferIsempty this.trackeditems = true := by
      rw [h.isempty_iff]
      exact List.cons_ne_nil u q
    obtain ⟨this1, spare1, hrem, h1, hev⟩ := slidingwindowRem_spec h
    have hlt : q.length < fuel := by simp at hf; omega
    obtain ⟨this', spare', hloop, h', hev'⟩ := ih h1 hlt
    refine ⟨this', spare', ?_, h', hev.trans hev'⟩
    simp only [clearLoop, if_neg he, hrem, hloop, Option.bind_eq_bind, Option.bind_some]

theorem slidingwindowClear_spec (h : Tracks this q spare) :
    ∃ this' spare', slidingwindowClear this = some this' ∧ Tracks this' [] spare' ∧ Evicted this this' q := by
  apply clearLoop_spec h
  rw [h.rounds_eq]
  exact Nat.lt_succ_self _

/-- At most one item has to go for a ring that is not over its length. -/
theorem slidingwindowObsolateNumLimit_spec (h : Tracks this q spare) :
    ∃ this' gone spare', slidingwindowObsolateNumLimit this = some this' ∧
      q = gone ++ lastN (this.numLimit - 1) q ∧ Tracks this' (lastN (this.numLimit - 1) q) spare' ∧
      Evicted this this' gone ∧ (gone = [] → this' = this) := by
  have hle := h.length_le
  have hpos := h.positive
  by_cases hfull : q.length = this.numLimit
  · obtain ⟨u, q, rfl⟩ : ∃ u rest, q = u :: rest := List.exists_cons_of_length_pos (by omega)
    have hkept : lastN (this.numLimit - 1) (u :: q) = q := by
      rw [lastN, ← hfull, Nat.sub_sub_self (by simp), List.drop_one, List.tail_cons]
    obtain ⟨this', spare', hrem, h', hev⟩ := slidingwindowRem_spec h
    rw [hkept]
    refine ⟨this', [u], spare', ?_, rfl, h', hev, fun hnil => absurd hnil (List.cons_ne_nil u [])⟩
    have hlen' : ¬ datapufferIsfull this'.trackeditems = true := by
      rw [h'.isfull_iff, hev.setup.numLimit, ← hfull, List.length_cons]
      omega
    rw [slidingwindowObsolateNumLimit, h.rounds_eq, List.length_cons, numLimitLoop, if_pos (h.isfull_iff.mpr hfull),
      hrem]
    simp only [Option.bind_eq_bind, Option.bind_some, numLimitLoop, if_neg hlen']
  · have hkept : lastN (this.numLimit - 1) q = q := by
      rw [lastN, Nat.sub_eq_zero_of_le (by omega), List.drop_zero]
    have hnot : ¬ datapufferIsfull this.trackeditems = true := fun hc => hfull (h.isfull_iff.mp hc)
    rw [hkept]
    refine ⟨this, [], spare, ?_, rfl, h, Evicted.refl this, fun _ => rfl⟩
    rw [slidingwindowObsolateNumLimit, h.rounds_eq, numLimitLoop, if_neg hnot]

/-- The item is too old at a time. Without a limit nothing is. -/
def expired (timeLimit : Exact) (now pushed : Mtime) : Bool :=
  !decide (timeLimit = .fin 0) && !Exact.lt (diffmtime now pushed) timeLimit

/-- The items that go are too old, each at its own reading of the clock, and the first that
stays is not. -/
structure Outdated (timeLimit : Exact) (clock : Nat → Mtime) (gone kept : List (Addr × Slidingwindowitem P)) :
    Prop where
  old : ∀ (j : Nat) (u : Addr × Slidingwindowitem P), gone[j]? = some u →
    expired timeLimit (clock j) u.2.pushed = true
  young : ∀ u : Addr × Slidingwindowitem P, kept.head? = some u →
    expired timeLimit (clock gone.length) u.2.pushed = false

variable {timeLimit : Exact} {clock : Nat → Mtime} {gone kept : List (Addr × Slidingwindowitem P)}

theorem expired_unlimited (now pushed : Mtime) : expired (.fin 0) now pushed = false := by simp [expired]

/-- No item goes where the first is not too old. -/
theorem outdated_nil (hkept : ∀ u : Addr × Slidingwindowitem P, kept.head? = some u →
    expired timeLimit (clock 0) u.2.pushed = false) : Outdated timeLimit clock [] kept where
  old := by
    intro j u hu
    cases hu
  young := hkept

theorem Outdated.cons {u : Addr × Slidingwindowitem P} (hu : expired timeLimit (clock 0) u.2.pushed = true)
    (h : Outdated timeLimit (fun i => clock (i + 1)) gone kept) : Outdated timeLimit clock (u :: gone) kept where
  old := by
    intro j v hv
    cases j with
    | zero =>
      cases hv
      exact hu
    | succ j => exact h.old j v hv
  young := h.young

theorem Outdated.tail {u : Addr × Slidingwindowitem P} (h : Outdated timeLimit clock (u :: gone) kept) :
    Outdated timeLimit (fun i => clock (i + 1)) gone kept where
  old := fun j v hv => h.old (j + 1) v hv
  young := h.young

/-- With one reading the items that stay are what is left when those too old are dropped. -/
theorem Outdated.dropWhile_eq {now : Mtime} (h : Outdated timeLimit clock gone kept) (hnow : ∀ i, clock i = now) :
    kept = (gone ++ kept).dropWhile fun u => expired timeLimit now u.2.pushed := by
  induction gone generalizing clock with
  | nil =>
    cases kept with
    | nil => rfl
    | cons u kept =>
      have hu := h.young u rfl
      rw [hnow] at hu
      rw [List.nil_append, List.dropWhile_cons_of_neg (by rw [hu]; exact Bool.false_ne_true)]
  | cons u gone ih =>
    have hu := h.old 0 u rfl
    rw [hnow] at hu
    rw [List.cons_append, List.dropWhile_cons_of_pos (by exact hu)]
    exact ih h.tail fun i => hnow (i + 1)

theorem timeLimitLoop_spec {fuel : Nat} (k : Nat) (h : Tracks this q spare) (hf : q.length < fuel)
    (hlimit : this.timeLimit ≠ .fin 0) :
    ∃ this' k' gone kept spare', timeLimitLoop clock fuel k this = some (this', k') ∧ q = gone ++ kept ∧
      Tracks this' kept spare' ∧ Evicted this this' gone ∧
      Outdated this.timeLimit (fun i => clock (k + i)) gone kept ∧ (gone = [] → this' = this) := by
  induction q generalizing this spare fuel k with
  | nil =>
    obtain ⟨fuel, rfl⟩ : ∃ n, fuel = n + 1 := ⟨fuel - 1, by omega⟩
    have hpeek : datapufferPeekFirst this.trackeditems = none := h.tracked.peek_result
    exact ⟨this, k, [], [], spare, by rw [timeLimitLoop, hpeek], rfl, h, Evicted.refl this, outdated_nil nofun,
      fun _ => rfl⟩
  | cons u q ih =>
    obtain ⟨fuel, rfl⟩ : ∃ n, fuel = n + 1 := ⟨fuel - 1, by omega⟩
    have hpeek : datapufferPeekFirst this.trackeditems = some u.1 := h.tracked.peek_result
    have hcell : this.mem.read u.1 = some u.2 := h.cells u (List.mem_cons_self ..)
    by_cases hage : Exact.lt (diffmtime (clock k) u.2.pushed) this.timeLimit = true
    · refine ⟨this, k + 1, [], u :: q, spare, ?_, rfl, h, Evicted.refl this, outdated_nil fun v hv => ?_, fun _ => rfl⟩
      · simp only [timeLimitLoop, hpeek, hcell, hage, ↓reduceIte, Option.bind_eq_bind, Option.bind_some]
      · cases hv
        simp [expired, hage]
    · obtain ⟨this1, spare1, hrem, h1, hev⟩ := slidingwindowRem_spec h
      have hlt : q.length < fuel := by simp at hf; omega
      have hlimit1 : this1.timeLimit ≠ .fin 0 := by rw [hev.setup.timeLimit]; exact hlimit
      obtain ⟨this', k', gone, kept, spare', hloop, hq, h', hev', houtdated, -⟩ := ih (k + 1) h1 hlt hlimit1
      refine ⟨this', k', u :: gone, kept, spare', ?_, by rw [hq, List.cons_append], h', hev.trans hev', ?_,
        fun hnil => absurd hnil (List.cons_ne_nil u gone)⟩
      · simp only [timeLimitLoop, hpeek, hcell, hage, hrem, hloop, Bool.false_eq_true, ↓reduceIte,
          Option.bind_eq_bind, Option.bind_some]
      · have hshift : (fun i => clock (k + (i + 1))) = fun i => clock (k + 1 + i) := by
          funext i
          rw [Nat.add_assoc, Nat.add_comm 1 i]
        refine Outdated.cons (by simp [expired, hage, hlimit]) ?_
        rw [hev.setup.timeLimit] at houtdated
        rw [hshift]
        exact houtdated

theorem slidingwindowObsolateTimeLimit_spec (clock : Nat → Mtime) (h : Tracks this q spare) :
    ∃ this' k gone kept spare', slidingwindowObsolateTimeLimit clock this = some (this', k) ∧ q = gone ++ kept ∧
      Tracks this' kept spare' ∧ Evicted this this' gone ∧ Outdated this.timeLimit clock gone kept ∧
      (gone = [] → this' = this) := by
  by_cases hlimit : this.timeLimit = .fin 0
  · refine ⟨this, 0, [], q, spare, ?_, rfl, h, Evicted.refl this, outdated_nil fun u _ => ?_, fun _ => rfl⟩
    · rw [slidingwindowObsolateTimeLimit, if_pos hlimit]
    · rw [hlimit]
      exact expired_unlimited _ _
  · have hloop := @timeLimitLoop_spec _ _ this q spare clock _ 0 h (Nat.lt_succ_self _) hlimit
    simp only [Nat.zero_add] at hloop
    rwa [slidingwindowObsolateTimeLimit, if_neg hlimit, h.rounds_eq]

/-- A refresh evicts those too old, and early ones until there is room for one item. -/
theorem slidingwindowRefresh_split (clock : Nat → Mtime) (h : Tracks this q spare) :
    ∃ this' k gone early kept spare', slidingwindowRefresh clock this = some (this', k) ∧
      q = gone ++ (early ++ kept) ∧ Tracks this' kept spare' ∧ Evicted this this' (gone ++ early) ∧
      Outdated this.timeLimit clock gone (early ++ kept) ∧ kept = lastN (this.numLimit - 1) (early ++ kept) ∧
      (gone ++ early = [] → this' = this) := by
  obtain ⟨this1, k, gone, kept1, spare1, htime, hq, h1, hev1, houtdated, hsame1⟩ :=
    slidingwindowObsolateTimeLimit_spec clock h
  obtain ⟨this', early, spare', hnum, hkept1, h', hev', hsame'⟩ := slidingwindowObsolateNumLimit_spec h1
  rw [hev1.setup.numLimit] at hkept1 h'
  refine ⟨this', k, gone, early, _, spare', ?_, ?_, h', hev1.trans hev', ?_, ?_, fun hnil => ?_⟩
  · simp only [slidingwindowRefresh, htime, hnum, Option.bind_eq_bind, Option.bind_some]
  · rw [← hkept1, hq]
  · rwa [← hkept1]
  · rw [← hkept1]
  · obtain ⟨hgone, hearly⟩ := List.append_eq_nil_iff.mp hnil
    exact (hsame' hearly).trans (hsame1 hgone)

/-- A refresh evicts a front and leaves room for one item. -/
theorem slidingwindowRefresh_spec (clock : Nat → Mtime) (h : Tracks this q spare) :
    ∃ this' k gone kept spare', slidingwindowRefresh clock this = some (this', k) ∧ q = gone ++ kept ∧
      Tracks this' kept spare' ∧ Evicted this this' gone ∧ kept.length < this.numLimit ∧
      ∀ now, (∀ i, clock i = now) →
        kept = lastN (this.numLimit - 1) (q.dropWhile fun u => expired this.timeLimit now u.2.pushed) := by
  obtain ⟨this', k, gone, early, kept, spare', hrefresh, hq, h', hev, houtdated, hkept, -⟩ :=
    slidingwindowRefresh_split clock h
  refine ⟨this', k, gone ++ early, kept, spare', hrefresh, ?_, h', hev, ?_, fun now hnow => ?_⟩
  · rw [List.append_assoc, hq]
  · have hlen := length_lastN (this.numLimit - 1) (early ++ kept)
    have hpos := h.positive
    rw [← hkept] at hlen
    omega
  · rw [hq, ← houtdated.dropWhile_eq hnow]
    exact hkept

end Devclego.Sliding
