import Devclego.Sliding.Addition

/-!
# What the plugins are told

Each call of a window is told to the plugins as a list of events, and replaying the
events on the data of the tracked items as a queue gives the data of the items
tracked afterwards. What the pipes of a plugin are really called with is seen in the log
of one that writes it down: attached while the window is empty, it records the whole
history of the queue from the empty one.
-/
namespace Devclego.Sliding

open Foundation Devclego.Puffers

variable {P ω : Type}

/-- Playing events on a queue: what is removed is the oldest element. -/
def Replays {D : Type} : List D → List (Kind × D) → List D → Prop
  | live, [], left => live = left
  | live, (.add, d) :: events, left => Replays (live ++ [d]) events left
  | live, (.rem, d) :: events, left => ∃ rest, live = d :: rest ∧ Replays rest events left

/-- What a list of events adds. -/
def added {D : Type} (events : List (Kind × D)) : List D :=
  events.filterMap fun e => if e.1 = .add then some e.2 else none

theorem Replays.append {D : Type} {live mid left : List D} {events events' : List (Kind × D)}
    (h : Replays live events mid) (h' : Replays mid events' left) : Replays live (events ++ events') left := by
  induction events generalizing live with
  | nil =>
    cases h
    exact h'
  | cons e events ih =>
    obtain ⟨kind, d⟩ := e
    cases kind with
    | add => exact ih h
    | rem =>
      obtain ⟨rest, hlive, hrest⟩ := h
      exact ⟨rest, hlive, ih hrest⟩

theorem added_append {D : Type} (events events' : List (Kind × D)) :
    added (events ++ events') = added events ++ added events' := List.filterMap_append

theorem replays_removals (gone kept : List (Addr × Slidingwindowitem P)) :
    Replays (datas (gone ++ kept)) (removals gone) (datas kept) := by
  induction gone with
  | nil => rfl
  | cons u gone ih => exact ⟨_, rfl, ih⟩

theorem added_removals (gone : List (Addr × Slidingwindowitem P)) : added (removals gone) = [] := by
  simp [added, removals]

/-! ## One call -/

/-- The plugins that some calls attach. -/
def attached : List (Call P ω) → List (Swplugin P ω)
  | [] => []
  | .addPlugin swplugin :: calls => swplugin :: attached calls
  | _ :: calls => attached calls

/-- The way of the world through a call: each event is told to the plugins, and the
storage may store in between. -/
inductive Passes (plugins : List (Swplugin P ω)) (storage : Option (Store P ω)) :
    ω → List (Kind × Option P) → ω → Prop where
  | done (world : ω) : Passes plugins storage world [] world
  | pipe {world world' : ω} {events : List (Kind × Option P)} (e : Kind × Option P)
      (rest : Passes plugins storage (pipeWorld e.1 e.2 plugins world) events world') :
      Passes plugins storage world (e :: events) world'
  | store {world world1 world' : ω} {events : List (Kind × Option P)} {store : Store P ω} {data dst : Option P}
      (hstorage : storage = some store) (hstore : store data world = some (dst, world1))
      (rest : Passes plugins storage world1 events world') : Passes plugins storage world events world'

/-- A call that takes the tracked items from one list to another and tells some
events. -/
structure Tells (c : Call P ω) (this this' : Slidingwindow P ω) (q q' : List (Addr × Slidingwindowitem P))
    (events : List (Kind × Option P)) (out : Option (Option P)) : Prop where
  storage : this'.storage = this.storage
  plugins : this'.plugins = this.plugins ++ attached [c]
  passes : Passes this.plugins this.storage this.world events this'.world
  replays : Replays (datas q) events (datas q')
  announced : added events = out.toList

variable {this : Slidingwindow P ω} {q : List (Addr × Slidingwindowitem P)} {spare : List Addr}
  {plugins : List (Swplugin P ω)} {storage : Option (Store P ω)} {world world' : ω}
  {events events' : List (Kind × Option P)}

theorem Passes.append {world1 : ω} (h : Passes plugins storage world events world1)
    (h' : Passes plugins storage world1 events' world') : Passes plugins storage world (events ++ events') world' := by
  induction h with
  | done => exact h'
  | pipe e _ ih => exact .pipe e (ih h')
  | store hstorage hstore _ ih => exact .store hstorage hstore (ih h')

theorem passes_tell (events : List (Kind × Option P)) (world : ω) (notices : List (Notice P)) :
    Passes plugins storage world events (tell plugins events (world, notices)).1 := by
  induction events generalizing world notices with
  | nil => exact .done world
  | cons e events ih =>
    rw [tell, callPipes_eq]
    exact .pipe e (ih _ _)

theorem Evicted.passes {this' : Slidingwindow P ω} {gone : List (Addr × Slidingwindowitem P)}
    (h : Evicted this this' gone) : Passes this.plugins storage this.world (removals gone) this'.world := by
  have hworld : this'.world = (tell this.plugins (removals gone) (this.world, this.notices)).1 :=
    congrArg Prod.fst h.told
  rw [hworld]
  exact passes_tell _ _ _

/-- Storing data is a step of the way. -/
theorem stored_passes {data dst : Option P} (hdst : stored this data = some (dst, world))
    (h : Passes plugins this.storage world events world') : Passes plugins this.storage this.world events world' := by
  unfold stored at hdst
  cases hstorage : this.storage with
  | none =>
    rw [hstorage] at hdst h
    cases hdst
    exact h
  | some store =>
    rw [hstorage] at hdst h
    exact .store rfl hdst h

theorem Evicted.tells {this' : Slidingwindow P ω} {gone kept : List (Addr × Slidingwindowitem P)}
    (h : Evicted this this' gone) (hq : q = gone ++ kept) {c : Call P ω} (hc : attached [c] = []) :
    Tells c this this' q kept (removals gone) none where
  storage := h.setup.storage
  plugins := by rw [h.setup.plugins, hc, List.append_nil]
  passes := h.passes
  replays := by
    rw [hq]
    exact replays_removals gone kept
  announced := added_removals gone

/-- A call returns and tells what it did, unless the storage faults. -/
theorem call_cases (h : Tracks this q spare) (c : Call P ω) :
    (∃ this' out q' spare' events, callStep this c = some (this', out) ∧ Tracks this' q' spare' ∧
      Tells c this this' q q' events out) ∨
    (callStep this c = none ∧ ∃ store data world, this.storage = some store ∧ store data world = none) := by
  cases c with
  | addData clock data =>
    obtain ⟨this1, k, gone, kept, spare1, hrefresh, hq, h1, hev, hroom, -⟩ := slidingwindowRefresh_spec clock h
    rw [← hev.setup.numLimit] at hroom
    have hadd : slidingwindowAddData clock this data = placeData (clock k) this1 data := by
      rw [slidingwindowAddData_eq, hrefresh, Option.bind_some]
    rcases placeData_spec (clock k) h1 hroom data with ⟨hnone, hplace⟩ | hsome
    · refine Or.inr ⟨by rw [callStep, hadd, hplace, Option.map_none], ?_⟩
      unfold stored at hnone
      rw [hev.setup.storage] at hnone
      cases hstore : this.storage with
      | none =>
        rw [hstore] at hnone
        cases hnone
      | some store =>
        rw [hstore] at hnone
        exact ⟨store, data, this1.world, rfl, hnone⟩
    · obtain ⟨dst, world, this', item, spare', hdst, hplace, h', hs', htold⟩ := hsome
      refine Or.inl ⟨this', some dst, _, spare', removals gone ++ [(.add, dst)],
        by rw [callStep, hadd, hplace, Option.map_some], h', ?_, ?_, ?_, ?_, ?_⟩
      · exact hs'.storage.trans hev.setup.storage
      · rw [hs'.plugins, hev.setup.plugins]
        exact (List.append_nil _).symm
      · have hadded : Passes this1.plugins this1.storage world [(.add, dst)] this'.world := by
          rw [show this'.world = (tell this1.plugins [(.add, dst)] (world, this1.notices)).1 from
            congrArg Prod.fst htold]
          exact passes_tell _ _ _
        have hlast := stored_passes hdst hadded
        rw [hev.setup.plugins, hev.setup.storage] at hlast
        exact hev.passes.append hlast
      · rw [hq]
        refine (replays_removals gone kept).append ?_
        show datas kept ++ [dst] = datas (kept ++ [(item, ⟨dst, clock k⟩)])
        exact (datas_append kept [(item, ⟨dst, clock k⟩)]).symm
      · rw [added_append, added_removals]
        rfl
  | refresh clock =>
    obtain ⟨this', k, gone, kept, spare', hrefresh, hq, h', hev, -, -⟩ := slidingwindowRefresh_spec clock h
    exact Or.inl ⟨this', none, kept, spare', removals gone, by rw [callStep, hrefresh, Option.map_some], h',
      hev.tells hq rfl⟩
  | clear =>
    obtain ⟨this', spare', hclear, h', hev⟩ := slidingwindowClear_spec h
    exact Or.inl ⟨this', none, [], spare', removals q, by rw [callStep, hclear, Option.map_some], h',
      hev.tells (List.append_nil q).symm rfl⟩
  | addPlugin swplugin =>
    exact Or.inl ⟨slidingwindowAddPlugin this swplugin, none, q, spare, [], rfl, ⟨h.1, h.2, h.3, h.4, h.5⟩,
      ⟨rfl, slistAppend_eq _ _, .done _, rfl, rfl⟩⟩

/-! ## Recording -/

/-- What the pipes of a plugin are called with. -/
abbrev Log (P : Type) := List (Kind × Option P)

/-- A plugin in a world with a log that it leaves alone. -/
def Swplugin.beside (this : Swplugin P ω) : Swplugin P (ω × Log P) where
  remPipe := this.remPipe.map fun pipe data world => (pipe data world.1, world.2)
  addPipe := this.addPipe.map fun pipe data world => (pipe data world.1, world.2)

/-- A plugin whose pipes write into the log what they are called with. -/
def Swplugin.recording (this : Swplugin P ω) : Swplugin P (ω × Log P) where
  remPipe := this.remPipe.map fun pipe data world => (pipe data world.1, world.2 ++ [(.rem, data)])
  addPipe := this.addPipe.map fun pipe data world => (pipe data world.1, world.2 ++ [(.add, data)])

/-- A storage in a world with a log. -/
def makerBeside (maker : Nat → ω → Store P ω × ω) (numLimit : Nat) (world : ω × Log P) :
    Store P (ω × Log P) × (ω × Log P) :=
  let made := maker numLimit world.1
  (fun data world => (made.1 data world.1).map fun r => (r.1, r.2, world.2), made.2, world.2)

def Call.beside : Call P ω → Call P (ω × Log P)
  | .addData clock data => .addData clock data
  | .refresh clock => .refresh clock
  | .clear => .clear
  | .addPlugin swplugin => .addPlugin swplugin.beside

/-- A new window in a world with an empty log. -/
def recordedWindow (numLimit : Nat) (timeLimit : Exact) (storageMaker : Option (Nat → ω → Store P ω × ω))
    (world : ω) : Slidingwindow P (ω × Log P) :=
  slidingwindowCtor numLimit timeLimit (storageMaker.map makerBeside) (world, [])

/-- Calls of which one attaches the plugin whose pipes are recorded. -/
def recordedCalls (before : List (Call P ω)) (swplugin : Swplugin P ω) (after : List (Call P ω)) :
    List (Call P (ω × Log P)) :=
  before.map Call.beside ++ .addPlugin swplugin.recording :: after.map Call.beside

/-- What a plugin is told of some events: those it has a pipe for. -/
def seen (swplugin : Swplugin P ω) (events : List (Kind × Option P)) : List (Kind × Option P) :=
  events.filter fun e => (swplugin.pipe e.1).isSome

section Recording

variable {plugins : List (Swplugin P (ω × Log P))} {storage : Option (Store P (ω × Log P))}
  {world world' : ω × Log P} {swplugin : Swplugin P ω}

/-- Telling the plugins an event writes `note` of it into the log. -/
def Notes (plugins : List (Swplugin P (ω × Log P))) (note : Kind × Option P → Log P) : Prop :=
  ∀ (e : Kind × Option P) (world : ω × Log P), (pipeWorld e.1 e.2 plugins world).2 = world.2 ++ note e

/-- Storing leaves the log alone. -/
def StoresBeside (storage : Option (Store P (ω × Log P))) : Prop :=
  ∀ store, storage = some store → ∀ data world dst world', store data world = some (dst, world') →
    world'.2 = world.2

theorem Passes.log {note : Kind × Option P → Log P} (hnotes : Notes plugins note) (hstores : StoresBeside storage)
    (h : Passes plugins storage world events world') : world'.2 = world.2 ++ events.flatMap note := by
  induction h with
  | done => exact (List.append_nil _).symm
  | pipe e _ ih => rw [ih, hnotes e, List.flatMap_cons, List.append_assoc]
  | store hstorage hstore _ ih => rw [ih, hstores _ hstorage _ _ _ _ hstore]

theorem notes_nil : Notes ([] : List (Swplugin P (ω × Log P))) fun _ => [] :=
  fun _ world => (List.append_nil world.2).symm

theorem Notes.append {plugins' : List (Swplugin P (ω × Log P))} {note note' : Kind × Option P → Log P}
    (h : Notes plugins note) (h' : Notes plugins' note') : Notes (plugins ++ plugins') fun e => note e ++ note' e := by
  intro e world
  rw [pipeWorld_append, h' e, h e, List.append_assoc]

theorem notes_beside (swplugin : Swplugin P ω) : Notes [swplugin.beside] fun _ => [] := by
  intro e world
  obtain ⟨kind, data⟩ := e
  cases kind with
  | add => cases hpipe : swplugin.addPipe <;> simp [pipeWorld, Swplugin.pipe, Swplugin.beside, hpipe]
  | rem => cases hpipe : swplugin.remPipe <;> simp [pipeWorld, Swplugin.pipe, Swplugin.beside, hpipe]

/-- The recorded plugin writes down the events it has a pipe for. -/
theorem notes_recording (swplugin : Swplugin P ω) : Notes [swplugin.recording] fun e => seen swplugin [e] := by
  intro e world
  obtain ⟨kind, data⟩ := e
  cases kind with
  | add => cases hpipe : swplugin.addPipe <;> simp [pipeWorld, Swplugin.pipe, Swplugin.recording, seen, hpipe]
  | rem => cases hpipe : swplugin.remPipe <;> simp [pipeWorld, Swplugin.pipe, Swplugin.recording, seen, hpipe]

/-- Plugins that are attached beside the log write nothing. -/
theorem Notes.attached {note : Kind × Option P → Log P} (h : Notes plugins note) (c : Call P ω) :
    Notes (plugins ++ attached [c.beside]) note := by
  cases c with
  | addPlugin swplugin =>
    have hboth := h.append (notes_beside swplugin)
    simp only [List.append_nil] at hboth
    exact hboth
  | addData clock data => exact (List.append_nil plugins).symm ▸ h
  | refresh clock => exact (List.append_nil plugins).symm ▸ h
  | clear => exact (List.append_nil plugins).symm ▸ h

theorem seen_eq_flatMap (swplugin : Swplugin P ω) (events : List (Kind × Option P)) :
    (events.flatMap fun e => seen swplugin [e]) = seen swplugin events := by
  induction events with
  | nil => rfl
  | cons e events ih =>
    rw [List.flatMap_cons, ih]
    exact (List.filter_append [e] events).symm

theorem storesBeside_ctor (numLimit : Nat) (timeLimit : Exact) (storageMaker : Option (Nat → ω → Store P ω × ω))
    (world : ω) : StoresBeside (recordedWindow numLimit timeLimit storageMaker world).storage := by
  intro store hstore data world dst world' hdst
  cases storageMaker with
  | none => cases hstore
  | some maker =>
    cases hstore
    obtain ⟨r, -, he⟩ := Option.map_eq_some_iff.mp hdst
    cases he
    rfl

theorem log_ctor (numLimit : Nat) (timeLimit : Exact) (storageMaker : Option (Nat → ω → Store P ω × ω))
    (world : ω) : (recordedWindow numLimit timeLimit storageMaker world).world.2 = [] := by
  cases storageMaker <;> rfl

end Recording

/-! ## Runs -/

/-- Plugins are attached while the window is empty. -/
def attachesEmpty (this : Slidingwindow P ω) : Call P ω → Prop
  | .addPlugin _ => slidingwindowIsEmpty this = true
  | _ => True

instance (this : Slidingwindow P ω) : (c : Call P ω) → Decidable (attachesEmpty this c)
  | .addPlugin _ => inferInstanceAs (Decidable (_ = true))
  | .addData .. => isTrue trivial
  | .refresh _ => isTrue trivial
  | .clear => isTrue trivial

/-- The trace of a plugin is what it can see of a history that takes the empty queue to
the data now tracked and adds what was announced. -/
def Follows (swplugin : Swplugin P ω) (announced left : List (Option P)) (trace : List (Kind × Option P)) : Prop :=
  ∃ history, Replays [] history left ∧ added history = announced ∧ trace = seen swplugin history

/-- A run notes down what happens to the queue, and goes on to note alike. -/
theorem run_notes {this : Slidingwindow P (ω × Log P)} (h : Tracks this q spare) {note : Kind × Option P → Log P}
    (hnotes : Notes this.plugins note) (hstores : StoresBeside this.storage) {calls : List (Call P ω)}
    {this' : Slidingwindow P (ω × Log P)} {outs : List (Option (Option P))}
    (hrun : run callStep this (calls.map Call.beside) = some (this', outs)) :
    ∃ q' spare' events, Tracks this' q' spare' ∧ Notes this'.plugins note ∧ StoresBeside this'.storage ∧
      Replays (datas q) events (datas q') ∧ added events = outs.filterMap id ∧
      this'.world.2 = this.world.2 ++ events.flatMap note := by
  induction calls generalizing this q spare outs with
  | nil =>
    cases hrun
    exact ⟨q, spare, [], h, hnotes, hstores, rfl, rfl, (List.append_nil _).symm⟩
  | cons c calls ih =>
    obtain ⟨this1, o, this2, os, hs, hr, he⟩ := run_cons.mp hrun
    cases he
    rcases call_cases h c.beside with ⟨t, out, q1, spare1, events, hc, h1, ht⟩ | ⟨hnone, -⟩
    · cases hs.symm.trans hc
      have hnotes1 : Notes this1.plugins note := by
        rw [ht.plugins]
        exact hnotes.attached c
      have hstores1 : StoresBeside this1.storage := by
        rw [ht.storage]
        exact hstores
      obtain ⟨q', spare', events', h', hnotes', hstores', hreplays, hadded, hlog⟩ := ih h1 hnotes1 hstores1 hr
      refine ⟨q', spare', events ++ events', h', hnotes', hstores', ht.replays.append hreplays, ?_, ?_⟩
      · rw [added_append, ht.announced, hadded]
        cases o <;> rfl
      · rw [hlog, ht.passes.log hnotes hstores, List.flatMap_append, List.append_assoc]
    · rw [hnone] at hs
      cases hs

/-- Only a faulting storage keeps a run from returning. -/
theorem run_returns (h : Tracks this q spare)
    (hstore : ∀ store, this.storage = some store → ∀ data world, (store data world).isSome)
    (calls : List (Call P ω)) : ∃ r, run callStep this calls = some r := by
  have hstep : ∀ (s : Slidingwindow P ω) (c : Call P ω),
      ((∃ q spare, Tracks s q spare) ∧ s.storage = this.storage) → True →
      ∃ s' o, callStep s c = some (s', o) ∧ (∃ q spare, Tracks s' q spare) ∧ s'.storage = this.storage := by
    intro s c hinv _
    obtain ⟨⟨q, spare, hs⟩, hsame⟩ := hinv
    rcases call_cases hs c with ⟨s', out, q', spare', events, hc, h', ht⟩ | ⟨-, store, data, world, hst, hfault⟩
    · exact ⟨s', out, hc, ⟨q', spare', h'⟩, ht.storage.trans hsame⟩
    · have hsome := hstore store (hsame.symm.trans hst) data world
      rw [hfault] at hsome
      cases hsome
  obtain ⟨s', os, hr, -⟩ := run_total hstep ⟨⟨q, spare, h⟩, rfl⟩ (guarded_trivial this calls)
  exact ⟨(s', os), hr⟩

/-- A plugin attached while the window is empty is called, from then on, for every addition
in order and every removal in the same order, with the same pointers, and what it was
told to add and not to remove is what the window tracks. A run returns unless the
storage faults. -/
theorem plugins_follow (numLimit : Nat) (timeLimit : Exact) (storageMaker : Option (Nat → ω → Store P ω × ω))
    (world : ω) (before after : List (Call P ω)) (swplugin : Swplugin P ω)
    (hempty : Guarded callStep attachesEmpty (recordedWindow numLimit timeLimit storageMaker world)
      (recordedCalls before swplugin after)) :
    ((∀ store, (recordedWindow numLimit timeLimit storageMaker world).storage = some store →
        ∀ data world, (store data world).isSome) →
      ∃ r, run callStep (recordedWindow numLimit timeLimit storageMaker world)
        (recordedCalls before swplugin after) = some r) ∧
    ∀ this outs, run callStep (recordedWindow numLimit timeLimit storageMaker world)
        (recordedCalls before swplugin after) = some (this, outs) →
      ∃ left, trackedData this = some left ∧
        Follows swplugin ((outs.drop (before.length + 1)).filterMap id) left this.world.2 := by
  have hctor : Tracks (recordedWindow numLimit timeLimit storageMaker world) [] [] := tracks_ctor ..
  refine ⟨fun hstore => run_returns hctor hstore _, fun this outs hrun => ?_⟩
  obtain ⟨this0, outs0, this2, outs2, hbefore, hrest, he⟩ := run_append.mp hrun
  cases he
  have hguard := guarded_append hbefore hempty
  obtain ⟨q0, spare0, events0, h0, hnotes0, hstores0, -, -, hlog0⟩ :=
    run_notes hctor notes_nil (storesBeside_ctor numLimit timeLimit storageMaker world) hbefore
  have hsilent : this0.world.2 = [] := by
    rw [hlog0, log_ctor]
    simp
  -- the window is empty where the plugin is attached, so its queue starts empty
  have hq0 : q0 = [] := h0.isempty_iff.mp hguard.1
  cases hq0
  obtain ⟨this1, o, this3, outs1, hs, hafter, he⟩ := run_cons.mp hrest
  cases hs
  cases he
  have h1 : Tracks (slidingwindowAddPlugin this0 swplugin.recording) [] spare0 := ⟨h0.1, h0.2, h0.3, h0.4, h0.5⟩
  have hnotes1 : Notes (slidingwindowAddPlugin this0 swplugin.recording).plugins fun e => seen swplugin [e] := by
    rw [slidingwindowAddPlugin, slistAppend_eq]
    exact hnotes0.append (notes_recording swplugin)
  obtain ⟨q', spare', events, h', -, -, hreplays, hadded, hlog⟩ := run_notes h1 hnotes1 hstores0 hafter
  refine ⟨datas q', h'.trackedData_eq, events, hreplays, ?_, ?_⟩
  · have hdrop : (outs0 ++ none :: outs1).drop (before.length + 1) = outs1 := by
      have hlen := length_of_run hbefore
      rw [List.length_map] at hlen
      rw [← hlen, List.drop_length_add_append]
      rfl
    rw [hadded, hdrop]
  · rw [hlog, seen_eq_flatMap]
    exact congrArg (· ++ _) hsilent

/-- A plugin with both pipes that keeps the data of the tracked items. -/
def mirror : Swplugin Nat (List (Option Nat)) where
  remPipe := some fun _ world => world.tail
  addPipe := some fun data world => world ++ [data]

theorem plugins_follow_run :
    ∃ r, run callStep (recordedWindow 2 (.fin 0) none []) (recordedCalls [.clear] mirror
        [.addData (fun _ => Mtime.zero) (some 5), .addData (fun _ => Mtime.zero) (some 6),
          .addData (fun _ => Mtime.zero) (some 5), .clear, .addData (fun _ => Mtime.zero) none]) = some r ∧
      ∃ left, trackedData r.1 = some left ∧
        Follows mirror ((r.2.drop 2).filterMap id) left r.1.world.2 := by
  have hfollow := plugins_follow 2 (.fin 0) none [] [.clear]
    [.addData (fun _ => Mtime.zero) (some 5), .addData (fun _ => Mtime.zero) (some 6),
      .addData (fun _ => Mtime.zero) (some 5), .clear, .addData (fun _ => Mtime.zero) none] mirror (by decide)
  obtain ⟨r, hr⟩ := hfollow.1 fun store hstore => by cases hstore
  exact ⟨r, hr, hfollow.2 r.1 r.2 hr⟩

end Devclego.Sliding
