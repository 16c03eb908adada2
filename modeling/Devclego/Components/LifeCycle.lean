import Devclego.Components.Model

/-!
# Constructing and destructing components

The constructor builds a component only when its variable is null. The destructor runs
the deinit procedure, which reads through the variable, before it asks whether the
variable is null, and no procedure clears the variable: after a destructor that
returns, the variable points at the freed block, further constructors do nothing and a
further destructor reads freed memory. So a life is in order exactly as long as no
destructor is called.
-/
namespace Devclego.Components

open Foundation Devclego.Puffers

/-- What a call leaves behind: a constructor a live block that was initialised, a
destructor a null variable, and no deinit procedure ran elsewhere. -/
structure InOrder (s : Life) : Prop where
  built : s.last = some .ctor →
    ∃ a, s.world.var = some a ∧ (s.world.mem.read a).isSome ∧ a ∈ s.world.initialised
  gone : s.last = some .dtor → s.world.var = none
  deinits : ∀ right ∈ s.world.deinits, right = true

/-- Every call returns, and what it leaves behind is in order. -/
def Restartable (itemDtor : Ptr → Memory Cell → Option (Memory Cell)) (component : Component)
    (mem : Memory Cell) (calls : List Call) : Prop :=
  ∀ k, ∃ s outs, run (lifeStep itemDtor component) (atStart mem) (calls.take k) = some (s, outs) ∧ InOrder s

variable {itemDtor : Ptr → Memory Cell → Option (Memory Cell)} {component : Component} {w w' : World}

/-! ## No procedure writes the variable -/

theorem freeCell_var {a : Addr} (h : freeCell w a = some w') : w'.var = w.var := by
  obtain ⟨mem, -, rfl⟩ := Option.map_eq_some_iff.mp h
  rfl

theorem writeCell_var {a : Addr} {cell : Cell} (h : writeCell w a cell = some w') : w'.var = w.var := by
  obtain ⟨mem, -, rfl⟩ := Option.map_eq_some_iff.mp h
  rfl

theorem mutexDtor_var {mutex : Ptr} (h : mutexDtor w mutex = some w') : w'.var = w.var := by
  cases mutex with
  | none => cases h; rfl
  | some target => exact writeCell_var h

theorem spinDtor_var {spin : Ptr} (h : spinDtor w spin = some w') : w'.var = w.var := by
  cases spin with
  | none => cases h; rfl
  | some target => exact writeCell_var h

theorem signalDtor_var {signal : Ptr} (h : signalDtor w signal = some w') : w'.var = w.var := by
  cases signal with
  | none => cases h; rfl
  | some target =>
    simp only [signalDtor, Option.bind_eq_bind, Option.bind_eq_some_iff] at h
    obtain ⟨cell, -, h⟩ := h
    cases cell with
    | signal mutex =>
      obtain ⟨w₁, hmutex, hfree⟩ := Option.bind_eq_some_iff.mp h
      rw [freeCell_var hfree, mutexDtor_var hmutex]
    | _ => cases h

theorem freeItems_var {items : List (Option Addr)} (h : freeItems w items = some w') : w'.var = w.var := by
  induction items generalizing w with
  | nil => cases h; rfl
  | cons item items ih =>
    cases item with
    | none => exact ih h
    | some item =>
      obtain ⟨w₁, hfree, hrest⟩ := Option.bind_eq_some_iff.mp h
      rw [ih hrest, freeCell_var hfree]

theorem pufferDtor_var {puffer : Ptr} (h : pufferDtor w puffer = some w') : w'.var = w.var := by
  cases puffer with
  | none => cases h; rfl
  | some target =>
    simp only [pufferDtor, Option.bind_eq_bind, Option.bind_eq_some_iff] at h
    obtain ⟨cell, -, h⟩ := h
    cases cell with
    | puffer p =>
      obtain ⟨w₁, hitems, hfree⟩ := Option.bind_eq_some_iff.mp h
      rw [freeCell_var hfree, freeItems_var hitems]
    | _ => cases h

theorem clearLoop_var {puffer : Addr} {fuel : Nat} (h : clearLoop itemDtor puffer fuel w = some w') :
    w'.var = w.var := by
  induction fuel generalizing w with
  | zero => cases h
  | succ fuel ih =>
    simp only [clearLoop, Option.bind_eq_bind, Option.bind_eq_some_iff] at h
    obtain ⟨cell, -, h⟩ := h
    cases cell with
    | puffer p =>
      by_cases hempty : datapufferIsempty p = true
      · simp only [hempty, ↓reduceIte, Option.some.injEq] at h
        rw [h]
      · simp only [hempty, Bool.false_eq_true, ↓reduceIte, Option.bind_eq_some_iff] at h
        obtain ⟨w₁, hwrite, mem, -, hrest⟩ := h
        rw [ih hrest, writeCell_var hwrite]
    | _ => cases h

theorem clearPuffer_var {puffer : Ptr} (h : clearPuffer itemDtor w puffer = some w') : w'.var = w.var := by
  simp only [clearPuffer, Option.bind_eq_bind, Option.bind_eq_some_iff] at h
  obtain ⟨a, -, cell, -, h⟩ := h
  cases cell with
  | puffer p => exact clearLoop_var h
  | _ => cases h

theorem deinit_var (h : deinit itemDtor component w = some w') : w'.var = w.var := by
  cases component with
  | fsm =>
    simp only [deinit, Option.bind_eq_bind, Option.bind_eq_some_iff] at h
    obtain ⟨w₁, hmutex, cell, -, h⟩ := h
    cases cell with
    | fsm current fire signal => rw [signalDtor_var h, mutexDtor_var hmutex]
    | _ => cases h
  | sgpuffer length =>
    simp only [deinit, Option.bind_eq_bind, Option.bind_eq_some_iff] at h
    obtain ⟨cell, -, h⟩ := h
    cases cell with
    | sgpuffer puffer receiver supplier signal =>
      simp only [Option.bind_eq_some_iff] at h
      obtain ⟨w₁, hclear, w₂, hpuffer, hsignal⟩ := h
      rw [signalDtor_var hsignal, pufferDtor_var hpuffer, clearPuffer_var hclear]
    | _ => cases h
  | recpuffer length =>
    simp only [deinit, Option.bind_eq_bind, Option.bind_eq_some_iff] at h
    obtain ⟨cell, -, h⟩ := h
    cases cell with
    | recpuffer puffer receiver supplier spin =>
      simp only [Option.bind_eq_some_iff] at h
      obtain ⟨w₁, hclear, w₂, hpuffer, hspin⟩ := h
      rw [spinDtor_var hspin, pufferDtor_var hpuffer, clearPuffer_var hclear]
    | _ => cases h

/-! ## Destructors -/

theorem mutexDtor_dead {mutex : Ptr} {a : Addr} (hdead : w.mem.read a = none)
    (h : mutexDtor w mutex = some w') : w'.mem.read a = none := by
  cases mutex with
  | none => cases h; exact hdead
  | some target =>
    obtain ⟨mem, hwrite, rfl⟩ := Option.map_eq_some_iff.mp h
    obtain ⟨hlive, rfl⟩ := Memory.write_cases hwrite
    have hne : a ≠ target := by
      intro he
      rw [← he, hdead] at hlive
      cases hlive
    rw [Memory.read_set_ne _ hne, hdead]

/-- The deinit procedure reads the component, so it faults when there is none. -/
theorem deinit_dead (hdead : w.mem.load w.var = none) : deinit itemDtor component w = none := by
  cases component with
  | fsm =>
    cases hmutex : mutexDtor w w.sysdatMutex with
    | none => simp only [deinit, hmutex, Option.bind_eq_bind, Option.bind_none]
    | some w₁ =>
      have hdead₁ : w₁.mem.load w₁.var = none := by
        rw [mutexDtor_var hmutex]
        cases hvar : w.var with
        | none => rfl
        | some a =>
          rw [hvar] at hdead
          exact mutexDtor_dead hdead hmutex
      simp only [deinit, hmutex, hdead₁, Option.bind_eq_bind, Option.bind_some, Option.bind_none]
  | sgpuffer length => simp only [deinit, hdead, Option.bind_eq_bind, Option.bind_none]
  | recpuffer length => simp only [deinit, hdead, Option.bind_eq_bind, Option.bind_none]

theorem cmpDtor_dead (hdead : w.mem.load w.var = none) : cmpDtor itemDtor component w = none := by
  simp only [cmpDtor, deinit_dead hdead, Option.bind_eq_bind, Option.bind_none]

/-- A destructor that returns leaves the variable at the block it freed. -/
theorem cmpDtor_dangling (h : cmpDtor itemDtor component w = some w') :
    ∃ a, w'.var = some a ∧ w'.mem.read a = none := by
  simp only [cmpDtor, Option.bind_eq_bind, Option.bind_eq_some_iff] at h
  obtain ⟨w₁, hdeinit, h⟩ := h
  cases hvar : w₁.var with
  | none =>
    have hnull : w.mem.load w.var = none := by rw [← deinit_var hdeinit, hvar, Memory.load_none]
    rw [deinit_dead hnull] at hdeinit
    cases hdeinit
  | some a =>
    rw [hvar] at h
    refine ⟨a, freeCell_var h, ?_⟩
    obtain ⟨mem, hfree, rfl⟩ := Option.map_eq_some_iff.mp h
    obtain ⟨hlive, rfl⟩ := Memory.free_cases hfree
    obtain ⟨cell, hcell⟩ := Option.isSome_iff_exists.mp hlive
    exact Memory.read_set_self hcell none

/-- After a destructor, a constructor does nothing and a destructor faults. -/
theorem cmpDtor_final (h : cmpDtor itemDtor component w = some w') :
    cmpCtor component w' = some w' ∧ cmpDtor itemDtor component w' = none := by
  obtain ⟨a, hvar, hfreed⟩ := cmpDtor_dangling h
  constructor
  · rw [cmpCtor, hvar]
  · apply cmpDtor_dead
    rw [hvar, Memory.load_some, hfreed]

/-! ## Constructors -/

/-- The component is constructed. -/
def Up (w : World) : Prop := ∃ a, w.var = some a ∧ (w.mem.read a).isSome ∧ a ∈ w.initialised

theorem writeCell_live {a : Addr} (hlive : (w.mem.read a).isSome) (cell : Cell) :
    ∃ w', writeCell w a cell = some w' ∧ w'.var = w.var ∧ (w'.mem.read a).isSome ∧ w'.deinits = w.deinits := by
  obtain ⟨old, hold⟩ := Option.isSome_iff_exists.mp hlive
  refine ⟨{ w with mem := w.mem.set a (some cell) }, ?_, rfl, ?_, rfl⟩
  · rw [writeCell, Memory.write_live hold, Option.map_some]
  · show ((w.mem.set a (some cell)).read a).isSome = true
    rw [Memory.read_set_self hold, Option.isSome_some]

theorem allocCell_live {a : Addr} (hlive : (w.mem.read a).isSome) (cell : Cell) :
    ((allocCell w cell).1.mem.read a).isSome := by
  obtain ⟨old, hold⟩ := Option.isSome_iff_exists.mp hlive
  have hne : a ≠ w.mem.size := Nat.ne_of_lt (Memory.lt_size_of_read hold)
  show ((w.mem.alloc cell).1.read a).isSome = true
  rw [Memory.read_alloc_ne _ _ hne, hold, Option.isSome_some]

/-- On a live block the init procedure returns, and the block stays where it is. -/
theorem init_live (component : Component) {a : Addr} (hvar : w.var = some a) (hlive : (w.mem.read a).isSome) :
    ∃ w', init component w = some w' ∧ w'.var = some a ∧ (w'.mem.read a).isSome ∧ w'.deinits = w.deinits := by
  cases component with
  | fsm =>
    have hsignal : ((signalCtor w).1.mem.read a).isSome := allocCell_live (allocCell_live hlive _) _
    have hmutex : ((mutexCtor (signalCtor w).1).1.mem.read a).isSome := allocCell_live hsignal _
    obtain ⟨w', hwrite, hkept, hlive', hdeinits⟩ :=
      writeCell_live (w := { (mutexCtor (signalCtor w).1).1 with
          sysdatMutex := some (mutexCtor (signalCtor w).1).2 })
        hmutex (.fsm .stateHalt true (some (signalCtor w).2))
    refine ⟨w', ?_, hkept.trans hvar, hlive', hdeinits⟩
    simp only [init, hvar, Option.bind_eq_bind, Option.bind_some]
    exact hwrite
  | sgpuffer length =>
    have hpuffer : ((pufferCtor w length).1.mem.read a).isSome := allocCell_live hlive _
    have hsignal : ((signalCtor (pufferCtor w length).1).1.mem.read a).isSome :=
      allocCell_live (allocCell_live hpuffer _) _
    obtain ⟨w', hwrite, hkept, hlive', hdeinits⟩ := writeCell_live hsignal
      (.sgpuffer (some (pufferCtor w length).2) true true (some (signalCtor (pufferCtor w length).1).2))
    refine ⟨w', ?_, hkept.trans hvar, hlive', hdeinits⟩
    simp only [init, hvar, Option.bind_eq_bind, Option.bind_some]
    exact hwrite
  | recpuffer length =>
    have hpuffer : ((pufferCtor w length).1.mem.read a).isSome := allocCell_live hlive _
    have hspin : ((spinCtor (pufferCtor w length).1).1.mem.read a).isSome := allocCell_live hpuffer _
    obtain ⟨w', hwrite, hkept, hlive', hdeinits⟩ := writeCell_live hspin
      (.recpuffer (some (pufferCtor w length).2) true true (some (spinCtor (pufferCtor w length).1).2))
    refine ⟨w', ?_, hkept.trans hvar, hlive', hdeinits⟩
    simp only [init, hvar, Option.bind_eq_bind, Option.bind_some]
    exact hwrite

theorem cmpCtor_fresh (component : Component) (hvar : w.var = none) :
    ∃ w', cmpCtor component w = some w' ∧ Up w' ∧ w'.deinits = w.deinits := by
  have hlive : ((w.mem.alloc (zeroed component)).1.read w.mem.size).isSome = true := by
    rw [Memory.read_alloc_self, Option.isSome_some]
  obtain ⟨w₁, hinit, hvar₁, hlive₁, hdeinits⟩ :=
    init_live component (w := { (allocCell w (zeroed component)).1 with var := some w.mem.size }) rfl hlive
  refine ⟨{ w₁ with initialised := w₁.initialised ++ [w.mem.size] }, ?_, ?_, hdeinits⟩
  · simp only [cmpCtor, hvar, Option.bind_eq_bind]
    rw [show (allocCell w (zeroed component)).2 = w.mem.size from rfl, hinit]
    rfl
  · exact ⟨w.mem.size, hvar₁, hlive₁, List.mem_append_right _ (List.mem_singleton.mpr rfl)⟩

/-- Constructing again changes nothing. -/
theorem cmpCtor_up (h : Up w) : cmpCtor component w = some w := by
  obtain ⟨a, hvar, -, -⟩ := h
  rw [cmpCtor, hvar]

/-! ## Whole lives -/

/-- No destructor was called so far. -/
structure Standing (s : Life) : Prop where
  stage : s.last = none ∧ s.world.var = none ∨ s.last = some .ctor ∧ Up s.world
  deinits : s.world.deinits = []

theorem standing_atStart (mem : Memory Cell) : Standing (atStart mem) where
  stage := Or.inl ⟨rfl, rfl⟩
  deinits := rfl

theorem Standing.inOrder {s : Life} (h : Standing s) : InOrder s := by
  refine ⟨fun hctor => ?_, fun hdtor => ?_, fun right hright => ?_⟩
  · rcases h.stage with ⟨hlast, -⟩ | ⟨-, hup⟩
    · rw [hlast] at hctor
      cases hctor
    · exact hup
  · rcases h.stage with ⟨hlast, -⟩ | ⟨hlast, -⟩
    · rw [hlast] at hdtor
      cases hdtor
    · rw [hlast] at hdtor
      cases hdtor
  · rw [h.deinits] at hright
    cases hright

theorem Standing.ctor {s : Life} (h : Standing s) (itemDtor : Ptr → Memory Cell → Option (Memory Cell))
    (component : Component) :
    ∃ s', lifeStep itemDtor component s .ctor = some (s', ()) ∧ Standing s' := by
  rcases h.stage with ⟨-, hvar⟩ | ⟨-, hup⟩
  · obtain ⟨w, hctor, hup, hdeinits⟩ := cmpCtor_fresh component hvar
    refine ⟨{ world := w, last := some .ctor }, ?_, Or.inr ⟨rfl, hup⟩, hdeinits.trans h.deinits⟩
    rw [lifeStep, hctor, Option.map_some]
  · refine ⟨{ world := s.world, last := some .ctor }, ?_, Or.inr ⟨rfl, hup⟩, h.deinits⟩
    rw [lifeStep, cmpCtor_up hup, Option.map_some]

/-- A destructor that returns is out of order whatever was before it. -/
theorem dtor_not_inOrder {s s' : Life} (h : lifeStep itemDtor component s .dtor = some (s', ())) :
    ¬ InOrder s' := by
  intro hgood
  obtain ⟨w, hdtor, he⟩ := Option.map_eq_some_iff.mp h
  cases he
  obtain ⟨a, hvar, -⟩ := cmpDtor_dangling hdtor
  have hnull : w.var = none := hgood.gone rfl
  rw [hvar] at hnull
  cases hnull

theorem guarded_ctor_iff (itemDtor : Ptr → Memory Cell → Option (Memory Cell)) (component : Component) (s : Life)
    (calls : List Call) (h : Standing s) :
    Guarded (lifeStep itemDtor component) (fun _ call => call = .ctor) s calls ↔
      ∀ call ∈ calls, call = .ctor := by
  induction calls generalizing s with
  | nil => simp [Guarded]
  | cons call calls ih =>
    rw [List.forall_mem_cons]
    constructor
    · intro hg
      have hcall : call = .ctor := hg.1
      subst hcall
      obtain ⟨s', hstep, hstanding⟩ := h.ctor itemDtor component
      exact ⟨rfl, (ih s' hstanding).mp (hg.2 s' () hstep)⟩
    · intro hall
      obtain ⟨rfl, hrest⟩ := hall
      obtain ⟨s', hstep, hstanding⟩ := h.ctor itemDtor component
      exact (guarded_cons hstep).mpr ⟨rfl, (ih s' hstanding).mpr hrest⟩

/-- Exactly the lives without a destructor are in order throughout. -/
theorem life_cycle_iff (itemDtor : Ptr → Memory Cell → Option (Memory Cell)) (component : Component)
    (mem : Memory Cell) (calls : List Call) :
    Restartable itemDtor component mem calls ↔ ∀ call ∈ calls, call = .ctor := by
  rw [← guarded_ctor_iff itemDtor component _ calls (standing_atStart mem)]
  refine returns_iff_guarded (fun s (h : Standing s) => h.inOrder) ?_ ?_ (standing_atStart mem) calls
  · intro s call h hcall
    subst hcall
    obtain ⟨s', hstep, hstanding⟩ := h.ctor itemDtor component
    exact ⟨s', (), hstep, hstanding⟩
  · intro s call s' out _ hcall hstep
    cases call with
    | ctor => exact absurd rfl hcall
    | dtor => exact dtor_not_inOrder hstep

/-- Construct and destruct a recycle puffer: the variable keeps its address, the next
destructor faults, and so does one that comes first. -/
theorem life_cycle_breaks :
    (∃ s outs, run (lifeStep (fun _ mem => some mem) (.recpuffer 2)) (atStart ⟨[]⟩) [.ctor, .dtor] = some (s, outs) ∧
      s.world.var = some 0 ∧ s.world.mem.read 0 = none) ∧
    run (lifeStep (fun _ mem => some mem) (.recpuffer 2)) (atStart ⟨[]⟩) [.ctor, .dtor, .dtor] = none ∧
    run (lifeStep (fun _ mem => some mem) (.recpuffer 2)) (atStart ⟨[]⟩) [.dtor] = none ∧
    ¬ Restartable (fun _ mem => some mem) (.recpuffer 2) ⟨[]⟩ [.ctor, .dtor] := by
  refine ⟨⟨_, _, rfl, by decide, by decide⟩, by decide, by decide, fun h => ?_⟩
  obtain ⟨s, outs, hrun, hgood⟩ := h 2
  cases hrun
  have hnull := hgood.gone rfl
  cases hnull

end Devclego.Components
