import Devclego.Foundation.Machine
import Devclego.Sliding.Eviction

/-!
# What an addition does to a window

An addition is a refresh, the storing of the data and an announcement, with the item
put behind what the refresh has left. A call of a window is one of the functions of
the header; `Tracks` is kept by each of them and holds in every run.
-/
namespace Devclego.Sliding

open Foundation Devclego.Puffers

variable {P ω : Type} {this : Slidingwindow P ω} {q : List (Addr × Slidingwindowitem P)} {spare : List Addr}

theorem tracks_ctor (numLimit : Nat) (timeLimit : Exact) (storageMaker : Option (Nat → ω → Store P ω × ω))
    (world : ω) : Tracks (slidingwindowCtor numLimit timeLimit storageMaker world) [] [] where
  tracked := by
    apply Datapuffer.holds_ctor
    split <;> omega
  pool := by
    apply Datapuffer.holds_ctor
    split <;> omega
  cells := by simp
  pooled := by simp
  distinct := List.nodup_nil

/-- The record of a new item is live and in neither ring. -/
theorem makeItem_spec (h : Tracks this q spare) :
    ∃ this' item spare', makeItem this = some (this', item) ∧ Tracks this' q spare' ∧
      item ∉ q.map Prod.fst ++ spare' ∧ (∃ cell, this'.mem.read item = some cell) ∧ SameSetup this this' ∧
      this'.world = this.world ∧ this'.notices = this.notices := by
  cases spare with
  | nil =>
    have he : datapufferIsempty this.recycle = true := h.pool.isempty_iff.mpr rfl
    have hlive : ∀ u ∈ q, u.1 ≠ this.mem.size := by
      intro u hu
      exact (Memory.lt_size_of_read (h.cells u hu)).ne
    have hmake : makeItem this =
        some ({ this with mem := (this.mem.alloc { data := none, pushed := Mtime.zero }).1 }, this.mem.size) := by
      rw [makeItem, if_pos he]
      rfl
    refine ⟨_, this.mem.size, [], hmake,
      ⟨h.tracked, h.pool, fun u hu => ?_, by simp, h.distinct⟩, ?_, ⟨_, Memory.read_alloc_self _ _⟩,
      ⟨rfl, rfl, rfl, rfl⟩, rfl, rfl⟩
    · exact (Memory.read_alloc_ne _ _ (hlive u hu)).trans (h.cells u hu)
    · rw [List.append_nil]
      intro hc
      obtain ⟨u, hu, hsame⟩ := List.mem_map.mp hc
      exact hlive u hu hsame
  | cons a spare =>
    have he : ¬ datapufferIsempty this.recycle = true := by
      rw [h.pool.isempty_iff]
      exact List.cons_ne_nil a spare
    obtain ⟨cell, hcell⟩ := Option.isSome_iff_exists.mp (h.pooled a (List.mem_cons_self ..))
    have hdistinct : a ∉ q.map Prod.fst ++ spare ∧ (q.map Prod.fst ++ spare).Nodup := by
      have hd := h.distinct
      rwa [List.perm_middle.nodup_iff, List.nodup_cons] at hd
    obtain ⟨hfresh, hnodup⟩ := hdistinct
    have hpair : datapufferRead this.recycle = ((datapufferRead this.recycle).1, some a) :=
      Prod.ext rfl h.pool.read_result
    have hwrite := this.mem.write_live hcell { data := none, pushed := Mtime.zero }
    have hmake : makeItem this = some ({ this with
        recycle := (datapufferRead this.recycle).1
        mem := this.mem.set a (some { data := none, pushed := Mtime.zero }) }, a) := by
      rw [makeItem, if_neg he, hpair]
      simp only [Option.bind_eq_bind, Option.bind_some, hwrite]
    refine ⟨_, a, spare, hmake, ⟨h.tracked, h.pool.read, fun u hu => ?_, fun b hb => ?_, hnodup⟩, hfresh,
      ⟨_, Memory.read_set_self hcell _⟩, ⟨rfl, rfl, rfl, rfl⟩, rfl, rfl⟩
    · have hne : u.1 ≠ a := fun hc => hfresh (List.mem_append_left _ (hc ▸ List.mem_map_of_mem hu))
      exact (Memory.read_set_ne _ hne _).trans (h.cells u hu)
    · have hne : b ≠ a := fun hc => hfresh (List.mem_append_right _ (hc ▸ hb))
      exact (congrArg Option.isSome (Memory.read_set_ne _ hne _)).trans (h.pooled b (List.mem_cons_of_mem _ hb))

/-- The pointer that the storage gives for the data, and the world after the storing. -/
def stored (this : Slidingwindow P ω) (data : Option P) : Option (Option P × ω) :=
  match this.storage with
  | none => some (data, this.world)
  | some store => store data this.world

theorem storeData_eq (this : Slidingwindow P ω) (data : Option P) :
    storeData this data = (stored this data).map fun r => ({ this with world := r.2 }, r.1) := by
  obtain ⟨mem, recycle, trackeditems, plugins, storage, numLimit, timeLimit, world, notices⟩ := this
  cases storage with
  | none => rfl
  | some store => exact Option.map_eq_bind.symm

theorem stored_congr {this this' : Slidingwindow P ω} (hs : SameSetup this this') (hw : this'.world = this.world)
    (data : Option P) : stored this' data = stored this data := by
  rw [stored, stored, hs.storage, hw]

/-- The part of an addition behind the refresh. -/
def placeData (pushed : Mtime) (this : Slidingwindow P ω) (data : Option P) :
    Option (Slidingwindow P ω × Option P) := do
  let (this, item) ← makeItem this
  let (this, data) ← storeData this data
  let mem ← this.mem.write item { data := data, pushed := pushed }
  let this := { this with mem := mem, trackeditems := datapufferWrite this.trackeditems item }
  some (notify .add data this, data)

theorem slidingwindowAddData_eq (clock : Nat → Mtime) (this : Slidingwindow P ω) (data : Option P) :
    slidingwindowAddData clock this data =
      (slidingwindowRefresh clock this).bind fun r => placeData (clock r.2) r.1 data := rfl

/-- With room in the ring, the addition returns if the storage does. -/
theorem placeData_spec (pushed : Mtime) (h : Tracks this q spare) (hroom : q.length < this.numLimit)
    (data : Option P) :
    (stored this data = none ∧ placeData pushed this data = none) ∨
    ∃ dst world this' item spare', stored this data = some (dst, world) ∧
      placeData pushed this data = some (this', dst) ∧
      Tracks this' (q ++ [(item, ⟨dst, pushed⟩)]) spare' ∧ SameSetup this this' ∧
      (this'.world, this'.notices) = tell this.plugins [(.add, dst)] (world, this.notices) := by
  obtain ⟨this1, item, spare', hmake, h1, hfresh, ⟨cell, hcell⟩, hs1, hw1, hn1⟩ := makeItem_spec h
  have hstored1 : stored this1 data = stored this data := stored_congr hs1 hw1 data
  cases hstored : stored this data with
  | none =>
    refine Or.inl ⟨rfl, ?_⟩
    simp only [placeData, hmake, storeData_eq, hstored1, hstored, Option.bind_eq_bind, Option.bind_some,
      Option.map_none, Option.bind_none]
  | some r =>
    obtain ⟨dst, world⟩ := r
    have hwrite := this1.mem.write_live hcell { data := dst, pushed := pushed }
    have hother : ∀ b ∈ q.map Prod.fst ++ spare', b ≠ item := by
      intro b hb hc
      exact hfresh (hc ▸ hb)
    have hroom1 : (q.map Prod.fst).length < this1.numLimit := by
      rw [List.length_map, hs1.numLimit]
      exact hroom
    have hplace : placeData pushed this data = some (notify .add dst { this1 with
        world := world
        mem := this1.mem.set item (some { data := dst, pushed := pushed })
        trackeditems := datapufferWrite this1.trackeditems item }, dst) := by
      simp only [placeData, hmake, storeData_eq, hstored1, hstored, Option.bind_eq_bind, Option.bind_some,
        Option.map_some, hwrite]
    refine Or.inr ⟨dst, world, _, item, spare', rfl, hplace, ?_, ?_, ?_⟩
    · refine ⟨?_, h1.pool, fun u hu => ?_, fun a ha => ?_, ?_⟩
      · rw [List.map_append]
        exact h1.tracked.write hroom1 item
      · rcases List.mem_append.mp hu with hu | hu
        · have hne := hother u.1 (List.mem_append_left _ (List.mem_map_of_mem hu))
          exact (Memory.read_set_ne _ hne _).trans (h1.cells u hu)
        · rw [List.mem_singleton.mp hu]
          exact Memory.read_set_self hcell _
      · have hne := hother a (List.mem_append_right _ ha)
        exact (congrArg Option.isSome (Memory.read_set_ne _ hne _)).trans (h1.pooled a ha)
      · have hperm : (q.map Prod.fst ++ [item] ++ spare').Perm (item :: (q.map Prod.fst ++ spare')) := by
          rw [List.append_assoc]
          exact List.perm_middle
        rw [List.map_append, List.map_singleton, hperm.nodup_iff]
        exact List.nodup_cons.mpr ⟨hfresh, h1.distinct⟩
    · exact hs1.trans ⟨rfl, rfl, rfl, rfl⟩
    · rw [← hs1.plugins, ← hn1]
      rfl

end Devclego.Sliding
