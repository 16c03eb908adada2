import Mathlib.Data.List.Range
import Devclego.Foundation.Wrapping
import Devclego.Sliding.Addition

/-!
# Windows of integers

The storage of an integer window has one slot more than the window has items. Items
are numbered as they are added, and item `j` lies in slot `j % len`: as the tracked
items have consecutive numbers and are fewer than the slots, a store never touches a
slot that a tracked item points to. A window whose number of slots is no word has none,
and its first addition writes through null.
-/
namespace Devclego.Sliding

open Foundation Devclego.Puffers

variable {ω : Type}

/-- The value behind a data pointer. -/
def valueAt (storage : Swstorage) (data : Option IntRef) : Option Int := data.bind (IntRef.deref storage)

/-- The slots of `n` items numbered from `first` on. -/
def slotsFrom (len first n : Nat) : List (Option IntRef) :=
  (List.range' first n).map fun j => some (.slot (j % len))

theorem length_slotsFrom (len first n : Nat) : (slotsFrom len first n).length = n := by
  rw [slotsFrom, List.length_map, List.length_range']

theorem slotsFrom_append (len first m n : Nat) :
    slotsFrom len first m ++ slotsFrom len (first + m) n = slotsFrom len first (m + n) := by
  rw [slotsFrom, slotsFrom, slotsFrom, ← List.map_append, List.range'_append_1]

/-- The next slot is none of the slots of fewer items than there are slots. -/
theorem slot_fresh {len first n : Nat} (hn : n < len) :
    some (IntRef.slot ((first + n) % len)) ∉ slotsFrom len first n := by
  intro hmem
  obtain ⟨j, hj, hsame⟩ := List.mem_map.mp hmem
  obtain ⟨hge, hlt⟩ := List.mem_range'_1.mp hj
  obtain ⟨i, rfl⟩ : ∃ i, j = first + i := ⟨j - first, by omega⟩
  have hslot : (first + i) % len = (first + n) % len := by
    injection hsame with h
    injection h
  have hi : i = n := ring_index_inj (by omega) hn hslot
  omega

/-- The storage when the live items are those that `refs` points to. -/
structure Slots (storage : Swstorage) (len first : Nat) (refs : List (Option IntRef)) : Prop where
  length_eq : storage.length.toInt = len
  rows_eq : storage.storage.length = len
  index_eq : storage.index = (first + refs.length) % len
  slots : refs = slotsFrom len first refs.length
  valued : ∀ ref ∈ refs, ∃ value, valueAt storage ref = some value

/-- The length of a new storage, as long as it fits in the word. -/
theorem length_make {n : Nat} (hn : n < 2147483647) : (makeSwstorageInt32 n).length.toInt = n + 1 := by
  have hcast : (Int32.ofNat n).toInt = n := toInt_ofNat_of_lt (by omega)
  change (Int32.ofNat n + 1).toInt = n + 1
  rw [toInt_succ (by omega), hcast]

theorem slots_make {n : Nat} (hn : n < 2147483647) : Slots (makeSwstorageInt32 n) (n + 1) 0 [] where
  length_eq := length_make hn
  rows_eq := by
    have hlen : (Int32.ofNat n + 1).toInt = n + 1 := length_make hn
    change (List.replicate (Int32.ofNat n + 1).toInt.toNat none).length = n + 1
    rw [List.length_replicate, hlen]
    rfl
  index_eq := (Nat.zero_mod _).symm
  slots := rfl
  valued := by simp

variable {storage : Swstorage} {len first : Nat} {refs : List (Option IntRef)}

/-- Giving up the oldest items only moves the numbering. -/
theorem Slots.evict {gone kept : List (Option IntRef)} (h : Slots storage len first (gone ++ kept)) :
    Slots storage len (first + gone.length) kept where
  length_eq := h.length_eq
  rows_eq := h.rows_eq
  index_eq := by rw [h.index_eq, List.length_append, Nat.add_assoc]
  slots := by
    have hs := h.slots
    rw [List.length_append, ← slotsFrom_append] at hs
    exact (List.append_inj hs (length_slotsFrom ..).symm).2
  valued ref href := h.valued ref (List.mem_append_right _ href)

theorem Slots.index_fresh (h : Slots storage len first refs) (hroom : refs.length < len) :
    some (IntRef.slot storage.index) ∉ refs := by
  rw [h.slots, h.index_eq]
  exact slot_fresh hroom

/-- The storage after a value has been copied to the next slot. -/
def afterStore (storage : Swstorage) (value : Int) : Swstorage :=
  { storage with
    storage := storage.storage.set storage.index (some value)
    index := if Int32.ofNat (storage.index + 1) = storage.length then 0 else storage.index + 1 }

theorem Slots.index_lt (h : Slots storage len first refs) (hlen : 0 < len) : storage.index < storage.storage.length := by
  rw [h.rows_eq, h.index_eq]
  exact Nat.mod_lt _ hlen

theorem Slots.index_next (h : Slots storage len first refs) (hlen : 0 < len) (value : Int) :
    (afterStore storage value).index = (first + (refs.length + 1)) % len := by
  have hlt := h.index_lt hlen
  have hwrap : (afterStore storage value).index = (storage.index + 1) % len := by
    unfold afterStore
    rw [h.rows_eq] at hlt
    have hword := toInt_bounds storage.length
    have hlength := h.length_eq
    have hnext : (Int32.ofNat (storage.index + 1)).toInt = (storage.index + 1 : Nat) :=
      toInt_ofNat_of_lt (by omega)
    rw [← ring_wrap hlt]
    by_cases hlast : storage.index + 1 = len
    · rw [if_pos (Int32.toInt.inj (by omega)), if_pos hlast.ge]
    · have hne : Int32.ofNat (storage.index + 1) ≠ storage.length := by
        intro hc
        rw [hc] at hnext
        omega
      rw [if_neg hne, if_neg (by omega)]
  rw [hwrap, h.index_eq, Nat.mod_add_mod, Nat.add_assoc]

theorem valueAt_stored (hlt : storage.index < storage.storage.length) (value : Int) :
    valueAt (afterStore storage value) (some (.slot storage.index)) = some value := by
  simp [valueAt, IntRef.deref, afterStore, hlt]

/-- Other pointers lead to what they led to. -/
theorem valueAt_other {ref : Option IntRef} (hne : ref ≠ some (.slot storage.index)) (value : Int) :
    valueAt (afterStore storage value) ref = valueAt storage ref := by
  cases ref with
  | none => rfl
  | some ref =>
    cases ref with
    | item _ => rfl
    | slot i =>
      have hi : storage.index ≠ i := by
        intro hc
        exact hne (by rw [hc])
      simp [valueAt, IntRef.deref, afterStore, List.getElem?_set_ne hi]

/-- A store fills the next slot and leaves the values of the live items alone. -/
theorem Slots.store (h : Slots storage len first refs) (hroom : refs.length < len) (value : Int) :
    ∃ storage', swstorageStoreInt32 (some (.item value)) storage = some (some (.slot storage.index), storage') ∧
      Slots storage' len first (refs ++ [some (.slot storage.index)]) ∧
      valueAt storage' (some (.slot storage.index)) = some value ∧
      ∀ ref ∈ refs, valueAt storage' ref = valueAt storage ref := by
  have hlen : 0 < len := by omega
  have hlt := h.index_lt hlen
  have hnew := valueAt_stored hlt value
  have hold : ∀ ref ∈ refs, valueAt (afterStore storage value) ref = valueAt storage ref := by
    intro ref href
    exact valueAt_other (ne_of_mem_of_not_mem href (h.index_fresh hroom)) value
  have hstore : swstorageStoreInt32 (some (.item value)) storage =
      some (some (.slot storage.index), afterStore storage value) := by
    simp only [swstorageStoreInt32, IntRef.deref, afterStore, Option.bind_eq_bind, Option.bind_some, if_pos hlt]
  refine ⟨_, hstore, ⟨h.length_eq, ?_, ?_, ?_, ?_⟩, hnew, hold⟩
  · unfold afterStore
    rw [List.length_set, h.rows_eq]
  · rw [h.index_next hlen, List.length_append, List.length_singleton]
  · have hone : slotsFrom len (first + refs.length) 1 = [some (.slot storage.index)] := by
      rw [h.index_eq]
      rfl
    rw [List.length_append, List.length_singleton, ← slotsFrom_append, ← h.slots, hone]
  · intro ref href
    rcases List.mem_append.mp href with href | href
    · rw [hold ref href]
      exact h.valued ref href
    · rw [List.mem_singleton.mp href]
      exact ⟨value, hnew⟩

/-! ## The window -/

/-- The plugins leave the storage alone. -/
def Harmless (plugins : List (Swplugin IntRef (IntWorld ω))) : Prop :=
  ∀ swplugin ∈ plugins, ∀ kind pipe, swplugin.pipe kind = some pipe →
    ∀ data world, (pipe data world).swstorage = world.swstorage

/-- A plugin with both pipes on a record of its own. -/
theorem harmless_of_rest (rem add : Option IntRef → IntWorld ω → ω) :
    Harmless [{ remPipe := some fun data world => { world with rest := rem data world }
                addPipe := some fun data world => { world with rest := add data world } }] := by
  intro swplugin hmem kind pipe hpipe data world
  rw [List.mem_singleton.mp hmem] at hpipe
  cases kind with
  | add =>
    cases hpipe
    rfl
  | rem =>
    cases hpipe
    rfl

theorem Harmless.pipeWorld {plugins : List (Swplugin IntRef (IntWorld ω))} (h : Harmless plugins) (kind : Kind)
    (data : Option IntRef) (world : IntWorld ω) : (pipeWorld kind data plugins world).swstorage = world.swstorage := by
  induction plugins generalizing world with
  | nil => rfl
  | cons swplugin next ih =>
    rw [Sliding.pipeWorld, ih fun p hp => h p (List.mem_cons_of_mem _ hp)]
    cases hpipe : swplugin.pipe kind with
    | none => rfl
    | some pipe => exact h swplugin (List.mem_cons_self ..) kind pipe hpipe data world

theorem Harmless.tell {plugins : List (Swplugin IntRef (IntWorld ω))} (h : Harmless plugins)
    (events : List (Kind × Option IntRef)) (s : IntWorld ω × List (Notice IntRef)) :
    (tell plugins events s).1.swstorage = s.1.swstorage := by
  induction events generalizing s with
  | nil => rfl
  | cons e events ih =>
    obtain ⟨world, notices⟩ := s
    rw [Sliding.tell, ih, callPipes_eq]
    exact h.pipeWorld e.1 e.2 world

structure IntTracks (this : Slidingwindow IntRef (IntWorld ω)) (n first : Nat)
    (q : List (Addr × Slidingwindowitem IntRef)) (spare : List Addr) : Prop where
  tracks : Tracks this q spare
  numLimit_eq : this.numLimit = n
  storage_eq : this.storage = some intStore
  harmless : Harmless this.plugins
  slots : Slots this.world.swstorage (n + 1) first (datas q)

theorem intTracks_ctor {n : Nat} (hn : 1 ≤ n) (hfit : n < 2147483647) (timeLimit : Exact) (rest : ω) :
    IntTracks (slidingwindowInt32Ctor n timeLimit rest) n 0 [] [] := by
  have hpos : (if n = 0 then 32 else n) = n := if_neg (by omega)
  refine ⟨tracks_ctor .., hpos, rfl, by simp [Harmless, slidingwindowInt32Ctor, slidingwindowCtor], ?_⟩
  show Slots (makeSwstorageInt32 (if n = 0 then 32 else n)) (n + 1) 0 []
  rw [hpos]
  exact slots_make hfit

variable {this this' : Slidingwindow IntRef (IntWorld ω)} {n : Nat}
  {q gone kept : List (Addr × Slidingwindowitem IntRef)} {spare spare' : List Addr}

theorem Evicted.swstorage (h : Evicted this this' gone) (hplugins : Harmless this.plugins) :
    this'.world.swstorage = this.world.swstorage :=
  (congrArg (fun s => s.1.swstorage) h.told).trans (hplugins.tell _ _)

theorem IntTracks.evict (h : IntTracks this n first (gone ++ kept) spare) (h' : Tracks this' kept spare')
    (hev : Evicted this this' gone) : IntTracks this' n (first + gone.length) kept spare' where
  tracks := h'
  numLimit_eq := hev.setup.numLimit.trans h.numLimit_eq
  storage_eq := hev.setup.storage.trans h.storage_eq
  harmless := by
    rw [hev.setup.plugins]
    exact h.harmless
  slots := by
    have hs := h.slots
    rw [datas_append] at hs
    rw [hev.swstorage h.harmless, ← List.length_map (fun u : Addr × Slidingwindowitem IntRef => u.2.data)]
    exact hs.evict

/-- Behind a refresh an integer goes to the next slot. -/
theorem IntTracks.place (pushed : Mtime) (h : IntTracks this n first q spare) (hroom : q.length < n) (value : Int) :
    ∃ storage' this' item spare', placeData pushed this (some (.item value)) =
        some (this', some (.slot this.world.swstorage.index)) ∧
      IntTracks this' n first (q ++ [(item, ⟨some (.slot this.world.swstorage.index), pushed⟩)]) spare' ∧
      SameSetup this this' ∧
      this'.world = pipeWorld .add (some (.slot this.world.swstorage.index)) this.plugins
        { this.world with swstorage := storage' } ∧
      this'.world.swstorage = storage' ∧
      valueAt storage' (some (.slot this.world.swstorage.index)) = some value ∧
      ∀ ref ∈ datas q, valueAt storage' ref = valueAt this.world.swstorage ref := by
  have hlen : (datas q).length < n + 1 := by
    rw [datas, List.length_map]
    omega
  obtain ⟨storage', hstore, hslots, hvalue, hold⟩ := h.slots.store hlen value
  have hstored : stored this (some (.item value)) =
      some (some (.slot this.world.swstorage.index), { this.world with swstorage := storage' }) := by
    rw [stored, h.storage_eq]
    simp only [intStore, hstore, Option.bind_eq_bind, Option.bind_some]
  have hroom' : q.length < this.numLimit := by rw [h.numLimit_eq]; exact hroom
  rcases placeData_spec pushed h.tracks hroom' (some (.item value)) with ⟨hnone, -⟩ | hsome
  · rw [hstored] at hnone
    cases hnone
  · obtain ⟨dst, world, this', item, spare', hdst, hplace, h', hs', htold⟩ := hsome
    cases hstored.symm.trans hdst
    have hworld : this'.world = pipeWorld .add (some (.slot this.world.swstorage.index)) this.plugins
        { this.world with swstorage := storage' } := by
      refine (congrArg Prod.fst htold).trans ?_
      simp only [tell, callPipes_eq]
    have hstorage : this'.world.swstorage = storage' := by
      rw [hworld, h.harmless.pipeWorld]
    refine ⟨storage', this', item, spare', hplace, ⟨h', hs'.numLimit.trans h.numLimit_eq,
      hs'.storage.trans h.storage_eq, ?_, ?_⟩, hs', hworld, hstorage, hvalue, hold⟩
    · rw [hs'.plugins]
      exact h.harmless
    · rw [hstorage, datas_append]
      exact hslots

/-! ## A storage without slots -/

theorem store_overflowed {storage : Swstorage} (h : storage.storage = []) (src : Option IntRef) :
    swstorageStoreInt32 src storage = none := by
  have hslot : ¬ storage.index < storage.storage.length := by
    rw [h]
    exact Nat.not_lt_zero _
  cases src with
  | none => rfl
  | some src =>
    simp only [swstorageStoreInt32, if_neg hslot, Option.bind_eq_bind, Option.bind_some]
    cases src.deref storage <;> rfl

/-- An addition to a window without slots has no result. -/
theorem addInt_overflowed (h : Tracks this q spare) (hstorage : this.storage = some intStore)
    (hplugins : Harmless this.plugins) (hslots : this.world.swstorage.storage = []) (clock : Nat → Mtime)
    (item : Int) : slidingwindowAddInt clock this item = none := by
  obtain ⟨this1, k, gone, kept, spare1, hrefresh, hq, h1, hev, hroom, -⟩ := slidingwindowRefresh_spec clock h
  rw [← hev.setup.numLimit] at hroom
  have hslots1 : this1.world.swstorage.storage = [] := by rw [hev.swstorage hplugins, hslots]
  have hstored : stored this1 (some (.item item)) = none := by
    rw [stored, hev.setup.storage, hstorage]
    simp only [intStore, store_overflowed hslots1, Option.bind_eq_bind, Option.bind_none]
  rw [slidingwindowAddInt, slidingwindowAddData_eq, hrefresh, Option.bind_some]
  rcases placeData_spec (clock k) h1 hroom (some (.item item)) with ⟨-, hplace⟩ | ⟨dst, world, -, -, -, hdst, -⟩
  · exact hplace
  · rw [hstored] at hdst
    cases hdst

/-- The number of slots of the longest window is no word. -/
theorem slots_overflowed (timeLimit : Exact) (rest : ω) :
    (slidingwindowInt32Ctor 2147483647 timeLimit rest).world.swstorage.storage = [] := rfl

end Devclego.Sliding
