import Devclego.Puffers.MultiRead

/-!
# The write capacity that a multi-read puffer reports

The capacity is computed from `start`, which may lag behind the first item. While the
end is ahead of the start the formula counts one slot too many, the slot of `start`
itself, so the report can be used only when that slot is a hole.
-/
namespace Devclego.Puffers

open Foundation

variable {α : Type}

inductive CapacityOp (α : Type) where
  | write (item : α)
  | setreadindex (plus : Int)
  | read
deriving DecidableEq, Repr

def capacityStep (puffer : Mdatapuffer α) : CapacityOp α → Option (Mdatapuffer α × Option α)
  | .write item => (mdatapufferWrite puffer item).map (·, none)
  | .setreadindex plus => (mdatapufferSetreadindex puffer plus).map (·, none)
  | .read => mdatapufferRead puffer

/-- A write goes to an empty slot. -/
def Spares (puffer : Mdatapuffer α) : Prop := puffer.items[puffer.endIndex]? = some none

/-- What callers may do: writes that overwrite nothing, and reads while the reported read
capacity is positive. -/
def Allowed (puffer : Mdatapuffer α) : CapacityOp α → Prop
  | .write _ => Spares puffer
  | .setreadindex _ => True
  | .read => 0 < mdatapufferReadcapacity puffer

instance [DecidableEq α] (puffer : Mdatapuffer α) : Decidable (Spares puffer) :=
  inferInstanceAs (Decidable (_ = _))

instance [DecidableEq α] (puffer : Mdatapuffer α) : (op : CapacityOp α) → Decidable (Allowed puffer op)
  | .write _ => inferInstanceAs (Decidable (Spares puffer))
  | .setreadindex _ => isTrue trivial
  | .read => inferInstanceAs (Decidable (_ < _))

/-- Writes in a row. -/
def writeStep (puffer : Mdatapuffer α) (item : α) : Option (Mdatapuffer α × Unit) :=
  (mdatapufferWrite puffer item).map (·, ())

/-- As many writes as reported overwrite nothing, and the report is at most the free places. -/
structure CapacityUsable (puffer : Mdatapuffer α) : Prop where
  writes : ∀ items : List α, (items.length : Int) = mdatapufferWritecapacity puffer →
    Guarded writeStep (fun puffer _ => Spares puffer) puffer items
  bounded : mdatapufferWritecapacity puffer ≤ puffer.length - puffer.count

/-- A puffer without items, by its count, stores none; otherwise the end is not ahead of the
start, or the slot of the start is a hole. -/
def CapacityRight (puffer : Mdatapuffer α) : Prop :=
  (puffer.count = 0 → ∀ item ∈ puffer.items, item = none) ∧
    (puffer.count ≠ 0 → puffer.start < puffer.endIndex → puffer.items[puffer.start]? = some none)

/-- No write takes the slot of the start, unless the puffer stores nothing. -/
def KeepsStart (puffer : Mdatapuffer α) : CapacityOp α → Prop
  | .write _ => puffer.endIndex = puffer.start → ∀ item ∈ puffer.items, item = none
  | _ => True

namespace Mdatapuffer

/-- The items stand between the start and the end, and the count is not above their number. -/
structure Spans (puffer : Mdatapuffer α) (len : Nat) (cells : List (Option α)) : Prop where
  holds : ({ puffer with count := cells.reduceOption.length } : Mdatapuffer α).Holds len cells
  count_le : puffer.count ≤ cells.reduceOption.length

variable {puffer puffer' : Mdatapuffer α} {len : Nat} {cells pre post : List (Option α)} {x : α}

theorem Holds.recount (h : puffer.Holds len cells) (readIndex : Nat) (plus : Int) (read : Option α) (count : Int)
    (hcount : count ≤ cells.reduceOption.length) :
    ({ puffer with count := count, readIndex := readIndex, plus := plus, read := read } :
      Mdatapuffer α).Spans len cells where
  holds := ⟨h.length_eq, h.items_length, h.start_lt, h.fits, h.end_eq, rfl, h.slots⟩
  count_le := hcount

theorem spans_ctor (hlen : 0 < len) (plus : Int) (read : Option α) :
    (mdatapufferCtor len plus read).Spans len [] :=
  (holds_ctor hlen plus read).recount 0 plus read 0 (Int.le_refl 0)

theorem Spans.items_length (h : puffer.Spans len cells) : puffer.items.length = len := h.holds.items_length

theorem Spans.end_lt (h : puffer.Spans len cells) : puffer.endIndex < len := h.holds.end_lt

theorem Spans.start_lt (h : puffer.Spans len cells) : puffer.start < len := h.holds.start_lt

theorem Spans.slot (h : puffer.Spans len cells) {j : Nat} (hj : j < len) :
    puffer.items[(puffer.start + j) % len]? = some cells[j]?.join := by
  have hslot := h.holds.slots j (by rw [h.holds.items_length]; exact hj)
  rwa [h.holds.items_length] at hslot

/-- No slot stores an item just when no cell does. -/
theorem Spans.none_iff (h : puffer.Spans len cells) :
    (∀ item ∈ puffer.items, item = none) ↔ cells.reduceOption = [] := by
  have helements := h.holds.slots.elements (by rw [h.holds.items_length]; exact h.holds.fits)
  rw [← helements, List.reduceOption, List.filterMap_eq_nil_iff]
  simp only [List.mem_rotate, id_eq]

/-! ## The three operations -/

theorem Spans.write (h : puffer.Spans len cells) (hc : cells.length < len) (item : α) :
    ∃ puffer', mdatapufferWrite puffer item = some puffer' ∧ puffer'.Spans len (cells ++ [some item]) := by
  obtain ⟨next, hwrite, hholds⟩ := write_spec h.holds hc item
  have hin : puffer.endIndex < puffer.items.length := by
    rw [h.items_length]
    exact h.end_lt
  rw [mdatapufferWrite, if_pos hin] at hwrite
  cases hwrite
  refine ⟨_, by rw [mdatapufferWrite, if_pos hin], ?_⟩
  have hcount := h.count_le
  refine hholds.recount puffer.readIndex puffer.plus puffer.read (puffer.count + 1) ?_
  rw [List.reduceOption_append, List.length_append, List.reduceOption_cons_of_some, List.length_cons]
  push_cast
  omega

/-- Where the end meets the start of a puffer without items, its holes can be forgotten. -/
theorem Spans.forget (h : puffer.Spans len cells) (hmeet : puffer.endIndex = puffer.start)
    (hnone : ∀ item ∈ puffer.items, item = none) : puffer.Spans len [] := by
  have hempty := h.none_iff.mp hnone
  have hcount := h.count_le
  have hstart := h.start_lt
  rw [hempty] at hcount
  refine ⟨⟨h.holds.length_eq, h.items_length, hstart, Nat.zero_le _, ?_, rfl, h.holds.slots.forget hempty⟩, hcount⟩
  show puffer.endIndex = (puffer.start + 0) % len
  rw [hmeet, Nat.add_zero, Nat.mod_eq_of_lt hstart]

theorem setStart_congr (next puffer : Mdatapuffer α) (hitems : next.items = puffer.items)
    (hlength : next.length = puffer.length) (fuel start : Nat) :
    setStart next fuel start = setStart puffer fuel start := by
  induction fuel generalizing start with
  | zero => rfl
  | succ fuel ih =>
    rw [setStart, setStart, hitems, hlength]
    congr 1
    funext slot
    cases slot with
    | none => exact ih _
    | some x => rfl

/-- Without items the loop for the first readable one does not end. -/
theorem setStart_none (hnone : ∀ item ∈ puffer.items, item = none) (fuel start : Nat) :
    setStart puffer fuel start = none := by
  induction fuel generalizing start with
  | zero => rfl
  | succ fuel ih =>
    rw [setStart]
    cases hslot : puffer.items[start]? with
    | none => rfl
    | some slot =>
      cases hnone slot (List.mem_of_getElem? hslot)
      exact ih _

theorem Spans.setreadindex (h : puffer.Spans len cells) {plus : Int}
    (hstep : mdatapufferSetreadindex puffer plus = some puffer') : ∃ cells', puffer'.Spans len cells' := by
  rw [mdatapufferSetreadindex] at hstep
  split at hstep
  next =>
    cases hstep
    exact ⟨cells, h.holds.recount puffer.readIndex plus puffer.read puffer.count h.count_le⟩
  next =>
    obtain ⟨start, hstart, hstep⟩ := Option.bind_eq_some_iff.mp hstep
    cases hcells : cells.reduceOption with
    | nil =>
      have hnone : ∀ item ∈ ({ puffer with plus := plus } : Mdatapuffer α).items, item = none :=
        h.none_iff.mpr hcells
      rw [setStart_none hnone] at hstart
      cases hstart
    | cons x xs =>
      obtain ⟨d, rest, rfl, hrest⟩ := reduceOption_eq_cons hcells
      have hlength : puffer.length = len := h.holds.length_eq
      have hd : d < puffer.length := by
        have hfits := h.holds.fits
        rw [List.length_append, List.length_replicate, List.length_cons] at hfits
        omega
      let counted : Mdatapuffer α :=
        { puffer with count := (List.replicate d none ++ some x :: rest).reduceOption.length }
      have hholds : counted.Holds len ([] ++ (List.replicate d none ++ some x :: rest)) := h.holds
      have hfirst := setStart_spec hholds hd
      rw [List.length_nil, Nat.add_zero, Nat.mod_eq_of_lt h.holds.start_lt, Nat.zero_add] at hfirst
      cases hstart.symm.trans ((setStart_congr { puffer with plus := plus } counted rfl rfl _ _).trans hfirst)
      have hcount := h.count_le
      rw [List.reduceOption_append, List.reduceOption_replicate_none, List.nil_append] at hcount
      have hmoved := h.holds.advance
      simp only at hstep
      split at hstep
      next =>
        cases hstep
        exact ⟨_, hmoved.recount puffer.readIndex plus puffer.read puffer.count hcount⟩
      next =>
        obtain ⟨readIndex, -, hstep⟩ := Option.bind_eq_some_iff.mp hstep
        cases hstep
        exact ⟨_, hmoved.recount readIndex plus puffer.read puffer.count hcount⟩

/-- What the loop of a read changes: it takes out one item, or none. -/
theorem scanRead_takes {fuel : Nat} (h : scanRead fuel puffer = some puffer') :
    (∃ readIndex, puffer' = { puffer with readIndex := readIndex, read := none }) ∨
      ∃ i x readIndex, puffer.items[i]? = some (some x) ∧
        puffer' = { puffer with items := puffer.items.set i none, readIndex := readIndex, read := some x } := by
  induction fuel generalizing puffer with
  | zero => cases h
  | succ fuel ih =>
    rw [scanRead] at h
    obtain ⟨slot, hslot, h⟩ := Option.bind_eq_some_iff.mp h
    generalize (if puffer.readIndex = puffer.length then 0 else puffer.readIndex) = i at h hslot
    cases slot with
    | some x =>
      cases h
      exact Or.inr ⟨i, x, _, hslot, rfl⟩
    | none =>
      simp only at h
      split at h
      next =>
        cases h
        exact Or.inl ⟨_, rfl⟩
      next =>
        rcases ih h with ⟨readIndex, rfl⟩ | ⟨i, x, readIndex, hi, rfl⟩
        · exact Or.inl ⟨readIndex, rfl⟩
        · exact Or.inr ⟨i, x, readIndex, hi, rfl⟩

theorem Spans.read (h : puffer.Spans len cells) {item : Option α}
    (hstep : mdatapufferRead puffer = some (puffer', item)) : ∃ cells', puffer'.Spans len cells' := by
  obtain ⟨next, hscan, he⟩ := Option.map_eq_some_iff.mp hstep
  cases he
  have hcount := h.count_le
  rcases scanRead_takes hscan with ⟨readIndex, rfl⟩ | ⟨i, x, readIndex, hi, rfl⟩
  · exact ⟨cells, h.holds.recount readIndex puffer.plus none (puffer.count - 1) (by omega)⟩
  · obtain ⟨pre, post, rfl, -, hplace⟩ := h.holds.slots.cell_of (by rw [h.holds.items_length]; exact h.start_lt) hi
    have hlength : puffer.items.length = len := h.items_length
    have hvacated := h.holds.vacate readIndex (some x)
    change (puffer.start + pre.length) % puffer.items.length = i at hplace
    rw [hlength] at hplace
    refine ⟨pre ++ none :: post, ?_⟩
    rw [← hplace]
    refine hvacated.recount readIndex puffer.plus (some x) (puffer.count - 1) ?_
    rw [List.reduceOption_append, List.reduceOption_cons_of_some, List.length_append, List.length_cons] at hcount
    rw [List.reduceOption_append, List.reduceOption_cons_of_none, List.length_append]
    omega

/-! ## Filling a puffer -/

theorem wrap_end {i : Nat} (hi : i < len) : (if i + 1 = len then 0 else i + 1) = (i + 1) % len := by
  have hwrap := wrap_next (Nat.zero_lt_of_lt hi) (s := i) (i := 0)
  rwa [show (i + 0) % len = i from Nat.mod_eq_of_lt hi] at hwrap

/-- Writes in a row go to the slots that follow each other from the end on. -/
theorem guarded_writes_iff (hlength : puffer.length = len) (hitems : puffer.items.length = len)
    (hend : puffer.endIndex < len) {items : List α} (hfew : items.length ≤ len) :
    Guarded writeStep (fun puffer _ => Spares puffer) puffer items ↔
      ∀ i < items.length, puffer.items[(puffer.endIndex + i) % len]? = some none := by
  induction items generalizing puffer with
  | nil => exact iff_of_true trivial fun i hi => absurd hi (Nat.not_lt_zero i)
  | cons item items ih =>
    have hlen : 0 < len := Nat.zero_lt_of_lt hend
    have hfirst : (puffer.endIndex + 0) % len = puffer.endIndex := by rw [Nat.add_zero, Nat.mod_eq_of_lt hend]
    let next : Mdatapuffer α := { puffer with
      items := puffer.items.set puffer.endIndex (some item)
      endIndex := (puffer.endIndex + 1) % len
      count := puffer.count + 1 }
    have hnext : writeStep puffer item = some (next, ()) := by
      have hwrap : (if puffer.endIndex + 1 = puffer.length then 0 else puffer.endIndex + 1) =
          (puffer.endIndex + 1) % len := by
        rw [hlength, wrap_end hend]
      rw [writeStep, mdatapufferWrite, if_pos (by rw [hitems]; exact hend), hwrap]
      rfl
    rw [List.length_cons] at hfew
    have hrest := @ih next hlength (List.length_set.trans hitems) (Nat.mod_lt _ hlen) (by omega)
    rw [guarded_cons hnext, hrest]
    have hslot : ∀ i < items.length, next.items[(next.endIndex + i) % len]? =
        puffer.items[(puffer.endIndex + (i + 1)) % len]? := by
      intro i hi
      have hplace : ((puffer.endIndex + 1) % len + i) % len = (puffer.endIndex + (i + 1)) % len := by
        rw [Nat.mod_add_mod]
        congr 1
        omega
      have hne : puffer.endIndex ≠ (puffer.endIndex + (i + 1)) % len := by
        intro he
        have hsame := ring_index_inj hlen (by omega) (hfirst.trans he)
        omega
      show (puffer.items.set puffer.endIndex (some item))[((puffer.endIndex + 1) % len + i) % len]? = _
      rw [hplace, List.getElem?_set_ne hne]
    constructor
    · rintro ⟨hspare, hrest⟩ i hi
      cases i with
      | zero => rwa [hfirst]
      | succ i =>
        rw [List.length_cons] at hi
        rw [← hslot i (by omega)]
        exact hrest i (by omega)
    · intro hall
      refine ⟨?_, fun i hi => ?_⟩
      · have hzero := hall 0 (by rw [List.length_cons]; omega)
        rwa [hfirst] at hzero
      · rw [hslot i hi]
        exact hall (i + 1) (by rw [List.length_cons]; omega)

/-- The slots behind the cells are empty. -/
theorem Spans.behind (h : puffer.Spans len cells) {i : Nat} (hi : cells.length + i < len) :
    puffer.items[(puffer.endIndex + i) % len]? = some none := by
  have hplace : (puffer.endIndex + i) % len = (puffer.start + (cells.length + i)) % len := by
    have hend : puffer.endIndex = (puffer.start + cells.length) % len := h.holds.end_eq
    rw [hend, Nat.mod_add_mod, Nat.add_assoc]
  rw [hplace, h.slot hi, List.getElem?_eq_none (Nat.le_add_right _ _)]
  rfl

/-- What a usable report says, in a puffer that has some item to write. -/
theorem usable_slots (hlength : puffer.length = len) (hitems : puffer.items.length = len)
    (hend : puffer.endIndex < len) (h : CapacityUsable puffer) (x : α) {n : Nat}
    (hn : (n : Int) = mdatapufferWritecapacity puffer) (hfew : n ≤ len) (i : Nat) (hi : i < n) :
    puffer.items[(puffer.endIndex + i) % len]? = some none := by
  have hguard := h.writes (List.replicate n x) (by rw [List.length_replicate, hn])
  rw [guarded_writes_iff hlength hitems hend (by rwa [List.length_replicate])] at hguard
  exact hguard i (by rwa [List.length_replicate])

/-! ## When the report can be used -/

/-- With the end ahead of the start the cells lie between the two. -/
theorem Spans.ahead (h : puffer.Spans len cells) (hahead : puffer.start < puffer.endIndex) :
    puffer.endIndex = puffer.start + cells.length := by
  have hend : puffer.endIndex = (puffer.start + cells.length) % len := h.holds.end_eq
  have hfits := h.holds.fits
  have hstart := h.start_lt
  rcases Nat.lt_or_ge (puffer.start + cells.length) len with hlt | hge
  · rw [hend, Nat.mod_eq_of_lt hlt]
  · rw [Nat.mod_eq_sub_mod hge, Nat.mod_eq_of_lt (by omega)] at hend
    omega

/-- With the end behind the start the cells go around. -/
theorem Spans.around (h : puffer.Spans len cells) (hbehind : puffer.endIndex < puffer.start) :
    puffer.endIndex + len = puffer.start + cells.length := by
  have hend : puffer.endIndex = (puffer.start + cells.length) % len := h.holds.end_eq
  have hfits := h.holds.fits
  have hstart := h.start_lt
  rcases Nat.lt_or_ge (puffer.start + cells.length) len with hlt | hge
  · rw [Nat.mod_eq_of_lt hlt] at hend
    omega
  · rw [Nat.mod_eq_sub_mod hge, Nat.mod_eq_of_lt (by omega)] at hend
    omega

theorem Spans.reduced_le (h : puffer.Spans len cells) : puffer.count ≤ cells.length := by
  have hcount := h.count_le
  have hreduced := List.reduceOption_length_le cells
  omega

/-- An unread hole at the start leaves fewer items than cells. -/
theorem Spans.count_lt_of_hole (h : puffer.Spans len cells) (hne : 0 < cells.length)
    (hslot : puffer.items[puffer.start]? = some none) : puffer.count ≤ cells.length - 1 := by
  have hstart := h.start_lt
  have hfirst := h.slot (j := 0) (by omega)
  rw [Nat.add_zero, Nat.mod_eq_of_lt hstart, hslot] at hfirst
  cases cells with
  | nil => cases hne
  | cons c cells =>
    cases Option.some.inj hfirst
    have hle := h.count_le
    have hreduced := List.reduceOption_length_le cells
    rw [List.reduceOption_cons_of_none] at hle
    rw [List.length_cons]
    omega

/-- A right report can be used. -/
theorem Spans.usable (h : puffer.Spans len cells) (hright : CapacityRight puffer) : CapacityUsable puffer := by
  have hlength : puffer.length = len := h.holds.length_eq
  have hcount := h.reduced_le
  have hfits := h.holds.fits
  have hstart := h.start_lt
  obtain ⟨hempty, hhole⟩ := hright
  -- It is enough to look at the slots that the writes go to.
  have hwrites : ∀ n : Nat, mdatapufferWritecapacity puffer = n → n ≤ len →
      (∀ i < n, puffer.items[(puffer.endIndex + i) % len]? = some none) →
      ∀ items : List α, (items.length : Int) = mdatapufferWritecapacity puffer →
        Guarded writeStep (fun puffer _ => Spares puffer) puffer items := by
    intro n hn hfew hslots items hitems
    rw [hn, Int.natCast_inj] at hitems
    exact (guarded_writes_iff hlength h.items_length h.end_lt (by omega)).mpr fun i hi => hslots i (by omega)
  by_cases hzero : puffer.count = 0
  · have hcapacity : mdatapufferWritecapacity puffer = len := by
      rw [mdatapufferWritecapacity, if_pos hzero, hlength]
    refine ⟨hwrites len hcapacity (Nat.le_refl _) fun i _ => ?_, by omega⟩
    have hin : (puffer.endIndex + i) % len < puffer.items.length := by
      rw [h.items_length]
      exact Nat.mod_lt _ (by omega)
    rw [List.getElem?_eq_getElem hin, hempty hzero _ (List.getElem_mem hin)]
  · rcases Nat.lt_trichotomy puffer.start puffer.endIndex with hahead | hmeet | hbehind
    · have hend := h.ahead hahead
      have hlt := h.end_lt
      have hslot := hhole hzero hahead
      have hcapacity : mdatapufferWritecapacity puffer = (len - cells.length + 1 : Nat) := by
        rw [mdatapufferWritecapacity, if_neg hzero, if_neg (Nat.ne_of_lt hahead), if_pos hahead, hlength]
        omega
      have hfewer : puffer.count ≤ cells.length - 1 := h.count_lt_of_hole (by omega) hslot
      refine ⟨hwrites _ hcapacity (by omega) fun i hi => ?_, by omega⟩
      rcases Nat.lt_or_eq_of_le (Nat.le_of_lt_succ hi) with hi | hi
      · exact h.behind (by omega)
      · have hplace : (puffer.endIndex + i) % len = puffer.start := by
          rw [hend, show puffer.start + cells.length + i = puffer.start + len by omega, Nat.add_mod_right,
            Nat.mod_eq_of_lt hstart]
        rw [hplace, hslot]
    · have hcapacity : mdatapufferWritecapacity puffer = (0 : Nat) := by
        rw [mdatapufferWritecapacity, if_neg hzero, if_pos hmeet]
        rfl
      exact ⟨hwrites 0 hcapacity (Nat.zero_le _) fun i hi => absurd hi (Nat.not_lt_zero i), by omega⟩
    · have hend := h.around hbehind
      have hcapacity : mdatapufferWritecapacity puffer = (len - cells.length : Nat) := by
        rw [mdatapufferWritecapacity, if_neg hzero, if_neg (Nat.ne_of_gt hbehind), if_neg (by omega)]
        omega
      exact ⟨hwrites _ hcapacity (by omega) fun i hi => h.behind (by omega), by omega⟩

/-- A usable report is right. -/
theorem Spans.right (h : puffer.Spans len cells) (husable : CapacityUsable puffer) : CapacityRight puffer := by
  have hlength : puffer.length = len := h.holds.length_eq
  have hstart := h.start_lt
  have hslots := fun x n hn hfew => usable_slots hlength h.items_length h.end_lt husable x (n := n) hn hfew
  constructor
  · intro hzero item hitem
    cases item with
    | none => rfl
    | some x =>
      obtain ⟨k, hk⟩ := List.mem_iff_getElem?.mp hitem
      have hklt := (List.getElem?_eq_some_iff.mp hk).1
      rw [h.items_length] at hklt
      obtain ⟨i, hi, rfl⟩ := exists_ring_offset h.end_lt hklt
      have hcapacity : (len : Int) = mdatapufferWritecapacity puffer := by
        rw [mdatapufferWritecapacity, if_pos hzero, hlength]
      rw [hslots x len hcapacity (Nat.le_refl _) i hi] at hk
      cases hk
  · intro hzero hahead
    have hend := h.ahead hahead
    have hfits := h.holds.fits
    have hlt := h.end_lt
    cases hslot : puffer.items[puffer.start]? with
    | none =>
      rw [List.getElem?_eq_none_iff, h.items_length] at hslot
      omega
    | some item =>
      cases item with
      | none => rfl
      | some x =>
        have hcapacity : ((len - cells.length + 1 : Nat) : Int) = mdatapufferWritecapacity puffer := by
          rw [mdatapufferWritecapacity, if_neg hzero, if_neg (Nat.ne_of_lt hahead), if_pos hahead, hlength]
          omega
        have hlast := hslots x _ hcapacity (by omega) (len - cells.length) (Nat.lt_succ_self _)
        rw [hend, show puffer.start + cells.length + (len - cells.length) = puffer.start + len by omega,
          Nat.add_mod_right, Nat.mod_eq_of_lt hstart, hslot] at hlast
        cases hlast

/-- Some item stands behind an empty slot at the end. -/
theorem Spans.elsewhere (h : puffer.Spans len cells) (hspare : Spares puffer)
    (hstored : ¬ ∀ item ∈ puffer.items, item = none) :
    ∃ i x, i + 1 < len ∧ puffer.endIndex ≠ (puffer.endIndex + (i + 1)) % len ∧
      puffer.items[(puffer.endIndex + (i + 1)) % len]? = some (some x) := by
  simp only [not_forall] at hstored
  obtain ⟨slot, hslot, hsome⟩ := hstored
  obtain ⟨x, rfl⟩ := Option.ne_none_iff_exists'.mp hsome
  obtain ⟨k, hk⟩ := List.mem_iff_getElem?.mp hslot
  have hne : puffer.endIndex ≠ k := by
    rintro rfl
    cases hspare.symm.trans hk
  have hklt := (List.getElem?_eq_some_iff.mp hk).1
  rw [h.items_length] at hklt
  obtain ⟨j, hj, rfl⟩ := exists_ring_offset h.end_lt hklt
  cases j with
  | zero =>
    rw [Nat.add_zero, Nat.mod_eq_of_lt h.end_lt] at hne
    exact absurd rfl hne
  | succ i => exact ⟨i, x, hj, hne, hk⟩

/-- With the end one behind the start the capacity leaves out the slot of the start at most. -/
theorem capacity_around (hlength : puffer.length = len) (hstart : puffer.start < len)
    (hend : puffer.endIndex = (puffer.start + 1) % len) {i : Nat} (hi : i + 1 < len) :
    ∃ n : Nat, (n : Int) = mdatapufferWritecapacity puffer ∧ n ≤ len ∧ i < n := by
  by_cases hzero : puffer.count = 0
  · exact ⟨len, by rw [mdatapufferWritecapacity, if_pos hzero, hlength], Nat.le_refl _, by omega⟩
  · rcases Nat.lt_or_ge (puffer.start + 1) len with hlt | hge
    · rw [Nat.mod_eq_of_lt hlt] at hend
      refine ⟨len, ?_, Nat.le_refl _, by omega⟩
      rw [mdatapufferWritecapacity, if_neg hzero, if_neg (by omega), if_pos (by omega), hlength, hend]
      omega
    · rw [show puffer.start + 1 = len by omega, Nat.mod_self] at hend
      refine ⟨len - 1, ?_, by omega, by omega⟩
      rw [mdatapufferWritecapacity, if_neg hzero, if_neg (by omega), if_neg (by omega), hend]
      omega

/-- A write that takes the slot of the start while other items are stored leaves a report that
covers them. -/
theorem Spans.overlap (h : puffer.Spans len cells) (hmeet : puffer.endIndex = puffer.start) (hspare : Spares puffer)
    (hstored : ¬ ∀ item ∈ puffer.items, item = none) (item : α) :
    ∃ puffer', mdatapufferWrite puffer item = some puffer' ∧ ¬ CapacityUsable puffer' := by
  have hlength : puffer.length = len := h.holds.length_eq
  have hend := h.end_lt
  have hlen : 0 < len := Nat.zero_lt_of_lt hend
  obtain ⟨i, x, hi, hne, hx⟩ := h.elsewhere hspare hstored
  let next : Mdatapuffer α := { puffer with
    items := puffer.items.set puffer.endIndex (some item)
    endIndex := if puffer.endIndex + 1 = puffer.length then 0 else puffer.endIndex + 1
    count := puffer.count + 1 }
  refine ⟨next, by rw [mdatapufferWrite, if_pos (by rw [h.items_length]; exact hend)], fun husable => ?_⟩
  have hnext : next.endIndex = (puffer.endIndex + 1) % len := by
    show (if _ = puffer.length then _ else _) = _
    rw [hlength, wrap_end hend]
  have hlengthNext : next.length = len := hlength
  have hitemsNext : next.items.length = len := List.length_set.trans h.items_length
  obtain ⟨n, hn, hfew, hin⟩ := capacity_around hlengthNext h.start_lt (by rw [hnext, hmeet]) hi
  have hslot := usable_slots hlengthNext hitemsNext (by rw [hnext]; exact Nat.mod_lt _ hlen) husable x hn hfew i hin
  have hplace : (next.endIndex + i) % len = (puffer.endIndex + (i + 1)) % len := by
    rw [hnext, Nat.mod_add_mod]
    congr 1
    omega
  rw [hplace] at hslot
  change (puffer.items.set puffer.endIndex (some item))[(puffer.endIndex + (i + 1)) % len]? = some none at hslot
  rw [List.getElem?_set_ne hne, hx] at hslot
  cases hslot

end Mdatapuffer

/-! ## Runs -/

variable {puffer puffer' : Mdatapuffer α} {len : Nat}

/-- A step that keeps the start keeps the items between the start and the end. -/
theorem capacityStep_spans {op : CapacityOp α} {out : Option α} (h : ∃ cells, puffer.Spans len cells)
    (hkeeps : KeepsStart puffer op) (hstep : capacityStep puffer op = some (puffer', out)) :
    ∃ cells', puffer'.Spans len cells' := by
  obtain ⟨cells, h⟩ := h
  cases op with
  | write item =>
    obtain ⟨next, hwrite, he⟩ := Option.map_eq_some_iff.mp hstep
    cases he
    by_cases hroom : cells.length < len
    · obtain ⟨next', hwrite', hspans⟩ := h.write hroom item
      cases hwrite.symm.trans hwrite'
      exact ⟨_, hspans⟩
    · -- The cells take the whole ring, so the end meets the start.
      have hfits := h.holds.fits
      have hmeet : puffer.endIndex = puffer.start := by
        have hend : puffer.endIndex = (puffer.start + cells.length) % len := h.holds.end_eq
        rw [hend, show cells.length = len by omega, Nat.add_mod_right, Nat.mod_eq_of_lt h.start_lt]
      have hstart := h.start_lt
      obtain ⟨next', hwrite', hspans⟩ := (h.forget hmeet (hkeeps hmeet)).write (by rw [List.length_nil]; omega) item
      cases hwrite.symm.trans hwrite'
      exact ⟨_, hspans⟩
  | setreadindex plus =>
    obtain ⟨next, hset, he⟩ := Option.map_eq_some_iff.mp hstep
    cases he
    exact h.setreadindex hset
  | read => exact h.read hstep

/-- In every sequence of calls: as many writes as the puffer reports can be made in every
state reached just when no write takes the slot of the start while items are stored, and in
every state reached the report is right. -/
theorem writecapacity_usable_iff (hlen : 1 ≤ len) (plus : Int) (read : Option α) (ops : List (CapacityOp α))
    (hops : Guarded capacityStep Allowed (mdatapufferCtor len plus read) ops) :
    (∀ k puffer outs, run capacityStep (mdatapufferCtor len plus read) (ops.take k) = some (puffer, outs) →
      CapacityUsable puffer) ↔
      Guarded capacityStep KeepsStart (mdatapufferCtor len plus read) ops ∧
        ∀ k puffer outs, run capacityStep (mdatapufferCtor len plus read) (ops.take k) = some (puffer, outs) →
          CapacityRight puffer := by
  have hctor : ∃ cells, (mdatapufferCtor len plus read).Spans len cells :=
    ⟨[], Mdatapuffer.spans_ctor hlen plus read⟩
  have hspans : ∀ (hkeeps : Guarded capacityStep KeepsStart (mdatapufferCtor len plus read) ops) k puffer outs,
      run capacityStep (mdatapufferCtor len plus read) (ops.take k) = some (puffer, outs) →
        ∃ cells, puffer.Spans len cells :=
    fun hkeeps k puffer outs hrun =>
      run_preserves (fun _ _ _ _ h hop hstep => capacityStep_spans h hop hstep) hctor (hkeeps.take k) hrun
  constructor
  · intro hall
    have hkeeps : Guarded capacityStep KeepsStart (mdatapufferCtor len plus read) ops := by
      refine guarded_of_prefixes (fun _ _ _ _ h _ hop hstep => capacityStep_spans h hop hstep)
        (fun s op h hallowed hlaps => ?_) hctor hops hall
      obtain ⟨cells, h⟩ := h
      cases op with
      | write item =>
        simp only [KeepsStart, Classical.not_imp] at hlaps
        obtain ⟨next, hwrite, hwrong⟩ := h.overlap hlaps.1 hallowed hlaps.2 item
        exact ⟨next, none, by rw [capacityStep, hwrite]; rfl, hwrong⟩
      | setreadindex plus => exact absurd trivial hlaps
      | read => exact absurd trivial hlaps
    refine ⟨hkeeps, fun k puffer outs hrun => ?_⟩
    obtain ⟨cells, h⟩ := hspans hkeeps k puffer outs hrun
    exact h.right (hall k puffer outs hrun)
  · rintro ⟨hkeeps, hright⟩ k puffer outs hrun
    obtain ⟨cells, h⟩ := hspans hkeeps k puffer outs hrun
    exact h.usable (hright k puffer outs hrun)

/-- A write, a read and another write of a puffer of three. -/
theorem writecapacity_usable_iff_run :
    Guarded capacityStep Allowed (mdatapufferCtor 3 0 none) [.write 1, .setreadindex 0, .read, .write 2] ∧
      ((∀ k puffer outs, run capacityStep (mdatapufferCtor 3 0 none)
          (([.write 1, .setreadindex 0, .read, .write 2] : List (CapacityOp Nat)).take k) = some (puffer, outs) →
            CapacityUsable puffer) ↔
        Guarded capacityStep KeepsStart (mdatapufferCtor 3 0 none) [.write 1, .setreadindex 0, .read, .write 2] ∧
          ∀ k puffer outs, run capacityStep (mdatapufferCtor 3 0 none)
            (([.write 1, .setreadindex 0, .read, .write 2] : List (CapacityOp Nat)).take k) = some (puffer, outs) →
              CapacityRight puffer) := by
  have hops : Guarded capacityStep Allowed (mdatapufferCtor 3 0 none)
      [.write (1 : Nat), .setreadindex 0, .read, .write 2] := by decide
  exact ⟨hops, writecapacity_usable_iff (by decide) 0 none _ hops⟩

/-- After one write into three slots the report is three, and the third of as many writes
overwrites the first item. -/
theorem capacity_counts_start :
    ∃ puffer outs, run capacityStep (mdatapufferCtor 3 0 none) [.write 1] = some (puffer, outs) ∧
      mdatapufferWritecapacity puffer = 3 ∧ (puffer.length - puffer.count : Int) = 2 ∧
      ¬ Guarded writeStep (fun puffer _ => Spares puffer) puffer [2, 3, 4] ∧ ¬ CapacityUsable puffer := by
  refine ⟨⟨[some 1, none, none], 3, 1, 0, 1, 0, 0, none⟩, [none], by decide, by decide, by decide, by decide, ?_⟩
  intro husable
  exact absurd husable.bounded (by decide)

end Devclego.Puffers
