import Devclego.Foundation.Ring

/-!
# Data puffers

The ring buffer of `lib_puffers.c`. `count` is a signed counter that nothing
checks: a read of an empty puffer returns the null pointer found in the slot and
still moves `start` and decrements `count`. `Holds` is the well-formed state,
with the stored items as a queue.
-/
namespace Devclego.Puffers

open Foundation

structure Datapuffer (α : Type) where
  items : List (Option α)
  absLength : Nat
  start : Nat
  endIndex : Nat
  count : Int
deriving DecidableEq, Repr

variable {α : Type}

def datapufferCtor (size : Nat) : Datapuffer α where
  items := List.replicate size none
  absLength := size
  start := 0
  endIndex := 0
  count := 0

def datapufferWrite (puffer : Datapuffer α) (item : α) : Datapuffer α :=
  { puffer with
    items := puffer.items.set puffer.endIndex (some item)
    endIndex := if puffer.absLength ≤ puffer.endIndex + 1 then 0 else puffer.endIndex + 1
    count := puffer.count + 1 }

def datapufferPeekFirst (puffer : Datapuffer α) : Option α := (puffer.items[puffer.start]?).join

def datapufferRead (puffer : Datapuffer α) : Datapuffer α × Option α :=
  ({ puffer with
      items := puffer.items.set puffer.start none
      start := if puffer.absLength ≤ puffer.start + 1 then 0 else puffer.start + 1
      count := puffer.count - 1 },
    (puffer.items[puffer.start]?).join)

def datapufferReadcapacity (puffer : Datapuffer α) : Int := puffer.count

def datapufferWritecapacity (puffer : Datapuffer α) : Int := puffer.absLength - puffer.count

def datapufferIsfull (puffer : Datapuffer α) : Bool := puffer.count == puffer.absLength

def datapufferIsempty (puffer : Datapuffer α) : Bool := puffer.count == 0

/-- The loop of `datapuffer_clear`: `c` reads, whose results go to the destructor. -/
def datapufferDrain : Nat → Datapuffer α → Datapuffer α × List (Option α)
  | 0, puffer => (puffer, [])
  | c + 1, puffer =>
    let (puffer, item) := datapufferRead puffer
    let (puffer, items) := datapufferDrain c puffer
    (puffer, item :: items)

def datapufferClear (puffer : Datapuffer α) : Datapuffer α × List (Option α) :=
  datapufferDrain (datapufferReadcapacity puffer).toNat puffer

/-- The positions of a list lead back to it. -/
theorem filterMap_range_getElem? (q : List α) : (List.range q.length).filterMap (fun i => q[i]?) = q := by
  induction q with
  | nil => rfl
  | cons x q ih =>
    rw [List.length_cons, List.range_succ_eq_map, List.filterMap_cons, List.filterMap_map]
    simpa using ih

namespace Datapuffer

/-- The stored items, oldest first. -/
def contents (puffer : Datapuffer α) : List α :=
  (List.range puffer.count.toNat).filterMap fun i =>
    (puffer.items[(puffer.start + i) % puffer.absLength]?).join

/-- A puffer of length `len` that stores the queue `q`, oldest first. -/
structure Holds (puffer : Datapuffer α) (len : Nat) (q : List α) : Prop where
  absLength_eq : puffer.absLength = len
  items_length : puffer.items.length = len
  start_lt : puffer.start < len
  count_eq : puffer.count = q.length
  fits : q.length ≤ len
  end_eq : puffer.endIndex = (puffer.start + q.length) % len
  slots : RingHolds puffer.items puffer.start q

variable {puffer : Datapuffer α} {len : Nat} {q : List α}

theorem holds_ctor (hlen : 0 < len) : (datapufferCtor len : Datapuffer α).Holds len [] where
  absLength_eq := rfl
  items_length := List.length_replicate
  start_lt := hlen
  count_eq := rfl
  fits := Nat.zero_le _
  end_eq := by simp [datapufferCtor]
  slots := ringHolds_empty len 0

theorem Holds.isempty_iff (h : puffer.Holds len q) : datapufferIsempty puffer = true ↔ q = [] := by
  have hc := h.count_eq
  rw [datapufferIsempty, beq_iff_eq, ← List.length_eq_zero_iff]
  omega

theorem Holds.isfull_iff (h : puffer.Holds len q) :
    datapufferIsfull puffer = true ↔ q.length = len := by
  have hc := h.count_eq
  rw [datapufferIsfull, beq_iff_eq, h.absLength_eq]
  omega

theorem Holds.write (h : puffer.Holds len q) (hq : q.length < len) (item : α) :
    (datapufferWrite puffer item).Holds len (q ++ [item]) where
  absLength_eq := h.absLength_eq
  items_length := by simp [datapufferWrite, h.items_length]
  start_lt := h.start_lt
  count_eq := by simp [datapufferWrite, h.count_eq]
  fits := by simp; omega
  end_eq := by
    have hlt : puffer.endIndex < len := by rw [h.end_eq]; exact Nat.mod_lt _ (by omega)
    simp only [datapufferWrite, h.absLength_eq]
    rw [ring_wrap hlt, h.end_eq, Nat.mod_add_mod, List.length_append, List.length_singleton]
    rfl
  slots := by
    have hpush := h.slots.push (by rw [h.items_length]; exact hq) item
    rwa [h.items_length, ← h.end_eq] at hpush

theorem Holds.read_result {x : α} (h : puffer.Holds len (x :: q)) :
    (datapufferRead puffer).2 = some x := by
  have hs := h.slots.head (by rw [h.items_length]; exact h.start_lt)
  simp [datapufferRead, hs]

theorem Holds.read {x : α} (h : puffer.Holds len (x :: q)) :
    (datapufferRead puffer).1.Holds len q := by
  have hq : q.length < len := by have hf := h.fits; simp at hf; omega
  have hstart : (datapufferRead puffer).1.start = (puffer.start + 1) % len := by
    simp only [datapufferRead, h.absLength_eq]
    exact ring_wrap h.start_lt
  constructor
  · exact h.absLength_eq
  · simp [datapufferRead, h.items_length]
  · rw [hstart]
    exact Nat.mod_lt _ (by omega)
  · have hc := h.count_eq
    simp only [datapufferRead, hc, List.length_cons]
    omega
  · omega
  · rw [hstart, Nat.mod_add_mod]
    have he := h.end_eq
    simp only [List.length_cons] at he
    rw [show puffer.start + 1 + q.length = puffer.start + (q.length + 1) by omega]
    exact he
  · rw [hstart]
    have hpop := h.slots.pop (by rw [h.items_length]; exact h.start_lt)
      (by rw [h.items_length]; exact hq)
    rwa [h.items_length] at hpop

/-- Clearing hands every stored item out once, oldest first. -/
theorem Holds.drain (h : puffer.Holds len q) :
    (datapufferDrain q.length puffer).1.Holds len [] ∧
      (datapufferDrain q.length puffer).2 = q.map some := by
  induction q generalizing puffer with
  | nil => exact ⟨h, rfl⟩
  | cons x q ih =>
    obtain ⟨hr, hi⟩ := ih h.read
    refine ⟨hr, ?_⟩
    simp only [datapufferDrain, List.length_cons, List.map_cons, h.read_result, hi]

theorem Holds.clear (h : puffer.Holds len q) :
    (datapufferClear puffer).1.Holds len [] ∧ (datapufferClear puffer).2 = q.map some := by
  have hc : (datapufferReadcapacity puffer).toNat = q.length := by
    simp [datapufferReadcapacity, h.count_eq]
  rw [datapufferClear, hc]
  exact h.drain

theorem Holds.peek_result (h : puffer.Holds len q) : datapufferPeekFirst puffer = q.head? := by
  have hs := h.slots.head (by rw [h.items_length]; exact h.start_lt)
  rw [datapufferPeekFirst, hs, Option.join_some, List.head?_eq_getElem?]

theorem Holds.contents_eq (h : puffer.Holds len q) : puffer.contents = q := by
  have hc : puffer.count.toNat = q.length := by simp [h.count_eq]
  have hslot : ∀ i ∈ List.range q.length,
      (puffer.items[(puffer.start + i) % puffer.absLength]?).join = q[i]? := by
    intro i hi
    have hlt : i < puffer.items.length := by
      rw [h.items_length]
      exact (List.mem_range.mp hi).trans_le h.fits
    have hi' := h.slots i hlt
    rw [h.items_length] at hi'
    rw [h.absLength_eq, hi', Option.join_some]
  rw [contents, hc, List.filterMap_congr hslot]
  exact filterMap_range_getElem? q

end Datapuffer

end Devclego.Puffers
