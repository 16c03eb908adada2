import Devclego.Foundation.Sparse

/-!
# Multi-read puffers

The ring of `lib_puffers.c` whose reader may begin behind the oldest item. A read
leaves a hole; `start` moves over holes only in `mdatapuffer_setreadindex`. Array
accesses outside the items fault, and so does a loop that never ends: each loop
walks around the ring, so one turn is enough fuel.
-/
namespace Devclego.Puffers

open Foundation

/-- The field `_plus` keeps the argument of the last `mdatapuffer_setreadindex`, the
field `_read` the result of the last read. -/
structure Mdatapuffer (α : Type) where
  items : List (Option α)
  length : Nat
  count : Int
  readIndex : Nat
  endIndex : Nat
  start : Nat
  plus : Int
  read : Option α
deriving DecidableEq, Repr

variable {α : Type}

/-- `plus` and `read` are what `malloc` leaves in the fields that are not set. -/
def mdatapufferCtor (itemsNum : Nat) (plus : Int) (read : Option α) : Mdatapuffer α where
  items := List.replicate itemsNum none
  length := itemsNum
  count := 0
  readIndex := 0
  endIndex := 0
  start := 0
  plus := plus
  read := read

/-- The loop that sets the first readable item. -/
def setStart (puffer : Mdatapuffer α) : Nat → Nat → Option Nat
  | 0, _ => none
  | fuel + 1, start => do
    match ← puffer.items[start]? with
    | some _ => some start
    | none => setStart puffer fuel (if start + 1 = puffer.length then 0 else start + 1)

/-- The inner loop of `mdatapuffer_setreadindex`, and whether it met the end. -/
def nextReadIndex (puffer : Mdatapuffer α) : Nat → Nat → Option (Nat × Bool)
  | 0, _ => none
  | fuel + 1, readIndex =>
    let readIndex := if readIndex + 1 = puffer.length then 0 else readIndex + 1
    if readIndex = puffer.endIndex then some (readIndex, true)
    else do
      match ← puffer.items[readIndex]? with
      | some _ => some (readIndex, false)
      | none => nextReadIndex puffer fuel readIndex

/-- The outer loop, which returns as soon as the inner one meets the end. -/
def skipReadIndex (puffer : Mdatapuffer α) : Nat → Nat → Option Nat
  | 0, readIndex => some readIndex
  | notNull + 1, readIndex => do
    let (readIndex, atEnd) ← nextReadIndex puffer puffer.length readIndex
    if atEnd then some readIndex else skipReadIndex puffer notNull readIndex

def mdatapufferSetreadindex (puffer : Mdatapuffer α) (plus : Int) : Option (Mdatapuffer α) :=
  let puffer := { puffer with plus := plus }
  if puffer.count = 0 then some puffer
  else do
    let start ← setStart puffer puffer.length puffer.start
    let puffer := { puffer with start := start }
    if puffer.count - puffer.plus < 1 then some puffer
    else do
      let readIndex ← skipReadIndex puffer puffer.plus.toNat puffer.start
      some { puffer with readIndex := readIndex }

/-- The loop of `mdatapuffer_read`: it stops at an item, or behind a hole at the end. -/
def scanRead : Nat → Mdatapuffer α → Option (Mdatapuffer α)
  | 0, _ => none
  | fuel + 1, puffer => do
    let readIndex := if puffer.readIndex = puffer.length then 0 else puffer.readIndex
    match ← puffer.items[readIndex]? with
    | some item =>
      some { puffer with
        items := puffer.items.set readIndex none
        readIndex := readIndex + 1
        read := some item }
    | none =>
      let puffer := { puffer with readIndex := readIndex + 1, read := none }
      if puffer.readIndex = puffer.endIndex then some puffer else scanRead fuel puffer

def mdatapufferRead (puffer : Mdatapuffer α) : Option (Mdatapuffer α × Option α) :=
  (scanRead (puffer.length + 1) puffer).map fun puffer =>
    ({ puffer with count := puffer.count - 1 }, puffer.read)

def mdatapufferWrite (mdatapuffer : Mdatapuffer α) (item : α) : Option (Mdatapuffer α) :=
  if mdatapuffer.endIndex < mdatapuffer.items.length then
    some { mdatapuffer with
      items := mdatapuffer.items.set mdatapuffer.endIndex (some item)
      endIndex := if mdatapuffer.endIndex + 1 = mdatapuffer.length then 0 else mdatapuffer.endIndex + 1
      count := mdatapuffer.count + 1 }
  else none

def mdatapufferReadcapacity (puffer : Mdatapuffer α) : Int := puffer.count - puffer.plus

/-- The second return of the source is never reached. -/
def mdatapufferWritecapacity (puffer : Mdatapuffer α) : Int :=
  if puffer.count = 0 then puffer.length
  else if puffer.start = puffer.endIndex then 0
  else if puffer.start < puffer.endIndex then puffer.length - puffer.endIndex + puffer.start + 1
  else puffer.start - puffer.endIndex

/-- `n` reads in a row. -/
def mdatapufferReads : Nat → Mdatapuffer α → Option (Mdatapuffer α × List (Option α))
  | 0, puffer => some (puffer, [])
  | n + 1, puffer => do
    let (puffer, item) ← mdatapufferRead puffer
    let (puffer, items) ← mdatapufferReads n puffer
    some (puffer, item :: items)

namespace Mdatapuffer

/-- A puffer of length `len` whose ring stores the cells: those up to the end index. -/
structure Holds (puffer : Mdatapuffer α) (len : Nat) (cells : List (Option α)) : Prop where
  length_eq : puffer.length = len
  items_length : puffer.items.length = len
  start_lt : puffer.start < len
  fits : cells.length ≤ len
  end_eq : puffer.endIndex = (puffer.start + cells.length) % len
  count_eq : puffer.count = cells.reduceOption.length
  slots : SparseRing puffer.items puffer.start cells

variable {puffer : Mdatapuffer α} {len : Nat} {cells pre post : List (Option α)} {x : α}

theorem holds_ctor (hlen : 0 < len) (plus : Int) (read : Option α) :
    (mdatapufferCtor len plus read).Holds len [] where
  length_eq := rfl
  items_length := List.length_replicate
  start_lt := hlen
  fits := Nat.zero_le _
  end_eq := by simp [mdatapufferCtor]
  count_eq := rfl
  slots := sparseRing_empty len 0

theorem Holds.end_lt (h : puffer.Holds len cells) : puffer.endIndex < len := by
  have hstart := h.start_lt
  rw [h.end_eq]
  exact Nat.mod_lt _ (by omega)

/-- An offset inside the cells, the start apart, is not the end. -/
theorem Holds.ne_end (h : puffer.Holds len cells) {i : Nat} (hi : 0 < i) (hlt : i < cells.length) :
    (puffer.start + i) % len ≠ puffer.endIndex := by
  have hfits := h.fits
  intro he
  rw [h.end_eq] at he
  rcases Nat.lt_or_eq_of_le hfits with hl | hl
  · have hsame := ring_index_inj (by omega) hl he
    omega
  · have hback : (puffer.start + i) % len = (puffer.start + 0) % len := by
      rw [he, hl, Nat.add_mod_right, Nat.add_zero]
    have hsame := ring_index_inj (by omega) (by omega) hback
    omega

/-- The index after an offset, wrapped as the loops of `mdatapuffer_setreadindex` do. -/
theorem wrap_next {s i : Nat} (hlen : 0 < len) :
    (if (s + i) % len + 1 = len then 0 else (s + i) % len + 1) = (s + (i + 1)) % len := by
  have hlt : (s + i) % len < len := Nat.mod_lt _ hlen
  have hnext : (s + (i + 1)) % len = ((s + i) % len + 1) % len := by
    rw [Nat.mod_add_mod]
    rfl
  rw [hnext]
  by_cases he : (s + i) % len + 1 = len
  · rw [if_pos he, he, Nat.mod_self]
  · rw [if_neg he, Nat.mod_eq_of_lt (a := (s + i) % len + 1) (by omega)]

theorem Holds.slot (h : puffer.Holds len (pre ++ post)) (hp : pre.length < len) :
    puffer.items[(puffer.start + pre.length) % len]? = some post.head?.join := by
  have hslot := h.slots.slot (by rw [h.items_length]; exact hp)
  rwa [h.items_length] at hslot

theorem Holds.cells_lt {c : Option α} (h : puffer.Holds len (pre ++ c :: post)) : pre.length < len := by
  have hfits := h.fits
  rw [List.length_append, List.length_cons] at hfits
  omega

/-- The cells left behind by a start that moves over holes. -/
theorem Holds.advance {d : Nat} (h : puffer.Holds len (List.replicate d none ++ some x :: post)) :
    ({ puffer with start := (puffer.start + d) % len } : Mdatapuffer α).Holds len (some x :: post) := by
  induction d generalizing puffer with
  | zero =>
    have hsame : (puffer.start + 0) % len = puffer.start := by
      rw [Nat.add_zero, Nat.mod_eq_of_lt h.start_lt]
    rw [hsame]
    exact h
  | succ d ih =>
    have hfits := h.fits
    have hstart := h.start_lt
    rw [List.replicate_succ, List.cons_append] at h
    rw [List.length_append, List.length_replicate, List.length_cons] at hfits
    have hone : ({ puffer with start := (puffer.start + 1) % len } : Mdatapuffer α).Holds len
        (List.replicate d none ++ some x :: post) := by
      refine ⟨h.length_eq, h.items_length, Nat.mod_lt _ (by omega), ?_, ?_, ?_, ?_⟩
      · rw [List.length_append, List.length_replicate, List.length_cons]
        omega
      · show puffer.endIndex = _
        rw [h.end_eq, List.length_cons, Nat.mod_add_mod]
        congr 1
        omega
      · exact h.count_eq
      · have hskip := h.slots.skip (by
          rw [h.items_length, List.length_append, List.length_replicate, List.length_cons]
          omega)
        rwa [h.items_length] at hskip
    have hrest := ih hone
    rw [show ((puffer.start + 1) % len + d) % len = (puffer.start + (d + 1)) % len by
      rw [Nat.mod_add_mod]; congr 1; omega] at hrest
    exact hrest

end Mdatapuffer

end Devclego.Puffers
