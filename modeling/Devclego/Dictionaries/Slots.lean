import Mathlib.Data.Option.Basic
import Mathlib.Data.List.Basic
import Devclego.Foundation.Owned
import Devclego.Foundation.Slots
import Devclego.Dictionaries.Model

/-!
# What the arrays of a dictionary hold

A slot is free, or it holds a key with its hash and a value that may be null. The
strings are blocks of their own, owned by the places of the two pointer arrays. Every
change of a dictionary concerns one slot.
-/
namespace Devclego.Dictionaries

open Foundation

/-- A key with its value, which may be null. -/
abbrev Row := Text × Option Text

/-- A pointer of one of the two arrays. -/
inductive Place where
  | key (i : Nat)
  | val (i : Nat)
deriving DecidableEq, Repr

def place (key val : List Ptr) : Place → Ptr
  | .key i => slotAt key i
  | .val i => slotAt val i

/-- The string behind a pointer, if it is not null. -/
def PointsTo (mem : Mem) (p : Ptr) (s : Option Text) : Prop := Option.Rel (fun a s => mem.read a = some s) p s

inductive SlotHolds (mem : Mem) : Ptr → Ptr → Option (BitVec 32) → Option Row → Prop where
  | free (hash : Option (BitVec 32)) : SlotHolds mem none none hash none
  | full {a : Addr} {p : Ptr} {k : Text} {v : Option Text} (hkey : mem.read a = some k) (hval : PointsTo mem p v) :
      SlotHolds mem (some a) p (some (dictionaryHash k)) (some (k, v))

structure Represents (before : Addr → Option Text) (d : Dictionary) (mem : Mem) (rows : List (Option Row)) : Prop where
  positive : 0 < d.size
  lengthKey : d.key.length = d.size
  lengthVal : d.val.length = d.size
  lengthHash : d.hash.length = d.size
  length : rows.length = d.size
  count : d.n = rows.countP Option.isSome
  slot : ∀ i < d.size, SlotHolds mem (slotAt d.key i) (slotAt d.val i) d.hash[i]? (slotAt rows i)
  distinct : ∀ i j k v w, slotAt rows i = some (k, v) → slotAt rows j = some (k, w) → i = j
  owns : Owns before mem (place d.key d.val)

variable {before : Addr → Option Text} {d d' : Dictionary} {mem mem' : Mem} {rows : List (Option Row)} {i j : Nat}
  {p : Ptr} {k : Text} {v : Option Text} {places : Place → Ptr}

/-! ## Pointers to strings -/

theorem place_set_key {key val : List Ptr} (h : i < key.length) (p : Ptr) :
    place (key.set i p) val = Function.update (place key val) (.key i) p := by
  funext x
  cases x with
  | key j =>
    rw [place, slotAt_set h]
    by_cases hj : j = i
    · subst hj
      rw [Function.update_self, Function.update_self]
    · rw [Function.update_of_ne hj, Function.update_of_ne (fun he => hj (Place.key.inj he))]
      rfl
  | val j => rw [Function.update_of_ne (by simp)]; rfl

theorem place_set_val {key val : List Ptr} (h : i < val.length) (p : Ptr) :
    place key (val.set i p) = Function.update (place key val) (.val i) p := by
  funext x
  cases x with
  | key j => rw [Function.update_of_ne (by simp)]; rfl
  | val j =>
    rw [place, slotAt_set h]
    by_cases hj : j = i
    · subst hj
      rw [Function.update_self, Function.update_self]
    · rw [Function.update_of_ne hj, Function.update_of_ne (fun he => hj (Place.val.inj he))]
      rfl

/-- Freeing what a place holds, if anything, touches no other place. -/
theorem freePtr_owned (h : Owns before mem places) (x : Place) :
    ∃ mem', freePtr mem (places x) = some mem' ∧ Owns before mem' (Function.update places x none) ∧
      ∀ y a, y ≠ x → places y = some a → mem'.read a = mem.read a := by
  cases hx : places x with
  | none =>
    refine ⟨mem, rfl, ?_, fun _ _ _ _ => rfl⟩
    rwa [← hx, Function.update_eq_self]
  | some a =>
    obtain ⟨hfree, howns⟩ := h.free hx
    exact ⟨_, hfree, howns, fun y b hyx hy => h.read_set_other hx hy hyx none⟩

theorem dupVal_owned (h : Owns before mem places) {x : Place} (hx : places x = none) (val : Option Text) :
    Owns before (dupVal mem val).1 (Function.update places x (dupVal mem val).2) ∧
      (∀ y a, places y = some a → (dupVal mem val).1.read a = mem.read a) ∧
      PointsTo (dupVal mem val).1 (dupVal mem val).2 val := by
  cases val with
  | none =>
    refine ⟨?_, fun _ _ _ => rfl, .none⟩
    rwa [show (dupVal mem none).2 = places x from hx.symm, Function.update_eq_self]
  | some s => exact ⟨h.alloc hx s, fun y a hy => h.read_alloc hy s, .some (mem.read_alloc_self s)⟩

theorem PointsTo.congr {s : Option Text} (h : PointsTo mem p s) (hag : ∀ a, p = some a → mem'.read a = mem.read a) :
    PointsTo mem' p s := by
  cases h with
  | none => exact .none
  | some hr => exact .some ((hag _ rfl).trans hr)

theorem SlotHolds.congr {q : Ptr} {hash : Option (BitVec 32)} {row : Option Row} (h : SlotHolds mem p q hash row)
    (hp : ∀ a, p = some a → mem'.read a = mem.read a) (hq : ∀ a, q = some a → mem'.read a = mem.read a) :
    SlotHolds mem' p q hash row := by
  cases h with
  | free hash => exact .free hash
  | full hkey hval => exact .full ((hp _ rfl).trans hkey) (hval.congr hq)

/-! ## One slot -/

theorem Represents.lt (h : Represents before d mem rows) {row : Row} (hi : slotAt rows i = some row) : i < d.size :=
  h.length ▸ lt_of_slotAt hi

/-- What a slot with a key holds. -/
theorem Represents.full (h : Represents before d mem rows) (hi : slotAt rows i = some (k, v)) :
    ∃ a p, d.key[i]? = some (some a) ∧ d.val[i]? = some p ∧ d.hash[i]? = some (dictionaryHash k) ∧
      mem.read a = some k ∧ PointsTo mem p v := by
  have hlt := h.lt hi
  have hslot := h.slot i hlt
  rw [hi] at hslot
  have hkey := getElem?_slotAt (show i < d.key.length by rw [h.lengthKey]; exact hlt)
  have hval := getElem?_slotAt (show i < d.val.length by rw [h.lengthVal]; exact hlt)
  generalize slotAt d.key i = q at hslot hkey
  generalize slotAt d.val i = p at hslot hval
  generalize d.hash[i]? = x at hslot ⊢
  cases hslot with
  | full hk hv => exact ⟨_, _, hkey, hval, rfl, hk, hv⟩

theorem Represents.free (h : Represents before d mem rows) (hlt : i < d.size) (hi : slotAt rows i = none) :
    d.key[i]? = some none ∧ d.val[i]? = some none := by
  have hslot := h.slot i hlt
  rw [hi] at hslot
  rw [getElem?_slotAt (by rw [h.lengthKey]; exact hlt), getElem?_slotAt (by rw [h.lengthVal]; exact hlt)]
  generalize slotAt d.key i = q at hslot ⊢
  generalize slotAt d.val i = p at hslot ⊢
  generalize d.hash[i]? = x at hslot
  cases hslot with
  | free hash => exact ⟨rfl, rfl⟩

theorem Represents.key_none_iff (h : Represents before d mem rows) (hlt : i < d.size) :
    d.key[i]? = some none ↔ slotAt rows i = none := by
  constructor
  · intro hk
    cases hi : slotAt rows i with
    | none => rfl
    | some row =>
      obtain ⟨a, p, hkey, -⟩ := h.full hi
      cases hkey.symm.trans hk
  · exact fun hi => (h.free hlt hi).1

/-- A change of one slot. -/
theorem Represents.edit (h : Represents before d mem rows) (hi : i < d.size) (mem' : Mem) (p q : Ptr) (x : BitVec 32)
    (row : Option Row) (n : Nat) (hcount : n = (rows.set i row).countP Option.isSome)
    (howns : Owns before mem' (Function.update (Function.update (place d.key d.val) (.key i) p) (.val i) q))
    (hslot : SlotHolds mem' p q (some x) row)
    (hother : ∀ y a, y ≠ .key i → y ≠ .val i → place d.key d.val y = some a → mem'.read a = mem.read a)
    (hdistinct : ∀ k v, row = some (k, v) → ∀ j w, j ≠ i → slotAt rows j ≠ some (k, w)) :
    Represents before { d with n := n, key := d.key.set i p, val := d.val.set i q, hash := d.hash.set i x } mem'
      (rows.set i row) := by
  have hkey : i < d.key.length := by rw [h.lengthKey]; exact hi
  have hval : i < d.val.length := by rw [h.lengthVal]; exact hi
  have hrows : i < rows.length := by rw [h.length]; exact hi
  constructor
  · exact h.positive
  · exact List.length_set.trans h.lengthKey
  · exact List.length_set.trans h.lengthVal
  · exact List.length_set.trans h.lengthHash
  · exact List.length_set.trans h.length
  · exact hcount
  · intro j hj
    show SlotHolds mem' (slotAt (d.key.set i p) j) (slotAt (d.val.set i q) j) (d.hash.set i x)[j]? _
    rw [slotAt_set hkey, slotAt_set hval, slotAt_set hrows]
    by_cases hji : j = i
    · subst hji
      rw [Function.update_self, Function.update_self, Function.update_self,
        List.getElem?_set_self (by rw [h.lengthHash]; exact hi)]
      exact hslot
    · rw [Function.update_of_ne hji, Function.update_of_ne hji, Function.update_of_ne hji,
        List.getElem?_set_ne (Ne.symm hji)]
      exact (h.slot j hj).congr
        (fun a ha => hother (.key j) a (fun he => hji (Place.key.inj he)) (by simp) ha)
        (fun a ha => hother (.val j) a (by simp) (fun he => hji (Place.val.inj he)) ha)
  · intro j l k v w hj hl
    rw [slotAt_set hrows] at hj hl
    by_cases hji : j = i
    · by_cases hli : l = i
      · rw [hji, hli]
      · rw [hji, Function.update_self] at hj
        rw [Function.update_of_ne hli] at hl
        exact absurd hl (hdistinct k v hj l w hli)
    · rw [Function.update_of_ne hji] at hj
      by_cases hli : l = i
      · rw [hli, Function.update_self] at hl
        exact absurd hj (hdistinct k w hl j v hji)
      · rw [Function.update_of_ne hli] at hl
        exact h.distinct j l k v w hj hl
  · show Owns before mem' (place (d.key.set i p) (d.val.set i q))
    rwa [place_set_val hval, place_set_key hkey]

/-- Setting a slot changes the number of keys by what came and what went. -/
theorem countP_set_slot {row : Option Row} (hi : rows[i]? = some none) (r : Row) (hrow : row = some r) :
    (rows.set i row).countP Option.isSome = rows.countP Option.isSome + 1 := by
  obtain ⟨hlt, hget⟩ := List.getElem?_eq_some_iff.mp hi
  rw [List.countP_set hlt, hget, hrow]
  simp

end Devclego.Dictionaries
