import Mathlib.Data.List.Basic
import Mathlib.Data.List.Nodup
import Mathlib.Data.List.Perm.Subperm
import Mathlib.Data.List.Range

/-!
# Cells behind addresses

A memory of equal cells. An address is handed out once: a freed cell stays
absent, so every later access to it is a fault and no stale pointer is revived.
What a component may touch is the list of addresses it owns. `outside` is the
memory as everybody else sees it, and an operation is local when that view does
not change while ownership moves from one list to the next.
-/
namespace Devclego.Foundation

abbrev Addr := Nat

/-- A pointer: `none` is the null pointer. -/
abbrev Ptr := Option Addr

structure Memory (N : Type) where
  cells : List (Option N)
deriving DecidableEq, Repr

namespace Memory

variable {N : Type}

def read (m : Memory N) (a : Addr) : Option N := (m.cells[a]?).join

/-- Reading through a pointer; a null pointer faults. -/
def load (m : Memory N) (p : Ptr) : Option N := p.bind m.read

/-- Number of addresses handed out so far. -/
def size (m : Memory N) : Nat := m.cells.length

def set (m : Memory N) (a : Addr) (n : Option N) : Memory N := ⟨m.cells.set a n⟩

/-- Overwriting a cell faults unless the cell is live. -/
def write (m : Memory N) (a : Addr) (n : N) : Option (Memory N) :=
  if (m.read a).isSome then some (m.set a (some n)) else none

/-- Freeing a cell twice faults. -/
def free (m : Memory N) (a : Addr) : Option (Memory N) :=
  if (m.read a).isSome then some (m.set a none) else none

def alloc (m : Memory N) (n : N) : Memory N × Addr := (⟨m.cells ++ [some n]⟩, m.cells.length)

@[simp] theorem load_some (m : Memory N) (a : Addr) : m.load (some a) = m.read a := rfl

@[simp] theorem load_none (m : Memory N) : m.load none = none := rfl

theorem lt_size_of_read {m : Memory N} {a : Addr} {n : N} (h : m.read a = some n) : a < m.size := by
  by_contra hge
  have habsent : m.cells[a]? = none := List.getElem?_eq_none (Nat.le_of_not_lt hge)
  simp [read, habsent] at h

theorem read_set_self {m : Memory N} {a : Addr} {n : N} (h : m.read a = some n) (v : Option N) :
    (m.set a v).read a = v := by
  have hlt : a < m.cells.length := lt_size_of_read h
  simp [read, set, hlt]

theorem read_set_ne (m : Memory N) {a b : Addr} (h : b ≠ a) (v : Option N) :
    (m.set a v).read b = m.read b := by
  simp [read, set, List.getElem?_set_ne (Ne.symm h)]

theorem write_live {m : Memory N} {a : Addr} {n : N} (h : m.read a = some n) (v : N) :
    m.write a v = some (m.set a (some v)) := by
  simp [write, h]

theorem free_live {m : Memory N} {a : Addr} {n : N} (h : m.read a = some n) :
    m.free a = some (m.set a none) := by
  simp [free, h]

/-- What was written or freed was live. -/
theorem write_cases {m m' : Memory N} {a : Addr} {n : N} (h : m.write a n = some m') :
    (m.read a).isSome ∧ m' = m.set a (some n) := by
  rw [write] at h
  by_cases hlive : (m.read a).isSome = true
  · rw [if_pos hlive, Option.some.injEq] at h
    exact ⟨hlive, h.symm⟩
  · rw [if_neg hlive] at h
    cases h

theorem free_cases {m m' : Memory N} {a : Addr} (h : m.free a = some m') :
    (m.read a).isSome ∧ m' = m.set a none := by
  rw [free] at h
  by_cases hlive : (m.read a).isSome = true
  · rw [if_pos hlive, Option.some.injEq] at h
    exact ⟨hlive, h.symm⟩
  · rw [if_neg hlive] at h
    cases h

@[simp] theorem size_set (m : Memory N) (a : Addr) (v : Option N) : (m.set a v).size = m.size := List.length_set

@[simp] theorem size_alloc (m : Memory N) (n : N) : (m.alloc n).1.size = m.size + 1 := List.length_append

theorem read_size (m : Memory N) : m.read m.size = none := by
  simp [read, size]

theorem read_alloc_self (m : Memory N) (n : N) : (m.alloc n).1.read m.size = some n := by
  simp [read, alloc, size]

theorem read_alloc_ne (m : Memory N) (n : N) {b : Addr} (h : b ≠ m.size) :
    (m.alloc n).1.read b = m.read b := by
  unfold read alloc size at *
  rcases Nat.lt_or_gt_of_ne h with hlt | hgt
  · simp only [List.getElem?_append_left hlt]
  · have h1 : (m.cells ++ [some n])[b]? = none := List.getElem?_eq_none (by simp; omega)
    have h2 : m.cells[b]? = none := List.getElem?_eq_none (by omega)
    simp only [h1, h2]

/-- The memory as seen by everybody but the owner of `own`. -/
def outside (m : Memory N) (own : List Addr) : Addr → Option N :=
  fun a => if a ∈ own then none else m.read a

theorem outside_congr (m : Memory N) {own own' : List Addr} (h : ∀ a, a ∈ own ↔ a ∈ own') :
    m.outside own = m.outside own' := by
  funext a
  simp only [outside, h a]

/-- Changing cells inside the owned region is invisible outside. -/
theorem outside_eq_of_agree {m m' : Memory N} {own : List Addr}
    (h : ∀ b, b ∉ own → m'.read b = m.read b) : m'.outside own = m.outside own := by
  funext a
  by_cases ha : a ∈ own
  · simp [outside, ha]
  · simp [outside, ha, h a ha]

theorem outside_set (m : Memory N) {own : List Addr} {a : Addr} (ha : a ∈ own) (v : Option N) :
    (m.set a v).outside own = m.outside own :=
  by
  apply outside_eq_of_agree
  intro b hb
  exact read_set_ne m (ne_of_mem_of_not_mem ha hb).symm v

/-- An absent cell may be claimed or given up freely. -/
theorem outside_cons_absent {m : Memory N} {own : List Addr} {a : Addr} (h : m.read a = none) :
    m.outside (a :: own) = m.outside own := by
  funext b
  by_cases hb : b = a
  · subst hb; simp [outside, h]
  · simp [outside, hb]

theorem outside_alloc (m : Memory N) (n : N) (own : List Addr) :
    (m.alloc n).1.outside (m.size :: own) = m.outside own := by
  rw [← outside_cons_absent (read_size m)]
  apply outside_eq_of_agree
  intro b hb
  exact read_alloc_ne m n (fun he => hb (by simp [he]))

/-- The frame rule: a live cell nobody gave to the step keeps its contents and
its owner. -/
theorem frame {m m' : Memory N} {own own' : List Addr} (h : m'.outside own' = m.outside own)
    {a : Addr} {n : N} (hr : m.read a = some n) (ha : a ∉ own) : m'.read a = some n ∧ a ∉ own' := by
  have hv := congrFun h a
  simp only [outside, ha, ↓reduceIte, hr] at hv
  by_cases ho : a ∈ own'
  · simp [ho] at hv
  · simpa [ho] using hv

/-- Two owners of live cells stay apart when one of them makes a local step. -/
theorem frame_disjoint {m m' : Memory N} {own own' other : List Addr}
    (h : m'.outside own' = m.outside own) (hd : own.Disjoint other)
    (hlive : ∀ a ∈ other, (m.read a).isSome) :
    own'.Disjoint other ∧ ∀ a ∈ other, m'.read a = m.read a := by
  have hstep : ∀ a ∈ other, m'.read a = m.read a ∧ a ∉ own' := by
    intro a ha
    obtain ⟨n, hn⟩ := Option.isSome_iff_exists.mp (hlive a ha)
    have hf := frame h hn (fun ho => hd ho ha)
    exact ⟨hf.1.trans hn.symm, hf.2⟩
  exact ⟨fun a ho ha => (hstep a ha).2 ho, fun a ha => (hstep a ha).1⟩

/-- Distinct live cells are at most as many as the addresses handed out. -/
theorem length_le_size {m : Memory N} {own : List Addr} (hn : own.Nodup)
    (hlive : ∀ a ∈ own, (m.read a).isSome) : own.length ≤ m.size := by
  have hsub : own ⊆ List.range m.size := by
    intro a ha
    obtain ⟨n, h⟩ := Option.isSome_iff_exists.mp (hlive a ha)
    exact List.mem_range.mpr (lt_size_of_read h)
  simpa using (hn.subperm hsub).length_le

end Memory

end Devclego.Foundation
