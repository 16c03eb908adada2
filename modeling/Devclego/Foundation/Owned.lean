import Mathlib.Logic.Function.Basic
import Devclego.Foundation.Memory

/-!
# Blocks that places own

A component that allocates and frees keeps its blocks at places, one block at a place
at most. Beside these blocks the memory is as it was before the component began; when
no place holds anything any more, nothing was leaked.
-/
namespace Devclego.Foundation

variable {P N : Type} {before : Addr → Option N} {mem : Memory N} {place : P → Ptr} {x : P} {a : Addr}

structure Owns (before : Addr → Option N) (mem : Memory N) (place : P → Ptr) : Prop where
  injective : ∀ x y a, place x = some a → place y = some a → x = y
  live : ∀ x a, place x = some a → (mem.read a).isSome
  fresh : ∀ x a, place x = some a → before a = none
  frame : ∀ a, (∀ x, place x ≠ some a) → mem.read a = before a

theorem owns_nothing (mem : Memory N) : Owns mem.read mem fun _ : P => none where
  injective := by
    intro x y a hx
    cases hx
  live := by
    intro x a hx
    cases hx
  fresh := by
    intro x a hx
    cases hx
  frame := fun _ _ => rfl

/-- A component that holds nothing has leaked nothing. -/
theorem Owns.nothing_left (h : Owns before mem place) (hnone : ∀ x, place x = none) : mem.read = before := by
  funext a
  apply h.frame a
  intro x hx
  cases (hnone x).symm.trans hx

theorem Owns.read (h : Owns before mem place) (hx : place x = some a) : ∃ n, mem.read a = some n :=
  Option.isSome_iff_exists.mp (h.live x a hx)

theorem Owns.size_unowned (h : Owns before mem place) (x : P) : place x ≠ some mem.size := by
  intro hx
  have hlive := h.live x mem.size hx
  simp [mem.read_size] at hlive

/-- What the other places hold stays as it is. -/
theorem Owns.read_set_other (h : Owns before mem place) {y : P} {b : Addr} (hx : place x = some a) (hy : place y = some b)
    (hyx : y ≠ x) (v : Option N) : (mem.set a v).read b = mem.read b := by
  apply mem.read_set_ne
  rintro rfl
  exact hyx (h.injective y x b hy hx)

theorem Owns.read_alloc (h : Owns before mem place) (hx : place x = some a) (n : N) :
    (mem.alloc n).1.read a = mem.read a := by
  apply mem.read_alloc_ne
  rintro rfl
  exact h.size_unowned x hx

variable [DecidableEq P]

/-- A new block comes to a place that holds none. -/
theorem Owns.alloc (h : Owns before mem place) (hx : place x = none) (n : N) :
    Owns before (mem.alloc n).1 (Function.update place x (some mem.size)) := by
  have hbefore : before mem.size = none := by
    rw [← h.frame mem.size h.size_unowned, mem.read_size]
  have hcases : ∀ y b, Function.update place x (some mem.size) y = some b →
      y = x ∧ b = mem.size ∨ y ≠ x ∧ b ≠ mem.size ∧ place y = some b := by
    intro y b hy
    by_cases hyx : y = x
    · rw [hyx, Function.update_self] at hy
      exact Or.inl ⟨hyx, (Option.some.inj hy).symm⟩
    · rw [Function.update_of_ne hyx] at hy
      exact Or.inr ⟨hyx, fun hb => h.size_unowned y (hb ▸ hy), hy⟩
  constructor
  · intro y z b hy hz
    rcases hcases y b hy with ⟨rfl, hb⟩ | ⟨-, hb, hy'⟩
    · rcases hcases z b hz with ⟨rfl, -⟩ | ⟨-, hb', -⟩
      · rfl
      · exact absurd hb hb'
    · rcases hcases z b hz with ⟨rfl, hb'⟩ | ⟨-, -, hz'⟩
      · exact absurd hb' hb
      · exact h.injective y z b hy' hz'
  · intro y b hy
    rcases hcases y b hy with ⟨-, rfl⟩ | ⟨-, hb, hy'⟩
    · rw [mem.read_alloc_self]
      rfl
    · rw [mem.read_alloc_ne n hb]
      exact h.live y b hy'
  · intro y b hy
    rcases hcases y b hy with ⟨-, rfl⟩ | ⟨-, -, hy'⟩
    · exact hbefore
    · exact h.fresh y b hy'
  · intro b hb
    have hsize : b ≠ mem.size := by
      rintro rfl
      exact hb x (Function.update_self ..)
    rw [mem.read_alloc_ne n hsize]
    apply h.frame b
    intro y hy
    apply hb y
    by_cases hyx : y = x
    · rw [hyx, hx] at hy
      cases hy
    · rw [Function.update_of_ne hyx, hy]

/-- The block of a place is freed. -/
theorem Owns.free (h : Owns before mem place) (hx : place x = some a) :
    mem.free a = some (mem.set a none) ∧ Owns before (mem.set a none) (Function.update place x none) := by
  obtain ⟨n, hn⟩ := h.read hx
  have hcases : ∀ y b, Function.update place x none y = some b → place y = some b ∧ b ≠ a := by
    intro y b hy
    by_cases hyx : y = x
    · rw [hyx, Function.update_self] at hy
      cases hy
    · rw [Function.update_of_ne hyx] at hy
      refine ⟨hy, ?_⟩
      rintro rfl
      exact hyx (h.injective y x b hy hx)
  refine ⟨Memory.free_live hn, ?_⟩
  constructor
  · exact fun y z b hy hz => h.injective y z b (hcases y b hy).1 (hcases z b hz).1
  · intro y b hy
    obtain ⟨hy', hb⟩ := hcases y b hy
    rw [mem.read_set_ne hb]
    exact h.live y b hy'
  · exact fun y b hy => h.fresh y b (hcases y b hy).1
  · intro b hb
    by_cases hba : b = a
    · rw [hba, Memory.read_set_self hn]
      exact (h.fresh x a hx).symm
    · rw [mem.read_set_ne hba]
      apply h.frame b
      intro y hy
      apply hb y
      have hyx : y ≠ x := by
        rintro rfl
        exact hba (Option.some.inj (hy.symm.trans hx))
      rw [Function.update_of_ne hyx, hy]

end Devclego.Foundation
