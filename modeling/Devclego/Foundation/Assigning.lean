import Mathlib.Data.List.Basic
import Mathlib.Order.Basic
import Mathlib.Data.Nat.Find

/-!
# Assignments in turn

Elements of a list are assigned to other places of it, one after the other. They all
arrive as they were exactly when none is read where an earlier assignment wrote.
-/
namespace Devclego.Foundation

variable {α : Type} {target source : Nat → Nat} {left k m size : Nat} {xs ys : List α}

/-- `xs[target k] = xs[source k]` for so many `k` in turn. -/
def assignEach (target source : Nat → Nat) : Nat → Nat → List α → Option (List α)
  | 0, _, xs => some xs
  | left + 1, k, xs => do
    let x ← xs[source k]?
    if target k < xs.length then assignEach target source left (k + 1) (xs.set (target k) x) else none

/-- All places are in a list of length `m`, and no two assignments have one of them in common. -/
structure Assignable (target source : Nat → Nat) (size m : Nat) : Prop where
  target_lt : ∀ i < size, target i < m
  source_lt : ∀ i < size, source i < m
  target_inj : ∀ i < size, ∀ j < size, target i = target j → i = j
  source_inj : ∀ i < size, ∀ j < size, source i = source j → i = j

/-- No element is read where an earlier assignment wrote. -/
def Unread (target source : Nat → Nat) (size : Nat) : Prop := ∀ i < size, ∀ j < i, source i ≠ target j

/-- The elements are all where they were assigned to, and nothing else has changed. -/
structure Assigned (target source : Nat → Nat) (k left : Nat) (xs ys : List α) : Prop where
  length_eq : ys.length = xs.length
  assigned : ∀ i, k ≤ i → i < k + left → ys[target i]? = xs[source i]?
  others : ∀ p, (∀ i, k ≤ i → i < k + left → target i ≠ p) → ys[p]? = xs[p]?

def overwrite (dst : Nat) (ys xs : List α) : List α := xs.take dst ++ ys ++ xs.drop (dst + ys.length)

variable {dst : Nat}

theorem length_overwrite (h : dst + ys.length ≤ xs.length) : (overwrite dst ys xs).length = xs.length := by
  rw [overwrite, List.length_append, List.length_append, List.length_take, List.length_drop]
  omega

theorem getElem?_overwrite_in (h : dst + ys.length ≤ xs.length) {i : Nat} (hi : i < ys.length) :
    (overwrite dst ys xs)[dst + i]? = ys[i]? := by
  have htake : (xs.take dst).length = dst := by
    rw [List.length_take]
    omega
  rw [overwrite, List.append_assoc, List.getElem?_append_right (by omega), htake, Nat.add_sub_cancel_left,
    List.getElem?_append_left hi]

theorem getElem?_overwrite_out (h : dst + ys.length ≤ xs.length) {p : Nat} (hp : p < dst ∨ dst + ys.length ≤ p) :
    (overwrite dst ys xs)[p]? = xs[p]? := by
  have htake : (xs.take dst).length = dst := by
    rw [List.length_take]
    omega
  rw [overwrite, List.append_assoc]
  rcases hp with hp | hp
  · rw [List.getElem?_append_left (by omega), List.getElem?_take_of_lt hp]
  · rw [List.getElem?_append_right (by omega), List.getElem?_append_right (by omega), List.getElem?_drop, htake]
    congr 1
    omega

theorem Assigned.unique {ys' : List α} (h : Assigned target source k left xs ys)
    (h' : Assigned target source k left xs ys') : ys = ys' := by
  apply List.ext_getElem?
  intro p
  by_cases hp : ∃ i, k ≤ i ∧ i < k + left ∧ target i = p
  · obtain ⟨i, hi, hlt, rfl⟩ := hp
    rw [h.assigned i hi hlt, h'.assigned i hi hlt]
  · have hothers : ∀ i, k ≤ i → i < k + left → target i ≠ p := fun i hi hlt he => hp ⟨i, hi, hlt, he⟩
    rw [h.others p hothers, h'.others p hothers]

theorem assignEach_step (h : assignEach target source (left + 1) k xs = some ys) :
    ∃ x, xs[source k]? = some x ∧ target k < xs.length ∧
      assignEach target source left (k + 1) (xs.set (target k) x) = some ys := by
  obtain ⟨x, hx, hrest⟩ := Option.bind_eq_some_iff.mp h
  split at hrest
  · exact ⟨x, hx, ‹_›, hrest⟩
  · cases hrest

theorem assignEach_add (a b k : Nat) (xs : List α) :
    assignEach target source (a + b) k xs = (assignEach target source a k xs).bind (assignEach target source b (k + a)) := by
  induction a generalizing k xs with
  | zero => rw [Nat.zero_add, assignEach, Option.bind_some, Nat.add_zero]
  | succ a ih =>
    rw [Nat.add_right_comm, assignEach, assignEach, Option.bind_eq_bind, Option.bind_assoc]
    refine congrArg _ (funext fun x => ?_)
    split
    · rw [ih, Nat.add_assoc, Nat.add_comm 1 a]
    · rfl

theorem assignEach_others (h : assignEach target source left k xs = some ys) (p : Nat)
    (hp : ∀ i, k ≤ i → i < k + left → target i ≠ p) : ys[p]? = xs[p]? := by
  induction left generalizing k xs with
  | zero =>
    cases h
    rfl
  | succ left ih =>
    obtain ⟨x, -, -, hrest⟩ := assignEach_step h
    rw [ih hrest fun i hi hlt => hp i (by omega) (by omega), List.getElem?_set_ne (hp k (Nat.le_refl k) (by omega))]

/-- Nothing is read too late. -/
theorem assignEach_unread (hplaces : Assignable target source size m) (hunread : Unread target source size)
    (hk : k + left ≤ size) (hlen : xs.length = m) :
    ∃ ys, assignEach target source left k xs = some ys ∧ Assigned target source k left xs ys := by
  induction left generalizing k xs with
  | zero => exact ⟨xs, rfl, rfl, fun i hi hlt => absurd hlt (Nat.not_lt.mpr hi), fun _ _ => rfl⟩
  | succ left ih =>
    have hsource : source k < xs.length := hlen ▸ hplaces.source_lt k (by omega)
    have htarget : target k < xs.length := hlen ▸ hplaces.target_lt k (by omega)
    obtain ⟨x, hread⟩ : ∃ x, xs[source k]? = some x := ⟨_, List.getElem?_eq_getElem hsource⟩
    obtain ⟨ys, hys, hlength, hassigned, hothers⟩ :=
      @ih (k + 1) (xs.set (target k) x) (by omega) (by rw [List.length_set, hlen])
    refine ⟨ys, ?_, ?_, ?_, ?_⟩
    · rw [assignEach, hread]
      exact (if_pos htarget).trans hys
    · rw [hlength, List.length_set]
    · intro i hi hlt
      by_cases hik : i = k
      · -- the later assignments go elsewhere
        rw [hik, hothers, List.getElem?_set_self htarget, hread]
        intro j hj hjlt he
        exact absurd (hplaces.target_inj j (by omega) k (by omega) he) (by omega)
      · rw [hassigned i (by omega) (by omega), List.getElem?_set_ne]
        exact fun he => hunread i (by omega) k (by omega) he.symm
    · intro p hp
      rw [hothers p fun i hi hlt => hp i (by omega) (by omega), List.getElem?_set_ne (hp k (Nat.le_refl k) (by omega))]

/-- The first element that is read too late is another one in some list. -/
theorem unread_of_assigned {x y : α} (hxy : x ≠ y) (hplaces : Assignable target source size m)
    (h : ∀ xs : List α, xs.length = m →
      ∃ ys, assignEach target source size 0 xs = some ys ∧ Assigned target source 0 size xs ys) :
    Unread target source size := by
  classical
  intro i hi j hj he
  -- `i` is the first of its kind
  induction i using Nat.strong_induction_on generalizing j with
  | h i ih =>
    have hbefore : Unread target source i := by
      intro i' hi' j' hj' he'
      exact ih i' hi' (by omega) j' hj' he'
    have hprefix : Assignable target source i m := by
      constructor
      · exact fun i' hi' => hplaces.target_lt i' (by omega)
      · exact fun i' hi' => hplaces.source_lt i' (by omega)
      · exact fun i' hi' j' hj' => hplaces.target_inj i' (by omega) j' (by omega)
      · exact fun i' hi' j' hj' => hplaces.source_inj i' (by omega) j' (by omega)
    have hsource := hplaces.source_lt j (by omega)
    have hlen : ((List.replicate m x).set (source j) y).length = m := by rw [List.length_set, List.length_replicate]
    obtain ⟨ys, hys, -, hassigned, -⟩ := h _ hlen
    obtain ⟨mid, hmid, -, hearly, -⟩ := assignEach_unread hprefix hbefore (Nat.le_of_eq (Nat.zero_add i)) hlen
    obtain ⟨left, rfl⟩ : ∃ left, size = i + (left + 1) := ⟨size - (i + 1), by omega⟩
    rw [assignEach_add, hmid, Option.bind_some, Nat.zero_add] at hys
    obtain ⟨z, hz, htarget, hrest⟩ := assignEach_step hys
    have hlate : z = y := by
      rw [he, hearly j (Nat.zero_le j) (by omega), List.getElem?_set_self (by rwa [List.length_replicate])] at hz
      exact (Option.some.inj hz).symm
    have hkept : ys[target i]? = some y := by
      rw [assignEach_others hrest, List.getElem?_set_self htarget, hlate]
      intro i' hi' hlt he'
      exact absurd (hplaces.target_inj i' (by omega) i (by omega) he') (by omega)
    rw [hassigned i (Nat.zero_le i) (by omega), List.getElem?_set_ne, List.getElem?_replicate,
      if_pos (hplaces.source_lt i (by omega))] at hkept
    · exact hxy (Option.some.inj hkept)
    · exact fun he' => absurd (hplaces.source_inj j (by omega) i (by omega) he') (by omega)

end Devclego.Foundation
