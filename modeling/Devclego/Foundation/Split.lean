import Devclego.Foundation.Tally

/-!
# A multiset cut in two

Two tallies hold the lower and the upper part of one multiset. A shift gives one
occurrence of the greatest lower key to the upper part, or of the least upper key
to the lower part. Any number of shifts conserves the multiset and the order of
the parts.
-/
namespace Devclego.Foundation

open Tally

variable {D : Type} {cmp : D → D → Int} {lo hi lo' hi' : List (Entry D)} {e : Entry D}

/-- Finitely many shifts, in any order. -/
inductive Shifts (cmp : D → D → Int) :
    List (Entry D) → List (Entry D) → List (Entry D) → List (Entry D) → Prop where
  | refl (lo hi : List (Entry D)) : Shifts cmp lo hi lo hi
  | up {lo hi lo' hi' : List (Entry D)} {e : Entry D} (he : hi.head? = some e)
      (h : Shifts cmp (add cmp ⟨e.data, 1⟩ lo) (takeOne cmp e.data hi) lo' hi') : Shifts cmp lo hi lo' hi'
  | down {lo hi lo' hi' : List (Entry D)} {e : Entry D} (he : lo.getLast? = some e)
      (h : Shifts cmp (takeOne cmp e.data lo) (add cmp ⟨e.data, 1⟩ hi) lo' hi') : Shifts cmp lo hi lo' hi'

theorem Shifts.trans {lo'' hi'' : List (Entry D)} (h : Shifts cmp lo hi lo' hi')
    (h' : Shifts cmp lo' hi' lo'' hi'') : Shifts cmp lo hi lo'' hi'' := by
  induction h with
  | refl => exact h'
  | up he _ ih => exact .up he (ih h')
  | down he _ ih => exact .down he (ih h')

/-- No lower key exceeds an upper one. -/
def Ordered (cmp : D → D → Int) (lo hi : List (Entry D)) : Prop :=
  ∀ u ∈ lo, ∀ v ∈ hi, cmp u.data v.data ≤ 0

/-- One occurrence leaves one part and enters the other. -/
theorem mult_exchange (order : TotalOrder cmp) {xs ys : List (Entry D)} (hx : Wf cmp xs) (hy : Wf cmp ys)
    (he : e ∈ ys) (k : D) :
    mult cmp (add cmp ⟨e.data, 1⟩ xs) k + mult cmp (takeOne cmp e.data ys) k =
      mult cmp xs k + mult cmp ys k := by
  rw [mult_add order hx, mult_takeOne order hy]
  by_cases hk : cmp k e.data = 0
  · have hf : find cmp ys k = some e := (find_congr order hk ys).trans (find_of_mem order hy.increasing he)
    simp only [hk, hf, Option.isSome_some, and_self, ↓reduceIte]
    omega
  · simp only [hk, false_and, ↓reduceIte]
    omega

theorem Shifts.mult (order : TotalOrder cmp) (h : Shifts cmp lo hi lo' hi') (hlo : Wf cmp lo)
    (hhi : Wf cmp hi) (k : D) :
    mult cmp lo' k + mult cmp hi' k = mult cmp lo k + mult cmp hi k := by
  induction h with
  | refl => rfl
  | up he _ ih =>
    rw [ih (hlo.add order (Int.le_refl 1)) (hhi.takeOne order _)]
    exact mult_exchange order hlo hhi (List.mem_of_head? he) k
  | down he _ ih =>
    rw [ih (hlo.takeOne order _) (hhi.add order (Int.le_refl 1)), Int.add_comm,
      mult_exchange order hhi hlo (List.mem_of_getLast? he) k, Int.add_comm]

theorem Shifts.ordered (order : TotalOrder cmp) (h : Shifts cmp lo hi lo' hi') (hlo : Wf cmp lo)
    (hhi : Wf cmp hi) (ho : Ordered cmp lo hi) : Ordered cmp lo' hi' := by
  induction h with
  | refl => exact ho
  | up he _ ih =>
    refine ih (hlo.add order (Int.le_refl 1)) (hhi.takeOne order _) fun u hu v hv => ?_
    obtain ⟨w, hw, hvw⟩ := mem_adjust proper_lessOne hv
    rw [hvw]
    rcases mem_add hu with hue | ⟨u', hu', rfl⟩
    · rw [hue]
      exact hhi.increasing.head_le order he w hw
    · exact ho u hu' w hw
  | down he _ ih =>
    refine ih (hlo.takeOne order _) (hhi.add order (Int.le_refl 1)) fun u hu v hv => ?_
    obtain ⟨w, hw, huw⟩ := mem_adjust proper_lessOne hu
    rw [huw]
    rcases mem_add hv with hve | ⟨v', hv', rfl⟩
    · rw [hve]
      exact hlo.increasing.le_last order he w hw
    · exact ho w hw v hv'

end Devclego.Foundation
