import Devclego.Foundation.Split
import Mathlib.Data.List.Forall2

/-!
# Ranks in a multiset cut in two

A tally written out is a sorted list. Two sorted lists that hold every key equally often
agree place by place, up to equal keys. So the greatest lower key and the least upper
key of an ordered cut stand side by side in every sorted list of the multiset.
-/
namespace Devclego.Foundation

open Tally

variable {D : Type} {cmp : D → D → Int}

def SortedBy (cmp : D → D → Int) (xs : List D) : Prop := xs.Pairwise fun a b => cmp a b ≤ 0

/-- How often the key `k` occurs. -/
def occurrences (cmp : D → D → Int) (xs : List D) (k : D) : Nat := xs.countP fun d => decide (cmp k d = 0)

theorem occurrences_cons (d : D) (xs : List D) (k : D) :
    occurrences cmp (d :: xs) k = occurrences cmp xs k + if cmp k d = 0 then 1 else 0 := by
  by_cases hk : cmp k d = 0
  · simp [occurrences, hk]
  · simp [occurrences, hk]

theorem exists_sorted (order : TotalOrder cmp) (xs : List D) :
    ∃ sorted, sorted.Perm xs ∧ SortedBy cmp sorted := by
  have htrans : ∀ a b c : D, decide (cmp a b ≤ 0) = true → decide (cmp b c ≤ 0) = true →
      decide (cmp a c ≤ 0) = true := fun a b c hab hbc =>
    decide_eq_true (order.trans a b c (of_decide_eq_true hab) (of_decide_eq_true hbc))
  have htotal : ∀ a b : D, (decide (cmp a b ≤ 0) || decide (cmp b a ≤ 0)) = true := by
    intro a b
    have hanti := order.antisymm b a
    rw [Bool.or_eq_true, decide_eq_true_eq, decide_eq_true_eq]
    omega
  exact ⟨xs.mergeSort fun a b => decide (cmp a b ≤ 0), List.mergeSort_perm xs _,
    (List.pairwise_mergeSort htrans htotal xs).imp of_decide_eq_true⟩

/-- A sorted list begins with a least key. -/
theorem SortedBy.head_le (order : TotalOrder cmp) {a d : D} {xs : List D} (h : SortedBy cmp (a :: xs))
    (hd : 0 < occurrences cmp (a :: xs) d) : cmp a d ≤ 0 := by
  obtain ⟨x, hx, hdx⟩ := List.countP_pos_iff.mp hd
  have hxd : cmp x d = 0 := (order.eq_comm d x).mp (of_decide_eq_true hdx)
  rcases List.mem_cons.mp hx with rfl | hx
  · exact Int.le_of_eq hxd
  · exact order.trans a x d ((List.pairwise_cons.mp h).1 x hx) (Int.le_of_eq hxd)

theorem alike_of_sorted (order : TotalOrder cmp) {xs ys : List D} (hx : SortedBy cmp xs) (hy : SortedBy cmp ys)
    (hcount : ∀ k, occurrences cmp xs k = occurrences cmp ys k) :
    List.Forall₂ (fun a b => cmp a b = 0) xs ys := by
  have hself : ∀ (d : D) (zs : List D), 0 < occurrences cmp (d :: zs) d := by
    intro d zs
    rw [occurrences_cons, if_pos (order.refl d)]
    exact Nat.succ_pos _
  induction xs generalizing ys with
  | nil =>
    cases ys with
    | nil => exact .nil
    | cons b ys =>
      have hpos := hself b ys
      rw [← hcount b] at hpos
      cases hpos
  | cons a xs ih =>
    cases ys with
    | nil =>
      have hpos := hself a xs
      rw [hcount a] at hpos
      cases hpos
    | cons b ys =>
      have hab : cmp a b ≤ 0 := hx.head_le order (by rw [hcount b]; exact hself b ys)
      have hba : cmp b a ≤ 0 := hy.head_le order (by rw [← hcount a]; exact hself a xs)
      have heq : cmp a b = 0 := by
        have hanti := order.antisymm a b
        omega
      refine .cons heq (ih (List.pairwise_cons.mp hx).2 (List.pairwise_cons.mp hy).2 fun k => ?_)
      have hk := hcount k
      have hcongr : cmp k a = 0 ↔ cmp k b = 0 := by
        rw [order.eq_comm k a, order.eq_comm k b]
        exact (order.congr_left heq k).2
      rw [occurrences_cons, occurrences_cons] at hk
      simp only [hcongr] at hk
      exact Nat.add_right_cancel hk

/-! ## Tallies written out -/

def expand (xs : List (Entry D)) : List D := xs.flatMap fun e => List.replicate e.ref.toNat e.data

variable {xs lo hi : List (Entry D)} {e : Entry D} {sorted : List D}

theorem mem_expand {d : D} (h : d ∈ expand xs) : ∃ e ∈ xs, d = e.data := by
  obtain ⟨e, he, hd⟩ := List.mem_flatMap.mp h
  exact ⟨e, he, List.eq_of_mem_replicate hd⟩

theorem length_expand (h : ∀ e ∈ xs, 1 ≤ e.ref) : ((expand xs).length : Int) = total xs := by
  induction xs with
  | nil => rfl
  | cons u us ih =>
    have hu := h u (List.mem_cons_self ..)
    have hrest := ih fun e he => h e (List.mem_cons_of_mem u he)
    have hcons : expand (u :: us) = List.replicate u.ref.toNat u.data ++ expand us := List.flatMap_cons
    rw [hcons, List.length_append, List.length_replicate, total_cons]
    omega

theorem occurrences_expand (order : TotalOrder cmp) (h : Wf cmp xs) (k : D) :
    (occurrences cmp (expand xs) k : Int) = mult cmp xs k := by
  induction xs with
  | nil => rfl
  | cons u us ih =>
    have hus : Wf cmp us := ⟨(List.pairwise_cons.mp h.increasing).2, fun e he => h.positive e (List.mem_cons_of_mem u he)⟩
    have hu := h.positive u (List.mem_cons_self ..)
    have hcons : expand (u :: us) = List.replicate u.ref.toNat u.data ++ expand us := List.flatMap_cons
    have hrest := ih hus
    rw [occurrences] at hrest
    rw [hcons, occurrences, List.countP_append, List.countP_replicate]
    by_cases hk : cmp k u.data = 0
    · have hnone : find cmp us k = none := by
        refine find_eq_none_iff.mpr fun v hv hkv => ?_
        have huv : cmp u.data v.data < 0 := (List.pairwise_cons.mp h.increasing).1 v hv
        have hkv' := (order.congr_left hk v.data).1.mpr huv
        omega
      have hmult : mult cmp us k = 0 := by rw [mult, hnone]; rfl
      have hmult' : mult cmp (u :: us) k = u.ref := by simp [mult, find, lookup, hk]
      rw [hmult']
      simp only [hk, decide_true, if_true]
      omega
    · have hmult' : mult cmp (u :: us) k = mult cmp us k := by simp [mult, find, lookup, hk]
      rw [hmult']
      simp only [hk, decide_false, Bool.false_eq_true, if_false]
      omega

theorem sorted_expand (order : TotalOrder cmp) (h : Wf cmp xs) : SortedBy cmp (expand xs) := by
  refine List.pairwise_flatMap.mpr ⟨fun e _ => ?_, h.increasing.imp fun {u v} huv a ha b hb => ?_⟩
  · exact List.pairwise_replicate.mpr (Or.inr (Int.le_of_eq (order.refl e.data)))
  · rw [List.eq_of_mem_replicate ha, List.eq_of_mem_replicate hb]
    exact Int.le_of_lt huv

theorem expand_last (hpos : 1 ≤ e.ref) (he : xs.getLast? = some e) : (expand xs).getLast? = some e.data := by
  obtain ⟨init, rfl⟩ := List.getLast?_eq_some_iff.mp he
  obtain ⟨n, hn⟩ : ∃ n, e.ref.toNat = n + 1 := ⟨e.ref.toNat - 1, by omega⟩
  have hexpand : expand (init ++ [e]) = expand init ++ List.replicate e.ref.toNat e.data := by
    simp [expand]
  rw [hexpand, hn, List.replicate_succ', ← List.append_assoc, List.getLast?_concat]

theorem expand_head (hpos : 1 ≤ e.ref) (he : xs.head? = some e) : (expand xs).head? = some e.data := by
  obtain ⟨rest, rfl⟩ := List.head?_eq_some_iff.mp he
  obtain ⟨n, hn⟩ : ∃ n, e.ref.toNat = n + 1 := ⟨e.ref.toNat - 1, by omega⟩
  have hexpand : expand (e :: rest) = List.replicate e.ref.toNat e.data ++ expand rest := List.flatMap_cons
  rw [hexpand, hn, List.replicate_succ]
  rfl

/-! ## The two sides of a cut -/

/-- The list is a sorted one of the multiset that the parts hold together. -/
structure CutOf (cmp : D → D → Int) (lo hi : List (Entry D)) (sorted : List D) : Prop where
  lo_wf : Wf cmp lo
  hi_wf : Wf cmp hi
  ordered : Ordered cmp lo hi
  in_order : SortedBy cmp sorted
  mult : ∀ k, Tally.mult cmp lo k + Tally.mult cmp hi k = occurrences cmp sorted k

theorem CutOf.alike (order : TotalOrder cmp) (h : CutOf cmp lo hi sorted) :
    List.Forall₂ (fun a b => cmp a b = 0) (expand lo ++ expand hi) sorted := by
  refine alike_of_sorted order ?_ h.in_order fun k => ?_
  · refine List.pairwise_append.mpr ⟨sorted_expand order h.lo_wf, sorted_expand order h.hi_wf, fun a ha b hb => ?_⟩
    obtain ⟨u, hu, rfl⟩ := mem_expand ha
    obtain ⟨v, hv, rfl⟩ := mem_expand hb
    exact h.ordered u hu v hv
  · have hlo := occurrences_expand order h.lo_wf k
    have hhi := occurrences_expand order h.hi_wf k
    have hmult := h.mult k
    rw [occurrences] at hlo hhi
    rw [occurrences, List.countP_append]
    omega

theorem CutOf.place (order : TotalOrder cmp) (h : CutOf cmp lo hi sorted) {i : Nat} {d : D}
    (hd : (expand lo ++ expand hi)[i]? = some d) : ∃ y, sorted[i]? = some y ∧ cmp d y = 0 := by
  have halike := h.alike order
  obtain ⟨hi', hd'⟩ := List.getElem?_eq_some_iff.mp hd
  have hlen : i < sorted.length := by rwa [← halike.length_eq]
  refine ⟨sorted[i], List.getElem?_eq_getElem hlen, ?_⟩
  rw [← hd']
  exact halike.get hi' hlen

/-- The greatest lower key closes the lower part. -/
theorem CutOf.last (order : TotalOrder cmp) (h : CutOf cmp lo hi sorted) (he : lo.getLast? = some e) :
    ∃ (i : Nat) (y : D), (i : Int) + 1 = total lo ∧ sorted[i]? = some y ∧ cmp e.data y = 0 := by
  have hpos := h.lo_wf.positive e (List.mem_of_getLast? he)
  have hlast := expand_last hpos he
  have hlen := length_expand h.lo_wf.positive
  obtain ⟨init, hinit⟩ := List.getLast?_eq_some_iff.mp hlast
  have hd : (expand lo ++ expand hi)[init.length]? = some e.data := by
    rw [hinit, List.append_assoc, List.getElem?_append_right (Nat.le_refl _), Nat.sub_self]
    rfl
  obtain ⟨y, hy, hcmp⟩ := h.place order hd
  refine ⟨init.length, y, ?_, hy, hcmp⟩
  rw [hinit, List.length_append, List.length_singleton] at hlen
  exact_mod_cast hlen

/-- The least upper key follows it. -/
theorem CutOf.head (order : TotalOrder cmp) (h : CutOf cmp lo hi sorted) (he : hi.head? = some e) :
    ∃ (i : Nat) (y : D), (i : Int) = total lo ∧ sorted[i]? = some y ∧ cmp e.data y = 0 := by
  have hpos := h.hi_wf.positive e (List.mem_of_head? he)
  have hhead := expand_head hpos he
  have hlen := length_expand h.lo_wf.positive
  have hd : (expand lo ++ expand hi)[(expand lo).length]? = some e.data := by
    rw [List.getElem?_append_right (Nat.le_refl _), Nat.sub_self, ← List.head?_eq_getElem?, hhead]
  obtain ⟨y, hy, hcmp⟩ := h.place order hd
  exact ⟨(expand lo).length, y, hlen, hy, hcmp⟩

end Devclego.Foundation
