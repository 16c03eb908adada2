import Mathlib.Data.List.Basic
import Mathlib.Data.List.Pairwise

/-!
# Lists sorted by a comparison function

The comparison returns an integer whose sign orders its arguments, and elements
are compared by a key. A strictly increasing list holds each key once, so it is
a finite map: `lookup` returns the one element whose key compares equal.
-/
namespace Devclego.Foundation

variable {D α : Type}

/-- A total order up to equal keys: sign-antisymmetric and transitive. -/
structure TotalOrder (cmp : D → D → Int) : Prop where
  antisymm : ∀ a b, cmp a b < 0 ↔ 0 < cmp b a
  trans : ∀ a b c, cmp a b ≤ 0 → cmp b c ≤ 0 → cmp a c ≤ 0

namespace TotalOrder

variable {cmp : D → D → Int} (order : TotalOrder cmp)
include order

theorem refl (a : D) : cmp a a = 0 := by
  have h := order.antisymm a a
  omega

theorem eq_comm (a b : D) : cmp a b = 0 ↔ cmp b a = 0 := by
  have h := order.antisymm a b
  have h' := order.antisymm b a
  omega

theorem lt_of_lt_of_le {a b c : D} (hab : cmp a b < 0) (hbc : cmp b c ≤ 0) : cmp a c < 0 := by
  have hac := order.trans a b c (by omega) hbc
  by_contra hge
  have hca : cmp c a = 0 := (order.eq_comm a c).mp (by omega)
  have hba := order.trans b c a hbc (by omega)
  have := (order.antisymm a b).mp hab
  omega

theorem lt_of_le_of_lt {a b c : D} (hab : cmp a b ≤ 0) (hbc : cmp b c < 0) : cmp a c < 0 := by
  have hac := order.trans a b c hab (by omega)
  by_contra hge
  have hca : cmp c a = 0 := (order.eq_comm a c).mp (by omega)
  have hcb := order.trans c a b (by omega) hab
  have := (order.antisymm b c).mp hbc
  omega

theorem lt_trans {a b c : D} (hab : cmp a b < 0) (hbc : cmp b c < 0) : cmp a c < 0 :=
  order.lt_of_lt_of_le hab (by omega)

theorem not_lt_of_le {a b : D} (h : cmp a b ≤ 0) : ¬ cmp b a < 0 := by
  have := order.antisymm b a
  omega

/-- Equal keys compare alike on the left. -/
theorem congr_left {a b : D} (h : cmp a b = 0) (c : D) :
    (cmp a c < 0 ↔ cmp b c < 0) ∧ (cmp a c = 0 ↔ cmp b c = 0) := by
  have hba := (order.eq_comm a b).mp h
  have hlt : cmp a c < 0 ↔ cmp b c < 0 :=
    ⟨fun hc => order.lt_of_le_of_lt (by omega) hc, fun hc => order.lt_of_le_of_lt (by omega) hc⟩
  have hle : cmp a c ≤ 0 ↔ cmp b c ≤ 0 :=
    ⟨fun hc => order.trans b a c (by omega) hc, fun hc => order.trans a b c (by omega) hc⟩
  exact ⟨hlt, by omega⟩

/-- Equal keys compare alike on the right. -/
theorem congr_right {a b : D} (h : cmp a b = 0) (c : D) :
    (cmp c a < 0 ↔ cmp c b < 0) ∧ (cmp c a = 0 ↔ cmp c b = 0) := by
  have hba := (order.eq_comm a b).mp h
  have hlt : cmp c a < 0 ↔ cmp c b < 0 :=
    ⟨fun hc => order.lt_of_lt_of_le hc (by omega), fun hc => order.lt_of_lt_of_le hc (by omega)⟩
  have hle : cmp c a ≤ 0 ↔ cmp c b ≤ 0 :=
    ⟨fun hc => order.trans c a b hc (by omega), fun hc => order.trans c b a hc (by omega)⟩
  exact ⟨hlt, by omega⟩

end TotalOrder

/-- Strictly increasing keys. -/
def Increasing (cmp : D → D → Int) (key : α → D) (xs : List α) : Prop :=
  xs.Pairwise fun x y => cmp (key x) (key y) < 0

/-- The element whose key equals `k`. -/
def lookup (cmp : D → D → Int) (key : α → D) (xs : List α) (k : D) : Option α :=
  xs.find? fun x => decide (cmp k (key x) = 0)

/-- The key `k` falls between the two lists. -/
structure Gap (cmp : D → D → Int) (key : α → D) (k : D) (x y : List α) : Prop where
  left : ∀ u ∈ x, cmp (key u) k < 0
  right : ∀ u ∈ y, cmp k (key u) < 0

variable {cmp : D → D → Int} {key : α → D}

theorem increasing_nil : Increasing cmp key [] := List.Pairwise.nil

theorem Increasing.sublist {xs ys : List α} (h : Increasing cmp key ys) (hs : List.Sublist xs ys) :
    Increasing cmp key xs :=
  List.Pairwise.sublist hs h

theorem Increasing.gap {x y : List α} {e : α} (h : Increasing cmp key (x ++ e :: y)) :
    Gap cmp key (key e) x y := by
  obtain ⟨-, hey, hx⟩ := List.pairwise_append.mp h
  exact ⟨fun u hu => hx u hu e (by simp), fun u hu => (List.pairwise_cons.mp hey).1 u hu⟩

theorem Increasing.cross {x y : List α} (h : Increasing cmp key (x ++ y)) :
    ∀ u ∈ x, ∀ v ∈ y, cmp (key u) (key v) < 0 :=
  (List.pairwise_append.mp h).2.2

/-- Placing an element into a gap keeps the list increasing. -/
theorem Increasing.insert {x y : List α} {e : α} (h : Increasing cmp key (x ++ y))
    (hg : Gap cmp key (key e) x y) : Increasing cmp key (x ++ e :: y) := by
  obtain ⟨hx, hy, hxy⟩ := List.pairwise_append.mp h
  refine List.pairwise_append.mpr ⟨hx, List.pairwise_cons.mpr ⟨hg.right, hy⟩, ?_⟩
  intro u hu v hv
  rcases List.mem_cons.mp hv with rfl | hv
  · exact hg.left u hu
  · exact hxy u hu v hv

theorem Increasing.remove {x y : List α} {e : α} (h : Increasing cmp key (x ++ e :: y)) :
    Increasing cmp key (x ++ y) :=
  h.sublist (List.Sublist.append (List.Sublist.refl x) (List.sublist_cons_self e y))

/-- Replacing an element by one of the same key keeps the list increasing. -/
theorem Increasing.replace (order : TotalOrder cmp) {x y : List α} {e e' : α}
    (h : Increasing cmp key (x ++ e :: y)) (he : cmp (key e) (key e') = 0) :
    Increasing cmp key (x ++ e' :: y) := by
  refine h.remove.insert ⟨fun u hu => ?_, fun u hu => ?_⟩
  · exact (order.congr_right he (key u)).1.mp (h.gap.left u hu)
  · exact (order.congr_left he (key u)).1.mp (h.gap.right u hu)

/-- The first key is the least. -/
theorem Increasing.head_le (order : TotalOrder cmp) {xs : List α} {e : α} (h : Increasing cmp key xs)
    (he : xs.head? = some e) : ∀ v ∈ xs, cmp (key e) (key v) ≤ 0 := by
  obtain ⟨ys, rfl⟩ := List.head?_eq_some_iff.mp he
  intro v hv
  rcases List.mem_cons.mp hv with rfl | hv
  · exact Int.le_of_eq (order.refl _)
  · exact Int.le_of_lt ((List.pairwise_cons.mp h).1 v hv)

/-- The last key is the greatest. -/
theorem Increasing.le_last (order : TotalOrder cmp) {xs : List α} {e : α} (h : Increasing cmp key xs)
    (he : xs.getLast? = some e) : ∀ v ∈ xs, cmp (key v) (key e) ≤ 0 := by
  obtain ⟨ys, rfl⟩ := List.getLast?_eq_some_iff.mp he
  intro v hv
  rcases List.mem_append.mp hv with hv | hv
  · exact Int.le_of_lt (h.cross v hv e (by simp))
  · rw [List.mem_singleton.mp hv]
    exact Int.le_of_eq (order.refl _)

theorem lookup_append (x y : List α) (k : D) :
    lookup cmp key (x ++ y) k = (lookup cmp key x k).or (lookup cmp key y k) := by
  simp [lookup, List.find?_append]

theorem lookup_eq_none {x : List α} {k : D} (h : ∀ u ∈ x, cmp k (key u) ≠ 0) :
    lookup cmp key x k = none := by
  simpa [lookup] using h

theorem lookup_eq_none_iff {x : List α} {k : D} :
    lookup cmp key x k = none ↔ ∀ u ∈ x, cmp k (key u) ≠ 0 := by
  simp [lookup]

/-- A key in a gap is absent. -/
theorem Gap.lookup_eq_none (order : TotalOrder cmp) {x y : List α} {k k' : D}
    (hg : Gap cmp key k x y) (hk : cmp k' k = 0) : lookup cmp key (x ++ y) k' = none := by
  apply Foundation.lookup_eq_none
  intro u hu h0
  have hku : cmp k (key u) = 0 := (order.congr_left hk (key u)).2.mp h0
  rcases List.mem_append.mp hu with hx | hy
  · have := (order.antisymm _ _).mp (hg.left u hx)
    omega
  · have := hg.right u hy
    omega

/-- A single element decides the lookup of its own key and of no other. -/
theorem lookup_insert (order : TotalOrder cmp) {x y : List α} {e : α}
    (hg : Gap cmp key (key e) x y) (k : D) :
    lookup cmp key (x ++ e :: y) k =
      if cmp k (key e) = 0 then some e else lookup cmp key (x ++ y) k := by
  have hsplit : lookup cmp key (x ++ e :: y) k =
      (lookup cmp key x k).or ((lookup cmp key [e] k).or (lookup cmp key y k)) := by
    rw [lookup_append, ← List.singleton_append, lookup_append]
  have hone : lookup cmp key [e] k = if cmp k (key e) = 0 then some e else none := by
    by_cases h : cmp k (key e) = 0
    · simp [lookup, h]
    · simp [lookup, h]
  by_cases h : cmp k (key e) = 0
  · have hxy := hg.lookup_eq_none order h
    rw [lookup_append, Option.or_eq_none_iff] at hxy
    rw [hsplit, hone, hxy.1, if_pos h, if_pos h]
    rfl
  · rw [hsplit, hone, if_neg h, if_neg h, Option.none_or, lookup_append]

theorem lookup_self (order : TotalOrder cmp) {x y : List α} {e : α} {k : D}
    (h : Increasing cmp key (x ++ e :: y)) (hk : cmp k (key e) = 0) :
    lookup cmp key (x ++ e :: y) k = some e := by
  rw [lookup_insert order h.gap, if_pos hk]

/-- Splitting an increasing list at a key: the key is held once, or it falls into
a gap. -/
theorem Increasing.split (order : TotalOrder cmp) {xs : List α} (h : Increasing cmp key xs) (k : D) :
    (∃ x e y, xs = x ++ e :: y ∧ cmp k (key e) = 0) ∨
      (lookup cmp key xs k = none ∧ ∃ x y, xs = x ++ y ∧ Gap cmp key k x y) := by
  induction xs with
  | nil => exact Or.inr ⟨rfl, [], [], rfl, ⟨by simp, by simp⟩⟩
  | cons u us ih =>
    obtain ⟨hu, hus⟩ := List.pairwise_cons.mp h
    rcases Int.lt_trichotomy (cmp k (key u)) 0 with hlt | heq | hgt
    · have hright : ∀ v ∈ u :: us, cmp k (key v) < 0 := by
        intro v hv
        rcases List.mem_cons.mp hv with rfl | hv
        · exact hlt
        · exact order.lt_trans hlt (hu v hv)
      refine Or.inr ⟨Foundation.lookup_eq_none fun v hv => ?_, [], u :: us, rfl, ⟨by simp, hright⟩⟩
      have := hright v hv
      omega
    · exact Or.inl ⟨[], u, us, rfl, heq⟩
    · have huk : cmp (key u) k < 0 := (order.antisymm _ _).mpr hgt
      rcases ih hus with ⟨x, e, y, rfl, he⟩ | ⟨hnone, x, y, rfl, hg⟩
      · exact Or.inl ⟨u :: x, e, y, rfl, he⟩
      · refine Or.inr ⟨?_, u :: x, y, rfl, ⟨?_, hg.right⟩⟩
        · rw [lookup_eq_none_iff] at hnone ⊢
          intro v hv
          rcases List.mem_cons.mp hv with rfl | hv
          · omega
          · exact hnone v hv
        · intro v hv
          rcases List.mem_cons.mp hv with rfl | hv
          · exact huk
          · exact hg.left v hv

theorem increasing_map {β : Type} (f : β → α) (xs : List β) :
    Increasing cmp key (xs.map f) ↔ Increasing cmp (fun b => key (f b)) xs := by
  simp [Increasing, List.pairwise_map]

end Devclego.Foundation
