import Devclego.Foundation.Sorted

/-!
# Counted keys

A tally is a finite multiset up to equal keys, stored as a list of entries whose
keys strictly increase. Each entry keeps one datum of its key and how often the
key is held. `find` reads a tally as a finite map, `mult` as a multiset and
`total` as a number, and the operations have their laws for these three readings.
The operations themselves are for multiplicities of any type, integers by default.
-/
namespace Devclego.Foundation

/-- A datum and its multiplicity. -/
structure Entry (D : Type) (M : Type := Int) where
  data : D
  ref : M
deriving DecidableEq, Repr

namespace Tally

variable {D M : Type}

/-- Merging an entry: multiplicities add up and the newer datum stays. -/
def add [Add M] (cmp : D → D → Int) (e : Entry D M) : List (Entry D M) → List (Entry D M)
  | [] => [e]
  | u :: us =>
    if cmp u.data e.data = 0 then ⟨e.data, u.ref + e.ref⟩ :: us
    else if cmp u.data e.data < 0 then u :: add cmp e us
    else e :: u :: us

/-- Changing or deleting the entry of one key. -/
def adjust (cmp : D → D → Int) (d : D) (f : Entry D M → Option (Entry D M)) :
    List (Entry D M) → List (Entry D M)
  | [] => []
  | u :: us => if cmp d u.data = 0 then (f u).toList ++ us else u :: adjust cmp d f us

/-- One occurrence less; the last one takes the key away. -/
def lessOne [LT M] [DecidableLT M] [Sub M] [OfNat M 1] (e : Entry D M) : Option (Entry D M) :=
  if 1 < e.ref then some ⟨e.data, e.ref - 1⟩ else none

def takeOne [LT M] [DecidableLT M] [Sub M] [OfNat M 1] (cmp : D → D → Int) (d : D) (xs : List (Entry D M)) :
    List (Entry D M) :=
  adjust cmp d lessOne xs

def drop (cmp : D → D → Int) (d : D) (xs : List (Entry D M)) : List (Entry D M) :=
  adjust cmp d (fun _ => none) xs

def find (cmp : D → D → Int) (xs : List (Entry D M)) (k : D) : Option (Entry D M) :=
  lookup cmp Entry.data xs k

/-- How often the key `k` is held. -/
def mult (cmp : D → D → Int) (xs : List (Entry D)) (k : D) : Int :=
  ((find cmp xs k).map Entry.ref).getD 0

def total : List (Entry D) → Int
  | [] => 0
  | e :: xs => e.ref + total xs

/-- Distinct keys in order, each held at least once. -/
structure Wf (cmp : D → D → Int) (xs : List (Entry D)) : Prop where
  increasing : Increasing cmp Entry.data xs
  positive : ∀ e ∈ xs, 1 ≤ e.ref

/-! ## The operations at a split -/

section Split

variable {cmp : D → D → Int} {xs x y : List (Entry D M)} {e u : Entry D M} {d k : D}
  {f : Entry D M → Option (Entry D M)}

theorem add_ne_nil [Add M] (e : Entry D M) (xs : List (Entry D M)) : add cmp e xs ≠ [] := by
  cases xs with
  | nil => simp [add]
  | cons u us =>
    simp only [add]
    split
    · simp
    · split <;> simp

theorem add_fresh [Add M] (order : TotalOrder cmp) (hg : Gap cmp Entry.data e.data x y) :
    add cmp e (x ++ y) = x ++ e :: y := by
  induction x with
  | nil =>
    cases y with
    | nil => rfl
    | cons u us =>
      have hlt := (order.antisymm _ _).mp (hg.right u (by simp))
      have hne : cmp u.data e.data ≠ 0 := by omega
      have hge : ¬ cmp u.data e.data < 0 := by omega
      simp [add, hne, hge]
  | cons u us ih =>
    have hlt := hg.left u (by simp)
    have hne : cmp u.data e.data ≠ 0 := by omega
    have hrec := ih ⟨fun v hv => hg.left v (by simp [hv]), hg.right⟩
    simp [add, hne, hlt, hrec]

theorem add_merged [Add M] (order : TotalOrder cmp) (h : Increasing cmp Entry.data (x ++ u :: y))
    (hu : cmp u.data e.data = 0) : add cmp e (x ++ u :: y) = x ++ ⟨e.data, u.ref + e.ref⟩ :: y := by
  induction x with
  | nil => simp [add, hu]
  | cons v vs ih =>
    have hvu : cmp v.data u.data < 0 := h.gap.left v (by simp)
    have hlt : cmp v.data e.data < 0 := order.lt_of_lt_of_le hvu (by omega)
    have hne : cmp v.data e.data ≠ 0 := by omega
    have hrec := ih (List.pairwise_cons.mp h).2
    simp [add, hne, hlt, hrec]

theorem adjust_absent (h : ∀ v ∈ xs, cmp d v.data ≠ 0) : adjust cmp d f xs = xs := by
  induction xs with
  | nil => rfl
  | cons v vs ih =>
    have hv := h v (by simp)
    have hrec := ih fun w hw => h w (by simp [hw])
    simp [adjust, hv, hrec]

theorem adjust_found (order : TotalOrder cmp) (h : Increasing cmp Entry.data (x ++ u :: y))
    (hu : cmp d u.data = 0) : adjust cmp d f (x ++ u :: y) = x ++ ((f u).toList ++ y) := by
  induction x with
  | nil => simp [adjust, hu]
  | cons v vs ih =>
    have hvu : cmp v.data u.data < 0 := h.gap.left v (by simp)
    have hne : cmp d v.data ≠ 0 := by
      intro hdv
      have hvd := (order.eq_comm _ _).mp hdv
      have hle := order.trans v.data d u.data (by omega) (by omega)
      have huv := order.trans u.data d v.data (by have := (order.eq_comm _ _).mp hu; omega) (by omega)
      have := (order.antisymm _ _).mp hvu
      omega
    have hrec := ih (List.pairwise_cons.mp h).2
    simp [adjust, hne, hrec]

theorem find_found (order : TotalOrder cmp) (h : Increasing cmp Entry.data (x ++ u :: y))
    (hu : cmp k u.data = 0) : find cmp (x ++ u :: y) k = some u :=
  lookup_self order h hu

theorem find_of_mem (order : TotalOrder cmp) (h : Increasing cmp Entry.data xs) (he : e ∈ xs) :
    find cmp xs e.data = some e := by
  obtain ⟨x, y, rfl⟩ := List.append_of_mem he
  exact find_found order h (order.refl e.data)

theorem find_eq_none_iff : find cmp xs k = none ↔ ∀ v ∈ xs, cmp k v.data ≠ 0 := lookup_eq_none_iff

theorem length_add [Add M] (order : TotalOrder cmp) (h : Increasing cmp Entry.data xs) (e : Entry D M) :
    (add cmp e xs).length = xs.length + if (find cmp xs e.data).isSome then 0 else 1 := by
  rcases h.split order e.data with ⟨x, u, y, rfl, hu⟩ | ⟨hnone, x, y, rfl, hg⟩
  · rw [add_merged order h ((order.eq_comm _ _).mp hu), find_found order h hu]
    simp
  · rw [add_fresh order hg, show find cmp (x ++ y) e.data = none from hnone]
    simp
    omega

theorem length_adjust_le (cmp : D → D → Int) (d : D) (f : Entry D M → Option (Entry D M))
    (xs : List (Entry D M)) : (adjust cmp d f xs).length ≤ xs.length := by
  induction xs with
  | nil => exact Nat.le_refl _
  | cons u us ih =>
    simp only [adjust]
    split
    · cases f u <;> simp
    · simpa using ih

theorem find_congr (order : TotalOrder cmp) {k' : D} (hk : cmp k k' = 0) (xs : List (Entry D M)) :
    find cmp xs k = find cmp xs k' := by
  have hp : (fun v : Entry D M => decide (cmp k v.data = 0)) = fun v => decide (cmp k' v.data = 0) := by
    funext v
    exact decide_eq_decide.mpr (order.congr_left hk v.data).2
  simp only [find, lookup, hp]

end Split

variable {cmp : D → D → Int} {xs x y : List (Entry D)} {e u : Entry D} {d k : D}
  {f : Entry D → Option (Entry D)}

/-- The key of `e` is held by one entry, or it falls into a gap. -/
theorem Wf.cases (order : TotalOrder cmp) (h : Wf cmp xs) (k : D) :
    (∃ x u y, xs = x ++ u :: y ∧ cmp k u.data = 0) ∨
      (find cmp xs k = none ∧ ∃ x y, xs = x ++ y ∧ Gap cmp Entry.data k x y) :=
  h.increasing.split order k

@[simp] theorem total_nil : total ([] : List (Entry D)) = 0 := rfl

@[simp] theorem total_cons (e : Entry D) (xs : List (Entry D)) : total (e :: xs) = e.ref + total xs := rfl

theorem total_append (xs ys : List (Entry D)) : total (xs ++ ys) = total xs + total ys := by
  induction xs with
  | nil => simp
  | cons u us ih => simp [ih, Int.add_assoc]

/-! ## Well-formedness -/

theorem Wf.add (order : TotalOrder cmp) (h : Wf cmp xs) (he : 1 ≤ e.ref) : Wf cmp (add cmp e xs) := by
  rcases h.cases order e.data with ⟨x, u, y, rfl, hu⟩ | ⟨-, x, y, rfl, hg⟩
  · have hue := (order.eq_comm _ _).mp hu
    rw [add_merged order h.increasing hue]
    refine ⟨h.increasing.replace order hue, fun v hv => ?_⟩
    have hpos := h.positive
    simp only [List.mem_append, List.mem_cons] at hv hpos
    rcases hv with hv | rfl | hv
    · exact hpos v (Or.inl hv)
    · have hur := hpos u (Or.inr (Or.inl rfl))
      change 1 ≤ u.ref + e.ref
      omega
    · exact hpos v (Or.inr (Or.inr hv))
  · rw [add_fresh order hg]
    refine ⟨h.increasing.insert hg, fun v hv => ?_⟩
    have hpos := h.positive
    simp only [List.mem_append, List.mem_cons] at hv hpos
    rcases hv with hv | rfl | hv
    · exact hpos v (Or.inl hv)
    · exact he
    · exact hpos v (Or.inr hv)

/-- An adjustment keeps the key and a positive multiplicity. -/
def Proper (f : Entry D → Option (Entry D)) : Prop :=
  ∀ u v, f u = some v → v.data = u.data ∧ (1 ≤ u.ref → 1 ≤ v.ref)

theorem proper_lessOne : Proper (D := D) lessOne := by
  intro u v h
  unfold lessOne at h
  split at h
  · cases h
    exact ⟨rfl, fun _ => by change 1 ≤ u.ref - 1; omega⟩
  · cases h

theorem proper_none : Proper (D := D) fun _ => none := by
  intro u v h
  cases h

theorem Wf.adjust (order : TotalOrder cmp) (h : Wf cmp xs) (hf : Proper f) (d : D) :
    Wf cmp (adjust cmp d f xs) := by
  rcases h.cases order d with ⟨x, u, y, rfl, hu⟩ | ⟨hnone, -⟩
  · rw [adjust_found order h.increasing hu]
    have hpos := h.positive
    simp only [List.mem_append, List.mem_cons] at hpos
    cases hfu : f u with
    | none =>
      refine ⟨h.increasing.remove, fun v hv => ?_⟩
      simp only [Option.toList_none, List.nil_append, List.mem_append] at hv
      exact hpos v (hv.imp_right Or.inr)
    | some v =>
      obtain ⟨hdata, href⟩ := hf u v hfu
      refine ⟨h.increasing.replace order (by rw [hdata]; exact order.refl _), fun w hw => ?_⟩
      simp only [Option.toList_some, List.singleton_append, List.mem_append, List.mem_cons] at hw
      rcases hw with hw | rfl | hw
      · exact hpos w (Or.inl hw)
      · exact href (hpos u (Or.inr (Or.inl rfl)))
      · exact hpos w (Or.inr (Or.inr hw))
  · rw [adjust_absent (find_eq_none_iff.mp hnone)]
    exact h

theorem Wf.takeOne (order : TotalOrder cmp) (h : Wf cmp xs) (d : D) : Wf cmp (takeOne cmp d xs) :=
  h.adjust order proper_lessOne d

/-! ## Tallies as finite maps -/

theorem mult_of_find (h : find cmp xs k = some u) : mult cmp xs k = u.ref := by simp [mult, h]

theorem find_add (order : TotalOrder cmp) (h : Wf cmp xs) (k : D) :
    find cmp (add cmp e xs) k =
      if cmp k e.data = 0 then some ⟨e.data, mult cmp xs k + e.ref⟩ else find cmp xs k := by
  rcases h.cases order e.data with ⟨x, u, y, rfl, hu⟩ | ⟨hnone, x, y, rfl, hg⟩
  · have hue := (order.eq_comm _ _).mp hu
    have hinc : Increasing cmp Entry.data (x ++ (⟨e.data, u.ref + e.ref⟩ : Entry D) :: y) :=
      h.increasing.replace order hue
    rw [add_merged order h.increasing hue, find, lookup_insert order hinc.gap]
    by_cases hk : cmp k e.data = 0
    · have hku : cmp k u.data = 0 := (order.congr_left hk _).2.mpr hu
      rw [if_pos hk, if_pos hk, mult_of_find (find_found order h.increasing hku)]
    · have hku : cmp k u.data ≠ 0 := fun hku => hk ((order.congr_right hue k).2.mp hku)
      rw [if_neg hk, if_neg hk, find, lookup_insert order h.increasing.gap, if_neg hku]
  · rw [add_fresh order hg, find, lookup_insert order hg]
    by_cases hk : cmp k e.data = 0
    · rw [if_pos hk, if_pos hk, mult, find, hg.lookup_eq_none order hk]
      simp
    · rw [if_neg hk, if_neg hk, find]

theorem find_adjust (order : TotalOrder cmp) (h : Wf cmp xs) (hf : Proper f) (d k : D) :
    find cmp (adjust cmp d f xs) k =
      if cmp k d = 0 then (find cmp xs k).bind f else find cmp xs k := by
  rcases h.cases order d with ⟨x, u, y, rfl, hu⟩ | ⟨hnone, -⟩
  · rw [adjust_found order h.increasing hu]
    have hiff : cmp k d = 0 ↔ cmp k u.data = 0 := (order.congr_right hu k).2
    by_cases hk : cmp k d = 0
    · rw [if_pos hk, find_found order h.increasing (hiff.mp hk), Option.bind_some]
      cases hfu : f u with
      | none => exact h.increasing.gap.lookup_eq_none order (hiff.mp hk)
      | some v =>
        have hv : cmp u.data v.data = 0 := by rw [(hf u v hfu).1]; exact order.refl _
        have hkv : cmp k v.data = 0 := (order.congr_right hv k).2.mp (hiff.mp hk)
        exact lookup_self order (h.increasing.replace order hv) hkv
    · rw [if_neg hk, find, find, lookup_insert order h.increasing.gap, if_neg fun hku => hk (hiff.mpr hku)]
      cases hfu : f u with
      | none => rfl
      | some v =>
        have hv : cmp u.data v.data = 0 := by rw [(hf u v hfu).1]; exact order.refl _
        have hkv : ¬ cmp k v.data = 0 := fun hkv => hk (hiff.mpr ((order.congr_right hv k).2.mpr hkv))
        rw [Option.toList_some, List.singleton_append,
          lookup_insert order (h.increasing.replace order hv).gap, if_neg hkv]
  · rw [adjust_absent (find_eq_none_iff.mp hnone)]
    by_cases hk : cmp k d = 0
    · rw [if_pos hk, find_congr order hk, hnone, Option.bind_none]
    · rw [if_neg hk]

/-! ## Tallies as multisets -/

theorem Wf.mult_pos_iff (h : Wf cmp xs) (k : D) : 0 < mult cmp xs k ↔ (find cmp xs k).isSome := by
  unfold mult
  cases hf : find cmp xs k with
  | none => simp
  | some u =>
    have hu := h.positive u (List.mem_of_find?_eq_some hf)
    simp only [Option.map_some, Option.getD_some, Option.isSome_some, iff_true]
    omega

theorem Wf.mult_nonneg (h : Wf cmp xs) (k : D) : 0 ≤ mult cmp xs k := by
  unfold mult
  cases hf : find cmp xs k with
  | none => simp
  | some u =>
    have hu := h.positive u (List.mem_of_find?_eq_some hf)
    simp only [Option.map_some, Option.getD_some]
    omega

theorem mult_add (order : TotalOrder cmp) (h : Wf cmp xs) (e : Entry D) (k : D) :
    mult cmp (add cmp e xs) k = mult cmp xs k + if cmp k e.data = 0 then e.ref else 0 := by
  have hf := find_add (e := e) order h k
  by_cases hk : cmp k e.data = 0
  · rw [if_pos hk] at hf ⊢
    exact mult_of_find hf
  · rw [if_neg hk] at hf ⊢
    rw [mult, hf, Int.add_zero, mult]

theorem mult_takeOne (order : TotalOrder cmp) (h : Wf cmp xs) (d k : D) :
    mult cmp (takeOne cmp d xs) k =
      mult cmp xs k - if cmp k d = 0 ∧ (find cmp xs k).isSome then 1 else 0 := by
  have hf := find_adjust order h proper_lessOne d k
  rw [mult, takeOne, hf, mult]
  by_cases hk : cmp k d = 0
  · cases hx : find cmp xs k with
    | none => simp [hk]
    | some u =>
      have hu := h.positive u (List.mem_of_find?_eq_some hx)
      by_cases h1 : 1 < u.ref
      · simp [hk, lessOne, h1]
      · simp [hk, lessOne, h1]
        omega
  · simp [hk]

/-! ## Totals -/

theorem total_add (cmp : D → D → Int) (e : Entry D) (xs : List (Entry D)) :
    total (add cmp e xs) = total xs + e.ref := by
  induction xs with
  | nil => simp [add]
  | cons u us ih =>
    simp only [add]
    split
    · simp only [total_cons]
      omega
    · split
      · simp only [total_cons, ih]
        omega
      · simp only [total_cons]
        omega

theorem total_takeOne (order : TotalOrder cmp) (h : Wf cmp xs) (d : D) :
    total (takeOne cmp d xs) = total xs - if (find cmp xs d).isSome then 1 else 0 := by
  rcases h.cases order d with ⟨x, u, y, rfl, hu⟩ | ⟨hnone, -⟩
  · have hpos := h.positive u (by simp)
    rw [takeOne, adjust_found order h.increasing hu, find_found order h.increasing hu]
    unfold lessOne
    split
    · simp only [total_append, Option.toList_some, total_cons, total_nil, Option.isSome_some, ↓reduceIte]
      omega
    · simp only [total_append, Option.toList_none, List.nil_append, total_cons, Option.isSome_some,
        ↓reduceIte]
      omega
  · rw [takeOne, adjust_absent (find_eq_none_iff.mp hnone), hnone]
    simp

theorem total_drop (order : TotalOrder cmp) (h : Wf cmp xs) (d : D) :
    total (drop cmp d xs) = total xs - mult cmp xs d := by
  rcases h.cases order d with ⟨x, u, y, rfl, hu⟩ | ⟨hnone, -⟩
  · rw [drop, adjust_found order h.increasing hu, mult_of_find (find_found order h.increasing hu)]
    simp only [total_append, Option.toList_none, List.nil_append, total_cons]
    omega
  · rw [drop, adjust_absent (find_eq_none_iff.mp hnone), mult, hnone]
    simp

/-- Every entry counts at least once. -/
theorem Wf.length_le_total (h : Wf cmp xs) : (xs.length : Int) ≤ total xs := by
  obtain ⟨-, hpos⟩ := h
  induction xs with
  | nil => simp
  | cons u us ih =>
    have hu := hpos u (by simp)
    have hrec := ih fun v hv => hpos v (by simp [hv])
    simp only [total_cons, List.length_cons]
    omega

theorem Wf.total_nonneg (h : Wf cmp xs) : 0 ≤ total xs := by
  have hlen := h.length_le_total
  omega

theorem total_takeOne_le (order : TotalOrder cmp) (h : Wf cmp xs) (d : D) :
    total (takeOne cmp d xs) ≤ total xs := by
  rw [total_takeOne order h]
  split <;> omega

theorem total_drop_le (order : TotalOrder cmp) (h : Wf cmp xs) (d : D) : total (drop cmp d xs) ≤ total xs := by
  have hnonneg := h.mult_nonneg d
  rw [total_drop order h]
  omega

theorem Wf.mult_le_total (order : TotalOrder cmp) (h : Wf cmp xs) (k : D) : mult cmp xs k ≤ total xs := by
  have hrest : 0 ≤ total (drop cmp k xs) := (h.adjust order proper_none k).total_nonneg
  rw [total_drop order h] at hrest
  omega

/-- One occurrence less empties a tally exactly if that was all it held. -/
theorem takeOne_eq_nil_iff (h : Wf cmp xs) (d : D) :
    takeOne cmp d xs = [] ↔ xs = [] ∨ (xs.length = 1 ∧ (find cmp xs d).map Entry.ref = some 1) := by
  cases xs with
  | nil => simp [takeOne, adjust]
  | cons u us =>
    have hu := h.positive u (by simp)
    have hone : u.ref = 1 ↔ ¬ 1 < u.ref := by omega
    by_cases hk : cmp d u.data = 0
    · by_cases h1 : 1 < u.ref
      · simp [takeOne, adjust, find, lookup, hk, lessOne, h1, hone]
      · simp [takeOne, adjust, find, lookup, hk, lessOne, h1, hone]
    · simp only [takeOne, adjust, hk, ↓reduceIte, reduceCtorEq, List.length_cons, Nat.add_eq_right,
        List.length_eq_zero_iff, false_or, false_iff, not_and]
      rintro rfl
      simp [find, lookup, hk]

/-! ## Members -/

theorem mem_add {w : Entry D} (h : w ∈ add cmp e xs) : w.data = e.data ∨ ∃ v ∈ xs, w = v := by
  induction xs with
  | nil => simp [add] at h; simp [h]
  | cons u us ih =>
    simp only [add] at h
    split at h
    · rcases List.mem_cons.mp h with rfl | h
      · exact Or.inl rfl
      · exact Or.inr ⟨w, by simp [h], rfl⟩
    · split at h
      · rcases List.mem_cons.mp h with rfl | h
        · exact Or.inr ⟨w, by simp, rfl⟩
        · exact (ih h).imp_right fun ⟨v, hv, he⟩ => ⟨v, by simp [hv], he⟩
      · rcases List.mem_cons.mp h with rfl | h
        · exact Or.inl rfl
        · exact Or.inr ⟨w, h, rfl⟩

theorem mem_adjust (hf : Proper f) {w : Entry D} (h : w ∈ adjust cmp d f xs) :
    ∃ v ∈ xs, w.data = v.data := by
  induction xs with
  | nil => simp [adjust] at h
  | cons u us ih =>
    simp only [adjust] at h
    split at h
    · rcases List.mem_append.mp h with h | h
      · exact ⟨u, by simp, (hf u w (Option.mem_toList.mp h)).1⟩
      · exact ⟨w, by simp [h], rfl⟩
    · rcases List.mem_cons.mp h with rfl | h
      · exact ⟨w, by simp, rfl⟩
      · obtain ⟨v, hv, he⟩ := ih h
        exact ⟨v, by simp [hv], he⟩

end Tally

end Devclego.Foundation
