import Devclego.Foundation.Tally

/-!
# Multiplicities in a signed word

A word of thirty-two bits counts as an integer does as long as the result fits. So a
tally whose multiplicities are words is read as one of integers: taking away and
dropping always agree, and adding agrees where the sum of the two multiplicities fits.
-/
namespace Devclego.Foundation

section Words

theorem toInt_add_of_fits {a b : Int32} (hlow : -2147483648 ≤ a.toInt + b.toInt)
    (hhigh : a.toInt + b.toInt < 2147483648) : (a + b).toInt = a.toInt + b.toInt := by
  rw [Int32.toInt_add]
  exact Int.bmod_eq_of_le (by omega) (by omega)

theorem toInt_sub_of_fits {a b : Int32} (hlow : -2147483648 ≤ a.toInt - b.toInt)
    (hhigh : a.toInt - b.toInt < 2147483648) : (a - b).toInt = a.toInt - b.toInt := by
  rw [Int32.toInt_sub]
  exact Int.bmod_eq_of_le (by omega) (by omega)

/-- A sum that is less than a word is one period off. -/
theorem toInt_add_cases {a b : Int32} (hhigh : a.toInt + b.toInt < 2147483648) :
    (a + b).toInt = a.toInt + b.toInt ∨
      a.toInt + b.toInt < -2147483648 ∧ (a + b).toInt = a.toInt + b.toInt + 4294967296 := by
  have ha := a.le_toInt
  have hb := b.le_toInt
  by_cases hlow : -2147483648 ≤ a.toInt + b.toInt
  · exact Or.inl (toInt_add_of_fits hlow hhigh)
  · refine Or.inr ⟨by omega, ?_⟩
    rw [Int32.toInt_add, ← Int.add_bmod_right]
    exact Int.bmod_eq_of_le (by omega) (by omega)

theorem toInt_one : (1 : Int32).toInt = 1 := rfl

theorem toInt_bounds (a : Int32) : -2147483648 ≤ a.toInt ∧ a.toInt < 2147483648 := ⟨a.le_toInt, a.toInt_lt⟩

theorem toInt_succ {a : Int32} (h : a.toInt < 2147483647) : (a + 1).toInt = a.toInt + 1 := by
  have hbounds := toInt_bounds a
  exact toInt_add_of_fits (by rw [toInt_one]; omega) (by rw [toInt_one]; omega)

theorem toInt_pred {a : Int32} (h : -2147483648 < a.toInt) : (a - 1).toInt = a.toInt - 1 := by
  have hbounds := toInt_bounds a
  exact toInt_sub_of_fits (by rw [toInt_one]; omega) (by rw [toInt_one]; omega)

theorem toInt_neg_of_lt {a : Int32} (h : -2147483648 < a.toInt) : (-a).toInt = -a.toInt := by
  have hbounds := toInt_bounds a
  rw [Int32.toInt_neg]
  exact Int.bmod_eq_of_le (by omega) (by omega)

theorem toInt_ofNat_of_lt {n : Nat} (h : n < 2147483648) : (Int32.ofNat n).toInt = n :=
  Int32.toInt_ofNat_of_lt h

theorem one_lt_iff (a : Int32) : 1 < a ↔ 1 < a.toInt := Int32.lt_iff_toInt_lt

theorem lt_one_iff (a : Int32) : a < 1 ↔ a.toInt < 1 := Int32.lt_iff_toInt_lt

theorem pos_iff (a : Int32) : 0 < a ↔ 0 < a.toInt := Int32.lt_iff_toInt_lt

theorem eq_one_of_pos {a : Int32} (hpos : 0 < a) (hone : ¬ 1 < a) : a = 1 := by
  rw [pos_iff] at hpos
  rw [one_lt_iff] at hone
  exact Int32.toInt.inj (by rw [toInt_one]; omega)

/-- Words that lose `u` and gain one keep their sum just if `u` is one and either none of
them goes over its end or both do. -/
theorem sum_kept_iff {a b u : Int32} : (a - u).toInt + (b + 1).toInt = a.toInt + b.toInt ↔
    u = 1 ∧ (b = Int32.maxValue ↔ a = Int32.minValue) := by
  have ha := toInt_bounds a
  have hb := toInt_bounds b
  have hu := toInt_bounds u
  have hone : u = 1 ↔ u.toInt = 1 := Int32.toInt_inj.symm
  have hmax : b = Int32.maxValue ↔ b.toInt = 2147483647 := Int32.toInt_inj.symm
  have hmin : a = Int32.minValue ↔ a.toInt = -2147483648 := Int32.toInt_inj.symm
  rw [hone, hmax, hmin, Int32.toInt_sub, Int32.toInt_add, toInt_one, Int.bmod_eq_emod, Int.bmod_eq_emod]
  split <;> split <;> omega

theorem ofNat_succ (n : Nat) : Int32.ofNat (n + 1) = Int32.ofNat n + 1 := Int32.ofNat_add n 1

/-- A word counts one when one thing was counted, or a multiple of its period more. -/
theorem ofNat_eq_one_iff {n : Nat} (h : n ≤ 4294967296) : Int32.ofNat n = 1 ↔ n = 1 := by
  constructor
  · intro hone
    have hint := congrArg Int32.toInt hone
    rw [Int32.toInt_ofNat', toInt_one, Int.bmod_eq_emod] at hint
    simp only [Int32.size] at hint
    split at hint <;> omega
  · rintro rfl
    rfl

end Words

variable {D : Type}

/-- The entry with its multiplicity read as an integer. -/
def Entry.widen (e : Entry D Int32) : Entry D := ⟨e.data, e.ref.toInt⟩

@[simp] theorem Entry.widen_data (e : Entry D Int32) : e.widen.data = e.data := rfl

@[simp] theorem Entry.widen_ref (e : Entry D Int32) : e.widen.ref = e.ref.toInt := rfl

namespace Tally

variable {cmp : D → D → Int} {xs : List (Entry D Int32)} {e : Entry D Int32}

def widen (xs : List (Entry D Int32)) : List (Entry D) := xs.map Entry.widen

theorem increasing_widen (xs : List (Entry D Int32)) :
    Increasing cmp Entry.data (widen xs) ↔ Increasing cmp Entry.data xs :=
  increasing_map Entry.widen xs

theorem length_widen (xs : List (Entry D Int32)) : (widen xs).length = xs.length := List.length_map _

theorem getLast?_widen (xs : List (Entry D Int32)) : (widen xs).getLast? = xs.getLast?.map Entry.widen :=
  List.getLast?_map

theorem head?_widen (xs : List (Entry D Int32)) : (widen xs).head? = xs.head?.map Entry.widen :=
  List.head?_map

theorem pos_of_wf (h : Wf cmp (widen xs)) {u : Entry D Int32} (hu : u ∈ xs) : 0 < u.ref := by
  have hpos := h.positive u.widen (List.mem_map.mpr ⟨u, hu, rfl⟩)
  exact (pos_iff u.ref).mpr (by rw [← Entry.widen_ref]; omega)

theorem find_widen (xs : List (Entry D Int32)) (k : D) :
    find cmp (widen xs) k = (find cmp xs k).map Entry.widen := by
  rw [find, lookup, widen, List.find?_map]
  rfl

theorem widen_lessOne (e : Entry D Int32) : (lessOne e).map Entry.widen = lessOne e.widen := by
  unfold lessOne
  by_cases h : 1 < e.ref
  · have hint := (one_lt_iff e.ref).mp h
    rw [if_pos h, if_pos (show 1 < e.widen.ref from hint)]
    simp only [Option.map_some, Option.some.injEq, Entry.widen]
    rw [toInt_pred (by omega)]
  · rw [if_neg h, if_neg (show ¬ 1 < e.widen.ref from fun hint => h ((one_lt_iff e.ref).mpr hint))]
    rfl

/-- An adjustment that is one of integers for each entry is one of integers. -/
theorem widen_adjust {f : Entry D Int32 → Option (Entry D Int32)} {g : Entry D → Option (Entry D)}
    (hfg : ∀ u, (f u).map Entry.widen = g u.widen) (d : D) (xs : List (Entry D Int32)) :
    widen (adjust cmp d f xs) = adjust cmp d g (widen xs) := by
  induction xs with
  | nil => rfl
  | cons u us ih =>
    by_cases hk : cmp d u.data = 0
    · have hlist : ((f u).toList).map Entry.widen = (g u.widen).toList := by
        rw [← hfg u]
        cases f u <;> rfl
      simp [adjust, widen, hk, hlist]
    · have hrest : (adjust cmp d f us).map Entry.widen = adjust cmp d g (us.map Entry.widen) := ih
      simp [adjust, widen, hk, hrest]

theorem widen_takeOne (d : D) (xs : List (Entry D Int32)) :
    widen (takeOne cmp d xs) = takeOne cmp d (widen xs) :=
  widen_adjust widen_lessOne d xs

theorem widen_drop (d : D) (xs : List (Entry D Int32)) : widen (drop cmp d xs) = drop cmp d (widen xs) :=
  widen_adjust (fun _ => rfl) d xs

/-- Adding agrees where the multiplicities of the key fit together. -/
theorem widen_add (order : TotalOrder cmp) (h : Increasing cmp Entry.data xs)
    (hlow : -2147483648 ≤ mult cmp (widen xs) e.data + e.ref.toInt)
    (hhigh : mult cmp (widen xs) e.data + e.ref.toInt < 2147483648) :
    widen (add cmp e xs) = add cmp e.widen (widen xs) := by
  rcases h.split order e.data with ⟨x, u, y, rfl, hu⟩ | ⟨-, x, y, rfl, hg⟩
  · have hue := (order.eq_comm _ _).mp hu
    have hmult : mult cmp (widen (x ++ u :: y)) e.data = u.ref.toInt := by
      rw [mult, find_widen, find_found order h hu]
      rfl
    rw [hmult] at hlow hhigh
    have hsum := toInt_add_of_fits hlow hhigh
    have hwide : Increasing cmp Entry.data (widen (x ++ u :: y)) := (increasing_widen _).mpr h
    rw [add_merged order h hue]
    simp only [widen, List.map_append, List.map_cons] at hwide ⊢
    rw [add_merged order hwide (show cmp u.widen.data e.widen.data = 0 from hue)]
    simp [Entry.widen, hsum]
  · have hgap : Gap cmp Entry.data e.widen.data (x.map Entry.widen) (y.map Entry.widen) := by
      constructor
      · intro v hv
        obtain ⟨w, hw, rfl⟩ := List.mem_map.mp hv
        exact hg.left w hw
      · intro v hv
        obtain ⟨w, hw, rfl⟩ := List.mem_map.mp hv
        exact hg.right w hw
    rw [add_fresh order hg]
    simp only [widen, List.map_append, List.map_cons]
    rw [add_fresh order hgap]

end Tally

end Devclego.Foundation
