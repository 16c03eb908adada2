import Devclego.Foundation.Heap
import Devclego.Foundation.Machine
import Devclego.Heaps.Model
import Mathlib

/-!
# The heap is a priority queue

During a loop one cell of the array is a hole; put the moving value there and the
array stores a list that is heap-ordered but around the hole.
-/
namespace Devclego.Heaps

open Foundation

/-- The array begins with the elements of the list. -/
def Stored (data : List (Option Int)) (xs : List Int) : Prop :=
  ∀ (i : Nat) (x : Int), xs[i]? = some x → data[i]? = some (some x)

variable {data : List (Option Int)} {xs : List Int} {i j hole : Nat} {v x y : Int}

theorem Stored.read (h : Stored data xs) (hi : xs[i]? = some x) : readCell data i = some x := by
  rw [readCell, h i x hi]
  rfl

/-- What a loop reads, beside its hole. -/
theorem Stored.read_beside (h : Stored (data.set hole (some v)) xs) (hi : xs[i]? = some x)
    (hne : i ≠ hole) : readCell data i = some x := by
  have hread := h.read hi
  rwa [readCell, List.getElem?_set_ne hne.symm] at hread

theorem Stored.hole_lt (h : Stored (data.set hole (some v)) xs) (hv : xs[hole]? = some v) :
    hole < data.length := by
  have hlt := lt_of_getElem? (h hole v hv)
  rwa [List.length_set] at hlt

theorem writeCell_eq (hi : i < data.length) : writeCell data i v = some (data.set i (some v)) := by
  rw [writeCell, if_pos hi]

/-- The hole moves: the value at its new place goes to the old one. -/
theorem Stored.move (h : Stored (data.set hole (some v)) xs) (hv : xs[hole]? = some v)
    (hx : xs[j]? = some x) (hne : hole ≠ j) :
    Stored ((data.set hole (some x)).set j (some v)) (exchange xs hole j v x) := by
  have hlt := h.hole_lt hv
  have hjlt : j < data.length := by
    have hlt := lt_of_getElem? (h j x hx)
    rwa [List.length_set] at hlt
  intro k z hz
  by_cases hkj : k = j
  · subst hkj
    rw [exchange_second hx] at hz
    cases hz
    rw [List.getElem?_set_self (by rw [List.length_set]; exact hjlt)]
  · rw [List.getElem?_set_ne (Ne.symm hkj)]
    by_cases hkh : k = hole
    · subst hkh
      rw [exchange_first hne hv] at hz
      cases hz
      rw [List.getElem?_set_self hlt]
    · rw [exchange_other hkh hkj] at hz
      have hold := h k z hz
      rw [List.getElem?_set_ne (Ne.symm hkh)] at hold ⊢
      exact hold

/-- What a loop leaves: an array of the same size with a heap of the same elements. -/
structure Reordered (data data' : List (Option Int)) (xs xs' : List Int) : Prop where
  length_eq : data'.length = data.length
  stored : Stored data' xs'
  ordered : HeapOrdered xs'
  perm : xs'.Perm xs

theorem pushLoop_spec {fuel : Nat} (h : Stored (data.set hole (some v)) xs) (hv : xs[hole]? = some v)
    (hready : RiseReady xs hole) (hfuel : hole < fuel) :
    ∃ data' xs', pushLoop v fuel data hole = some data' ∧ Reordered data data' xs xs' := by
  induction fuel generalizing data xs hole with
  | zero => exact absurd hfuel (Nat.not_lt_zero _)
  | succ fuel ih =>
    have hlt := h.hole_lt hv
    have hstop : HeapOrdered xs → ∃ data' xs', writeCell data hole v = some data' ∧
        Reordered data data' xs xs' :=
      fun hordered => ⟨_, xs, writeCell_eq hlt, List.length_set, h, hordered, List.Perm.refl xs⟩
    rw [pushLoop]
    by_cases hzero : hole = 0
    · rw [if_pos hzero]
      exact hstop (hready.stop hv fun hpos => absurd hzero (Nat.ne_of_gt hpos))
    · have hpos : 0 < hole := Nat.pos_of_ne_zero hzero
      have hin := lt_of_getElem? hv
      obtain ⟨p, hp⟩ : ∃ p, xs[(hole - 1) / 2]? = some p := ⟨_, List.getElem?_eq_getElem (by omega)⟩
      have hread : readCell data ((hole - 1) / 2) = some p := h.read_beside hp (by omega)
      rw [if_neg hzero]
      simp only [hread, Option.bind_eq_bind, Option.bind_some]
      by_cases hle : v ≤ p
      · rw [if_pos (show heapCmp p v = true from decide_eq_true hle)]
        refine hstop (hready.stop hv fun _ q hq => ?_)
        rw [hp] at hq
        cases hq
        exact hle
      · rw [if_neg (show ¬ heapCmp p v = true from fun hc => hle (of_decide_eq_true hc)),
          writeCell_eq hlt, Option.bind_some]
        obtain ⟨data', xs', hloop, hleft⟩ := ih (h.move hv hp (by omega)) (exchange_second hp)
          (hready.move hpos hv hp (by omega)) (by omega)
        refine ⟨data', xs', hloop, ?_, hleft.stored, hleft.ordered, hleft.perm.trans (exchange_perm hv hp)⟩
        rw [hleft.length_eq, List.length_set]

/-- The chosen child is at least both. -/
theorem swapChild_spec (h : Stored (data.set hole (some v)) xs) (hin : hole * 2 + 1 < xs.length)
    (hshort : xs.length < 2 ^ 31) :
    ∃ c w, swapChild data xs.length (hole * 2 + 1) = some c ∧ xs[c]? = some w ∧ hole < c ∧
      (c - 1) / 2 = hole ∧ ∀ k z, 0 < k → (k - 1) / 2 = hole → xs[k]? = some z → z ≤ w := by
  obtain ⟨l, hl⟩ : ∃ l, xs[hole * 2 + 1]? = some l := ⟨_, List.getElem?_eq_getElem hin⟩
  have hchild : ∀ k, 0 < k → (k - 1) / 2 = hole → k = hole * 2 + 1 ∨ k = hole * 2 + 2 := by
    intro k hk hpar
    omega
  have hword : (hole * 2 + 1 + 1) % 2 ^ 32 = hole * 2 + 2 := Nat.mod_eq_of_lt (by omega)
  rw [swapChild, hword]
  by_cases hboth : hole * 2 + 2 < xs.length
  · obtain ⟨r, hr⟩ : ∃ r, xs[hole * 2 + 2]? = some r := ⟨_, List.getElem?_eq_getElem hboth⟩
    have hreadl : readCell data (hole * 2 + 1) = some l := h.read_beside hl (by omega)
    have hreadr : readCell data (hole * 2 + 2) = some r := h.read_beside hr (by omega)
    rw [if_pos hboth, hreadr, hreadl]
    by_cases hle : l ≤ r
    · refine ⟨hole * 2 + 2, r, ?_, hr, by omega, by omega, ?_⟩
      · show some (if heapCmp r l then _ else _) = _
        rw [if_pos (show heapCmp r l = true from decide_eq_true hle)]
      · intro k z hk hpar hz
        rcases hchild k hk hpar with rfl | rfl
        · rw [hl] at hz
          cases hz
          exact hle
        · rw [hr] at hz
          cases hz
          exact le_refl _
    · refine ⟨hole * 2 + 1, l, ?_, hl, by omega, by omega, ?_⟩
      · show some (if heapCmp r l then _ else _) = _
        rw [if_neg (show ¬ heapCmp r l = true from fun hc => hle (of_decide_eq_true hc))]
      · intro k z hk hpar hz
        rcases hchild k hk hpar with rfl | rfl
        · rw [hl] at hz
          cases hz
          exact le_refl _
        · rw [hr] at hz
          cases hz
          omega
  · rw [if_neg hboth]
    refine ⟨hole * 2 + 1, l, rfl, hl, by omega, by omega, ?_⟩
    intro k z hk hpar hz
    rcases hchild k hk hpar with rfl | rfl
    · rw [hl] at hz
      cases hz
      exact le_refl _
    · exact absurd (lt_of_getElem? hz) hboth

/-- The loop of `_heap_pop` is that of `_heapify` with a write after it. -/
theorem popLoop_eq (v : Int) (count fuel : Nat) (data : List (Option Int)) (index : Nat) :
    popLoop v count fuel data index =
      (siftLoop v count fuel data index).bind fun left => writeCell left.1 left.2 v := by
  induction fuel generalizing data index with
  | zero => rfl
  | succ fuel ih =>
    rw [popLoop, siftLoop]
    split
    next => rfl
    next =>
      simp only [Option.bind_eq_bind, Option.bind_assoc]
      congr 1
      funext swap
      congr 1
      funext child
      split
      next => rfl
      next =>
        rw [Option.bind_assoc]
        congr 1
        funext data
        exact ih data swap

/-- What the loop leaves: the value at the last place of the hole completes an array of the
same elements, in order behind `n`; a hole that did not move left the array as it was. -/
structure Sunk (n hole : Nat) (v : Int) (data : List (Option Int)) (xs : List Int) (data' : List (Option Int))
    (index : Nat) (xs' : List Int) : Prop where
  length_eq : data'.length = data.length
  stored : Stored (data'.set index (some v)) xs'
  value : xs'[index]? = some v
  ordered : HeapOrderedFrom n xs'
  perm : xs'.Perm xs
  stayed : index = hole → data' = data
  le : hole ≤ index

theorem siftLoop_spec {n fuel : Nat} (h : Stored (data.set hole (some v)) xs) (hv : xs[hole]? = some v)
    (hready : SinkReadyFrom n xs hole) (hshort : xs.length < 2 ^ 31) (hfuel : xs.length - hole < fuel) :
    ∃ data' index xs', siftLoop v xs.length fuel data hole = some (data', index) ∧
      Sunk n hole v data xs data' index xs' := by
  induction fuel generalizing data xs hole with
  | zero => exact absurd hfuel (Nat.not_lt_zero _)
  | succ fuel ih =>
    have hlt := h.hole_lt hv
    have hin := lt_of_getElem? hv
    have hstop : HeapOrderedFrom n xs → Sunk n hole v data xs data hole xs :=
      fun hordered => ⟨rfl, h, hv, hordered, List.Perm.refl xs, fun _ => rfl, Nat.le_refl hole⟩
    have hword : (hole * 2 + 1) % 2 ^ 32 = hole * 2 + 1 := Nat.mod_eq_of_lt (by omega)
    rw [siftLoop, hword]
    by_cases hleaf : xs.length ≤ hole * 2 + 1
    · rw [if_pos hleaf]
      refine ⟨data, hole, xs, rfl, hstop (hready.stop hv fun k z hk hpar hz => ?_)⟩
      have hkin := lt_of_getElem? hz
      omega
    · obtain ⟨c, w, hswap, hw, hgt, hpar, hmax⟩ := swapChild_spec h (by omega) hshort
      have hread : readCell data c = some w := h.read_beside hw (by omega)
      have hcin := lt_of_getElem? hw
      rw [if_neg hleaf]
      simp only [hswap, hread, Option.bind_eq_bind, Option.bind_some]
      by_cases hle : w ≤ v
      · rw [if_pos (show heapCmp v w = true from decide_eq_true hle)]
        exact ⟨data, hole, xs, rfl, hstop (hready.stop hv fun k z hk hp hz => (hmax k z hk hp hz).trans hle)⟩
      · rw [if_neg (show ¬ heapCmp v w = true from fun hc => hle (of_decide_eq_true hc)),
          writeCell_eq hlt, Option.bind_some]
        have hsame : (exchange xs hole c v w).length = xs.length := length_exchange
        obtain ⟨data', index, xs', hloop, hleft⟩ := ih (h.move hv hw (by omega)) (exchange_second hw)
          (hready.move (by omega) hpar hv hw (by omega) hmax) (by rw [hsame]; exact hshort)
          (by rw [hsame]; omega)
        rw [hsame] at hloop
        have hbehind := hleft.le
        refine ⟨data', index, xs', hloop, ?_, hleft.stored, hleft.value, hleft.ordered,
          hleft.perm.trans (exchange_perm hv hw), fun he => ?_, by omega⟩
        · rw [hleft.length_eq, List.length_set]
        · omega

theorem popLoop_spec {fuel : Nat} (h : Stored (data.set hole (some v)) xs) (hv : xs[hole]? = some v)
    (hready : SinkReady xs hole) (hshort : xs.length < 2 ^ 31) (hfuel : xs.length - hole < fuel) :
    ∃ data' xs', popLoop v xs.length fuel data hole = some data' ∧ Reordered data data' xs xs' := by
  obtain ⟨data', index, xs', hloop, hleft⟩ := siftLoop_spec h hv hready.from_zero hshort hfuel
  refine ⟨data'.set index (some v), xs', ?_, ?_, hleft.stored, heapOrderedFrom_zero.mp hleft.ordered, hleft.perm⟩
  · rw [popLoop_eq, hloop]
    exact writeCell_eq (hleft.stored.hole_lt hleft.value)
  · rw [List.length_set, hleft.length_eq]

/-! ## The calls -/

/-- A heap of the given elements, in array order. -/
structure Holds (h : Heap) (xs : List Int) : Prop where
  count_eq : h.count = xs.length
  size_eq : h.data.length = h.size
  room : xs.length ≤ h.size
  least : 2 ≤ h.size
  word : h.size < 2 ^ 32
  short : xs.length < 2 ^ 31
  stored : Stored h.data xs
  ordered : HeapOrdered xs

theorem holds_init : Holds heapInit [] where
  count_eq := rfl
  size_eq := rfl
  room := Nat.zero_le _
  least := by decide
  word := by decide
  short := by decide
  stored := by
    intro i x hx
    cases hx
  ordered := by
    intro i x y hi hx
    cases hx

theorem length_realloc (data : List (Option Int)) (size : Nat) : (realloc data size).length = size := by
  rw [realloc, List.length_append, List.length_take, List.length_replicate]
  omega

theorem Stored.realloc {size : Nat} (h : Stored data xs) (hroom : xs.length ≤ size) :
    Stored (realloc data size) xs := by
  intro i x hx
  have hi := lt_of_getElem? hx
  have hold := h i x hx
  have hin := lt_of_getElem? hold
  rw [Heaps.realloc, List.getElem?_append_left (by rw [List.length_take]; omega),
    List.getElem?_take_of_lt (by omega), hold]

/-- The array behind the live elements is free for one more. -/
theorem Stored.concat (h : Stored data xs) (hroom : xs.length < data.length) (v : Int) :
    Stored (data.set xs.length (some v)) (xs ++ [v]) := by
  intro i x hx
  by_cases hi : i = xs.length
  · subst hi
    rw [List.getElem?_concat_length] at hx
    cases hx
    rw [List.getElem?_set_self hroom]
  · have hlt := lt_of_getElem? hx
    rw [List.length_append, List.length_singleton] at hlt
    rw [List.getElem?_append_left (by omega)] at hx
    rw [List.getElem?_set_ne (Ne.symm hi)]
    exact h i x hx

/-- A push onto an array that has room. -/
theorem pushLoop_concat {size : Nat} (hstored : Stored data xs) (hordered : HeapOrdered xs)
    (hsize : data.length = size) (hroom : xs.length < size) (v : Int) :
    ∃ data' xs', pushLoop v (xs.length + 1) data xs.length = some data' ∧
      Reordered data data' (xs ++ [v]) xs' :=
  pushLoop_spec (hstored.concat (by rw [hsize]; exact hroom) v) List.getElem?_concat_length
    (hordered.concat v) (Nat.lt_succ_self _)

theorem Holds.growIfFull {h : Heap} (hh : Holds h xs) :
    Holds (growIfFull h) xs ∧ xs.length < (Heaps.growIfFull h).size := by
  have hroom := hh.room
  have hleast := hh.least
  have hshort := hh.short
  have hcount := hh.count_eq
  rw [Heaps.growIfFull]
  by_cases hfull : h.count = h.size
  · rw [if_pos hfull, Nat.mod_eq_of_lt (by omega : h.size * 2 < 2 ^ 32)]
    have hdouble : xs.length < h.size * 2 := by omega
    refine ⟨⟨hcount, length_realloc _ _, Nat.le_of_lt hdouble, ?_, ?_, hshort,
      hh.stored.realloc (Nat.le_of_lt hdouble), hh.ordered⟩, hdouble⟩
    · show 2 ≤ h.size * 2
      omega
    · show h.size * 2 < 2 ^ 32
      omega
  · rw [if_neg hfull]
    exact ⟨hh, by omega⟩

theorem Holds.push {h : Heap} (hh : Holds h xs) (hshort : xs.length + 1 < 2 ^ 31) (v : Int) :
    ∃ h' xs', heapPush h v = some h' ∧ Holds h' xs' ∧ xs'.Perm (v :: xs) := by
  obtain ⟨hg, hroom⟩ := hh.growIfFull
  have hcount : (xs.length + 1) % 2 ^ 32 = xs.length + 1 := Nat.mod_eq_of_lt (by omega)
  obtain ⟨data', xs', hloop, hleft⟩ := pushLoop_concat hg.stored hg.ordered hg.size_eq hroom v
  have hperm : xs'.Perm (v :: xs) := hleft.perm.trans List.perm_append_comm
  have hlen : xs'.length = xs.length + 1 := hperm.length_eq
  refine ⟨{ Heaps.growIfFull h with count := xs.length + 1, data := data' }, xs', ?_, ?_, hperm⟩
  · rw [heapPush]
    simp only [hg.count_eq, hloop, hcount, Option.bind_eq_bind, Option.bind_some]
  · refine ⟨hlen.symm, hleft.length_eq.trans hg.size_eq, ?_, hg.least, hg.word, ?_, hleft.stored,
      hleft.ordered⟩
    · show xs'.length ≤ (Heaps.growIfFull h).size
      omega
    · omega

/-- The root is replaced by the last element. -/
theorem Stored.replace_root {mid : List Int} (h : Stored data (x :: (mid ++ [v]))) :
    Stored (data.set 0 (some v)) (v :: mid) := by
  intro i z hz
  have hdata : 0 < data.length := Nat.zero_lt_of_lt (lt_of_getElem? (h 0 x rfl))
  cases i with
  | zero =>
    cases hz
    rw [List.getElem?_set_self hdata]
  | succ i =>
    rw [List.getElem?_cons_succ] at hz
    rw [List.getElem?_set_ne (Nat.succ_ne_zero i).symm]
    apply h (i + 1) z
    rw [List.getElem?_cons_succ, List.getElem?_append_left (lt_of_getElem? hz), hz]

/-- The loop of a pop from an array that still has the root at its first cell. -/
theorem popLoop_root {rest : List Int} (hstored : Stored data (x :: rest))
    (hordered : HeapOrdered (x :: rest)) (hshort : rest.length < 2 ^ 31)
    (hlast : (x :: rest)[rest.length]? = some v) :
    ∃ data' xs', popLoop v rest.length (rest.length + 1) data 0 = some data' ∧
      Reordered data data' rest xs' := by
  rcases List.eq_nil_or_concat' rest with rfl | ⟨mid, t, rfl⟩
  · have hdata : 0 < data.length := Nat.zero_lt_of_lt (lt_of_getElem? (hstored 0 x rfl))
    refine ⟨data.set 0 (some v), [], ?_, List.length_set, ?_, ?_, List.Perm.refl []⟩
    · exact writeCell_eq hdata
    · intro i z hz
      cases hz
    · intro i z y hi hz
      cases hz
  · have ht : t = v := by
      rw [List.length_append, List.length_singleton, List.getElem?_cons_succ,
        List.getElem?_concat_length] at hlast
      exact Option.some.inj hlast
    subst ht
    have hlen : (mid ++ [t]).length = (t :: mid).length := by
      rw [List.length_append, List.length_singleton, List.length_cons]
    have hperm : ([t] ++ mid).Perm (mid ++ [t]) := List.perm_append_comm
    rw [hlen] at hshort ⊢
    obtain ⟨data', xs', hloop, hleft⟩ := popLoop_spec hstored.replace_root rfl hordered.replace_root
      hshort (Nat.lt_succ_self _)
    exact ⟨data', xs', hloop, hleft.length_eq, hleft.stored, hleft.ordered, hleft.perm.trans hperm⟩

/-- What a shrink leaves, for a heap whose count was just decreased. -/
theorem Holds.shrinkIfSparse {h : Heap} {rest : List Int} (hh : Holds h (x :: rest)) :
    ∃ h', Heaps.shrinkIfSparse { h with count := rest.length } = h' ∧ h'.count = rest.length ∧
      h'.data.length = h'.size ∧ rest.length ≤ h'.size ∧ 2 ≤ h'.size ∧ h'.size < 2 ^ 32 ∧
      Stored h'.data (x :: rest) := by
  have hroom := hh.room
  have hleast := hh.least
  have hword := hh.word
  rw [List.length_cons] at hroom
  rw [Heaps.shrinkIfSparse]
  by_cases hsparse : rest.length ≤ h.size / 4 ∧ baseSize < h.size
  · obtain ⟨hquarter, hbase⟩ := hsparse
    have hbase' : 4 < h.size := hbase
    refine ⟨_, if_pos ⟨hquarter, hbase⟩, rfl, length_realloc _ _, ?_, ?_, ?_, hh.stored.realloc ?_⟩
    · show rest.length ≤ h.size / 2
      omega
    · show 2 ≤ h.size / 2
      omega
    · show h.size / 2 < 2 ^ 32
      omega
    · show rest.length + 1 ≤ h.size / 2
      omega
  · refine ⟨_, if_neg hsparse, rfl, hh.size_eq, ?_, hleast, hword, hh.stored⟩
    show rest.length ≤ h.size
    omega

theorem Holds.pop {h : Heap} {rest : List Int} (hh : Holds h (x :: rest)) :
    ∃ h' xs', heapPop h = some h' ∧ Holds h' xs' ∧ xs'.Perm rest := by
  have hshort := hh.short
  rw [List.length_cons] at hshort
  have hcount : (h.count + (2 ^ 32 - 1)) % 2 ^ 32 = rest.length := by
    rw [hh.count_eq, List.length_cons, show rest.length + 1 + (2 ^ 32 - 1) = rest.length + 2 ^ 32 by omega,
      Nat.add_mod_right, Nat.mod_eq_of_lt (by omega)]
  obtain ⟨v, hlast⟩ : ∃ v, (x :: rest)[rest.length]? = some v :=
    ⟨_, List.getElem?_eq_getElem (by rw [List.length_cons]; omega)⟩
  have htemp : readCell h.data rest.length = some v := hh.stored.read hlast
  obtain ⟨h₁, hshrink, hcount₁, hsize₁, hroom₁, hleast₁, hword₁, hstored₁⟩ := hh.shrinkIfSparse
  obtain ⟨data', xs', hloop, hleft⟩ := popLoop_root hstored₁ hh.ordered (by omega) hlast
  have hlen : xs'.length = rest.length := hleft.perm.length_eq
  refine ⟨{ h₁ with data := data' }, xs', ?_, ?_, hleft.perm⟩
  · rw [heapPop]
    simp only [hcount, htemp, hshrink, hcount₁, hloop, Option.bind_eq_bind, Option.bind_some]
  · refine ⟨hcount₁.trans hlen.symm, hleft.length_eq.trans hsize₁, ?_, hleast₁, hword₁, ?_, hleft.stored,
      hleft.ordered⟩
    · show xs'.length ≤ h₁.size
      omega
    · omega

/-! ## Runs -/

/-- The values of a priority queue in non-increasing order. -/
def prioritySpec (queue : List Int) : HeapOp → List Int × Option Int
  | .push value => (queue.orderedInsert (· ≥ ·) value, none)
  | .pop => (queue.tail, queue.head?)

/-- The heap stores the values of the queue. -/
def Represents (h : Heap) (queue : List Int) : Prop :=
  ∃ xs, Holds h xs ∧ xs.Perm queue ∧ queue.Pairwise (· ≥ ·)

/-- Of two lists with the same elements, a heap and a non-increasing one, both begin
with the maximum. -/
theorem root_eq_head {rest queue : List Int} (hordered : HeapOrdered (x :: rest))
    (hperm : (x :: rest).Perm (y :: queue)) (hsorted : (y :: queue).Pairwise (· ≥ ·)) : x = y := by
  have hxy : x ≤ y := by
    rcases List.mem_cons.mp (hperm.subset (List.mem_cons_self ..)) with rfl | hx
    · exact le_refl _
    · exact (List.pairwise_cons.mp hsorted).1 x hx
  have hyx : y ≤ x := by
    obtain ⟨i, hi⟩ := List.mem_iff_getElem?.mp (hperm.symm.subset (List.mem_cons_self ..))
    exact hordered.le_root rfl hi
  exact le_antisymm hxy hyx

theorem heapStep_follows {h : Heap} {queue : List Int} {op : HeapOp} (hr : Represents h queue)
    (hop : Within h op) :
    ∃ h' out, heapStep h op = some (h', out) ∧ Represents h' (prioritySpec queue op).1 ∧
      out = (prioritySpec queue op).2 := by
  obtain ⟨xs, hh, hperm, hsorted⟩ := hr
  cases op with
  | push value =>
    have hshort : h.count + 1 < 2 ^ 31 := hop
    rw [hh.count_eq] at hshort
    obtain ⟨h', xs', hpush, hh', hperm'⟩ := hh.push hshort value
    refine ⟨h', none, ?_, ⟨xs', hh', ?_, List.Pairwise.orderedInsert value queue hsorted⟩, rfl⟩
    · rw [heapStep, hpush]
      rfl
    · exact (hperm'.trans (hperm.cons value)).trans (List.perm_orderedInsert _ value queue).symm
  | pop =>
    have hpos : 0 < h.count := hop
    rw [hh.count_eq] at hpos
    obtain ⟨x, rest, rfl⟩ := List.exists_cons_of_length_pos hpos
    obtain ⟨y, tail, rfl⟩ := List.exists_cons_of_length_pos (hperm.length_eq ▸ hpos)
    have hroot : x = y := root_eq_head hh.ordered hperm hsorted
    subst hroot
    have hfront : heapFront h = some x := hh.stored.read rfl
    obtain ⟨h', xs', hpop, hh', hperm'⟩ := hh.pop
    refine ⟨h', some x, ?_, ⟨xs', hh', hperm'.trans hperm.cons_inv, hsorted.of_cons⟩, rfl⟩
    rw [heapStep, hfront, hpop]
    rfl

/-- The max-heap order on the live cells, which hold the values of the queue; the front
is their maximum. -/
structure IsHeap (h : Heap) (queue : List Int) : Prop where
  count_eq : h.count = queue.length
  order : ∀ i x y, 0 < i → i < h.count → readCell h.data i = some x →
    readCell h.data ((i - 1) / 2) = some y → x ≤ y
  contents : ∃ xs : List Int, h.data.take h.count = xs.map some ∧ xs.Perm queue
  front : 0 < h.count → ∃ m, heapFront h = some m ∧ m ∈ queue ∧ ∀ x ∈ queue, x ≤ m

theorem Stored.take (h : Stored data xs) : data.take xs.length = xs.map some := by
  apply List.ext_getElem?
  intro i
  by_cases hi : i < xs.length
  · rw [List.getElem?_take_of_lt hi, List.getElem?_map, List.getElem?_eq_getElem hi]
    exact h i _ (List.getElem?_eq_getElem hi)
  · rw [List.getElem?_take_eq_none (by omega), List.getElem?_map, List.getElem?_eq_none (by omega)]
    rfl

theorem Represents.isHeap {h : Heap} {queue : List Int} (hr : Represents h queue) : IsHeap h queue := by
  obtain ⟨xs, hh, hperm, -⟩ := hr
  have hcount := hh.count_eq
  constructor
  · exact hcount.trans hperm.length_eq
  · intro i x y hi hlt hx hy
    obtain ⟨x', hx'⟩ : ∃ x', xs[i]? = some x' := ⟨_, List.getElem?_eq_getElem (by omega)⟩
    obtain ⟨y', hy'⟩ : ∃ y', xs[(i - 1) / 2]? = some y' := ⟨_, List.getElem?_eq_getElem (by omega)⟩
    rw [hh.stored.read hx'] at hx
    rw [hh.stored.read hy'] at hy
    cases hx
    cases hy
    exact hh.ordered i x y hi hx' hy'
  · refine ⟨xs, ?_, hperm⟩
    rw [hcount]
    exact hh.stored.take
  · intro hpos
    rw [hcount] at hpos
    obtain ⟨m, rest, rfl⟩ := List.exists_cons_of_length_pos hpos
    refine ⟨m, hh.stored.read rfl, hperm.subset (List.mem_cons_self ..), fun x hx => ?_⟩
    obtain ⟨i, hi⟩ := List.mem_iff_getElem?.mp (hperm.symm.subset hx)
    exact hh.ordered.le_root rfl hi

/-- Popping everything. -/
theorem Represents.drain {h : Heap} {queue : List Int} (hr : Represents h queue) :
    ∃ h', run heapStep h (List.replicate queue.length .pop) = some (h', queue.map some) ∧
      h'.count = 0 := by
  induction queue generalizing h with
  | nil => exact ⟨h, rfl, hr.isHeap.count_eq⟩
  | cons m queue ih =>
    have hpos : 0 < h.count := by
      rw [hr.isHeap.count_eq]
      exact Nat.succ_pos _
    obtain ⟨h₁, out, hstep, hr₁, rfl⟩ := heapStep_follows hr (show Within h .pop from hpos)
    obtain ⟨h', hrun, hcount⟩ := ih hr₁
    exact ⟨h', run_cons.mpr ⟨h₁, some m, h', queue.map some, hstep, hrun, rfl⟩, hcount⟩

/-- The values that a sequence of calls pushes. -/
def pushed (ops : List HeapOp) : List Int :=
  ops.filterMap fun
    | .push value => some value
    | .pop => none

/-- The queue and what was popped from it are together what was in it and what was pushed. -/
theorem prioritySpec_conserves (queue : List Int) (ops : List HeapOp) :
    ((specRun prioritySpec queue ops).2.reduceOption ++ (specRun prioritySpec queue ops).1).Perm
      (pushed ops ++ queue) := by
  induction ops generalizing queue with
  | nil => exact List.Perm.refl queue
  | cons op ops ih =>
    cases op with
    | push value =>
      have hrest := ih (queue.orderedInsert (· ≥ ·) value)
      have hin : (queue.orderedInsert (· ≥ ·) value).Perm (value :: queue) := List.perm_orderedInsert _ _ _
      exact (hrest.trans (hin.append_left _)).trans List.perm_middle
    | pop =>
      cases queue with
      | nil => exact ih []
      | cons m queue =>
        have hrest := ih queue
        exact (hrest.cons m).trans List.perm_middle.symm

theorem prioritySpec_sorted {queue : List Int} (h : queue.Pairwise (· ≥ ·)) (ops : List HeapOp) :
    (specRun prioritySpec queue ops).1.Pairwise (· ≥ ·) := by
  refine specRun_preserves (fun queue op _ hq => ?_) h
  cases op with
  | push value => exact List.Pairwise.orderedInsert value queue hq
  | pop => exact hq.tail

/-- On every sequence of pushes and pops the heap pops a maximum, once, and keeps the
rest in heap order; popping everything then yields the values in non-increasing order. -/
theorem heap_is_priority_queue (ops : List HeapOp) (hops : Guarded heapStep Within heapInit ops) :
    ∃ h queue, queue = (specRun prioritySpec [] ops).1 ∧
      run heapStep heapInit ops = some (h, (specRun prioritySpec [] ops).2) ∧ IsHeap h queue ∧
      ((specRun prioritySpec [] ops).2.reduceOption ++ queue).Perm (pushed ops) ∧
      queue.Pairwise (· ≥ ·) ∧
      ∃ h', run heapStep h (List.replicate queue.length .pop) = some (h', queue.map some) ∧
        h'.count = 0 := by
  have hinit : Represents heapInit [] := ⟨[], holds_init, List.Perm.refl [], List.Pairwise.nil⟩
  have hstep : ∀ (h : Heap) (queue : List Int) (op : HeapOp), Represents h queue → Within h op →
      ∃ h' out, heapStep h op = some (h', out) ∧ Represents h' (prioritySpec queue op).1 ∧
        out = (prioritySpec queue op).2 :=
    fun h queue op hr hop => heapStep_follows hr hop
  obtain ⟨h, outs, hrun, hr, houts⟩ := run_refines hstep hinit hops
  rw [List.forall₂_eq_eq_eq] at houts
  subst houts
  have hconserves := prioritySpec_conserves [] ops
  rw [List.append_nil] at hconserves
  exact ⟨h, _, rfl, hrun, hr.isHeap, hconserves, prioritySpec_sorted List.Pairwise.nil ops, hr.drain⟩

/-- Five pushes, the fifth of which doubles the array, and two pops of the maximum. -/
theorem heap_is_priority_queue_run :
    ∃ h queue, queue = [2, 1, -4] ∧
      run heapStep heapInit [.push 2, .push 7, .push 1, .push 7, .push (-4), .pop, .pop] =
        some (h, [none, none, none, none, none, some 7, some 7]) ∧ IsHeap h queue ∧
      ([7, 7] ++ queue).Perm [2, 7, 1, 7, -4] ∧ queue.Pairwise (· ≥ ·) ∧
      ∃ h', run heapStep h (List.replicate queue.length .pop) = some (h', queue.map some) ∧
        h'.count = 0 := by
  have hrun := heap_is_priority_queue [.push 2, .push 7, .push 1, .push 7, .push (-4), .pop, .pop] (by decide)
  have hspec : specRun prioritySpec [] [.push 2, .push 7, .push 1, .push 7, .push (-4), .pop, .pop] =
      ([2, 1, -4], [none, none, none, none, none, some 7, some 7]) := by decide
  rw [hspec] at hrun
  exact hrun

end Devclego.Heaps
