import Devclego.Foundation.Split
import Devclego.Percentile.Model
import Devclego.Tree.Counters
import Devclego.Tree.Transfer

/-!
# What every call of the plugin keeps

The trees are two tallies `lo` and `hi` in one memory. The counters equal the
trees' reference counts, and these lag behind the stored multiplicities by what
earlier removals miscounted. A move is a shift and leaves the lags alone, so the
balancer is a list of shifts, whatever the ratios are. All of this is about numbers:
the multiplicities of both trees together fit in the word that counts them.
-/
namespace Devclego.Percentile

open Foundation Devclego.Tree

variable {F D : Type} {cmp : D → D → Int}

/-! ## Two trees as two tallies -/

/-- The trees own no cell together, their caches are their ends, and their entries are
the tallies, read as numbers. -/
structure Parts (cmp : D → D → Int) (one two : Bintree D) (mem : Mem D) (t1 : Shape (Stored D))
    (q1 : List Addr) (t2 : Shape (Stored D)) (q2 : List Addr) (lo hi : List (Entry D)) : Prop where
  apart : Apart cmp one two mem t1 q1 t2 q2
  first_sharp : Sharp one t1
  second_sharp : Sharp two t2
  first_wf : Tally.Wf cmp lo
  second_wf : Tally.Wf cmp hi
  first_vals : Tally.widen t1.vals = lo
  second_vals : Tally.widen t2.vals = hi

def Halves (cmp : D → D → Int) (one two : Bintree D) (mem : Mem D) (lo hi : List (Entry D)) : Prop :=
  ∃ t1 q1 t2 q2, Parts cmp one two mem t1 q1 t2 q2 lo hi

variable {one two : Bintree D} {mem : Mem D} {lo hi : List (Entry D)}

theorem Halves.swap (h : Halves cmp one two mem lo hi) : Halves cmp two one mem hi lo := by
  obtain ⟨t1, q1, t2, q2, h⟩ := h
  exact ⟨t2, q2, t1, q1, h.apart.swap, h.second_sharp, h.first_sharp, h.second_wf, h.first_wf, h.second_vals,
    h.first_vals⟩

theorem Halves.wf (h : Halves cmp one two mem lo hi) : Tally.Wf cmp lo ∧ Tally.Wf cmp hi := by
  obtain ⟨t1, q1, t2, q2, h⟩ := h
  exact ⟨h.first_wf, h.second_wf⟩

theorem Halves.nodenum (h : Halves cmp one two mem lo hi) : bintreeGetNodenum one = Int32.ofNat lo.length := by
  obtain ⟨t1, q1, t2, q2, hap, -, -, -, -, rfl, rfl⟩ := h
  rw [Tally.length_widen, Shape.length_vals]
  exact hap.first.count

theorem Halves.storedRef (order : TotalOrder cmp) (h : Halves cmp one two mem lo hi) (k : D) :
    (storedRef cmp one mem k).map Int32.toInt = (Tally.find cmp lo k).map Entry.ref := by
  obtain ⟨t1, q1, t2, q2, hap, -, -, -, -, rfl, rfl⟩ := h
  rw [hap.first.storedRef order, Tally.find_widen]
  cases Tally.find cmp t1.vals k <;> rfl

theorem Halves.storedRefs (h : Halves cmp one two mem lo hi) : storedRefs one mem = Tally.total lo := by
  obtain ⟨t1, q1, t2, q2, hap, -, -, -, -, rfl, rfl⟩ := h
  rw [Tree.storedRefs, hap.first.storedEntries]

theorem halves_make (mem : Mem D) : Halves cmp makeBintree makeBintree mem [] [] :=
  ⟨.nil, [], .nil, [], ⟨represents_make mem, represents_make mem, by simp [List.Disjoint]⟩, sharp_make, sharp_make,
    ⟨increasing_nil, nofun⟩, ⟨increasing_nil, nofun⟩, rfl, rfl⟩

/-- An insertion adds one to the half as long as the word has room. -/
theorem Halves.insert (order : TotalOrder cmp) (h : Halves cmp one two mem lo hi) (data : D)
    (hroom : Tally.total lo < 2147483647) :
    ∃ one' mem', bintreeInsertData cmp one mem data = some (one', mem') ∧
      Halves cmp one' two mem' (Tally.add cmp ⟨data, 1⟩ lo) hi ∧
      bintreeGetRefnum one' = bintreeGetRefnum one + 1 := by
  obtain ⟨t1, q1, t2, q2, hap, hs1, hs2, hwf1, hwf2, rfl, rfl⟩ := h
  obtain ⟨one', mem', t', q', hrun, hrep, hsharp, hwf', hadd, hout, href⟩ :=
    hap.first.insertOne order hs1 hwf1 data hroom
  rw [hadd] at hwf'
  exact ⟨one', mem', hrun, ⟨t', q', t2, q2, hap.local_step hrep hout, hsharp, hs2, hwf', hwf2, hadd, rfl⟩, href⟩

theorem Halves.delete (order : TotalOrder cmp) (h : Halves cmp one two mem lo hi) (data : D) :
    ∃ one' mem', bintreeDeleteValue cmp one mem data = some (one', mem') ∧
      Halves cmp one' two mem' (Tally.takeOne cmp data lo) hi ∧
      bintreeGetRefnum one' = bintreeGetRefnum one - deletedRefs cmp one mem data ∧
      deletedRefs cmp two mem' data = deletedRefs cmp two mem data := by
  obtain ⟨t1, q1, t2, q2, hap, hs1, hs2, hwf1, hwf2, rfl, rfl⟩ := h
  obtain ⟨one', mem', t', q', hrun, hrep, hsharp, hvals, hout, href⟩ := hap.first.deleteValue order data
  have hap' := hap.local_step hrep hout
  have hkept : deletedRefs cmp two mem' data = deletedRefs cmp two mem data := by
    rw [deletedRefs, deletedRefs, hap'.second.storedRef order, hap.second.storedRef order,
      unlinkedRef_congr order hap.second hap'.second]
  refine ⟨one', mem', hrun, ⟨t', q', t2, q2, hap', hsharp hs1, hs2, hwf1.takeOne order data, hwf2, ?_, rfl⟩,
    href fun v hv => Tally.pos_of_wf hwf1 hv, hkept⟩
  rw [hvals, Tally.widen_takeOne]

theorem Halves.top (h : Halves cmp one two mem lo hi) :
    bintreeGetTopData one mem = some (lo.getLast?.map Entry.data) := by
  obtain ⟨t1, q1, t2, q2, hap, hs1, -, -, -, rfl, rfl⟩ := h
  rw [hap.first.getTopData, hap.first.cachedEntry_top hs1, Tally.getLast?_widen, Option.map_map]
  rfl

theorem Halves.bottom (h : Halves cmp one two mem lo hi) :
    bintreeGetBottomData one mem = some (lo.head?.map Entry.data) := by
  obtain ⟨t1, q1, t2, q2, hap, hs1, -, -, -, rfl, rfl⟩ := h
  rw [hap.first.getBottomData, hap.first.cachedEntry_bottom hs1, Tally.head?_widen, Option.map_map]
  rfl

theorem Halves.popBottom (h : Halves cmp one two mem lo hi) {e : Entry D} (he : lo.head? = some e) :
    bintreePopBottomData cmp one mem =
      (bintreeDeleteValue cmp one mem e.data).map fun (one, mem) => (one, mem, some e.data) := by
  obtain ⟨t1, q1, t2, q2, hap, hs1, -, -, -, rfl, rfl⟩ := h
  rw [Tally.head?_widen] at he
  obtain ⟨v, hv, rfl⟩ := Option.map_eq_some_iff.mp he
  rw [hap.first.popBottomData, hap.first.cachedEntry_bottom hs1, hv]
  rfl

/-- Deleting at an extreme counts one. -/
theorem Halves.deletedRefs_last (order : TotalOrder cmp) (h : Halves cmp one two mem lo hi) {e : Entry D}
    {k : D} (he : lo.getLast? = some e) (hk : cmp k e.data = 0) : deletedRefs cmp one mem k = 1 := by
  obtain ⟨t1, q1, t2, q2, hap, -, -, hwf1, -, rfl, rfl⟩ := h
  rw [Tally.getLast?_widen] at he
  obtain ⟨v, hv, rfl⟩ := Option.map_eq_some_iff.mp he
  have hf : Tally.find cmp t1.vals k = some v :=
    (Tally.find_congr order hk _).trans (Tally.find_of_mem order hap.first.sorted (List.mem_of_getLast? hv))
  rw [hap.first.deletedRefs order hwf1 k fun hs => ?_, hf]
  · rfl
  · rw [hap.first.unlinkedRef_top order hv hk, ← hs, hap.first.storedRef order, hf]
    rfl

theorem Halves.deletedRefs_head (order : TotalOrder cmp) (h : Halves cmp one two mem lo hi) {e : Entry D}
    {k : D} (he : lo.head? = some e) (hk : cmp k e.data = 0) : deletedRefs cmp one mem k = 1 := by
  obtain ⟨t1, q1, t2, q2, hap, -, -, hwf1, -, rfl, rfl⟩ := h
  rw [Tally.head?_widen] at he
  obtain ⟨v, hv, rfl⟩ := Option.map_eq_some_iff.mp he
  have hf : Tally.find cmp t1.vals k = some v :=
    (Tally.find_congr order hk _).trans (Tally.find_of_mem order hap.first.sorted (List.mem_of_head? hv))
  rw [hap.first.deletedRefs order hwf1 k fun hs => ?_, hf]
  · rfl
  · rw [hap.first.unlinkedRef_bottom order hv hk, ← hs, hap.first.storedRef order, hf]
    rfl

/-- A deletion never counts less than it takes, and counts just that when it counts
right. -/
theorem Halves.deletedRefs_ge (order : TotalOrder cmp) (h : Halves cmp one two mem lo hi) (data : D) :
    (if (Tally.find cmp lo data).isSome then 1 else 0) ≤ (deletedRefs cmp one mem data).toInt := by
  obtain ⟨t1, q1, t2, q2, hap, -, -, hwf1, -, rfl, rfl⟩ := h
  rw [deletedRefs, hap.first.storedRef order, Tally.find_widen, Option.isSome_map]
  rcases hap.first.cases order data with ⟨x, a, v, y, ht, hv, -, hfind, -⟩ | ⟨hnone, -⟩
  · rw [hfind]
    simp only [Option.isSome_some, ↓reduceIte, Option.map_some]
    split
    · exact Int.le_refl 1
    · obtain ⟨_, _, _, _, u, -, -, -, hu, -⟩ := popFromTree_found order hap.first ht hv
      obtain ⟨e, he, rfl⟩ := unlinkedRef_mem order hap.first hu
      rw [hu]
      exact (pos_iff e.ref).mp (Tally.pos_of_wf hwf1 he)
  · rw [hnone]
    exact Int.le_refl 0

theorem Halves.deletedRefs_right (order : TotalOrder cmp) (h : Halves cmp one two mem lo hi) {data : D}
    (hright : CountsRight cmp (one, mem) (.deleteValue data)) :
    (deletedRefs cmp one mem data).toInt = if (Tally.find cmp lo data).isSome then 1 else 0 := by
  obtain ⟨t1, q1, t2, q2, hap, -, -, hwf1, -, rfl, rfl⟩ := h
  rw [hap.first.deletedRefs order hwf1 data hright, Tally.find_widen, Option.isSome_map]
  split <;> rfl

/-! ## The plugin -/

/-- The sum of the counters, as the code adds them. -/
def count (this : Swpercentile F D) : Int := (this.mxc + this.mnc).toInt

/-- The plugin's invariant, with the amounts by which the counters lag. -/
structure Core (cmp : D → D → Int) (this : Swpercentile F D) (mem : Mem D) (lo hi : List (Entry D))
    (lag1 lag2 : Int) : Prop where
  halves : Halves cmp this.maxtree this.mintree mem lo hi
  mxc : this.mxc = bintreeGetRefnum this.maxtree
  mnc : this.mnc = bintreeGetRefnum this.mintree
  loLag : this.mxc.toInt + lag1 = Tally.total lo
  hiLag : this.mnc.toInt + lag2 = Tally.total hi
  loLag_nonneg : 0 ≤ lag1
  hiLag_nonneg : 0 ≤ lag2
  room : Tally.total lo + Tally.total hi < 2147483648

/-- Fields that are set once by the constructor. -/
structure SameSettings (this this' : Swpercentile F D) : Prop where
  percentile : this'.percentile = this.percentile
  ratio : this'.ratio = this.ratio
  required : this'.required = this.required

theorem SameSettings.refl (this : Swpercentile F D) : SameSettings this this := ⟨rfl, rfl, rfl⟩

theorem SameSettings.trans {a b c : Swpercentile F D} (h : SameSettings a b) (h' : SameSettings b c) :
    SameSettings a c :=
  ⟨h'.percentile.trans h.percentile, h'.ratio.trans h.ratio, h'.required.trans h.required⟩

variable {this : Swpercentile F D} {lag1 lag2 : Int}

theorem Core.totals_nonneg (h : Core cmp this mem lo hi lag1 lag2) : 0 ≤ Tally.total lo ∧ 0 ≤ Tally.total hi :=
  ⟨h.halves.wf.1.total_nonneg, h.halves.wf.2.total_nonneg⟩

/-- The code's sum is the sum of the counters, unless they have fallen behind by more
than a word. -/
theorem Core.count_cases (h : Core cmp this mem lo hi lag1 lag2) :
    count this = this.mxc.toInt + this.mnc.toInt ∨
      this.mxc.toInt + this.mnc.toInt < -2147483648 ∧
        count this = this.mxc.toInt + this.mnc.toInt + 4294967296 := by
  have hlo := h.loLag
  have hhi := h.hiLag
  have hlo0 := h.loLag_nonneg
  have hhi0 := h.hiLag_nonneg
  have hroom := h.room
  exact toInt_add_cases (by omega)

/-- The code's sum depends on the sum of the counters only. -/
theorem count_congr {F' : Type} {this : Swpercentile F D} {this' : Swpercentile F' D}
    (h : this'.mxc.toInt + this'.mnc.toInt = this.mxc.toInt + this.mnc.toInt) : count this' = count this := by
  rw [count, count, Int32.toInt_add, Int32.toInt_add, h]

/-- A counter that lags behind an empty tally is not positive. -/
theorem head_of_pos {xs : List (Entry D)} {n lag : Int} (hlag : n + lag = Tally.total xs) (h0 : 0 ≤ lag)
    (hn : 1 ≤ n) : ∃ e, xs.head? = some e := by
  cases xs with
  | nil =>
    rw [Tally.total_nil] at hlag
    omega
  | cons e xs => exact ⟨e, rfl⟩

theorem last_of_pos {xs : List (Entry D)} {n lag : Int} (hlag : n + lag = Tally.total xs) (h0 : 0 ≤ lag)
    (hn : 1 ≤ n) : ∃ e, xs.getLast? = some e := by
  obtain ⟨e, he⟩ := head_of_pos hlag h0 hn
  cases xs with
  | nil => simp at he
  | cons u us => exact ⟨_, List.getLast?_eq_some_getLast (by simp)⟩

/-- What a loop of moves does: shifts, with the sum of the counters and both lags
unchanged. -/
structure Moved (cmp : D → D → Int) (this : Swpercentile F D) (lo hi : List (Entry D)) (lag1 lag2 : Int)
    (this' : Swpercentile F D) (mem' : Mem D) (lo' hi' : List (Entry D)) : Prop where
  core : Core cmp this' mem' lo' hi' lag1 lag2
  shifts : Shifts cmp lo hi lo' hi'
  sum : this'.mxc.toInt + this'.mnc.toInt = this.mxc.toInt + this.mnc.toInt
  settings : SameSettings this this'

theorem Moved.refl (h : Core cmp this mem lo hi lag1 lag2) :
    Moved cmp this lo hi lag1 lag2 this mem lo hi :=
  ⟨h, .refl lo hi, rfl, .refl this⟩

theorem Moved.up {this1 this' : Swpercentile F D} {mem' : Mem D} {lo' hi' : List (Entry D)} {e : Entry D}
    (he : hi.head? = some e) (hs : SameSettings this this1)
    (hsum : this1.mxc.toInt + this1.mnc.toInt = this.mxc.toInt + this.mnc.toInt)
    (h : Moved cmp this1 (Tally.add cmp ⟨e.data, 1⟩ lo) (Tally.takeOne cmp e.data hi) lag1 lag2
      this' mem' lo' hi') : Moved cmp this lo hi lag1 lag2 this' mem' lo' hi' :=
  ⟨h.core, .up he h.shifts, h.sum.trans hsum, hs.trans h.settings⟩

theorem Moved.down {this1 this' : Swpercentile F D} {mem' : Mem D} {lo' hi' : List (Entry D)} {e : Entry D}
    (he : lo.getLast? = some e) (hs : SameSettings this this1)
    (hsum : this1.mxc.toInt + this1.mnc.toInt = this.mxc.toInt + this.mnc.toInt)
    (h : Moved cmp this1 (Tally.takeOne cmp e.data lo) (Tally.add cmp ⟨e.data, 1⟩ hi) lag1 lag2
      this' mem' lo' hi') : Moved cmp this lo hi lag1 lag2 this' mem' lo' hi' :=
  ⟨h.core, .down he h.shifts, h.sum.trans hsum, hs.trans h.settings⟩

theorem Moved.count (h : Moved cmp this lo hi lag1 lag2 this' mem' lo' hi') : count this' = count this :=
  count_congr h.sum

theorem Moved.totals (h : Moved cmp this lo hi lag1 lag2 this' mem' lo' hi')
    (hcore : Core cmp this mem lo hi lag1 lag2) :
    Tally.total lo' + Tally.total hi' = Tally.total lo + Tally.total hi := by
  have hsum := h.sum
  rw [← hcore.loLag, ← hcore.hiLag, ← h.core.loLag, ← h.core.hiLag]
  omega

/-- The least upper key can go to the lower half. -/
theorem Core.shiftUp (order : TotalOrder cmp) (h : Core cmp this mem lo hi lag1 lag2) (hn : 1 ≤ this.mnc.toInt) :
    ∃ e mintree' mem1 maxtree' mem2, hi.head? = some e ∧
      bintreeDeleteValue cmp this.mintree mem e.data = some (mintree', mem1) ∧
      bintreeInsertData cmp this.maxtree mem1 e.data = some (maxtree', mem2) ∧
      Core cmp { this with
          mintree := mintree', maxtree := maxtree', mnc := this.mnc - 1, mxc := this.mxc + 1 } mem2
        (Tally.add cmp ⟨e.data, 1⟩ lo) (Tally.takeOne cmp e.data hi) lag1 lag2 ∧
      (this.mxc + 1).toInt = this.mxc.toInt + 1 ∧ (this.mnc - 1).toInt = this.mnc.toInt - 1 := by
  obtain ⟨e, he⟩ := head_of_pos h.hiLag h.hiLag_nonneg hn
  have hmxc := h.mxc
  have hmnc := h.mnc
  have hlo := h.loLag
  have hhi := h.hiLag
  have hlo0 := h.loLag_nonneg
  have hhi0 := h.hiLag_nonneg
  have hroom := h.room
  obtain ⟨mintree', mem1, hdel, hh1, href1, -⟩ := h.halves.swap.delete order e.data
  obtain ⟨maxtree', mem2, hins, hh2, href2⟩ := hh1.swap.insert order e.data (by omega)
  have hone := h.halves.swap.deletedRefs_head order he (order.refl e.data)
  have hfind := Tally.find_of_mem order h.halves.wf.2.increasing (List.mem_of_head? he)
  have hup : (this.mxc + 1).toInt = this.mxc.toInt + 1 := toInt_succ (by omega)
  have hdown : (this.mnc - 1).toInt = this.mnc.toInt - 1 := toInt_pred (by omega)
  have htotal1 : Tally.total (Tally.add cmp ⟨e.data, 1⟩ lo) = Tally.total lo + 1 := Tally.total_add cmp _ _
  have htotal2 : Tally.total (Tally.takeOne cmp e.data hi) = Tally.total hi - 1 := by
    rw [Tally.total_takeOne order h.halves.wf.2, hfind]
    rfl
  refine ⟨e, mintree', mem1, maxtree', mem2, he, hdel, hins,
    ⟨hh2, ?_, ?_, ?_, ?_, h.loLag_nonneg, h.hiLag_nonneg, ?_⟩, hup, hdown⟩
  · change this.mxc + 1 = bintreeGetRefnum maxtree'
    rw [href2, hmxc]
  · change this.mnc - 1 = bintreeGetRefnum mintree'
    rw [href1, hone, hmnc]
  · change (this.mxc + 1).toInt + lag1 = _
    omega
  · change (this.mnc - 1).toInt + lag2 = _
    omega
  · omega

/-- The greatest lower key can go to the upper half. -/
theorem Core.shiftDown (order : TotalOrder cmp) (h : Core cmp this mem lo hi lag1 lag2) (hx : 1 ≤ this.mxc.toInt) :
    ∃ e maxtree' mem1 mintree' mem2, lo.getLast? = some e ∧
      bintreeDeleteValue cmp this.maxtree mem e.data = some (maxtree', mem1) ∧
      bintreeInsertData cmp this.mintree mem1 e.data = some (mintree', mem2) ∧
      Core cmp { this with
          mintree := mintree', maxtree := maxtree', mxc := this.mxc - 1, mnc := this.mnc + 1 } mem2
        (Tally.takeOne cmp e.data lo) (Tally.add cmp ⟨e.data, 1⟩ hi) lag1 lag2 ∧
      (this.mxc - 1).toInt = this.mxc.toInt - 1 ∧ (this.mnc + 1).toInt = this.mnc.toInt + 1 := by
  obtain ⟨e, he⟩ := last_of_pos h.loLag h.loLag_nonneg hx
  have hmxc := h.mxc
  have hmnc := h.mnc
  have hlo := h.loLag
  have hhi := h.hiLag
  have hlo0 := h.loLag_nonneg
  have hhi0 := h.hiLag_nonneg
  have hroom := h.room
  obtain ⟨maxtree', mem1, hdel, hh1, href1, -⟩ := h.halves.delete order e.data
  obtain ⟨mintree', mem2, hins, hh2, href2⟩ := hh1.swap.insert order e.data (by omega)
  have hone := h.halves.deletedRefs_last order he (order.refl e.data)
  have hfind := Tally.find_of_mem order h.halves.wf.1.increasing (List.mem_of_getLast? he)
  have hdown : (this.mxc - 1).toInt = this.mxc.toInt - 1 := toInt_pred (by omega)
  have hup : (this.mnc + 1).toInt = this.mnc.toInt + 1 := toInt_succ (by omega)
  have htotal1 : Tally.total (Tally.takeOne cmp e.data lo) = Tally.total lo - 1 := by
    rw [Tally.total_takeOne order h.halves.wf.1, hfind]
    rfl
  have htotal2 : Tally.total (Tally.add cmp ⟨e.data, 1⟩ hi) = Tally.total hi + 1 := Tally.total_add cmp _ _
  refine ⟨e, maxtree', mem1, mintree', mem2, he, hdel, hins,
    ⟨hh2.swap, ?_, ?_, ?_, ?_, h.loLag_nonneg, h.hiLag_nonneg, ?_⟩, hdown, hup⟩
  · change this.mxc - 1 = bintreeGetRefnum maxtree'
    rw [href1, hone, hmxc]
  · change this.mnc + 1 = bintreeGetRefnum mintree'
    rw [href2, hmnc]
  · change (this.mxc - 1).toInt + lag1 = _
    omega
  · change (this.mnc + 1).toInt + lag2 = _
    omega
  · omega

theorem Moved.trans {this1 this' : Swpercentile F D} {mem1 mem' : Mem D}
    {lo1 hi1 lo' hi' : List (Entry D)} (h : Moved cmp this lo hi lag1 lag2 this1 mem1 lo1 hi1)
    (h' : Moved cmp this1 lo1 hi1 lag1 lag2 this' mem' lo' hi') :
    Moved cmp this lo hi lag1 lag2 this' mem' lo' hi' :=
  ⟨h'.core, h.shifts.trans h'.shifts, h'.sum.trans h.sum, h.settings.trans h'.settings⟩

theorem moveToMaxtree_spec (order : TotalOrder cmp) (h : Core cmp this mem lo hi lag1 lag2)
    (hn : 1 ≤ this.mnc.toInt) :
    ∃ e this' mem', hi.head? = some e ∧ moveToMaxtree cmp this mem = some (this', mem') ∧
      Core cmp this' mem' (Tally.add cmp ⟨e.data, 1⟩ lo) (Tally.takeOne cmp e.data hi) lag1 lag2 ∧
      this'.mxc.toInt = this.mxc.toInt + 1 ∧ this'.mnc.toInt = this.mnc.toInt - 1 ∧
      SameSettings this this' := by
  obtain ⟨e, mintree', mem1, maxtree', mem2, he, hdel, hins, hcore, hup, hdown⟩ := h.shiftUp order hn
  refine ⟨e, _, mem2, he, ?_, hcore, hup, hdown, ⟨rfl, rfl, rfl⟩⟩
  simp [moveToMaxtree, h.halves.swap.bottom, he, hdel, hins]

theorem moveToMintree_spec (order : TotalOrder cmp) (h : Core cmp this mem lo hi lag1 lag2)
    (hx : 1 ≤ this.mxc.toInt) :
    ∃ e this' mem', lo.getLast? = some e ∧ moveToMintree cmp this mem = some (this', mem') ∧
      Core cmp this' mem' (Tally.takeOne cmp e.data lo) (Tally.add cmp ⟨e.data, 1⟩ hi) lag1 lag2 ∧
      this'.mxc.toInt = this.mxc.toInt - 1 ∧ this'.mnc.toInt = this.mnc.toInt + 1 ∧
      SameSettings this this' := by
  obtain ⟨e, maxtree', mem1, mintree', mem2, he, hdel, hins, hcore, hdown, hup⟩ := h.shiftDown order hx
  refine ⟨e, _, mem2, he, ?_, hcore, hdown, hup, ⟨rfl, rfl, rfl⟩⟩
  simp [moveToMintree, h.halves.top, he, hdel, hins]

variable [Doubles F]

/-- A new window counts nothing and lags behind nothing. -/
theorem core_make (percentile : Int) (mem : Mem D) :
    Core cmp (makeWindow percentile mem : Window F D).plugin mem [] [] 0 0 :=
  ⟨halves_make mem, rfl, rfl, rfl, rfl, Int.le_refl 0, Int.le_refl 0, by rw [Tally.total_nil]; decide⟩

/-- `reduce_mintree` returns. Unless its exit test holds at once it fills
`maxtree`. -/
theorem reduceMintree_spec (order : TotalOrder cmp) {fuel : Nat}
    (h : Core cmp this mem lo hi lag1 lag2) (hf : this.mnc.toInt < fuel) (hf0 : 0 < fuel) :
    ∃ this' mem' lo' hi', reduceMintree cmp fuel this mem = some (this', mem') ∧
      Moved cmp this lo hi lag1 lag2 this' mem' lo' hi' ∧
      ((mintreeReduced this = true ∧ lo' = lo) ∨ (mintreeReduced this = false ∧ lo' ≠ [])) := by
  induction fuel generalizing this mem lo hi with
  | zero => omega
  | succ fuel ih =>
    by_cases hred : mintreeReduced this = true
    · exact ⟨this, mem, lo, hi, by simp [reduceMintree, hred], Moved.refl h, Or.inl ⟨hred, rfl⟩⟩
    · have hn : 1 ≤ this.mnc.toInt := by
        by_contra hlt
        refine hred ?_
        rw [mintreeReduced, Bool.or_eq_true, decide_eq_true_eq, lt_one_iff]
        exact Or.inr (by omega)
      obtain ⟨e, this1, mem1, he, hmove, hcore, hx1, hn1, hs⟩ := moveToMaxtree_spec order h hn
      obtain ⟨this', mem', lo', hi', hrun, hmoved, hfill⟩ := ih hcore (by omega) (by omega)
      have hred' : mintreeReduced this = false := by simpa using hred
      refine ⟨this', mem', lo', hi', by simp [reduceMintree, hred', hmove, hrun],
        hmoved.up he hs (by omega), Or.inr ⟨hred', ?_⟩⟩
      rcases hfill with ⟨-, rfl⟩ | ⟨-, hne⟩
      · exact Tally.add_ne_nil _ _
      · exact hne

/-- The exit test of `reduce_maxtree` failed in the state before the last move. -/
def LastMove (this : Swpercentile F D) (mxc : Int) : Prop :=
  ∃ last : Swpercentile F D, maxtreeReduced last = false ∧ last.ratio = this.ratio ∧
    last.mxc.toInt + last.mnc.toInt = this.mxc.toInt + this.mnc.toInt ∧
    last.mnc.toInt < 2147483647 ∧ mxc = last.mxc.toInt - 1

theorem reduceMaxtree_spec (order : TotalOrder cmp) {fuel : Nat}
    (h : Core cmp this mem lo hi lag1 lag2) (hf : this.mxc.toInt < fuel) (hf0 : 0 < fuel) :
    ∃ this' mem' lo' hi', reduceMaxtree cmp fuel this mem = some (this', mem') ∧
      Moved cmp this lo hi lag1 lag2 this' mem' lo' hi' ∧ (lo' = lo ∨ LastMove this this'.mxc.toInt) := by
  induction fuel generalizing this mem lo hi with
  | zero => omega
  | succ fuel ih =>
    by_cases hred : maxtreeReduced this = true
    · exact ⟨this, mem, lo, hi, by simp [reduceMaxtree, hred], Moved.refl h, Or.inl rfl⟩
    · have hx : 1 ≤ this.mxc.toInt := by
        by_contra hlt
        refine hred ?_
        rw [maxtreeReduced, Bool.or_eq_true, decide_eq_true_eq, lt_one_iff]
        exact Or.inr (by omega)
      obtain ⟨e, this1, mem1, he, hmove, hcore, hx1, hn1, hs⟩ := moveToMintree_spec order h hx
      obtain ⟨this', mem', lo', hi', hrun, hmoved, hlast⟩ := ih hcore (by omega) (by omega)
      have hred' : maxtreeReduced this = false := by simpa using hred
      have hsum : this1.mxc.toInt + this1.mnc.toInt = this.mxc.toInt + this.mnc.toInt := by omega
      refine ⟨this', mem', lo', hi', by simp [reduceMaxtree, hred', hmove, hrun],
        hmoved.down he hs hsum, Or.inr ?_⟩
      rcases hlast with rfl | ⟨last, hl, hratio, hlsum, hlroom, hlx⟩
      · have hlo := hmoved.core.loLag
        have hlo1 := hcore.loLag
        have hword := toInt_bounds this1.mnc
        exact ⟨this, hred', rfl, rfl, by omega, by omega⟩
      · exact ⟨last, hl, hratio.trans hs.ratio, hlsum.trans hsum, hlroom, hlx⟩

end Devclego.Percentile
