import Devclego.Foundation.Rank
import Devclego.Percentile.Conservation
import Devclego.Percentile.Missing
import Mathlib.Tactic.Ring

/-!
# The candidates are order statistics

With exact quotients every test of the balancer compares a hundred times a counter with
`percentile` times the number of items. So the balancer stops with `maxtree` one of the
two whole numbers next to that share of the items, and the callback is given the top of
the lower part, the bottom of the upper part, or both.
-/
namespace Devclego.Percentile

open Foundation Devclego.Tree

variable {D : Type}

/-- The datum has the key of the `k`-th smallest item, counted from one. -/
def HasRank (cmp : D → D → Int) (sorted : List D) (k : Int) (datum : Option D) : Prop :=
  ∃ (i : Nat) (x y : D), (i : Int) + 1 = k ∧ datum = some x ∧ sorted[i]? = some y ∧ cmp x y = 0

/-- What the callback has to be given when the items are those of a sorted list. -/
def RightCandidates (cmp : D → D → Int) (percentile required : Int) (sorted : List D)
    (c : Swpercentilecandidates D) : Prop :=
  let share : Int := sorted.length * percentile
  if sorted.length < required then c = { processed := false, left := none, right := none }
  else
    c.processed = true ∧
      if share % 100 = 0 then
        HasRank cmp sorted (share / 100) c.left ∧ HasRank cmp sorted (share / 100 + 1) c.right
      else
        -- the rank is the ceiling of the quotient
        HasRank cmp sorted ((share + 99) / 100) c.left ∧ c.right = none ∨
          c.left = none ∧ HasRank cmp sorted ((share + 99) / 100) c.right

/-! ## The tests as comparisons of counters -/

variable {cmp : D → D → Int} {this this' : Swpercentile Exact D} {mem mem' : Mem D} {percentile : Int}

/-- The settings are those of a percentile in range. -/
structure SetFor (percentile : Int) (this : Swpercentile Exact D) : Prop where
  low : 10 ≤ percentile
  high : percentile ≤ 90
  same : SameSettings (swpercentileprivCtor percentile) this

theorem SetFor.congr (h : SetFor percentile this) (hs : SameSettings this this') : SetFor percentile this' :=
  ⟨h.low, h.high, h.same.trans hs⟩

theorem SetFor.settings (h : SetFor percentile this) : Settings this :=
  (settings_make percentile ⟨[]⟩).congr h.same

theorem SetFor.ratio_eq (h : SetFor percentile this) :
    this.ratio = .fin ((percentile : Rat) / (100 - percentile : Int)) := by
  have hlow := h.low
  have hhigh := h.high
  have hp : constrain 10 90 percentile = percentile := by
    unfold constrain
    dsimp only
    split <;> split <;> omega
  have hq : ((100 - percentile : Int) : Rat) ≠ 0 := by exact_mod_cast (by omega)
  rw [h.same.ratio]
  show Doubles.div (Doubles.ofInt (constrain 10 90 percentile)) (Doubles.ofInt (100 - constrain 10 90 percentile)) = _
  rw [hp]
  change Exact.div (.fin _) (.fin _) = _
  rw [Exact.div, if_neg hq]

/-- The ratio is below a quotient. -/
theorem SetFor.lt_div (h : SetFor percentile this) (a : Int) {b : Int} (hb : 0 < b) :
    Doubles.lt this.ratio (Doubles.div (Doubles.ofInt a) (Doubles.ofInt b)) = true ↔
      percentile * (a + b) < 100 * a := by
  have hq : (0 : Rat) < (100 - percentile : Int) := by exact_mod_cast (by have hhigh := h.high; omega)
  rw [h.ratio_eq, Exact.lt_div_iff _ a hb, div_mul_eq_mul_div, div_lt_iff₀ hq]
  constructor
  · intro hlt
    have hlt' : percentile * b < a * (100 - percentile) := by exact_mod_cast hlt
    linarith
  · intro hlt
    have hlt' : percentile * b < a * (100 - percentile) := by linarith
    exact_mod_cast hlt'

theorem SetFor.div_lt (h : SetFor percentile this) (a : Int) {b : Int} (hb : 0 < b) :
    Doubles.lt (Doubles.div (Doubles.ofInt a) (Doubles.ofInt b)) this.ratio = true ↔
      100 * a < percentile * (a + b) := by
  have hq : (0 : Rat) < (100 - percentile : Int) := by exact_mod_cast (by have hhigh := h.high; omega)
  rw [h.ratio_eq, Exact.div_lt_iff _ a hb, div_mul_eq_mul_div, lt_div_iff₀ hq]
  constructor
  · intro hlt
    have hlt' : a * (100 - percentile) < percentile * b := by exact_mod_cast hlt
    linarith
  · intro hlt
    have hlt' : a * (100 - percentile) < percentile * b := by linarith
    exact_mod_cast hlt'

/-- A positive counter over zero is infinite, and so above the ratio. -/
theorem SetFor.lt_infinity (h : SetFor percentile this) {a : Int} (ha : 0 < a) :
    Doubles.lt this.ratio (Doubles.div (Doubles.ofInt a) (Doubles.ofInt 0)) = true := by
  have har : (0 : Rat) < a := by exact_mod_cast ha
  rw [h.ratio_eq]
  change Exact.lt (.fin _) (Exact.div (.fin a) (.fin ((0 : Int) : Rat))) = true
  simp [Exact.div, har.ne', Exact.lt, har]

/-- The share of the items, and the bounds that both counters keep. -/
structure Counted (percentile : Int) (this : Swpercentile Exact D) : Prop where
  setFor : SetFor percentile this
  mxc_nonneg : 0 ≤ this.mxc.toInt
  mnc_nonneg : 0 ≤ this.mnc.toInt
  some_item : 0 < this.mxc.toInt + this.mnc.toInt
  room : this.mxc.toInt + this.mnc.toInt < 2147483648

theorem Counted.share_pos (h : Counted percentile this) : 0 < percentile * (this.mxc.toInt + this.mnc.toInt) :=
  Int.mul_pos (by have hlow := h.setFor.low; omega) h.some_item

/-- Less than all items are the share. -/
theorem Counted.share_lt (h : Counted percentile this) :
    percentile * (this.mxc.toInt + this.mnc.toInt) < 100 * (this.mxc.toInt + this.mnc.toInt) :=
  Int.mul_lt_mul_of_pos_right (by have hhigh := h.setFor.high; omega) h.some_item

/-- The sum that the code forms is the number of the items. -/
theorem Counted.count_eq (h : Counted percentile this) : count this = this.mxc.toInt + this.mnc.toInt := by
  have hsome := h.some_item
  exact toInt_add_of_fits (by omega) h.room

theorem Counted.mintreeReduced_iff (h : Counted percentile this) (hmnc : 1 ≤ this.mnc.toInt) :
    mintreeReduced this = true ↔
      percentile * (this.mxc.toInt + this.mnc.toInt) < 100 * (this.mxc.toInt + 1) := by
  have hsome : ¬ this.mnc < 1 := by
    rw [lt_one_iff]
    omega
  have hmxc := h.mxc_nonneg
  have hroom := h.room
  have hup : (this.mxc + 1).toInt = this.mxc.toInt + 1 := toInt_succ (by omega)
  have hdown : (this.mnc - 1).toInt = this.mnc.toInt - 1 := toInt_pred (by omega)
  rw [mintreeReduced, Bool.or_eq_true, decide_eq_true_eq, or_iff_left hsome, hup, hdown]
  by_cases hone : this.mnc.toInt = 1
  · have hshare := h.share_lt
    rw [hone] at hshare ⊢
    exact iff_of_true (h.setFor.lt_infinity (by omega)) hshare
  · have hsum : this.mxc.toInt + 1 + (this.mnc.toInt - 1) = this.mxc.toInt + this.mnc.toInt := by omega
    rw [h.setFor.lt_div (this.mxc.toInt + 1) (show 0 < this.mnc.toInt - 1 by omega), hsum]

theorem Counted.maxtreeReduced_iff (h : Counted percentile this) (hmxc : 1 ≤ this.mxc.toInt) :
    maxtreeReduced this = true ↔
      100 * (this.mxc.toInt - 1) < percentile * (this.mxc.toInt + this.mnc.toInt) := by
  have hsome : ¬ this.mxc < 1 := by
    rw [lt_one_iff]
    omega
  have hmnc := h.mnc_nonneg
  have hroom := h.room
  have hdown : (this.mxc - 1).toInt = this.mxc.toInt - 1 := toInt_pred (by omega)
  have hup : (this.mnc + 1).toInt = this.mnc.toInt + 1 := toInt_succ (by omega)
  have hsum : this.mxc.toInt - 1 + (this.mnc.toInt + 1) = this.mxc.toInt + this.mnc.toInt := by omega
  rw [maxtreeReduced, Bool.or_eq_true, decide_eq_true_eq, or_iff_left hsome, hdown, hup,
    h.setFor.div_lt (this.mxc.toInt - 1) (show 0 < this.mnc.toInt + 1 by omega), hsum]

theorem Counted.lowers_iff (h : Counted percentile this) :
    lowers this = true ↔ percentile * (this.mxc.toInt + this.mnc.toInt) < 100 * this.mxc.toInt := by
  have hmxc := h.mxc_nonneg
  have hmnc := h.mnc_nonneg
  have hsome := h.some_item
  by_cases hzero : this.mnc = 0
  · have hshare := h.share_lt
    have hbranch : lowers this = true := by simp [lowers, hzero]
    rw [hzero, Int32.toInt_zero, Int.add_zero] at hshare ⊢
    exact iff_of_true hbranch hshare
  · have hpos : this.mnc.toInt ≠ 0 := fun h0 => hzero (Int32.toInt.inj h0)
    by_cases hnone : this.mxc = 0
    · have hshare := h.share_pos
      have hbranch : lowers this ≠ true := by simp [lowers, hzero, hnone]
      refine iff_of_false hbranch fun hlt => ?_
      rw [hnone, Int32.toInt_zero] at hlt hshare
      omega
    · rw [← h.setFor.lt_div this.mxc.toInt (show 0 < this.mnc.toInt by omega)]
      simp [lowers, hzero, hnone]

/-! ## The loops -/

theorem moveToMaxtree_counts (hmove : moveToMaxtree cmp this mem = some (this', mem')) :
    this'.mxc = this.mxc + 1 ∧ this'.mnc = this.mnc - 1 ∧ SameSettings this this' := by
  simp only [moveToMaxtree, Option.bind_eq_bind, Option.bind_eq_some_iff] at hmove
  obtain ⟨_, -, _, -, _, -, _, -, he⟩ := hmove
  cases he
  exact ⟨rfl, rfl, rfl, rfl, rfl⟩

theorem moveToMintree_counts (hmove : moveToMintree cmp this mem = some (this', mem')) :
    this'.mxc = this.mxc - 1 ∧ this'.mnc = this.mnc + 1 ∧ SameSettings this this' := by
  simp only [moveToMintree, Option.bind_eq_bind, Option.bind_eq_some_iff] at hmove
  obtain ⟨_, -, _, -, _, -, _, -, he⟩ := hmove
  cases he
  exact ⟨rfl, rfl, rfl, rfl, rfl⟩

/-- A move upwards of counters that stay in their words. -/
theorem Counted.up (h : Counted percentile this) (hone : 1 ≤ this.mnc.toInt)
    (hmove : moveToMaxtree cmp this mem = some (this', mem')) :
    Counted percentile this' ∧ this'.mxc.toInt = this.mxc.toInt + 1 ∧
      this'.mxc.toInt + this'.mnc.toInt = this.mxc.toInt + this.mnc.toInt := by
  obtain ⟨hx, hn, hs⟩ := moveToMaxtree_counts hmove
  have hmxc := h.mxc_nonneg
  have hsome := h.some_item
  have hroom := h.room
  have hup : (this.mxc + 1).toInt = this.mxc.toInt + 1 := toInt_succ (by omega)
  have hdown : (this.mnc - 1).toInt = this.mnc.toInt - 1 := toInt_pred (by omega)
  rw [← hx] at hup
  rw [← hn] at hdown
  exact ⟨⟨h.setFor.congr hs, by omega, by omega, by omega, by omega⟩, hup, by omega⟩

theorem Counted.down (h : Counted percentile this) (hone : 1 ≤ this.mxc.toInt)
    (hmove : moveToMintree cmp this mem = some (this', mem')) :
    Counted percentile this' ∧ this'.mxc.toInt = this.mxc.toInt - 1 ∧
      this'.mxc.toInt + this'.mnc.toInt = this.mxc.toInt + this.mnc.toInt := by
  obtain ⟨hx, hn, hs⟩ := moveToMintree_counts hmove
  have hmnc := h.mnc_nonneg
  have hsome := h.some_item
  have hroom := h.room
  have hdown : (this.mxc - 1).toInt = this.mxc.toInt - 1 := toInt_pred (by omega)
  have hup : (this.mnc + 1).toInt = this.mnc.toInt + 1 := toInt_succ (by omega)
  rw [← hx] at hdown
  rw [← hn] at hup
  exact ⟨⟨h.setFor.congr hs, by omega, by omega, by omega, by omega⟩, hdown, by omega⟩

/-- `Mxc` is the share rounded down or up. -/
def Near (percentile : Int) (this : Swpercentile Exact D) : Prop :=
  100 * (this.mxc.toInt - 1) < percentile * (this.mxc.toInt + this.mnc.toInt) ∧
    percentile * (this.mxc.toInt + this.mnc.toInt) < 100 * (this.mxc.toInt + 1)

/-- From at most the share `reduce_mintree` goes up to it. -/
theorem reduceMintree_near {fuel : Nat} (h : Counted percentile this)
    (hle : 100 * this.mxc.toInt ≤ percentile * (this.mxc.toInt + this.mnc.toInt))
    (hrun : reduceMintree cmp fuel this mem = some (this', mem')) : Counted percentile this' ∧ Near percentile this' := by
  induction fuel generalizing this mem with
  | zero => cases hrun
  | succ fuel ih =>
    have hshare := h.share_lt
    have hmxc := h.mxc_nonneg
    have hmnc := h.mnc_nonneg
    have hone : 1 ≤ this.mnc.toInt := by omega
    by_cases hred : mintreeReduced this = true
    · simp only [reduceMintree, hred, if_true, Option.some.injEq, Prod.mk.injEq] at hrun
      obtain ⟨rfl, -⟩ := hrun
      exact ⟨h, by omega, (h.mintreeReduced_iff hone).mp hred⟩
    · rw [reduceMintree, if_neg hred] at hrun
      obtain ⟨⟨this1, mem1⟩, hmove, hrest⟩ := Option.bind_eq_some_iff.mp hrun
      obtain ⟨hcounted, hx, hsum⟩ := h.up hone hmove
      have hmore := mt (h.mintreeReduced_iff hone).mpr hred
      refine ih hcounted ?_ hrest
      rw [hsum, hx]
      omega

/-- From at least the share `reduce_maxtree` goes down to it. -/
theorem reduceMaxtree_near {fuel : Nat} (h : Counted percentile this)
    (hge : percentile * (this.mxc.toInt + this.mnc.toInt) ≤ 100 * this.mxc.toInt)
    (hrun : reduceMaxtree cmp fuel this mem = some (this', mem')) : Counted percentile this' ∧ Near percentile this' := by
  induction fuel generalizing this mem with
  | zero => cases hrun
  | succ fuel ih =>
    have hshare := h.share_pos
    have hmnc := h.mnc_nonneg
    have hone : 1 ≤ this.mxc.toInt := by omega
    by_cases hred : maxtreeReduced this = true
    · simp only [reduceMaxtree, hred, if_true, Option.some.injEq, Prod.mk.injEq] at hrun
      obtain ⟨rfl, -⟩ := hrun
      exact ⟨h, (h.maxtreeReduced_iff hone).mp hred, by omega⟩
    · rw [reduceMaxtree, if_neg hred] at hrun
      obtain ⟨⟨this1, mem1⟩, hmove, hrest⟩ := Option.bind_eq_some_iff.mp hrun
      obtain ⟨hcounted, hx, hsum⟩ := h.down hone hmove
      have hmore := mt (h.maxtreeReduced_iff hone).mpr hred
      refine ih hcounted ?_ hrest
      rw [hsum, hx]
      omega

theorem swpercentileBalancer_near (h : Counted percentile this) (hfull : this.required ≤ count this)
    (hrun : swpercentileBalancer cmp this mem = some (this', mem')) :
    Counted percentile this' ∧ Near percentile this' := by
  rw [swpercentileBalancer_eq, if_neg (Int.not_lt.mpr hfull)] at hrun
  by_cases hlowers : lowers this = true
  · rw [if_pos hlowers] at hrun
    exact reduceMaxtree_near h (Int.le_of_lt (h.lowers_iff.mp hlowers)) hrun
  · rw [if_neg hlowers] at hrun
    exact reduceMintree_near h (Int.not_lt.mp (mt h.lowers_iff.mpr hlowers)) hrun

/-! ## The callback -/

variable {lo hi : List (Entry D)} {sorted : List D}

/-- The top of the lower part has the rank that `Mxc` counts. -/
theorem Core.top_rank (order : TotalOrder cmp) (h : Core cmp this mem lo hi 0 0) (hcut : CutOf cmp lo hi sorted)
    (hmxc : 1 ≤ this.mxc.toInt) : HasRank cmp sorted this.mxc.toInt (lo.getLast?.map Entry.data) := by
  obtain ⟨e, he⟩ := last_of_pos h.loLag h.loLag_nonneg hmxc
  obtain ⟨i, y, hi, hy, hey⟩ := hcut.last order he
  have hlag := h.loLag
  exact ⟨i, e.data, y, by omega, by rw [he]; rfl, hy, hey⟩

/-- The bottom of the upper part has the next one. -/
theorem Core.bottom_rank (order : TotalOrder cmp) (h : Core cmp this mem lo hi 0 0) (hcut : CutOf cmp lo hi sorted)
    (hmnc : 1 ≤ this.mnc.toInt) : HasRank cmp sorted (this.mxc.toInt + 1) (hi.head?.map Entry.data) := by
  obtain ⟨e, he⟩ := head_of_pos h.hiLag h.hiLag_nonneg hmnc
  obtain ⟨i, y, hi, hy, hey⟩ := hcut.head order he
  have hlag := h.loLag
  exact ⟨i, e.data, y, by omega, by rw [he]; rfl, hy, hey⟩

/-- The ratio of the counters is above the wanted one. -/
theorem Counted.above_iff (h : Counted percentile this) :
    Doubles.lt this.ratio (Doubles.div (Doubles.ofInt this.mxc.toInt) (Doubles.ofInt this.mnc.toInt)) = true ↔
      percentile * (this.mxc.toInt + this.mnc.toInt) < 100 * this.mxc.toInt := by
  have hmnc := h.mnc_nonneg
  by_cases hzero : this.mnc.toInt = 0
  · have hsome := h.some_item
    have hshare := h.share_lt
    rw [hzero, Int.add_zero] at hshare hsome ⊢
    exact iff_of_true (h.setFor.lt_infinity hsome) hshare
  · exact h.setFor.lt_div this.mxc.toInt (show 0 < this.mnc.toInt by omega)

theorem Counted.below_iff (h : Counted percentile this) :
    Doubles.lt (Doubles.div (Doubles.ofInt this.mxc.toInt) (Doubles.ofInt this.mnc.toInt)) this.ratio = true ↔
      100 * this.mxc.toInt < percentile * (this.mxc.toInt + this.mnc.toInt) := by
  have hmnc := h.mnc_nonneg
  by_cases hzero : this.mnc.toInt = 0
  · have hsome := h.some_item
    have hshare := h.share_lt
    rw [hzero, Int.add_zero] at hshare hsome ⊢
    have hmxc : (0 : Rat) < this.mxc.toInt := by exact_mod_cast hsome
    refine iff_of_false ?_ (by omega)
    rw [h.setFor.ratio_eq]
    change ¬ Exact.lt (Exact.div (.fin this.mxc.toInt) (.fin ((0 : Int) : Rat))) (.fin _) = true
    simp [Exact.div, hmxc.ne', Exact.lt, hmxc]
  · exact h.setFor.div_lt this.mxc.toInt (show 0 < this.mnc.toInt by omega)

theorem swpercentilePipe_right (order : TotalOrder cmp) (h : Counted percentile this)
    (hcore : Core cmp this mem lo hi 0 0) (hcut : CutOf cmp lo hi sorted)
    (hlen : (sorted.length : Int) = this.mxc.toInt + this.mnc.toInt)
    (hnear : this.required ≤ count this → Near percentile this)
    (hrun : swpercentilePipe this mem = some this') :
    RightCandidates cmp percentile this.required sorted this'.candidates := by
  have hshare : (sorted.length : Int) * percentile = percentile * (this.mxc.toInt + this.mnc.toInt) := by
    rw [hlen, Int.mul_comm]
  unfold RightCandidates
  rw [hshare, hlen]
  unfold swpercentilePipe at hrun
  have hcount := h.count_eq
  have hsum : (this.mnc + this.mxc).toInt = count this := by rw [count, Int32.add_comm]
  rw [hsum] at hrun
  by_cases hshort : this.mxc.toInt + this.mnc.toInt < this.required
  · rw [if_pos (by omega), Option.some.injEq] at hrun
    subst hrun
    rw [if_pos hshort]
  · obtain ⟨hdown, hup⟩ := hnear (by omega)
    have hpos := h.share_pos
    have hlt := h.share_lt
    rw [if_neg (by omega)] at hrun
    rw [if_neg hshort]
    simp only [hcore.halves.top, hcore.halves.swap.bottom, Option.bind_eq_bind, Option.bind_some] at hrun
    by_cases habove : percentile * (this.mxc.toInt + this.mnc.toInt) < 100 * this.mxc.toInt
    · rw [if_pos (h.above_iff.mpr habove), Option.some.injEq] at hrun
      subst hrun
      have hrank : (percentile * (this.mxc.toInt + this.mnc.toInt) + 99) / 100 = this.mxc.toInt := by omega
      rw [if_neg (by omega), hrank]
      exact ⟨rfl, Or.inl ⟨hcore.top_rank order hcut (by omega), rfl⟩⟩
    · rw [if_neg (mt h.above_iff.mp habove)] at hrun
      by_cases hbelow : 100 * this.mxc.toInt < percentile * (this.mxc.toInt + this.mnc.toInt)
      · rw [if_pos (h.below_iff.mpr hbelow), Option.some.injEq] at hrun
        subst hrun
        have hrank : (percentile * (this.mxc.toInt + this.mnc.toInt) + 99) / 100 = this.mxc.toInt + 1 := by omega
        rw [if_neg (by omega), hrank]
        exact ⟨rfl, Or.inr ⟨rfl, hcore.bottom_rank order hcut (by omega)⟩⟩
      · rw [if_neg (mt h.below_iff.mp hbelow), Option.some.injEq] at hrun
        subst hrun
        have hrank : percentile * (this.mxc.toInt + this.mnc.toInt) / 100 = this.mxc.toInt := by omega
        rw [if_pos (by omega), hrank]
        exact ⟨rfl, hcore.top_rank order hcut (by omega), hcore.bottom_rank order hcut (by omega)⟩

/-! ## Runs of insertions -/

/-- The parts hold the live items, in order, with nothing counted wrong. -/
structure Ranked (cmp : D → D → Int) (percentile : Int) (w : Window Exact D) (lo hi : List (Entry D)) : Prop where
  core : Core cmp w.plugin w.mem lo hi 0 0
  setFor : SetFor percentile w.plugin
  ordered : Ordered cmp lo hi
  warm : count w.plugin < w.plugin.required → hi = []
  filled : w.plugin.required ≤ count w.plugin → lo ≠ []
  mult : ∀ k, Tally.mult cmp lo k + Tally.mult cmp hi k = liveCount cmp w.live k
  size : w.plugin.mxc.toInt + w.plugin.mnc.toInt = w.live.length

theorem ranked_make (hlow : 10 ≤ percentile) (hhigh : percentile ≤ 90) (mem : Mem D) :
    Ranked cmp percentile (makeWindow percentile mem) [] [] where
  core := core_make percentile mem
  setFor := ⟨hlow, hhigh, SameSettings.refl _⟩
  ordered := by simp [Ordered]
  warm := fun _ => rfl
  filled := by
    intro hfull
    have hreq := (settings_make percentile mem).2
    change _ ≤ (0 : Int) at hfull
    omega
  mult := fun _ => rfl
  size := rfl

theorem Core.counted (h : Core cmp this mem lo hi 0 0) (hset : SetFor percentile this)
    (hsome : 0 < this.mxc.toInt + this.mnc.toInt) : Counted percentile this := by
  have hlo := h.loLag
  have hhi := h.hiLag
  obtain ⟨hlo0, hhi0⟩ := h.totals_nonneg
  have hroom := h.room
  exact ⟨hset, by omega, by omega, hsome, by omega⟩

/-- What the code adds up is what is live. -/
theorem Ranked.count_eq {w : Window Exact D} (h : Ranked cmp percentile w lo hi) :
    count w.plugin = w.live.length := by
  have hcases := h.core.count_cases
  have hsize := h.size
  omega

/-- An insertion for which the counters have room returns, keeps the parts and gives the
callback what it has to be given. -/
theorem Ranked.add (order : TotalOrder cmp) {w : Window Exact D} (h : Ranked cmp percentile w lo hi) (item : D)
    (hroom : w.live.length + 1 < 2147483648) :
    ∃ w' c lo' hi', windowStep cmp w (.add item) = some (w', c) ∧ Ranked cmp percentile w' lo' hi' ∧
      w'.live = w.live ++ [item] ∧
      ∀ sorted, sorted.Perm (w.live ++ [item]) → SortedBy cmp sorted →
        RightCandidates cmp percentile w.plugin.required sorted c := by
  have hsize := h.size
  have htotals := h.core.totals
  rcases placeItem_spec order h.core item (by omega) with ⟨hfull, hnil, -⟩ |
    ⟨this1, mem1, lo1, hi1, hplace, hadd⟩
  · exact absurd hnil (h.filled hfull)
  obtain ⟨this2, mem2, lo2, hi2, hbalance, hmoved, hbal⟩ := swpercentileBalancer_spec order hadd.core
  obtain ⟨c, hpipe⟩ := swpercentilePipe_spec hmoved.core
  have hsize1 := hadd.sum
  have hsum2 := hmoved.sum
  have hset1 := h.setFor.congr hadd.settings
  have hset2 := hset1.congr hmoved.settings
  have hreq : this2.required = w.plugin.required :=
    hmoved.settings.required.trans hadd.settings.required
  have hcounted1 := hadd.core.counted hset1 (by omega)
  have hcounted2 := hmoved.core.counted hset2 (by omega)
  have hcount := h.count_eq
  have hcount1 := hcounted1.count_eq
  have hcount2 := hmoved.count
  have hord1 := hadd.put.ordered order h.core.halves.wf.1 h.ordered h.warm
  have hord2 := hmoved.shifts.ordered order hadd.core.halves.wf.1 hadd.core.halves.wf.2 hord1
  have hmult : ∀ k, Tally.mult cmp lo2 k + Tally.mult cmp hi2 k = liveCount cmp (w.live ++ [item]) k := by
    intro k
    rw [hmoved.shifts.mult order hadd.core.halves.wf.1 hadd.core.halves.wf.2 k,
      hadd.put.mult order h.core.halves.wf.1 h.core.halves.wf.2 k, h.mult k, liveCount_append]
  refine ⟨⟨{ this2 with candidates := c }, mem2, w.live ++ [item]⟩, c, lo2, hi2, ?_, ?_, rfl, ?_⟩
  · simp [windowStep, swpercentileAddPipe, hplace, hbalance, hpipe]
  · refine ⟨hmoved.core.candidates c, hset2.congr ⟨rfl, rfl, rfl⟩, hord2, fun hshort => ?_, fun hfull => ?_,
      hmult, ?_⟩
    · change count this2 < this2.required at hshort
      have hreq1 := hadd.settings.required
      cases hbal with
      | short _ _ hhi =>
        rw [hhi]
        cases hadd.put with
        | warmUp hw => exact h.warm hw
        | lower => omega
        | upper => omega
      | lowered hf => omega
      | raised hf => omega
    · change this2.required ≤ count this2 at hfull
      intro hnil
      have hempty := (balanced_nil_iff hset1.settings hadd.core hmoved.core (by omega)
        (by rw [← hmoved.settings.required, ← hcount2]; exact hfull) hbal).mp hnil
      exact hadd.put.ne_nil hempty.1
    · change this2.mxc.toInt + this2.mnc.toInt = _
      rw [hsum2, hsize1, hsize, List.length_append]
      rfl
  · intro sorted hperm hsorted
    have hcut : CutOf cmp lo2 hi2 sorted := by
      refine ⟨hmoved.core.halves.wf.1, hmoved.core.halves.wf.2, hord2, hsorted, fun k => ?_⟩
      rw [hmult k, liveCount, occurrences, hperm.countP_eq]
    have hlen : (sorted.length : Int) = this2.mxc.toInt + this2.mnc.toInt := by
      rw [hperm.length_eq, List.length_append, hsum2, hsize1, hsize]
      rfl
    have hright := swpercentilePipe_right order hcounted2 hmoved.core hcut hlen
      (fun hfull => (swpercentileBalancer_near hcounted1
        (by rw [← hmoved.settings.required, ← hcount2]; exact hfull) hbalance).2) hpipe
    rwa [hreq] at hright

/-- What a run of insertions ends with, and what every call of it gave the callback. -/
structure Ranks (cmp : D → D → Int) (percentile : Int) (items : List D) (w : Window Exact D)
    (cs : List (Swpercentilecandidates D)) : Prop where
  ranked : ∃ lo hi, Ranked cmp percentile w lo hi
  live : w.live = items
  calls : cs.length = items.length
  right : ∀ n c sorted, cs[n]? = some c → sorted.Perm (items.take (n + 1)) → SortedBy cmp sorted →
    RightCandidates cmp percentile (swpercentileprivCtor percentile : Swpercentile Exact D).required sorted c

theorem ranks_run (order : TotalOrder cmp) (hlow : 10 ≤ percentile) (hhigh : percentile ≤ 90) (mem : Mem D)
    (items : List D) (hroom : items.length < 2147483648) :
    ∃ w cs, run (windowStep cmp) (makeWindow percentile mem : Window Exact D) (items.map Event.add) =
      some (w, cs) ∧ Ranks cmp percentile items w cs := by
  induction items using List.reverseRecOn with
  | nil =>
    refine ⟨makeWindow percentile mem, [], rfl, ⟨[], [], ranked_make hlow hhigh mem⟩, rfl, rfl, ?_⟩
    intro n c sorted hc
    cases hc
  | append_singleton items item ih =>
    rw [List.length_append, List.length_singleton] at hroom
    obtain ⟨w, cs, hrun, h⟩ := ih (by omega)
    obtain ⟨lo, hi, hranked⟩ := h.ranked
    obtain ⟨w', c', lo', hi', hstep, hranked', hlive, hright⟩ :=
      hranked.add order item (by rw [h.live]; exact hroom)
    refine ⟨w', cs ++ [c'], ?_, ⟨lo', hi', hranked'⟩, by rw [hlive, h.live], ?_, ?_⟩
    · rw [List.map_append]
      exact run_concat hrun hstep
    · rw [List.length_append, List.length_append, h.calls]
      rfl
    · intro n c sorted hc hperm hsorted
      by_cases hn : n < cs.length
      · rw [List.getElem?_append_left hn] at hc
        rw [List.take_append_of_le_length (by rw [← h.calls]; exact hn)] at hperm
        exact h.right n c sorted hc hperm hsorted
      · have hlen : n < (cs ++ [c']).length := (List.getElem?_eq_some_iff.mp hc).1
        have hlast : n = cs.length := by
          rw [List.length_append, List.length_singleton] at hlen
          omega
        rw [hlast, List.getElem?_concat_length, Option.some.injEq] at hc
        have hall : (items ++ [item]).take (n + 1) = items ++ [item] := by
          apply List.take_of_length_le
          rw [List.length_append, List.length_singleton, hlast, h.calls]
        rw [hall, ← h.live] at hperm
        rw [← hc, ← hranked.setFor.same.required]
        exact hright sorted hperm hsorted

/-! ## The insertion that overflows -/

/-- An insertion that returns counts one, in the word. -/
theorem placeItem_count {item : D} (hplace : placeItem cmp this mem item = some (this', mem')) :
    this'.mxc + this'.mnc = this.mxc + this.mnc + 1 ∧ SameSettings this this' := by
  have hmax : ∀ r, addMaxtree cmp this mem item = some r →
      r.1.mxc + r.1.mnc = this.mxc + this.mnc + 1 ∧ SameSettings this r.1 := by
    intro r hr
    obtain ⟨_, -, he⟩ := Option.bind_eq_some_iff.mp hr
    cases he
    exact ⟨by grind, rfl, rfl, rfl⟩
  have hmin : ∀ r, addMintree cmp this mem item = some r →
      r.1.mxc + r.1.mnc = this.mxc + this.mnc + 1 ∧ SameSettings this r.1 := by
    intro r hr
    obtain ⟨_, -, he⟩ := Option.bind_eq_some_iff.mp hr
    cases he
    exact ⟨by grind, rfl, rfl, rfl⟩
  rw [placeItem_eq] at hplace
  split at hplace
  · exact hmax _ hplace
  · obtain ⟨_, -, hrest⟩ := Option.bind_eq_some_iff.mp hplace
    obtain ⟨top, -, hput⟩ := Option.bind_eq_some_iff.mp hrest
    split at hput
    · exact hmax _ hput
    · exact hmin _ hput

/-- With the sum at the greatest word one more insertion makes it negative, and the
callback is told that nothing was processed. -/
theorem swpercentileAddPipe_overflow {item : D} (hcount : count this = 2147483647) (hreq : 0 ≤ this.required)
    (hrun : swpercentileAddPipe cmp this mem item = some (this', mem')) : this'.candidates.processed = false := by
  obtain ⟨⟨this1, mem1⟩, hplace, hrest⟩ := Option.bind_eq_some_iff.mp hrun
  obtain ⟨hsum, hs⟩ := placeItem_count hplace
  have hmax : this.mxc + this.mnc = 2147483647 := Int32.toInt.inj hcount
  have hwrapped : count this1 = -2147483648 := by
    rw [count, hsum, hmax]
    rfl
  have hshort : count this1 < this1.required := by
    rw [hwrapped, hs.required]
    omega
  obtain ⟨⟨this2, mem2⟩, hbalance, hend⟩ := Option.bind_eq_some_iff.mp hrest
  simp only [swpercentileBalancer_eq, if_pos hshort, Option.some.injEq, Prod.mk.injEq] at hbalance
  obtain ⟨rfl, rfl⟩ := hbalance
  obtain ⟨this3, hpipe, he⟩ := Option.bind_eq_some_iff.mp hend
  have hsum' : (this1.mnc + this1.mxc).toInt = count this1 := by rw [count, Int32.add_comm]
  simp only [swpercentilePipe, hsum', if_pos hshort, Option.some.injEq] at hpipe
  cases he
  rw [← hpipe]

/-- Every insertion returns and gives the callback the order statistics of the items so
far. -/
def CandidatesRight (cmp : D → D → Int) (percentile : Int) (mem : Mem D) (items : List D) : Prop :=
  ∃ w cs, run (windowStep cmp) (makeWindow percentile mem : Window Exact D) (items.map Event.add) =
      some (w, cs) ∧
    cs.length = items.length ∧
    ∀ n c sorted, cs[n]? = some c → sorted.Perm (items.take (n + 1)) → SortedBy cmp sorted →
      RightCandidates cmp percentile (swpercentileprivCtor percentile : Swpercentile Exact D).required sorted c

theorem trunc_le {q : Rat} {n : Int} (h0 : 0 ≤ q) (h : q < n + 1) : Doubles.trunc (Exact.fin q) ≤ n := by
  change Exact.trunc (.fin q) ≤ n
  rw [Exact.trunc, if_pos h0]
  by_contra hlt
  have hle : ((n + 1 : Int) : Rat) ≤ q := Rat.le_floor_iff.mp (by omega)
  push_cast at hle
  linarith

/-- Never more than ten items are required. -/
theorem SetFor.required_le (h : SetFor percentile this) : this.required ≤ 10 := by
  have hlow : (10 : Rat) ≤ percentile := by exact_mod_cast h.low
  have hhigh : (percentile : Rat) ≤ 90 := by exact_mod_cast h.high
  have hreq : this.required = requiredItems (this.ratio : Exact) := by
    rw [h.same.required, h.same.ratio]
    rfl
  have hq : (0 : Rat) < 100 - percentile := by linarith
  rw [hreq, h.ratio_eq]
  push_cast
  have hone : (Doubles.ofInt 1 : Exact) = .fin 1 := congrArg Exact.fin Int.cast_one
  have hr : (0 : Rat) < percentile / (100 - percentile) := div_pos (by linarith) hq
  unfold requiredItems
  rw [hone]
  dsimp only
  split
  · change Doubles.trunc (Exact.add (Exact.div (.fin 1) (.fin _)) (.fin 1)) ≤ 10
    rw [Exact.div, if_neg hr.ne']
    refine trunc_le (by positivity) ?_
    rw [one_div_div, add_lt_add_iff_right, div_lt_iff₀ (by linarith)]
    push_cast
    linarith
  · split
    · refine trunc_le (by positivity) ?_
      rw [add_lt_add_iff_right, div_lt_iff₀ hq]
      push_cast
      linarith
    · decide

/-- With too many items for the counters the call that overflows them is told that
nothing was processed. -/
theorem not_candidatesRight (order : TotalOrder cmp) (hlow : 10 ≤ percentile) (hhigh : percentile ≤ 90)
    (mem : Mem D) (items : List D) (hlong : 2147483648 ≤ items.length) :
    ¬ CandidatesRight cmp percentile mem items := by
  intro hall
  obtain ⟨w, cs, hrun, -, hright⟩ := hall
  have hfirst : (items.take 2147483647).length = 2147483647 := by
    rw [List.length_take]
    omega
  obtain ⟨item, rest, hrest⟩ : ∃ item rest, items.drop 2147483647 = item :: rest := by
    apply List.exists_cons_of_length_pos
    rw [List.length_drop]
    omega
  rw [← List.take_append_drop 2147483647 items, hrest, List.map_append, List.map_cons] at hrun
  obtain ⟨t, os, t', qs, hbefore, hafter, he⟩ := run_append.mp hrun
  obtain ⟨w0, cs0, hrun0, hranks⟩ := ranks_run order hlow hhigh mem (items.take 2147483647) (by omega)
  cases hbefore.symm.trans hrun0
  obtain ⟨t1, c, _, later, hstep, -, hqs⟩ := run_cons.mp hafter
  cases he
  cases hqs
  obtain ⟨lo, hi, hranked⟩ := hranks.ranked
  have hcount := hranked.count_eq
  rw [hranks.live, hfirst] at hcount
  obtain ⟨⟨this', mem'⟩, hadd, hparts⟩ := Option.map_eq_some_iff.mp hstep
  obtain ⟨-, rfl⟩ := Prod.mk.inj hparts
  have hreq := hranked.setFor.settings.2
  have hunprocessed := swpercentileAddPipe_overflow hcount (by omega) hadd
  -- the same call has to give what is right for two to the thirty-first items
  obtain ⟨sorted, hperm, hsorted⟩ := exists_sorted order (items.take 2147483648)
  have hplace : (os ++ this'.candidates :: later)[2147483647]? = some this'.candidates := by
    rw [List.getElem?_append_right (by rw [hranks.calls, hfirst]), hranks.calls, hfirst]
    rfl
  have hcandidates := hright 2147483647 _ sorted hplace hperm hsorted
  have hlen : (sorted.length : Int) = 2147483648 := by
    rw [hperm.length_eq, List.length_take]
    omega
  have hsmall := (ranked_make hlow hhigh mem : Ranked cmp percentile _ [] []).setFor.required_le
  change (swpercentileprivCtor percentile : Swpercentile Exact D).required ≤ 10 at hsmall
  rw [RightCandidates, if_neg (by omega)] at hcandidates
  rw [hcandidates.1] at hunprocessed
  cases hunprocessed

/-- Whatever is inserted, every call gives the callback the order statistics of the items
so far, exactly when the items fit in the counters. -/
theorem candidates_are_order_statistics (order : TotalOrder cmp) (percentile : Int) (hlow : 10 ≤ percentile)
    (hhigh : percentile ≤ 90) (mem : Mem D) (items : List D) :
    CandidatesRight cmp percentile mem items ↔ items.length < 2147483648 := by
  constructor
  · intro hright
    by_contra hlong
    exact not_candidatesRight order hlow hhigh mem items (by omega) hright
  · intro hroom
    obtain ⟨w, cs, hrun, h⟩ := ranks_run order hlow hhigh mem items hroom
    exact ⟨w, cs, hrun, h.calls, h.right⟩

theorem candidates_are_order_statistics_run :
    CandidatesRight bintreecmpInt32 15 ⟨[]⟩ [5, 1, 4, 4, 9, 2, 7, 3] :=
  (candidates_are_order_statistics bintreecmpInt32_order 15 (by decide) (by decide) ⟨[]⟩
    [5, 1, 4, 4, 9, 2, 7, 3]).mpr (by decide)

/-- Two nodes are enough to overflow the counters: the same item again and again. -/
theorem insertion_overflows : ¬ CandidatesRight bintreecmpInt32 50 ⟨[]⟩ (List.replicate 2147483648 5) :=
  not_candidatesRight bintreecmpInt32_order (by decide) (by decide) ⟨[]⟩ _
    (by rw [List.length_replicate])

end Devclego.Percentile
