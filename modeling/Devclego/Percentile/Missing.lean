import Mathlib.Data.Rat.Floor
import Mathlib.Tactic.Positivity
import Devclego.Percentile.Calls
import Devclego.Percentile.SplitOrder

/-!
# No call uses a missing element

With exact quotients a call fails only if an insertion compares with an empty
`maxtree`. The balancer never empties that tree. A removal can, if it takes the last
element of `maxtree` and the exit test of `reduce_mintree` refuses to move one back:
one element below would already exceed the ratio. In all other cases every call whose
counters stay in their words returns.
-/
namespace Devclego.Percentile

open Foundation Devclego.Tree

variable {F D : Type}

/-- Every call that the window admits and whose counters fit returns. -/
def CallsReturn [Doubles F] (cmp : D → D → Int) (w : Window F D) : Prop :=
  (∀ item, CountersFit cmp w (.add item) → (windowStep cmp w (.add item)).isSome) ∧
    (w.live ≠ [] → CountersFit cmp w .rem → (windowStep cmp w .rem).isSome)

/-- The item is all that `maxtree` holds, and the balancer will not refill it. -/
def EmptiesMaxtree [Doubles F] (cmp : D → D → Int) (w : Window F D) (item : D) : Prop :=
  bintreeGetNodenum w.plugin.maxtree = 1 ∧ bintreeGetRefnum w.plugin.maxtree = 1 ∧
    storedRef cmp w.plugin.maxtree w.mem item = some 1 ∧
    w.plugin.required ≤ refsAfter cmp w.plugin.mintree w.mem item ∧
    Doubles.lt w.plugin.ratio (Doubles.div (Doubles.ofInt 1)
      (Doubles.ofInt (refsAfter cmp w.plugin.mintree w.mem item - 1)) : F) = true

def KeepsMaxtree [Doubles F] (cmp : D → D → Int) (w : Window F D) : Event D → Prop
  | .add _ => True
  | .rem => ∀ item ∈ w.live.head?, ¬ EmptiesMaxtree cmp w item

instance [Doubles F] (cmp : D → D → Int) (w : Window F D) (item : D) :
    Decidable (EmptiesMaxtree cmp w item) :=
  inferInstanceAs (Decidable (_ ∧ _ ∧ _ ∧ _ ∧ _))

instance [Doubles F] (cmp : D → D → Int) (w : Window F D) (e : Event D) :
    Decidable (KeepsMaxtree cmp w e) :=
  match e with
  | .add _ => isTrue trivial
  | .rem => inferInstanceAs (Decidable (∀ item ∈ w.live.head?, ¬ EmptiesMaxtree cmp w item))

/-! ## The settings -/

/-- A positive finite ratio, and at least two required items. -/
def Settings (this : Swpercentile Exact D) : Prop :=
  (∃ r, 0 < r ∧ this.ratio = .fin r) ∧ 2 ≤ this.required

theorem constrain_bounds (percentile : Int) :
    10 ≤ constrain 10 90 percentile ∧ constrain 10 90 percentile ≤ 90 := by
  unfold constrain
  dsimp only
  split <;> split <;> omega

theorem two_le_trunc {q : Rat} (h : 2 ≤ q) : 2 ≤ Doubles.trunc (Exact.fin q) := by
  have h0 : (0 : Rat) ≤ q := le_trans (by norm_num) h
  change 2 ≤ Exact.trunc (.fin q)
  rw [Exact.trunc, if_pos h0]
  exact Rat.le_floor_iff.mpr (by exact_mod_cast h)

theorem two_le_requiredItems {r : Rat} (hr : 0 < r) : 2 ≤ requiredItems (Exact.fin r) := by
  have hone : (Doubles.ofInt 1 : Exact) = .fin 1 := congrArg Exact.fin Int.cast_one
  unfold requiredItems
  rw [hone]
  by_cases hlt : r < 1
  · have hlt' : Doubles.lt (Exact.fin r) (.fin 1) = true := decide_eq_true hlt
    have hdiv : Doubles.div (Exact.fin 1) (.fin r) = .fin (1 / r) := by
      change Exact.div _ _ = _
      rw [Exact.div, if_neg hr.ne']
    simp only [hlt', ↓reduceIte, hdiv]
    have hinv : 1 < 1 / r := one_lt_one_div hr hlt
    exact two_le_trunc (show (2 : Rat) ≤ 1 / r + 1 by linarith)
  · have hlt' : Doubles.lt (Exact.fin r) (.fin 1) = false := decide_eq_false hlt
    simp only [hlt', Bool.false_eq_true, ↓reduceIte]
    by_cases hgt : 1 < r
    · have hgt' : Doubles.lt (Exact.fin 1) (.fin r) = true := decide_eq_true hgt
      simp only [hgt', ↓reduceIte]
      exact two_le_trunc (show (2 : Rat) ≤ r + 1 by linarith)
    · have hgt' : Doubles.lt (Exact.fin 1) (.fin r) = false := decide_eq_false hgt
      simp only [hgt', Bool.false_eq_true, ↓reduceIte, le_refl]

theorem settings_make (percentile : Int) (mem : Mem D) :
    Settings (makeWindow percentile mem : Window Exact D).plugin := by
  obtain ⟨hlow, hhigh⟩ := constrain_bounds percentile
  have hp : (0 : Rat) < (constrain 10 90 percentile : Int) := by exact_mod_cast (by omega)
  have hq : (0 : Rat) < (100 - constrain 10 90 percentile : Int) := by exact_mod_cast (by omega)
  have hratio : (makeWindow percentile mem : Window Exact D).plugin.ratio =
      .fin ((constrain 10 90 percentile : Int) / (100 - constrain 10 90 percentile : Int)) := by
    change Exact.div (.fin _) (.fin _) = _
    rw [Exact.div, if_neg hq.ne']
  refine ⟨⟨_, div_pos hp hq, hratio⟩, ?_⟩
  change 2 ≤ requiredItems (makeWindow percentile mem : Window Exact D).plugin.ratio
  rw [hratio]
  exact two_le_requiredItems (div_pos hp hq)

theorem Settings.congr {this this' : Swpercentile Exact D} (h : Settings this)
    (hs : SameSettings this this') : Settings this' := by
  obtain ⟨⟨r, hr, hratio⟩, hreq⟩ := h
  exact ⟨⟨r, hr, hs.ratio.trans hratio⟩, hs.required ▸ hreq⟩

/-! ## The balancer and an empty `maxtree` -/

variable {cmp : D → D → Int} {this : Swpercentile Exact D} {mem : Mem D} {lo hi lo' hi' : List (Entry D)}
  {mxc lag1 lag2 : Int}

/-- The last move of `reduce_maxtree` leaves an element: with one left the quotient
after the move would be zero. -/
theorem LastMove.pos (hset : Settings this) (hsum : 2 ≤ this.mxc.toInt + this.mnc.toInt)
    (h : LastMove this mxc) : 1 ≤ mxc := by
  obtain ⟨⟨r, hr, hratio⟩, -⟩ := hset
  obtain ⟨last, hred, hlast, hlsum, hlroom, rfl⟩ := h
  rw [maxtreeReduced, Bool.or_eq_false_iff, decide_eq_false_iff_not, lt_one_iff, hlast, hratio] at hred
  obtain ⟨hlt, hx⟩ := hred
  by_contra hnot
  have hmxc : last.mxc.toInt = 1 := by omega
  have hup : (last.mnc + 1).toInt = last.mnc.toInt + 1 := toInt_succ hlroom
  have hdown : (last.mxc - 1).toInt = 0 := by
    rw [toInt_pred (by omega), hmxc]
    rfl
  have hmnc : 0 < last.mnc.toInt + 1 := by omega
  rw [hup, hdown] at hlt
  have hdiv := (Exact.div_lt_iff r 0 hmnc).mpr (by
    have hpos : (0 : Rat) < (last.mnc.toInt + 1 : Int) := by exact_mod_cast hmnc
    simpa using mul_pos hr hpos)
  rw [hlt] at hdiv
  cases hdiv

/-- With `maxtree` empty the balancer goes to `reduce_mintree`. -/
theorem lowers_of_nil (hset : Settings this) (hsum : 2 ≤ this.mxc.toInt + this.mnc.toInt)
    (hx : this.mxc.toInt ≤ 0) : lowers this = false := by
  obtain ⟨⟨r, hr, hratio⟩, -⟩ := hset
  have hmnc : 0 < this.mnc.toInt := by omega
  have hnot : ¬ Doubles.lt (Exact.fin r)
      (Doubles.div (Doubles.ofInt this.mxc.toInt) (Doubles.ofInt this.mnc.toInt)) = true := by
    rw [Exact.lt_div_iff r this.mxc.toInt hmnc]
    have hpos : (0 : Rat) < this.mnc.toInt := by exact_mod_cast hmnc
    have hle : (this.mxc.toInt : Rat) ≤ 0 := by exact_mod_cast hx
    have := mul_pos hr hpos
    linarith
  have hne : this.mnc ≠ 0 := by
    intro h0
    rw [h0] at hmnc
    exact absurd hmnc (by decide)
  rw [lowers, hratio, Bool.eq_false_iff.mpr hnot]
  simp [hne]

/-- With `maxtree` empty `reduce_mintree` stops at once exactly when one element
below would exceed the ratio. -/
theorem mintreeReduced_of_nil (hset : Settings this) (hsum : 2 ≤ this.mxc.toInt + this.mnc.toInt)
    (hx : this.mxc.toInt ≤ 0) :
    mintreeReduced this = true ↔ this.mxc.toInt = 0 ∧
      Doubles.lt this.ratio
        (Doubles.div (Doubles.ofInt 1) (Doubles.ofInt (this.mnc.toInt - 1)) : Exact) = true := by
  obtain ⟨⟨r, hr, hratio⟩, -⟩ := hset
  have hmnc : 0 < this.mnc.toInt - 1 := by omega
  have hsome : ¬ this.mnc < 1 := by
    rw [lt_one_iff]
    omega
  have hup : (this.mxc + 1).toInt = this.mxc.toInt + 1 := toInt_succ (by omega)
  have hdown : (this.mnc - 1).toInt = this.mnc.toInt - 1 := toInt_pred (by omega)
  rw [mintreeReduced, Bool.or_eq_true, decide_eq_true_eq, or_iff_left hsome, hup, hdown]
  by_cases h0 : this.mxc.toInt = 0
  · simp only [h0, true_and, Int.zero_add]
  · have hnot : ¬ Doubles.lt (Exact.fin r)
        (Doubles.div (Doubles.ofInt (this.mxc.toInt + 1)) (Doubles.ofInt (this.mnc.toInt - 1))) = true := by
      rw [Exact.lt_div_iff r (this.mxc.toInt + 1) hmnc]
      have hpos : (0 : Rat) < (this.mnc.toInt - 1 : Int) := by exact_mod_cast hmnc
      have hle : ((this.mxc.toInt + 1 : Int) : Rat) ≤ 0 := by exact_mod_cast (by omega)
      have := mul_pos hr hpos
      linarith
    rw [hratio]
    simp only [h0, false_and, iff_false]
    exact hnot

/-- What the balancer leaves empty was empty and is refused a refill. -/
theorem balanced_nil_iff {this' : Swpercentile Exact D} {mem' : Mem D} (hset : Settings this)
    (hcore : Core cmp this mem lo hi lag1 lag2) (hcore' : Core cmp this' mem' lo' hi' lag1 lag2)
    (hword : -2147483648 ≤ this.mxc.toInt + this.mnc.toInt) (hfull : this.required ≤ count this)
    (h : Balanced this this'.mxc.toInt lo lo' hi hi') :
    lo' = [] ↔ lo = [] ∧ this.mxc.toInt = 0 ∧
      Doubles.lt this.ratio
        (Doubles.div (Doubles.ofInt 1) (Doubles.ofInt (this.mnc.toInt - 1)) : Exact) = true := by
  have hreq := hset.2
  have hcases := hcore.count_cases
  have hsum : 2 ≤ this.mxc.toInt + this.mnc.toInt := by omega
  have hlag := hcore.loLag
  have hlag' := hcore'.loLag
  have hlag0 := hcore.loLag_nonneg
  cases h with
  | short hs => omega
  | lowered _ hbranch hlast =>
    have hne : lo ≠ [] := by
      rintro rfl
      rw [Tally.total_nil] at hlag
      rw [lowers_of_nil hset hsum (by omega)] at hbranch
      cases hbranch
    have hne' : lo' ≠ [] := by
      rcases hlast with rfl | hlast
      · exact hne
      · have hpos := hlast.pos hset hsum
        rintro rfl
        rw [Tally.total_nil] at hlag'
        omega
    exact iff_of_false hne' fun h => hne h.1
  | raised _ hbranch hfill =>
    rcases hfill with ⟨hred, rfl⟩ | ⟨hred, hne'⟩
    · constructor
      · rintro rfl
        rw [Tally.total_nil] at hlag
        exact ⟨rfl, (mintreeReduced_of_nil hset hsum (by omega)).mp hred⟩
      · exact fun h => h.1
    · refine iff_of_false hne' ?_
      intro hcond
      obtain ⟨rfl, hstop⟩ := hcond
      rw [Tally.total_nil] at hlag
      rw [(mintreeReduced_of_nil hset hsum (by omega)).mpr hstop] at hred
      cases hred

/-! ## The invariant -/

/-- Comparing is possible: `maxtree` is not empty once enough is counted. -/
def Comparable (cmp : D → D → Int) (w : Window Exact D) : Prop :=
  ∃ lo hi lag1 lag2, Core cmp w.plugin w.mem lo hi lag1 lag2 ∧ Settings w.plugin ∧
    -2147483648 ≤ w.plugin.mxc.toInt + w.plugin.mnc.toInt ∧
    (w.plugin.required ≤ count w.plugin → lo ≠ [])

theorem comparable_make (percentile : Int) (mem : Mem D) :
    Comparable cmp (makeWindow percentile mem : Window Exact D) := by
  refine ⟨[], [], 0, 0, core_make percentile mem, settings_make percentile mem,
    show (-2147483648 : Int) ≤ (0 : Int32).toInt + (0 : Int32).toInt by decide, fun hfull => ?_⟩
  have hreq := (settings_make percentile mem).2
  change _ ≤ (0 : Int) at hfull
  omega

/-- An insertion that fits into a comparable window returns one. -/
theorem add_comparable (order : TotalOrder cmp) {w : Window Exact D} (h : Comparable cmp w) (item : D)
    (hfits : CountersFit cmp w (.add item)) :
    ∃ w' c, windowStep cmp w (.add item) = some (w', c) ∧ Comparable cmp w' := by
  obtain ⟨lo, hi, lag1, lag2, hcore, hset, hword, hne⟩ := h
  rcases swpercentileAddPipe_spec order hcore item (hfits.add hcore) with ⟨hfull, hnil, -⟩ |
    ⟨this1, mem1, lo1, hi1, this', mem', lo', hi', hrun, hadd, hmoved, hbal⟩
  · exact absurd hnil (hne hfull)
  · have hset1 := hset.congr hadd.settings
    have hsum1 := hadd.sum
    have hsum := hmoved.sum
    refine ⟨⟨this', mem', w.live ++ [item]⟩, this'.candidates, by simp [windowStep, hrun],
      lo', hi', lag1, lag2, hmoved.core, hset1.congr hmoved.settings,
      show _ ≤ this'.mxc.toInt + this'.mnc.toInt by omega, fun hfull hnil => ?_⟩
    change this'.required ≤ count this' at hfull
    rw [hmoved.count, hmoved.settings.required] at hfull
    have hempty := (balanced_nil_iff hset1 hadd.core hmoved.core (by omega) hfull hbal).mp hnil
    exact hadd.put.ne_nil hempty.1

/-- An insertion that fits into a window that is not comparable has no result. -/
theorem add_faults (order : TotalOrder cmp) {w : Window Exact D} {lo hi : List (Entry D)}
    (hcore : Core cmp w.plugin w.mem lo hi lag1 lag2) (hfull : w.plugin.required ≤ count w.plugin)
    (hnil : lo = []) {item : D} (hfits : CountersFit cmp w (.add item)) :
    windowStep cmp w (.add item) = none := by
  rcases swpercentileAddPipe_spec order hcore item (hfits.add hcore) with ⟨-, -, hrun⟩ |
    ⟨this1, mem1, lo1, hi1, this', mem', lo', hi', -, hadd, -, -⟩
  · simp [windowStep, hrun]
  · cases hadd.put with
    | warmUp hs => omega
    | lower top _ htop => simp [hnil] at htop
    | upper top _ htop => simp [hnil] at htop

theorem Comparable.returns (order : TotalOrder cmp) {w : Window Exact D} (h : Comparable cmp w) :
    CallsReturn cmp w := by
  refine ⟨fun item hfits => ?_, fun hlive hfits => ?_⟩
  · obtain ⟨w', c, hrun, -⟩ := add_comparable order h item hfits
    rw [hrun]
    rfl
  · obtain ⟨lo, hi, lag1, lag2, hcore, -, -⟩ := h
    by_contra hnone
    exact hlive (rem_fault order hcore hfits (by simpa using hnone))

/-! ## Removals -/

/-- Taking the one element of a tree counts one. -/
theorem deletedRefs_single (order : TotalOrder cmp) {one two : Bintree D}
    (h : Halves cmp one two mem lo hi) {item : D} (hlen : lo.length = 1)
    (hstored : (Tally.find cmp lo item).map Entry.ref = some 1) : deletedRefs cmp one mem item = 1 := by
  obtain ⟨e, hfind, -⟩ := Option.map_eq_some_iff.mp hstored
  have hk : cmp item e.data = 0 := by simpa using List.find?_some hfind
  obtain ⟨u, rfl⟩ := List.length_eq_one_iff.mp hlen
  obtain rfl : e = u := by simpa using List.mem_of_find?_eq_some hfind
  exact h.deletedRefs_head order rfl hk

/-- The node counter of a half is one exactly when the half has one entry. -/
theorem Core.nodenum_one_iff (h : Core cmp this mem lo hi lag1 lag2) :
    bintreeGetNodenum this.maxtree = 1 ↔ lo.length = 1 := by
  obtain ⟨-, hhi0⟩ := h.totals_nonneg
  have hlen := h.halves.wf.1.length_le_total
  have hroom := h.room
  rw [h.halves.nodenum]
  exact ofNat_eq_one_iff (by omega)

/-- The root's stored reference is one exactly when the key's multiplicity is. -/
theorem Core.storedRef_one_iff (order : TotalOrder cmp) (h : Core cmp this mem lo hi lag1 lag2) (item : D) :
    storedRef cmp this.maxtree mem item = some 1 ↔ (Tally.find cmp lo item).map Entry.ref = some 1 := by
  rw [← h.halves.storedRef order item]
  cases storedRef cmp this.maxtree mem item with
  | none => simp
  | some r => simp [← Int32.toInt_inj]

/-- The removals that empty `maxtree` are those after which enough is counted, the
lower half is empty and the balancer refuses to refill it. -/
theorem emptiesMaxtree_iff (order : TotalOrder cmp) {w : Window Exact D} {item : D}
    {this1 : Swpercentile Exact D} {mem1 : Mem D} {lag1' lag2' : Int}
    (hcore : Core cmp w.plugin w.mem lo hi lag1 lag2)
    (hword : -2147483648 ≤ this1.mxc.toInt + this1.mnc.toInt)
    (hne : w.plugin.required ≤ count w.plugin → lo ≠ [])
    (ht : Taken cmp w.plugin w.mem lo hi lag1 lag2 item this1 mem1 lag1' lag2') :
    EmptiesMaxtree cmp w item ↔ this1.required ≤ count this1 ∧
      Tally.takeOne cmp item lo = [] ∧ this1.mxc.toInt = 0 ∧
      Doubles.lt this1.ratio
        (Doubles.div (Doubles.ofInt 1) (Doubles.ofInt (this1.mnc.toInt - 1)) : Exact) = true := by
  have hmxc := ht.mxc
  have hcount1 : count this1 = this1.mxc.toInt + this1.mnc.toInt := by
    have hcases := ht.core.count_cases
    omega
  have hrefnum : bintreeGetRefnum w.plugin.maxtree = 1 ↔ w.plugin.mxc.toInt = 1 := by
    rw [← hcore.mxc, ← Int32.toInt_inj]
    rfl
  rw [EmptiesMaxtree, hcore.nodenum_one_iff, hrefnum, hcore.storedRef_one_iff order, ← ht.mnc,
    ht.settings.required, ht.settings.ratio, Tally.takeOne_eq_nil_iff hcore.halves.wf.1, hcount1]
  rw [refsAfter, ← hcore.mxc] at hmxc
  constructor
  · intro hcond
    obtain ⟨hlen, href, hstored, hreq, hlt⟩ := hcond
    have hdel := congrArg Int32.toInt (deletedRefs_single order hcore.halves hlen hstored)
    rw [toInt_one] at hdel
    exact ⟨by omega, Or.inr ⟨hlen, hstored⟩, by omega, hlt⟩
  · intro hcond
    obtain ⟨hfull, hempty, h0, hlt⟩ := hcond
    rcases hempty with hnil | ⟨hlen, hstored⟩
    · have hge1 := hcore.halves.deletedRefs_ge order item
      have hge2 := hcore.halves.swap.deletedRefs_ge order item
      have hh1 := held_nonneg cmp lo item
      have hh2 := held_nonneg cmp hi item
      have hmnc := ht.mnc
      have hcases := hcore.count_cases
      rw [refsAfter, ← hcore.mnc] at hmnc
      unfold held at hh1 hh2
      exact absurd hnil (hne (by omega))
    · have hdel := congrArg Int32.toInt (deletedRefs_single order hcore.halves hlen hstored)
      rw [toInt_one] at hdel
      exact ⟨hlen, by omega, hstored, by omega, hlt⟩

/-- A removal leaves a comparable window exactly when it does not empty `maxtree`,
and otherwise one in which no insertion returns. -/
theorem rem_comparable (order : TotalOrder cmp) {w w' : Window Exact D} {c : Swpercentilecandidates D}
    (h : Comparable cmp w) (hfits : CountersFit cmp w .rem) (hstep : windowStep cmp w .rem = some (w', c)) :
    (KeepsMaxtree cmp w .rem → Comparable cmp w') ∧ (CallsReturn cmp w' → KeepsMaxtree cmp w .rem) := by
  obtain ⟨lo, hi, lag1, lag2, hcore, hset, hword, hne⟩ := h
  cases hlive : w.live with
  | nil => simp [windowStep, hlive] at hstep
  | cons item live =>
    rw [CountersFit, hlive] at hfits
    obtain ⟨hmaxFits, hminFits, hsumFits⟩ := hfits item rfl
    obtain ⟨this1, mem1, lag1', lag2', this', mem', lo', hi', hrun, ht, hmoved, -, hbal⟩ :=
      swpercentileRemPipe_spec order hcore item hmaxFits hminFits
    simp only [windowStep, hlive, hrun, Option.map_some, Option.some.injEq, Prod.mk.injEq] at hstep
    obtain ⟨rfl, -⟩ := hstep
    have hset1 := hset.congr ht.settings
    have hword1 : -2147483648 ≤ this1.mxc.toInt + this1.mnc.toInt := by
      rw [ht.mxc, ht.mnc]
      exact hsumFits
    have hsum := hmoved.sum
    have hguard : KeepsMaxtree cmp w .rem ↔ ¬ EmptiesMaxtree cmp w item := by
      simp [KeepsMaxtree, hlive]
    rw [hguard]
    have hempties := emptiesMaxtree_iff order hcore hword1 hne ht
    constructor
    · intro hkeeps
      refine ⟨lo', hi', lag1', lag2', hmoved.core, hset1.congr hmoved.settings,
        show _ ≤ this'.mxc.toInt + this'.mnc.toInt by omega, fun hfull hnil => hkeeps (hempties.mpr ?_)⟩
      change this'.required ≤ count this' at hfull
      rw [hmoved.count, hmoved.settings.required] at hfull
      exact ⟨hfull, (balanced_nil_iff hset1 ht.core hmoved.core hword1 hfull (hbal hfull)).mp hnil⟩
    · intro hreturns hemptied
      obtain ⟨hfull, hempty⟩ := hempties.mp hemptied
      have hnil := (balanced_nil_iff hset1 ht.core hmoved.core hword1 hfull (hbal hfull)).mpr hempty
      rw [← hmoved.count, ← hmoved.settings.required] at hfull
      -- the removal has made room, so the next insertion fits and compares with null
      have hroom : CountersFit cmp ⟨this', mem', live⟩ (.add item) := by
        have htotals := hmoved.totals ht.core
        have hheld := Tally.total_takeOne order hcore.halves.wf.1 item
        have hheld2 := Tally.total_takeOne_le order hcore.halves.wf.2 item
        have hstored := (hcore.storedRef_one_iff order item).mp hemptied.2.2.1
        have hroom := hcore.room
        obtain ⟨e, hfind, -⟩ := Option.map_eq_some_iff.mp hstored
        rw [hfind, Option.isSome_some, if_pos rfl] at hheld
        change storedRefs this'.maxtree mem' + storedRefs this'.mintree mem' + 1 < 2147483648
        rw [hmoved.core.halves.storedRefs, hmoved.core.halves.swap.storedRefs]
        omega
      have hadd := hreturns.1 item hroom
      have hnone := add_faults order (w := ⟨this', mem', live⟩) hmoved.core hfull hnil hroom
      rw [hnone] at hadd
      cases hadd

theorem step_comparable (order : TotalOrder cmp) (w : Window Exact D) (e : Event D) (w' : Window Exact D)
    (c : Swpercentilecandidates D) (h : Comparable cmp w) (hfits : CountersFit cmp w e)
    (hstep : windowStep cmp w e = some (w', c)) :
    (KeepsMaxtree cmp w e → Comparable cmp w') ∧ (CallsReturn cmp w' → KeepsMaxtree cmp w e) := by
  cases e with
  | add item =>
    obtain ⟨w'', c', hrun, hcomp⟩ := add_comparable order h item hfits
    cases hrun.symm.trans hstep
    exact ⟨fun _ => hcomp, fun _ => trivial⟩
  | rem => exact rem_comparable order h hfits hstep

theorem fault_keepsMaxtree (order : TotalOrder cmp) (w : Window Exact D) (e : Event D)
    (h : Comparable cmp w) (hfits : CountersFit cmp w e) (hfault : windowStep cmp w e = none) :
    KeepsMaxtree cmp w e := by
  cases e with
  | add item => trivial
  | rem =>
    obtain ⟨lo, hi, lag1, lag2, hcore, -, -⟩ := h
    simp [KeepsMaxtree, rem_fault order hcore hfits hfault]

/-! ## Runs -/

/-- As long as the counters fit, every call returns in every state reached exactly when no
removal takes the last element of `maxtree` and finds it refused a refill. -/
theorem calls_return_iff (order : TotalOrder cmp) (percentile : Int) (mem : Mem D)
    (events : List (Event D))
    (hfits : Guarded (windowStep cmp) (CountersFit cmp) (makeWindow percentile mem : Window Exact D) events) :
    (∀ k w cs, run (windowStep cmp) (makeWindow percentile mem : Window Exact D) (events.take k) =
      some (w, cs) → CallsReturn cmp w) ↔
      Guarded (windowStep cmp) (KeepsMaxtree cmp) (makeWindow percentile mem : Window Exact D) events :=
  prefixes_iff_guarded_within (fun _ h => h.returns order) (step_comparable order) (fault_keepsMaxtree order)
    (comparable_make percentile mem) hfits

/-- At the median a removed top is always replaced. -/
theorem calls_return_iff_run :
    Guarded (windowStep bintreecmpInt32) (KeepsMaxtree bintreecmpInt32)
        (makeWindow 50 ⟨[]⟩ : Window Exact Int) [.add 1, .add 2, .add 3, .rem, .rem, .add 4] ∧
      ∀ k w cs, run (windowStep bintreecmpInt32) (makeWindow 50 ⟨[]⟩ : Window Exact Int)
        ([.add 1, .add 2, .add 3, .rem, .rem, .add 4].take k) = some (w, cs) →
          CallsReturn bintreecmpInt32 w := by
  rw [calls_return_iff bintreecmpInt32_order 50 ⟨[]⟩ _ (by decide +kernel), and_self]
  decide +kernel

/-- At the fifteenth percentile seven distinct items leave one in `maxtree`. Its
removal is refused a refill, and the next insertion compares with null. -/
theorem insertion_compares_null :
    ∃ w cs, run (windowStep bintreecmpInt32) (makeWindow 15 ⟨[]⟩ : Window Exact Int)
        [.add 1, .add 2, .add 3, .add 4, .add 5, .add 6, .add 7, .rem] = some (w, cs) ∧
      w.plugin.required ≤ count w.plugin ∧
      bintreeGetTopData w.plugin.maxtree w.mem = some none ∧
      windowStep bintreecmpInt32 w (.add 8) = none := by
  have hnull : (run (windowStep bintreecmpInt32) (makeWindow 15 ⟨[]⟩ : Window Exact Int)
      [.add 1, .add 2, .add 3, .add 4, .add 5, .add 6, .add 7, .rem]).map
        (fun r => (decide (r.1.plugin.required ≤ count r.1.plugin),
          bintreeGetTopData r.1.plugin.maxtree r.1.mem,
          (windowStep bintreecmpInt32 r.1 (.add 8)).isNone)) = some (true, some none, true) := by
    decide +kernel
  obtain ⟨⟨w, cs⟩, hrun, hw⟩ := Option.map_eq_some_iff.mp hnull
  obtain ⟨hfull, hrest⟩ := Prod.mk.inj hw
  obtain ⟨htop, hfault⟩ := Prod.mk.inj hrest
  exact ⟨w, cs, hrun, of_decide_eq_true hfull, htop, Option.isNone_iff_eq_none.mp hfault⟩

end Devclego.Percentile
