import Devclego.Percentile.Invariant

/-!
# The calls of the plugin

A call places or takes an item and then only shifts: the drain and the balancer
are lists of moves, and the callback changes no tree. Each function here has one
specification, from which the claims about whole windows are read off.
-/
namespace Devclego.Percentile

open Foundation Devclego.Tree

variable {F D : Type} {cmp : D → D → Int} {mem : Mem D} {lo hi : List (Entry D)}
  {this : Swpercentile F D} {lag1 lag2 : Int}

/-- The counter that a deletion leaves, as a number. -/
def refsAfter (cmp : D → D → Int) (this : Bintree D) (mem : Mem D) (item : D) : Int :=
  (bintreeGetRefnum this).toInt - (deletedRefs cmp this mem item).toInt

/-- The counters stay in the word: an insertion leaves less than `2 ^ 31` stored
references, and a removal leaves neither counter nor their sum below `-2 ^ 31`. -/
def CountersFit (cmp : D → D → Int) (w : Window F D) : Event D → Prop
  | .add _ => storedRefs w.plugin.maxtree w.mem + storedRefs w.plugin.mintree w.mem + 1 < 2147483648
  | .rem => ∀ item ∈ w.live.head?,
      -2147483648 ≤ refsAfter cmp w.plugin.maxtree w.mem item ∧
      -2147483648 ≤ refsAfter cmp w.plugin.mintree w.mem item ∧
      -2147483648 ≤ refsAfter cmp w.plugin.maxtree w.mem item + refsAfter cmp w.plugin.mintree w.mem item

instance (cmp : D → D → Int) (w : Window F D) (e : Event D) : Decidable (CountersFit cmp w e) :=
  match e with
  | .add _ => inferInstanceAs (Decidable (_ < _))
  | .rem => inferInstanceAs (Decidable (∀ item ∈ w.live.head?, _ ∧ _ ∧ _))

/-- One if the key is held. -/
def held (cmp : D → D → Int) (xs : List (Entry D)) (k : D) : Int :=
  if (Tally.find cmp xs k).isSome then 1 else 0

theorem held_nonneg (cmp : D → D → Int) (xs : List (Entry D)) (k : D) : 0 ≤ held cmp xs k := by
  unfold held
  split <;> decide

theorem Core.candidates (h : Core cmp this mem lo hi lag1 lag2) (c : Swpercentilecandidates D) :
    Core cmp { this with candidates := c } mem lo hi lag1 lag2 :=
  ⟨h.halves, h.mxc, h.mnc, h.loLag, h.hiLag, h.loLag_nonneg, h.hiLag_nonneg, h.room⟩

/-! ## Placing an item -/

/-- Where an item goes: during the warm-up to the lower half, and later to the half
that its comparison with the lower top selects. -/
inductive Put (cmp : D → D → Int) (this : Swpercentile F D) (item : D) (lo hi : List (Entry D)) :
    List (Entry D) → List (Entry D) → Prop where
  | warmUp (short : count this < this.required) :
      Put cmp this item lo hi (Tally.add cmp ⟨item, 1⟩ lo) hi
  | lower (top : Entry D) (full : this.required ≤ count this) (htop : lo.getLast? = some top)
      (hle : cmp item top.data ≤ 0) : Put cmp this item lo hi (Tally.add cmp ⟨item, 1⟩ lo) hi
  | upper (top : Entry D) (full : this.required ≤ count this) (htop : lo.getLast? = some top)
      (hgt : 0 < cmp item top.data) : Put cmp this item lo hi lo (Tally.add cmp ⟨item, 1⟩ hi)

variable {item : D} {lo' hi' : List (Entry D)}

theorem Put.ne_nil (h : Put cmp this item lo hi lo' hi') : lo' ≠ [] := by
  cases h with
  | warmUp => exact Tally.add_ne_nil _ _
  | lower => exact Tally.add_ne_nil _ _
  | upper top full htop =>
    intro hnil
    rw [hnil] at htop
    cases htop

theorem Put.mult (order : TotalOrder cmp) (h : Put cmp this item lo hi lo' hi')
    (hlo : Tally.Wf cmp lo) (hhi : Tally.Wf cmp hi) (k : D) :
    Tally.mult cmp lo' k + Tally.mult cmp hi' k =
      Tally.mult cmp lo k + Tally.mult cmp hi k + if cmp k item = 0 then 1 else 0 := by
  cases h with
  | warmUp => rw [Tally.mult_add order hlo]; exact Int.add_right_comm _ _ _
  | lower => rw [Tally.mult_add order hlo]; exact Int.add_right_comm _ _ _
  | upper => rw [Tally.mult_add order hhi]; exact (Int.add_assoc _ _ _).symm

/-- The halves stay ordered, provided that the upper one is empty during the
warm-up. -/
theorem Put.ordered (order : TotalOrder cmp) (h : Put cmp this item lo hi lo' hi')
    (hlo : Tally.Wf cmp lo) (ho : Ordered cmp lo hi)
    (hshort : count this < this.required → hi = []) : Ordered cmp lo' hi' := by
  cases h with
  | warmUp short =>
    rw [hshort short]
    intro u _ v hv
    cases hv
  | lower top _ htop hle =>
    intro u hu v hv
    rcases Tally.mem_add hu with hui | ⟨u', hu', rfl⟩
    · rw [hui]
      exact order.trans _ _ _ hle (ho top (List.mem_of_getLast? htop) v hv)
    · exact ho u hu' v hv
  | upper top _ htop hgt =>
    intro u hu v hv
    rcases Tally.mem_add hv with hvi | ⟨v', hv', rfl⟩
    · rw [hvi]
      exact order.trans _ _ _ (hlo.increasing.le_last order htop u hu)
        (Int.le_of_lt ((order.antisymm _ _).mpr hgt))
    · exact ho u hu v hv'

theorem addMaxtree_spec (order : TotalOrder cmp) (h : Core cmp this mem lo hi lag1 lag2) (item : D)
    (hroom : Tally.total lo + Tally.total hi + 1 < 2147483648) :
    ∃ this' mem', addMaxtree cmp this mem item = some (this', mem') ∧
      Core cmp this' mem' (Tally.add cmp ⟨item, 1⟩ lo) hi lag1 lag2 ∧
      this'.mxc.toInt + this'.mnc.toInt = this.mxc.toInt + this.mnc.toInt + 1 ∧ SameSettings this this' := by
  obtain ⟨hlo0, hhi0⟩ := h.totals_nonneg
  have hmxc := h.mxc
  have hlag := h.loLag
  have hlag0 := h.loLag_nonneg
  obtain ⟨maxtree', mem', hrun, hh, href⟩ := h.halves.insert order item (by omega)
  have hup : (this.mxc + 1).toInt = this.mxc.toInt + 1 := toInt_succ (by omega)
  have htotal : Tally.total (Tally.add cmp ⟨item, 1⟩ lo) = Tally.total lo + 1 := Tally.total_add cmp _ _
  refine ⟨{ this with maxtree := maxtree', mxc := this.mxc + 1 }, mem', by simp [addMaxtree, hrun],
    ⟨hh, ?_, h.mnc, ?_, h.hiLag, h.loLag_nonneg, h.hiLag_nonneg, by omega⟩, ?_, ⟨rfl, rfl, rfl⟩⟩
  · change this.mxc + 1 = bintreeGetRefnum maxtree'
    rw [href, hmxc]
  · change (this.mxc + 1).toInt + lag1 = _
    omega
  · change (this.mxc + 1).toInt + this.mnc.toInt = _
    omega

theorem addMintree_spec (order : TotalOrder cmp) (h : Core cmp this mem lo hi lag1 lag2) (item : D)
    (hroom : Tally.total lo + Tally.total hi + 1 < 2147483648) :
    ∃ this' mem', addMintree cmp this mem item = some (this', mem') ∧
      Core cmp this' mem' lo (Tally.add cmp ⟨item, 1⟩ hi) lag1 lag2 ∧
      this'.mxc.toInt + this'.mnc.toInt = this.mxc.toInt + this.mnc.toInt + 1 ∧ SameSettings this this' := by
  obtain ⟨hlo0, hhi0⟩ := h.totals_nonneg
  have hmnc := h.mnc
  have hlag := h.hiLag
  have hlag0 := h.hiLag_nonneg
  obtain ⟨mintree', mem', hrun, hh, href⟩ := h.halves.swap.insert order item (by omega)
  have hup : (this.mnc + 1).toInt = this.mnc.toInt + 1 := toInt_succ (by omega)
  have htotal : Tally.total (Tally.add cmp ⟨item, 1⟩ hi) = Tally.total hi + 1 := Tally.total_add cmp _ _
  refine ⟨{ this with mintree := mintree', mnc := this.mnc + 1 }, mem', by simp [addMintree, hrun],
    ⟨hh.swap, h.mxc, ?_, h.loLag, ?_, h.loLag_nonneg, h.hiLag_nonneg, by omega⟩, ?_, ⟨rfl, rfl, rfl⟩⟩
  · change this.mnc + 1 = bintreeGetRefnum mintree'
    rw [href, hmnc]
  · change (this.mnc + 1).toInt + lag2 = _
    omega
  · change this.mxc.toInt + (this.mnc + 1).toInt = _
    omega

/-- The item is in one of the halves, and one of the counters is up by one. -/
structure Added (cmp : D → D → Int) (this : Swpercentile F D) (lo hi : List (Entry D)) (lag1 lag2 : Int)
    (item : D) (this1 : Swpercentile F D) (mem1 : Mem D) (lo1 hi1 : List (Entry D)) : Prop where
  core : Core cmp this1 mem1 lo1 hi1 lag1 lag2
  put : Put cmp this item lo hi lo1 hi1
  sum : this1.mxc.toInt + this1.mnc.toInt = this.mxc.toInt + this.mnc.toInt + 1
  settings : SameSettings this this1

theorem placeItem_eq (cmp : D → D → Int) (this : Swpercentile F D) (mem : Mem D) (item : D) :
    placeItem cmp this mem item =
      if count this < this.required then addMaxtree cmp this mem item
      else bintreeGetTopData this.maxtree mem >>= fun top => top >>= fun top =>
        if cmp item top ≤ 0 then addMaxtree cmp this mem item else addMintree cmp this mem item := rfl

/-- An insertion that the counters have room for has no result exactly when it compares
with an empty `maxtree`. -/
theorem placeItem_spec (order : TotalOrder cmp) (h : Core cmp this mem lo hi lag1 lag2) (item : D)
    (hroom : Tally.total lo + Tally.total hi + 1 < 2147483648) :
    (this.required ≤ count this ∧ lo = [] ∧ placeItem cmp this mem item = none) ∨
      ∃ this1 mem1 lo1 hi1, placeItem cmp this mem item = some (this1, mem1) ∧
        Added cmp this lo hi lag1 lag2 item this1 mem1 lo1 hi1 := by
  by_cases hshort : count this < this.required
  · obtain ⟨this', mem', hrun, hcore, hsum, hs⟩ := addMaxtree_spec order h item hroom
    exact Or.inr ⟨this', mem', _, _, by rw [placeItem_eq, if_pos hshort, hrun],
      ⟨hcore, .warmUp hshort, hsum, hs⟩⟩
  · have hfull : this.required ≤ count this := Int.not_lt.mp hshort
    cases htop : lo.getLast? with
    | none =>
      refine Or.inl ⟨hfull, List.getLast?_eq_none_iff.mp htop, ?_⟩
      rw [placeItem_eq, if_neg hshort, h.halves.top, htop]
      rfl
    | some top =>
      right
      by_cases hle : cmp item top.data ≤ 0
      · obtain ⟨this', mem', hrun, hcore, hsum, hs⟩ := addMaxtree_spec order h item hroom
        refine ⟨this', mem', _, _, ?_, ⟨hcore, .lower top hfull htop hle, hsum, hs⟩⟩
        rw [placeItem_eq, if_neg hshort, h.halves.top, htop]
        simpa [hle] using hrun
      · obtain ⟨this', mem', hrun, hcore, hsum, hs⟩ := addMintree_spec order h item hroom
        refine ⟨this', mem', _, _, ?_, ⟨hcore, .upper top hfull htop (by omega), hsum, hs⟩⟩
        rw [placeItem_eq, if_neg hshort, h.halves.top, htop]
        simpa [hle] using hrun

/-! ## Taking an item -/

/-- The key is gone from both halves. The lags grow by what the deletions count
beyond that. -/
structure Taken (cmp : D → D → Int) (this : Swpercentile F D) (mem : Mem D) (lo hi : List (Entry D))
    (lag1 lag2 : Int) (item : D) (this1 : Swpercentile F D) (mem1 : Mem D) (lag1' lag2' : Int) :
    Prop where
  core : Core cmp this1 mem1 (Tally.takeOne cmp item lo) (Tally.takeOne cmp item hi) lag1' lag2'
  loLag : lag1' = lag1 + ((deletedRefs cmp this.maxtree mem item).toInt - held cmp lo item)
  hiLag : lag2' = lag2 + ((deletedRefs cmp this.mintree mem item).toInt - held cmp hi item)
  mxc : this1.mxc.toInt = refsAfter cmp this.maxtree mem item
  mnc : this1.mnc.toInt = refsAfter cmp this.mintree mem item
  settings : SameSettings this this1

/-- Deletions whose counters fit in the word take the key from both trees. -/
theorem takeItem_spec (order : TotalOrder cmp) (h : Core cmp this mem lo hi lag1 lag2) (item : D)
    (hmaxFits : -2147483648 ≤ refsAfter cmp this.maxtree mem item)
    (hminFits : -2147483648 ≤ refsAfter cmp this.mintree mem item) :
    ∃ this1 mem1 lag1' lag2', takeItem cmp this mem item = some (this1, mem1) ∧
      Taken cmp this mem lo hi lag1 lag2 item this1 mem1 lag1' lag2' := by
  obtain ⟨maxtree', mem1, hmax, hh1, href1, hother⟩ := h.halves.delete order item
  obtain ⟨mintree', mem2, hmin, hh2, href2, -⟩ := hh1.swap.delete order item
  have hlo : held cmp lo item ≤ (deletedRefs cmp this.maxtree mem item).toInt :=
    h.halves.deletedRefs_ge order item
  have hhi : held cmp hi item ≤ (deletedRefs cmp this.mintree mem item).toInt :=
    h.halves.swap.deletedRefs_ge order item
  have hlo0 := held_nonneg cmp lo item
  have hhi0 := held_nonneg cmp hi item
  have hll := h.loLag
  have hhl := h.hiLag
  have hl0 := h.loLag_nonneg
  have hh0 := h.hiLag_nonneg
  have hroom := h.room
  have hmaxWord := toInt_bounds (bintreeGetRefnum this.maxtree)
  have hminWord := toInt_bounds (bintreeGetRefnum this.mintree)
  rw [hother] at href2
  rw [h.mxc] at hll
  rw [h.mnc] at hhl
  unfold refsAfter at hmaxFits hminFits
  have hx : (bintreeGetRefnum maxtree').toInt = refsAfter cmp this.maxtree mem item := by
    rw [href1]
    exact toInt_sub_of_fits hmaxFits (by omega)
  have hn : (bintreeGetRefnum mintree').toInt = refsAfter cmp this.mintree mem item := by
    rw [href2]
    exact toInt_sub_of_fits hminFits (by omega)
  have htotal1 : Tally.total (Tally.takeOne cmp item lo) = Tally.total lo - held cmp lo item :=
    Tally.total_takeOne order h.halves.wf.1 item
  have htotal2 : Tally.total (Tally.takeOne cmp item hi) = Tally.total hi - held cmp hi item :=
    Tally.total_takeOne order h.halves.wf.2 item
  refine ⟨{ this with
      maxtree := maxtree', mintree := mintree'
      mxc := bintreeGetRefnum maxtree', mnc := bintreeGetRefnum mintree' }, mem2, _, _,
    by simp [takeItem, hmax, hmin], ⟨⟨hh2.swap, rfl, rfl, ?_, ?_, ?_, ?_, by omega⟩, rfl, rfl, hx, hn,
      ⟨rfl, rfl, rfl⟩⟩⟩
  · change (bintreeGetRefnum maxtree').toInt + _ = _
    rw [hx, htotal1, refsAfter]
    omega
  · change (bintreeGetRefnum mintree').toInt + _ = _
    rw [hn, htotal2, refsAfter]
    omega
  · omega
  · omega

/-! ## The loops after a placement or a removal -/

/-- The drain loop returns and has run a positive counter of `mintree` down to
zero. -/
theorem drainMintree_spec (order : TotalOrder cmp) {fuel : Nat} (h : Core cmp this mem lo hi lag1 lag2)
    (hf : this.mnc.toInt < fuel) (hf0 : 0 < fuel) :
    ∃ this' mem' lo' hi', drainMintree cmp fuel this mem = some (this', mem') ∧
      Moved cmp this lo hi lag1 lag2 this' mem' lo' hi' ∧ this'.mnc.toInt = min this.mnc.toInt 0 := by
  induction fuel generalizing this mem lo hi with
  | zero => omega
  | succ fuel ih =>
    by_cases hn : 0 < this.mnc
    · have hpos := (pos_iff this.mnc).mp hn
      obtain ⟨e, mintree', mem1, maxtree', mem2, he, hdel, hins, hcore, hup, hdown⟩ := h.shiftUp order hpos
      have hmnc : (this.mnc - 1).toInt < fuel := by omega
      obtain ⟨this', mem', lo', hi', hrun, hmoved, hdone⟩ := ih hcore hmnc (by omega)
      change this'.mnc.toInt = min (this.mnc - 1).toInt 0 at hdone
      refine ⟨this', mem', lo', hi', ?_, Moved.up he ?_ ?_ hmoved, by omega⟩
      · have hpop : bintreePopBottomData cmp this.mintree mem = some (mintree', mem1, some e.data) := by
          rw [h.halves.swap.popBottom he, hdel]
          rfl
        simp [drainMintree, hn, hpop, hins, hrun]
      · exact ⟨rfl, rfl, rfl⟩
      · change (this.mxc + 1).toInt + (this.mnc - 1).toInt = _
        omega
    · have hpos := mt (pos_iff this.mnc).mpr hn
      exact ⟨this, mem, lo, hi, by simp [drainMintree, hn], Moved.refl h, by omega⟩

theorem drainIfShort_eq (cmp : D → D → Int) (this : Swpercentile F D) (mem : Mem D) :
    drainIfShort cmp this mem =
      if count this < this.required then drainMintree cmp (this.mnc.toInt.toNat + 1) this mem
      else some (this, mem) := rfl

theorem drainIfShort_spec (order : TotalOrder cmp) (h : Core cmp this mem lo hi lag1 lag2) :
    ∃ this' mem' lo' hi', drainIfShort cmp this mem = some (this', mem') ∧
      Moved cmp this lo hi lag1 lag2 this' mem' lo' hi' ∧
      (count this < this.required → this'.mnc.toInt = min this.mnc.toInt 0) ∧
      (this.required ≤ count this → this' = this ∧ lo' = lo ∧ hi' = hi) := by
  by_cases hshort : count this < this.required
  · obtain ⟨this', mem', lo', hi', hrun, hmoved, hdone⟩ :=
      drainMintree_spec order h (show this.mnc.toInt < (this.mnc.toInt.toNat + 1 : Nat) by omega) (by omega)
    exact ⟨this', mem', lo', hi', by rw [drainIfShort_eq, if_pos hshort, hrun], hmoved, fun _ => hdone,
      fun hfull => by omega⟩
  · exact ⟨this, mem, lo, hi, by rw [drainIfShort_eq, if_neg hshort], Moved.refl h, fun hs => absurd hs hshort,
      fun _ => ⟨rfl, rfl, rfl⟩⟩

variable [Doubles F]

/-- The balancer goes to `reduce_maxtree`. -/
def lowers (this : Swpercentile F D) : Bool :=
  decide (this.mnc = 0) || (!decide (this.mxc = 0) &&
    Doubles.lt this.ratio (Doubles.div (Doubles.ofInt this.mxc.toInt) (Doubles.ofInt this.mnc.toInt)))

theorem swpercentileBalancer_eq (cmp : D → D → Int) (this : Swpercentile F D) (mem : Mem D) :
    swpercentileBalancer cmp this mem =
      if count this < this.required then some (this, mem)
      else if lowers this then reduceMaxtree cmp (this.mxc.toInt.toNat + 1) this mem
      else reduceMintree cmp (this.mnc.toInt.toNat + 1) this mem := by
  unfold swpercentileBalancer lowers count
  by_cases hmnc : this.mnc = 0
  · simp [hmnc]
  · by_cases hmxc : this.mxc = 0
    · simp [hmnc, hmxc]
    · simp [hmnc, hmxc]

/-- What the balancer has done: nothing below `required`, and else one of the two
loops. -/
inductive Balanced (this : Swpercentile F D) (mxc : Int) (lo lo' hi hi' : List (Entry D)) : Prop where
  | short (h : count this < this.required) (hlo : lo' = lo) (hhi : hi' = hi)
  | lowered (h : this.required ≤ count this) (hbranch : lowers this = true)
      (hlast : lo' = lo ∨ LastMove this mxc)
  | raised (h : this.required ≤ count this) (hbranch : lowers this = false)
      (hfill : (mintreeReduced this = true ∧ lo' = lo) ∨ (mintreeReduced this = false ∧ lo' ≠ []))

theorem swpercentileBalancer_spec (order : TotalOrder cmp) (h : Core cmp this mem lo hi lag1 lag2) :
    ∃ this' mem' lo' hi', swpercentileBalancer cmp this mem = some (this', mem') ∧
      Moved cmp this lo hi lag1 lag2 this' mem' lo' hi' ∧ Balanced this this'.mxc.toInt lo lo' hi hi' := by
  rw [swpercentileBalancer_eq]
  by_cases hshort : count this < this.required
  · exact ⟨this, mem, lo, hi, by simp [hshort], Moved.refl h, .short hshort rfl rfl⟩
  · have hfull : this.required ≤ count this := Int.not_lt.mp hshort
    cases hb : lowers this with
    | true =>
      obtain ⟨this', mem', lo', hi', hrun, hmoved, hlast⟩ :=
        reduceMaxtree_spec order h (show this.mxc.toInt < (this.mxc.toInt.toNat + 1 : Nat) by omega) (by omega)
      exact ⟨this', mem', lo', hi', by rw [if_neg hshort, if_pos rfl, hrun], hmoved, .lowered hfull hb hlast⟩
    | false =>
      obtain ⟨this', mem', lo', hi', hrun, hmoved, hfill⟩ :=
        reduceMintree_spec order h (show this.mnc.toInt < (this.mnc.toInt.toNat + 1 : Nat) by omega) (by omega)
      exact ⟨this', mem', lo', hi', by rw [if_neg hshort, if_neg Bool.false_ne_true, hrun], hmoved,
        .raised hfull hb hfill⟩

/-- The callback changes the candidates only. -/
theorem swpercentilePipe_spec (h : Core cmp this mem lo hi lag1 lag2) :
    ∃ c, swpercentilePipe this mem = some { this with candidates := c } := by
  unfold swpercentilePipe
  simp only [h.halves.top, h.halves.swap.bottom]
  split
  · exact ⟨_, rfl⟩
  · split
    · exact ⟨_, rfl⟩
    · split
      · exact ⟨_, rfl⟩
      · exact ⟨_, rfl⟩

/-- The common end of both calls. -/
def settle (cmp : D → D → Int) (this : Swpercentile F D) (mem : Mem D) :
    Option (Swpercentile F D × Mem D) := do
  let (this, mem) ← swpercentileBalancer cmp this mem
  let this ← swpercentilePipe this mem
  some (this, mem)

theorem settle_spec (order : TotalOrder cmp) (h : Core cmp this mem lo hi lag1 lag2) :
    ∃ this' mem' lo' hi', settle cmp this mem = some (this', mem') ∧
      Moved cmp this lo hi lag1 lag2 this' mem' lo' hi' ∧ Balanced this this'.mxc.toInt lo lo' hi hi' := by
  obtain ⟨this', mem', lo', hi', hrun, hmoved, hbal⟩ := swpercentileBalancer_spec order h
  obtain ⟨c, hc⟩ := swpercentilePipe_spec hmoved.core
  refine ⟨{ this' with candidates := c }, mem', lo', hi', by simp [settle, hrun, hc],
    ⟨hmoved.core.candidates c, hmoved.shifts, hmoved.sum, ?_⟩, hbal⟩
  exact ⟨hmoved.settings.percentile, hmoved.settings.ratio, hmoved.settings.required⟩

/-- The end of a removal: the counter of `mintree` is run down, or the balancer
starts from the state after the deletions. -/
theorem drainSettle_spec (order : TotalOrder cmp) (h : Core cmp this mem lo hi lag1 lag2) :
    ∃ this' mem' lo' hi',
      (drainIfShort cmp this mem >>= fun r => settle cmp r.1 r.2) = some (this', mem') ∧
      Moved cmp this lo hi lag1 lag2 this' mem' lo' hi' ∧
      (count this < this.required → this'.mnc.toInt = min this.mnc.toInt 0) ∧
      (this.required ≤ count this → Balanced this this'.mxc.toInt lo lo' hi hi') := by
  obtain ⟨this1, mem1, lo1, hi1, hdrain, hmoved, hshort, hfull⟩ := drainIfShort_spec order h
  obtain ⟨this', mem', lo', hi', hset, hmoved', hbal⟩ := settle_spec order hmoved.core
  refine ⟨this', mem', lo', hi', by rw [hdrain]; exact hset, hmoved.trans hmoved', fun hs => ?_, fun hf => ?_⟩
  · have hdone := hshort hs
    have hcount := hmoved.count
    have hreq := hmoved.settings.required
    cases hbal with
    | short _ _ hhi =>
      have hhi1 := hmoved.core.hiLag
      have hhi' := hmoved'.core.hiLag
      rw [hhi] at hhi'
      omega
    | lowered hf => omega
    | raised hf => omega
  · obtain ⟨rfl, rfl, rfl⟩ := hfull hf
    exact hbal

/-! ## The two calls -/

/-- A call of `_swpercentile_add_pipe` that the counters have room for returns unless it
compares with an empty `maxtree`: the item is placed, and then the halves are balanced. -/
theorem swpercentileAddPipe_spec (order : TotalOrder cmp) (h : Core cmp this mem lo hi lag1 lag2)
    (item : D) (hroom : Tally.total lo + Tally.total hi + 1 < 2147483648) :
    (this.required ≤ count this ∧ lo = [] ∧ swpercentileAddPipe cmp this mem item = none) ∨
      ∃ this1 mem1 lo1 hi1 this' mem' lo' hi',
        swpercentileAddPipe cmp this mem item = some (this', mem') ∧
        Added cmp this lo hi lag1 lag2 item this1 mem1 lo1 hi1 ∧
        Moved cmp this1 lo1 hi1 lag1 lag2 this' mem' lo' hi' ∧
        Balanced this1 this'.mxc.toInt lo1 lo' hi1 hi' := by
  rcases placeItem_spec order h item hroom with ⟨hfull, hnil, hrun⟩ | ⟨this1, mem1, lo1, hi1, hrun, hadd⟩
  · exact Or.inl ⟨hfull, hnil, by simp [swpercentileAddPipe, hrun]⟩
  · obtain ⟨this', mem', lo', hi', hset, hmoved, hbal⟩ := settle_spec order hadd.core
    refine Or.inr ⟨this1, mem1, lo1, hi1, this', mem', lo', hi', ?_, hadd, hmoved, hbal⟩
    rw [swpercentileAddPipe, hrun]
    exact hset

/-- A call of `_swpercentile_rem_pipe` whose counters fit always returns: the key is taken
from both halves, and then the upper one is drained or the halves are balanced. -/
theorem swpercentileRemPipe_spec (order : TotalOrder cmp) (h : Core cmp this mem lo hi lag1 lag2)
    (item : D) (hmaxFits : -2147483648 ≤ refsAfter cmp this.maxtree mem item)
    (hminFits : -2147483648 ≤ refsAfter cmp this.mintree mem item) :
    ∃ this1 mem1 lag1' lag2' this' mem' lo' hi',
      swpercentileRemPipe cmp this mem item = some (this', mem') ∧
      Taken cmp this mem lo hi lag1 lag2 item this1 mem1 lag1' lag2' ∧
      Moved cmp this1 (Tally.takeOne cmp item lo) (Tally.takeOne cmp item hi) lag1' lag2'
        this' mem' lo' hi' ∧
      (count this1 < this1.required → this'.mnc.toInt = min this1.mnc.toInt 0) ∧
      (this1.required ≤ count this1 →
        Balanced this1 this'.mxc.toInt (Tally.takeOne cmp item lo) lo' (Tally.takeOne cmp item hi) hi') := by
  obtain ⟨this1, mem1, lag1', lag2', htake, htaken⟩ := takeItem_spec order h item hmaxFits hminFits
  obtain ⟨this', mem', lo', hi', hend, hmoved, hshort, hfull⟩ := drainSettle_spec order htaken.core
  refine ⟨this1, mem1, lag1', lag2', this', mem', lo', hi', ?_, htaken, hmoved, hshort, hfull⟩
  rw [swpercentileRemPipe, htake]
  exact hend

omit [Doubles F] in
/-- What the guard says about an insertion. -/
theorem CountersFit.add {w : Window F D} {item : D} (h : CountersFit cmp w (.add item))
    (hcore : Core cmp w.plugin w.mem lo hi lag1 lag2) : Tally.total lo + Tally.total hi + 1 < 2147483648 := by
  rw [CountersFit, hcore.halves.storedRefs, hcore.halves.swap.storedRefs] at h
  exact h

/-- A removal of an item whose counters fit returns. -/
theorem rem_returns (order : TotalOrder cmp) {w : Window F D} {live : List D}
    (h : Core cmp w.plugin w.mem lo hi lag1 lag2) (hlive : w.live = item :: live)
    (hmaxFits : -2147483648 ≤ refsAfter cmp w.plugin.maxtree w.mem item)
    (hminFits : -2147483648 ≤ refsAfter cmp w.plugin.mintree w.mem item) :
    windowStep cmp w .rem ≠ none := by
  obtain ⟨_, _, _, _, this', mem', _, _, hrun, -⟩ := swpercentileRemPipe_spec order h item hmaxFits hminFits
  simp [windowStep, hlive, hrun]

/-- Among the removals whose counters fit only one from an empty window has no result. -/
theorem rem_fault (order : TotalOrder cmp) {w : Window F D}
    (h : Core cmp w.plugin w.mem lo hi lag1 lag2) (hfits : CountersFit cmp w .rem)
    (hfault : windowStep cmp w .rem = none) : w.live = [] := by
  cases hlive : w.live with
  | nil => rfl
  | cons item live =>
    rw [CountersFit, hlive] at hfits
    obtain ⟨hmax, hmin, -⟩ := hfits item rfl
    exact absurd hfault (rem_returns order h hlive hmax hmin)

end Devclego.Percentile
