import Devclego.Percentile.Calls

/-!
# The window is conserved

The trees hold what is live as long as the live items fit in the counters and every
removal takes one occurrence and counts one. It does not when the key sits in both
trees, or when a tree counts the deletion wrong, and then the counters are off at once:
among windows that fit the condition is exact.
-/
namespace Devclego.Percentile

open Foundation Devclego.Tree

variable {F D : Type}

/-- How many live items have the key `k`. -/
def liveCount (cmp : D → D → Int) (live : List D) (k : D) : Int :=
  ((live.countP fun d => decide (cmp k d = 0) : Nat) : Int)

/-- Both trees together hold the live keys, `Mxc` and `Mnc` are their sizes, and the sum
that the code forms is the number of live items. -/
def Conserved (cmp : D → D → Int) (w : Window F D) : Prop :=
  ∃ lo hi, Halves cmp w.plugin.maxtree w.plugin.mintree w.mem lo hi ∧
    (∀ k, Tally.mult cmp lo k + Tally.mult cmp hi k = liveCount cmp w.live k) ∧
    w.plugin.mxc.toInt = Tally.total lo ∧ w.plugin.mnc.toInt = Tally.total hi ∧
    (w.plugin.mxc + w.plugin.mnc).toInt = w.live.length

/-- An insertion leaves a number of live items that the counters can hold. -/
def RoomLeft (w : Window F D) : Event D → Prop
  | .add _ => w.live.length + 1 < 2147483648
  | .rem => True

instance (w : Window F D) (e : Event D) : Decidable (RoomLeft w e) :=
  match e with
  | .add _ => inferInstanceAs (Decidable (_ < _))
  | .rem => isTrue trivial

/-- A removal finds its key in one tree at most, and both deletions count right. -/
def RemovesOne (cmp : D → D → Int) (w : Window F D) : Event D → Prop
  | .add _ => True
  | .rem => ∀ item ∈ w.live.head?,
      (storedRef cmp w.plugin.maxtree w.mem item = none ∨
        storedRef cmp w.plugin.mintree w.mem item = none) ∧
      CountsRight cmp (w.plugin.maxtree, w.mem) (.deleteValue item) ∧
      CountsRight cmp (w.plugin.mintree, w.mem) (.deleteValue item)

instance (cmp : D → D → Int) (w : Window F D) (e : Event D) : Decidable (RemovesOne cmp w e) :=
  match e with
  | .add _ => isTrue trivial
  | .rem => inferInstanceAs (Decidable (∀ item ∈ w.live.head?, _ ∧ _ ∧ _))

variable {cmp : D → D → Int} {xs : List (Entry D)}

theorem liveCount_append (live : List D) (item k : D) :
    liveCount cmp (live ++ [item]) k = liveCount cmp live k + if cmp k item = 0 then 1 else 0 := by
  by_cases hk : cmp k item = 0
  · simp [liveCount, hk]
  · simp [liveCount, hk]

theorem liveCount_cons (live : List D) (item k : D) :
    liveCount cmp (item :: live) k = liveCount cmp live k + if cmp k item = 0 then 1 else 0 := by
  by_cases hk : cmp k item = 0
  · simp [liveCount, hk]
  · simp [liveCount, hk]

theorem mult_taken (order : TotalOrder cmp) (h : Tally.Wf cmp xs) (item k : D) :
    Tally.mult cmp (Tally.takeOne cmp item xs) k =
      Tally.mult cmp xs k - if cmp k item = 0 then held cmp xs item else 0 := by
  rw [Tally.mult_takeOne order h, held]
  by_cases hk : cmp k item = 0
  · simp [hk, Tally.find_congr order hk]
  · simp [hk]

theorem held_le_one (cmp : D → D → Int) (xs : List (Entry D)) (k : D) : held cmp xs k ≤ 1 := by
  unfold held
  split <;> decide

theorem held_of_mult_pos (h : Tally.Wf cmp xs) {k : D} (hk : 0 < Tally.mult cmp xs k) :
    held cmp xs k = 1 := by
  rw [held, if_pos ((h.mult_pos_iff k).mp hk)]

variable {mem : Mem D} {lo hi : List (Entry D)} {one two : Bintree D} {this : Swpercentile F D}

theorem Halves.storedRef_none_iff (order : TotalOrder cmp) (h : Halves cmp one two mem lo hi) (k : D) :
    Tree.storedRef cmp one mem k = none ↔ held cmp lo k = 0 := by
  have href := h.storedRef order k
  rw [held]
  cases hf : Tally.find cmp lo k with
  | none =>
    rw [hf] at href
    simpa using href
  | some e =>
    rw [hf] at href
    obtain ⟨r, hr, -⟩ := Option.map_eq_some_iff.mp href
    simp [hr]

/-- A deletion counts right exactly when it counts what it takes. -/
theorem Halves.countsRight_iff (order : TotalOrder cmp) (h : Halves cmp one two mem lo hi) (item : D) :
    CountsRight cmp (one, mem) (.deleteValue item) ↔
      (deletedRefs cmp one mem item).toInt = held cmp lo item := by
  constructor
  · exact h.deletedRefs_right order
  · intro hdel hstored
    have hne : held cmp lo item ≠ 0 := fun h0 => by
      rw [(h.storedRef_none_iff order item).mpr h0] at hstored
      cases hstored
    have hone : held cmp lo item = 1 := by
      unfold held at hne ⊢
      split
      · rfl
      · simp_all
    rw [hone] at hdel
    have hdel' : deletedRefs cmp one mem item = 1 := Int32.toInt.inj hdel
    rw [deletedRefs, hstored] at hdel'
    cases hu : unlinkedRef cmp one mem item with
    | none => simp [hu] at hdel'
    | some u => simpa [hu] using hdel'

/-! ## The invariant -/

/-- The counters are the sizes of two halves that hold the live items. -/
def Accounted (cmp : D → D → Int) (w : Window F D) : Prop :=
  ∃ lo hi, Core cmp w.plugin w.mem lo hi 0 0 ∧
    (∀ k, Tally.mult cmp lo k + Tally.mult cmp hi k = liveCount cmp w.live k) ∧
    w.plugin.mxc.toInt + w.plugin.mnc.toInt = w.live.length

theorem Accounted.conserved {w : Window F D} (h : Accounted cmp w) : Conserved cmp w := by
  obtain ⟨lo, hi, hcore, hmult, hsum⟩ := h
  have hlo := hcore.loLag
  have hhi := hcore.hiLag
  have hcount := hcore.count_cases
  exact ⟨lo, hi, hcore.halves, hmult, by omega, by omega, show count w.plugin = _ by omega⟩

/-- The halves hold as many items as are live. -/
theorem Core.totals (h : Core cmp this mem lo hi 0 0) : Tally.total lo + Tally.total hi = this.mxc.toInt + this.mnc.toInt := by
  have hlo := h.loLag
  have hhi := h.hiLag
  omega

variable [Doubles F]

theorem accounted_make (percentile : Int) (mem : Mem D) :
    Accounted cmp (makeWindow percentile mem : Window F D) :=
  ⟨[], [], core_make percentile mem, fun _ => rfl, rfl⟩

theorem add_accounted (order : TotalOrder cmp) {w w' : Window F D} {item : D}
    {c : Swpercentilecandidates D} (h : Accounted cmp w) (hroom : RoomLeft w (.add item))
    (hstep : windowStep cmp w (.add item) = some (w', c)) : Accounted cmp w' := by
  obtain ⟨lo, hi, hcore, hmult, hsum⟩ := h
  have htotals := hcore.totals
  have hlength : w.live.length + 1 < 2147483648 := hroom
  rcases swpercentileAddPipe_spec order hcore item (by omega) with ⟨-, -, hrun⟩ |
    ⟨this1, mem1, lo1, hi1, this', mem', lo', hi', hrun, hadd, hmoved, -⟩
  · simp [windowStep, hrun] at hstep
  · simp only [windowStep, hrun, Option.map_some, Option.some.injEq, Prod.mk.injEq] at hstep
    obtain ⟨rfl, -⟩ := hstep
    obtain ⟨hlo, hhi⟩ := hcore.halves.wf
    obtain ⟨hlo1, hhi1⟩ := hadd.core.halves.wf
    refine ⟨lo', hi', hmoved.core, fun k => ?_, ?_⟩
    · calc Tally.mult cmp lo' k + Tally.mult cmp hi' k
        _ = Tally.mult cmp lo1 k + Tally.mult cmp hi1 k := hmoved.shifts.mult order hlo1 hhi1 k
        _ = Tally.mult cmp lo k + Tally.mult cmp hi k + if cmp k item = 0 then 1 else 0 :=
          hadd.put.mult order hlo hhi k
        _ = liveCount cmp (w.live ++ [item]) k := by rw [hmult, liveCount_append]
    · change this'.mxc.toInt + this'.mnc.toInt = _
      rw [hmoved.sum, hadd.sum, hsum]
      simp

/-- The key of a live item is held by one of the halves. -/
theorem held_of_live (order : TotalOrder cmp) {live : List D} {item : D} (hlo : Tally.Wf cmp lo)
    (hhi : Tally.Wf cmp hi)
    (hmult : Tally.mult cmp lo item + Tally.mult cmp hi item = liveCount cmp (item :: live) item) :
    1 ≤ held cmp lo item + held cmp hi item := by
  rw [liveCount_cons, if_pos (order.refl item)] at hmult
  have hlo0 := held_nonneg cmp lo item
  have hhi0 := held_nonneg cmp hi item
  unfold liveCount at hmult
  by_cases hpos : 0 < Tally.mult cmp lo item
  · rw [held_of_mult_pos hlo hpos]
    omega
  · rw [held_of_mult_pos hhi (by omega)]
    omega

/-- A key that one half holds loses one occurrence in both together. -/
theorem mult_taken_both (order : TotalOrder cmp) {item : D} (hlo : Tally.Wf cmp lo) (hhi : Tally.Wf cmp hi)
    (hone : held cmp lo item + held cmp hi item = 1) (k : D) :
    Tally.mult cmp (Tally.takeOne cmp item lo) k + Tally.mult cmp (Tally.takeOne cmp item hi) k =
      Tally.mult cmp lo k + Tally.mult cmp hi k - if cmp k item = 0 then 1 else 0 := by
  rw [mult_taken order hlo, mult_taken order hhi]
  by_cases hk : cmp k item = 0
  · simp only [hk, ↓reduceIte]
    omega
  · simp only [hk, ↓reduceIte]
    omega

omit [Doubles F] in
theorem removesOne_iff (order : TotalOrder cmp) {w : Window F D} {item : D} {live : List D}
    (h : Halves cmp w.plugin.maxtree w.plugin.mintree w.mem lo hi) (hlive : w.live = item :: live) :
    RemovesOne cmp w .rem ↔
      (deletedRefs cmp w.plugin.maxtree w.mem item).toInt = held cmp lo item ∧
      (deletedRefs cmp w.plugin.mintree w.mem item).toInt = held cmp hi item ∧
      (held cmp lo item = 0 ∨ held cmp hi item = 0) := by
  simp only [RemovesOne, hlive, List.head?_cons, Option.mem_def, Option.some.injEq, forall_eq',
    h.countsRight_iff order, h.swap.countsRight_iff order, h.storedRef_none_iff order,
    h.swap.storedRef_none_iff order]
  tauto

omit [Doubles F] in
/-- The counters of an accounted window stay in the word when a key is deleted. -/
theorem Core.refsAfter_ge (h : Core cmp this mem lo hi 0 0) (item : D) :
    -2147483648 ≤ refsAfter cmp this.maxtree mem item ∧ -2147483648 ≤ refsAfter cmp this.mintree mem item := by
  obtain ⟨hlo0, hhi0⟩ := h.totals_nonneg
  have hlo := h.loLag
  have hhi := h.hiLag
  have hmax := toInt_bounds (deletedRefs cmp this.maxtree mem item)
  have hmin := toInt_bounds (deletedRefs cmp this.mintree mem item)
  rw [refsAfter, refsAfter, ← h.mxc, ← h.mnc]
  omega

/-- A removal leaves the counters at the sizes exactly when it takes one occurrence
and counts one. -/
theorem rem_accounted (order : TotalOrder cmp) {w w' : Window F D} {c : Swpercentilecandidates D}
    (h : Accounted cmp w) (hstep : windowStep cmp w .rem = some (w', c)) :
    (RemovesOne cmp w .rem → Accounted cmp w') ∧ (Conserved cmp w' → RemovesOne cmp w .rem) := by
  obtain ⟨lo, hi, hcore, hmult, hsum⟩ := h
  cases hlive : w.live with
  | nil => simp [windowStep, hlive] at hstep
  | cons item live =>
    obtain ⟨hmaxFits, hminFits⟩ := hcore.refsAfter_ge item
    obtain ⟨this1, mem1, lag1', lag2', this', mem', lo', hi', hrun, ht, hmoved, -, -⟩ :=
      swpercentileRemPipe_spec order hcore item hmaxFits hminFits
    simp only [windowStep, hlive, hrun, Option.map_some, Option.some.injEq, Prod.mk.injEq] at hstep
    obtain ⟨rfl, -⟩ := hstep
    rw [hlive] at hmult hsum
    rw [List.length_cons] at hsum
    rw [removesOne_iff order hcore.halves hlive]
    obtain ⟨hlo, hhi⟩ := hcore.halves.wf
    have hheld := held_of_live order hlo hhi (hmult item)
    have hle1 := held_le_one cmp lo item
    have hle2 := held_le_one cmp hi item
    have hsum' : this'.mxc.toInt + this'.mnc.toInt = this1.mxc.toInt + this1.mnc.toInt := hmoved.sum
    have hmxc := ht.mxc
    have hmnc := ht.mnc
    have hll := ht.loLag
    have hhl := ht.hiLag
    rw [refsAfter, ← hcore.mxc] at hmxc
    rw [refsAfter, ← hcore.mnc] at hmnc
    constructor
    · intro hcond
      obtain ⟨hdlo, hdhi, hone⟩ := hcond
      obtain rfl : lag1' = 0 := by omega
      obtain rfl : lag2' = 0 := by omega
      refine ⟨lo', hi', hmoved.core, fun k => ?_, ?_⟩
      · rw [hmoved.shifts.mult order (hlo.takeOne order item) (hhi.takeOne order item) k,
          mult_taken_both order hlo hhi (by omega) k, hmult k, liveCount_cons]
        exact Int.add_sub_cancel _ _
      · change this'.mxc.toInt + this'.mnc.toInt = live.length
        omega
    · intro hcons
      obtain ⟨-, -, -, -, -, -, hsize⟩ := hcons
      change count this' = live.length at hsize
      -- what is counted is never less than what is taken, and one of the halves holds the key
      have hge1 : held cmp lo item ≤ (deletedRefs cmp w.plugin.maxtree w.mem item).toInt :=
        hcore.halves.deletedRefs_ge order item
      have hge2 : held cmp hi item ≤ (deletedRefs cmp w.plugin.mintree w.mem item).toInt :=
        hcore.halves.swap.deletedRefs_ge order item
      have hlo0 := held_nonneg cmp lo item
      have hhi0 := held_nonneg cmp hi item
      -- a sum that wraps would need more than two words can count
      have hcount := hmoved.core.count_cases
      have hword1 := toInt_bounds (deletedRefs cmp w.plugin.maxtree w.mem item)
      have hword2 := toInt_bounds (deletedRefs cmp w.plugin.mintree w.mem item)
      omega

theorem step_accounted (order : TotalOrder cmp) (w : Window F D) (e : Event D) (w' : Window F D)
    (c : Swpercentilecandidates D) (h : Accounted cmp w) (hroom : RoomLeft w e)
    (hstep : windowStep cmp w e = some (w', c)) :
    (RemovesOne cmp w e → Accounted cmp w') ∧ (Conserved cmp w' → RemovesOne cmp w e) := by
  cases e with
  | add item => exact ⟨fun _ => add_accounted order h hroom hstep, fun _ => trivial⟩
  | rem => exact rem_accounted order h hstep

theorem fault_removesOne (order : TotalOrder cmp) (w : Window F D) (e : Event D) (h : Accounted cmp w)
    (hfault : windowStep cmp w e = none) : RemovesOne cmp w e := by
  cases e with
  | add item => trivial
  | rem =>
    obtain ⟨lo, hi, hcore, -, -⟩ := h
    have hlive : w.live = [] := by
      cases hl : w.live with
      | nil => rfl
      | cons item live =>
        obtain ⟨hmax, hmin⟩ := hcore.refsAfter_ge item
        exact absurd hfault (rem_returns order hcore hl hmax hmin)
    simp [RemovesOne, hlive]

/-! ## Runs -/

/-- As long as the live items fit in the counters, every state reached by the calls of a
window is conserved exactly when every removal takes one occurrence and counts one. -/
theorem window_conserved_iff (order : TotalOrder cmp) (percentile : Int) (mem : Mem D)
    (events : List (Event D))
    (hroom : Guarded (windowStep cmp) RoomLeft (makeWindow percentile mem : Window F D) events) :
    (∀ k w cs, run (windowStep cmp) (makeWindow percentile mem : Window F D) (events.take k) =
      some (w, cs) → Conserved cmp w) ↔
      Guarded (windowStep cmp) (RemovesOne cmp) (makeWindow percentile mem : Window F D) events :=
  prefixes_iff_guarded_within (fun _ h => h.conserved) (step_accounted order)
    (fun w e h _ => fault_removesOne order w e h) (accounted_make percentile mem) hroom

theorem window_conserved_iff_run :
    Guarded (windowStep bintreecmpInt32) (RemovesOne bintreecmpInt32)
        (makeWindow 50 ⟨[]⟩ : Window Exact Int) [.add 4, .add 9, .add 4, .rem, .add 7, .rem] ∧
      ∀ k w cs, run (windowStep bintreecmpInt32) (makeWindow 50 ⟨[]⟩ : Window Exact Int)
        ([.add 4, .add 9, .add 4, .rem, .add 7, .rem].take k) = some (w, cs) →
          Conserved bintreecmpInt32 w := by
  rw [window_conserved_iff bintreecmpInt32_order 50 ⟨[]⟩ _ (by decide +kernel), and_self]
  decide +kernel

/-- Two equal items end up in different trees, and one removal deletes both. -/
theorem removal_deletes_twice :
    ∃ w cs, run (windowStep bintreecmpInt32) (makeWindow 50 ⟨[]⟩ : Window Exact Int)
        [.add 1, .add 1, .rem] = some (w, cs) ∧ ¬ Conserved bintreecmpInt32 w := by
  have hsizes : (run (windowStep bintreecmpInt32) (makeWindow 50 ⟨[]⟩ : Window Exact Int)
      [.add 1, .add 1, .rem]).map (fun r => ((r.1.plugin.mxc + r.1.plugin.mnc).toInt, r.1.live.length)) =
        some (0, 1) := by decide +kernel
  obtain ⟨⟨w, cs⟩, hrun, hw⟩ := Option.map_eq_some_iff.mp hsizes
  refine ⟨w, cs, hrun, ?_⟩
  intro hcons
  obtain ⟨lo, hi, -, -, -, -, hsum⟩ := hcons
  obtain ⟨hzero, hone⟩ := Prod.mk.inj hw
  rw [hzero, hone] at hsum
  cases hsum

end Devclego.Percentile
