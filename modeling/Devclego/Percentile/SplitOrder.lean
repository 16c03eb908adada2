import Devclego.Percentile.Calls

/-!
# The split of the window

The halves stay ordered in every run, since placements respect the order and all
else is a shift. That the upper half is empty during the warm-up rests on the drain
loop, which trusts the counter of `mintree`: it stops too early exactly when the
tree holds more than is counted. The counters are words, and the windows are those whose
counters stay in them.
-/
namespace Devclego.Percentile

open Foundation Devclego.Tree

variable {F D : Type}

/-- No key of `maxtree` exceeds one of `mintree`, which is empty during the
warm-up. -/
def SplitRight (cmp : D → D → Int) (w : Window F D) : Prop :=
  ∃ lo hi, Halves cmp w.plugin.maxtree w.plugin.mintree w.mem lo hi ∧ Ordered cmp lo hi ∧
    (count w.plugin < w.plugin.required → hi = [])

/-- The references that a deletion leaves. -/
def storedAfter (cmp : D → D → Int) (this : Bintree D) (mem : Mem D) (item : D) : Int :=
  storedRefs this mem - if (storedRef cmp this mem item).isSome then 1 else 0

/-- If the deletions leave fewer than required, then `mintree` stores no more than it
counts, or nothing. -/
def DrainEmpties (cmp : D → D → Int) (w : Window F D) : Event D → Prop
  | .add _ => True
  | .rem => ∀ item ∈ w.live.head?,
      refsAfter cmp w.plugin.maxtree w.mem item + refsAfter cmp w.plugin.mintree w.mem item <
        w.plugin.required →
      storedAfter cmp w.plugin.mintree w.mem item ≤ max (refsAfter cmp w.plugin.mintree w.mem item) 0

instance (cmp : D → D → Int) (w : Window F D) (e : Event D) : Decidable (DrainEmpties cmp w e) :=
  match e with
  | .add _ => isTrue trivial
  | .rem => inferInstanceAs (Decidable (∀ item ∈ w.live.head?, _ → _))

variable {cmp : D → D → Int} {mem : Mem D} {one two : Bintree D} {lo hi lo' hi' : List (Entry D)}

theorem Halves.storedAfter (order : TotalOrder cmp) (h : Halves cmp one two mem lo hi) (item : D) :
    storedAfter cmp one mem item = Tally.total (Tally.takeOne cmp item lo) := by
  have hheld := congrArg Option.isSome (h.storedRef order item)
  rw [Option.isSome_map, Option.isSome_map] at hheld
  rw [Percentile.storedAfter, h.storedRefs, Tally.total_takeOne order h.wf.1, hheld]

/-- The halves are determined by the trees. -/
theorem Halves.unique (h : Halves cmp one two mem lo hi) (h' : Halves cmp one two mem lo' hi') :
    lo = lo' ∧ hi = hi' := by
  obtain ⟨t1, q1, t2, q2, hap, -, -, -, -, rfl, rfl⟩ := h
  obtain ⟨t1', q1', t2', q2', hap', -, -, -, -, rfl, rfl⟩ := h'
  rw [hap.first.holds.unique nodeCell_inj hap'.first.holds (hap.first.root.symm.trans hap'.first.root),
    hap.second.holds.unique nodeCell_inj hap'.second.holds (hap.second.root.symm.trans hap'.second.root)]
  exact ⟨rfl, rfl⟩

theorem ordered_takeOne (ho : Ordered cmp lo hi) (item : D) :
    Ordered cmp (Tally.takeOne cmp item lo) (Tally.takeOne cmp item hi) := by
  intro u hu v hv
  obtain ⟨u', hu', hue⟩ := Tally.mem_adjust Tally.proper_lessOne hu
  obtain ⟨v', hv', hve⟩ := Tally.mem_adjust Tally.proper_lessOne hv
  rw [hue, hve]
  exact ho u' hu' v' hv'

/-- A well-formed tally of total at most zero is empty. -/
theorem eq_nil_of_total (h : Tally.Wf cmp hi) (h0 : Tally.total hi ≤ 0) : hi = [] := by
  have hlen := h.length_le_total
  exact List.length_eq_zero_iff.mp (by omega)

/-! ## The invariant -/

def Split (cmp : D → D → Int) (w : Window F D) : Prop :=
  ∃ lo hi lag1 lag2, Core cmp w.plugin w.mem lo hi lag1 lag2 ∧ Ordered cmp lo hi ∧
    -2147483648 ≤ w.plugin.mxc.toInt + w.plugin.mnc.toInt ∧ (count w.plugin < w.plugin.required → hi = [])

theorem Split.right {w : Window F D} (h : Split cmp w) : SplitRight cmp w := by
  obtain ⟨lo, hi, lag1, lag2, hcore, ho, -, hshort⟩ := h
  exact ⟨lo, hi, hcore.halves, ho, hshort⟩

variable [Doubles F]

theorem split_make (percentile : Int) (mem : Mem D) :
    Split cmp (makeWindow percentile mem : Window F D) :=
  ⟨[], [], 0, 0, core_make percentile mem, by simp [Ordered],
    show (-2147483648 : Int) ≤ (0 : Int32).toInt + (0 : Int32).toInt by decide, fun _ => rfl⟩

theorem add_split (order : TotalOrder cmp) {w w' : Window F D} {item : D}
    {c : Swpercentilecandidates D} (h : Split cmp w) (hfits : CountersFit cmp w (.add item))
    (hstep : windowStep cmp w (.add item) = some (w', c)) : Split cmp w' := by
  obtain ⟨lo, hi, lag1, lag2, hcore, ho, hword, hshort⟩ := h
  rcases swpercentileAddPipe_spec order hcore item (hfits.add hcore) with ⟨-, -, hrun⟩ |
    ⟨this1, mem1, lo1, hi1, this', mem', lo', hi', hrun, hadd, hmoved, hbal⟩
  · simp [windowStep, hrun] at hstep
  · simp only [windowStep, hrun, Option.map_some, Option.some.injEq, Prod.mk.injEq] at hstep
    obtain ⟨rfl, -⟩ := hstep
    obtain ⟨hlo1, hhi1⟩ := hadd.core.halves.wf
    have hsum1 := hadd.sum
    have hsum := hmoved.sum
    refine ⟨lo', hi', lag1, lag2, hmoved.core,
      hmoved.shifts.ordered order hlo1 hhi1 (hadd.put.ordered order hcore.halves.wf.1 ho hshort),
      show _ ≤ this'.mxc.toInt + this'.mnc.toInt by omega, fun hs' => ?_⟩
    change count this' < this'.required at hs'
    have hreq := hadd.settings.required
    have hreq' := hmoved.settings.required
    have hcount := hcore.count_cases
    have hcount1 := hadd.core.count_cases
    have hcount' := hmoved.count
    cases hbal with
    | short _ _ hhi' =>
      rw [hhi']
      cases hadd.put with
      | warmUp hw => exact hshort hw
      | lower => omega
      | upper => omega
    | lowered hf => omega
    | raised hf => omega

/-- A removal leaves the halves split exactly when the drain loop empties `mintree`. -/
theorem rem_split (order : TotalOrder cmp) {w w' : Window F D} {c : Swpercentilecandidates D}
    (h : Split cmp w) (hfits : CountersFit cmp w .rem) (hstep : windowStep cmp w .rem = some (w', c)) :
    (DrainEmpties cmp w .rem → Split cmp w') ∧ (SplitRight cmp w' → DrainEmpties cmp w .rem) := by
  obtain ⟨lo, hi, lag1, lag2, hcore, ho, -, -⟩ := h
  cases hlive : w.live with
  | nil => simp [windowStep, hlive] at hstep
  | cons item live =>
    rw [CountersFit, hlive] at hfits
    obtain ⟨hmaxFits, hminFits, hsumFits⟩ := hfits item rfl
    obtain ⟨this1, mem1, lag1', lag2', this', mem', lo', hi', hrun, htaken, hmoved, hdone, -⟩ :=
      swpercentileRemPipe_spec order hcore item hmaxFits hminFits
    simp only [windowStep, hlive, hrun, Option.map_some, Option.some.injEq, Prod.mk.injEq] at hstep
    obtain ⟨rfl, -⟩ := hstep
    obtain ⟨hlo, hhi⟩ := hcore.halves.wf
    have hmxc := htaken.mxc
    have hmnc := htaken.mnc
    have hcount1 : count this1 = this1.mxc.toInt + this1.mnc.toInt := by
      have hcases := htaken.core.count_cases
      omega
    have hguard : DrainEmpties cmp w .rem ↔ (count this1 < this1.required →
        Tally.total (Tally.takeOne cmp item hi) ≤ max this1.mnc.toInt 0) := by
      rw [hcount1, hmxc, hmnc, htaken.settings.required]
      simp only [DrainEmpties, hlive, List.head?_cons, Option.mem_def, Option.some.injEq, forall_eq',
        hcore.halves.swap.storedAfter order]
    have hsum := hmoved.sum
    have hcount := hmoved.count
    have hreq := hmoved.settings.required
    have hhl := htaken.core.hiLag
    have hhl' := hmoved.core.hiLag
    rw [hguard]
    constructor
    · intro hdrain
      refine ⟨lo', hi', lag1', lag2', hmoved.core,
        hmoved.shifts.ordered order (hlo.takeOne order item) (hhi.takeOne order item)
          (ordered_takeOne ho item), show _ ≤ this'.mxc.toInt + this'.mnc.toInt by omega, fun hs' => ?_⟩
      change count this' < this'.required at hs'
      have hmnc := hdone (by omega)
      have hkept := hdrain (by omega)
      exact eq_nil_of_total hmoved.core.halves.wf.2 (by omega)
    · intro hright hs
      obtain ⟨lo2, hi2, hhalves, -, hempty⟩ := hright
      change count this' < this'.required → hi2 = [] at hempty
      have hmnc := hdone hs
      have hnil := hempty (by omega)
      rw [(hmoved.core.halves.unique hhalves).2, hnil, Tally.total_nil] at hhl'
      omega

theorem step_split (order : TotalOrder cmp) (w : Window F D) (e : Event D) (w' : Window F D)
    (c : Swpercentilecandidates D) (h : Split cmp w) (hfits : CountersFit cmp w e)
    (hstep : windowStep cmp w e = some (w', c)) :
    (DrainEmpties cmp w e → Split cmp w') ∧ (SplitRight cmp w' → DrainEmpties cmp w e) := by
  cases e with
  | add item => exact ⟨fun _ => add_split order h hfits hstep, fun _ => trivial⟩
  | rem => exact rem_split order h hfits hstep

theorem fault_drainEmpties (order : TotalOrder cmp) (w : Window F D) (e : Event D) (h : Split cmp w)
    (hfits : CountersFit cmp w e) (hfault : windowStep cmp w e = none) : DrainEmpties cmp w e := by
  cases e with
  | add item => trivial
  | rem =>
    obtain ⟨lo, hi, lag1, lag2, hcore, -, -⟩ := h
    simp [DrainEmpties, rem_fault order hcore hfits hfault]

/-! ## Runs -/

/-- As long as the counters fit, every state reached by the calls of a window is split
right exactly when every removal that runs short drains `mintree`. -/
theorem window_split_iff (order : TotalOrder cmp) (percentile : Int) (mem : Mem D)
    (events : List (Event D))
    (hfits : Guarded (windowStep cmp) (CountersFit cmp) (makeWindow percentile mem : Window F D) events) :
    (∀ k w cs, run (windowStep cmp) (makeWindow percentile mem : Window F D) (events.take k) =
      some (w, cs) → SplitRight cmp w) ↔
      Guarded (windowStep cmp) (DrainEmpties cmp) (makeWindow percentile mem : Window F D) events :=
  prefixes_iff_guarded_within (fun _ h => h.right) (step_split order) (fault_drainEmpties order)
    (split_make percentile mem) hfits

/-- The window shrinks below `required` and grows again, with equal items. -/
theorem window_split_iff_run :
    Guarded (windowStep bintreecmpInt32) (DrainEmpties bintreecmpInt32)
        (makeWindow 50 ⟨[]⟩ : Window Exact Int)
        [.add 4, .add 9, .add 4, .rem, .rem, .add 7, .add 7, .rem] ∧
      ∀ k w cs, run (windowStep bintreecmpInt32) (makeWindow 50 ⟨[]⟩ : Window Exact Int)
        ([.add 4, .add 9, .add 4, .rem, .rem, .add 7, .add 7, .rem].take k) = some (w, cs) →
          SplitRight bintreecmpInt32 w := by
  rw [window_split_iff bintreecmpInt32_order 50 ⟨[]⟩ _ (by decide +kernel), and_self]
  decide +kernel

/-- A miscounted deletion leaves the counter of `mintree` one short, and the drain
loop leaves the item 3 behind. -/
theorem drain_leaves_item :
    ∃ w cs, run (windowStep bintreecmpInt32) (makeWindow 50 ⟨[]⟩ : Window Exact Int)
        [.add 1, .add 4, .add 5, .add 2, .add 3, .rem, .add 2, .add 2, .add 3, .rem, .rem, .rem, .rem] =
          some (w, cs) ∧ ¬ SplitRight bintreecmpInt32 w := by
  have hleft : (run (windowStep bintreecmpInt32) (makeWindow 50 ⟨[]⟩ : Window Exact Int)
      [.add 1, .add 4, .add 5, .add 2, .add 3, .rem, .add 2, .add 2, .add 3, .rem, .rem, .rem, .rem]).map
        (fun r => (count r.1.plugin, r.1.plugin.required,
          bintreeGetNodenum r.1.plugin.mintree)) = some (1, 2, 1) := by decide +kernel
  obtain ⟨⟨w, cs⟩, hrun, hw⟩ := Option.map_eq_some_iff.mp hleft
  refine ⟨w, cs, hrun, ?_⟩
  intro hright
  obtain ⟨lo, hi, hhalves, -, hempty⟩ := hright
  obtain ⟨hsum, hrest⟩ := Prod.mk.inj hw
  obtain ⟨hreq, hnodes⟩ := Prod.mk.inj hrest
  have hlen := hhalves.swap.nodenum
  rw [hempty (by rw [hsum, hreq]; decide), hnodes] at hlen
  cases hlen

end Devclego.Percentile
