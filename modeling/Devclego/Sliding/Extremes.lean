import Devclego.Foundation.Newest
import Devclego.Sliding.Minmax
import Devclego.Sliding.Observers
import Devclego.Sliding.Protocol
import Devclego.Tree.FiniteMap

/-!
# The extremes that the min/max plugin reports

The tree of the plugin summarises the queue of the live pointers: for every value it
holds the newest pointer to it. So no datum of the tree is a pointer that has left,
a store changes no key of the tree, and its ends are the extremes of the live values.
A live item is a pointer with the value that was passed in for it. The longest window has
no storage and faults.
-/
namespace Devclego.Sliding

open Foundation Devclego.Puffers Devclego.Tree

variable {κ : Type}

/-- Every live item is a slot that still holds the value passed in for it. The statistics are
null when nothing is live, and else are slots of live items with an extreme value. -/
structure ReportRight (r : MinmaxReport) (live : List (IntRef × Int)) : Prop where
  stored : ∀ u ∈ live, (∃ i, u.1 = .slot i) ∧ u.1.deref r.storage = some u.2
  min_null : r.stat.min = none ↔ live = []
  max_null : r.stat.max = none ↔ live = []
  min_least : ∀ p, r.stat.min = some p → ∃ value, (p, value) ∈ live ∧ ∀ u ∈ live, value ≤ u.2
  max_greatest : ∀ p, r.stat.max = some p → ∃ value, (p, value) ∈ live ∧ ∀ u ∈ live, u.2 ≤ value

/-- The callback was given right statistics at every call of the pipes: the events add the values
that were passed in, take the oldest first and leave the items of `live`. -/
structure MinmaxRight (minmaxPipe : Option (κ → MinmaxReport → κ)) (minmaxData : κ) (passed : List Int)
    (this : Swminmax κ) (live : List (IntRef × Int)) (events : List (Kind × (IntRef × Int)))
    (reports : List MinmaxReport) : Prop where
  announced : (added events).map Prod.snd = passed
  reported : Reported minmaxPipe minmaxData ReportRight this.minmaxData live events reports

/-! ## The comparator -/

theorem cmpAt_order (storage : Swstorage) : TotalOrder (cmpAt storage) where
  antisymm _ _ := bintreecmpInt32_order.antisymm _ _
  trans _ _ _ := bintreecmpInt32_order.trans _ _ _

theorem cmpAt_nonpos {storage : Swstorage} {a b : IntRef} {x y : Int} (ha : a.deref storage = some x)
    (hb : b.deref storage = some y) : cmpAt storage a b ≤ 0 ↔ x ≤ y := by
  rw [cmpAt, ha, hb, Option.getD_some, Option.getD_some, bintreecmpInt32]
  split <;> [skip; split] <;> omega

theorem cmpAt_congr {storage storage' : Swstorage} {a b : IntRef} (ha : a.deref storage' = a.deref storage)
    (hb : b.deref storage' = b.deref storage) : cmpAt storage' a b = cmpAt storage a b := by
  rw [cmpAt, cmpAt, ha, hb]

/-! ## The plugin -/

/-- What the ends of the tree say. -/
def treeStat (t : Shape (Stored IntRef)) : Swminmaxstat where
  min := t.vals.head?.map Entry.data
  max := t.vals.getLast?.map Entry.data

/-- The tree of the plugin is that of its live pointers, which lead to their values. -/
structure MinmaxOk (storage : Swstorage) (this : Swminmax κ) (t : Shape (Stored IntRef)) (pool : List Addr)
    (live : List (IntRef × Int)) : Prop where
  represents : Represents (cmpAt storage) this.tree this.mem t pool
  sharp : Sharp this.tree t
  wf : Tally.Wf (cmpAt storage) (Tally.widen t.vals)
  total : Tally.total (Tally.widen t.vals) = live.length
  summarises : Summarises (cmpAt storage) (Tally.widen t.vals) (live.map Prod.fst)
  stored : ∀ u ∈ live, (∃ i, u.1 = .slot i) ∧ u.1.deref storage = some u.2

theorem minmaxOk_ctor (storage : Swstorage) (minmaxPipe : Option (κ → MinmaxReport → κ)) (minmaxData : κ) :
    MinmaxOk storage (swminmaxprivCtor minmaxPipe minmaxData) .nil [] [] where
  represents := represents_make _
  sharp := sharp_make
  wf := ⟨increasing_nil, nofun⟩
  total := rfl
  summarises := summarises_nil
  stored := by simp

variable {storage storage' : Swstorage} {this : Swminmax κ} {t : Shape (Stored IntRef)} {pool : List Addr}
  {live : List (IntRef × Int)}

/-- A datum of the tree that bounds the others bounds all live values. -/
theorem MinmaxOk.extreme (h : MinmaxOk storage this t pool live) (le : Int → Int → Prop) {e : Stored IntRef}
    (he : e ∈ t.vals) (hle : ∀ v ∈ t.vals, ∀ p x y, cmpAt storage p v.data = 0 → e.data.deref storage = some x →
      p.deref storage = some y → le x y) :
    ∃ value, (e.data, value) ∈ live ∧ ∀ u ∈ live, le value u.2 := by
  have hlive : e.widen.data ∈ live.map Prod.fst :=
    h.summarises.data_live (cmpAt_order storage) h.wf (List.mem_map_of_mem he)
  obtain ⟨⟨p, value⟩, hp, hpe⟩ := List.mem_map.mp hlive
  obtain rfl : p = e.data := hpe
  refine ⟨value, hp, fun u hu => ?_⟩
  obtain ⟨v, hv, huv⟩ := h.summarises.covered (cmpAt_order storage) (List.mem_map_of_mem hu)
  obtain ⟨v', hv', rfl⟩ := List.mem_map.mp hv
  exact hle v' hv' u.1 value u.2 huv (h.stored _ hp).2 (h.stored u hu).2

theorem MinmaxOk.live_nil_iff (h : MinmaxOk storage this t pool live) : t.vals = [] ↔ live = [] := by
  constructor
  · intro hnil
    rw [List.eq_nil_iff_forall_not_mem]
    intro u hu
    obtain ⟨e, he, -⟩ := h.summarises.covered (cmpAt_order storage) (List.mem_map_of_mem hu)
    rw [hnil] at he
    cases he
  · intro hnil
    rw [List.eq_nil_iff_forall_not_mem]
    intro e he
    have hlive := h.summarises.data_live (cmpAt_order storage) h.wf (List.mem_map_of_mem he)
    rw [hnil] at hlive
    cases hlive

/-- The ends of the tree are what a report has to say. -/
theorem MinmaxOk.report_right (h : MinmaxOk storage this t pool live) : ReportRight ⟨treeStat t, storage⟩ live where
  stored := h.stored
  min_null := by rw [treeStat, Option.map_eq_none_iff, List.head?_eq_none_iff, h.live_nil_iff]
  max_null := by rw [treeStat, Option.map_eq_none_iff, List.getLast?_eq_none_iff, h.live_nil_iff]
  min_least := by
    intro p hp
    obtain ⟨e, he, rfl⟩ := Option.map_eq_some_iff.mp hp
    refine h.extreme (fun x y => x ≤ y) (List.mem_of_head? he) fun v hv p x y hpv hx hy => ?_
    have hle := h.represents.sorted.head_le (cmpAt_order storage) he v hv
    have hvp : cmpAt storage v.data p ≤ 0 := Int.le_of_eq (((cmpAt_order storage).eq_comm _ _).mp hpv)
    exact (cmpAt_nonpos hx hy).mp ((cmpAt_order storage).trans _ _ _ hle hvp)
  max_greatest := by
    intro p hp
    obtain ⟨e, he, rfl⟩ := Option.map_eq_some_iff.mp hp
    refine h.extreme (fun x y => y ≤ x) (List.mem_of_getLast? he) fun v hv p x y hpv hx hy => ?_
    have hle := h.represents.sorted.le_last (cmpAt_order storage) he v hv
    exact (cmpAt_nonpos hy hx).mp ((cmpAt_order storage).trans _ _ _ (Int.le_of_eq hpv) hle)

/-- The end of a pipe returns, and gives the callback what the tree says. -/
theorem MinmaxOk.report (h : MinmaxOk storage this t pool live) :
    ∃ this', reportMinmax storage this = some this' ∧ this'.minmaxPipe = this.minmaxPipe ∧
      this'.minmaxData = callAll this.minmaxPipe this.minmaxData [⟨treeStat t, storage⟩] ∧
      MinmaxOk storage this' t pool live := by
  have hmin := h.represents.getBottomData
  have hmax := h.represents.getTopData
  rw [h.represents.cachedEntry_bottom h.sharp] at hmin
  rw [h.represents.cachedEntry_top h.sharp] at hmax
  cases hpipe : this.minmaxPipe with
  | none =>
    have hreport : reportMinmax storage this = some { this with stat := treeStat t } := by
      simp only [reportMinmax, treeStat, hmin, hmax, hpipe, Option.bind_eq_bind, Option.bind_some]
    exact ⟨_, hreport, hpipe, rfl, h.represents, h.sharp, h.wf, h.total, h.summarises, h.stored⟩
  | some pipe =>
    have hreport : reportMinmax storage this = some { this with
        stat := treeStat t
        minmaxData := pipe this.minmaxData ⟨treeStat t, storage⟩ } := by
      simp only [reportMinmax, treeStat, hmin, hmax, hpipe, Option.bind_eq_bind, Option.bind_some]
    exact ⟨_, hreport, hpipe, rfl, h.represents, h.sharp, h.wf, h.total, h.summarises, h.stored⟩

/-- A store to a slot that no live pointer leads to changes nothing for the tree. -/
theorem MinmaxOk.store (h : MinmaxOk storage this t pool live)
    (hold : ∀ u ∈ live, u.1.deref storage' = u.1.deref storage) : MinmaxOk storage' this t pool live := by
  have hagree : ∀ a ∈ live.map Prod.fst, ∀ b ∈ live.map Prod.fst, cmpAt storage' a b = cmpAt storage a b := by
    intro a ha b hb
    obtain ⟨u, hu, rfl⟩ := List.mem_map.mp ha
    obtain ⟨v, hv, rfl⟩ := List.mem_map.mp hb
    exact cmpAt_congr (hold u hu) (hold v hv)
  obtain ⟨hwf, hsum⟩ := h.summarises.congr (cmpAt_order storage) (cmpAt_order storage') h.wf hagree
  have hinc : Increasing (cmpAt storage') nodeKey t.inorder :=
    (increasing_map Prod.snd t.inorder).mp ((Tally.increasing_widen _).mp hwf.increasing)
  exact ⟨{ h.represents with increasing := hinc }, h.sharp, hwf, h.total, hsum,
    fun u hu => ⟨(h.stored u hu).1, (hold u hu).trans (h.stored u hu).2⟩⟩

theorem swminmaxAddPipe_spec (h : MinmaxOk storage this t pool live) {i : Nat} {value : Int}
    (hvalue : (IntRef.slot i).deref storage = some value) (hroom : live.length < 2147483647) :
    ∃ this' t' pool', swminmaxAddPipe storage (some (.slot i)) this = some this' ∧
      this'.minmaxPipe = this.minmaxPipe ∧
      this'.minmaxData = callAll this.minmaxPipe this.minmaxData [⟨treeStat t', storage⟩] ∧
      MinmaxOk storage this' t' pool' (live ++ [(.slot i, value)]) := by
  obtain ⟨tree, mem, t', pool', hinsert, hrep, hsharp, hwf, hadd, -, -⟩ :=
    h.represents.insertOne (cmpAt_order storage) h.sharp h.wf (.slot i) (by rw [h.total]; omega)
  have h1 : MinmaxOk storage { this with tree := tree, mem := mem } t' pool' (live ++ [(.slot i, value)]) := by
    refine ⟨hrep, hsharp, hwf, ?_, ?_, fun u hu => ?_⟩
    · rw [hadd, Tally.total_add, h.total, List.length_append]
      rfl
    · rw [hadd, List.map_append]
      exact h.summarises.add (cmpAt_order storage) h.wf (.slot i)
    · rcases List.mem_append.mp hu with hu | hu
      · exact h.stored u hu
      · rw [List.mem_singleton.mp hu]
        exact ⟨⟨i, rfl⟩, hvalue⟩
  obtain ⟨this', hreport, hpipe, hdata, h'⟩ := h1.report
  refine ⟨this', t', pool', ?_, hpipe, hdata, h'⟩
  simp only [swminmaxAddPipe, hinsert, Option.bind_eq_bind, Option.bind_some]
  exact hreport

theorem swminmaxRemPipe_spec {u : IntRef × Int} (h : MinmaxOk storage this t pool (u :: live)) :
    ∃ this' t' pool', swminmaxRemPipe storage (some u.1) this = some this' ∧
      this'.minmaxPipe = this.minmaxPipe ∧
      this'.minmaxData = callAll this.minmaxPipe this.minmaxData [⟨treeStat t', storage⟩] ∧
      MinmaxOk storage this' t' pool' live := by
  obtain ⟨tree, mem, t', pool', hdelete, hrep, hsharp, hvals, -, -⟩ :=
    h.represents.deleteValue (cmpAt_order storage) u.1
  have htake : Tally.widen t'.vals = Tally.takeOne (cmpAt storage) u.1 (Tally.widen t.vals) := by
    rw [hvals, Tally.widen_takeOne]
  have hhead : u.1 ∈ (u :: live).map Prod.fst := List.mem_cons_self
  obtain ⟨e, he⟩ := newest_isSome hhead ((cmpAt_order storage).refl u.1)
  have hfind := (h.summarises u.1).trans he
  have h1 : MinmaxOk storage { this with tree := tree, mem := mem } t' pool' live := by
    refine ⟨hrep, hsharp h.sharp, ?_, ?_, ?_, fun v hv => h.stored v (List.mem_cons_of_mem _ hv)⟩
    · rw [htake]
      exact h.wf.takeOne (cmpAt_order storage) u.1
    · have htotal := h.total
      rw [htake, Tally.total_takeOne (cmpAt_order storage) h.wf, hfind, htotal, List.length_cons]
      simp
    · rw [htake]
      exact h.summarises.takeOne (cmpAt_order storage) h.wf
  obtain ⟨this', hreport, hpipe, hdata, h'⟩ := h1.report
  refine ⟨this', t', pool', ?_, hpipe, hdata, h'⟩
  simp only [swminmaxRemPipe, hdelete, Option.bind_eq_bind, Option.bind_some]
  exact hreport

/-! ## The window -/

/-- The plugin has not faulted, is in order, follows the tracked items, and has told its callback
what is right. -/
def MinmaxKeeps (minmaxPipe : Option (κ → MinmaxReport → κ)) (minmaxData : κ) (world : MinmaxWorld κ)
    (refs : List (Option IntRef)) (passed : List Int) : Prop :=
  ∃ this t pool live events reports, world.rest = some this ∧ this.minmaxPipe = minmaxPipe ∧
    refs = live.map (fun u => some u.1) ∧ MinmaxOk world.swstorage this t pool live ∧
    MinmaxRight minmaxPipe minmaxData passed this live events reports

variable {minmaxPipe : Option (κ → MinmaxReport → κ)} {minmaxData : κ}

/-- One more event of the plugin. -/
theorem MinmaxRight.event {this' : Swminmax κ} {t' : Shape (Stored IntRef)} {pool' : List Addr}
    {passed : List Int} {live live' : List (IntRef × Int)} {events : List (Kind × (IntRef × Int))}
    {reports : List MinmaxReport} (h : MinmaxRight minmaxPipe minmaxData passed this live events reports)
    (e : Kind × (IntRef × Int)) (hmove : Replays live [e] live')
    (hdata : this'.minmaxData = callAll minmaxPipe this.minmaxData [⟨treeStat t', storage⟩])
    (hok : MinmaxOk storage this' t' pool' live') :
    MinmaxRight minmaxPipe minmaxData (passed ++ (added [e]).map Prod.snd) this' live' (events ++ [e])
      (reports ++ [⟨treeStat t', storage⟩]) where
  announced := by rw [added_append, List.map_append, h.announced]
  reported := by
    rw [hdata]
    exact h.reported.event e _ hmove hok.report_right

theorem observes_minmax {n : Nat} (hfit : n < 2147483647) :
    Observes n [makeSwminmax (κ := κ)] (MinmaxKeeps minmaxPipe minmaxData) where
  rem := by
    intro world ref refs passed hleads hkeeps
    obtain ⟨this, t, pool, live, events, reports, hrest, hpipe, hlive, hok, hright⟩ := hkeeps
    obtain ⟨u, live, rfl, rfl, rfl⟩ := List.map_eq_cons_iff.mp hlive.symm
    obtain ⟨this', t', pool', hrem, hpipe', hdata, hok'⟩ := swminmaxRemPipe_spec hok
    rw [hpipe] at hpipe' hdata
    have hright' := hright.event (.rem, u) ⟨live, rfl, rfl⟩ hdata hok'
    have hpassed : passed ++ (added [(Kind.rem, u)]).map Prod.snd = passed := List.append_nil _
    rw [hpassed] at hright'
    refine ⟨this', t', pool', live, _, _, ?_, hpipe', rfl, hok', hright'⟩
    show world.rest.bind (swminmaxRemPipe world.swstorage (some u.1)) = some this'
    rw [hrest, Option.bind_some, hrem]
  add := by
    intro world storage ref refs passed value hroom hleads hold hvalue hkeeps
    obtain ⟨this, t, pool, live, events, reports, hrest, hpipe, rfl, hok, hright⟩ := hkeeps
    obtain ⟨i, value', rfl, -⟩ := hleads ref (List.mem_append_right _ (List.mem_singleton_self _))
    rw [List.length_map] at hroom
    have hok1 : MinmaxOk storage this t pool live :=
      hok.store fun u hu => hold (some u.1) (List.mem_map_of_mem (f := fun u => some u.1) hu)
    obtain ⟨this', t', pool', hadd, hpipe', hdata, hok'⟩ := swminmaxAddPipe_spec hok1 hvalue (by omega)
    rw [hpipe] at hpipe' hdata
    have hright' := hright.event (.add, (.slot i, value)) rfl hdata hok'
    refine ⟨this', t', pool', _, _, _, ?_, hpipe', ?_, hok', hright'⟩
    · show world.rest.bind (swminmaxAddPipe storage (some (.slot i))) = some this'
      rw [hrest, Option.bind_some, hadd]
    · rw [List.map_append]
      rfl

theorem harmless_minmax : Harmless [makeSwminmax (κ := κ)] := harmless_of_rest _ _

/-- Whatever is called after it was attached to the empty window, every call returns, and the
plugin has given its callback, at every call of its pipes, the extremes of the items live then.
Its live items are those the window tracks. -/
def ReportsExtremes (numLimit : Nat) (timeLimit : Exact) (minmaxPipe : Option (κ → MinmaxReport → κ))
    (minmaxData : κ) : Prop :=
  ∀ before after : List IntCall,
    Guarded callStep attachesEmpty
      (slidingwindowInt32Ctor numLimit timeLimit (some (swminmaxprivCtor minmaxPipe minmaxData)))
      (minmaxCalls before after) →
    ∃ this outs plugin live events reports,
      run callStep (slidingwindowInt32Ctor numLimit timeLimit (some (swminmaxprivCtor minmaxPipe minmaxData)))
        (minmaxCalls before after) = some (this, outs) ∧
      this.world.rest = some plugin ∧ trackedData this = some (live.map fun u => some u.1) ∧
      MinmaxRight minmaxPipe minmaxData (after.flatMap IntCall.passed) plugin live events reports

theorem reportsExtremes_of_fits {n : Nat} (hn : 1 ≤ n) (hfit : n < 2147483647) (timeLimit : Exact)
    (minmaxPipe : Option (κ → MinmaxReport → κ)) (minmaxData : κ) :
    ReportsExtremes n timeLimit minmaxPipe minmaxData := by
  intro before after hempty
  have hnew : ∀ world : MinmaxWorld κ, world.rest = some (swminmaxprivCtor minmaxPipe minmaxData) →
      MinmaxKeeps minmaxPipe minmaxData world [] [] := fun world hrest =>
    ⟨_, .nil, [], [], [], [], hrest, rfl, rfl, minmaxOk_ctor world.swstorage minmaxPipe minmaxData, rfl,
      reported_nil minmaxPipe minmaxData ReportRight⟩
  obtain ⟨this, outs, first, q, spare, hrun, h, hkeeps⟩ :=
    (observes_minmax hfit).attached harmless_minmax hnew hn hfit timeLimit before after hempty
  obtain ⟨plugin, t, pool, live, events, reports, hplugin, -, hlive, -, hright⟩ := hkeeps
  refine ⟨this, outs, plugin, live, events, reports, hrun, hplugin, ?_, hright⟩
  rw [h.tracks.trackedData_eq, hlive]

theorem not_reportsExtremes (timeLimit : Exact) (minmaxPipe : Option (κ → MinmaxReport → κ)) (minmaxData : κ) :
    ¬ ReportsExtremes 2147483647 timeLimit minmaxPipe minmaxData := by
  intro hreports
  have hnone := attached_overflowed harmless_minmax timeLimit (some (swminmaxprivCtor minmaxPipe minmaxData))
    (fun _ => Mtime.zero) 7
  obtain ⟨this, outs, plugin, live, events, reports, hrun, -⟩ :=
    hreports [] [.addInt (fun _ => Mtime.zero) 7] ⟨rfl, fun _ _ _ => ⟨trivial, fun _ _ _ => trivial⟩⟩
  change run callStep _ [.addPlugin makeSwminmax, (IntCall.addInt (fun _ => Mtime.zero) 7).call] = _ at hrun
  rw [hnone] at hrun
  cases hrun

/-- The plugin reports the extremes of the live values exactly when the number of slots of its
window fits in the word that counts them. -/
theorem minmax_reports_extremes (numLimit : Nat) (hn : 1 ≤ numLimit) (hword : numLimit ≤ 2147483647)
    (timeLimit : Exact) (minmaxPipe : Option (κ → MinmaxReport → κ)) (minmaxData : κ) :
    ReportsExtremes numLimit timeLimit minmaxPipe minmaxData ↔ numLimit < 2147483647 := by
  constructor
  · intro hreports
    by_contra hlong
    obtain rfl : numLimit = 2147483647 := by omega
    exact not_reportsExtremes timeLimit minmaxPipe minmaxData hreports
  · exact fun hfit => reportsExtremes_of_fits hn hfit timeLimit minmaxPipe minmaxData

/-- A window of two, used and cleared before the plugin is attached, given equal values, with a
callback that keeps what it is given. -/
theorem minmax_reports_extremes_run :
    ∃ this outs plugin live events reports,
      run callStep (slidingwindowInt32Ctor 2 (.fin 0)
          (some (swminmaxprivCtor (some fun (seen : List MinmaxReport) r => seen ++ [r]) [])))
        (minmaxCalls [.addInt (fun _ => Mtime.zero) 9, .clear]
          [.addInt (fun _ => Mtime.zero) 3, .addInt (fun _ => Mtime.zero) 3, .addInt (fun _ => Mtime.zero) 1,
            .refresh fun _ => Mtime.zero]) = some (this, outs) ∧
      this.world.rest = some plugin ∧ trackedData this = some (live.map fun u => some u.1) ∧
      MinmaxRight (some fun seen r => seen ++ [r]) [] [3, 3, 1] plugin live events reports :=
  (minmax_reports_extremes 2 (by decide) (by decide) (.fin 0) _ []).mpr (by decide) _ _ (by decide)

/-- The longest window there is has no slot for the first value. -/
theorem minmax_storage_overflows :
    ¬ ReportsExtremes 2147483647 (.fin 0) (some fun (seen : List MinmaxReport) r => seen ++ [r]) [] :=
  not_reportsExtremes (.fin 0) _ []

end Devclego.Sliding
