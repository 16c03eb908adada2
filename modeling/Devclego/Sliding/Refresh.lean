import Devclego.Sliding.Protocol
import Devclego.Sliding.Window

/-!
# What a refresh evicts

A refresh is also how an addition makes room, so it leaves room for one item: from a full
window whose oldest item is not too old it takes that item. Otherwise the items that
go are those that are too old.
-/
namespace Devclego.Sliding

open Foundation Devclego.Puffers

variable {P ω : Type}

/-- The tracked items with their records, oldest first. -/
def trackedItems (this : Slidingwindow P ω) : Option (List (Addr × Slidingwindowitem P)) :=
  this.trackeditems.contents.mapM fun item => (this.mem.read item).map fun cell => (item, cell)

/-- The notices that some events cause. -/
def noticesOf (plugins : List (Swplugin P ω)) (events : List (Kind × Option P)) : List (Notice P) :=
  events.flatMap fun e => pipeNotices e.1 e.2 0 plugins

theorem Evicted.notices {this this' : Slidingwindow P ω} {gone : List (Addr × Slidingwindowitem P)}
    (h : Evicted this this' gone) :
    this'.notices = this.notices ++ noticesOf this.plugins (removals gone) :=
  (congrArg Prod.snd h.told).trans (tell_notices _ _ _)

/-- The items that have reached the time limit are gone, each at its own reading of the
clock, and no other; the plugins are told about them only. -/
structure ExactRefresh (clock : Nat → Mtime) (this this' : Slidingwindow P ω)
    (gone kept : List (Addr × Slidingwindowitem P)) : Prop where
  before : trackedItems this = some (gone ++ kept)
  after : trackedItems this' = some kept
  old : ∀ (j : Nat) (u : Addr × Slidingwindowitem P), gone[j]? = some u →
    expired this.timeLimit (clock j) u.2.pushed = true
  young : ∀ u ∈ kept, expired this.timeLimit (clock gone.length) u.2.pushed = false
  told : this'.notices = this.notices ++ noticesOf this.plugins (removals gone)
  called : this'.world = (tell this.plugins (removals gone) (this.world, this.notices)).1
  unchanged : gone = [] → this' = this

/-- The window is not full, or its oldest item is too old. -/
def HasRoom (clock : Nat → Mtime) (this : Slidingwindow P ω) : Prop :=
  datapufferIsfull this.trackeditems = false ∨
    ∃ item cell, datapufferPeekFirst this.trackeditems = some item ∧ this.mem.read item = some cell ∧
      expired this.timeLimit (clock 0) cell.pushed = true

/-- The readings of the clock that a call will make. -/
def Call.clock? : Call P ω → Option (Nat → Mtime)
  | .addData clock _ => some clock
  | .refresh clock => some clock
  | .clear => none
  | .addPlugin _ => none

/-- The clock does not go back from one call to a later one. -/
def ClockRuns (calls : List (Call P ω)) : Prop :=
  calls.Pairwise fun c d => ∀ clock clock', c.clock? = some clock → d.clock? = some clock' →
    ∀ i j, clock i ≤ clock' j

variable {this this' : Slidingwindow P ω} {q : List (Addr × Slidingwindowitem P)} {spare : List Addr}
  {calls : List (Call P ω)}

theorem Tracks.trackedItems_eq (h : Tracks this q spare) : trackedItems this = some q := by
  rw [trackedItems, h.tracked.contents_eq]
  have hcells := h.cells
  clear h
  induction q with
  | nil => rfl
  | cons u q ih =>
    have hrest := ih fun v hv => hcells v (List.mem_cons_of_mem _ hv)
    rw [List.map_cons, List.mapM_cons, hcells u (List.mem_cons_self ..), hrest]
    rfl

/-! ## When the tracked items were pushed -/

/-- The times of the items do not decrease, and each was read by one of the calls. -/
structure Dated (calls : List (Call P ω)) (q : List (Addr × Slidingwindowitem P)) : Prop where
  sorted : q.Pairwise fun u v => u.2.pushed ≤ v.2.pushed
  read : ∀ u ∈ q, ∃ c ∈ calls, ∃ clock, c.clock? = some clock ∧ ∃ i, u.2.pushed = clock i

theorem Dated.suffix {q' : List (Addr × Slidingwindowitem P)} (h : Dated calls q) (hq : q' <:+ q) (c : Call P ω) :
    Dated (calls ++ [c]) q' where
  sorted := h.sorted.sublist hq.sublist
  read := by
    intro u hu
    obtain ⟨d, hd, hclock⟩ := h.read u (hq.subset hu)
    exact ⟨d, List.mem_append_left _ hd, hclock⟩

/-- A call keeps an end of the items, and an addition puts one behind it. -/
theorem call_items (h : Tracks this q spare) {c : Call P ω} {out : Option (Option P)}
    (hstep : callStep this c = some (this', out)) :
    ∃ kept spare', kept <:+ q ∧
      (Tracks this' kept spare' ∨
        ∃ clock k u, c.clock? = some clock ∧ Tracks this' (kept ++ [u]) spare' ∧ u.2.pushed = clock k) := by
  cases c with
  | addData clock data =>
    obtain ⟨this1, k, gone, kept, spare1, hrefresh, rfl, h1, hev, hroom, -⟩ := slidingwindowRefresh_spec clock h
    rw [← hev.setup.numLimit] at hroom
    rw [callStep, slidingwindowAddData_eq, hrefresh, Option.bind_some] at hstep
    rcases placeData_spec (clock k) h1 hroom data with ⟨-, hplace⟩ | hsome
    · rw [hplace] at hstep
      cases hstep
    · obtain ⟨dst, world, this2, item, spare', -, hplace, h', -, -⟩ := hsome
      rw [hplace] at hstep
      cases hstep
      exact ⟨kept, spare', List.suffix_append gone kept, Or.inr ⟨clock, k, _, rfl, h', rfl⟩⟩
  | refresh clock =>
    obtain ⟨this1, k, gone, kept, spare', hrefresh, rfl, h', -, -, -⟩ := slidingwindowRefresh_spec clock h
    rw [callStep, hrefresh] at hstep
    cases hstep
    exact ⟨kept, spare', List.suffix_append gone kept, Or.inl h'⟩
  | clear =>
    obtain ⟨this1, spare', hclear, h', -⟩ := slidingwindowClear_spec h
    rw [callStep, hclear] at hstep
    cases hstep
    exact ⟨[], spare', List.nil_suffix, Or.inl h'⟩
  | addPlugin swplugin =>
    cases hstep
    exact ⟨q, spare, List.suffix_refl q, Or.inl ⟨h.1, h.2, h.3, h.4, h.5⟩⟩

theorem call_dated (h : Tracks this q spare) (hdated : Dated calls q) {c : Call P ω} (hruns : ClockRuns (calls ++ [c]))
    {out : Option (Option P)} (hstep : callStep this c = some (this', out)) :
    ∃ q' spare', Tracks this' q' spare' ∧ Dated (calls ++ [c]) q' := by
  obtain ⟨kept, spare', hsuffix, hkept | ⟨clock, k, u, hclock, hpushed, hu⟩⟩ := call_items h hstep
  · exact ⟨kept, spare', hkept, hdated.suffix hsuffix c⟩
  · have hleft := hdated.suffix hsuffix c
    refine ⟨kept ++ [u], spare', hpushed, ?_, ?_⟩
    · refine List.pairwise_append.mpr ⟨hleft.sorted, List.pairwise_singleton _ _, fun v hv w hw => ?_⟩
      obtain ⟨d, hd, clock', hclock', i, hi⟩ := hdated.read v (hsuffix.subset hv)
      rw [List.mem_singleton.mp hw, hu, hi]
      exact (List.pairwise_append.mp hruns).2.2 d hd c (List.mem_singleton_self c) clock' clock hclock' hclock i k
    · intro v hv
      rcases List.mem_append.mp hv with hv | hv
      · exact hleft.read v hv
      · rw [List.mem_singleton.mp hv]
        exact ⟨c, List.mem_append_right _ (List.mem_singleton_self c), clock, hclock, k, hu⟩

theorem run_dated (h : Tracks this [] spare) (hruns : ClockRuns calls) {outs : List (Option (Option P))}
    (hrun : run callStep this calls = some (this', outs)) : ∃ q spare', Tracks this' q spare' ∧ Dated calls q := by
  induction calls using List.reverseRecOn generalizing this' outs with
  | nil =>
    cases hrun
    exact ⟨[], spare, h, List.Pairwise.nil, fun u hu => absurd hu List.not_mem_nil⟩
  | append_singleton calls c ih =>
    obtain ⟨this1, outs1, this2, outs2, hbefore, hlast, he⟩ := run_append.mp hrun
    cases he
    obtain ⟨q, spare1, h1, hdated⟩ := ih (List.pairwise_append.mp hruns).1 hbefore
    obtain ⟨this3, o, this4, os, hstep, hnil, he⟩ := run_cons.mp hlast
    cases hnil
    cases he
    exact call_dated h1 hdated hruns hstep

/-! ## The refresh -/

/-- What stays is not too old if its first item is not. -/
theorem young_of_head {timeLimit : Exact} {now : Mtime} (hsorted : q.Pairwise fun u v => u.2.pushed ≤ v.2.pushed)
    (hhead : ∀ u : Addr × Slidingwindowitem P, q.head? = some u → expired timeLimit now u.2.pushed = false) :
    ∀ u ∈ q, expired timeLimit now u.2.pushed = false := by
  cases q with
  | nil => simp
  | cons v q =>
    have hv := hhead v rfl
    intro u hu
    rcases List.mem_cons.mp hu with rfl | hu
    · exact hv
    · exact expired_mono (Mtime.le_refl now) ((List.pairwise_cons.mp hsorted).1 u hu) hv

theorem Tracks.hasRoom_iff (h : Tracks this q spare) (clock : Nat → Mtime) :
    HasRoom clock this ↔ q.length < this.numLimit ∨
      ∃ u rest, q = u :: rest ∧ expired this.timeLimit (clock 0) u.2.pushed = true := by
  have hfull : datapufferIsfull this.trackeditems = false ↔ q.length < this.numLimit := by
    have hle := h.length_le
    rw [← Bool.not_eq_true, h.isfull_iff]
    omega
  refine or_congr hfull ?_
  have hpeek := h.tracked.peek_result
  constructor
  · rintro ⟨item, cell, hitem, hcell, hold⟩
    cases q with
    | nil =>
      rw [hpeek] at hitem
      cases hitem
    | cons u rest =>
      rw [hpeek] at hitem
      cases hitem
      rw [h.cells u (List.mem_cons_self ..)] at hcell
      cases hcell
      exact ⟨u, rest, rfl, hold⟩
  · rintro ⟨u, rest, rfl, hold⟩
    exact ⟨u.1, u.2, hpeek, h.cells u (List.mem_cons_self ..), hold⟩

/-- A refresh goes over the items in their order, and takes an early one just from a full window
with no item that is too old. -/
theorem refresh_exact (clock : Nat → Mtime) (h : Tracks this q spare)
    (hsorted : q.Pairwise fun u v => u.2.pushed ≤ v.2.pushed) :
    ∃ this' k, slidingwindowRefresh clock this = some (this', k) ∧
      ((∃ gone kept, ExactRefresh clock this this' gone kept) ↔ HasRoom clock this) := by
  obtain ⟨this', k, gone, early, kept, spare', hrefresh, rfl, h', hev, houtdated, hkept, hsame⟩ :=
    slidingwindowRefresh_split clock h
  refine ⟨this', k, hrefresh, ?_⟩
  rw [h.hasRoom_iff]
  have hle := h.length_le
  have hpos := h.positive
  constructor
  · rintro ⟨gone', kept', hexact⟩
    by_contra hno
    rw [not_or] at hno
    obtain ⟨hfull, hyoung⟩ := hno
    -- The oldest item is not too old, so none is, and the window is still full.
    cases gone with
    | cons u gone => exact hyoung ⟨u, _, rfl, houtdated.old 0 u rfl⟩
    | nil =>
      rw [List.nil_append] at hfull
      have hearly : early ≠ [] := by
        rintro rfl
        have hshort := length_lastN (this.numLimit - 1) kept
        rw [List.nil_append] at hkept hfull
        rw [← hkept] at hshort
        omega
      have hafter : kept' = kept := Option.some.inj (hexact.after.symm.trans h'.trackedItems_eq)
      have hbefore : gone' ++ kept' = early ++ kept := Option.some.inj (hexact.before.symm.trans h.trackedItems_eq)
      rw [hafter] at hbefore
      have hgone : gone' = early := List.append_cancel_right hbefore
      subst hgone
      cases gone' with
      | nil => exact hearly rfl
      | cons u early => exact hyoung ⟨u, early ++ kept, rfl, hexact.old 0 u rfl⟩
  · intro hroom
    have hshort : (early ++ kept).length < this.numLimit := by
      rcases hroom with hroom | ⟨u, rest, hq, hold⟩
      · rw [List.length_append] at hroom
        omega
      · cases gone with
        | nil =>
          rw [List.nil_append] at hq
          have hyoung := houtdated.young u (by rw [hq]; rfl)
          rw [List.length_nil] at hyoung
          rw [hyoung] at hold
          cases hold
        | cons v gone =>
          rw [List.length_append, List.length_cons] at hle
          omega
    have hall : lastN (this.numLimit - 1) (early ++ kept) = early ++ kept := by
      rw [lastN, Nat.sub_eq_zero_of_le (by omega), List.drop_zero]
    have hearly : early = [] := List.append_left_eq_self.mp (hkept.trans hall).symm
    subst hearly
    rw [List.append_nil] at hev hsame
    have hnotices := hev.notices
    have hstay := (List.pairwise_append.mp hsorted).2.1
    exact ⟨gone, kept, h.trackedItems_eq, h'.trackedItems_eq, houtdated.old, young_of_head hstay houtdated.young,
      hnotices, congrArg Prod.fst hev.told, hsame⟩

/-- In every state that calls reach with a clock that does not go back, a refresh evicts exactly
the items that are too old just when the window has room or its oldest item is too old. -/
theorem refresh_exact_iff (numLimit : Nat) (timeLimit : Exact) (storageMaker : Option (Nat → ω → Store P ω × ω))
    (world : ω) (calls : List (Call P ω)) (clock : Nat → Mtime) (hruns : ClockRuns calls)
    {this : Slidingwindow P ω} {outs : List (Option (Option P))}
    (hrun : run callStep (slidingwindowCtor numLimit timeLimit storageMaker world) calls = some (this, outs)) :
    ∃ this' k, slidingwindowRefresh clock this = some (this', k) ∧
      ((∃ gone kept, ExactRefresh clock this this' gone kept) ↔ HasRoom clock this) := by
  obtain ⟨q, spare, h, hdated⟩ := run_dated (tracks_ctor numLimit timeLimit storageMaker world) hruns hrun
  exact refresh_exact clock h hdated.sorted

/-- A window of two, refreshed when its only item is too old. -/
theorem refresh_exact_iff_run :
    ∃ this outs, run callStep (slidingwindowCtor 2 (.fin 10) none ()) [.addData (fun _ => Mtime.zero) (some 5)] =
        some (this, outs) ∧
      ∃ this' k, slidingwindowRefresh (fun _ => ⟨0, 12000, by decide⟩) this = some (this', k) ∧
        ((∃ gone kept, ExactRefresh (fun _ => ⟨0, 12000, by decide⟩) this this' gone kept) ↔
          HasRoom (fun _ => ⟨0, 12000, by decide⟩) this) :=
  ⟨_, _, rfl, refresh_exact_iff 2 (.fin 10) none () [.addData (fun _ => Mtime.zero) (some 5)] _
    (List.pairwise_singleton _ _) rfl⟩

/-- A full window without a time limit loses its only item. -/
theorem refresh_takes_young_item :
    ∃ this outs this' k,
      run callStep (slidingwindowCtor 1 (.fin 0) none ()) [.addData (fun _ => Mtime.zero) (some 5)] =
        some (this, outs) ∧
      slidingwindowRefresh (fun _ => Mtime.zero) this = some (this', k) ∧ trackedData this = some [some 5] ∧
      trackedData this' = some [] ∧ ¬ ∃ gone kept, ExactRefresh (fun _ => Mtime.zero) this this' gone kept := by
  refine ⟨_, _, _, _, rfl, rfl, rfl, rfl, ?_⟩
  rintro ⟨gone, kept, h⟩
  have hafter : kept = [] := (Option.some.inj h.after).symm
  subst hafter
  cases gone with
  | nil => cases h.before
  | cons u gone =>
    have hold : expired (.fin 0) Mtime.zero u.2.pushed = true := h.old 0 u rfl
    rw [expired_unlimited] at hold
    cases hold

end Devclego.Sliding
