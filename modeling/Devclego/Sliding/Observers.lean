import Devclego.Sliding.Integers
import Devclego.Sliding.Protocol

/-!
# Observers of integer windows

What plugins keep in the world about the tracked items is a relation between the world,
the data pointers of these items and the values passed in so far. If a removal of the
oldest item and an addition to a free slot keep the relation, every run of the window
does. `Reported` says what a plugin with a callback has told it.
-/
namespace Devclego.Sliding

open Foundation Devclego.Puffers

variable {ω : Type}

/-- Every pointer leads to a slot with a value. -/
def Leads (storage : Swstorage) (refs : List (Option IntRef)) : Prop :=
  ∀ ref ∈ refs, ∃ i value, ref = some (.slot i) ∧ valueAt storage ref = some value

theorem Slots.leads {storage : Swstorage} {len first : Nat} {refs : List (Option IntRef)}
    (h : Slots storage len first refs) : Leads storage refs := by
  intro ref href
  obtain ⟨value, hvalue⟩ := h.valued ref href
  rw [h.slots] at href
  obtain ⟨j, -, hj⟩ := List.mem_map.mp href
  exact ⟨j % len, value, hj.symm, hvalue⟩

/-- The values that a call passes in. -/
def IntCall.passed : IntCall → List Int
  | .addInt _ item => [item]
  | .refresh _ => []
  | .clear => []

/-- The plugins of a window of at most `n` items keep a relation between the world, the live
pointers and the values passed in: an addition stores the next of them. -/
structure Observes (n : Nat) (plugins : List (Swplugin IntRef (IntWorld ω)))
    (keeps : IntWorld ω → List (Option IntRef) → List Int → Prop) : Prop where
  rem : ∀ world ref refs passed, Leads world.swstorage (ref :: refs) → keeps world (ref :: refs) passed →
    keeps (pipeWorld .rem ref plugins world) refs passed
  add : ∀ world storage ref refs passed value, refs.length < n → Leads storage (refs ++ [ref]) →
    (∀ r ∈ refs, valueAt storage r = valueAt world.swstorage r) → valueAt storage ref = some value →
    keeps world refs passed →
    keeps (pipeWorld .add ref plugins { world with swstorage := storage }) (refs ++ [ref]) (passed ++ [value])

variable {plugins : List (Swplugin IntRef (IntWorld ω))} {keeps : IntWorld ω → List (Option IntRef) → List Int → Prop}
  {passed : List Int} {n : Nat}

theorem Observes.removals (ho : Observes n plugins keeps) (hp : Harmless plugins)
    {gone kept : List (Addr × Slidingwindowitem IntRef)} {world : IntWorld ω} (notices : List (Notice IntRef))
    (hleads : Leads world.swstorage (datas (gone ++ kept))) (hk : keeps world (datas (gone ++ kept)) passed) :
    keeps (tell plugins (removals gone) (world, notices)).1 (datas kept) passed := by
  induction gone generalizing world notices with
  | nil => exact hk
  | cons u gone ih =>
    have hsame : (pipeWorld .rem u.2.data plugins world).swstorage = world.swstorage := hp.pipeWorld ..
    have hrest : Leads (pipeWorld .rem u.2.data plugins world).swstorage (datas (gone ++ kept)) := by
      rw [hsame]
      exact fun ref href => hleads ref (List.mem_cons_of_mem _ href)
    have hstep := ih (notices ++ pipeNotices .rem u.2.data 0 plugins) hrest (ho.rem world _ _ passed hleads hk)
    rw [Sliding.removals, List.map_cons, tell, callPipes_eq]
    exact hstep

variable {this : Slidingwindow IntRef (IntWorld ω)} {first : Nat}
  {q : List (Addr × Slidingwindowitem IntRef)} {spare : List Addr}

/-- A call of an integer window returns and keeps what its plugins observe. -/
theorem Observes.call (ho : Observes n this.plugins keeps) (h : IntTracks this n first q spare)
    (hk : keeps this.world (datas q) passed) (c : IntCall) :
    ∃ this' out first' q' spare', callStep this c.call = some (this', out) ∧ IntTracks this' n first' q' spare' ∧
      keeps this'.world (datas q') (passed ++ c.passed) ∧ SameSetup this this' := by
  have hevicted : ∀ {this' : Slidingwindow IntRef (IntWorld ω)}
      {gone kept : List (Addr × Slidingwindowitem IntRef)}, q = gone ++ kept → Evicted this this' gone →
      keeps this'.world (datas kept) passed := by
    intro this' gone kept hq hev
    cases hq
    have hkept := ho.removals h.harmless this.notices h.slots.leads hk
    rwa [← hev.told] at hkept
  cases c with
  | addInt clock item =>
    obtain ⟨this1, k, gone, kept, spare1, hrefresh, hq, h1, hev, hroom, -⟩ := slidingwindowRefresh_spec clock h.tracks
    have hkept := hevicted hq hev
    cases hq
    have hint1 := h.evict h1 hev
    rw [h.numLimit_eq] at hroom
    obtain ⟨storage, this', cell, spare', hplace, hint', hs', hworld, hstorage, hvalue, hold⟩ :=
      hint1.place (clock k) hroom item
    have hcall : callStep this (IntCall.addInt clock item).call =
        some (this', some (some (.slot this1.world.swstorage.index))) := by
      rw [IntCall.call, callStep, slidingwindowAddData_eq, hrefresh, Option.bind_some, hplace, Option.map_some]
    refine ⟨this', _, _, _, spare', hcall, hint', ?_, hev.setup.trans hs'⟩
    have hleads := hint'.slots.leads
    rw [hstorage, datas_append] at hleads
    rw [hworld, hev.setup.plugins, datas_append]
    exact ho.add this1.world storage _ _ passed item (by rwa [datas, List.length_map]) hleads hold hvalue hkept
  | refresh clock =>
    obtain ⟨this', k, gone, kept, spare', hrefresh, hq, h', hev, -, -⟩ := slidingwindowRefresh_spec clock h.tracks
    have hkept := hevicted hq hev
    cases hq
    refine ⟨this', none, _, kept, spare', by rw [IntCall.call, callStep, hrefresh, Option.map_some], h.evict h' hev,
      ?_, hev.setup⟩
    rw [IntCall.passed, List.append_nil]
    exact hkept
  | clear =>
    obtain ⟨this', spare', hclear, h', hev⟩ := slidingwindowClear_spec h.tracks
    have hq : q = q ++ [] := (List.append_nil q).symm
    have hkept := hevicted hq hev
    rw [hq] at h
    refine ⟨this', none, _, [], spare', by rw [IntCall.call, callStep, hclear, Option.map_some], h.evict h' hev,
      ?_, hev.setup⟩
    rw [IntCall.passed, List.append_nil]
    exact hkept

theorem Observes.run (ho : Observes n this.plugins keeps) (h : IntTracks this n first q spare)
    (passed : List Int) (hk : keeps this.world (datas q) passed) (calls : List IntCall) :
    ∃ this' outs first' q' spare', run callStep this (calls.map IntCall.call) = some (this', outs) ∧
      IntTracks this' n first' q' spare' ∧ keeps this'.world (datas q') (passed ++ calls.flatMap IntCall.passed) ∧
      SameSetup this this' := by
  induction calls generalizing this first q spare passed with
  | nil =>
    rw [List.flatMap_nil, List.append_nil]
    exact ⟨this, [], first, q, spare, rfl, h, hk, SameSetup.refl this⟩
  | cons c calls ih =>
    obtain ⟨this1, out, first1, q1, spare1, hcall, h1, hk1, hs1⟩ := ho.call h hk c
    rw [← hs1.plugins] at ho
    obtain ⟨this', outs, first', q', spare', hrun, h', hk', hs'⟩ := ih ho h1 _ hk1
    rw [List.append_assoc] at hk'
    exact ⟨this', out :: outs, first', q', spare', run_cons.mpr ⟨this1, out, this', outs, hcall, hrun, rfl⟩, h', hk',
      hs1.trans hs'⟩

/-- A window without plugins leaves the rest of the world alone. -/
theorem observes_none (n : Nat) (rest : ω) :
    Observes n ([] : List (Swplugin IntRef (IntWorld ω))) fun world _ _ => world.rest = rest where
  rem _ _ _ _ _ hk := hk
  add _ _ _ _ _ _ _ _ _ _ hk := hk

/-- A plugin attached while the window is empty observes the calls from then on. -/
theorem Observes.attached {swplugin : Swplugin IntRef (IntWorld ω)} {rest : ω}
    (ho : Observes n [swplugin] keeps) (hp : Harmless [swplugin])
    (hnew : ∀ world : IntWorld ω, world.rest = rest → keeps world [] []) (hn : 1 ≤ n) (hfit : n < 2147483647)
    (timeLimit : Exact) (before after : List IntCall)
    (hempty : Guarded callStep attachesEmpty (slidingwindowInt32Ctor n timeLimit rest)
      (before.map IntCall.call ++ .addPlugin swplugin :: after.map IntCall.call)) :
    ∃ this outs first q spare,
      Foundation.run callStep (slidingwindowInt32Ctor n timeLimit rest)
        (before.map IntCall.call ++ .addPlugin swplugin :: after.map IntCall.call) = some (this, outs) ∧
      IntTracks this n first q spare ∧ keeps this.world (datas q) (after.flatMap IntCall.passed) := by
  have hctor := intTracks_ctor hn hfit timeLimit rest
  have hnone : Observes n (slidingwindowInt32Ctor n timeLimit rest).plugins fun world _ _ => world.rest = rest :=
    observes_none n rest
  obtain ⟨this0, outs0, first, q, spare, hbefore, h0, hrest, hs0⟩ := hnone.run hctor [] rfl before
  have hguard := guarded_append hbefore hempty
  have hq : q = [] := h0.tracks.isempty_iff.mp hguard.1
  cases hq
  have hplugins : (slidingwindowAddPlugin this0 swplugin).plugins = [swplugin] := by
    rw [slidingwindowAddPlugin, slistAppend_eq, hs0.plugins]
    rfl
  have h1 : IntTracks (slidingwindowAddPlugin this0 swplugin) n first [] spare := by
    refine ⟨⟨h0.tracks.1, h0.tracks.2, h0.tracks.3, h0.tracks.4, h0.tracks.5⟩, h0.numLimit_eq, h0.storage_eq, ?_,
      h0.slots⟩
    rw [hplugins]
    exact hp
  have hkeeps : keeps (slidingwindowAddPlugin this0 swplugin).world (datas []) [] := hnew this0.world hrest
  rw [← hplugins] at ho
  obtain ⟨this, outs, first', q', spare', hafter, h', hkeeps', -⟩ := ho.run h1 [] hkeeps after
  refine ⟨this, outs0 ++ none :: outs, first', q', spare', ?_, h', hkeeps'⟩
  refine run_append.mpr ⟨this0, outs0, this, none :: outs, hbefore, run_cons.mpr ?_, rfl⟩
  exact ⟨slidingwindowAddPlugin this0 swplugin, none, this, outs, rfl, hafter, rfl⟩

/-! ## The first addition to the longest window -/

/-- With a plugin attached to the longest window the first addition has no result. -/
theorem attached_overflowed {swplugin : Swplugin IntRef (IntWorld ω)} (hp : Harmless [swplugin]) (timeLimit : Exact)
    (rest : ω) (clock : Nat → Mtime) (item : Int) :
    Foundation.run callStep (slidingwindowInt32Ctor 2147483647 timeLimit rest)
      [.addPlugin swplugin, (IntCall.addInt clock item).call] = none := by
  have hctor : Tracks (slidingwindowInt32Ctor 2147483647 timeLimit rest) [] [] := tracks_ctor ..
  have htracks : Tracks (slidingwindowAddPlugin (slidingwindowInt32Ctor 2147483647 timeLimit rest) swplugin) [] [] :=
    ⟨hctor.1, hctor.2, hctor.3, hctor.4, hctor.5⟩
  have hnone := addInt_overflowed htracks rfl hp (slots_overflowed timeLimit rest) clock item
  rw [slidingwindowAddInt] at hnone
  simp only [Foundation.run, callStep, IntCall.call, hnone, Option.map_none, Option.bind_eq_bind, Option.bind_some,
    Option.bind_none]

/-! ## Callbacks -/

/-- What a callback, if there is one, makes of its data when it is given some reports. -/
def callAll {R κ : Type} (pipe : Option (κ → R → κ)) (data : κ) (reports : List R) : κ :=
  match pipe with
  | none => data
  | some pipe => reports.foldl pipe data

/-- What a plugin with a callback has done. Its events play the live list from the empty one,
after each of them one report was made, right about the list of that moment, and the data of
the callback are what the reports have made of them. -/
structure Reported {D R κ : Type} (pipe : Option (κ → R → κ)) (start : κ) (right : R → List D → Prop)
    (data : κ) (live : List D) (events : List (Kind × D)) (reports : List R) : Prop where
  replays : Replays [] events live
  each : reports.length = events.length
  right : ∀ k r, reports[k]? = some r → ∃ now, Replays [] (events.take (k + 1)) now ∧ right r now
  callback : data = callAll pipe start reports

section Reported

variable {D R κ : Type} {pipe : Option (κ → R → κ)} {start data : κ} {right : R → List D → Prop} {live live' : List D}
  {events : List (Kind × D)} {reports : List R}

theorem callAll_append (pipe : Option (κ → R → κ)) (start : κ) (reports : List R) (r : R) :
    callAll pipe start (reports ++ [r]) = callAll pipe (callAll pipe start reports) [r] := by
  cases pipe with
  | none => rfl
  | some pipe => exact List.foldl_append

theorem reported_nil (pipe : Option (κ → R → κ)) (start : κ) (right : R → List D → Prop) :
    Reported pipe start right start [] [] [] where
  replays := rfl
  each := rfl
  right := by simp
  callback := by cases pipe <;> rfl

/-- One more event, with a report that is right about the list after it. -/
theorem Reported.event (h : Reported pipe start right data live events reports) (e : Kind × D) (r : R)
    (hmove : Replays live [e] live') (hright : right r live') :
    Reported pipe start right (callAll pipe data [r]) live' (events ++ [e]) (reports ++ [r]) where
  replays := h.replays.append hmove
  each := by rw [List.length_append, List.length_append, h.each]; rfl
  right := by
    intro k r' hk
    rcases Nat.lt_or_ge k reports.length with hold | hnew
    · rw [List.getElem?_append_left hold] at hk
      obtain ⟨now, hnow, hr⟩ := h.right k r' hk
      rw [h.each] at hold
      exact ⟨now, by rw [List.take_append_of_le_length hold]; exact hnow, hr⟩
    · have hlast : k = reports.length := by
        have hlt := (List.getElem?_eq_some_iff.mp hk).1
        rw [List.length_append, List.length_singleton] at hlt
        omega
      rw [hlast, List.getElem?_concat_length, Option.some.injEq] at hk
      refine ⟨live', ?_, hk ▸ hright⟩
      rw [List.take_of_length_le (by rw [List.length_append, List.length_singleton, hlast, h.each])]
      exact h.replays.append hmove
  callback := by rw [callAll_append, ← h.callback]

end Reported

end Devclego.Sliding
