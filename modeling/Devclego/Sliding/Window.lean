import Devclego.Sliding.Integers

/-!
# The suffix that a window of integers holds

With one clock reading in each call and a clock that does not go back, the values
behind the tracked items are the longest suffix of the values given to the window
within its limits, unless the window is so long that its storage has no slots. `Covers` is what the window keeps for the calls to come: no later
call could want an item that is gone.
-/
namespace Devclego.Sliding

open Foundation Devclego.Puffers

variable {ω : Type}

/-- A call `slidingwindow_add_int` with the reading of the clock that it makes. -/
def addIntStep (this : Slidingwindow IntRef (IntWorld ω)) (c : Int × Mtime) :
    Option (Slidingwindow IntRef (IntWorld ω) × Option IntRef) :=
  slidingwindowAddInt (fun _ => c.2) this c.1

/-- The limits of a window at a time: at most `numLimit` values, all but the newest
with an age below the limit. A zero limit is none. -/
def Within (numLimit : Nat) (timeLimit : Exact) (now : Mtime) (values : List (Int × Mtime)) : Prop :=
  values.length ≤ numLimit ∧
    ∀ c ∈ values.dropLast, timeLimit = .fin 0 ∨ Exact.lt (diffmtime now c.2) timeLimit = true

/-! ## Ages -/

theorem Mtime.millis_le {s t : Mtime} (h : s ≤ t) : s.millis ≤ t.millis := by
  have hs := s.inRange
  have ht := t.inRange
  rcases h with hsec | ⟨hsec, husec⟩
  · simp only [Mtime.millis]
    omega
  · simp only [Mtime.millis]
    omega

theorem lt_limit_of_le {a b : Int} (hab : a ≤ b) {limit : Exact}
    (h : Exact.lt (.fin (b : Int)) limit = true) : Exact.lt (.fin (a : Int)) limit = true := by
  cases limit with
  | fin q =>
    have hb : (b : Rat) < q := of_decide_eq_true h
    have hle : (a : Rat) ≤ b := by exact_mod_cast hab
    exact decide_eq_true (lt_of_le_of_lt hle hb)
  | inf positive => exact h
  | nan => exact h

theorem expired_eq_false {timeLimit : Exact} {now pushed : Mtime} :
    expired timeLimit now pushed = false ↔
      timeLimit = .fin 0 ∨ Exact.lt (diffmtime now pushed) timeLimit = true := by
  unfold expired
  by_cases hlimit : timeLimit = .fin 0 <;> simp [hlimit]

/-- An item that is not too old was not too old earlier, nor are later items. -/
theorem expired_mono {timeLimit : Exact} {now now' pushed pushed' : Mtime} (hnow : now ≤ now')
    (hpushed : pushed ≤ pushed') (h : expired timeLimit now' pushed = false) :
    expired timeLimit now pushed' = false := by
  rw [expired_eq_false] at h ⊢
  refine h.imp_right fun hlt => ?_
  have h1 := Mtime.millis_le hnow
  have h2 := Mtime.millis_le hpushed
  exact lt_limit_of_le (by omega) hlt

theorem Mtime.le_refl (t : Mtime) : t ≤ t := Or.inr ⟨rfl, Nat.le_refl _⟩

theorem within_iff {n : Nat} (hn : 1 ≤ n) (timeLimit : Exact) (now : Mtime) (values : List (Int × Mtime)) :
    Within n timeLimit now values ↔ Fits (fun c => expired timeLimit now c.2) (n - 1) values := by
  simp only [Within, Fits, expired_eq_false, Nat.sub_add_cancel hn]

/-! ## The window -/

/-- The value and the time of an item. -/
def entry (storage : Swstorage) (u : Addr × Slidingwindowitem IntRef) : Int × Mtime :=
  ((valueAt storage u.2.data).getD 0, u.2.pushed)

variable {this : Slidingwindow IntRef (IntWorld ω)} {n first : Nat}
  {q : List (Addr × Slidingwindowitem IntRef)} {spare : List Addr}

theorem IntTracks.trackedValues_eq (h : IntTracks this n first q spare) :
    trackedValues this = some ((q.map (entry this.world.swstorage)).map Prod.fst) := by
  have hmapM : ∀ refs : List (Option IntRef),
      (∀ ref ∈ refs, ∃ value, valueAt this.world.swstorage ref = some value) →
      refs.mapM (fun ref => ref.bind (IntRef.deref this.world.swstorage)) =
        some (refs.map fun ref => (valueAt this.world.swstorage ref).getD 0) := by
    intro refs hrefs
    induction refs with
    | nil => rfl
    | cons ref refs ih =>
      obtain ⟨value, hvalue⟩ := hrefs ref (List.mem_cons_self ..)
      have hbind : ref.bind (IntRef.deref this.world.swstorage) = some value := hvalue
      rw [List.mapM_cons, hbind, ih fun r hr => hrefs r (List.mem_cons_of_mem _ hr), List.map_cons, hvalue]
      rfl
  rw [trackedValues, h.tracks.trackedData_eq, Option.bind_eq_bind, Option.bind_some, hmapM _ h.slots.valued]
  simp [datas, entry, Function.comp_def]

/-- One addition: the front that is out of the limits goes, and the value comes last. -/
theorem IntTracks.addInt (h : IntTracks this n first q spare) (value : Int) (now : Mtime) :
    ∃ this' out first' q' spare', addIntStep this (value, now) = some (this', out) ∧
      IntTracks this' n first' q' spare' ∧ this'.timeLimit = this.timeLimit ∧
      q'.map (entry this'.world.swstorage) =
        lastN (n - 1) ((q.map (entry this.world.swstorage)).dropWhile
          fun c => expired this.timeLimit now c.2) ++ [(value, now)] := by
  obtain ⟨this1, k, gone, kept, spare1, hrefresh, hq, h1, hev, hroom, hexact⟩ :=
    slidingwindowRefresh_spec (fun _ => now) h.tracks
  have hkept := hexact now fun _ => rfl
  cases hq
  have hint1 := h.evict h1 hev
  have hsame : this1.world.swstorage = this.world.swstorage := hev.swstorage h.harmless
  rw [h.numLimit_eq] at hroom hkept
  obtain ⟨storage', this', item, spare', hplace, hint', hs', -, hstorage, hvalue, hold⟩ :=
    hint1.place now hroom value
  have hadd : addIntStep this (value, now) = some (this', some (.slot this1.world.swstorage.index)) := by
    rw [addIntStep, slidingwindowAddInt, slidingwindowAddData_eq, hrefresh, Option.bind_some]
    exact hplace
  refine ⟨this', _, _, _, spare', hadd, hint', hs'.timeLimit.trans hev.setup.timeLimit, ?_⟩
  have hentry : ∀ u ∈ kept, entry this'.world.swstorage u = entry this.world.swstorage u := by
    intro u hu
    rw [entry, entry, hstorage, hold u.2.data (List.mem_map_of_mem hu), hsame]
  have hnew : entry this'.world.swstorage (item, ⟨some (.slot this1.world.swstorage.index), now⟩) =
      (value, now) := by
    rw [entry, hstorage, hvalue]
    rfl
  rw [List.map_append, List.map_congr_left hentry, List.map_singleton, hnew, List.dropWhile_map, lastN,
    List.length_map, ← List.map_drop]
  exact congrArg (fun left => left.map (entry this.world.swstorage) ++ [(value, now)]) hkept

/-- The values held are the end of those given, and contain every end that a later
call could want. -/
structure Covers (n : Nat) (timeLimit : Exact) (calls held : List (Int × Mtime)) : Prop where
  suffix : held <:+ calls
  wanted : ∀ now, (∀ c ∈ calls, c.2 ≤ now) → ∀ zs, zs <:+ calls → zs.length ≤ n - 1 →
    (∀ c ∈ zs, expired timeLimit now c.2 = false) → zs <:+ held

theorem Covers.push {timeLimit : Exact} {calls held : List (Int × Mtime)} (h : Covers n timeLimit calls held)
    {value : Int} {now : Mtime} (hclock : (calls ++ [(value, now)]).Pairwise fun c d => c.2 ≤ d.2) :
    LongestSuffix (Fits (fun c => expired timeLimit now c.2) (n - 1)) (calls ++ [(value, now)])
      (lastN (n - 1) (held.dropWhile fun c => expired timeLimit now c.2) ++ [(value, now)]) := by
  obtain ⟨hcalls, -, hlast⟩ := List.pairwise_append.mp hclock
  apply longestSuffix_push _ h.suffix
  · exact h.wanted now fun c hc => hlast c hc (value, now) (List.mem_singleton_self _)
  · exact (hcalls.sublist h.suffix.sublist).imp fun hle hpass => expired_mono (Mtime.le_refl now) hle hpass

theorem Covers.of_longest {timeLimit : Exact} {calls held : List (Int × Mtime)} {value : Int} {now : Mtime}
    (h : LongestSuffix (Fits (fun c => expired timeLimit now c.2) (n - 1)) (calls ++ [(value, now)]) held) :
    Covers n timeLimit (calls ++ [(value, now)]) held where
  suffix := h.suffix
  wanted := by
    intro later hlater zs hzs hlen hfresh
    have hle : now ≤ later := hlater (value, now) (List.mem_append_right _ (List.mem_singleton_self _))
    refine h.longest zs hzs ⟨by omega, fun c hc => ?_⟩
    exact expired_mono hle (Mtime.le_refl _) (hfresh c (List.mem_of_mem_dropLast hc))

theorem window_covers (hn : 1 ≤ n) (hfit : n < 2147483647) (timeLimit : Exact) (rest : ω) (calls : List (Int × Mtime))
    (hclock : calls.Pairwise fun c d => c.2 ≤ d.2) :
    ∃ this outs first q spare, run addIntStep (slidingwindowInt32Ctor n timeLimit rest) calls = some (this, outs) ∧
      IntTracks this n first q spare ∧ this.timeLimit = timeLimit ∧
      Covers n timeLimit calls (q.map (entry this.world.swstorage)) := by
  induction calls using List.reverseRecOn with
  | nil =>
    refine ⟨_, [], 0, [], [], rfl, intTracks_ctor hn hfit timeLimit rest, rfl, List.suffix_rfl, ?_⟩
    exact fun _ _ zs hzs _ _ => hzs
  | append_singleton calls c ih =>
    obtain ⟨value, now⟩ := c
    obtain ⟨this, outs, first, q, spare, hrun, hint, hlimit, hcovers⟩ :=
      ih (List.pairwise_append.mp hclock).1
    obtain ⟨this', out, first', q', spare', hadd, hint', hlimit', hheld⟩ := hint.addInt value now
    rw [hlimit] at hheld hlimit'
    refine ⟨this', outs ++ [out], first', q', spare', run_concat hrun hadd, hint', hlimit', ?_⟩
    rw [hheld]
    exact Covers.of_longest (hcovers.push hclock)

/-- The additions return, and the window then holds the longest suffix of the values given
to it that is within its limits at the time of the last one. -/
def HoldsSuffix (numLimit : Nat) (timeLimit : Exact) (rest : ω) (earlier : List (Int × Mtime)) (value : Int)
    (now : Mtime) : Prop :=
  ∃ this outs held,
    run addIntStep (slidingwindowInt32Ctor numLimit timeLimit rest) (earlier ++ [(value, now)]) = some (this, outs) ∧
      trackedValues this = some (held.map Prod.fst) ∧
      LongestSuffix (Within numLimit timeLimit now) (earlier ++ [(value, now)]) held

theorem holdsSuffix_of_fits (hn : 1 ≤ n) (hfit : n < 2147483647) (timeLimit : Exact) (rest : ω)
    (earlier : List (Int × Mtime)) (value : Int) (now : Mtime)
    (hclock : (earlier ++ [(value, now)]).Pairwise fun c d => c.2 ≤ d.2) :
    HoldsSuffix n timeLimit rest earlier value now := by
  obtain ⟨this, outs, first, q, spare, hrun, hint, hlimit, hcovers⟩ :=
    window_covers hn hfit timeLimit rest earlier (List.pairwise_append.mp hclock).1
  obtain ⟨this', out, first', q', spare', hadd, hint', -, hheld⟩ := hint.addInt value now
  rw [hlimit] at hheld
  refine ⟨this', outs ++ [out], _, run_concat hrun hadd, hint'.trackedValues_eq, ?_⟩
  have hsame : Within n timeLimit now = Fits (fun c => expired timeLimit now c.2) (n - 1) :=
    funext fun values => propext (within_iff hn timeLimit now values)
  rw [hsame, hheld]
  exact hcovers.push hclock

/-- The first addition to the longest window faults. -/
theorem not_holdsSuffix (timeLimit : Exact) (rest : ω) (earlier : List (Int × Mtime)) (value : Int) (now : Mtime) :
    ¬ HoldsSuffix 2147483647 timeLimit rest earlier value now := by
  intro hholds
  obtain ⟨this, outs, held, hrun, -, -⟩ := hholds
  obtain ⟨c, rest', hcalls⟩ : ∃ c rest', earlier ++ [(value, now)] = c :: rest' := by
    apply List.exists_cons_of_length_pos
    rw [List.length_append, List.length_singleton]
    omega
  rw [hcalls] at hrun
  obtain ⟨this1, out, _, _, hadd, -, -⟩ := run_cons.mp hrun
  have hfault : addIntStep (slidingwindowInt32Ctor 2147483647 timeLimit rest) c = none :=
    addInt_overflowed (tracks_ctor ..) rfl (by simp [Harmless, slidingwindowCtor])
      (slots_overflowed timeLimit rest) _ c.1
  rw [hfault] at hadd
  cases hadd

/-- After each addition the window holds the longest suffix of the values given to it
that is within its limits at that time, exactly when the number of its slots fits in the
word that counts them. -/
theorem window_longest_suffix (numLimit : Nat) (hn : 1 ≤ numLimit) (hword : numLimit ≤ 2147483647)
    (timeLimit : Exact) (rest : ω) (earlier : List (Int × Mtime)) (value : Int) (now : Mtime)
    (hclock : (earlier ++ [(value, now)]).Pairwise fun c d => c.2 ≤ d.2) :
    HoldsSuffix numLimit timeLimit rest earlier value now ↔ numLimit < 2147483647 := by
  constructor
  · intro hholds
    by_contra hlong
    obtain rfl : numLimit = 2147483647 := by omega
    exact not_holdsSuffix timeLimit rest earlier value now hholds
  · exact fun hfit => holdsSuffix_of_fits hn hfit timeLimit rest earlier value now hclock

theorem window_longest_suffix_run :
    HoldsSuffix 2 (.fin 10) () [(4, ⟨0, 0, by decide⟩), (5, ⟨0, 3000, by decide⟩), (6, ⟨0, 11000, by decide⟩)] 7
      ⟨0, 12500, by decide⟩ :=
  (window_longest_suffix 2 (by decide) (by decide) (.fin 10) () _ 7 ⟨0, 12500, by decide⟩ (by decide)).mpr
    (by decide)

/-- The longest window there is has no slot for its first value. -/
theorem storage_overflows : ¬ HoldsSuffix 2147483647 (.fin 0) () [] 7 Mtime.zero :=
  not_holdsSuffix (.fin 0) () [] 7 Mtime.zero

end Devclego.Sliding
