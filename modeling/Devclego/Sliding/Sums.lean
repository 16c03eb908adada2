import Mathlib.Data.Int.ModEq
import Devclego.Sliding.Observers
import Devclego.Sliding.Window

/-!
# The sum plugin of `lib_swplugins.c`

The pipes add the value of each new item and subtract that of each item that leaves,
both read through the pointer of the item. The oldest item leaves first, so what is
subtracted is what was added, and the callback is given the sum of the live values at
every call. The longest window has no storage and faults.
-/
namespace Devclego.Sliding

open Foundation Devclego.Puffers

/-- The private record, with the data of the callback. `overflowed` is set by an addition or
a subtraction that leaves `int32_t`; nothing reads it. -/
structure Swint32summer (κ : Type) where
  sum : BitVec 32
  pipe : Option (κ → BitVec 32 → κ)
  pipeData : κ
  overflowed : Bool

variable {κ : Type}

def swint32summerCtor (pipe : Option (κ → BitVec 32 → κ)) (pipeData : κ) : Swint32summer κ where
  sum := 0
  pipe := pipe
  pipeData := pipeData
  overflowed := false

/-- The end of both pipes. -/
def reportSum (this : Swint32summer κ) : Swint32summer κ :=
  match this.pipe with
  | none => this
  | some pipe => { this with pipeData := pipe this.pipeData this.sum }

/-- `_swint32sum_add_pipe`. A null pointer faults. -/
def swint32sumAddPipe (storage : Swstorage) (itemptr : Option IntRef) (this : Swint32summer κ) :
    Option (Swint32summer κ) := do
  let item ← itemptr
  let value ← item.deref storage
  some (reportSum { this with
    sum := this.sum + BitVec.ofInt 32 value
    overflowed := this.overflowed || this.sum.saddOverflow (BitVec.ofInt 32 value) })

def swint32sumRemPipe (storage : Swstorage) (itemptr : Option IntRef) (this : Swint32summer κ) :
    Option (Swint32summer κ) := do
  let item ← itemptr
  let value ← item.deref storage
  some (reportSum { this with
    sum := this.sum - BitVec.ofInt 32 value
    overflowed := this.overflowed || this.sum.ssubOverflow (BitVec.ofInt 32 value) })

/-- The world of a window with the plugin. There is no record any more once a pipe has
faulted. -/
abbrev SumWorld (κ : Type) := IntWorld (Option (Swint32summer κ))

/-- `make_swint32_stater`; its record lies in the world. -/
def makeSwint32Stater : Swplugin IntRef (SumWorld κ) where
  remPipe := some fun data world => { world with rest := world.rest.bind (swint32sumRemPipe world.swstorage data) }
  addPipe := some fun data world => { world with rest := world.rest.bind (swint32sumAddPipe world.swstorage data) }

/-- The calls on a window before the plugin is attached, that call, and those after it. -/
def sumCalls (before after : List IntCall) : List (Call IntRef (SumWorld κ)) :=
  before.map IntCall.call ++ .addPlugin makeSwint32Stater :: after.map IntCall.call

def FitsInt32 (value : Int) : Prop := -2 ^ 31 ≤ value ∧ value < 2 ^ 31

instance (value : Int) : Decidable (FitsInt32 value) :=
  inferInstanceAs (Decidable (_ ∧ _))

/-- Every sum the callback was given agrees with the values that were live at that call: the
events add the values that were passed in, take the oldest first and leave those of `live`. No
operation overflows if these sums and the values all fit. -/
structure SumsRight (pipe : Option (κ → BitVec 32 → κ)) (pipeData : κ) (passed : List Int) (this : Swint32summer κ)
    (live : List Int) (events : List (Kind × Int)) (reports : List (BitVec 32)) : Prop where
  announced : added events = passed
  reported : Reported pipe pipeData (fun sum now => sum.toInt ≡ now.sum [ZMOD 2 ^ 32]) this.pipeData live events reports
  exact : (∀ value ∈ passed, FitsInt32 value) →
    (∀ k now, Replays [] (events.take k) now → FitsInt32 now.sum) → this.overflowed = false

/-! ## Words -/

theorem toInt_ofInt_of_fits {value : Int} (h : FitsInt32 value) : (BitVec.ofInt 32 value).toInt = value :=
  BitVec.toInt_ofInt_eq_self (by decide) h.1 h.2

theorem ofInt_congruent (value : Int) : (BitVec.ofInt 32 value).toInt ≡ value [ZMOD 2 ^ 32] := by
  rw [Int.ModEq, BitVec.toInt_ofInt]
  exact Int.bmod_emod

theorem saddOverflow_of_fits {a b : Int} (ha : FitsInt32 a) (hb : FitsInt32 b) (hab : FitsInt32 (a + b)) :
    (BitVec.ofInt 32 a).saddOverflow (BitVec.ofInt 32 b) = false := by
  obtain ⟨hlow, hhigh⟩ := hab
  rw [BitVec.saddOverflow, toInt_ofInt_of_fits ha, toInt_ofInt_of_fits hb, Bool.or_eq_false_iff]
  exact ⟨decide_eq_false (by omega), decide_eq_false (by omega)⟩

theorem ssubOverflow_of_fits {a b : Int} (ha : FitsInt32 a) (hb : FitsInt32 b) (hab : FitsInt32 (a - b)) :
    (BitVec.ofInt 32 a).ssubOverflow (BitVec.ofInt 32 b) = false := by
  obtain ⟨hlow, hhigh⟩ := hab
  rw [BitVec.ssubOverflow, toInt_ofInt_of_fits ha, toInt_ofInt_of_fits hb, Bool.or_eq_false_iff]
  exact ⟨decide_eq_false (by omega), decide_eq_false (by omega)⟩

/-! ## The plugin -/

@[simp] theorem reportSum_sum (this : Swint32summer κ) : (reportSum this).sum = this.sum := by
  unfold reportSum
  split <;> rfl

@[simp] theorem reportSum_overflowed (this : Swint32summer κ) :
    (reportSum this).overflowed = this.overflowed := by
  unfold reportSum
  split <;> rfl

@[simp] theorem reportSum_pipe (this : Swint32summer κ) : (reportSum this).pipe = this.pipe := by
  unfold reportSum
  split <;> rfl

theorem reportSum_pipeData (this : Swint32summer κ) :
    (reportSum this).pipeData = callAll this.pipe this.pipeData [this.sum] := by
  unfold reportSum callAll
  split
  next hpipe => rw [hpipe]
  next hpipe => rw [hpipe]; rfl

/-- The plugin between two calls of its pipes. -/
structure SumOk (pipe : Option (κ → BitVec 32 → κ)) (pipeData : κ) (passed : List Int) (this : Swint32summer κ)
    (live : List Int) (events : List (Kind × Int)) (reports : List (BitVec 32)) : Prop extends
    SumsRight pipe pipeData passed this live events reports where
  pipe_eq : this.pipe = pipe
  sum_eq : this.sum = BitVec.ofInt 32 live.sum

theorem sumOk_ctor (pipe : Option (κ → BitVec 32 → κ)) (pipeData : κ) :
    SumOk pipe pipeData [] (swint32summerCtor pipe pipeData) [] [] [] where
  announced := rfl
  reported := reported_nil pipe pipeData _
  exact _ _ := rfl
  pipe_eq := rfl
  sum_eq := rfl

variable {pipe : Option (κ → BitVec 32 → κ)} {pipeData : κ} {passed live live' : List Int} {this : Swint32summer κ}
  {events : List (Kind × Int)} {reports : List (BitVec 32)}

/-- The sums before and after an event are among those of a run. -/
theorem SumOk.exact_event (h : SumOk pipe pipeData passed this live events reports) (e : Kind × Int)
    (hreplays : Replays [] (events ++ [e]) live') (hvalues : ∀ value ∈ passed, FitsInt32 value)
    (hsums : ∀ k now, Replays [] ((events ++ [e]).take k) now → FitsInt32 now.sum) :
    this.overflowed = false ∧ FitsInt32 live.sum ∧ FitsInt32 live'.sum := by
  have hbefore : ∀ k now, Replays [] (events.take k) now → FitsInt32 now.sum := by
    intro k now hnow
    refine hsums (min k events.length) now ?_
    rw [List.take_append_of_le_length (Nat.min_le_right ..), List.take_eq_take_min.symm]
    exact hnow
  refine ⟨h.exact hvalues hbefore, hbefore events.length live ?_, hsums (events.length + 1) live' ?_⟩
  · rw [List.take_length]
    exact h.reported.replays
  · rw [List.take_of_length_le (by rw [List.length_append, List.length_singleton])]
    exact hreplays

/-- An event that moves the queue and the sum alike. -/
theorem SumOk.event (h : SumOk pipe pipeData passed this live events reports) (e : Kind × Int) {sum : BitVec 32}
    {overflow : Bool} (hmove : Replays live [e] live') (hsum : sum = BitVec.ofInt 32 live'.sum)
    (hfits : (∀ value ∈ passed ++ added [e], FitsInt32 value) → FitsInt32 live.sum → FitsInt32 live'.sum →
      overflow = false) :
    SumOk pipe pipeData (passed ++ added [e]) (reportSum { this with
      sum := sum
      overflowed := this.overflowed || overflow }) live' (events ++ [e]) (reports ++ [sum]) := by
  have hreplays : Replays [] (events ++ [e]) live' := h.reported.replays.append hmove
  refine ⟨⟨?_, ?_, ?_⟩, ?_, ?_⟩
  · rw [added_append, h.announced]
  · rw [reportSum_pipeData]
    show Reported pipe pipeData _ (callAll this.pipe this.pipeData [sum]) live' _ _
    rw [h.pipe_eq]
    exact h.reported.event e sum hmove (by rw [hsum]; exact ofInt_congruent live'.sum)
  · intro hvalues hsums
    have hpassed : ∀ value ∈ passed, FitsInt32 value := fun value hvalue => hvalues value (List.mem_append_left _ hvalue)
    obtain ⟨hearlier, hlive, hlive'⟩ := h.exact_event e hreplays hpassed hsums
    rw [reportSum_overflowed]
    show (this.overflowed || overflow) = false
    rw [hearlier, hfits hvalues hlive hlive']
    rfl
  · rw [reportSum_pipe]
    exact h.pipe_eq
  · rw [reportSum_sum]
    exact hsum

/-- What is left was there or was added. -/
theorem Replays.mem {D : Type} {live left : List D} {events : List (Kind × D)} (h : Replays live events left) {d : D}
    (hd : d ∈ left) : d ∈ live ∨ d ∈ added events := by
  induction events generalizing live with
  | nil =>
    cases h
    exact Or.inl hd
  | cons e events ih =>
    obtain ⟨kind, d'⟩ := e
    cases kind with
    | add =>
      rcases ih h with hlive | hadded
      · rcases List.mem_append.mp hlive with hlive | hnew
        · exact Or.inl hlive
        · exact Or.inr (List.mem_cons.mpr (Or.inl (List.mem_singleton.mp hnew)))
      · exact Or.inr (List.mem_cons_of_mem _ hadded)
    | rem =>
      obtain ⟨rest, rfl, hrest⟩ := h
      rcases ih hrest with hlive | hadded
      · exact Or.inl (List.mem_cons_of_mem _ hlive)
      · exact Or.inr hadded

theorem swint32sumAddPipe_spec (h : SumOk pipe pipeData passed this live events reports) {storage : Swstorage}
    {ref : Option IntRef} {value : Int} (hvalue : valueAt storage ref = some value) :
    ∃ this' sum, swint32sumAddPipe storage ref this = some this' ∧
      SumOk pipe pipeData (passed ++ [value]) this' (live ++ [value]) (events ++ [(.add, value)])
        (reports ++ [sum]) := by
  obtain ⟨item, rfl, hitem⟩ := Option.bind_eq_some_iff.mp hvalue
  have hadd : swint32sumAddPipe storage (some item) this = some (reportSum { this with
      sum := this.sum + BitVec.ofInt 32 value
      overflowed := this.overflowed || this.sum.saddOverflow (BitVec.ofInt 32 value) }) := by
    simp only [swint32sumAddPipe, hitem, Option.bind_eq_bind, Option.bind_some]
  have hsum : (live ++ [value]).sum = live.sum + value := by rw [List.sum_append, List.sum_singleton]
  refine ⟨_, _, hadd, h.event (.add, value) rfl ?_ fun hvalues hlive hlive' => ?_⟩
  · rw [h.sum_eq, hsum, BitVec.ofInt_add]
  · rw [hsum] at hlive'
    rw [h.sum_eq]
    exact saddOverflow_of_fits hlive (hvalues value (List.mem_append_right _ (List.mem_singleton_self _))) hlive'

/-- The value that is subtracted was passed in. -/
theorem swint32sumRemPipe_spec {value : Int} (h : SumOk pipe pipeData passed this (value :: live) events reports)
    {storage : Swstorage} {ref : Option IntRef} (hvalue : valueAt storage ref = some value) :
    ∃ this' sum, swint32sumRemPipe storage ref this = some this' ∧
      SumOk pipe pipeData passed this' live (events ++ [(.rem, value)]) (reports ++ [sum]) := by
  obtain ⟨item, rfl, hitem⟩ := Option.bind_eq_some_iff.mp hvalue
  have hrem : swint32sumRemPipe storage (some item) this = some (reportSum { this with
      sum := this.sum - BitVec.ofInt 32 value
      overflowed := this.overflowed || this.sum.ssubOverflow (BitVec.ofInt 32 value) }) := by
    simp only [swint32sumRemPipe, hitem, Option.bind_eq_bind, Option.bind_some]
  have hsum : (value :: live).sum = live.sum + value := by rw [List.sum_cons, Int.add_comm]
  have hpassed : value ∈ passed := by
    rcases h.reported.replays.mem (List.mem_cons_self ..) with hnone | hadded
    · cases hnone
    · rwa [h.announced] at hadded
  have hsame : passed = passed ++ added [(Kind.rem, value)] := (List.append_nil passed).symm
  rw [hsame]
  refine ⟨_, _, hrem, h.event (.rem, value) ⟨live, rfl, rfl⟩ ?_ fun hvalues hlive hlive' => ?_⟩
  · rw [h.sum_eq, hsum, BitVec.ofInt_add, BitVec.add_sub_cancel]
  · rw [h.sum_eq]
    refine ssubOverflow_of_fits hlive (hvalues value (List.mem_append_left _ hpassed)) ?_
    rwa [hsum, Int.add_sub_cancel]

/-! ## The window -/

/-- The plugin has not faulted and is right about the values of the tracked items. -/
def SumKeeps (pipe : Option (κ → BitVec 32 → κ)) (pipeData : κ) (world : SumWorld κ) (refs : List (Option IntRef))
    (passed : List Int) : Prop :=
  ∃ this live events reports, world.rest = some this ∧ refs.map (valueAt world.swstorage) = live.map some ∧
    SumOk pipe pipeData passed this live events reports

theorem observes_sum (n : Nat) (pipe : Option (κ → BitVec 32 → κ)) (pipeData : κ) :
    Observes n [makeSwint32Stater] (SumKeeps pipe pipeData) where
  rem := by
    intro world ref refs passed hleads hkeeps
    obtain ⟨this, live, events, reports, hrest, hlive, hok⟩ := hkeeps
    obtain ⟨value, live, rfl, hvalue, hlive⟩ := List.map_eq_cons_iff.mp hlive.symm
    obtain ⟨this', sum, hrem, hok'⟩ := swint32sumRemPipe_spec hok hvalue.symm
    refine ⟨this', live, _, _, ?_, hlive.symm, hok'⟩
    show world.rest.bind (swint32sumRemPipe world.swstorage ref) = some this'
    rw [hrest, Option.bind_some, hrem]
  add := by
    intro world storage ref refs passed value hroom hleads hold hvalue hkeeps
    obtain ⟨this, live, events, reports, hrest, hlive, hok⟩ := hkeeps
    obtain ⟨this', sum, hadd, hok'⟩ := swint32sumAddPipe_spec hok hvalue
    refine ⟨this', live ++ [value], _, _, ?_, ?_, hok'⟩
    · show world.rest.bind (swint32sumAddPipe storage ref) = some this'
      rw [hrest, Option.bind_some, hadd]
    · show (refs ++ [ref]).map (valueAt storage) = (live ++ [value]).map some
      rw [List.map_append, List.map_append, List.map_congr_left hold, hlive, List.map_singleton, hvalue]
      rfl

theorem harmless_sum : Harmless [makeSwint32Stater (κ := κ)] := harmless_of_rest _ _

theorem IntTracks.trackedValues_of_map {ω : Type} {this : Slidingwindow IntRef (IntWorld ω)} {n first : Nat}
    {q : List (Addr × Slidingwindowitem IntRef)} {spare : List Addr} (h : IntTracks this n first q spare)
    (hlive : (datas q).map (valueAt this.world.swstorage) = live.map some) : trackedValues this = some live := by
  have hvalues : (q.map (entry this.world.swstorage)).map Prod.fst =
      ((datas q).map (valueAt this.world.swstorage)).map (Option.getD · 0) := by
    simp [datas, entry, Function.comp_def]
  rw [h.trackedValues_eq, hvalues, hlive, List.map_map]
  exact congrArg some (List.map_id live)

/-- Whatever is called after it was attached to the empty window, every call returns, and the
plugin has given its callback, at every call of its pipes, the sum of the values passed in since
then whose items have not left, up to a multiple of 2^32. -/
def ReportsSums (numLimit : Nat) (timeLimit : Exact) (pipe : Option (κ → BitVec 32 → κ)) (pipeData : κ) : Prop :=
  ∀ before after : List IntCall,
    Guarded callStep attachesEmpty
      (slidingwindowInt32Ctor numLimit timeLimit (some (swint32summerCtor pipe pipeData))) (sumCalls before after) →
    ∃ this outs plugin live events reports,
      run callStep (slidingwindowInt32Ctor numLimit timeLimit (some (swint32summerCtor pipe pipeData)))
        (sumCalls before after) = some (this, outs) ∧
      this.world.rest = some plugin ∧ plugin.pipe = pipe ∧ trackedValues this = some live ∧
      SumsRight pipe pipeData (after.flatMap IntCall.passed) plugin live events reports

theorem reportsSums_of_fits {n : Nat} (hn : 1 ≤ n) (hfit : n < 2147483647) (timeLimit : Exact)
    (pipe : Option (κ → BitVec 32 → κ)) (pipeData : κ) : ReportsSums n timeLimit pipe pipeData := by
  intro before after hempty
  have hnew : ∀ world : SumWorld κ, world.rest = some (swint32summerCtor pipe pipeData) →
      SumKeeps pipe pipeData world [] [] := fun world hrest => ⟨_, [], [], [], hrest, rfl, sumOk_ctor pipe pipeData⟩
  obtain ⟨this, outs, first, q, spare, hrun, h, hkeeps⟩ :=
    (observes_sum n pipe pipeData).attached harmless_sum hnew hn hfit timeLimit before after hempty
  obtain ⟨plugin, live, events, reports, hplugin, hlive, hok⟩ := hkeeps
  exact ⟨this, outs, plugin, live, events, reports, hrun, hplugin, hok.pipe_eq, h.trackedValues_of_map hlive,
    hok.toSumsRight⟩

theorem not_reportsSums (timeLimit : Exact) (pipe : Option (κ → BitVec 32 → κ)) (pipeData : κ) :
    ¬ ReportsSums 2147483647 timeLimit pipe pipeData := by
  intro hreports
  have hnone := attached_overflowed harmless_sum timeLimit (some (swint32summerCtor pipe pipeData))
    (fun _ => Mtime.zero) 7
  obtain ⟨this, outs, plugin, live, events, reports, hrun, -⟩ :=
    hreports [] [.addInt (fun _ => Mtime.zero) 7] ⟨rfl, fun _ _ _ => ⟨trivial, fun _ _ _ => trivial⟩⟩
  change run callStep _ [.addPlugin makeSwint32Stater, (IntCall.addInt (fun _ => Mtime.zero) 7).call] = _ at hrun
  rw [hnone] at hrun
  cases hrun

/-- The plugin reports the sums of the live values exactly when the number of slots of its window
fits in the word that counts them. -/
theorem sum_reports_live_values (numLimit : Nat) (hn : 1 ≤ numLimit) (hword : numLimit ≤ 2147483647)
    (timeLimit : Exact) (pipe : Option (κ → BitVec 32 → κ)) (pipeData : κ) :
    ReportsSums numLimit timeLimit pipe pipeData ↔ numLimit < 2147483647 := by
  constructor
  · intro hreports
    by_contra hlong
    obtain rfl : numLimit = 2147483647 := by omega
    exact not_reportsSums timeLimit pipe pipeData hreports
  · exact fun hfit => reportsSums_of_fits hn hfit timeLimit pipe pipeData

/-- A window of two, used and cleared before the plugin is attached, with a callback that keeps
what it is given. The sum leaves `int32_t` and comes back. -/
theorem sum_reports_live_values_run :
    ∃ this outs plugin live events reports,
      run callStep (slidingwindowInt32Ctor 2 (.fin 0)
          (some (swint32summerCtor (some fun (seen : List (BitVec 32)) sum => seen ++ [sum]) [])))
        (sumCalls [.addInt (fun _ => Mtime.zero) 9, .clear]
          [.addInt (fun _ => Mtime.zero) 2147483647, .addInt (fun _ => Mtime.zero) 1,
            .addInt (fun _ => Mtime.zero) (-5), .refresh fun _ => Mtime.zero]) = some (this, outs) ∧
      this.world.rest = some plugin ∧ plugin.pipe = some (fun seen sum => seen ++ [sum]) ∧
      trackedValues this = some live ∧
      SumsRight (some fun seen sum => seen ++ [sum]) [] [2147483647, 1, -5] plugin live events reports :=
  (sum_reports_live_values 2 (by decide) (by decide) (.fin 0) _ []).mpr (by decide) _ _ (by decide)

/-- The longest window there is has no slot for the first value. -/
theorem sum_storage_overflows :
    ¬ ReportsSums 2147483647 (.fin 0) (some fun (seen : List (BitVec 32)) sum => seen ++ [sum]) [] :=
  not_reportsSums (.fin 0) _ []

end Devclego.Sliding
