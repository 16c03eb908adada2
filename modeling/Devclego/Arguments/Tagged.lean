import Mathlib.Logic.Function.Basic
import Devclego.Arguments.Filling

/-!
# Options

Each option goes to the entry that it names. Those that name no entry, and those that
their entry refuses, are errors; no other option is.
-/
namespace Devclego.Arguments

open Foundation

/-- The entry that an option names, unless it lacks its argument. -/
def target (entries : List Arg) : Getopt → Option Nat
  | .long tabindex optarg _ =>
    entries[tabindex]?.bind fun entry => if optarg = some [] ∧ entry.hdr.hasValue = true then none else some tabindex
  | .short copt _ => findShortoption entries copt
  | _ => none

def argumentOf : Getopt → Option Text
  | .long _ optarg _ => optarg
  | .short _ optarg => optarg
  | _ => none

/-- What `getopt_long` can return for the entries: a long option is one of theirs. -/
def Offered (entries : List Arg) (o : Getopt) : Prop :=
  ∀ tabindex optarg arg, o = .long tabindex optarg arg → tabindex < entries.length

/-- A table whose arrays have their sizes, with room for an error. -/
structure Ready (t : ArgTable) : Prop where
  sized : ∀ entry ∈ t.entries, entry.Sized
  room : 0 < t.last.maxcount
  size : (t.last.errors.length : Int) = t.last.maxcount

/-- What the constructors make when they are asked for a count that is not negative. -/
inductive Made : Arg → Prop where
  | lit (shortopts longopts : Option Text) (mincount maxcount : Int) (h : 0 ≤ mincount ∨ 0 ≤ maxcount) :
      Made (.lit (argLitn shortopts longopts mincount maxcount))
  | int (shortopts longopts datatype : Option Text) (mincount maxcount : Int) (h : 0 ≤ mincount ∨ 0 ≤ maxcount) :
      Made (.int (argIntn shortopts longopts datatype mincount maxcount))
  | str (shortopts longopts datatype : Option Text) (mincount maxcount : Int) (h : 0 ≤ mincount ∨ 0 ≤ maxcount) :
      Made (.str (argStrn shortopts longopts datatype mincount maxcount))
  | rem (datatype : Option Text) : Made (argRem datatype)

/-- No entry has been given more than it takes. -/
structure Within (entries : List Arg) (given : Nat → Given) : Prop where
  bound : ∀ i entry, entries[i]? = some entry → entry.hasScanfn = true → ((given i).length : Int) ≤ entry.hdr.maxcount
  accepted : ∀ i entry, entries[i]? = some entry → entry.hasScanfn = true → ∀ a ∈ given i, entry.Accepts a

/-- A table while it is parsed: what its entries were given, and the errors so far. -/
structure ParseState (t : ArgTable) (given : Nat → Given) (rs : List Registered) (this : ArgTable) : Prop where
  length : this.entries.length = t.entries.length
  filled : ∀ i entry, t.entries[i]? = some entry → ∃ next, this.entries[i]? = some next ∧ Filled entry (given i) next
  within : Within t.entries given
  logs : Logs this.last rs
  maxcount : this.last.maxcount = t.last.maxcount

def deliver (given : Nat → Given) (i : Nat) (a : Option Text) : Nat → Given := Function.update given i (given i ++ [a])

def deliverOption (entries : List Arg) (given : Nat → Given) (o : Getopt) : Nat → Given :=
  match target entries o with
  | none => given
  | some i => deliver given i (argumentOf o)

/-- What the options bring to an entry. -/
def delivered (entries : List Arg) (options : List Getopt) (i : Nat) : Given :=
  options.filterMap fun o => if target entries o = some i then some (argumentOf o) else none

/-- The option names an entry, and this takes the argument. -/
def Good (entries : List Arg) (given : Nat → Given) (o : Getopt) : Prop :=
  ∃ i entry, target entries o = some i ∧ entries[i]? = some entry ∧
    (entry.hasScanfn = true → entry.Takes (given i).length (argumentOf o))

/-- What an entry answers to an argument: the errors, and what the entries have then been given. -/
inductive Answers (entries : List Arg) (given : Nat → Given) (i : Nat) (a : Option Text) :
    List Registered → (Nat → Given) → Prop where
  | taken (entry : Arg) (hentry : entries[i]? = some entry) (htakes : entry.hasScanfn = true → entry.Takes (given i).length a) :
      Answers entries given i a [] (deliver given i a)
  | refused (entry : Arg) (code : Int) (hentry : entries[i]? = some entry) (hscan : entry.hasScanfn = true)
      (hrefuses : Refuses entry (given i).length a code) :
      Answers entries given i a [{ error := code, parent := some i, argval := a }] given

/-- What an option brings. An empty argument, where one is needed, is an error and goes to
the entry nevertheless. -/
inductive Tries (entries : List Arg) (given : Nat → Given) : Getopt → List Registered → (Nat → Given) → Prop where
  | named (o : Getopt) (i : Nat) (errs : List Registered) (given' : Nat → Given) (htarget : target entries o = some i)
      (h : Answers entries given i (argumentOf o) errs given') : Tries entries given o errs given'
  | empty (i : Nat) (arg : Text) (entry : Arg) (errs : List Registered) (given' : Nat → Given)
      (hentry : entries[i]? = some entry) (hvalue : entry.hdr.hasValue = true)
      (h : Answers entries given i (some []) errs given') :
      Tries entries given (.long i (some []) arg) ({ error := argEmissarg, parent := none, argval := some arg } :: errs) given'
  | stray (copt : Byte) (optarg : Option Text) (hnone : findShortoption entries copt = none) :
      Tries entries given (.short copt optarg) [{ error := copt.toInt, parent := none, argval := none }] given
  | unknownLong (arg : Text) :
      Tries entries given (.unknownLong arg) [{ error := argElongopt, parent := none, argval := some arg }] given
  | unknownShort (optopt : Byte) :
      Tries entries given (.unknownShort optopt) [{ error := optopt.toInt, parent := none, argval := none }] given
  | missing (arg : Text) :
      Tries entries given (.missing arg) [{ error := argEmissarg, parent := none, argval := some arg }] given

/-- What options bring one after the other. -/
inductive TriesAll (entries : List Arg) : (Nat → Given) → List Getopt → List Registered → (Nat → Given) → Prop where
  | nil (given : Nat → Given) : TriesAll entries given [] [] given
  | cons {given mid given' : Nat → Given} {o : Getopt} {options : List Getopt} {errs errs' : List Registered}
      (h : Tries entries given o errs mid) (hrest : TriesAll entries mid options errs' given') :
      TriesAll entries given (o :: options) (errs ++ errs') given'

variable {t this : ArgTable} {given given' given'' : Nat → Given} {rs errs errs' : List Registered} {entry next : Arg} {i : Nat}
  {a : Option Text} {o : Getopt} {options : List Getopt} {entries : List Arg}

/-! ## Deliveries -/

theorem deliver_self (given : Nat → Given) (i : Nat) (a : Option Text) : deliver given i a i = given i ++ [a] :=
  Function.update_self ..

theorem deliver_ne {j : Nat} (h : j ≠ i) : deliver given i a j = given j := Function.update_of_ne h ..

theorem deliverOption_of_target (h : target entries o = some i) :
    deliverOption entries given o = deliver given i (argumentOf o) := by
  unfold deliverOption
  rw [h]

theorem foldl_deliverOption (entries : List Arg) (options : List Getopt) (given : Nat → Given) (i : Nat) :
    options.foldl (deliverOption entries) given i = given i ++ delivered entries options i := by
  unfold delivered
  induction options generalizing given with
  | nil => rw [List.foldl_nil, List.filterMap_nil, List.append_nil]
  | cons o options ih =>
    rw [List.foldl_cons, ih]
    cases htarget : target entries o with
    | none =>
      unfold deliverOption
      rw [List.filterMap_cons_none (by rw [htarget, if_neg nofun]), htarget]
    | some j =>
      rw [deliverOption_of_target htarget]
      by_cases hj : j = i
      · subst hj
        rw [List.filterMap_cons_some (by rw [htarget, if_pos rfl]), deliver_self, List.append_assoc]
        rfl
      · rw [List.filterMap_cons_none (by rw [htarget, if_neg fun h => hj (Option.some.inj h)]), deliver_ne (Ne.symm hj)]

theorem lt_of_target (h : target entries o = some i) : i < entries.length := by
  cases o with
  | long tabindex optarg arg =>
    obtain ⟨entry, hentry, hsome⟩ := Option.bind_eq_some_iff.mp h
    split at hsome
    · cases hsome
    · cases hsome
      exact (List.getElem?_eq_some_iff.mp hentry).1
  | short copt optarg =>
    unfold target findShortoption at h
    exact (List.findIdx?_eq_some_iff_findIdx_eq.mp h).1
  | unknownLong arg => cases h
  | unknownShort optopt => cases h
  | missing arg => cases h

/-! ## States -/

theorem ParseState.hdrs (h : ParseState t given rs this) : this.entries.map Arg.hdr = t.entries.map Arg.hdr := by
  apply List.ext_getElem?
  intro i
  rw [List.getElem?_map, List.getElem?_map]
  cases hentry : t.entries[i]? with
  | none =>
    rw [List.getElem?_eq_none_iff, ← h.length, ← List.getElem?_eq_none_iff] at hentry
    rw [hentry]
  | some entry =>
    obtain ⟨next, hnext, hfilled⟩ := h.filled i entry hentry
    rw [hnext, Option.map_some, Option.map_some, hfilled.hdr_eq]

theorem ParseState.findShortoption (h : ParseState t given rs this) (copt : Byte) :
    Arguments.findShortoption this.entries copt = Arguments.findShortoption t.entries copt := by
  have hmap : ∀ entries : List Arg, Arguments.findShortoption entries copt =
      (entries.map Arg.hdr).findIdx? fun hdr => hdr.shortopts.any fun s => s.contains copt := by
    intro entries
    rw [List.findIdx?_map]
    rfl
  rw [hmap, hmap, h.hdrs]

theorem Ready.maxcount_nonneg (hready : Ready t) (hentry : t.entries[i]? = some entry) (hscan : entry.hasScanfn = true) :
    0 ≤ entry.hdr.maxcount := by
  have hsized := hready.sized entry (List.mem_of_getElem? hentry)
  cases entry with
  | lit arg => exact hsized
  | int arg =>
    have hlength : (arg.ival.length : Int) = arg.hdr.maxcount := hsized
    exact hlength ▸ Int.natCast_nonneg _
  | str arg =>
    have hlength : (arg.sval.length : Int) = arg.hdr.maxcount := hsized
    exact hlength ▸ Int.natCast_nonneg _
  | rem hdr => cases hscan

theorem maxcount_countsHdr (hasValue : Bool) (shortopts longopts datatype : Option Text) {mincount maxcount : Int}
    (h : 0 ≤ mincount ∨ 0 ≤ maxcount) : 0 ≤ (countsHdr hasValue shortopts longopts datatype mincount maxcount).maxcount := by
  unfold countsHdr
  dsimp only
  split <;> omega

theorem ready_made {entries : List Arg} {maxcount : Int} (h : ∀ entry ∈ entries, Made entry) (hroom : 0 < maxcount) :
    Ready { entries := entries, last := argEnd maxcount } where
  sized := by
    intro entry hentry
    cases h entry hentry with
    | lit shortopts longopts mincount maxcount hcount => exact maxcount_countsHdr _ _ _ _ hcount
    | int shortopts longopts datatype mincount maxcount hcount =>
      exact (congrArg Int.ofNat (List.length_replicate ..)).trans (Int.toNat_of_nonneg (maxcount_countsHdr _ _ _ _ hcount))
    | str shortopts longopts datatype mincount maxcount hcount =>
      exact (congrArg Int.ofNat (List.length_replicate ..)).trans (Int.toNat_of_nonneg (maxcount_countsHdr _ _ _ _ hcount))
    | rem datatype => exact trivial
  room := hroom
  size := (congrArg Int.ofNat (List.length_replicate ..)).trans (Int.toNat_of_nonneg (Int.le_of_lt hroom))

/-- After `arg_reset` -/
theorem Ready.reset (hready : Ready t) : ParseState t (fun _ => []) [] (argReset t) where
  length := List.length_map ..
  filled := by
    intro i entry hentry
    refine ⟨resetfn entry, ?_, filled_reset entry⟩
    unfold argReset
    rw [List.getElem?_map, hentry]
    rfl
  within := ⟨fun i entry hentry hscan => hready.maxcount_nonneg hentry hscan, fun _ _ _ _ => List.forall_mem_nil _⟩
  logs := logs_reset hready.room hready.size
  maxcount := rfl

theorem ParseState.register (h : ParseState t given rs this) (r : Registered) :
    ∃ this', Arguments.register this r = some this' ∧ ParseState t given (rs ++ [r]) this' := by
  obtain ⟨last, hlast, hmax, hlogs⟩ := h.logs.register r
  refine ⟨{ this with last := last }, ?_, h.length, h.filled, h.within, hlogs, hmax.trans h.maxcount⟩
  unfold Arguments.register
  rw [hlast]
  rfl

theorem Within.deliver (h : Within entries given) (hentry : entries[i]? = some entry)
    (htakes : entry.hasScanfn = true → entry.Takes (given i).length a) : Within entries (Arguments.deliver given i a) where
  bound := by
    intro j entry' hentry' hscan
    by_cases hj : j = i
    · subst hj
      cases hentry.symm.trans hentry'
      rw [deliver_self, length_given]
      exact (htakes hscan).1
    · rw [deliver_ne hj]
      exact h.bound j entry' hentry' hscan
  accepted := by
    intro j entry' hentry' hscan
    by_cases hj : j = i
    · subst hj
      cases hentry.symm.trans hentry'
      rw [deliver_self]
      intro b hb
      rcases List.mem_append.mp hb with hb | hb
      · exact h.accepted j entry hentry hscan b hb
      · rw [List.mem_singleton.mp hb]
        exact (htakes hscan).2
    · rw [deliver_ne hj]
      exact h.accepted j entry' hentry' hscan

/-- An argument that its entry takes. -/
theorem ParseState.take (h : ParseState t given rs this) (hentry : t.entries[i]? = some entry)
    (hfilled : Filled entry (given i ++ [a]) next) (htakes : entry.hasScanfn = true → entry.Takes (given i).length a) :
    ParseState t (deliver given i a) rs { this with entries := this.entries.set i next } where
  length := by
    rw [List.length_set]
    exact h.length
  filled := by
    intro j entry' hentry'
    by_cases hj : j = i
    · subst hj
      cases hentry.symm.trans hentry'
      have hlt : j < this.entries.length := h.length ▸ (List.getElem?_eq_some_iff.mp hentry).1
      refine ⟨next, List.getElem?_set_self hlt, ?_⟩
      rw [deliver_self]
      exact hfilled
    · rw [deliver_ne hj, List.getElem?_set_ne (Ne.symm hj)]
      exact h.filled j entry' hentry'
  within := h.within.deliver hentry htakes
  logs := h.logs
  maxcount := h.maxcount

theorem set_same (h : entries[i]? = some next) : entries.set i next = entries := by
  obtain ⟨hlt, rfl⟩ := List.getElem?_eq_some_iff.mp h
  exact List.set_getElem_self hlt

theorem ParseState.scanEntry (hready : Ready t) (h : ParseState t given rs this) (hentry : t.entries[i]? = some entry)
    (a : Option Text) :
    ∃ this' given' errs, Arguments.scanEntry this i a = some this' ∧ ParseState t given' (rs ++ errs) this' ∧
      Answers t.entries given i a errs given' := by
  obtain ⟨next, hnext, hfilled⟩ := h.filled i entry hentry
  unfold Arguments.scanEntry
  rw [hnext]
  simp only [Option.bind_eq_bind, Option.bind_some, hfilled.hasScanfn_eq]
  by_cases hscan : entry.hasScanfn = true
  · rw [if_pos hscan]
    obtain ⟨htake, hleave⟩ :=
      scanfn_filled hfilled (hready.sized entry (List.mem_of_getElem? hentry)) (h.within.bound i entry hentry hscan) hscan
    by_cases htakes : entry.Takes (given i).length a
    · obtain ⟨next', hscanned, hfilled'⟩ := htake htakes
      rw [hscanned]
      refine ⟨_, deliver given i a, [], rfl, ?_, .taken entry hentry fun _ => htakes⟩
      rw [List.append_nil]
      exact h.take hentry hfilled' fun _ => htakes
    · obtain ⟨code, hrefuses, hscanned⟩ := hleave htakes
      rw [hscanned]
      simp only [Option.bind_some]
      rw [if_pos (hrefuses.ne_zero hscan), set_same hnext]
      obtain ⟨this', hregister, hstate⟩ := h.register { error := code, parent := some i, argval := a }
      exact ⟨this', given, _, hregister, hstate, .refused entry code hentry hscan hrefuses⟩
  · rw [if_neg hscan]
    have hrem : Filled entry (given i ++ [a]) next := by
      cases hfilled with
      | lit => exact absurd rfl hscan
      | int => exact absurd rfl hscan
      | str => exact absurd rfl hscan
      | rem hdr => exact .rem hdr _
    have hstate := h.take hentry hrem fun hscan' => absurd hscan' hscan
    rw [set_same hnext] at hstate
    refine ⟨this, deliver given i a, [], rfl, ?_, .taken entry hentry fun hscan' => absurd hscan' hscan⟩
    rw [List.append_nil]
    exact hstate

/-! ## Steps and runs -/

theorem ParseState.parseOption (hready : Ready t) (h : ParseState t given rs this) (hoffered : Offered t.entries o) :
    ∃ this' given' errs, Arguments.parseOption this o = some this' ∧ ParseState t given' (rs ++ errs) this' ∧
      Tries t.entries given o errs given' := by
  cases o with
  | long tabindex optarg arg =>
    have hlt : tabindex < t.entries.length := hoffered tabindex optarg arg rfl
    obtain ⟨entry, hentry⟩ : ∃ entry, t.entries[tabindex]? = some entry := ⟨_, List.getElem?_eq_getElem hlt⟩
    obtain ⟨next, hnext, hfilled⟩ := h.filled tabindex entry hentry
    rw [Arguments.parseOption, hnext]
    simp only [Option.bind_eq_bind, Option.bind_some, hfilled.hdr_eq]
    by_cases hmissing : optarg = some [] ∧ entry.hdr.hasValue = true
    · -- the empty argument is scanned after its error
      obtain ⟨missed, hregister, hstate⟩ := h.register { error := argEmissarg, parent := none, argval := some arg }
      obtain ⟨this', given', errs, hscan, hstate', hanswers⟩ := hstate.scanEntry hready hentry optarg
      rw [if_pos hmissing, hregister]
      simp only [Option.bind_some]
      rw [List.append_assoc] at hstate'
      obtain ⟨rfl, hvalue⟩ := hmissing
      exact ⟨this', given', _, hscan, hstate', .empty tabindex arg entry errs given' hentry hvalue hanswers⟩
    · have htarget : target t.entries (.long tabindex optarg arg) = some tabindex := by
        rw [target, hentry]
        exact if_neg hmissing
      obtain ⟨this', given', errs, hscan, hstate, hanswers⟩ := h.scanEntry hready hentry optarg
      rw [if_neg hmissing]
      exact ⟨this', given', errs, hscan, hstate, .named _ tabindex errs given' htarget hanswers⟩
  | short copt optarg =>
    rw [Arguments.parseOption, h.findShortoption]
    cases hfind : Arguments.findShortoption t.entries copt with
    | none =>
      obtain ⟨this', hregister, hstate⟩ := h.register { error := copt.toInt, parent := none, argval := none }
      exact ⟨this', given, _, hregister, hstate, .stray copt optarg hfind⟩
    | some tabindex =>
      have htarget : target t.entries (.short copt optarg) = some tabindex := hfind
      obtain ⟨entry, hentry⟩ : ∃ entry, t.entries[tabindex]? = some entry :=
        ⟨_, List.getElem?_eq_getElem (lt_of_target htarget)⟩
      obtain ⟨this', given', errs, hscan, hstate, hanswers⟩ := h.scanEntry hready hentry optarg
      exact ⟨this', given', errs, hscan, hstate, .named _ tabindex errs given' htarget hanswers⟩
  | unknownLong arg =>
    obtain ⟨this', hregister, hstate⟩ := h.register { error := argElongopt, parent := none, argval := some arg }
    exact ⟨this', given, _, hregister, hstate, .unknownLong arg⟩
  | unknownShort optopt =>
    obtain ⟨this', hregister, hstate⟩ := h.register { error := optopt.toInt, parent := none, argval := none }
    exact ⟨this', given, _, hregister, hstate, .unknownShort optopt⟩
  | missing arg =>
    obtain ⟨this', hregister, hstate⟩ := h.register { error := argEmissarg, parent := none, argval := some arg }
    exact ⟨this', given, _, hregister, hstate, .missing arg⟩

/-- The run keeps the state, with the errors that its options bring. -/
theorem ParseState.tagged (hready : Ready t) (h : ParseState t given rs this)
    (hoffered : ∀ o ∈ options, Offered t.entries o) :
    ∃ this' given' errs, argParseTagged this options = some this' ∧ ParseState t given' (rs ++ errs) this' ∧
      TriesAll t.entries given options errs given' := by
  induction options generalizing this given rs with
  | nil =>
    refine ⟨this, given, [], rfl, ?_, .nil given⟩
    rw [List.append_nil]
    exact h
  | cons o options ih =>
    obtain ⟨mid, given₁, errs, hstep, hstate, htries⟩ := h.parseOption hready (hoffered o (List.mem_cons_self ..))
    obtain ⟨this', given', errs', hrun, hstate', hall⟩ := ih hstate fun o' ho' => hoffered o' (List.mem_cons_of_mem _ ho')
    rw [List.append_assoc] at hstate'
    refine ⟨this', given', errs ++ errs', ?_, hstate', .cons htries hall⟩
    unfold argParseTagged
    rw [List.foldlM_cons, hstep]
    exact hrun

/-! ## What the errors say -/

theorem Answers.nil_iff (h : Answers entries given i a errs given') (hentry : entries[i]? = some entry) :
    errs = [] ↔ (entry.hasScanfn = true → entry.Takes (given i).length a) := by
  cases h with
  | taken entry' hentry' htakes =>
    cases hentry.symm.trans hentry'
    exact iff_of_true rfl htakes
  | refused entry' code hentry' hscan hrefuses =>
    cases hentry.symm.trans hentry'
    exact iff_of_false (List.cons_ne_nil _ _) fun htakes => hrefuses.not_takes (htakes hscan)

theorem Answers.delivered (h : Answers entries given i a errs given') (hnil : errs = []) : given' = deliver given i a := by
  cases h with
  | taken => rfl
  | refused => cases hnil

theorem Answers.kept (h : Answers entries given i a errs given') (hsome : errs ≠ []) : given' = given := by
  cases h with
  | taken => exact absurd rfl hsome
  | refused => rfl

theorem Answers.within (h : Answers entries given i a errs given') (hwithin : Within entries given) : Within entries given' := by
  cases h with
  | taken entry hentry htakes => exact hwithin.deliver hentry htakes
  | refused => exact hwithin

theorem Answers.unique (h : Answers entries given i a errs given') (h' : Answers entries given i a errs' given'') :
    errs = errs' ∧ given' = given'' := by
  cases h with
  | taken entry hentry htakes =>
    cases h' with
    | taken => exact ⟨rfl, rfl⟩
    | refused entry' code hentry' hscan hrefuses =>
      cases hentry.symm.trans hentry'
      exact absurd (htakes hscan) hrefuses.not_takes
  | refused entry code hentry hscan hrefuses =>
    cases h' with
    | taken entry' hentry' htakes =>
      cases hentry.symm.trans hentry'
      exact absurd (htakes hscan) hrefuses.not_takes
    | refused entry' code' hentry' hscan' hrefuses' =>
      cases hentry.symm.trans hentry'
      rw [hrefuses.unique hrefuses']
      exact ⟨rfl, rfl⟩

theorem target_empty {arg : Text} (hentry : entries[i]? = some entry) (hvalue : entry.hdr.hasValue = true) :
    target entries (.long i (some []) arg) = none := by
  rw [target, hentry]
  exact if_pos ⟨rfl, hvalue⟩

theorem not_good (h : target entries o = none) : ¬ Good entries given o := by
  rintro ⟨i, entry, htarget, -⟩
  cases h.symm.trans htarget

theorem Tries.nil_iff (h : Tries entries given o errs given') : errs = [] ↔ Good entries given o := by
  cases h with
  | named o i errs given' htarget h =>
    obtain ⟨entry, hentry⟩ : ∃ entry, entries[i]? = some entry := ⟨_, List.getElem?_eq_getElem (lt_of_target htarget)⟩
    rw [h.nil_iff hentry]
    refine ⟨fun htakes => ⟨i, entry, htarget, hentry, htakes⟩, ?_⟩
    rintro ⟨j, entry', htarget', hentry', htakes⟩
    cases htarget.symm.trans htarget'
    cases hentry.symm.trans hentry'
    exact htakes
  | empty i arg entry errs given' hentry hvalue h =>
    exact iff_of_false (List.cons_ne_nil _ _) (not_good (target_empty hentry hvalue))
  | stray copt optarg hnone => exact iff_of_false (List.cons_ne_nil _ _) (not_good hnone)
  | unknownLong arg => exact iff_of_false (List.cons_ne_nil _ _) (not_good rfl)
  | unknownShort optopt => exact iff_of_false (List.cons_ne_nil _ _) (not_good rfl)
  | missing arg => exact iff_of_false (List.cons_ne_nil _ _) (not_good rfl)

theorem Tries.delivered (h : Tries entries given o errs given') (hnil : errs = []) :
    given' = deliverOption entries given o := by
  cases h with
  | named o i errs given' htarget h => rw [deliverOption_of_target htarget, h.delivered hnil]
  | empty => cases hnil
  | stray => cases hnil
  | unknownLong => cases hnil
  | unknownShort => cases hnil
  | missing => cases hnil

theorem Tries.within (h : Tries entries given o errs given') (hwithin : Within entries given) : Within entries given' := by
  cases h with
  | named o i errs given' htarget h => exact h.within hwithin
  | empty i arg entry errs given' hentry hvalue h => exact h.within hwithin
  | stray => exact hwithin
  | unknownLong => exact hwithin
  | unknownShort => exact hwithin
  | missing => exact hwithin

/-- An entry that only counts its options is given nothing by an option with an error. -/
theorem Tries.flag_kept (h : Tries entries given o errs given') (hsome : errs ≠ []) {arg : ArgLit}
    (hflag : entries[i]? = some (.lit arg)) (hvalue : arg.hdr.hasValue = false) : given' i = given i := by
  cases h with
  | named o j errs given' htarget h => rw [h.kept hsome]
  | empty j text entry errs given' hentry hneeds h =>
    have hne : i ≠ j := by
      rintro rfl
      cases hentry.symm.trans hflag
      have hflagged : (Arg.lit arg).hdr.hasValue = false := hvalue
      rw [hflagged] at hneeds
      cases hneeds
    cases h with
    | taken => exact deliver_ne hne
    | refused => rfl
  | stray => rfl
  | unknownLong => rfl
  | unknownShort => rfl
  | missing => rfl

theorem Tries.unique (h : Tries entries given o errs given') (h' : Tries entries given o errs' given'') :
    errs = errs' ∧ given' = given'' := by
  cases h with
  | named o i errs given' htarget h =>
    cases h' with
    | named _ j _ _ htarget' h' =>
      cases htarget.symm.trans htarget'
      exact h.unique h'
    | empty j arg entry _ _ hentry hvalue => cases (target_empty hentry hvalue).symm.trans htarget
    | stray copt optarg hnone => cases hnone.symm.trans htarget
    | unknownLong => cases htarget
    | unknownShort => cases htarget
    | missing => cases htarget
  | empty i arg entry errs given' hentry hvalue h =>
    cases h' with
    | named _ j _ _ htarget' h' => cases (target_empty hentry hvalue).symm.trans htarget'
    | empty _ _ entry' errs' _ hentry' hvalue' h' =>
      obtain ⟨rfl, rfl⟩ := h.unique h'
      exact ⟨rfl, rfl⟩
  | stray copt optarg hnone =>
    cases h' with
    | named _ j _ _ htarget' h' => cases hnone.symm.trans htarget'
    | stray => exact ⟨rfl, rfl⟩
  | unknownLong arg =>
    cases h' with
    | named _ j _ _ htarget' h' => cases htarget'
    | unknownLong => exact ⟨rfl, rfl⟩
  | unknownShort optopt =>
    cases h' with
    | named _ j _ _ htarget' h' => cases htarget'
    | unknownShort => exact ⟨rfl, rfl⟩
  | missing arg =>
    cases h' with
    | named _ j _ _ htarget' h' => cases htarget'
    | missing => exact ⟨rfl, rfl⟩

/-- Every option names an entry, and no entry is given more than it takes. -/
structure AllTaken (entries : List Arg) (given : Nat → Given) (options : List Getopt) : Prop where
  recognised : ∀ o ∈ options, (target entries o).isSome = true
  within : Within entries fun i => given i ++ delivered entries options i

theorem deliverOption_delivered (entries : List Arg) (given : Nat → Given) (o : Getopt) (options : List Getopt) (i : Nat) :
    deliverOption entries given o i ++ delivered entries options i = given i ++ delivered entries (o :: options) i := by
  rw [← foldl_deliverOption, ← foldl_deliverOption, List.foldl_cons]

theorem AllTaken.cons : AllTaken entries given (o :: options) ↔
    Good entries given o ∧ AllTaken entries (deliverOption entries given o) options := by
  constructor
  · intro h
    constructor
    · obtain ⟨i, htarget⟩ := Option.isSome_iff_exists.mp (h.recognised o (List.mem_cons_self ..))
      obtain ⟨entry, hentry⟩ : ∃ entry, entries[i]? = some entry := ⟨_, List.getElem?_eq_getElem (lt_of_target htarget)⟩
      refine ⟨i, entry, htarget, hentry, fun hscan => ?_⟩
      have hfirst : Arguments.delivered entries (o :: options) i = argumentOf o :: Arguments.delivered entries options i :=
        List.filterMap_cons_some (by rw [htarget, if_pos rfl])
      have hbound := h.within.bound i entry hentry hscan
      have haccepted := h.within.accepted i entry hentry hscan
      rw [hfirst] at hbound haccepted
      rw [List.length_append, List.length_cons] at hbound
      exact ⟨by omega, haccepted _ (by simp)⟩
    · refine ⟨fun o' ho' => h.recognised o' (List.mem_cons_of_mem _ ho'), ?_⟩
      simp only [deliverOption_delivered]
      exact h.within
  · rintro ⟨⟨i, entry, htarget, -⟩, h⟩
    refine ⟨?_, ?_⟩
    · intro o' ho'
      rcases List.mem_cons.mp ho' with rfl | ho'
      · rw [htarget]
        rfl
      · exact h.recognised o' ho'
    · have hwithin := h.within
      simp only [deliverOption_delivered] at hwithin
      exact hwithin

theorem TriesAll.nil_iff (h : TriesAll entries given options errs given') (hwithin : Within entries given) :
    errs = [] ↔ AllTaken entries given options := by
  induction h with
  | nil given =>
    refine iff_of_true rfl ⟨List.forall_mem_nil _, ?_⟩
    have hnone : (fun i => given i ++ delivered entries [] i) = given := funext fun i => List.append_nil (given i)
    rw [hnone]
    exact hwithin
  | cons h hrest ih =>
    rw [List.append_eq_nil_iff, AllTaken.cons, h.nil_iff, ih (h.within hwithin)]
    refine and_congr_right fun hgood => ?_
    rw [h.delivered (h.nil_iff.mpr hgood)]

theorem TriesAll.delivered (h : TriesAll entries given options errs given') (hnil : errs = []) :
    given' = fun i => given i ++ Arguments.delivered entries options i := by
  induction h with
  | nil given => exact (funext fun i => List.append_nil (given i)).symm
  | cons h hrest ih =>
    obtain ⟨hfirst, hlast⟩ := List.append_eq_nil_iff.mp hnil
    rw [ih hlast, h.delivered hfirst]
    exact funext fun i => deliverOption_delivered ..

theorem TriesAll.within (h : TriesAll entries given options errs given') (hwithin : Within entries given) :
    Within entries given' := by
  induction h with
  | nil => exact hwithin
  | cons h hrest ih => exact ih (h.within hwithin)

theorem TriesAll.unique (h : TriesAll entries given options errs given') (h' : TriesAll entries given options errs' given'') :
    errs = errs' ∧ given' = given'' := by
  induction h generalizing errs' with
  | nil =>
    cases h'
    exact ⟨rfl, rfl⟩
  | cons h hrest ih =>
    cases h' with
    | cons h' hrest' =>
      obtain ⟨rfl, rfl⟩ := h.unique h'
      obtain ⟨rfl, rfl⟩ := ih hrest'
      exact ⟨rfl, rfl⟩

/-- Whatever else goes wrong, an entry without a value counts its options, up to its most. -/
theorem TriesAll.flag (h : TriesAll entries given options errs given') (hwithin : Within entries given) {arg : ArgLit}
    (hflag : entries[i]? = some (.lit arg)) (hvalue : arg.hdr.hasValue = false) :
    ((given' i).length : Int) = min ((given i ++ Arguments.delivered entries options i).length : Int) arg.hdr.maxcount := by
  induction h with
  | nil given =>
    rw [show Arguments.delivered entries [] i = [] from rfl, List.append_nil]
    exact (Int.min_eq_left (hwithin.bound i _ hflag rfl)).symm
  | @cons given mid given' o options errs errs' h hrest ih =>
    have hcounted := ih (h.within hwithin)
    rw [List.length_append] at hcounted ⊢
    by_cases hnil : errs = []
    · rw [h.delivered hnil, ← List.length_append, deliverOption_delivered, List.length_append] at hcounted
      exact hcounted
    · rw [h.flag_kept hnil hflag hvalue] at hcounted
      cases htarget : target entries o with
      | none =>
        rw [Arguments.delivered, List.filterMap_cons_none (by rw [htarget, if_neg nofun])]
        exact hcounted
      | some j =>
        by_cases hj : j = i
        · -- the flag was counted as often as it can be
          subst hj
          have hfull : ¬ ((given j).length : Int) < arg.hdr.maxcount := by
            intro hroom
            exact hnil (h.nil_iff.mpr ⟨j, _, htarget, hflag, fun _ => ⟨hroom, trivial⟩⟩)
          rw [Arguments.delivered, List.filterMap_cons_some (by rw [htarget, if_pos rfl]), List.length_cons]
          rw [Arguments.delivered] at hcounted
          omega
        · rw [Arguments.delivered, List.filterMap_cons_none (by rw [htarget, if_neg fun h => hj (Option.some.inj h)])]
          exact hcounted

end Devclego.Arguments
