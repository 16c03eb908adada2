import Devclego.Arguments.Untagged

/-!
# What a command line means

`arg_parse` answers zero just when every option names an entry, the other arguments find
one, and each entry is given as many arguments as it asks for, all of which it accepts.
The entries then hold what they were given. Otherwise it answers how many errors it has
kept, and nothing is written outside the arrays.
-/
namespace Devclego.Arguments

open Foundation

/-- What `getopt_long` is asked for: nothing when there are no arguments at all. -/
def commandLine (argv : List Text) (getopt : List Text → List Getopt × List Text) : List Getopt × List Text :=
  if argv = [] then ([], []) else getopt argv

/-- What the entries are given by a command line without an error. -/
structure Means (entries : List Arg) (line : List Getopt × List Text) (given : Nat → Given) : Prop where
  recognised : ∀ o ∈ line.1, (target entries o).isSome = true
  shared : Shares entries 0 (delivered entries line.1) line.2 given []
  least : ∀ (i : Nat) (entry : Arg), entries[i]? = some entry → ¬ entry.Lacks (given i).length
  within : Within entries given

/-- The errors of the entries from an index on that have been given too little. -/
def shortages (given : Nat → Given) : Nat → List Arg → List Registered
  | _, [] => []
  | i, entry :: entries =>
    if entry.Lacks (given i).length then
      { error := entry.emincount, parent := some i, argval := none } :: shortages given (i + 1) entries
    else shortages given (i + 1) entries

/-- The errors of a command line: those of the options and of the other arguments, or, if
there is none, those of the counts. -/
inductive Errors (entries : List Arg) (line : List Getopt × List Text) : (Nat → Given) → List Registered → Prop where
  | refused (given₀ given : Nat → Given) (left : List Text) (options others : List Registered)
      (hoptions : TriesAll entries (fun _ => []) line.1 options given₀) (hshares : Shares entries 0 given₀ line.2 given left)
      (hleft : Leftover entries given left others) (hsome : options ++ others ≠ []) : Errors entries line given (options ++ others)
  | counted (given₀ given : Nat → Given) (hoptions : TriesAll entries (fun _ => []) line.1 [] given₀)
      (hshares : Shares entries 0 given₀ line.2 given []) : Errors entries line given (shortages given 0 entries)

variable {t this : ArgTable} {given given' : Nat → Given} {rs rs' : List Registered} {entries : List Arg}
  {line : List Getopt × List Text} {i : Nat}

/-! ## Counts -/

theorem shortages_eq_nil_iff (k : Nat) (entries : List Arg) :
    shortages given k entries = [] ↔
      ∀ (i : Nat) (entry : Arg), entries[i]? = some entry → ¬ entry.Lacks (given (k + i)).length := by
  induction entries generalizing k with
  | nil =>
    refine iff_of_true rfl fun i entry hentry => ?_
    cases hentry
  | cons entry entries ih =>
    rw [shortages]
    by_cases hlacks : entry.Lacks (given k).length
    · rw [if_pos hlacks]
      exact iff_of_false (List.cons_ne_nil _ _) fun hall => hall 0 entry rfl hlacks
    · rw [if_neg hlacks, ih]
      constructor
      · intro hall i entry' hentry'
        cases i with
        | zero =>
          cases hentry'
          exact hlacks
        | succ i =>
          have hnext := hall i entry' hentry'
          rw [Nat.add_right_comm] at hnext
          exact hnext
      · intro hall i entry' hentry'
        have hnext := hall (i + 1) entry' hentry'
        rw [← Nat.add_assoc, Nat.add_right_comm] at hnext
        exact hnext

theorem checkLoop_spec {last : ArgEnd} (h : Logs last rs) (k : Nat) (entries nexts : List Arg)
    (hlength : nexts.length = entries.length)
    (hfilled : ∀ i entry, entries[i]? = some entry → ∃ next, nexts[i]? = some next ∧ Filled entry (given (k + i)) next) :
    ∃ last', checkLoop last k nexts = some last' ∧ last'.maxcount = last.maxcount ∧
      Logs last' (rs ++ shortages given k entries) := by
  induction entries generalizing nexts last rs k with
  | nil =>
    rw [List.eq_nil_of_length_eq_zero hlength, shortages, List.append_nil]
    exact ⟨last, rfl, rfl, h⟩
  | cons entry entries ih =>
    obtain ⟨next, hnext, hfirst⟩ := hfilled 0 entry rfl
    cases nexts with
    | nil => cases hnext
    | cons next' nexts =>
      cases hnext
      have hrest : ∀ i entry, entries[i]? = some entry →
          ∃ next, nexts[i]? = some next ∧ Filled entry (given (k + 1 + i)) next := by
        intro i entry hentry
        rw [Nat.add_right_comm]
        exact hfilled (i + 1) entry hentry
      rw [checkLoop, checkfn_filled hfirst, Nat.add_zero, shortages]
      by_cases hlacks : entry.Lacks (given k).length
      · obtain ⟨mid, hmid, hmax, hlogs⟩ := h.register { error := entry.emincount, parent := some k, argval := none }
        obtain ⟨last', hloop, hmax', hlogs'⟩ := ih hlogs (k + 1) nexts (Nat.succ.inj hlength) hrest
        rw [List.append_assoc] at hlogs'
        rw [if_pos hlacks, if_pos (emincount_ne_zero hlacks.1), hmid, Option.bind_some, if_pos hlacks]
        exact ⟨last', hloop, hmax'.trans hmax, hlogs'⟩
      · rw [if_neg hlacks, if_neg (not_not.mpr rfl), if_neg hlacks]
        exact ih h (k + 1) nexts (Nat.succ.inj hlength) hrest

/-- The entries that are given too little are errors. -/
theorem ParseState.check (h : ParseState t given rs this) :
    ∃ this', argParseCheck this = some this' ∧ ParseState t given (rs ++ shortages given 0 t.entries) this' := by
  obtain ⟨last, hloop, hmax, hlogs⟩ := checkLoop_spec h.logs 0 t.entries this.entries h.length fun i entry hentry => by
    rw [Nat.zero_add]
    exact h.filled i entry hentry
  refine ⟨{ this with last := last }, ?_, h.length, h.filled, h.within, hlogs, hmax.trans h.maxcount⟩
  unfold argParseCheck
  rw [hloop]
  rfl

theorem ParseState.count_eq_zero_iff (h : ParseState t given rs this) : this.last.count = 0 ↔ rs = [] := by
  have hroom := h.logs.room
  have hcount := h.logs.count
  rw [← List.length_eq_zero_iff]
  omega

/-- What `arg_parse` comes to. -/
theorem argParse_spec (hready : Ready t) (argv : List Text) (getopt : List Text → List Getopt × List Text)
    (hoffered : ∀ o ∈ (commandLine argv getopt).1, Offered t.entries o) :
    ∃ this given rs, argParse t argv getopt = some (this, this.last.count) ∧ ParseState t given rs this ∧
      Errors t.entries (commandLine argv getopt) given rs := by
  have hstart := hready.reset
  unfold argParse
  unfold commandLine at hoffered ⊢
  by_cases hargv : argv = []
  · obtain ⟨this, hcheck, hstate⟩ := hstart.check
    simp only [if_pos hargv, hcheck, Option.bind_eq_bind, Option.bind_some]
    exact ⟨this, _, _, rfl, hstate, .counted (fun _ => []) _ (.nil _) (shares_nil ..)⟩
  · rw [if_neg hargv] at hoffered ⊢
    obtain ⟨tagged, given₀, options, htagged, hstate₀, htries⟩ := hstart.tagged hready hoffered
    obtain ⟨shared, given, left, others, huntagged, hstate₁, hshares, hleft⟩ := hstate₀.untagged hready (getopt argv).2
    rw [List.nil_append] at hstate₁
    simp only [if_neg hargv, htagged, huntagged, Option.bind_eq_bind, Option.bind_some]
    by_cases hcount : shared.last.count = 0
    · obtain ⟨this, hcheck, hstate⟩ := hstate₁.check
      obtain ⟨rfl, rfl⟩ := List.append_eq_nil_iff.mp (hstate₁.count_eq_zero_iff.mp hcount)
      rw [hleft.eq_nil_iff.mp rfl] at hshares
      rw [if_pos hcount, hcheck]
      exact ⟨this, given, _, rfl, hstate, .counted given₀ given htries hshares⟩
    · rw [if_neg hcount]
      exact ⟨shared, given, _, rfl, hstate₁,
        .refused given₀ given left options others htries hshares hleft (mt hstate₁.count_eq_zero_iff.mpr hcount)⟩

/-! ## Errors and meaning -/

theorem Shares.within {left rest : List Text} {k : Nat} (h : Shares entries k given rest given' left)
    (hwithin : Within entries given) : Within entries given' := by
  induction h with
  | done => exact hwithin
  | skip entry hk htagged h ih => exact ih hwithin
  | take entry s hk huntagged htakes h ih => exact ih (hwithin.deliver hk fun _ => htakes)
  | pass entry hk huntagged hnot h ih => exact ih hwithin

/-- A command line has one list of errors. -/
theorem Errors.unique (h : Errors entries line given rs) (h' : Errors entries line given' rs') : given = given' ∧ rs = rs' := by
  cases h with
  | refused given₀ given left options others hoptions hshares hleft hsome =>
    cases h' with
    | refused _ _ _ _ _ hoptions' hshares' hleft' =>
      obtain ⟨rfl, rfl⟩ := hoptions.unique hoptions'
      obtain ⟨rfl, rfl⟩ := hshares.unique hshares'
      rw [hleft.unique hleft']
      exact ⟨rfl, rfl⟩
    | counted _ _ hoptions' hshares' =>
      obtain ⟨rfl, rfl⟩ := hoptions.unique hoptions'
      obtain ⟨rfl, rfl⟩ := hshares.unique hshares'
      exact absurd (hleft.eq_nil_iff.mpr rfl) hsome
  | counted given₀ given hoptions hshares =>
    cases h' with
    | refused _ _ _ _ _ hoptions' hshares' hleft hsome =>
      obtain ⟨rfl, rfl⟩ := hoptions.unique hoptions'
      obtain ⟨rfl, rfl⟩ := hshares.unique hshares'
      exact absurd (hleft.eq_nil_iff.mpr rfl) hsome
    | counted _ _ hoptions' hshares' =>
      obtain ⟨-, rfl⟩ := hoptions.unique hoptions'
      obtain ⟨rfl, -⟩ := hshares.unique hshares'
      exact ⟨rfl, rfl⟩

/-- Without an error, the entries are given what the command line means. -/
theorem Errors.means (h : Errors entries line given rs) (hstart : Within entries fun _ => []) (hnil : rs = []) :
    Means entries line given := by
  cases h with
  | refused given₀ given left options others hoptions hshares hleft hsome => exact absurd hnil hsome
  | counted given₀ given hoptions hshares =>
    have htaken := (hoptions.nil_iff hstart).mp rfl
    have hwithin := hshares.within (hoptions.within hstart)
    rw [hoptions.delivered rfl] at hshares
    have hleast := (shortages_eq_nil_iff 0 entries).mp hnil
    simp only [Nat.zero_add] at hleast
    exact ⟨htaken.recognised, hshares, hleast, hwithin⟩

/-- What a command line means, the entries take without an error. -/
theorem Means.errors (h : Means entries line given) (hstart : Within entries fun _ => [])
    (herrors : Errors entries line given' rs) : rs = [] := by
  have hbefore := h.shared.prefix
  have htaken : AllTaken entries (fun _ => []) line.1 := by
    refine ⟨h.recognised, ⟨fun i entry hentry hscan => ?_, fun i entry hentry hscan a ha => ?_⟩⟩
    · have hmost := h.within.bound i entry hentry hscan
      have hle := (hbefore i).length_le
      rw [List.nil_append]
      omega
    · exact h.within.accepted i entry hentry hscan a ((hbefore i).subset ha)
  cases herrors with
  | refused given₀ given' left options others hoptions hshares hleft hsome =>
    have hnone := (hoptions.nil_iff hstart).mpr htaken
    rw [hoptions.delivered hnone] at hshares
    obtain ⟨rfl, rfl⟩ := hshares.unique h.shared
    exact absurd (List.append_eq_nil_iff.mpr ⟨hnone, hleft.eq_nil_iff.mpr rfl⟩) hsome
  | counted given₀ given' hoptions hshares =>
    rw [hoptions.delivered rfl] at hshares
    obtain ⟨rfl, -⟩ := hshares.unique h.shared
    refine (shortages_eq_nil_iff 0 entries).mpr fun i entry hentry => ?_
    rw [Nat.zero_add]
    exact h.least i entry hentry

/-- An entry without a value counts the options that name it, up to its most, whatever
else goes wrong. -/
theorem Errors.flag (h : Errors entries line given rs) (hstart : Within entries fun _ => []) {arg : ArgLit}
    (hflag : entries[i]? = some (.lit arg)) (hvalue : arg.hdr.hasValue = false)
    (htagged : (Arg.lit arg).untagged = false) :
    ((given i).length : Int) = min ((delivered entries line.1 i).length : Int) arg.hdr.maxcount := by
  cases h with
  | refused given₀ given left options others hoptions hshares hleft hsome =>
    rw [hshares.tagged_eq hflag htagged]
    exact hoptions.flag hstart hflag hvalue
  | counted given₀ given hoptions hshares =>
    rw [hshares.tagged_eq hflag htagged]
    exact hoptions.flag hstart hflag hvalue

/-- A flag with an option and up to two integers without one. -/
def someTable : ArgTable where
  entries := [.lit (argLitn (some (text "v")) (some (text "verbose")) 0 3), .int (argIntn none none none 1 2)]
  last := argEnd 4

theorem ready_someTable : Ready someTable := by
  refine ready_made (List.forall_mem_cons.mpr ⟨?_, List.forall_mem_singleton.mpr ?_⟩) (by decide)
  · exact .lit _ _ 0 3 (by decide)
  · exact .int _ _ _ 1 2 (by decide)

end Devclego.Arguments
