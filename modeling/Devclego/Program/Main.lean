import Devclego.Arguments.Messages
import Devclego.Program.Running

/-!
# From the command line to the exit

`main` of `main.c`: the options `-h` and `-t`, then the program. The messages of the errors
are printed, which faults when one does not fit into its buffer; their text and the other
output are left out. An allocation does not fail.
-/
namespace Devclego.Program

open Foundation Devclego.Components Devclego.Arguments
open Devclego.Dictionaries hiding Text

def helpArg : ArgLit := argLitn (some (text "h")) (some (text "help")) 0 1

def timeArg : ArgInt := argIntn (some (text "t")) (some (text "time")) (some (text "<n>")) 0 1

def argtable : ArgTable where
  entries := [.lit helpArg, .int timeArg]
  last := argEnd 20

/-- What `program` finds in its argument; the value must have been written. -/
def timeOption (time : ArgInt) : Option (Option Int) :=
  if time.count = 0 then some none
  else
    match time.ival with
    | some ival :: _ => some (some ival)
    | _ => none

def exitCode : Step → Nat
  | .error code => code
  | .ok _ => 0

/-- The exit code, with the seconds that the program sleeps. -/
def main (files : Text → Option (List Byte)) (mem : Mem) (argv : List Text)
    (getopt : List Text → List Getopt × List Text) (running : Nat → Bool) (fuel : Nat) : Option (Nat × Nat) := do
  let (parsed, nerrors) ← argParse argtable argv getopt
  match parsed.entries with
  | [.lit help, .int time] =>
    if 0 < help.count then some (0, 0)
    else if 0 < nerrors then do
      let _ ← argPrintErrors parsed argv.head?
      some (1, 0)
    else do
      let (step, slept) ← program files (constructed mem) running (← timeOption time) fuel
      some (exitCode step, slept)
  | _ => none

/-- Some option asks for help. -/
def AsksHelp (line : List Getopt × List Text) : Prop := ∃ o ∈ line.1, target argtable.entries o = some 0

/-- The time that the command line gives, if it gives one. -/
inductive GivesTime : Given → Option Int → Prop where
  | never : GivesTime [] none
  | after (s : Text) (v : Int) (h : IsInt s v) : GivesTime [some s] (some v)

/-- A time that is one too many, and too long for its message. -/
def TooLong (r : Registered) : Prop :=
  r.parent = some 1 ∧ r.error = emaxcountInt ∧ ∃ s, r.argval = some s ∧ 190 ≤ s.length

/-- What the program exits with, and after how many seconds. -/
inductive Exits (line : List Getopt × List Text) (running : Nat → Bool) : Nat → Nat → Prop where
  | help (h : AsksHelp line) : Exits line running 0 0
  | wrong (given : Nat → Given) (rs : List Registered) (h : ¬ AsksHelp line) (herrors : Errors argtable.entries line given rs)
      (hsome : rs ≠ []) (hfit : ∀ r ∈ keptErrors 20 rs, ¬ TooLong r) : Exits line running 1 0
  | served (given : Nat → Given) (time : Option Int) (n : Nat) (h : ¬ AsksHelp line)
      (hmeans : Means argtable.entries line given) (htime : GivesTime (given 1) time) (hends : EndsAfter running time n) :
      Exits line running 0 n

variable {line : List Getopt × List Text} {given : Nat → Given} {s : Text} {v w : Int}

theorem ready_argtable : Ready argtable := by
  refine ready_made (List.forall_mem_cons.mpr ⟨?_, List.forall_mem_singleton.mpr ?_⟩) (by decide)
  · exact .lit _ _ 0 1 (by decide)
  · exact .int _ _ _ 0 1 (by decide)

/-- A text denotes one value only. -/
theorem isInt_unique (hv : IsInt s v) (hw : IsInt s w) : v = w := by
  have hcount : 0 ≤ timeArg.count ∧ timeArg.count < timeArg.hdr.maxcount := by decide
  have hfirst := scanfnInt_denoted hcount rfl hv.1
  have hsecond := scanfnInt_denoted hcount rfl hw.1
  rw [if_pos hv.2] at hfirst
  rw [if_pos hw.2, hfirst] at hsecond
  have hvalues := congrArg ArgInt.ival (Prod.mk.inj (Option.some.inj hsecond)).1
  exact Option.some.inj (List.cons.inj hvalues).1

theorem asksHelp_iff : AsksHelp line ↔ delivered argtable.entries line.1 0 ≠ [] := by
  rw [← List.length_pos_iff, List.length_pos_iff_exists_mem]
  unfold AsksHelp delivered
  constructor
  · rintro ⟨o, ho, htarget⟩
    exact ⟨argumentOf o, List.mem_filterMap.mpr ⟨o, ho, if_pos htarget⟩⟩
  · rintro ⟨a, ha⟩
    obtain ⟨o, ho, hsome⟩ := List.mem_filterMap.mp ha
    refine ⟨o, ho, ?_⟩
    by_contra hnot
    rw [if_neg hnot] at hsome
    cases hsome

theorem timeOption_filled {time : ArgInt} (h : Filled (.int timeArg) (given 1) (.int time))
    (hmost : ((given 1).length : Int) ≤ 1) (hvalue : none ∉ given 1) :
    ∃ t, timeOption time = some t ∧ GivesTime (given 1) t := by
  cases h with
  | int arg _ ival hlength hvalues =>
    match hgiven : given 1 with
    | [] => exact ⟨none, rfl, .never⟩
    | [none] =>
      rw [hgiven] at hvalue
      exact absurd (List.mem_singleton_self _) hvalue
    | [some s] =>
      rw [hgiven] at hvalues
      obtain ⟨v, hv, hat⟩ := hvalues 0 s rfl
      cases ival with
      | nil => cases hat
      | cons value ival =>
        cases hat
        exact ⟨some v, rfl, .after s v hv⟩
    | _ :: _ :: _ =>
      rw [hgiven, List.length_cons, List.length_cons] at hmost
      omega

theorem entries_of_parse {this : ArgTable} {rs : List Registered} (h : ParseState argtable given rs this) :
    ∃ help time, this.entries = [.lit help, .int time] ∧ help.count = (given 0).length ∧
      Filled (.int timeArg) (given 1) (.int time) := by
  obtain ⟨first, hfirst, hhelp⟩ := h.filled 0 (.lit helpArg) rfl
  obtain ⟨second, hsecond, htime⟩ := h.filled 1 (.int timeArg) rfl
  have hlength : this.entries.length = 2 := h.length
  match hentries : this.entries with
  | [a, b] =>
    rw [hentries] at hfirst hsecond
    cases hfirst
    cases hsecond
    cases hhelp with
    | lit => cases htime with
      | int arg given ival hlength hvalues => exact ⟨_, _, rfl, rfl, .int timeArg _ ival hlength hvalues⟩
  | [] => rw [hentries] at hlength; cases hlength
  | [_] => rw [hentries] at hlength; cases hlength
  | _ :: _ :: _ :: _ => rw [hentries] at hlength; cases hlength

theorem entries_argtable {i : Nat} {entry : Arg} (h : argtable.entries[i]? = some entry) :
    i = 0 ∧ entry = .lit helpArg ∨ i = 1 ∧ entry = .int timeArg := by
  match i with
  | 0 => exact Or.inl ⟨rfl, (Option.some.inj h).symm⟩
  | 1 => exact Or.inr ⟨rfl, (Option.some.inj h).symm⟩
  | _ + 2 => cases h

theorem clean_argtable : ∀ entry ∈ argtable.entries, CleanHdr entry.hdr := by
  have hclean : Clean (text "h") ∧ Clean (text "help") ∧ Clean (text "t") ∧ Clean (text "time") ∧ Clean (text "<n>") := by
    decide
  obtain ⟨hh, hhelp, ht, htime, hn⟩ := hclean
  refine List.forall_mem_cons.mpr ⟨⟨?_, ?_, nofun⟩, List.forall_mem_singleton.mpr ⟨?_, ?_, ?_⟩⟩
  · rintro s ⟨⟩
    exact hh
  · rintro s ⟨⟩
    exact hhelp
  · rintro s ⟨⟩
    exact ht
  · rintro s ⟨⟩
    exact htime
  · rintro s ⟨⟩
    exact hn

theorem fits_argtable_iff (r : Registered) : Fits argtable.entries r ↔ ¬ TooLong r := by
  have hhelp : ∀ code argval, (shownOption (.lit helpArg) code argval).length < 200 := fun _ _ => by
    show (syntaxText (some (text "h")) (some (text "help")) none).length < 200
    decide
  have hkind : (syntaxText (some (text "t")) (some (text "time")) (some (text "<n>"))).length < 200 := by decide
  have hargument : ∀ s, syntaxText (some (text "t")) (some (text "time")) (some s) = text "-t|--time=" ++ s := fun _ => rfl
  have hprefix : (text "-t|--time=").length = 10 := by decide
  constructor
  · rintro hfits ⟨hparent, hcode, s, hs, hlong⟩
    have hshort := hfits 1 (.int timeArg) hparent rfl
    have hshown : shownOption (.int timeArg) r.error r.argval = text "-t|--time=" ++ s := by
      rw [hcode, hs]
      exact hargument s
    rw [hshown, List.length_append, hprefix] at hshort
    omega
  · intro hnot i entry hparent hentry
    rcases entries_argtable hentry with ⟨-, rfl⟩ | ⟨rfl, rfl⟩
    · exact hhelp _ _
    · by_cases hcode : r.error = emaxcountInt
      · have hshown : shownOption (.int timeArg) r.error r.argval = text "-t|--time=" ++ r.argval.getD [] := by
          rw [hcode]
          exact hargument _
        rw [hshown, List.length_append, hprefix]
        cases hargval : r.argval with
        | none => exact (by decide : 10 + 0 < 200)
        | some s =>
          by_contra hlong
          have hover : 190 ≤ s.length := by
            rw [Option.getD_some] at hlong
            omega
          exact hnot ⟨hparent, hcode, s, hargval, hover⟩
      · have hvalue : shownValue (.int timeArg) r.error r.argval = some (text "<n>") := if_neg hcode
        have hshown : shownOption (.int timeArg) r.error r.argval =
            syntaxText (some (text "t")) (some (text "time")) (some (text "<n>")) :=
          congrArg (syntaxText (some (text "t")) (some (text "time"))) hvalue
        rw [hshown]
        exact hkind

/-- What is given as the time came with an option. -/
theorem given_time (hmeans : Means argtable.entries line given) {a : Option Text} (ha : a ∈ given 1) :
    ∃ o ∈ line.1, target argtable.entries o = some 1 ∧ argumentOf o = a := by
  have htagged : (Arg.int timeArg).untagged = false := rfl
  rw [hmeans.shared.tagged_eq rfl htagged] at ha
  obtain ⟨o, ho, hsome⟩ := List.mem_filterMap.mp ha
  split at hsome
  · exact ⟨o, ho, ‹_›, Option.some.inj hsome⟩
  · cases hsome

theorem givesTime_unique {given : Given} {t u : Option Int} (h : GivesTime given t) (h' : GivesTime given u) : t = u := by
  cases h with
  | never =>
    cases h'
    rfl
  | after s v hv =>
    cases h' with
    | after _ w hw => rw [isInt_unique hv hw]

/-- Nothing is wrong with no arguments at all. -/
theorem errors_argtable_nil (h : Errors argtable.entries ([], []) given rs) : rs = [] := by
  have hstart := ready_argtable.reset.within
  have hmeans : Means argtable.entries ([], []) fun _ => [] := by
    refine ⟨List.forall_mem_nil _, shares_nil .., ?_, hstart⟩
    rintro i entry hentry ⟨-, hless⟩
    rcases entries_argtable hentry with ⟨-, rfl⟩ | ⟨-, rfl⟩
    · exact Int.lt_irrefl 0 hless
    · exact Int.lt_irrefl 0 hless
  exact hmeans.errors hstart h

/-- The errors are printed when no time that is one too many is too long. -/
theorem printed_argtable {this : ArgTable} {argv : List Text} {getopt : List Text → List Getopt × List Text}
    (hstate : ParseState argtable given rs this) (herrors : Errors argtable.entries (commandLine argv getopt) given rs)
    (hline : CleanLine (commandLine argv getopt)) (hsome : rs ≠ []) :
    (∃ out, argPrintErrors this argv.head? = some out) ↔ ∀ r ∈ keptErrors 20 rs, ¬ TooLong r := by
  simp only [← fits_argtable_iff]
  cases argv with
  | nil => exact absurd (errors_argtable_nil herrors) hsome
  | cons progname argv =>
    obtain ⟨hfit, hfault⟩ := hstate.printed clean_argtable (herrors.reported hline) progname
    rw [List.head?_cons]
    constructor
    · rintro ⟨out, hprinted⟩
      by_contra hnot
      cases hprinted.symm.trans (hfault hnot)
    · intro h
      obtain ⟨messages, -, hprinted⟩ := hfit h
      exact ⟨_, hprinted⟩

/-- `main` exits with a code after so many seconds just when the command line and the
flag of the signal handler say so. Otherwise it writes behind the buffer of a message, or
does not end. -/
theorem main_exits_iff (files : Text → Option (List Byte)) (mem : Mem) (argv : List Text)
    (getopt : List Text → List Getopt × List Text) (hoffered : ∀ o ∈ (commandLine argv getopt).1, Offered argtable.entries o)
    (hline : CleanLine (commandLine argv getopt))
    (hvalue : ∀ o ∈ (commandLine argv getopt).1, target argtable.entries o = some 1 → argumentOf o ≠ none)
    (running : Nat → Bool) (code n : Nat) :
    (∃ fuel, main files mem argv getopt running fuel = some (code, n)) ↔
      Exits (commandLine argv getopt) running code n := by
  obtain ⟨this, given, rs, hparse, hstate, herrors⟩ := argParse_spec ready_argtable argv getopt hoffered
  obtain ⟨help, time, hentries, hcount, htime⟩ := entries_of_parse hstate
  have hasks : 0 < help.count ↔ AsksHelp (commandLine argv getopt) := by
    have hflag := herrors.flag ready_argtable.reset.within (show argtable.entries[0]? = some (.lit helpArg) from rfl) rfl rfl
    have hmax : helpArg.hdr.maxcount = 1 := rfl
    rw [asksHelp_iff, ← List.length_pos_iff, hcount]
    omega
  have hwrong : 0 < this.last.count ↔ rs ≠ [] := by
    have hnone := hstate.count_eq_zero_iff
    have hkept := hstate.logs.count
    have hroom := hstate.logs.room
    rw [ne_eq, ← hnone]
    omega
  have hmain : ∀ fuel, main files mem argv getopt running fuel =
      if 0 < help.count then some (0, 0)
      else if 0 < this.last.count then (argPrintErrors this argv.head?).bind fun _ => some (1, 0)
      else (timeOption time).bind fun time =>
        (program files (constructed mem) running time fuel).map fun r => (exitCode r.1, r.2) := by
    intro fuel
    unfold main
    simp only [hparse, Option.bind_eq_bind, Option.bind_some, hentries]
    split
    · rfl
    · split
      · rfl
      · cases timeOption time with
        | none => rfl
        | some t =>
          simp only [Option.bind_some]
          cases program files (constructed mem) running t fuel with
          | none => rfl
          | some r => rfl
  by_cases hhelp : AsksHelp (commandLine argv getopt)
  · simp only [hmain, if_pos (hasks.mpr hhelp)]
    constructor
    · rintro ⟨fuel, h⟩
      cases h
      exact .help hhelp
    · intro h
      cases h with
      | help => exact ⟨0, rfl⟩
      | wrong given rs hnot => exact absurd hhelp hnot
      | served given t n hnot => exact absurd hhelp hnot
  · simp only [hmain, if_neg (mt hasks.mp hhelp)]
    by_cases hrs : rs = []
    · have hmeans := herrors.means ready_argtable.reset.within hrs
      obtain ⟨t, hoption, hgives⟩ : ∃ t, timeOption time = some t ∧ GivesTime (given 1) t := by
        refine timeOption_filled htime (hmeans.within.bound 1 (.int timeArg) rfl rfl) fun hmem => ?_
        obtain ⟨o, ho, htarget, hargument⟩ := given_time hmeans hmem
        exact hvalue o ho htarget hargument
      obtain ⟨stopped, -, hprogram⟩ := program_fires files mem
      have hloop : ∀ fuel, ((timeOption time).bind fun time =>
          (program files (constructed mem) running time fuel).map fun r => (exitCode r.1, r.2)) =
            (programLoop running t fuel 0 0).map fun slept => (0, slept) := by
        intro fuel
        rw [hoption, Option.bind_some, hprogram, Option.map_map]
        rfl
      simp only [if_neg (mt hwrong.mp (not_not.mpr hrs)), hloop, Option.map_eq_some_iff, Prod.mk.injEq]
      constructor
      · rintro ⟨fuel, slept, hends, rfl, rfl⟩
        exact .served given t slept hhelp hmeans hgives ((programLoop_ends_iff running t slept).mp ⟨fuel, hends⟩)
      · intro h
        cases h with
        | help hyes => exact absurd hyes hhelp
        | wrong given' rs' _ herrors' hsome => exact absurd ((herrors'.unique herrors).2.trans hrs) hsome
        | served given' u n _ hmeans' hgives' hends =>
          obtain ⟨rfl, -⟩ := hmeans.shared.unique hmeans'.shared
          rw [← givesTime_unique hgives hgives'] at hends
          obtain ⟨fuel, hfuel⟩ := (programLoop_ends_iff running t n).mpr hends
          exact ⟨fuel, n, hfuel, rfl, rfl⟩
    · have hprinted := printed_argtable hstate herrors hline hrs
      simp only [if_pos (hwrong.mpr hrs), Option.bind_eq_some_iff]
      constructor
      · rintro ⟨fuel, out, hout, h⟩
        cases h
        exact .wrong given rs hhelp herrors hrs (hprinted.mp ⟨out, hout⟩)
      · intro h
        cases h with
        | help hyes => exact absurd hyes hhelp
        | wrong given' rs' _ herrors' _ hfit =>
          rw [(herrors'.unique herrors).2] at hfit
          obtain ⟨out, hout⟩ := hprinted.mpr hfit
          exact ⟨0, out, hout, rfl⟩
        | served given' u n _ hmeans => exact absurd (hmeans.errors ready_argtable.reset.within herrors) hrs

/-- `-t` with any `int` -/
theorem means_timed {v : Int} (hv : InRange v) :
    Means argtable.entries ([.short (ascii 't') (some (decimal v))], [])
      (delivered argtable.entries [.short (ascii 't') (some (decimal v))]) where
  recognised := List.forall_mem_singleton.mpr rfl
  shared := .skip (.lit helpArg) rfl rfl (.skip (.int timeArg) rfl rfl (.done _ _ _ (Nat.le_refl _)))
  least := by
    rintro i entry hentry ⟨-, hless⟩
    rcases entries_argtable hentry with ⟨-, rfl⟩ | ⟨-, rfl⟩
    · exact Int.not_lt.mpr (Int.natCast_nonneg _) hless
    · exact Int.not_lt.mpr (Int.natCast_nonneg _) hless
  within := by
    constructor
    · intro i entry hentry _
      have hle := Int.ofNat_le.mpr (List.length_filterMap_le (fun o => if target argtable.entries o = some i then
        some (argumentOf o) else none) [Getopt.short (ascii 't') (some (decimal v))])
      rcases entries_argtable hentry with ⟨-, rfl⟩ | ⟨-, rfl⟩
      · exact hle
      · exact hle
    · intro i entry hentry _ a ha
      rcases entries_argtable hentry with ⟨-, rfl⟩ | ⟨rfl, rfl⟩
      · exact trivial
      · intro s hs
        cases List.mem_singleton.mp ha
        cases hs
        exact ⟨v, intText_decimal hv, hv⟩

/-- `-t 2` -/
theorem main_exits_after_time : ∃ fuel, main (fun _ => none) ⟨[]⟩ [text "devclego", text "-t", text "2"]
    (fun _ => ([.short (ascii 't') (some (decimal 2))], [])) (fun _ => true) fuel = some (0, 3) := by
  have htwo : InRange 2 := by decide
  have hint : IsInt (decimal 2) 2 := ⟨intText_decimal htwo, htwo⟩
  have hhelp : ¬ AsksHelp (commandLine [text "devclego", text "-t", text "2"] fun _ =>
      ([.short (ascii 't') (some (decimal 2))], [])) := by
    rintro ⟨o, ho, htarget⟩
    cases List.mem_singleton.mp ho
    cases htarget
  refine (main_exits_iff _ _ _ _ (List.forall_mem_singleton.mpr nofun)
    ⟨List.forall_mem_singleton.mpr ?_, List.forall_mem_nil _⟩ ?_ _ _ _).mpr
    (.served _ (some 2) 3 hhelp (means_timed (by decide)) (.after (decimal 2) 2 hint) ?_)
  · rintro s ⟨⟩
    exact (by decide : Clean (decimal 2))
  · refine List.forall_mem_singleton.mpr fun _ => ?_
    exact Option.some_ne_none _
  · exact ⟨Or.inr rfl, by decide, fun _ _ => by decide⟩

end Devclego.Program
