import Devclego.Foundation.Strtol

/-!
# Command line arguments

`arg_parse` of `etc_argtable2.c` with the entries `arg_lit`, `arg_int`, `arg_str` and
`arg_rem`. `getopt_long` is not part of the sources: what it returns, call after call,
and the arguments that it leaves are given. A table is the list of its entries before
the terminator. An allocation does not fail. The build leaves `stdlib.h` out, so that
`strtol` is taken to return an `int`.
-/
namespace Devclego.Arguments

open Foundation

abbrev Text := List Byte

/-- The flag, options, name of the values and counts of `arg_hdr`. -/
structure ArgHdr where
  hasValue : Bool
  shortopts : Option Text
  longopts : Option Text
  datatype : Option Text
  mincount : Int
  maxcount : Int
deriving DecidableEq, Repr

structure ArgLit where
  hdr : ArgHdr
  count : Int
deriving DecidableEq, Repr

/-- The values are not initialised. -/
structure ArgInt where
  hdr : ArgHdr
  count : Int
  ival : List (Option Int)
deriving DecidableEq, Repr

structure ArgStr where
  hdr : ArgHdr
  count : Int
  sval : List (Option Text)
deriving DecidableEq, Repr

inductive Arg where
  | lit (arg : ArgLit)
  | int (arg : ArgInt)
  | str (arg : ArgStr)
  | rem (hdr : ArgHdr)
deriving DecidableEq, Repr

/-- `maxcount` is never less than `mincount`. -/
def countsHdr (hasValue : Bool) (shortopts longopts datatype : Option Text) (mincount maxcount : Int) : ArgHdr where
  hasValue := hasValue
  shortopts := shortopts
  longopts := longopts
  datatype := datatype
  mincount := mincount
  maxcount := if maxcount < mincount then mincount else maxcount

def argLitn (shortopts longopts : Option Text) (mincount maxcount : Int) : ArgLit where
  hdr := countsHdr false shortopts longopts none mincount maxcount
  count := 0

def argIntn (shortopts longopts datatype : Option Text) (mincount maxcount : Int) : ArgInt :=
  let hdr := countsHdr true shortopts longopts (some (datatype.getD (text "<int>"))) mincount maxcount
  { hdr := hdr, count := 0, ival := List.replicate hdr.maxcount.toNat none }

def argStrn (shortopts longopts datatype : Option Text) (mincount maxcount : Int) : ArgStr :=
  let hdr := countsHdr true shortopts longopts (some (datatype.getD (text "<string>"))) mincount maxcount
  { hdr := hdr, count := 0, sval := List.replicate hdr.maxcount.toNat (some []) }

def argRem (datatype : Option Text) : Arg := .rem (countsHdr false none none datatype 1 1)

/-! ## Error codes -/

def emincountInt : Int := 11

def emaxcountInt : Int := 12

def ebadint : Int := 13

def eoverflowInt : Int := 14

def emincountLit : Int := 15

def emaxcountLit : Int := 16

def emincountStr : Int := 1

def emaxcountStr : Int := 2

def argElimit : Int := 1

def argEnomatch : Int := 3

def argElongopt : Int := 4

def argEmissarg : Int := 5

/-! ## Integers -/

/-- `strtol` without a prototype: its caller finds the low half of the `long`. -/
def strtolInt (base : Nat) (s : Text) : Option (Int × Text) := (strtol base s).map fun r => (toInt32 r.1, r.2)

/-- `strtol0X_int`; `none` is a failed conversion. The sign is applied to a `long`. -/
def strtol0X (x : Char) (base : Nat) (s : Text) : Option (Int × Text) :=
  match scanSign (s.dropWhile isspace) with
  | (sign, zero :: c :: s) =>
    if zero ≠ ascii '0' then none
    else if toupper c ≠ toupper (ascii x) then none
    else (strtolInt base s).map fun r => (sign * r.1, r.2)
  | _ => none

/-- `detectsuffix_int` -/
def detectsuffix : Text → Text → Bool
  | [], [] => true
  | [], _ :: _ => false
  | c :: str, [] => (c :: str).all isspace
  | c :: str, d :: suffix => if toupper c = toupper d then detectsuffix str suffix else false

/-- The value and what follows it, in the first format that succeeds. -/
def scanFormats (argval : Text) : Option (Int × Text) :=
  (strtol0X 'X' 16 argval).or ((strtol0X 'O' 8 argval).or ((strtol0X 'B' 2 argval).or (strtolInt 10 argval)))

/-- The branch for a suffix that stands for a factor. -/
def multiply (unit val errorcode : Int) : Int × Int :=
  if intMax.tdiv unit < val ∨ val < intMin.tdiv unit then (val, eoverflowInt) else (val * unit, errorcode)

/-- The value with its suffix, and the error code. -/
def applySuffix (rest : Text) (val errorcode : Int) : Int × Int :=
  if detectsuffix rest (text "KB") then multiply 1024 val errorcode
  else if detectsuffix rest (text "MB") then multiply 1048576 val errorcode
  else if detectsuffix rest (text "GB") then multiply 1073741824 val errorcode
  else if detectsuffix rest [] then (val, errorcode)
  else (val, ebadint)

/-- An access of the array of values; an index outside it faults. -/
def storeAt {α : Type} (array : List (Option α)) (index : Int) (v : α) : Option (List (Option α)) :=
  if 0 ≤ index ∧ index < array.length then some (array.set index.toNat (some v)) else none

def scanfnInt (this : ArgInt) (argval : Option Text) : Option (ArgInt × Int) :=
  if this.count = this.hdr.maxcount then some (this, emaxcountInt)
  else
    match argval with
    | none => some ({ this with count := this.count + 1 }, 0)
    | some argval =>
      match scanFormats argval with
      | none => some (this, ebadint)
      | some (val, rest) => do
        let (val, errorcode) := applySuffix rest val (if intMax < val ∨ val < intMin then eoverflowInt else 0)
        if errorcode = 0 then
          let ival ← storeAt this.ival this.count val
          some ({ this with count := this.count + 1, ival := ival }, 0)
        else some (this, errorcode)

/-! ## Entries -/

def scanfnLit (this : ArgLit) : ArgLit × Int :=
  if this.count < this.hdr.maxcount then ({ this with count := this.count + 1 }, 0) else (this, emaxcountLit)

def scanfnStr (this : ArgStr) (argval : Option Text) : Option (ArgStr × Int) :=
  if this.count = this.hdr.maxcount then some (this, emaxcountStr)
  else
    match argval with
    | none => some ({ this with count := this.count + 1 }, 0)
    | some argval => do
      let sval ← storeAt this.sval this.count argval
      some ({ this with count := this.count + 1, sval := sval }, 0)

def Arg.hdr : Arg → ArgHdr
  | .lit arg => arg.hdr
  | .int arg => arg.hdr
  | .str arg => arg.hdr
  | .rem hdr => hdr

def Arg.hasScanfn : Arg → Bool
  | .rem _ => false
  | _ => true

/-- The call of an entry's function; that of `arg_rem` is a null pointer. -/
def scanfn : Arg → Option Text → Option (Arg × Int)
  | .lit arg, _ => some (.lit (scanfnLit arg).1, (scanfnLit arg).2)
  | .int arg, argval => (scanfnInt arg argval).map fun r => (.int r.1, r.2)
  | .str arg, argval => (scanfnStr arg argval).map fun r => (.str r.1, r.2)
  | .rem _, _ => none

/-- The error code, or zero also where there is no function. -/
def checkfn : Arg → Int
  | .lit arg => if arg.count < arg.hdr.mincount then emincountLit else 0
  | .int arg => if arg.count < arg.hdr.mincount then emincountInt else 0
  | .str arg => if arg.count < arg.hdr.mincount then emincountStr else 0
  | .rem _ => 0

def resetfn : Arg → Arg
  | .lit arg => .lit { arg with count := 0 }
  | .int arg => .int { arg with count := 0 }
  | .str arg => .str { arg with count := 0 }
  | .rem hdr => .rem hdr

/-! ## Errors -/

/-- An error of the entry with an index, or of the terminator. -/
structure Registered where
  error : Int
  parent : Option Nat
  argval : Option Text
deriving DecidableEq, Repr

/-- The terminator. Its arrays are not initialised. -/
structure ArgEnd where
  maxcount : Int
  count : Int
  errors : List (Option Registered)
deriving DecidableEq, Repr

def argEnd (maxcount : Int) : ArgEnd where
  maxcount := maxcount
  count := 0
  errors := List.replicate maxcount.toNat none

def argRegisterError (this : ArgEnd) (r : Registered) : Option ArgEnd := do
  if this.count < this.maxcount then
    let errors ← storeAt this.errors this.count r
    some { this with errors := errors, count := this.count + 1 }
  else
    let errors ← storeAt this.errors (this.maxcount - 1) { error := argElimit, parent := none, argval := none }
    some { this with errors := errors }

def registerAll (this : ArgEnd) (rs : List Registered) : Option ArgEnd := rs.foldlM argRegisterError this

/-! ## Parsing -/

/-- A table and its terminator. -/
structure ArgTable where
  entries : List Arg
  last : ArgEnd
deriving DecidableEq, Repr

/-- What `getopt_long` returns: the entry of a long option, a character or an error.
With it go `optarg` and the argument it has just passed, where they are used. -/
inductive Getopt where
  | long (tabindex : Nat) (optarg : Option Text) (arg : Text)
  | short (copt : Byte) (optarg : Option Text)
  | unknownLong (arg : Text)
  | unknownShort (optopt : Byte)
  | missing (arg : Text)
deriving DecidableEq, Repr

def findShortoption (entries : List Arg) (shortopt : Byte) : Option Nat :=
  entries.findIdx? fun entry => entry.hdr.shortopts.any fun s => s.contains shortopt

def register (this : ArgTable) (r : Registered) : Option ArgTable := do
  let last ← argRegisterError this.last r
  some { this with last := last }

/-- An argument for an entry with a function. -/
def scanEntry (this : ArgTable) (tabindex : Nat) (optarg : Option Text) : Option ArgTable := do
  let entry ← this.entries[tabindex]?
  if entry.hasScanfn then
    let (entry, errorcode) ← scanfn entry optarg
    let this := { this with entries := this.entries.set tabindex entry }
    if errorcode ≠ 0 then register this { error := errorcode, parent := some tabindex, argval := optarg } else some this
  else some this

/-- One round of `arg_parse_tagged`. -/
def parseOption (this : ArgTable) : Getopt → Option ArgTable
  | .long tabindex optarg arg => do
    let entry ← this.entries[tabindex]?
    let this ← (if optarg = some [] ∧ entry.hdr.hasValue = true then
      register this { error := argEmissarg, parent := none, argval := some arg } else some this)
    scanEntry this tabindex optarg
  | .short copt optarg =>
    match findShortoption this.entries copt with
    | none => register this { error := copt.toInt, parent := none, argval := none }
    | some tabindex => scanEntry this tabindex optarg
  | .unknownLong arg => register this { error := argElongopt, parent := none, argval := some arg }
  | .unknownShort optopt => register this { error := optopt.toInt, parent := none, argval := none }
  | .missing arg => register this { error := argEmissarg, parent := none, argval := some arg }

def argParseTagged (this : ArgTable) (options : List Getopt) : Option ArgTable := options.foldlM parseOption this

/-- An entry without options of its own and with a function. -/
def Arg.untagged (entry : Arg) : Bool := entry.hdr.longopts.isNone && entry.hdr.shortopts.isNone && entry.hasScanfn

/-- The first loop of `arg_parse_untagged`: the entries passed and ahead, the arguments
left and the last tentative error. -/
def untaggedLoop : Nat → List Arg → List Arg → List Text → Option Registered →
    Option (List Arg × List Text × Option Registered)
  | 0, _, _, _, _ => none
  | _ + 1, passed, [], rest, tentative => some (passed, rest, tentative)
  | fuel + 1, passed, entry :: ahead, rest, tentative =>
    match rest with
    | [] => some (passed ++ entry :: ahead, [], none)
    | arg :: rest' =>
      if entry.untagged then
        (scanfn entry (some arg)).bind fun (entry, errorcode) =>
          if errorcode = 0 then untaggedLoop fuel passed (entry :: ahead) rest' none
          else
            untaggedLoop fuel (passed ++ [entry]) ahead rest
              (some { error := errorcode, parent := some passed.length, argval := some arg })
      else untaggedLoop fuel (passed ++ [entry]) ahead rest tentative

def unmatched (arg : Text) : Registered := { error := argEnomatch, parent := none, argval := some arg }

def argParseUntagged (this : ArgTable) (rest : List Text) : Option ArgTable := do
  let (entries, rest, tentative) ← untaggedLoop (this.entries.length + rest.length + 1) [] this.entries rest none
  let errors := match tentative with
    | none => rest.map unmatched
    | some r => r :: rest.tail.map unmatched
  let last ← registerAll this.last errors
  some { entries := entries, last := last }

/-- The loop of `arg_parse_check`, from an index on. -/
def checkLoop (last : ArgEnd) : Nat → List Arg → Option ArgEnd
  | _, [] => some last
  | tabindex, entry :: entries =>
    if checkfn entry ≠ 0 then
      (argRegisterError last { error := checkfn entry, parent := some tabindex, argval := none }).bind fun last =>
        checkLoop last (tabindex + 1) entries
    else checkLoop last (tabindex + 1) entries

def argParseCheck (this : ArgTable) : Option ArgTable := do
  let last ← checkLoop this.last 0 this.entries
  some { this with last := last }

def argReset (this : ArgTable) : ArgTable where
  entries := this.entries.map resetfn
  last := { this.last with count := 0 }

/-- The table after it, and what it returns. -/
def argParse (this : ArgTable) (argv : List Text) (getopt : List Text → List Getopt × List Text) :
    Option (ArgTable × Int) := do
  let this := argReset this
  if argv = [] then
    let this ← argParseCheck this
    some (this, this.last.count)
  else
    let this ← argParseTagged this (getopt argv).1
    let this ← argParseUntagged this (getopt argv).2
    let this ← (if this.last.count = 0 then argParseCheck this else some this)
    some (this, this.last.count)

end Devclego.Arguments
