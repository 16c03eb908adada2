import Devclego.Foundation.Scanning
import Devclego.Foundation.Strip
import Devclego.Dictionaries.Refinement

/-!
# Ini files

`etc_iniparser.c`: the parser, the queries and the writer. A buffer of characters is
given by the string in it; what a function stores there must fit, with its terminator,
into `ASCIILINESZ+1` bytes. A file is the list of its bytes.
-/
namespace Devclego.Ini

open Foundation Devclego.Dictionaries

def asciilinesz : Nat := 1024

def doubleQuote : Byte := 0x22

def singleQuote : Byte := 0x27

def strlwc (s : Text) : Text := (s.take asciilinesz).map tolower

/-- Blanks go at both ends; what is copied into the buffer is blank at its end. -/
def strstrip (s : Text) : Option Text :=
  let s := s.dropWhile isspace
  if s.length ≤ asciilinesz then some (s.rdropWhile isspace) else none

/-! ## Queries -/

/-- The loops over the keys of a dictionary, from slot `i` on. -/
def forKeys {σ : Type} (s : Store) (body : σ → Nat → Text → Option σ) : Nat → Nat → σ → Option σ
  | 0, _, acc => some acc
  | fuel + 1, i, acc => do
    match ← s.1.key[i]? with
    | none => forKeys s body fuel (i + 1) acc
    | some a =>
      let acc ← body acc i (← s.2.read a)
      forKeys s body fuel (i + 1) acc

/-- `strchr(key, ':')==NULL` -/
def isSection (key : Text) : Bool := !key.contains (ascii ':')

def iniparserGetnsec (s : Store) : Option Nat :=
  forKeys s (fun nsec _ key => some (if isSection key then nsec + 1 else nsec)) s.1.size 0 0

/-- The loop of `iniparser_getsecname` from slot `i` on, which ends with the section or with `NULL`. -/
def getsecnameLoop (s : Store) (n : Nat) : Nat → Nat → Nat → Option (Option Text)
  | 0, _, _ => some none
  | fuel + 1, i, foundsec => do
    match ← s.1.key[i]? with
    | none => getsecnameLoop s n fuel (i + 1) foundsec
    | some a =>
      let key ← s.2.read a
      if isSection key then
        if n < foundsec + 1 then some (some key) else getsecnameLoop s n fuel (i + 1) (foundsec + 1)
      else getsecnameLoop s n fuel (i + 1) foundsec

def iniparserGetsecname (s : Store) (n : Int) : Option (Option Text) :=
  if n < 0 then some none else getsecnameLoop s n.toNat s.1.size 0 0

/-- The pointer that is stored for the key, or `none` for the `def` of the caller. -/
def iniparserGetstring (s : Store) (key : Text) : Option (Option Ptr) := dictionaryGet s.1 s.2 (strlwc key)

def iniparserFindEntry (s : Store) (entry : Text) : Option Bool := (iniparserGetstring s entry).map Option.isSome

/-- `sprintf(keym, "%s:", s)` -/
def keyPrefix (sec : Text) : Option Text :=
  if sec.length + 1 ≤ asciilinesz then some (sec ++ [ascii ':']) else none

def iniparserGetsecnkeys (s : Store) (sec : Text) : Option Nat := do
  if ← iniparserFindEntry s sec then
    let keym ← keyPrefix sec
    forKeys s (fun nkeys _ key => some (if keym.isPrefixOf key then nkeys + 1 else nkeys)) s.1.size 0 0
  else some 0

/-- The array that is filled has `nkeys` entries. -/
def iniparserGetseckeys (s : Store) (sec : Text) : Option (Option (List Text)) := do
  if ← iniparserFindEntry s sec then
    let nkeys ← iniparserGetsecnkeys s sec
    let keym ← keyPrefix sec
    let keys ← forKeys s (fun keys _ key =>
      if keym.isPrefixOf key then if keys.length < nkeys then some (keys ++ [key]) else none else some keys)
      s.1.size 0 []
    some (some keys)
  else some none

/-! ## Writing -/

/-- `%-30s` -/
def padded (s : Text) : Text := s ++ List.replicate (30 - s.length) (ascii ' ')

def newline : Text := [ascii '\n']

/-- The value in a slot, as a string. -/
def valText (s : Store) (i : Nat) : Option (Option Text) := do readVal s.2 (← s.1.val[i]?)

def iniparserDumpsectionIni (s : Store) (sec : Text) (out : Text) : Option Text := do
  if ← iniparserFindEntry s sec then
    let out := out ++ newline ++ text "[" ++ sec ++ text "]" ++ newline
    let keym ← keyPrefix sec
    let out ← forKeys s (fun out i key =>
      if keym.isPrefixOf key then do
        let val ← valText s i
        some (out ++ padded (key.drop keym.length) ++ text " = " ++ val.getD [] ++ newline)
      else some out) s.1.size 0 out
    some (out ++ newline)
  else some out

/-- The loop of `iniparser_dump_ini` over the sections, from number `i` on. A null
section name would be read as a string. -/
def dumpSections (s : Store) : Nat → Nat → Text → Option Text
  | 0, _, out => some out
  | fuel + 1, i, out => do
    let sec ← (← iniparserGetsecname s i)
    let out ← iniparserDumpsectionIni s sec out
    dumpSections s fuel (i + 1) out

/-- What is written. A null value faults where it is printed without a test. -/
def iniparserDumpIni (s : Store) : Option Text := do
  let nsec ← iniparserGetnsec s
  if nsec < 1 then
    forKeys s (fun out i key => do
      let val ← (← valText s i)
      some (out ++ key ++ text " = " ++ val ++ newline)) s.1.size 0 []
  else
    let out ← dumpSections s nsec 0 []
    some (out ++ newline)

/-! ## Reading -/

inductive LineStatus where
  | error
  | empty
  | comment
  | section
  | value
deriving DecidableEq, Repr

/-- The output buffers of `iniparser_line`. -/
structure Fields where
  sec : Text
  key : Text
  val : Text
deriving DecidableEq, Repr

/-- `%[^=] = \"%[^\"]\"`, and the same with single quotes. -/
def quoted (quote : Byte) : List Directive :=
  [.noneOf [ascii '='], .blanks, .lit (ascii '='), .blanks, .lit quote, .noneOf [quote], .lit quote]

/-- `%[^=] = %[^;#]` -/
def plain : List Directive :=
  [.noneOf [ascii '='], .blanks, .lit (ascii '='), .blanks, .noneOf [ascii ';', ascii '#']]

/-- `%[^=] = %[;#]` -/
def onlyComment : List Directive :=
  [.noneOf [ascii '='], .blanks, .lit (ascii '='), .blanks, .oneOf [ascii ';', ascii '#']]

/-- `%[^=] %[=]` -/
def noValue : List Directive := [.noneOf [ascii '='], .blanks, .oneOf [ascii '=']]

/-- `[%[^]]` -/
def header : List Directive := [.lit (ascii '['), .noneOf [ascii ']']]

/-- Whether one of the formats assigns both buffers; those before it may have assigned the first. -/
def scanPair (line : Text) : List (List Directive) → Fields → Bool × Fields
  | [], b => (false, b)
  | format :: formats, b =>
    match sscanf format line with
    | [] => scanPair line formats b
    | [key] => scanPair line formats { b with key := key }
    | key :: val :: _ => (true, { b with key := key, val := val })

/-- `strcpy(key, strlwc(strstrip(key)))`, in two steps. -/
def cleanKey (b : Fields) : Option Fields := do
  let key ← strstrip b.key
  some { b with key := strlwc key }

/-- The branches of `iniparser_line` for keys. -/
def settingLine (line : Text) (b : Fields) : Option (LineStatus × Fields) :=
  match scanPair line [quoted doubleQuote, quoted singleQuote, plain] b with
  | (true, b) => do
    let b ← cleanKey b
    let val ← strstrip b.val
    if val = text "\"\"" ∨ val = text "''" then some (.value, { b with val := [] })
    else some (.value, { b with val := val })
  | (false, b) =>
    match scanPair line [onlyComment, noValue] b with
    | (true, b) => do
      let b ← cleanKey b
      some (.value, { b with val := [] })
    | (false, b) => some (.error, b)

def iniparserLine (inputLine : Text) (b : Fields) : Option (LineStatus × Fields) := do
  let line ← strstrip inputLine
  match line.head?, line.getLast? with
  | some first, some last =>
    if first = ascii '#' ∨ first = ascii ';' then some (.comment, b)
    else if first = ascii '[' ∧ last = ascii ']' then
      let sec ← strstrip ((sscanf header line).headD b.sec)
      some (.section, { b with sec := strlwc sec })
    else settingLine line b
  | _, _ => some (.empty, b)

/-- The variables of `iniparser_load` between two lines. `held` is what `line` has
before the index `last`. -/
structure Loader where
  held : Text
  fields : Fields
  errs : Int
  store : Store
deriving DecidableEq, Repr

/-- The `switch` of `iniparser_load`. -/
def loadLine (this : Loader) (line : Text) : Option Loader := do
  let (status, b) ← iniparserLine line this.fields
  let this := { this with fields := b }
  match status with
  | .empty => some this
  | .comment => some this
  | .section =>
    let (d, mem, errs) ← dictionarySet this.store.1 this.store.2 (some b.sec) none
    some { this with errs := errs, store := (d, mem) }
  | .value =>
    if b.sec.length + 1 + b.key.length ≤ asciilinesz then
      let tmp := b.sec ++ ascii ':' :: b.key
      let (d, mem, errs) ← dictionarySet this.store.1 this.store.2 (some tmp) (some b.val)
      some { this with errs := errs, store := (d, mem) }
    else none
  | .error => some { this with errs := this.errs + 1 }

/-- After the loop: the dictionary, or `NULL`. -/
def loadEnd (this : Loader) : Option (Option Dictionary × Mem) :=
  if this.errs ≠ 0 then (dictionaryDel this.store.1 this.store.2).map fun mem => (none, mem)
  else some (some this.store.1, this.store.2)

/-- The loop, for so many lines at most. `line[len]` lies in front of the array when
there is nothing in it. -/
def loadLoop : Nat → List Byte → Loader → Option (Option Dictionary × Mem)
  | 0, _, this => loadEnd this
  | fuel + 1, input, this =>
    match fgets (asciilinesz - this.held.length) input with
    | none => loadEnd this
    | some (chunk, input) =>
      let line := this.held ++ chunk.takeWhile (· ≠ 0)
      match line.getLast? with
      | none => none
      | some last =>
        if line.length = 1 then loadLoop fuel input this
        else if last ≠ ascii '\n' then
          (dictionaryDel this.store.1 this.store.2).map fun mem => (none, mem)
        else
          let line := line.rdropWhile isspace
          match line.getLast? with
          | none => none
          | some last =>
            if last = ascii '\\' then loadLoop fuel input { this with held := line.dropLast }
            else do
              let this ← loadLine this line
              if this.errs < 0 then loadEnd this else loadLoop fuel input { this with held := [] }

/-- The contents of the file, unless it cannot be opened. Every round reads a byte or more. -/
def iniparserLoad (file : Option (List Byte)) (mem : Mem) : Option (Option Dictionary × Mem) :=
  match file with
  | none => some (none, mem)
  | some input =>
    loadLoop input.length input
      { held := [], fields := { sec := [], key := [], val := [] }, errs := 0, store := (dictionaryNew 0, mem) }

end Devclego.Ini
