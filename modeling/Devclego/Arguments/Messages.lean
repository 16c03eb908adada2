import Devclego.Foundation.Appending
import Devclego.Arguments.Parsing

/-!
# Messages

`arg_print_errors`. A message writes the option of its entry into 200 bytes on the stack.
An excess option is written with its argument, whose length nothing bounds.
-/
namespace Devclego.Arguments

open Foundation

/-- A place in a buffer: what is before it, what is readable from it on and the number of
bytes that may be written, as `arg_cat` counts them. -/
structure Dest where
  passed : Text
  ahead : Text
  ndest : Nat
deriving DecidableEq, Repr

/-- `while (dest < end && *dest != 0) dest++` -/
def toTerminator : Nat → Text → Text → Option Dest
  | 0, passed, ahead => some { passed := passed, ahead := ahead, ndest := 0 }
  | _ + 1, _, [] => none
  | n + 1, passed, c :: ahead =>
    if c = 0 then some { passed := passed, ahead := c :: ahead, ndest := n + 1 } else toTerminator n (passed ++ [c]) ahead

/-- `while (dest < end && *src != 0) *dest++ = *src++` -/
def copyText : Text → Nat → Text → Text → Option Dest
  | [], n, passed, ahead => some { passed := passed, ahead := ahead, ndest := n }
  | _ :: _, 0, passed, ahead => some { passed := passed, ahead := ahead, ndest := 0 }
  | _ :: _, _ + 1, _, [] => none
  | c :: src, n + 1, passed, _ :: ahead => copyText src n (passed ++ [c]) ahead

/-- `*dest = 0`, which `arg_cat` does not bound. -/
def terminate (d : Dest) : Option Dest :=
  match d.ahead with
  | [] => none
  | _ :: ahead => some { d with ahead := 0 :: ahead }

def argCat (src : Text) (d : Dest) : Option Dest := do
  let d ← toTerminator d.ndest d.passed d.ahead
  let d ← copyText src d.ndest d.passed d.ahead
  terminate d

/-- `strncat(dest, src, n)` -/
def strncat (src : Text) (n : Nat) (d : Dest) : Option Dest := do
  let s ← cString d.ahead
  let ahead ← putString (s ++ src.take n) d.ahead
  some { d with ahead := ahead }

def catShortopts (separator : Text) : Text → Dest → Option Dest
  | [], d => some d
  | c :: shortopts, d => do
    let d ← argCat [ascii '-', c] d
    let d ← (if shortopts = [] then some d else argCat separator d)
    catShortopts separator shortopts d

/-- One name, up to a comma. -/
def catName (longopts : Text) (d : Dest) : Option Dest := do
  let d ← argCat (text "--") d
  let ncspn := (longopts.takeWhile (· ≠ ascii ',')).length
  strncat longopts (if ncspn < d.ndest then ncspn else d.ndest) d

def catLongopts (separator : Text) : Nat → Text → Dest → Option Dest
  | _, [], d => some d
  | 0, _ :: _, _ => none
  | fuel + 1, c :: longopts, d => do
    let d ← catName (c :: longopts) d
    match (c :: longopts).dropWhile (· ≠ ascii ',') with
    | [] => some d
    | _ :: longopts => do
      let d ← argCat separator d
      catLongopts separator fuel longopts d

/-- What is appended for a pointer that is not null. -/
def catGiven {α : Type} (append : α → Dest → Option Dest) : Option α → Dest → Option Dest
  | none, d => some d
  | some a, d => append a d

def catDatatype (shortopts longopts : Option Text) (optvalue : Bool) (datatype : Text) (d : Dest) : Option Dest := do
  let d ← (if longopts.isSome = true then argCat (text "=") d else if shortopts.isSome = true then argCat (text " ") d else some d)
  if optvalue = true then do
    let d ← argCat (text "[") d
    let d ← argCat datatype d
    argCat (text "]") d
  else argCat datatype d

def argCatOptionv (shortopts longopts datatype : Option Text) (optvalue : Bool) (separator : Option Text) (d : Dest) :
    Option Dest := do
  let separator := separator.getD []
  let d ← catGiven (catShortopts separator) shortopts d
  let d ← (if shortopts.isSome = true ∧ longopts.isSome = true then argCat separator d else some d)
  let d ← catGiven (fun longopts => catLongopts separator longopts.length longopts) longopts d
  catGiven (catDatatype shortopts longopts optvalue) datatype d

/-- `char syntax[200] = ""` -/
def emptySyntax : Dest where
  passed := []
  ahead := List.replicate 200 0
  ndest := 200

/-- What is printed. -/
def argPrintOption (shortopts longopts datatype suffix : Option Text) : Option Text := do
  let d ← argCatOptionv shortopts longopts datatype false (some (text "|")) emptySyntax
  let written ← cString (d.passed ++ d.ahead)
  some (written ++ suffix.getD [])

def argPrintHdr (hdr : ArgHdr) (datatype : Option Text) (suffix : String) : Option Text :=
  argPrintOption hdr.shortopts hdr.longopts datatype (some (text suffix))

/-! ## Functions for errors -/

/-- A null pointer is not printed with `%s`. -/
def errorfnInt (parent : ArgInt) (errorcode : Int) (argval progname : Option Text) : Option Text := do
  let argval := argval.getD []
  let start := (← progname) ++ text ": "
  if errorcode = emincountInt then do
    let option ← argPrintHdr parent.hdr parent.hdr.datatype "\n"
    some (start ++ text "missing option " ++ option)
  else if errorcode = emaxcountInt then do
    let option ← argPrintHdr parent.hdr (some argval) "\n"
    some (start ++ text "excess option " ++ option)
  else if errorcode = ebadint then do
    let option ← argPrintHdr parent.hdr parent.hdr.datatype "\n"
    some (start ++ text "invalid argument \"" ++ argval ++ text "\" to option " ++ option)
  else if errorcode = eoverflowInt then do
    let option ← argPrintHdr parent.hdr parent.hdr.datatype " "
    some (start ++ text "integer overflow at option " ++ option ++ text "(" ++ argval ++ text " is too large)\n")
  else some start

def errorfnLit (parent : ArgLit) (errorcode : Int) (progname : Option Text) : Option Text :=
  if errorcode = emincountLit then do
    let start := (← progname) ++ text ": missing option "
    let option ← argPrintHdr parent.hdr parent.hdr.datatype "\n"
    some (start ++ option ++ text "\n")
  else if errorcode = emaxcountLit then do
    let start := (← progname) ++ text ": extraneous option "
    let option ← argPrintHdr parent.hdr parent.hdr.datatype "\n"
    some (start ++ option)
  else some []

def errorfnStr (parent : ArgStr) (errorcode : Int) (argval progname : Option Text) : Option Text := do
  let argval := argval.getD []
  let start := (← progname) ++ text ": "
  if errorcode = emincountStr then do
    let option ← argPrintHdr parent.hdr parent.hdr.datatype "\n"
    some (start ++ text "missing option " ++ option)
  else if errorcode = emaxcountStr then do
    let option ← argPrintHdr parent.hdr (some argval) "\n"
    some (start ++ text "excess option " ++ option)
  else some start

def argEmalloc : Int := 2

/-- `%c` prints the low byte of an error. -/
def errorfnEnd (error : Int) (argval progname : Option Text) : Text :=
  let argval := argval.getD []
  let message :=
    if error = argElimit then text "too many errors to display"
    else if error = argEmalloc then text "insufficent memory"
    else if error = argEnomatch then text "unexpected argument \"" ++ argval ++ text "\""
    else if error = argEmissarg then text "option \"" ++ argval ++ text "\" requires an argument"
    else if error = argElongopt then text "invalid option \"" ++ argval ++ text "\""
    else text "invalid option \"-" ++ [BitVec.ofInt 8 error] ++ text "\""
  progname.getD [] ++ text ": " ++ message ++ text "\n"

/-- The call of an entry's function, where it has one. -/
def errorfn : Arg → Int → Option Text → Option Text → Option Text
  | .lit parent, errorcode, _, progname => errorfnLit parent errorcode progname
  | .int parent, errorcode, argval, progname => errorfnInt parent errorcode argval progname
  | .str parent, errorcode, argval, progname => errorfnStr parent errorcode argval progname
  | .rem _, _, _, _ => some []

def printError (entries : List Arg) (progname : Option Text) (r : Registered) : Option Text :=
  match r.parent with
  | none => some (errorfnEnd r.error r.argval progname)
  | some tabindex => entries[tabindex]?.bind fun entry => errorfn entry r.error r.argval progname

/-- The loop, for so many errors from an index on. -/
def printLoop (entries : List Arg) (errors : List (Option Registered)) (progname : Option Text) : Nat → Nat → Option Text
  | 0, _ => some []
  | n + 1, i => do
    let r ← errors[i]?.join
    let message ← printError entries progname r
    let messages ← printLoop entries errors progname n (i + 1)
    some (message ++ messages)

def argPrintErrors (this : ArgTable) (progname : Option Text) : Option Text :=
  printLoop this.entries this.last.errors progname this.last.count.toNat 0

/-! ## What an option looks like -/

/-- Each short option has a dash. -/
def dashedShort (separator shortopts : Text) : Text := separator.intercalate (shortopts.map fun c => [ascii '-', c])

/-- Each name has two dashes before it, and the separator stands for each comma. -/
def dashedLong (separator : Text) : Bool → Text → Text
  | _, [] => []
  | atName, c :: longopts =>
    (if atName = true then text "--" else []) ++
      (if c = ascii ',' then separator ++ dashedLong separator true longopts else c :: dashedLong separator false longopts)

/-- The options and the kind of their value. -/
def optionText (shortopts longopts datatype : Option Text) (optvalue : Bool) (separator : Text) : Text :=
  (shortopts.map (dashedShort separator)).getD [] ++
    (if shortopts.isSome = true ∧ longopts.isSome = true then separator else []) ++
    (longopts.map (dashedLong separator true)).getD [] ++
    (datatype.map fun datatype =>
      (if longopts.isSome = true then text "=" else if shortopts.isSome = true then text " " else []) ++
        if optvalue = true then text "[" ++ datatype ++ text "]" else datatype).getD []

/-- A text without a zero byte. -/
def Clean (s : Text) : Prop := ∀ c ∈ s, c ≠ 0

/-- A string in a buffer of so many bytes, with a place in it. -/
structure Holds (size : Nat) (s : Text) (d : Dest) : Prop where
  clean : Clean s
  size : d.passed.length + d.ahead.length = size
  ndest : d.ndest = d.ahead.length
  stored : ∃ t junk, s = d.passed ++ t ∧ d.ahead = t ++ 0 :: junk

variable {size n : Nat} {s t src junk separator shortopts longopts datatype : Text} {d : Dest}

instance (s : Text) : Decidable (Clean s) := inferInstanceAs (Decidable (∀ c ∈ s, c ≠ 0))

theorem clean_append : Clean (s ++ t) ↔ Clean s ∧ Clean t := List.forall_mem_append

theorem Clean.take (h : Clean s) (n : Nat) : Clean (s.take n) := fun c hc => h c (List.mem_of_mem_take hc)

theorem Holds.length_lt (h : Holds size s d) : s.length < size := by
  obtain ⟨t, junk, rfl, hahead⟩ := h.stored
  have hsize := h.size
  rw [hahead, List.length_append, List.length_cons] at hsize
  rw [List.length_append]
  omega

/-! ## The pieces -/

theorem toTerminator_eq (ht : Clean t) (passed junk : Text) :
    toTerminator (t ++ 0 :: junk).length passed (t ++ 0 :: junk) =
      some { passed := passed ++ t, ahead := 0 :: junk, ndest := junk.length + 1 } := by
  induction t generalizing passed with
  | nil =>
    rw [List.append_nil]
    rfl
  | cons c t ih =>
    obtain ⟨hc, ht⟩ := List.forall_mem_cons.mp ht
    rw [List.cons_append, List.length_cons, toTerminator, if_neg hc, ih ht, List.append_assoc]
    rfl

theorem copyText_eq (src passed ahead : Text) :
    copyText src ahead.length passed ahead =
      some { passed := passed ++ src.take ahead.length, ahead := ahead.drop src.length, ndest := ahead.length - src.length } := by
  induction src generalizing passed ahead with
  | nil =>
    rw [copyText, List.take_nil, List.append_nil]
    rfl
  | cons c src ih =>
    cases ahead with
    | nil =>
      rw [List.length_nil, List.take_zero, List.append_nil, Nat.zero_sub]
      rfl
    | cons b ahead =>
      rw [List.length_cons, copyText, ih, List.append_assoc, List.length_cons, Nat.add_sub_add_right]
      rfl

theorem appends_argCat (hsrc : Clean src) : Appends (Holds size) size (argCat src) src := by
  intro s d h
  obtain ⟨t, junk, rfl, hahead⟩ := h.stored
  have hsize := h.size
  have hskip := toTerminator_eq (clean_append.mp h.clean).2 d.passed junk
  have hcopy := copyText_eq src (d.passed ++ t) (0 :: junk)
  have hcat : argCat src d = terminate
      ⟨d.passed ++ t ++ src.take (junk.length + 1), (0 :: junk).drop src.length, junk.length + 1 - src.length⟩ := by
    unfold argCat
    rw [h.ndest, hahead, hskip]
    exact congrArg (·.bind terminate) hcopy
  rw [hahead, List.length_append, List.length_cons] at hsize
  rw [hcat, List.length_append]
  constructor
  · intro hroom
    have hlt : src.length < (0 :: junk).length := by
      rw [List.length_cons]
      omega
    rw [List.drop_eq_getElem_cons hlt, List.take_of_length_le (by omega)]
    refine ⟨_, rfl, clean_append.mpr ⟨h.clean, hsrc⟩, ?_, ?_, [], _, (List.append_nil _).symm, rfl⟩
    · rw [List.length_cons, List.length_drop, List.length_append, List.length_append, List.length_cons]
      omega
    · rw [List.length_cons, List.length_drop]
      dsimp only
      rw [List.length_cons] at hlt ⊢
      omega
  · intro hfull
    rw [List.drop_eq_nil_of_le (by rw [List.length_cons]; omega)]
    rfl

theorem appends_strncat (hsrc : Clean src) (hn : n ≤ src.length) :
    Appends (Holds size) size (fun d => strncat src (if n < d.ndest then n else d.ndest) d) (src.take n) := by
  intro s d h
  obtain ⟨t, junk, rfl, hahead⟩ := h.stored
  have hsize := h.size
  have hndest := h.ndest
  have hstring := cString_append (clean_append.mp h.clean).2 junk
  rw [hahead, List.length_append, List.length_cons] at hsize hndest
  rw [List.length_append, List.length_take, Nat.min_eq_left hn]
  dsimp only
  constructor
  · intro hroom
    have hput := @putString_eq (t ++ src.take n) d.ahead (by
      rw [hahead, List.length_append, List.length_append, List.length_cons, List.length_take]
      omega)
    rw [if_pos (by omega), strncat, hahead, hstring, Option.bind_eq_bind, Option.bind_some, ← hahead, hput]
    refine ⟨_, rfl, ?_, ?_, ?_, t ++ src.take n, _, List.append_assoc .., rfl⟩
    · exact clean_append.mpr ⟨h.clean, hsrc.take n⟩
    · rw [hahead]
      simp only [List.length_append, List.length_cons, List.length_drop, List.length_take]
      omega
    · rw [hahead, hndest]
      simp only [List.length_append, List.length_cons, List.length_drop, List.length_take]
      omega
  · intro hfull
    have hput : putString (t ++ src.take (if n < d.ndest then n else d.ndest)) d.ahead = none := by
      refine if_neg ?_
      rw [hahead, List.length_append, List.length_append, List.length_cons, List.length_take]
      split <;> omega
    rw [strncat, hahead, hstring, Option.bind_eq_bind, Option.bind_some, ← hahead, hput]
    rfl

theorem appends_nothing : Appends (Holds size) size some [] := appends_nil fun _ _ h => h.length_lt

/-! ## The options -/

theorem dashedShort_cons (separator : Text) (c : Byte) (shortopts : Text) :
    dashedShort separator (c :: shortopts) =
      [ascii '-', c] ++ (if shortopts = [] then [] else separator) ++ dashedShort separator shortopts := by
  unfold dashedShort
  cases shortopts with
  | nil => rfl
  | cons d shortopts =>
    rw [if_neg (List.cons_ne_nil _ _), List.map_cons, List.map_cons, List.intercalate_cons_cons]

theorem appends_catShortopts (hsep : Clean separator) (hshort : Clean shortopts) :
    Appends (Holds size) size (catShortopts separator shortopts) (dashedShort separator shortopts) := by
  induction shortopts with
  | nil => exact appends_nothing
  | cons c shortopts ih =>
    obtain ⟨hc, hshort⟩ := List.forall_mem_cons.mp hshort
    have hdash : Clean [ascii '-', c] := List.forall_mem_cons.mpr ⟨by decide, List.forall_mem_singleton.mpr hc⟩
    have hnext := @Appends.ite _ _ _ size _ _ _ _ (shortopts = []) _ appends_nothing (appends_argCat hsep)
    refine (((appends_argCat hdash).bind hnext).bind (ih hshort)).congr (fun d => ?_) (dashedShort_cons ..).symm
    rw [catShortopts]
    exact Option.bind_assoc ..

theorem dashedLong_name (separator longopts : Text) :
    dashedLong separator false longopts = longopts.takeWhile (· ≠ ascii ',') ++
      match longopts.dropWhile (· ≠ ascii ',') with
      | [] => []
      | _ :: longopts => separator ++ dashedLong separator true longopts := by
  induction longopts with
  | nil => rfl
  | cons c longopts ih =>
    by_cases hc : c = ascii ','
    · have hstop : decide (c ≠ ascii ',') = false := decide_eq_false (not_not.mpr hc)
      rw [dashedLong, if_neg Bool.false_ne_true, if_pos hc, List.takeWhile_cons, List.dropWhile_cons, hstop]
      rfl
    · have hgo : decide (c ≠ ascii ',') = true := decide_eq_true hc
      rw [dashedLong, if_neg Bool.false_ne_true, if_neg hc, List.takeWhile_cons, List.dropWhile_cons, hgo, ih]
      rfl

theorem appends_catName (hlong : Clean longopts) :
    Appends (Holds size) size (catName longopts) (text "--" ++ longopts.takeWhile (· ≠ ascii ',')) := by
  have hprefix := List.takeWhile_prefix (l := longopts) (· ≠ ascii ',')
  have hname := List.prefix_iff_eq_take.mp hprefix
  have hdash : Clean (text "--") := by decide
  exact ((appends_argCat hdash).bind (appends_strncat hlong hprefix.length_le)).congr (fun d => rfl)
    (congrArg (text "--" ++ ·) hname.symm)

theorem appends_catLongopts (hsep : Clean separator) (hlong : Clean longopts) (fuel : Nat) (hfuel : longopts.length ≤ fuel) :
    Appends (Holds size) size (catLongopts separator fuel longopts) (dashedLong separator true longopts) := by
  induction fuel generalizing longopts with
  | zero =>
    cases List.eq_nil_of_length_eq_zero (Nat.le_zero.mp hfuel)
    exact appends_nothing
  | succ fuel ih =>
    cases longopts with
    | nil => exact appends_nothing
    | cons c longopts =>
      have hname := @appends_catName size _ hlong
      have htext : dashedLong separator true (c :: longopts) = text "--" ++ dashedLong separator false (c :: longopts) := by
        rw [dashedLong, dashedLong]
        rfl
      rw [htext, dashedLong_name, ← List.append_assoc]
      have hrest := List.dropWhile_suffix (l := c :: longopts) (· ≠ ascii ',')
      cases hdrop : (c :: longopts).dropWhile (· ≠ ascii ',') with
      | nil =>
        refine (hname.bind appends_nothing).congr (fun d => ?_) rfl
        rw [catLongopts, hdrop]
        rfl
      | cons b rest =>
        rw [hdrop] at hrest
        have hlength := hrest.length_le
        rw [List.length_cons, List.length_cons] at hlength
        rw [List.length_cons] at hfuel
        have hclean : Clean rest := fun e he => hlong e (hrest.subset (List.mem_cons_of_mem b he))
        refine (hname.bind ((appends_argCat hsep).bind (ih hclean (by omega)))).congr (fun d => ?_) rfl
        rw [catLongopts, hdrop]
        rfl

theorem appends_catGiven {α : Type} {append : α → Dest → Option Dest} {piece : α → Text} {a : Option α}
    (h : ∀ b, a = some b → Appends (Holds size) size (append b) (piece b)) :
    Appends (Holds size) size (catGiven append a) ((a.map piece).getD []) := by
  cases a with
  | none => exact appends_nothing
  | some b => exact h b rfl

theorem appends_catDatatype (short long : Option Text) (optvalue : Bool) (hdatatype : Clean datatype) :
    Appends (Holds size) size (catDatatype short long optvalue datatype)
      ((if long.isSome = true then text "=" else if short.isSome = true then text " " else []) ++
        if optvalue = true then text "[" ++ datatype ++ text "]" else datatype) := by
  have hclean : Clean (text "=") ∧ Clean (text " ") ∧ Clean (text "[") ∧ Clean (text "]") := by decide
  have hsign := Appends.ite (P := long.isSome = true) (@appends_argCat size _ hclean.1)
    (Appends.ite (P := short.isSome = true) (appends_argCat hclean.2.1) appends_nothing)
  have hvalue := @appends_argCat size _ hdatatype
  have hoptional := ((@appends_argCat size _ hclean.2.2.1).bind hvalue).bind (appends_argCat hclean.2.2.2)
  refine (hsign.bind (Appends.ite (P := optvalue = true) hoptional hvalue)).congr (fun d => ?_) rfl
  unfold catDatatype
  simp only [Option.bind_eq_bind, Option.bind_assoc]

/-- The texts of an option, where there are any. -/
structure CleanOption (short long kind : Option Text) : Prop where
  short : ∀ s, short = some s → Clean s
  long : ∀ s, long = some s → Clean s
  kind : ∀ s, kind = some s → Clean s

variable {short long kind suffix : Option Text}

theorem appends_argCatOptionv (h : CleanOption short long kind) (optvalue : Bool) (hsep : Clean separator) :
    Appends (Holds size) size (argCatOptionv short long kind optvalue (some separator))
      (optionText short long kind optvalue separator) := by
  have hshort := @appends_catGiven size _ (catShortopts separator) _ short fun s hs => appends_catShortopts hsep (h.short s hs)
  have hboth := Appends.ite (P := short.isSome = true ∧ long.isSome = true) (@appends_argCat size _ hsep) appends_nothing
  have hlong := @appends_catGiven size _ (fun longopts => catLongopts separator longopts.length longopts) _ long fun s hs =>
    appends_catLongopts hsep (h.long s hs) s.length (Nat.le_refl _)
  have hkind := @appends_catGiven size _ (catDatatype short long optvalue) _ kind fun s hs =>
    appends_catDatatype short long optvalue (h.kind s hs)
  refine (((hshort.bind hboth).bind hlong).bind hkind).congr (fun d => ?_) rfl
  unfold argCatOptionv
  simp only [Option.bind_eq_bind, Option.bind_assoc, Option.getD_some]

theorem holds_empty : Holds 200 [] emptySyntax := by
  unfold emptySyntax
  constructor
  · exact List.forall_mem_nil _
  · rw [List.length_nil, List.length_replicate]
  · rw [List.length_replicate]
  · refine ⟨[], List.replicate 199 0, rfl, ?_⟩
    rw [List.nil_append, ← List.replicate_succ]

/-- What `arg_print_option` writes into its buffer. -/
def syntaxText (short long kind : Option Text) : Text := optionText short long kind false (text "|")

theorem argPrintOption_eq (h : CleanOption short long kind) :
    argPrintOption short long kind suffix =
      if (syntaxText short long kind).length < 200 then some (syntaxText short long kind ++ suffix.getD []) else none := by
  have hsep : Clean (text "|") := by decide
  obtain ⟨hfits, hfaults⟩ := appends_argCatOptionv h false hsep [] emptySyntax holds_empty
  unfold argPrintOption
  rw [List.length_nil, Nat.zero_add, ← syntaxText] at hfits hfaults
  by_cases hroom : (syntaxText short long kind).length < 200
  · obtain ⟨d, hd, hholds⟩ := hfits hroom
    obtain ⟨t, junk, htext, hahead⟩ := hholds.stored
    have hstring := cString_append hholds.clean junk
    rw [List.nil_append] at htext hstring
    rw [if_pos hroom, hd, Option.bind_eq_bind, Option.bind_some, hahead, ← List.append_assoc, ← htext, hstring]
    rfl
  · rw [if_neg hroom, hfaults (Nat.not_lt.mp hroom)]
    rfl

/-- The option is printed as it reads when it is shorter than the buffer; a longer one is
written behind it. -/
theorem option_printed_iff (short long kind suffix : Option Text) (h : CleanOption short long kind) (out : Text) :
    argPrintOption short long kind suffix = some out ↔
      (syntaxText short long kind).length < 200 ∧ out = syntaxText short long kind ++ suffix.getD [] := by
  rw [argPrintOption_eq h]
  split
  · rw [Option.some_inj, and_iff_right ‹_›]
    exact eq_comm
  · refine iff_of_false ?_ fun h => absurd h.1 ‹_›
    intro h
    cases h

theorem option_printed_help : argPrintOption (some (text "hv")) (some (text "help,view")) (some (text "<n>")) none =
    some (text "-h|-v|--help|--view=<n>") := by
  have hclean : Clean (text "hv") ∧ Clean (text "help,view") ∧ Clean (text "<n>") := by decide
  refine (option_printed_iff _ _ _ none ⟨?_, ?_, ?_⟩ _).mpr (by decide)
  · rintro s ⟨⟩
    exact hclean.1
  · rintro s ⟨⟩
    exact hclean.2.1
  · rintro s ⟨⟩
    exact hclean.2.2

/-- The terminator would stand behind the buffer. -/
example : argPrintOption none none (some (List.replicate 200 (ascii 'x'))) none = none := by decide +kernel

/-! ## The messages of the entries -/

/-- The errors of an entry. -/
def Arg.codes : Arg → List Int
  | .lit _ => [emincountLit, emaxcountLit]
  | .int _ => [emincountInt, emaxcountInt, ebadint, eoverflowInt]
  | .str _ => [emincountStr, emaxcountStr]
  | .rem _ => []

/-- What a message shows as the value: the argument that is one too many, or the kind. -/
def shownValue (entry : Arg) (errorcode : Int) (argval : Option Text) : Option Text :=
  match entry with
  | .lit arg => arg.hdr.datatype
  | .int arg => if errorcode = emaxcountInt then some (argval.getD []) else arg.hdr.datatype
  | .str arg => if errorcode = emaxcountStr then some (argval.getD []) else arg.hdr.datatype
  | .rem hdr => hdr.datatype

/-- The option in a message. -/
def shownOption (entry : Arg) (errorcode : Int) (argval : Option Text) : Text :=
  syntaxText entry.hdr.shortopts entry.hdr.longopts (shownValue entry errorcode argval)

def CleanHdr (hdr : ArgHdr) : Prop := CleanOption hdr.shortopts hdr.longopts hdr.datatype

variable {entry next : Arg} {errorcode : Int} {argval : Option Text} {progname : Text} {hdr : ArgHdr}

theorem clean_shown (h : CleanHdr entry.hdr) (hargval : ∀ s, argval = some s → Clean s) :
    CleanOption entry.hdr.shortopts entry.hdr.longopts (shownValue entry errorcode argval) := by
  have hexcess : ∀ s, some (argval.getD []) = some s → Clean s := by
    intro s hs
    cases hs
    cases argval with
    | none => exact List.forall_mem_nil _
    | some s => exact hargval s rfl
  refine ⟨h.short, h.long, ?_⟩
  cases entry with
  | lit arg => exact h.kind
  | int arg =>
    unfold shownValue
    dsimp only
    split
    · exact hexcess
    · exact h.kind
  | str arg =>
    unfold shownValue
    dsimp only
    split
    · exact hexcess
    · exact h.kind
  | rem hdr => exact h.kind

theorem argPrintHdr_eq {value : Option Text} (h : CleanOption hdr.shortopts hdr.longopts value) (suffix : String) :
    argPrintHdr hdr value suffix = if (syntaxText hdr.shortopts hdr.longopts value).length < 200 then
      some (syntaxText hdr.shortopts hdr.longopts value ++ text suffix) else none := argPrintOption_eq h

/-- What an error of an entry prints: the program, and the option somewhere in the message. -/
def Messages (shown : Text) (progname : Text) (printed : Option Text) : Prop :=
  ∃ before after, printed =
    if shown.length < 200 then some (progname ++ text ": " ++ before ++ shown ++ after) else none

theorem messages_hdr {value : Option Text} (h : CleanOption hdr.shortopts hdr.longopts value) (suffix : String)
    (f : Text → Text) (before after : Text) (hf : ∀ option, f option = progname ++ text ": " ++ before ++ option ++ after) :
    Messages (syntaxText hdr.shortopts hdr.longopts value) progname
      ((argPrintHdr hdr value suffix).bind fun option => some (f option)) := by
  refine ⟨before, text suffix ++ after, ?_⟩
  rw [argPrintHdr_eq h]
  split
  · simp only [Option.bind_some, hf, List.append_assoc]
  · rfl

theorem errorfnInt_messages {arg : ArgInt} (hcode : errorcode ∈ (Arg.int arg).codes) (hclean : CleanHdr arg.hdr)
    (hargval : ∀ s, argval = some s → Clean s) (progname : Text) :
    Messages (shownOption (.int arg) errorcode argval) progname (errorfnInt arg errorcode argval (some progname)) := by
  have hshown := @clean_shown (.int arg) errorcode argval hclean hargval
  have hne : emaxcountInt ≠ emincountInt ∧ ebadint ≠ emincountInt ∧ ebadint ≠ emaxcountInt ∧ eoverflowInt ≠ emincountInt ∧
      eoverflowInt ≠ emaxcountInt ∧ eoverflowInt ≠ ebadint := by decide
  obtain ⟨hmax, hbad, hbad', hover, hover', hover''⟩ := hne
  unfold errorfnInt shownOption
  unfold shownValue at hshown ⊢
  simp only [Option.bind_eq_bind, Option.bind_some]
  simp only [Arg.codes, List.mem_cons, List.not_mem_nil, or_false] at hcode
  rcases hcode with rfl | rfl | rfl | rfl
  · simp only [if_pos, if_neg hmax.symm] at hshown ⊢
    refine messages_hdr hshown "\n" _ (text "missing option ") [] fun option => ?_
    rw [List.append_nil]
  · simp only [if_pos, if_neg hmax] at hshown ⊢
    refine messages_hdr hshown "\n" _ (text "excess option ") [] fun option => ?_
    rw [List.append_nil]
  · simp only [if_pos, if_neg hbad, if_neg hbad'] at hshown ⊢
    refine messages_hdr hshown "\n" _ (text "invalid argument \"" ++ argval.getD [] ++ text "\" to option ") [] fun option => ?_
    simp only [List.append_nil, List.append_assoc]
  · simp only [if_pos, if_neg hover, if_neg hover', if_neg hover''] at hshown ⊢
    refine messages_hdr hshown " " _ (text "integer overflow at option ")
      (text "(" ++ argval.getD [] ++ text " is too large)\n") fun option => ?_
    simp only [List.append_assoc]

theorem errorfnStr_messages {arg : ArgStr} (hcode : errorcode ∈ (Arg.str arg).codes) (hclean : CleanHdr arg.hdr)
    (hargval : ∀ s, argval = some s → Clean s) (progname : Text) :
    Messages (shownOption (.str arg) errorcode argval) progname (errorfnStr arg errorcode argval (some progname)) := by
  have hshown := @clean_shown (.str arg) errorcode argval hclean hargval
  have hmax : emaxcountStr ≠ emincountStr := by decide
  unfold errorfnStr shownOption
  unfold shownValue at hshown ⊢
  simp only [Option.bind_eq_bind, Option.bind_some]
  simp only [Arg.codes, List.mem_cons, List.not_mem_nil, or_false] at hcode
  rcases hcode with rfl | rfl
  · simp only [if_pos, if_neg hmax.symm] at hshown ⊢
    refine messages_hdr hshown "\n" _ (text "missing option ") [] fun option => ?_
    rw [List.append_nil]
  · simp only [if_pos, if_neg hmax] at hshown ⊢
    refine messages_hdr hshown "\n" _ (text "excess option ") [] fun option => ?_
    rw [List.append_nil]

theorem errorfnLit_messages {arg : ArgLit} (hcode : errorcode ∈ (Arg.lit arg).codes) (hclean : CleanHdr arg.hdr)
    (progname : Text) :
    Messages (shownOption (.lit arg) errorcode argval) progname (errorfnLit arg errorcode (some progname)) := by
  have hmax : emaxcountLit ≠ emincountLit := by decide
  have hmissing : text ": missing option " = text ": " ++ text "missing option " := by decide
  have hextra : text ": extraneous option " = text ": " ++ text "extraneous option " := by decide
  unfold errorfnLit shownOption shownValue
  simp only [Option.bind_eq_bind, Option.bind_some]
  simp only [Arg.codes, List.mem_cons, List.not_mem_nil, or_false] at hcode
  rcases hcode with rfl | rfl
  · simp only [if_pos]
    refine messages_hdr hclean "\n" _ (text "missing option ") (text "\n") fun option => ?_
    simp only [hmissing, List.append_assoc]
  · simp only [if_pos, if_neg hmax]
    refine messages_hdr hclean "\n" _ (text "extraneous option ") [] fun option => ?_
    simp only [hextra, List.append_assoc, List.append_nil]

/-- Every message names the program and shows the option, if this is shorter than the buffer. -/
theorem errorfn_messages (hcode : errorcode ∈ entry.codes) (hclean : CleanHdr entry.hdr)
    (hargval : ∀ s, argval = some s → Clean s) (progname : Text) :
    Messages (shownOption entry errorcode argval) progname (errorfn entry errorcode argval (some progname)) := by
  cases entry with
  | lit arg => exact errorfnLit_messages hcode hclean progname
  | int arg => exact errorfnInt_messages hcode hclean hargval progname
  | str arg => exact errorfnStr_messages hcode hclean hargval progname
  | rem hdr => cases hcode

/-! ## The errors of a command line -/

/-- An error of an entry is one of its codes, and its argument ends at a zero byte. -/
def Reported (entries : List Arg) (r : Registered) : Prop :=
  ∀ i, r.parent = some i → ∃ entry, entries[i]? = some entry ∧ r.error ∈ entry.codes ∧ ∀ s, r.argval = some s → Clean s

/-- The arguments of a command line end at zero bytes. -/
structure CleanLine (line : List Getopt × List Text) : Prop where
  options : ∀ o ∈ line.1, ∀ s, argumentOf o = some s → Clean s
  rest : ∀ s ∈ line.2, Clean s

variable {entries : List Arg} {given given' : Nat → Given} {rs errs : List Registered} {r : Registered} {i used : Nat}
  {a : Option Text} {o : Getopt} {line : List Getopt × List Text} {t this : ArgTable}

theorem reported_general {error : Int} {argval : Option Text} :
    Reported entries { error := error, parent := none, argval := argval } := by
  intro i hi
  cases hi

theorem Refuses.mem_codes {code : Int} (h : Refuses entry used a code) (hscan : entry.hasScanfn = true) : code ∈ entry.codes := by
  cases h with
  | full =>
    cases entry with
    | lit arg => exact List.mem_cons_of_mem _ (List.mem_cons_self ..)
    | int arg => exact List.mem_cons_of_mem _ (List.mem_cons_self ..)
    | str arg => exact List.mem_cons_of_mem _ (List.mem_cons_self ..)
    | rem hdr => cases hscan
  | overflow => exact List.mem_of_getElem? (i := 3) rfl
  | bad => exact List.mem_of_getElem? (i := 2) rfl

theorem emincount_mem_codes (hscan : entry.hasScanfn = true) : entry.emincount ∈ entry.codes := by
  cases entry with
  | lit arg => exact List.mem_cons_self ..
  | int arg => exact List.mem_cons_self ..
  | str arg => exact List.mem_cons_self ..
  | rem hdr => cases hscan

theorem Answers.reported (h : Answers entries given i a errs given') (ha : ∀ s, a = some s → Clean s) :
    ∀ r ∈ errs, Reported entries r := by
  cases h with
  | taken => exact List.forall_mem_nil _
  | refused entry code hentry hscan hrefuses =>
    refine List.forall_mem_singleton.mpr fun j hj => ?_
    cases hj
    exact ⟨entry, hentry, hrefuses.mem_codes hscan, ha⟩

theorem Tries.reported (h : Tries entries given o errs given') (ha : ∀ s, argumentOf o = some s → Clean s) :
    ∀ r ∈ errs, Reported entries r := by
  cases h with
  | named o i errs given' htarget h => exact h.reported ha
  | empty i arg entry errs given' hentry hvalue h => exact List.forall_mem_cons.mpr ⟨reported_general, h.reported ha⟩
  | stray => exact List.forall_mem_singleton.mpr reported_general
  | unknownLong => exact List.forall_mem_singleton.mpr reported_general
  | unknownShort => exact List.forall_mem_singleton.mpr reported_general
  | missing => exact List.forall_mem_singleton.mpr reported_general

theorem TriesAll.reported {options : List Getopt} (h : TriesAll entries given options errs given')
    (ha : ∀ o ∈ options, ∀ s, argumentOf o = some s → Clean s) : ∀ r ∈ errs, Reported entries r := by
  induction h with
  | nil => exact List.forall_mem_nil _
  | cons h hrest ih =>
    obtain ⟨hfirst, hlast⟩ := List.forall_mem_cons.mp ha
    exact List.forall_mem_append.mpr ⟨h.reported hfirst, ih hlast⟩

theorem mem_leftover {left : List Text} (h : Leftover entries given left errs) (hleft : ∀ s ∈ left, Clean s) :
    ∀ r ∈ errs, Reported entries r := by
  have hunmatched : ∀ left : List Text, ∀ r ∈ left.map unmatched, Reported entries r := by
    intro left r hr
    obtain ⟨s, -, rfl⟩ := List.mem_map.mp hr
    exact reported_general
  cases h with
  | none => exact List.forall_mem_nil _
  | unmatched left hnone => exact hunmatched left
  | refused s left j entry code hlast hentry hrefuses =>
    refine List.forall_mem_cons.mpr ⟨fun i hi => ?_, hunmatched left⟩
    cases hi
    obtain ⟨-, ⟨entry', hentry', huntagged⟩, -⟩ := hlast
    cases hentry.symm.trans hentry'
    refine ⟨entry, hentry, hrefuses.mem_codes (untagged_hasScanfn huntagged), fun t ht => ?_⟩
    cases ht
    exact hleft s (List.mem_cons_self ..)

theorem mem_shortages (k : Nat) (later : List Arg)
    (hlater : ∀ i entry, later[i]? = some entry → entries[k + i]? = some entry) :
    ∀ r ∈ shortages given k later, Reported entries r := by
  induction later generalizing k with
  | nil => exact List.forall_mem_nil _
  | cons entry later ih =>
    have hrest := ih (k + 1) fun i entry' hentry' => by
      rw [Nat.add_right_comm]
      exact hlater (i + 1) entry' hentry'
    rw [shortages]
    split
    · refine List.forall_mem_cons.mpr ⟨fun i hi => ?_, hrest⟩
      cases hi
      refine ⟨entry, hlater 0 entry rfl, emincount_mem_codes (‹entry.Lacks _›).1, fun t ht => ?_⟩
      cases ht
    · exact hrest

theorem Shares.left_subset {left rest : List Text} {k : Nat} (h : Shares entries k given rest given' left) : left ⊆ rest := by
  induction h with
  | done => exact List.Subset.refl _
  | skip entry hk htagged h ih => exact ih
  | take entry s hk huntagged htakes h ih => exact fun s hs => List.mem_cons_of_mem _ (ih hs)
  | pass entry hk huntagged hnot h ih => exact ih

theorem Errors.reported (h : Errors entries line given rs) (hline : CleanLine line) : ∀ r ∈ rs, Reported entries r := by
  cases h with
  | refused given₀ given left options others hoptions hshares hleft hsome =>
    refine List.forall_mem_append.mpr ⟨hoptions.reported hline.options, ?_⟩
    exact mem_leftover hleft fun s hs => hline.rest s (hshares.left_subset hs)
  | counted given₀ given hoptions hshares =>
    refine mem_shortages 0 entries fun i entry hentry => ?_
    rw [Nat.zero_add]
    exact hentry

/-! ## Printing -/

/-- The option in the message of an error is shorter than the buffer. -/
def Fits (entries : List Arg) (r : Registered) : Prop :=
  ∀ i entry, r.parent = some i → entries[i]? = some entry → (shownOption entry r.error r.argval).length < 200

/-- The message of an error: it names the program, and the option or the argument. -/
def Describes (entries : List Arg) (progname : Text) (r : Registered) (message : Text) : Prop :=
  match r.parent with
  | none => message = errorfnEnd r.error r.argval (some progname)
  | some i => ∃ entry before after, entries[i]? = some entry ∧
      message = progname ++ text ": " ++ before ++ shownOption entry r.error r.argval ++ after

theorem errorfn_filled {given : Given} (h : Filled entry given next) : errorfn next = errorfn entry := by
  cases h with
  | lit => rfl
  | int => rfl
  | str => rfl
  | rem => rfl

theorem ParseState.printError_eq (h : ParseState t given rs this) (progname : Option Text) :
    printError this.entries progname = printError t.entries progname := by
  funext r
  unfold printError
  cases r.parent with
  | none => rfl
  | some i =>
    dsimp only
    cases hentry : t.entries[i]? with
    | none =>
      rw [List.getElem?_eq_none_iff, ← h.length, ← List.getElem?_eq_none_iff] at hentry
      rw [hentry]
    | some entry =>
      obtain ⟨next, hnext, hfilled⟩ := h.filled i entry hentry
      rw [hnext, Option.bind_some, Option.bind_some, errorfn_filled hfilled]

theorem printLoop_congr {entries' : List Arg} {progname : Option Text} (h : printError entries progname = printError entries' progname)
    (errors : List (Option Registered)) (n i : Nat) :
    printLoop entries errors progname n i = printLoop entries' errors progname n i := by
  induction n generalizing i with
  | zero => rfl
  | succ n ih => rw [printLoop, printLoop, h, ih]

/-- The message is printed if the option fits, and else written out of bounds. -/
theorem printError_spec (hclean : ∀ entry ∈ entries, CleanHdr entry.hdr) (h : Reported entries r) (progname : Text) :
    (Fits entries r → ∃ message, printError entries (some progname) r = some message ∧ Describes entries progname r message) ∧
    (¬ Fits entries r → printError entries (some progname) r = none) := by
  unfold printError Describes
  cases hparent : r.parent with
  | none =>
    refine ⟨fun _ => ⟨_, rfl, rfl⟩, fun hnot => absurd (fun i entry hi => ?_) hnot⟩
    cases hparent.symm.trans hi
  | some i =>
    obtain ⟨entry, hentry, hcode, hargval⟩ := h i hparent
    obtain ⟨before, after, hprinted⟩ :=
      errorfn_messages hcode (hclean entry (List.mem_of_getElem? hentry)) hargval progname
    have hfits : Fits entries r ↔ (shownOption entry r.error r.argval).length < 200 := by
      constructor
      · exact fun hfits => hfits i entry hparent hentry
      · intro hshort j entry' hj hentry'
        cases hparent.symm.trans hj
        cases hentry.symm.trans hentry'
        exact hshort
    dsimp only
    rw [hentry, Option.bind_some, hprinted, hfits]
    refine ⟨fun hshort => ⟨_, if_pos hshort, entry, before, after, rfl, rfl⟩, fun hlong => if_neg hlong⟩

theorem printLoop_spec (hclean : ∀ entry ∈ entries, CleanHdr entry.hdr) (progname : Text) (errors : List (Option Registered))
    (kept : List Registered) (i : Nat) (hkept : (errors.drop i).take kept.length = kept.map some)
    (h : ∀ r ∈ kept, Reported entries r) :
    ((∀ r ∈ kept, Fits entries r) → ∃ messages, List.Forall₂ (Describes entries progname) kept messages ∧
      printLoop entries errors (some progname) kept.length i = some messages.flatten) ∧
    (¬ (∀ r ∈ kept, Fits entries r) → printLoop entries errors (some progname) kept.length i = none) := by
  induction kept generalizing i with
  | nil => exact ⟨fun _ => ⟨[], .nil, rfl⟩, fun hnot => absurd (List.forall_mem_nil _) hnot⟩
  | cons r kept ih =>
    obtain ⟨hfirst, hrest⟩ := List.forall_mem_cons.mp h
    have hplace : errors[i]? = some (some r) := by
      have hhead := congrArg (·[0]?) hkept
      rwa [List.getElem?_take_of_lt (by rw [List.length_cons]; omega), List.getElem?_drop, Nat.add_zero] at hhead
    have hnext : (errors.drop (i + 1)).take kept.length = kept.map some := by
      have htail := congrArg (·.drop 1) hkept
      rwa [List.drop_take, List.drop_drop, List.length_cons, Nat.add_sub_cancel, List.map_cons, List.drop_one,
        List.tail_cons] at htail
    obtain ⟨hprinted, hfault⟩ := printError_spec hclean hfirst progname
    obtain ⟨hall, hfaults⟩ := ih (i + 1) hnext hrest
    rw [List.length_cons, printLoop, hplace]
    simp only [Option.join_some, Option.bind_eq_bind, Option.bind_some, List.forall_mem_cons]
    constructor
    · rintro ⟨hfits, hfit⟩
      obtain ⟨message, hmessage, hdescribes⟩ := hprinted hfits
      obtain ⟨messages, hdescribed, hloop⟩ := hall hfit
      refine ⟨message :: messages, .cons hdescribes hdescribed, ?_⟩
      rw [hmessage, Option.bind_some, hloop]
      rfl
    · intro hnot
      by_cases hfits : Fits entries r
      · obtain ⟨message, hmessage, -⟩ := hprinted hfits
        rw [hmessage, Option.bind_some, hfaults fun hfit => hnot ⟨hfits, hfit⟩]
        rfl
      · rw [hfault hfits]
        rfl

theorem mem_keptErrors {room : Nat} (h : ∀ r ∈ rs, Reported entries r) : ∀ r ∈ keptErrors room rs, Reported entries r := by
  unfold keptErrors
  split
  · exact h
  · refine List.forall_mem_append.mpr ⟨fun r hr => h r (List.mem_of_mem_take hr), ?_⟩
    exact List.forall_mem_singleton.mpr reported_general

/-- What `arg_print_errors` does after `arg_parse`. -/
theorem ParseState.printed (h : ParseState t given rs this) (hclean : ∀ entry ∈ t.entries, CleanHdr entry.hdr)
    (hreported : ∀ r ∈ rs, Reported t.entries r) (progname : Text) :
    ((∀ r ∈ keptErrors t.last.maxcount.toNat rs, Fits t.entries r) → ∃ messages,
      List.Forall₂ (Describes t.entries progname) (keptErrors t.last.maxcount.toNat rs) messages ∧
      argPrintErrors this (some progname) = some messages.flatten) ∧
    (¬ (∀ r ∈ keptErrors t.last.maxcount.toNat rs, Fits t.entries r) → argPrintErrors this (some progname) = none) := by
  have hroom := h.logs.room
  have hcount := h.logs.count
  have hkept := h.logs.kept
  rw [h.maxcount] at hroom hcount hkept
  have hlength := @length_keptErrors rs t.last.maxcount.toNat (by omega)
  have hsame : this.last.count.toNat = (keptErrors t.last.maxcount.toNat rs).length := by omega
  have hloop : argPrintErrors this (some progname) =
      printLoop t.entries this.last.errors (some progname) (keptErrors t.last.maxcount.toNat rs).length 0 := by
    unfold argPrintErrors
    rw [hsame]
    exact printLoop_congr (h.printError_eq _) _ _ _
  rw [hsame] at hkept
  rw [hloop]
  exact printLoop_spec hclean progname this.last.errors _ 0 hkept (mem_keptErrors hreported)

theorem clean_someTable : ∀ entry ∈ someTable.entries, CleanHdr entry.hdr := by
  have hv : Clean (text "v") ∧ Clean (text "verbose") ∧ Clean (text "<int>") := by decide
  refine List.forall_mem_cons.mpr ⟨⟨?_, ?_, nofun⟩, List.forall_mem_singleton.mpr ⟨nofun, nofun, ?_⟩⟩
  · rintro s ⟨⟩
    exact hv.1
  · rintro s ⟨⟩
    exact hv.2.1
  · rintro s ⟨⟩
    exact hv.2.2

end Devclego.Arguments
