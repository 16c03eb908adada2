import Mathlib.Algebra.Group.Int.Defs
import Devclego.Foundation.Scanning
import Devclego.Foundation.Strip

/-!
# Reading integers

`strtol` for a `long` of 64 bits, in the C locale: blanks, a sign, in base 16 perhaps
the prefix `0x`, and as many digits as there are. A value outside the range becomes the
nearest one in it.
-/
namespace Devclego.Foundation

def intMax : Int := 2 ^ 31 - 1

def intMin : Int := -2 ^ 31

def longMax : Int := 2 ^ 63 - 1

def longMin : Int := -2 ^ 63

/-- What a digit stands for, in either case; other characters are no digit of any base. -/
def digitVal (c : Byte) : Nat :=
  if ascii '0' ≤ c ∧ c ≤ ascii '9' then c.toNat - 0x30
  else if ascii 'A' ≤ toupper c ∧ toupper c ≤ ascii 'Z' then (toupper c).toNat - 0x37
  else 36

def isDigitOf (base : Nat) (c : Byte) : Bool := digitVal c < base

def numeral (base : Nat) (digits : List Byte) : Nat := digits.foldl (fun n c => n * base + digitVal c) 0

/-- The factor of the sign, and what follows it. -/
def scanSign : List Byte → Int × List Byte
  | [] => (1, [])
  | c :: s => if c = ascii '+' then (1, s) else if c = ascii '-' then (-1, s) else (1, c :: s)

/-- The prefix belongs to the number when a digit follows it. -/
def skipHexPrefix (base : Nat) : List Byte → List Byte
  | z :: x :: d :: s =>
    if base = 16 ∧ z = ascii '0' ∧ toupper x = ascii 'X' ∧ isDigitOf 16 d = true then d :: s else z :: x :: d :: s
  | s => s

def clampLong (v : Int) : Int := max longMin (min v longMax)

/-- The conversion of a `long` to an `int`: its low 32 bits. -/
def toInt32 (v : Int) : Int := (v - intMin) % 2 ^ 32 + intMin

/-- The value and what is left, unless there is no number. -/
def strtol (base : Nat) (s : List Byte) : Option (Int × List Byte) :=
  let (sign, s) := scanSign (s.dropWhile isspace)
  let s := skipHexPrefix base s
  let digits := s.takeWhile (isDigitOf base)
  if digits = [] then none else some (clampLong (sign * numeral base digits), s.dropWhile (isDigitOf base))

/-! ## The numbers that are read -/

inductive IsSign : List Byte → Int → Prop where
  | none : IsSign [] 1
  | plus : IsSign [ascii '+'] 1
  | minus : IsSign [ascii '-'] (-1)

inductive IsPrefix (base : Nat) : List Byte → Prop where
  | none : IsPrefix base []
  | hex (x : Byte) (hx : toupper x = ascii 'X') (hbase : base = 16) : IsPrefix base [ascii '0', x]

/-- What comes before the digits of a number. -/
inductive IsLead : List Byte → Int → Prop where
  | mk (blanks sign : List Byte) (factor : Int) (hblanks : ∀ c ∈ blanks, isspace c = true) (hsign : IsSign sign factor) :
      IsLead (blanks ++ sign) factor

inductive IsNumber (base : Nat) : List Byte → Int → Prop where
  | mk (lead pre digits : List Byte) (factor : Int) (hlead : IsLead lead factor) (hpre : IsPrefix base pre)
      (hsome : digits ≠ []) (hdigits : ∀ c ∈ digits, isDigitOf base c = true) :
      IsNumber base (lead ++ pre ++ digits) (factor * numeral base digits)

/-- No digit follows. -/
def Ends (base : Nat) (rest : List Byte) : Prop := ∀ c, rest.head? = some c → isDigitOf base c = false

/-- A zero, with what makes a prefix of it. -/
inductive Continues : List Byte → List Byte → Prop where
  | mk (lead : List Byte) (factor : Int) (hlead : IsLead lead factor) (x d : Byte) (rest : List Byte)
      (hx : toupper x = ascii 'X') (hd : isDigitOf 16 d = true) : Continues (lead ++ [ascii '0']) (x :: d :: rest)

variable {base : Nat} {s t rest : List Byte} {v factor : Int}

theorem toInt32_of_inRange (h : intMin ≤ v ∧ v ≤ intMax) : toInt32 (clampLong v) = v := by
  have hmax : intMax = 2147483647 := by decide
  have hmin : intMin = -2147483648 := by decide
  have hlong : longMax = 9223372036854775807 ∧ longMin = -9223372036854775808 := by decide
  rw [hmax, hmin] at h
  unfold toInt32 clampLong
  rw [hmin, hlong.1, hlong.2]
  omega

theorem not_continues_nil : ¬ Continues t [] := nofun

theorem isDigitOf_not_blank {c : Byte} (hbase : base ≤ 16) (h : isDigitOf base c = true) :
    isspace c = false ∧ c ≠ ascii '+' ∧ c ≠ ascii '-' ∧ toupper c ≠ ascii 'X' := by
  have hall : ∀ c : Byte, digitVal c < 16 → isspace c = false ∧ c ≠ ascii '+' ∧ c ≠ ascii '-' ∧ toupper c ≠ ascii 'X' := by
    decide +kernel
  exact hall c (lt_of_lt_of_le (of_decide_eq_true h) hbase)

/-- Blanks and a sign are passed over, when neither follows. -/
theorem scanSign_lead (hlead : IsLead s factor) (hnext : ∀ c, t.head? = some c → isspace c = false ∧ c ≠ ascii '+' ∧
    c ≠ ascii '-') : scanSign ((s ++ t).dropWhile isspace) = (factor, t) := by
  obtain ⟨blanks, sign, factor, hblanks, hsign⟩ := hlead
  rw [List.append_assoc, List.dropWhile_append_of_pos hblanks]
  cases hsign with
  | none =>
    rw [List.nil_append, dropWhile_eq_self fun c hc => (hnext c hc).1]
    cases t with
    | nil => rfl
    | cons c t =>
      obtain ⟨-, hplus, hminus⟩ := hnext c rfl
      rw [scanSign, if_neg hplus, if_neg hminus]
  | plus => rfl
  | minus => rfl

theorem lead_of_scanSign (s : List Byte) : ∃ lead, IsLead lead (scanSign (s.dropWhile isspace)).1 ∧
    s = lead ++ (scanSign (s.dropWhile isspace)).2 := by
  have hsplit := List.takeWhile_append_dropWhile (p := isspace) (l := s)
  have hblanks : ∀ c ∈ s.takeWhile isspace, isspace c = true := fun c hc => List.mem_takeWhile_imp hc
  have hsign : ∀ t : List Byte, ∃ sign, IsSign sign (scanSign t).1 ∧ t = sign ++ (scanSign t).2 := by
    intro t
    cases t with
    | nil => exact ⟨[], .none, rfl⟩
    | cons c t =>
      rw [scanSign]
      by_cases hplus : c = ascii '+'
      · rw [if_pos hplus, hplus]
        exact ⟨_, .plus, rfl⟩
      · rw [if_neg hplus]
        by_cases hminus : c = ascii '-'
        · rw [if_pos hminus, hminus]
          exact ⟨_, .minus, rfl⟩
        · rw [if_neg hminus]
          exact ⟨[], .none, rfl⟩
  obtain ⟨sign, hsign, hrest⟩ := hsign (s.dropWhile isspace)
  refine ⟨s.takeWhile isspace ++ sign, .mk _ _ _ hblanks hsign, ?_⟩
  rw [List.append_assoc, ← hrest, hsplit]

theorem skipHexPrefix_digits {lead pre digits : List Byte} (hbase : base ≤ 16) (hlead : IsLead lead factor)
    (hpre : IsPrefix base pre) (hsome : digits ≠ []) (hdigits : ∀ c ∈ digits, isDigitOf base c = true)
    (hzero : base = 16 → ¬ Continues (lead ++ pre ++ digits) rest) :
    skipHexPrefix base (pre ++ digits ++ rest) = digits ++ rest := by
  cases hpre with
  | none =>
    rw [List.nil_append]
    match he : digits ++ rest with
    | [] => rfl
    | [z] => rfl
    | [z, x] => rfl
    | z :: x :: d :: s =>
      rw [skipHexPrefix, if_neg]
      intro hprefix
      obtain ⟨h16, rfl, hx, hd⟩ := hprefix
      cases digits with
      | nil => exact hsome rfl
      | cons e digits =>
        obtain ⟨rfl, htail⟩ := List.cons.inj he
        cases digits with
        | nil =>
          -- the number is this zero alone
          have hrest : rest = x :: d :: s := htail
          rw [hrest, List.append_nil] at hzero
          exact hzero h16 (.mk lead factor hlead x d s hx hd)
        | cons c digits =>
          obtain ⟨rfl, -⟩ := List.cons.inj htail
          exact (isDigitOf_not_blank hbase (hdigits c (by simp))).2.2.2 hx
  | hex x hx hbase =>
    obtain ⟨d, digits, rfl⟩ := List.exists_cons_of_ne_nil hsome
    have hd := hdigits d (List.mem_cons_self ..)
    rw [hbase] at hd
    show skipHexPrefix base (ascii '0' :: x :: d :: (digits ++ rest)) = _
    rw [skipHexPrefix, if_pos ⟨hbase, rfl, hx, hd⟩]
    rfl

/-- A number that ends is read. -/
theorem strtol_of_number (hbase : base ≤ 16) (h : IsNumber base t v) (hrest : Ends base rest)
    (hzero : base = 16 → ¬ Continues t rest) : strtol base (t ++ rest) = some (clampLong v, rest) := by
  obtain ⟨lead, pre, digits, factor, hlead, hpre, hsome, hdigits⟩ := h
  have hnext : ∀ c, (pre ++ digits ++ rest).head? = some c → isspace c = false ∧ c ≠ ascii '+' ∧ c ≠ ascii '-' := by
    intro c hc
    cases hpre with
    | none =>
      obtain ⟨d, digits, rfl⟩ := List.exists_cons_of_ne_nil hsome
      cases hc
      obtain ⟨hblank, hplus, hminus, -⟩ := isDigitOf_not_blank hbase (hdigits c (List.mem_cons_self ..))
      exact ⟨hblank, hplus, hminus⟩
    | hex x hx hbase =>
      cases hc
      decide
  have hsplit : lead ++ pre ++ digits ++ rest = lead ++ (pre ++ digits ++ rest) := by simp
  have htake : (digits ++ rest).takeWhile (isDigitOf base) = digits := by
    rw [List.takeWhile_append_of_pos hdigits]
    cases rest with
    | nil => exact List.append_nil digits
    | cons c rest => rw [List.takeWhile_cons, hrest c rfl, if_neg Bool.false_ne_true, List.append_nil]
  have hdrop : (digits ++ rest).dropWhile (isDigitOf base) = rest := by
    rw [List.dropWhile_append_of_pos hdigits]
    exact dropWhile_eq_self hrest
  rw [strtol, hsplit, scanSign_lead hlead hnext]
  dsimp only
  rw [skipHexPrefix_digits hbase hlead hpre hsome hdigits hzero, htake, if_neg hsome, hdrop]

/-- What is read is a number, and no digit follows it. -/
theorem number_of_strtol {w : Int} (h : strtol base s = some (w, rest)) :
    ∃ t v, s = t ++ rest ∧ IsNumber base t v ∧ w = clampLong v := by
  obtain ⟨lead, hlead, hs⟩ := lead_of_scanSign s
  have hpre : ∀ u : List Byte, ∃ pre, IsPrefix base pre ∧ u = pre ++ skipHexPrefix base u := by
    intro u
    match u with
    | [] => exact ⟨[], .none, rfl⟩
    | [z] => exact ⟨[], .none, rfl⟩
    | [z, x] => exact ⟨[], .none, rfl⟩
    | z :: x :: d :: u =>
      rw [skipHexPrefix]
      by_cases hx : base = 16 ∧ z = ascii '0' ∧ toupper x = ascii 'X' ∧ isDigitOf 16 d = true
      · rw [if_pos hx, hx.2.1]
        exact ⟨_, .hex x hx.2.2.1 hx.1, rfl⟩
      · rw [if_neg hx]
        exact ⟨[], .none, rfl⟩
  obtain ⟨pre, hpre, hu⟩ := hpre (scanSign (s.dropWhile isspace)).2
  rw [strtol] at h
  generalize scanSign (s.dropWhile isspace) = signed at hlead hs hu h
  obtain ⟨factor, u⟩ := signed
  dsimp only at hlead hs hu h
  by_cases hsome : (skipHexPrefix base u).takeWhile (isDigitOf base) = []
  · rw [if_pos hsome] at h
    cases h
  · rw [if_neg hsome] at h
    cases h
    refine ⟨lead ++ pre ++ (skipHexPrefix base u).takeWhile (isDigitOf base), _, ?_,
      .mk lead pre _ factor hlead hpre hsome fun c hc => List.mem_takeWhile_imp hc, rfl⟩
    rw [List.append_assoc, List.takeWhile_append_dropWhile, List.append_assoc, ← hu]
    exact hs

/-! ## Decimal numbers that were printed -/

/-- `%d` -/
def decimal (n : Int) : List Byte := text (toString n)

theorem numeral_append_singleton (base : Nat) (digits : List Byte) (c : Byte) :
    numeral base (digits ++ [c]) = numeral base digits * base + digitVal c := by
  rw [numeral, List.foldl_append]
  rfl

theorem digits_repr (n : Nat) : (Nat.toDigits 10 n).map ascii ≠ [] ∧
    (∀ c ∈ (Nat.toDigits 10 n).map ascii, isDigitOf 10 c = true) ∧ numeral 10 ((Nat.toDigits 10 n).map ascii) = n := by
  have hdigit : ∀ d : Nat, d < 10 → isDigitOf 10 (ascii (Nat.digitChar d)) = true ∧ digitVal (ascii (Nat.digitChar d)) = d := by
    decide
  induction n using Nat.strong_induction_on with
  | h n ih =>
    rw [Nat.toDigits_eq_if (by decide)]
    by_cases hn : n < 10
    · obtain ⟨hd, hv⟩ := hdigit n hn
      rw [if_pos hn]
      refine ⟨by simp, by simpa using hd, ?_⟩
      show 0 * 10 + digitVal (ascii (Nat.digitChar n)) = n
      omega
    · obtain ⟨hd, hv⟩ := hdigit (n % 10) (Nat.mod_lt n (by decide))
      obtain ⟨-, hdigits, hvalue⟩ := ih (n / 10) (Nat.div_lt_self (by omega) (by decide))
      rw [if_neg hn, List.map_append, List.map_singleton]
      refine ⟨by simp, fun c hc => ?_, ?_⟩
      · rcases List.mem_append.mp hc with hc | hc
        · exact hdigits c hc
        · rw [List.mem_singleton.mp hc]
          exact hd
      · rw [numeral_append_singleton, hvalue, hv]
        omega

theorem text_repr (m : Nat) : text (Nat.repr m) = (Nat.toDigits 10 m).map ascii := by
  rw [text, Nat.repr, String.toList_ofList]

theorem decimal_natCast (m : Nat) : decimal m = (Nat.toDigits 10 m).map ascii := text_repr m

theorem decimal_negSucc (m : Nat) : decimal (Int.negSucc m) = [ascii '-'] ++ (Nat.toDigits 10 (m + 1)).map ascii := by
  show text ("-" ++ Nat.repr (m + 1)) = _
  rw [text, String.toList_append, List.map_append]
  exact congrArg ([ascii '-'] ++ ·) (text_repr (m + 1))

theorem negSucc_eq (m : Nat) : -1 * ((m + 1 : Nat) : Int) = Int.negSucc m := by omega

/-- What was printed is the number that is read. -/
theorem isNumber_decimal (n : Int) : IsNumber 10 (decimal n) n := by
  cases n with
  | ofNat m =>
    obtain ⟨hsome, hdigits, hvalue⟩ := digits_repr m
    have hnumber : IsNumber 10 _ _ := .mk [] [] _ 1 (.mk [] [] 1 nofun .none) .none hsome hdigits
    rw [hvalue, Int.one_mul] at hnumber
    show IsNumber 10 (decimal (m : Int)) m
    rw [decimal_natCast]
    exact hnumber
  | negSucc m =>
    obtain ⟨hsome, hdigits, hvalue⟩ := digits_repr (m + 1)
    have hnumber : IsNumber 10 _ _ := .mk [ascii '-'] [] _ (-1) (.mk [] [ascii '-'] (-1) nofun .minus) .none hsome hdigits
    rw [hvalue, negSucc_eq, List.append_nil] at hnumber
    rw [decimal_negSucc]
    exact hnumber

/-! ## Base 0 -/

/-- The base that the digits announce. -/
def announcedBase : List Byte → Nat
  | z :: x :: d :: _ =>
    if z ≠ ascii '0' then 10 else if toupper x = ascii 'X' ∧ isDigitOf 16 d = true then 16 else 8
  | z :: _ => if z ≠ ascii '0' then 10 else 8
  | [] => 10

/-- `strtol` with the base 0. -/
def strtolAuto (s : List Byte) : Option (Int × List Byte) :=
  strtol (announcedBase (scanSign (s.dropWhile isspace)).2) s

/-- Decimal, octal and hexadecimal integers as in C, with a sign. -/
inductive IsLiteral : Nat → List Byte → Int → Prop where
  | decimal (lead digits : List Byte) (factor : Int) (hlead : IsLead lead factor) (hsome : digits ≠ [])
      (hdigits : ∀ c ∈ digits, isDigitOf 10 c = true) (hfirst : digits.head? ≠ some (ascii '0')) :
      IsLiteral 10 (lead ++ digits) (factor * numeral 10 digits)
  | octal (lead digits : List Byte) (factor : Int) (hlead : IsLead lead factor)
      (hdigits : ∀ c ∈ digits, isDigitOf 8 c = true) :
      IsLiteral 8 (lead ++ ascii '0' :: digits) (factor * numeral 8 digits)
  | hex (lead : List Byte) (x : Byte) (digits : List Byte) (factor : Int) (hlead : IsLead lead factor)
      (hx : toupper x = ascii 'X') (hsome : digits ≠ []) (hdigits : ∀ c ∈ digits, isDigitOf 16 c = true) :
      IsLiteral 16 (lead ++ ascii '0' :: x :: digits) (factor * numeral 16 digits)

theorem announcedBase_decimal {c : Byte} (h : c ≠ ascii '0') (s : List Byte) : announcedBase (c :: s) = 10 := by
  match s with
  | [] => exact if_pos h
  | [x] => exact if_pos h
  | x :: d :: s => exact if_pos h

theorem announcedBase_octal {s : List Byte} (h : ∀ x d s', s = x :: d :: s' → toupper x = ascii 'X' → isDigitOf 16 d ≠ true) :
    announcedBase (ascii '0' :: s) = 8 := by
  match s with
  | [] => rfl
  | [x] => rfl
  | x :: d :: s =>
    rw [announcedBase, if_neg (not_not.mpr rfl), if_neg fun hx => h x d s rfl hx.1 hx.2]

theorem scanSign_literal {lead body rest : List Byte} {factor : Int} (hlead : IsLead lead factor)
    (hbody : ∀ c, body.head? = some c → isDigitOf 10 c = true) (hsome : body ≠ []) :
    (scanSign ((lead ++ body ++ rest).dropWhile isspace)).2 = body ++ rest := by
  obtain ⟨c, body, rfl⟩ := List.exists_cons_of_ne_nil hsome
  obtain ⟨hblank, hplus, hminus, -⟩ := isDigitOf_not_blank (by decide) (hbody c rfl)
  rw [List.append_assoc, scanSign_lead hlead]
  intro d hd
  cases hd
  exact ⟨hblank, hplus, hminus⟩

/-- An integer as in C is read in its base. -/
theorem strtolAuto_of_literal (h : IsLiteral base t v) (hrest : Ends base rest) (hzero : ¬ Continues t rest) :
    strtolAuto (t ++ rest) = some (clampLong v, rest) := by
  have hfront : ∀ digits, numeral 8 (ascii '0' :: digits) = numeral 8 digits := fun _ => rfl
  unfold strtolAuto
  cases h with
  | decimal lead digits factor hlead hsome hdigits hfirst =>
    have hnumber := IsNumber.mk lead [] digits factor hlead (@IsPrefix.none 10) hsome hdigits
    obtain ⟨c, digits, rfl⟩ := List.exists_cons_of_ne_nil hsome
    rw [scanSign_literal hlead (fun d hd => hdigits d (List.mem_of_mem_head? hd)) hsome, List.cons_append,
      announcedBase_decimal fun hc => hfirst (congrArg some hc)]
    rw [List.append_nil] at hnumber
    exact strtol_of_number (by decide) hnumber hrest fun h16 => absurd h16 (by decide)
  | octal lead digits factor hlead hdigits =>
    have hall : ∀ c ∈ ascii '0' :: digits, isDigitOf 8 c = true := List.forall_mem_cons.mpr ⟨by decide, hdigits⟩
    have hnumber := IsNumber.mk lead [] (ascii '0' :: digits) factor hlead (@IsPrefix.none 8) (List.cons_ne_nil _ _) hall
    have hnext : ∀ x d s, digits ++ rest = x :: d :: s → toupper x = ascii 'X' → isDigitOf 16 d ≠ true := by
      intro x d s he hx hd
      cases digits with
      | nil =>
        rw [List.nil_append] at he
        rw [he] at hzero
        exact hzero (.mk lead factor hlead x d s hx hd)
      | cons c digits =>
        obtain ⟨rfl, -⟩ := List.cons.inj he
        exact (isDigitOf_not_blank (by decide) (hdigits c (List.mem_cons_self ..))).2.2.2 hx
    rw [scanSign_literal hlead (fun d hd => by cases hd; decide) (List.cons_ne_nil _ _), List.cons_append,
      announcedBase_octal hnext]
    rw [List.append_nil, hfront] at hnumber
    exact strtol_of_number (by decide) hnumber hrest fun h16 => absurd h16 (by decide)
  | hex lead x digits factor hlead hx hsome hdigits =>
    have hnumber := IsNumber.mk lead [ascii '0', x] digits factor hlead (.hex x hx rfl) hsome hdigits
    obtain ⟨d, digits, rfl⟩ := List.exists_cons_of_ne_nil hsome
    have hbase : announcedBase (ascii '0' :: x :: d :: (digits ++ rest)) = 16 := by
      rw [announcedBase, if_neg (not_not.mpr rfl), if_pos ⟨hx, hdigits d (List.mem_cons_self ..)⟩]
    rw [scanSign_literal hlead (fun d hd => by cases hd; decide) (List.cons_ne_nil _ _)]
    rw [List.append_assoc] at hnumber
    show strtol (announcedBase (ascii '0' :: x :: d :: (digits ++ rest))) _ = _
    rw [hbase]
    exact strtol_of_number (by decide) hnumber hrest fun _ => hzero

theorem head?_toDigits {n : Nat} (h : 0 < n) : ((Nat.toDigits 10 n).map ascii).head? ≠ some (ascii '0') := by
  have hdigit : ∀ d : Nat, d < 10 → 0 < d → ascii (Nat.digitChar d) ≠ ascii '0' := by decide
  induction n using Nat.strong_induction_on with
  | h n ih =>
    rw [Nat.toDigits_eq_if (by decide)]
    by_cases hn : n < 10
    · rw [if_pos hn]
      exact fun he => hdigit n hn h (Option.some.inj he)
    · obtain ⟨hsome, -⟩ := digits_repr (n / 10)
      rw [if_neg hn, List.map_append, List.head?_append_of_ne_nil _ hsome]
      exact ih (n / 10) (Nat.div_lt_self h (by decide)) (Nat.div_pos (Nat.not_lt.mp hn) (by decide))

/-- What was printed with `%d` is such an integer. -/
theorem literal_decimal (n : Int) : ∃ base, IsLiteral base (decimal n) n := by
  have hplain : IsLead [] 1 := .mk [] [] 1 nofun .none
  match n with
  | .ofNat 0 => exact ⟨8, .octal [] [] 1 hplain nofun⟩
  | .ofNat (m + 1) =>
    obtain ⟨hsome, hdigits, hvalue⟩ := digits_repr (m + 1)
    have hliteral := IsLiteral.decimal [] _ 1 hplain hsome hdigits (head?_toDigits (Nat.succ_pos m))
    rw [hvalue, Int.one_mul] at hliteral
    refine ⟨10, ?_⟩
    show IsLiteral 10 (decimal ((m + 1 : Nat) : Int)) ((m + 1 : Nat) : Int)
    rw [decimal_natCast]
    exact hliteral
  | .negSucc m =>
    obtain ⟨hsome, hdigits, hvalue⟩ := digits_repr (m + 1)
    have hliteral := IsLiteral.decimal [ascii '-'] _ (-1) (.mk [] [ascii '-'] (-1) nofun .minus) hsome hdigits
      (head?_toDigits (Nat.succ_pos m))
    rw [hvalue, negSucc_eq] at hliteral
    refine ⟨10, ?_⟩
    rw [decimal_negSucc]
    exact hliteral

end Devclego.Foundation
