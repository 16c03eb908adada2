import Devclego.Arguments.Model

/-!
# Which integers are accepted

An integer argument is a decimal number, or one with the prefix `0x`, `0o` or `0b` in
the base that it stands for; a suffix may multiply it. The number is cut to an `int`
first. The sign of a prefix comes on top of that of the number, and only what this sign
or the suffix carries out of the range is an overflow.
-/
namespace Devclego.Arguments

open Foundation

def formats : List (Char × Nat) := [('X', 16), ('O', 8), ('B', 2)]

def units : List (Text × Int) := [(text "KB", 1024), (text "MB", 1048576), (text "GB", 1073741824)]

/-- What is read at the start of a text, and what follows it. -/
inductive Reads : Text → Int → Text → Prop where
  | decimal (t rest : Text) (v : Int) (h : IsNumber 10 t v) : Reads (t ++ rest) (toInt32 (clampLong v)) rest
  | prefixed (x : Char) (base : Nat) (lead t rest : Text) (c : Byte) (factor v : Int) (hx : (x, base) ∈ formats)
      (hlead : IsLead lead factor) (hc : toupper c = ascii x) (h : IsNumber base t v) :
      Reads (lead ++ ascii '0' :: c :: (t ++ rest)) (factor * toInt32 (clampLong v)) rest

/-- A factor of 1, or one of the units in either case; blanks may follow. -/
inductive IsSuffix : Text → Int → Prop where
  | plain (blanks : Text) (hblanks : ∀ c ∈ blanks, isspace c = true) : IsSuffix blanks 1
  | unit (name letters blanks : Text) (factor : Int) (hname : (name, factor) ∈ units) (hletters : letters.map toupper = name)
      (hblanks : ∀ c ∈ blanks, isspace c = true) : IsSuffix (letters ++ blanks) factor

inductive IntText : Text → Int → Prop where
  | mk (s rest : Text) (v factor : Int) (h : Reads s v rest) (hsuffix : IsSuffix rest factor) : IntText s (v * factor)

variable {s t lead rest : Text} {v factor : Int} {base : Nat} {x : Char}

/-! ## Suffixes -/

theorem detectsuffix_iff (s suffix : Text) :
    detectsuffix s suffix = true ↔
      ∃ letters blanks, s = letters ++ blanks ∧ letters.map toupper = suffix.map toupper ∧ ∀ c ∈ blanks, isspace c = true := by
  induction suffix generalizing s with
  | nil =>
    have hnil : detectsuffix s [] = s.all isspace := by
      cases s with
      | nil => rfl
      | cons c s => rfl
    rw [hnil, List.all_eq_true]
    constructor
    · intro hblanks
      exact ⟨[], s, rfl, rfl, hblanks⟩
    · rintro ⟨letters, blanks, hs, hletters, hblanks⟩
      rw [List.map_eq_nil_iff.mp hletters] at hs
      rw [hs]
      exact hblanks
  | cons d suffix ih =>
    cases s with
    | nil =>
      constructor
      · intro h
        cases h
      · rintro ⟨letters, blanks, hs, hletters, -⟩
        rw [(List.append_eq_nil_iff.mp hs.symm).1] at hletters
        cases hletters
    | cons c s =>
      rw [detectsuffix]
      constructor
      · intro h
        split at h
        · obtain ⟨letters, blanks, hs, hletters, hblanks⟩ := (ih s).mp h
          refine ⟨c :: letters, blanks, by rw [hs]; rfl, ?_, hblanks⟩
          rw [List.map_cons, List.map_cons, hletters, ‹toupper c = toupper d›]
        · cases h
      · rintro ⟨letters, blanks, hs, hletters, hblanks⟩
        cases letters with
        | nil => cases hletters
        | cons e letters =>
          obtain ⟨rfl, htail⟩ := List.cons.inj hs
          obtain ⟨hd, hrest⟩ := List.cons.inj hletters
          rw [if_pos hd]
          exact (ih s).mpr ⟨letters, blanks, htail, hrest, hblanks⟩

/-- No digit begins a suffix, nor the letter of a prefix. -/
theorem IsSuffix.head (h : IsSuffix rest factor) {c : Byte} (hc : rest.head? = some c) :
    16 ≤ digitVal c ∧ ∀ format ∈ formats, toupper c ≠ ascii format.1 := by
  have hblank : ∀ c : Byte, isspace c = true → 16 ≤ digitVal c ∧ ∀ format ∈ formats, toupper c ≠ ascii format.1 := by
    decide +kernel
  have hletter : ∀ c : Byte, toupper c = ascii 'K' ∨ toupper c = ascii 'M' ∨ toupper c = ascii 'G' →
      16 ≤ digitVal c ∧ ∀ format ∈ formats, toupper c ≠ ascii format.1 := by
    decide +kernel
  cases h with
  | plain blanks hblanks => exact hblank c (hblanks c (List.mem_of_mem_head? hc))
  | unit name letters blanks factor hname hletters hblanks =>
    apply hletter
    simp only [units, List.mem_cons, Prod.mk.injEq, List.not_mem_nil, or_false] at hname
    cases letters with
    | nil =>
      rw [← hletters] at hname
      rcases hname with ⟨hn, -⟩ | ⟨hn, -⟩ | ⟨hn, -⟩
      · cases hn
      · cases hn
      · cases hn
    | cons d letters =>
      cases hc
      rcases hname with ⟨hn, -⟩ | ⟨hn, -⟩ | ⟨hn, -⟩
      · rw [hn] at hletters
        exact Or.inl (List.cons.inj hletters).1
      · rw [hn] at hletters
        exact Or.inr (Or.inl (List.cons.inj hletters).1)
      · rw [hn] at hletters
        exact Or.inr (Or.inr (List.cons.inj hletters).1)

theorem IsSuffix.ends (h : IsSuffix rest factor) (hbase : base ≤ 16) : Ends base rest := by
  intro c hc
  obtain ⟨hdigit, -⟩ := h.head hc
  exact decide_eq_false (Nat.not_lt.mpr (hbase.trans hdigit))

theorem IsSuffix.not_continues (h : IsSuffix rest factor) : ¬ Continues t rest := by
  intro hcontinues
  cases hcontinues with
  | mk lead σ hlead x d rest hx hd => exact (h.head rfl).2 ('X', 16) (by decide) hx

theorem detectsuffix_head {d : Byte} {suffix : Text} (h : detectsuffix s (d :: suffix) = true) :
    ∃ c, s.head? = some c ∧ toupper c = toupper d := by
  cases s with
  | nil => cases h
  | cons c s =>
    rw [detectsuffix] at h
    split at h
    · exact ⟨c, rfl, ‹_›⟩
    · cases h

/-- The error code before the suffix is looked at. -/
def rangeCode (v : Int) : Int := if intMax < v ∨ v < intMin then eoverflowInt else 0

def InRange (v : Int) : Prop := intMin ≤ v ∧ v ≤ intMax

instance (v : Int) : Decidable (InRange v) := inferInstanceAs (Decidable (_ ∧ _))

theorem multiply_spec {unit : Int} (hunit : unit = 1024 ∨ unit = 1048576 ∨ unit = 1073741824) (v : Int) :
    (InRange (v * unit) → multiply unit v (rangeCode v) = (v * unit, 0)) ∧
      (¬ InRange (v * unit) → (multiply unit v (rangeCode v)).2 = eoverflowInt) := by
  have hmax : intMax = 2147483647 := rfl
  have hmin : intMin = -2147483648 := rfl
  have hbounds : InRange (v * unit) ↔ ¬ (intMax.tdiv unit < v ∨ v < intMin.tdiv unit) := by
    rw [InRange]
    rcases hunit with rfl | rfl | rfl
    · rw [show intMax.tdiv 1024 = 2097151 by decide, show intMin.tdiv 1024 = -2097152 by decide]
      omega
    · rw [show intMax.tdiv 1048576 = 2047 by decide, show intMin.tdiv 1048576 = -2048 by decide]
      omega
    · rw [show intMax.tdiv 1073741824 = 1 by decide, show intMin.tdiv 1073741824 = -2 by decide]
      omega
  constructor
  · intro hrange
    have hv : ¬ (intMax < v ∨ v < intMin) := by
      rw [InRange] at hrange
      rcases hunit with rfl | rfl | rfl
      · omega
      · omega
      · omega
    rw [multiply, if_neg (hbounds.mp hrange), rangeCode, if_neg hv]
  · intro hrange
    rw [multiply, if_pos (not_not.mp (mt hbounds.mpr hrange))]

theorem applySuffix_spec (hsuffix : IsSuffix rest factor) (v : Int) :
    (InRange (v * factor) → applySuffix rest v (rangeCode v) = (v * factor, 0)) ∧
      (¬ InRange (v * factor) → (applySuffix rest v (rangeCode v)).2 = eoverflowInt) := by
  have hother : ∀ name : Text, ∀ d : Byte, name.head? = some d → (∀ c, rest.head? = some c → toupper c ≠ toupper d) →
      detectsuffix rest name = false := by
    intro name d hname hd
    obtain ⟨suffix, rfl⟩ : ∃ suffix, name = d :: suffix := by
      cases name with
      | nil => cases hname
      | cons e suffix => exact ⟨suffix, by rw [Option.some.inj hname]⟩
    rw [Bool.eq_false_iff]
    intro hdetect
    obtain ⟨c, hc, hcd⟩ := detectsuffix_head hdetect
    exact hd c hc hcd
  cases hsuffix with
  | plain _ hblanks =>
    have hblank : ∀ c, rest.head? = some c → ∀ d ∈ [ascii 'K', ascii 'M', ascii 'G'], toupper c ≠ toupper d := by
      have hall : ∀ c : Byte, isspace c = true → ∀ d ∈ [ascii 'K', ascii 'M', ascii 'G'], toupper c ≠ toupper d := by
        decide +kernel
      exact fun c hc => hall c (hblanks c (List.mem_of_mem_head? hc))
    have hplain : detectsuffix rest [] = true := (detectsuffix_iff rest []).mpr ⟨[], rest, rfl, rfl, hblanks⟩
    rw [applySuffix, hother (text "KB") (ascii 'K') rfl fun c hc => hblank c hc _ (by decide),
      hother (text "MB") (ascii 'M') rfl fun c hc => hblank c hc _ (by decide),
      hother (text "GB") (ascii 'G') rfl fun c hc => hblank c hc _ (by decide), hplain]
    simp only [Bool.false_eq_true, ↓reduceIte, Int.mul_one, rangeCode, InRange]
    constructor
    · intro hrange
      rw [if_neg (by omega)]
    · intro hrange
      rw [if_pos (by omega)]
  | unit name letters blanks _ hname hletters hblanks =>
    have hdetect : detectsuffix (letters ++ blanks) name = true := by
      refine (detectsuffix_iff _ _).mpr ⟨letters, blanks, rfl, ?_, hblanks⟩
      have hupper : ∀ unit ∈ units, unit.1.map toupper = unit.1 := by decide
      rw [hletters, hupper _ hname]
    have hfirst : ∀ c, (letters ++ blanks).head? = some c → name.head? = some (toupper c) := by
      intro c hc
      have hunit : ∀ unit ∈ units, unit.1 ≠ [] := by decide
      cases letters with
      | nil => exact absurd hletters.symm (hunit _ hname)
      | cons d letters =>
        cases hc
        rw [← hletters]
        rfl
    have hskip : ∀ name' : Text, ∀ d : Byte, name'.head? = some d → name.head? ≠ some (toupper d) →
        detectsuffix (letters ++ blanks) name' = false := by
      intro name' d hd hne
      refine hother name' d hd fun c hc he => hne ?_
      rw [hfirst c hc, he]
    simp only [units, List.mem_cons, Prod.mk.injEq, List.not_mem_nil, or_false] at hname
    rcases hname with ⟨rfl, rfl⟩ | ⟨rfl, rfl⟩ | ⟨rfl, rfl⟩
    · rw [applySuffix, hdetect, if_pos rfl]
      exact multiply_spec (Or.inl rfl) v
    · rw [applySuffix, hskip (text "KB") (ascii 'K') rfl (by decide), if_neg Bool.false_ne_true, hdetect, if_pos rfl]
      exact multiply_spec (Or.inr (Or.inl rfl)) v
    · rw [applySuffix, hskip (text "KB") (ascii 'K') rfl (by decide), if_neg Bool.false_ne_true,
        hskip (text "MB") (ascii 'M') rfl (by decide), if_neg Bool.false_ne_true, hdetect, if_pos rfl]
      exact multiply_spec (Or.inr (Or.inr rfl)) v

theorem applySuffix_bad (hbad : ∀ factor, ¬ IsSuffix rest factor) (v code : Int) : applySuffix rest v code = (v, ebadint) := by
  have hunit : ∀ name factor, (name, factor) ∈ units → detectsuffix rest name = false := by
    intro name factor hname
    rw [Bool.eq_false_iff]
    intro hdetect
    obtain ⟨letters, blanks, rfl, hletters, hblanks⟩ := (detectsuffix_iff rest name).mp hdetect
    have hupper : ∀ unit ∈ units, unit.1.map toupper = unit.1 := by decide
    exact hbad factor (.unit name letters blanks factor hname (hletters.trans (hupper _ hname)) hblanks)
  have hplain : detectsuffix rest [] = false := by
    rw [Bool.eq_false_iff]
    intro hdetect
    obtain ⟨letters, blanks, hrest, hletters, hblanks⟩ := (detectsuffix_iff rest []).mp hdetect
    rw [List.map_eq_nil_iff.mp hletters, List.nil_append] at hrest
    rw [hrest] at hbad
    exact hbad 1 (.plain blanks hblanks)
  rw [applySuffix, hunit (text "KB") 1024 (by decide), hunit (text "MB") 1048576 (by decide),
    hunit (text "GB") 1073741824 (by decide), hplain]
  rfl

/-! ## Formats -/

theorem strtolInt_of_number (hbase : base ≤ 16) (h : IsNumber base t v) (hsuffix : IsSuffix rest factor) :
    strtolInt base (t ++ rest) = some (toInt32 (clampLong v), rest) := by
  rw [strtolInt, strtol_of_number hbase h (hsuffix.ends hbase) fun _ => hsuffix.not_continues]
  rfl

theorem number_of_strtolInt {w : Int} (h : strtolInt base s = some (w, rest)) :
    ∃ t v, s = t ++ rest ∧ IsNumber base t v ∧ w = toInt32 (clampLong v) := by
  obtain ⟨r, hread, hr⟩ := Option.map_eq_some_iff.mp h
  obtain ⟨rfl, rfl⟩ := Prod.mk.inj hr
  obtain ⟨t, v, hs, hnumber, hr⟩ := number_of_strtol hread
  exact ⟨t, v, hs, hnumber, by rw [hr]⟩

theorem toupper_format : ∀ format ∈ formats, toupper (ascii format.1) = ascii format.1 ∧ format.2 ≤ 16 := by decide

/-- What a format makes of a text with its prefix. -/
theorem strtol0X_prefixed {σ : Int} (hx : (x, base) ∈ formats) (hlead : IsLead lead σ) {c : Byte} (hc : toupper c = ascii x)
    (h : IsNumber base t v) (hsuffix : IsSuffix rest factor) :
    strtol0X x base (lead ++ ascii '0' :: c :: (t ++ rest)) = some (σ * toInt32 (clampLong v), rest) := by
  obtain ⟨hupper, hbase⟩ := toupper_format _ hx
  have hnext : ∀ d, (ascii '0' :: c :: (t ++ rest)).head? = some d → isspace d = false ∧ d ≠ ascii '+' ∧ d ≠ ascii '-' := by
    intro d hd
    cases hd
    decide
  rw [strtol0X, scanSign_lead hlead hnext]
  dsimp only
  rw [if_neg (not_not.mpr rfl), if_neg (by rw [hc, hupper]; exact not_not.mpr rfl), strtolInt_of_number hbase h hsuffix]
  rfl

/-- A character that is not its own is no prefix for a format. -/
theorem strtol0X_other (hlead : IsLead lead factor) {d : Byte} (hd : isspace d = false ∧ d ≠ ascii '+' ∧ d ≠ ascii '-')
    (hsecond : ∀ c, s.head? = some c → toupper c ≠ toupper (ascii x)) : strtol0X x base (lead ++ d :: s) = none := by
  have hnext : ∀ e, (d :: s).head? = some e → isspace e = false ∧ e ≠ ascii '+' ∧ e ≠ ascii '-' := by
    intro e he
    cases he
    exact hd
  rw [strtol0X, scanSign_lead hlead hnext]
  cases s with
  | nil => rfl
  | cons c s =>
    dsimp only
    rw [if_pos (hsecond c rfl), ite_self]

/-- What a format reads. -/
theorem reads_of_strtol0X (hx : (x, base) ∈ formats) (h : strtol0X x base s = some (v, rest)) : Reads s v rest := by
  obtain ⟨hupper, -⟩ := toupper_format _ hx
  obtain ⟨lead, hlead, hs⟩ := lead_of_scanSign s
  rw [strtol0X] at h
  generalize scanSign (s.dropWhile isspace) = signed at hlead hs h
  obtain ⟨factor, t⟩ := signed
  dsimp only at hlead hs h
  match t with
  | [] => cases h
  | [zero] => cases h
  | zero :: c :: u =>
    dsimp only at h
    by_cases hzero : zero = ascii '0'
    · rw [if_neg (not_not.mpr hzero)] at h
      by_cases hc : toupper c = ascii x
      · rw [if_neg (by rw [hc, hupper]; exact not_not.mpr rfl)] at h
        obtain ⟨r, hread, hr⟩ := Option.map_eq_some_iff.mp h
        obtain ⟨rfl, rfl⟩ := Prod.mk.inj hr
        obtain ⟨t, w, rfl, hnumber, hw⟩ := number_of_strtolInt hread
        rw [hs, hzero, hw]
        exact .prefixed x base lead t r.2 c factor w hx hlead hc hnumber
      · rw [if_pos (by rw [hupper]; exact hc)] at h
        cases h
    · rw [if_pos hzero] at h
      cases h

/-- Whatever the formats read is a number. -/
theorem reads_of_scanFormats (h : scanFormats s = some (v, rest)) : Reads s v rest := by
  rw [scanFormats] at h
  rcases Option.or_eq_some_iff.mp h with hhex | ⟨-, h⟩
  · exact reads_of_strtol0X (show ('X', 16) ∈ formats by decide) hhex
  rcases Option.or_eq_some_iff.mp h with hoctal | ⟨-, h⟩
  · exact reads_of_strtol0X (show ('O', 8) ∈ formats by decide) hoctal
  rcases Option.or_eq_some_iff.mp h with hbinary | ⟨-, h⟩
  · exact reads_of_strtol0X (show ('B', 2) ∈ formats by decide) hbinary
  obtain ⟨t, w, rfl, hnumber, rfl⟩ := number_of_strtolInt h
  exact .decimal t rest w hnumber

/-- A decimal number has no prefix. -/
theorem strtol0X_decimal (hx : (x, base) ∈ formats) (h : IsNumber 10 t v) (hsuffix : IsSuffix rest factor) :
    strtol0X x base (t ++ rest) = none := by
  obtain ⟨lead, pre, digits, σ, hlead, hpre, hsome, hdigits⟩ := h
  obtain ⟨hupper, -⟩ := toupper_format _ hx
  have hdigit : ∀ c : Byte, isDigitOf 10 c = true → ∀ format ∈ formats, toupper c ≠ ascii format.1 := by decide +kernel
  cases hpre with
  | hex y hy hten => cases hten
  | none =>
    obtain ⟨d, digits, rfl⟩ := List.exists_cons_of_ne_nil hsome
    obtain ⟨hblank, hplus, hminus, -⟩ := isDigitOf_not_blank (by decide) (hdigits d (List.mem_cons_self ..))
    rw [List.append_nil, List.append_assoc, List.cons_append]
    refine strtol0X_other hlead ⟨hblank, hplus, hminus⟩ fun c hc => ?_
    rw [hupper]
    cases digits with
    | nil => exact (hsuffix.head hc).2 _ hx
    | cons e digits =>
      cases hc
      exact hdigit c (hdigits c (by simp)) _ hx

/-- A format passes over the prefix of another one. -/
theorem strtol0X_skips {y : Char} {other : Nat} (hy : (y, other) ∈ formats) (hlead : IsLead lead factor) {c : Byte}
    (hc : toupper c ≠ ascii y) : strtol0X y other (lead ++ ascii '0' :: c :: s) = none := by
  refine strtol0X_other hlead (by decide) fun d hd => ?_
  cases hd
  rw [(toupper_format _ hy).1]
  exact hc

theorem scanFormats_complete (h : Reads s v rest) (hsuffix : IsSuffix rest factor) : scanFormats s = some (v, rest) := by
  cases h with
  | decimal t _ v h =>
    rw [scanFormats, strtol0X_decimal (show ('X', 16) ∈ formats by decide) h hsuffix,
      strtol0X_decimal (show ('O', 8) ∈ formats by decide) h hsuffix,
      strtol0X_decimal (show ('B', 2) ∈ formats by decide) h hsuffix]
    exact strtolInt_of_number (by decide) h hsuffix
  | prefixed x base lead t _ c σ v hx hlead hc h =>
    have hread := strtol0X_prefixed hx hlead hc h hsuffix
    have hskip : ∀ y other, (y, other) ∈ formats → ascii x ≠ ascii y →
        strtol0X y other (lead ++ ascii '0' :: c :: (t ++ rest)) = none := by
      intro y other hy hne
      exact strtol0X_skips hy hlead (by rw [hc]; exact hne)
    rw [scanFormats]
    simp only [formats, List.mem_cons, Prod.mk.injEq, List.not_mem_nil, or_false] at hx
    rcases hx with ⟨rfl, rfl⟩ | ⟨rfl, rfl⟩ | ⟨rfl, rfl⟩
    · rw [hread]
      rfl
    · rw [hskip 'X' 16 (by decide) (by decide), hread]
      rfl
    · rw [hskip 'X' 16 (by decide) (by decide), hskip 'O' 8 (by decide) (by decide), hread]
      rfl

/-! ## The whole argument -/

theorem scanfnInt_denoted {this : ArgInt} (hcount : 0 ≤ this.count ∧ this.count < this.hdr.maxcount)
    (hroom : (this.ival.length : Int) = this.hdr.maxcount) (h : IntText s v) :
    scanfnInt this (some s) =
      if InRange v then some ({ this with count := this.count + 1, ival := this.ival.set this.count.toNat (some v) }, 0)
      else some (this, eoverflowInt) := by
  have hfull : this.count ≠ this.hdr.maxcount := by omega
  have hstore : ∀ v, storeAt this.ival this.count v = some (this.ival.set this.count.toNat (some v)) :=
    fun v => if_pos (by omega)
  obtain ⟨rest, v, factor, hreads, hsuffix⟩ := h
  obtain ⟨hin, hout⟩ := applySuffix_spec hsuffix v
  have hcode : (if intMax < v ∨ v < intMin then eoverflowInt else 0) = rangeCode v := rfl
  simp only [scanfnInt, if_neg hfull, scanFormats_complete hreads hsuffix, hcode, Option.bind_eq_bind]
  by_cases hrange : InRange (v * factor)
  · rw [if_pos hrange, hin hrange]
    simp only [↓reduceIte, hstore, Option.bind_some]
  · have hover : eoverflowInt ≠ 0 := by decide
    rw [if_neg hrange, if_neg (by rw [hout hrange]; exact hover), hout hrange]

theorem scanfnInt_nothing {this : ArgInt} (hcount : this.count ≠ this.hdr.maxcount) (hnone : ∀ v, ¬ IntText s v) :
    scanfnInt this (some s) = some (this, ebadint) := by
  cases hscan : scanFormats s with
  | none => simp only [scanfnInt, if_neg hcount, hscan]
  | some r =>
    obtain ⟨v, rest⟩ := r
    have hreads := reads_of_scanFormats hscan
    have hbad := applySuffix_bad (fun factor hsuffix => hnone (v * factor) (.mk s rest v factor hreads hsuffix)) v
    have hcode : ebadint ≠ 0 := by decide
    simp only [scanfnInt, if_neg hcount, hscan, Option.bind_eq_bind, hbad]
    rw [if_neg hcode]

/-- What `scanfn_int` answers to a text, as long as there is room for a value: the value
that the text denotes is stored, or it is an overflow, or the text denotes nothing. -/
theorem int_scanned (this : ArgInt) (hcount : 0 ≤ this.count ∧ this.count < this.hdr.maxcount)
    (hroom : (this.ival.length : Int) = this.hdr.maxcount) (s : Text) :
    (∀ v, IntText s v → scanfnInt this (some s) =
      if InRange v then some ({ this with count := this.count + 1, ival := this.ival.set this.count.toNat (some v) }, 0)
      else some (this, eoverflowInt)) ∧
    ((∀ v, ¬ IntText s v) → scanfnInt this (some s) = some (this, ebadint)) :=
  ⟨fun _ h => scanfnInt_denoted hcount hroom h, scanfnInt_nothing (by omega)⟩

theorem int_scanned_kilobytes :
    scanfnInt (argIntn none none none 0 1) (some (text "0x10kb")) = some ({ argIntn none none none 0 1 with count := 1, ival := [some 16384] }, 0) := by
  have hnumber : IsNumber 16 (text "10") 16 :=
    .mk [] [] (text "10") 1 (.mk [] [] 1 nofun .none) .none (by decide) (by decide)
  have hreads : Reads (text "0x10kb") 16 (text "kb") :=
    .prefixed 'X' 16 [] (text "10") (text "kb") (ascii 'x') 1 16 (by decide) (.mk [] [] 1 nofun .none) (by decide) hnumber
  have htext : IntText (text "0x10kb") (16 * 1024) :=
    .mk _ _ 16 1024 hreads (.unit (text "KB") (text "kb") [] 1024 (by decide) (by decide) nofun)
  exact (int_scanned (argIntn none none none 0 1) (by decide) (by decide) (text "0x10kb")).1 _ htext

/-- 2^32 + 2 is taken as 2. -/
example : scanfnInt (argIntn none none none 0 1) (some (text "4294967298")) =
    some ({ argIntn none none none 0 1 with count := 1, ival := [some 2] }, 0) := by decide +kernel

/-- The sign carries the least `int` out of the range. -/
example : (scanfnInt (argIntn none none none 0 1) (some (text "-0x80000000"))).map Prod.snd = some eoverflowInt := by
  decide +kernel

/-- What is in the range is not cut. -/
theorem intText_decimal {n : Int} (hn : InRange n) : IntText (decimal n) n := by
  have hreads : Reads (decimal n ++ []) (toInt32 (clampLong n)) [] := .decimal (decimal n) [] n (isNumber_decimal n)
  rw [List.append_nil, toInt32_of_inRange hn] at hreads
  have hwhole := IntText.mk _ _ _ _ hreads (.plain [] nofun)
  rwa [Int.mul_one] at hwhole

/-- Every `int` that was printed is read back. -/
theorem printed_int_scanned (this : ArgInt) (hcount : 0 ≤ this.count ∧ this.count < this.hdr.maxcount)
    (hroom : (this.ival.length : Int) = this.hdr.maxcount) (n : Int) (hn : InRange n) :
    scanfnInt this (some (decimal n)) =
      some ({ this with count := this.count + 1, ival := this.ival.set this.count.toNat (some n) }, 0) := by
  rw [scanfnInt_denoted hcount hroom (intText_decimal hn), if_pos hn]

theorem printed_int_scanned_minus : scanfnInt (argIntn none none none 0 1) (some (decimal (-42))) =
    some ({ argIntn none none none 0 1 with count := 1, ival := [some (-42)] }, 0) :=
  printed_int_scanned (argIntn none none none 0 1) (by decide) (by decide) (-42) (by decide)

end Devclego.Arguments
