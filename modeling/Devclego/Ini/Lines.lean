import Devclego.Ini.Model

/-!
# What a line of an ini file says

A line is nothing, the header of a section, a setting or an error. All five formats of
`iniparser_line` begin with the key: what comes before the first `=`. A line that has a
key and an `=` always matches one of them.
-/
namespace Devclego.Ini

open Foundation Devclego.Dictionaries

/-- `strlwc(strstrip(s))` -/
def clean (s : Text) : Text := (strip isspace s).map tolower

inductive Entry where
  | nothing
  /-- `none` for empty brackets, which stand for the section before. -/
  | header (name : Option Text)
  | setting (key val : Text)
  | bad
deriving DecidableEq, Repr

/-- What stands in quotes at the beginning. -/
def quotedText (quote : Byte) : Text → Text
  | [] => []
  | c :: s => if quote = c then s.takeWhile (· ≠ quote) else []

/-- What comes before a comment. -/
def bareText (s : Text) : Text := s.takeWhile fun c => c ≠ ascii ';' ∧ c ≠ ascii '#'

def valueText (s : Text) : Text :=
  if quotedText doubleQuote s ≠ [] then quotedText doubleQuote s
  else if quotedText singleQuote s ≠ [] then quotedText singleQuote s
  else bareText s

/-- Nothing but two quotes is the empty value. -/
def unquoted (val : Text) : Text := if val = text "\"\"" ∨ val = text "''" then [] else val

def settingOf (line : Text) : Entry :=
  let key := line.takeWhile (· ≠ ascii '=')
  match line.dropWhile (· ≠ ascii '=') with
  | [] => .bad
  | _ :: s =>
    if key = [] then .bad
    else .setting (clean key) (unquoted (strip isspace (valueText (s.dropWhile isspace))))

def entryOf (line : Text) : Entry :=
  let line := strip isspace line
  match line.head?, line.getLast? with
  | some first, some last =>
    if first = ascii '#' ∨ first = ascii ';' then .nothing
    else if first = ascii '[' ∧ last = ascii ']' then
      let name := line.tail.takeWhile (· ≠ ascii ']')
      .header (if name = [] then none else some name)
    else settingOf line
  | _, _ => .nothing

theorem strstrip_eq {s : Text} (h : s.length ≤ asciilinesz) : strstrip s = some (strip isspace s) :=
  if_pos ((List.length_dropWhile_le isspace s).trans h)

theorem strlwc_eq {s : Text} (h : s.length ≤ asciilinesz) : strlwc s = s.map tolower := by
  rw [strlwc, List.take_of_length_le h]

theorem clean_eq {s : Text} (h : s.length ≤ asciilinesz) : (strstrip s).map strlwc = some (clean s) := by
  rw [strstrip_eq h, Option.map_some, strlwc_eq ((length_strip_le isspace s).trans h), clean]

theorem length_clean_le (s : Text) : (clean s).length ≤ s.length := by
  rw [clean, List.length_map]
  exact length_strip_le isspace s

/-! ## The formats -/

theorem noneOf_single (a : Byte) : (fun c => !List.contains [a] c) = fun c => decide (c ≠ a) := by
  funext c
  simp

/-- Behind the key comes `=` or nothing, so that no blank is skipped. -/
theorem sscanf_key {line rest : Text} (format : List Directive) (hkey : line.takeWhile (· ≠ ascii '=') ≠ [])
    (hrest : line.dropWhile (· ≠ ascii '=') = rest) :
    sscanf (.noneOf [ascii '='] :: .blanks :: format) line = line.takeWhile (· ≠ ascii '=') :: sscanf format rest := by
  have hblank : rest.dropWhile isspace = rest := by
    apply dropWhile_eq_self
    intro c hc
    have hequals := head?_dropWhile (p := fun c => decide (c ≠ ascii '=')) line c (by rw [hrest]; exact hc)
    have he : c = ascii '=' := by simpa using hequals
    subst he
    rfl
  rw [sscanf, noneOf_single, scanSet_eq, if_neg hkey]
  show _ :: sscanf (.blanks :: format) _ = _
  rw [sscanf, hrest, hblank]

theorem sscanf_no_key {line : Text} (format : List Directive) (hkey : line.takeWhile (· ≠ ascii '=') = []) :
    sscanf (.noneOf [ascii '='] :: format) line = [] := by
  rw [sscanf, noneOf_single, scanSet_eq, if_pos hkey]

theorem sscanf_quoted (quote : Byte) (s : Text) :
    sscanf [.lit quote, .noneOf [quote], .lit quote] s =
      if quotedText quote s = [] then [] else [quotedText quote s] := by
  have hlast : ∀ t, sscanf [.lit quote] t = [] := by
    intro t
    cases t with
    | nil => rfl
    | cons c t => rw [sscanf, sscanf, ite_self]
  cases s with
  | nil => rfl
  | cons c s =>
    rw [sscanf, quotedText]
    by_cases hc : quote = c
    · rw [if_pos hc, if_pos hc, sscanf, noneOf_single, scanSet_eq]
      by_cases ht : s.takeWhile (· ≠ quote) = []
      · rw [if_pos ht, if_pos ht]
      · rw [if_neg ht, if_neg ht]
        show _ :: sscanf [.lit quote] _ = _
        rw [hlast]
    · rw [if_neg hc, if_neg hc, if_pos rfl]

theorem sscanf_bare (s : Text) :
    sscanf [.noneOf [ascii ';', ascii '#']] s = if bareText s = [] then [] else [bareText s] := by
  have hset : (fun c => !List.contains [ascii ';', ascii '#'] c) =
      fun c => decide (c ≠ ascii ';' ∧ c ≠ ascii '#') := by
    funext c
    simp
  rw [sscanf, hset, scanSet_eq, bareText]
  by_cases ht : s.takeWhile (fun c => decide (c ≠ ascii ';' ∧ c ≠ ascii '#')) = []
  · rw [if_pos ht, if_pos ht]
  · rw [if_neg ht, if_neg ht]
    rfl

/-- The three formats with a value, on a line with a key and an `=`. -/
theorem scanPair_value {line s : Text} (b : Fields) (hkey : line.takeWhile (· ≠ ascii '=') ≠ [])
    (hrest : line.dropWhile (· ≠ ascii '=') = ascii '=' :: s) :
    scanPair line [quoted doubleQuote, quoted singleQuote, plain] b =
      (decide (valueText (s.dropWhile isspace) ≠ []),
        { b with key := line.takeWhile (· ≠ ascii '='),
                 val := if valueText (s.dropWhile isspace) ≠ [] then valueText (s.dropWhile isspace) else b.val }) := by
  have hquoted : ∀ quote, sscanf (quoted quote) line =
      line.takeWhile (· ≠ ascii '=') ::
        if quotedText quote (s.dropWhile isspace) = [] then [] else [quotedText quote (s.dropWhile isspace)] := by
    intro quote
    rw [quoted, sscanf_key _ hkey hrest, sscanf_lit, sscanf_blanks, sscanf_quoted]
  have hplain : sscanf plain line = line.takeWhile (· ≠ ascii '=') ::
      if bareText (s.dropWhile isspace) = [] then [] else [bareText (s.dropWhile isspace)] := by
    rw [plain, sscanf_key _ hkey hrest, sscanf_lit, sscanf_blanks, sscanf_bare]
  rw [scanPair, hquoted]
  by_cases hdouble : quotedText doubleQuote (s.dropWhile isspace) = []
  · rw [if_pos hdouble]
    show scanPair line [quoted singleQuote, plain] _ = _
    rw [scanPair, hquoted]
    by_cases hsingle : quotedText singleQuote (s.dropWhile isspace) = []
    · rw [if_pos hsingle]
      show scanPair line [plain] _ = _
      have hvalue : valueText (s.dropWhile isspace) = bareText (s.dropWhile isspace) := by
        rw [valueText, if_neg (not_not.mpr hdouble), if_neg (not_not.mpr hsingle)]
      rw [scanPair, hplain, hvalue]
      by_cases hbare : bareText (s.dropWhile isspace) = []
      · rw [if_pos hbare, hbare]
        rfl
      · rw [if_neg hbare, if_pos hbare, decide_eq_true hbare]
    · have hvalue : valueText (s.dropWhile isspace) = quotedText singleQuote (s.dropWhile isspace) := by
        rw [valueText, if_neg (not_not.mpr hdouble), if_pos hsingle]
      rw [if_neg hsingle, hvalue, if_pos hsingle, decide_eq_true hsingle]
  · have hvalue : valueText (s.dropWhile isspace) = quotedText doubleQuote (s.dropWhile isspace) := by
      rw [valueText, if_pos hdouble]
    rw [if_neg hdouble, hvalue, if_pos hdouble, decide_eq_true hdouble]

/-- The formats for an empty value take every such line. -/
theorem scanPair_empty {line s : Text} (b : Fields) (hkey : line.takeWhile (· ≠ ascii '=') ≠ [])
    (hrest : line.dropWhile (· ≠ ascii '=') = ascii '=' :: s) :
    ∃ val, scanPair line [onlyComment, noValue] b = (true, { b with key := line.takeWhile (· ≠ ascii '='), val := val }) := by
  have hnovalue : ∃ val, sscanf noValue line = [line.takeWhile (· ≠ ascii '='), val] := by
    have hset : (ascii '=' :: s).takeWhile (fun c => List.contains [ascii '='] c) ≠ [] := by
      rw [List.takeWhile_cons, if_pos (by decide)]
      exact List.cons_ne_nil _ _
    refine ⟨(ascii '=' :: s).takeWhile fun c => List.contains [ascii '='] c, ?_⟩
    rw [noValue, sscanf_key _ hkey hrest, sscanf, scanSet_eq, if_neg hset]
    rfl
  obtain ⟨val, hval⟩ := hnovalue
  have hcomment : sscanf onlyComment line = line.takeWhile (· ≠ ascii '=') ::
      sscanf [.oneOf [ascii ';', ascii '#']] (s.dropWhile isspace) := by
    rw [onlyComment, sscanf_key _ hkey hrest, sscanf_lit, sscanf_blanks]
  rw [scanPair, hcomment]
  cases sscanf [.oneOf [ascii ';', ascii '#']] (s.dropWhile isspace) with
  | nil =>
    refine ⟨val, ?_⟩
    show scanPair line [noValue] _ = _
    rw [scanPair, hval]
  | cons val' rest => exact ⟨val', rfl⟩

/-- Without a key or without `=` no format assigns two buffers. -/
theorem scanPair_bad {line : Text} (b : Fields)
    (h : line.takeWhile (· ≠ ascii '=') = [] ∨ line.dropWhile (· ≠ ascii '=') = []) (formats : List (List Directive))
    (hformats : ∀ format ∈ formats, ∃ rest, format = .noneOf [ascii '='] :: .blanks :: rest ∧ sscanf rest [] = []) :
    (scanPair line formats b).1 = false ∧ (scanPair line formats b).2.sec = b.sec := by
  induction formats generalizing b with
  | nil => exact ⟨rfl, rfl⟩
  | cons format formats ih =>
    have hrest := fun b' => ih b' fun f hf => hformats f (List.mem_cons_of_mem format hf)
    obtain ⟨rest, rfl, hend⟩ := hformats format (List.mem_cons_self ..)
    by_cases hkey : line.takeWhile (· ≠ ascii '=') = []
    · rw [scanPair, sscanf_no_key _ hkey]
      exact hrest b
    · rw [scanPair, sscanf_key _ hkey (h.resolve_left hkey), hend]
      exact hrest _

/-! ## The line -/

theorem takeWhile_length_le (p : Byte → Bool) (s : Text) : (s.takeWhile p).length ≤ s.length :=
  (List.takeWhile_prefix p).length_le

theorem cleanKey_eq (sec : Text) {key : Text} (val : Text) (h : key.length ≤ asciilinesz) :
    cleanKey ⟨sec, key, val⟩ = some ⟨sec, clean key, val⟩ := by
  have hclean := clean_eq h
  rw [strstrip_eq h, Option.map_some, Option.some.injEq] at hclean
  rw [cleanKey, strstrip_eq h]
  show some (Fields.mk sec (strlwc (strip isspace key)) val) = _
  rw [hclean]

theorem length_valueText_le (s : Text) : (valueText s).length ≤ s.length := by
  have hquoted : ∀ quote, (quotedText quote s).length ≤ s.length := by
    intro quote
    cases s with
    | nil => exact Nat.le_refl 0
    | cons c s =>
      rw [quotedText]
      split
      · exact (takeWhile_length_le _ s).trans (Nat.le_succ _)
      · exact Nat.zero_le _
  rw [valueText]
  split
  · exact hquoted _
  · split
    · exact hquoted _
    · exact takeWhile_length_le _ s

/-- What `iniparser_line` does with each kind of line. -/
inductive LineResult (b : Fields) : Entry → LineStatus → Fields → Prop where
  | empty : LineResult b .nothing .empty b
  | comment : LineResult b .nothing .comment b
  | header (name : Option Text) : LineResult b (.header name) .section { b with sec := clean (name.getD b.sec) }
  | value (key val : Text) : LineResult b (.setting key val) .value { b with key := key, val := val }
  | error (b' : Fields) (h : b'.sec = b.sec) : LineResult b .bad .error b'

theorem settingLine_bad {line : Text} (b : Fields)
    (h : line.takeWhile (· ≠ ascii '=') = [] ∨ line.dropWhile (· ≠ ascii '=') = []) :
    ∃ b', settingLine line b = some (.error, b') ∧ b'.sec = b.sec := by
  obtain ⟨hfirst, hsec1⟩ := scanPair_bad b h [quoted doubleQuote, quoted singleQuote, plain] (by
    intro format hformat
    rcases List.mem_cons.mp hformat with rfl | hformat
    · exact ⟨_, rfl, rfl⟩
    rcases List.mem_cons.mp hformat with rfl | hformat
    · exact ⟨_, rfl, rfl⟩
    · rw [List.mem_singleton.mp hformat]
      exact ⟨_, rfl, rfl⟩)
  rw [settingLine]
  generalize scanPair line [quoted doubleQuote, quoted singleQuote, plain] b = r at hfirst hsec1
  obtain ⟨matched, b1⟩ := r
  change matched = false at hfirst
  subst hfirst
  obtain ⟨hsecond, hsec2⟩ := scanPair_bad b1 h [onlyComment, noValue] (by
    intro format hformat
    rcases List.mem_cons.mp hformat with rfl | hformat
    · exact ⟨_, rfl, rfl⟩
    · rw [List.mem_singleton.mp hformat]
      exact ⟨_, rfl, rfl⟩)
  dsimp only
  generalize scanPair line [onlyComment, noValue] b1 = r at hsecond hsec2
  obtain ⟨matched, b2⟩ := r
  change matched = false at hsecond
  subst hsecond
  exact ⟨b2, rfl, hsec2.trans hsec1⟩

theorem settingLine_spec {line : Text} (b : Fields) (hlen : line.length ≤ asciilinesz) :
    ∃ status b', settingLine line b = some (status, b') ∧ LineResult b (settingOf line) status b' := by
  have hbad : line.takeWhile (· ≠ ascii '=') = [] ∨ line.dropWhile (· ≠ ascii '=') = [] →
      ∃ status b', settingLine line b = some (status, b') ∧ LineResult b .bad status b' := by
    intro h
    obtain ⟨b', hline, hsec⟩ := settingLine_bad b h
    exact ⟨.error, b', hline, .error b' hsec⟩
  rw [settingOf]
  cases hrest : line.dropWhile (· ≠ ascii '=') with
  | nil => exact hbad (Or.inr hrest)
  | cons e s =>
    have he : e = ascii '=' := by
      have hhead := head?_dropWhile (p := fun c => decide (c ≠ ascii '=')) line e (by rw [hrest]; rfl)
      simpa using hhead
    subst he
    by_cases hkey : line.takeWhile (· ≠ ascii '=') = []
    · simp only [if_pos hkey]
      exact hbad (Or.inl hkey)
    simp only [if_neg hkey]
    have hkeylen : (line.takeWhile (· ≠ ascii '=')).length ≤ asciilinesz := (takeWhile_length_le _ line).trans hlen
    have hvallen : (valueText (s.dropWhile isspace)).length ≤ asciilinesz := by
      have hsplit := congrArg List.length (List.takeWhile_append_dropWhile (p := fun c => decide (c ≠ ascii '=')) (l := line))
      rw [hrest, List.length_append, List.length_cons] at hsplit
      have hval := (length_valueText_le (s.dropWhile isspace)).trans (List.length_dropWhile_le isspace s)
      omega
    rw [settingLine, scanPair_value b hkey hrest]
    by_cases hvalue : valueText (s.dropWhile isspace) = []
    · obtain ⟨val, hempty⟩ := scanPair_empty { b with key := line.takeWhile (· ≠ ascii '=') } hkey hrest
      rw [if_neg (not_not.mpr hvalue), decide_eq_false (not_not.mpr hvalue)]
      refine ⟨.value, { b with key := clean (line.takeWhile (· ≠ ascii '=')), val := [] }, ?_, ?_⟩
      · simp only [hempty, cleanKey_eq _ _ hkeylen, Option.bind_eq_bind, Option.bind_some]
      · rw [hvalue]
        exact .value _ _
    · rw [if_pos hvalue, decide_eq_true hvalue]
      refine ⟨.value, { b with key := clean (line.takeWhile (· ≠ ascii '=')),
                               val := unquoted (strip isspace (valueText (s.dropWhile isspace))) }, ?_, .value _ _⟩
      simp only [cleanKey_eq _ _ hkeylen, strstrip_eq hvallen, Option.bind_eq_bind, Option.bind_some, unquoted]
      split
      · rfl
      · rfl

theorem iniparserLine_spec {line : Text} (b : Fields) (hline : line.length ≤ asciilinesz)
    (hsec : b.sec.length ≤ asciilinesz) :
    ∃ status b', iniparserLine line b = some (status, b') ∧ LineResult b (entryOf line) status b' := by
  have hlen := (length_strip_le isspace line).trans hline
  rw [iniparserLine, strstrip_eq hline, entryOf]
  generalize strip isspace line = l at hlen
  simp only [Option.bind_eq_bind, Option.bind_some]
  cases l with
  | nil => exact ⟨.empty, b, rfl, .empty⟩
  | cons c l =>
    obtain ⟨last, hlast⟩ : ∃ last, (c :: l).getLast? = some last := ⟨_, List.getLast?_eq_some_getLast (List.cons_ne_nil c l)⟩
    simp only [List.head?_cons, hlast]
    by_cases hcomment : c = ascii '#' ∨ c = ascii ';'
    · rw [if_pos hcomment, if_pos hcomment]
      exact ⟨.comment, b, rfl, .comment⟩
    rw [if_neg hcomment, if_neg hcomment]
    by_cases hbrackets : c = ascii '[' ∧ last = ascii ']'
    · rw [if_pos hbrackets, if_pos hbrackets]
      have hname : (sscanf header (c :: l)).headD b.sec =
          (if l.takeWhile (· ≠ ascii ']') = [] then none else some (l.takeWhile (· ≠ ascii ']'))).getD b.sec := by
        rw [header, sscanf, if_pos hbrackets.1.symm, sscanf, noneOf_single, scanSet_eq]
        by_cases hempty : l.takeWhile (· ≠ ascii ']') = []
        · rw [if_pos hempty, if_pos hempty]
          rfl
        · rw [if_neg hempty, if_neg hempty]
          rfl
      have hlength : ((sscanf header (c :: l)).headD b.sec).length ≤ asciilinesz := by
        rw [hname]
        split
        · exact hsec
        · refine (takeWhile_length_le _ l).trans ?_
          rw [List.length_cons] at hlen
          omega
      have hclean := clean_eq hlength
      rw [strstrip_eq hlength, Option.map_some, Option.some.injEq] at hclean
      rw [strstrip_eq hlength]
      refine ⟨.section, { b with sec := clean ((sscanf header (c :: l)).headD b.sec) }, ?_, ?_⟩
      · show some (LineStatus.section, { b with sec := strlwc _ }) = _
        rw [hclean]
      · rw [hname]
        exact .header _
    rw [if_neg hbrackets, if_neg hbrackets]
    exact settingLine_spec b hlen

end Devclego.Ini
