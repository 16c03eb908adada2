import Devclego.Ini.Accepting
import Devclego.Ini.Writing

/-!
# Writing a dictionary and loading it again

What `iniparser_dump_ini` writes is loaded again when the parts of the names and the
values survive the formats of the parser. A null value of a key comes back as the empty
string, and what was stored for a section as null.
-/
namespace Devclego.Ini

open Foundation Devclego.Dictionaries

/-- A section whose header is read back. -/
structure PlainSection (sec : Text) : Prop where
  nonempty : sec ≠ []
  isClean : IsClean sec
  chars : ∀ c ∈ sec, c ≠ ascii ':' ∧ c ≠ ascii ']' ∧ c ≠ ascii '\n' ∧ c ≠ 0
  fits : sec.length + 4 ≤ asciilinesz

/-- A key and a value that are read back from their line. -/
structure PlainSetting (key val : Text) : Prop where
  nonempty : key ≠ []
  isClean : IsClean key
  chars : ∀ c ∈ key, c ≠ ascii '=' ∧ c ≠ ascii '\n' ∧ c ≠ 0
  first : ∀ c, key.head? = some c → c ≠ ascii '#' ∧ c ≠ ascii ';' ∧ (c = ascii '[' → val.getLast? ≠ some (ascii ']'))
  stripped : Stripped isspace val
  valChars : ∀ c ∈ val, c ≠ ascii ';' ∧ c ≠ ascii '#' ∧ c ≠ ascii '\n' ∧ c ≠ 0
  valFirst : ∀ c, val.head? = some c → c ≠ doubleQuote ∧ c ≠ singleQuote
  valLast : val.getLast? ≠ some (ascii '\\')
  fits : (settingText key val).length + 2 ≤ asciilinesz

/-- A section, or a key of a section that is there. -/
inductive Printable (m : Map) : Text → Option Text → Prop
  | header (sec : Text) (val : Option Text) (h : PlainSection sec) : Printable m sec val
  | setting (sec key : Text) (val : Option Text) (hsec : isSection sec = true) (hthere : (m sec).isSome)
      (h : PlainSetting key (val.getD [])) (hfits : sec.length + 1 + key.length ≤ asciilinesz) :
      Printable m (sec ++ ascii ':' :: key) val

/-- What is found after the round. -/
def reloaded (key : Text) (val : Option Text) : Option Text := if isSection key then none else some (val.getD [])

variable {p : Progress} {rows : List (Option Row)} {m : Map} {sec key val : Text} {before : Addr → Option Text} {s : Store}

/-! ## Lines that are read back -/

/-- The line of a setting without the blanks at its end. -/
def shownSetting (key val : Text) : Text := if val = [] then padded key ++ text " =" else settingText key val

theorem head?_padded (h : key ≠ []) (rest : Text) : (padded key ++ rest).head? = key.head? := by
  obtain ⟨c, t, rfl⟩ := List.exists_cons_of_ne_nil h
  rfl

theorem PlainSetting.rdropWhile_eq (h : PlainSetting key val) :
    (settingText key val).rdropWhile isspace = shownSetting key val := by
  rw [shownSetting]
  by_cases hval : val = []
  · rw [if_pos hval, settingText, hval, List.append_nil]
    have hsplit : text " = " = text " =" ++ text " " := by decide
    rw [hsplit, ← List.append_assoc, rdropWhile_append (by decide)]
    exact rdropWhile_append_last (show (text " =").getLast? = some (ascii '=') by decide) (by decide)
  · obtain ⟨c, hc⟩ : ∃ c, val.getLast? = some c := ⟨_, List.getLast?_eq_some_getLast hval⟩
    rw [if_neg hval]
    exact rdropWhile_append_last hc (h.stripped.last c hc)

theorem PlainSetting.getLast?_shown (h : PlainSetting key val) :
    ∃ c, (shownSetting key val).getLast? = some c ∧ isspace c = false ∧ c ≠ ascii '\\' ∧
      (c = ascii ']' → val.getLast? = some (ascii ']')) := by
  rw [shownSetting]
  by_cases hval : val = []
  · rw [if_pos hval, List.getLast?_append]
    exact ⟨ascii '=', rfl, by decide, by decide, fun he => absurd he (by decide)⟩
  · obtain ⟨c, hc⟩ : ∃ c, val.getLast? = some c := ⟨_, List.getLast?_eq_some_getLast hval⟩
    rw [if_neg hval, settingText, List.getLast?_append, hc]
    refine ⟨c, rfl, h.stripped.last c hc, ?_, fun he => by rw [he]⟩
    rintro rfl
    exact h.valLast hc

/-- The line behind the key. -/
theorem shownSetting_eq (key val : Text) : ∃ rest : Text, shownSetting key val = padded key ++ text " " ++ ascii '=' :: rest ∧
    (rest.dropWhile isspace = val.dropWhile isspace) := by
  rw [shownSetting]
  by_cases hval : val = []
  · refine ⟨[], ?_, by rw [hval]⟩
    rw [if_pos hval, List.append_assoc]
    rfl
  · refine ⟨ascii ' ' :: val, ?_, rfl⟩
    rw [if_neg hval, settingText, List.append_assoc, List.append_assoc]
    rfl

theorem PlainSetting.valueText_eq (h : PlainSetting key val) : valueText val = val := by
  have hquoted : ∀ quote, quote = doubleQuote ∨ quote = singleQuote → quotedText quote val = [] := by
    intro quote hquote
    cases hval : val with
    | nil => rfl
    | cons c t =>
      have hfirst := h.valFirst c (by rw [hval]; rfl)
      rw [quotedText, if_neg]
      rintro rfl
      exact hquote.elim hfirst.1 hfirst.2
  rw [valueText, hquoted _ (Or.inl rfl), hquoted _ (Or.inr rfl), if_neg (not_not.mpr rfl), if_neg (not_not.mpr rfl), bareText,
    List.takeWhile_eq_self_iff]
  intro c hc
  exact decide_eq_true ⟨(h.valChars c hc).1, (h.valChars c hc).2.1⟩

theorem PlainSetting.unquoted_eq (h : PlainSetting key val) : unquoted val = val := by
  rw [unquoted, if_neg]
  rintro (hval | hval)
  · exact (h.valFirst doubleQuote (by rw [hval]; rfl)).1 rfl
  · exact (h.valFirst singleQuote (by rw [hval]; rfl)).2 rfl

theorem PlainSetting.settingOf_eq (h : PlainSetting key val) : settingOf (shownSetting key val) = .setting key val := by
  obtain ⟨rest, hshown, hrest⟩ := shownSetting_eq key val
  have hkey : ∀ c ∈ padded key ++ text " ", decide (c ≠ ascii '=') = true := by
    intro c hc
    rcases List.mem_append.mp hc with hc | hc
    · rcases List.mem_append.mp hc with hc | hc
      · exact decide_eq_true (h.chars c hc).1
      · rw [(List.mem_replicate.mp hc).2]
        decide
    · rw [List.mem_singleton.mp hc]
      decide
  have hclean : clean (padded key ++ text " ") = key := by
    have hblank : ∀ c ∈ List.replicate (30 - key.length) (ascii ' ') ++ text " ", isspace c = true := by
      intro c hc
      rcases List.mem_append.mp hc with hc | hc
      · rw [(List.mem_replicate.mp hc).2]
        decide
      · rw [List.mem_singleton.mp hc]
        decide
    have hstrip : strip isspace ([] ++ key ++ (List.replicate (30 - key.length) (ascii ' ') ++ text " ")) = key :=
      h.isClean.stripped.strip_between nofun hblank
    rw [List.nil_append, ← List.append_assoc] at hstrip
    rw [clean, padded, hstrip, h.isClean.lower]
  have htake : (padded key ++ text " " ++ ascii '=' :: rest).takeWhile (fun c => decide (c ≠ ascii '=')) = padded key ++ text " " := by
    rw [List.takeWhile_append_of_pos hkey]
    simp
  have hdrop : (padded key ++ text " " ++ ascii '=' :: rest).dropWhile (fun c => decide (c ≠ ascii '=')) = ascii '=' :: rest := by
    rw [List.dropWhile_append_of_pos hkey]
    simp
  rw [settingOf, hshown, htake, hdrop]
  dsimp only
  rw [if_neg (by simp [text]), hclean, hrest, dropWhile_eq_self h.stripped.first,
    h.valueText_eq, h.stripped.strip_eq, h.unquoted_eq]

theorem PlainSetting.entryOf_eq (h : PlainSetting key val) : entryOf (shownSetting key val) = .setting key val := by
  obtain ⟨last, hlast, hblank, -, hbracket⟩ := h.getLast?_shown
  obtain ⟨c, t, hkey⟩ := List.exists_cons_of_ne_nil h.nonempty
  have hhead : (shownSetting key val).head? = some c := by
    obtain ⟨rest, hshown, -⟩ := shownSetting_eq key val
    rw [hshown, List.append_assoc, head?_padded h.nonempty, hkey]
    rfl
  have hstripped : Stripped isspace (shownSetting key val) := by
    refine ⟨fun d hd => ?_, fun d hd => ?_⟩
    · rw [hhead] at hd
      exact h.isClean.stripped.first d (by rw [hkey]; exact hd)
    · rw [hlast] at hd
      cases hd
      exact hblank
  obtain ⟨hhash, hsemicolon, hopen⟩ := h.first c (by rw [hkey]; rfl)
  simp only [entryOf, hstripped.strip_eq, hhead, hlast]
  rw [if_neg (by rintro (he | he); exacts [hhash he, hsemicolon he]), if_neg]
  · exact h.settingOf_eq
  · rintro ⟨hc, he⟩
    exact hopen hc (hbracket he)

theorem PlainSection.entryOf_eq (h : PlainSection sec) : entryOf (headerText sec) = .header (some sec) := by
  have hlast : (headerText sec).getLast? = some (ascii ']') := by
    rw [headerText, List.getLast?_append]
    rfl
  have hstripped : Stripped isspace (headerText sec) := by
    refine ⟨fun c hc => ?_, fun c hc => ?_⟩
    · cases hc
      decide
    · rw [hlast] at hc
      cases hc
      decide
  have hhead : (headerText sec).head? = some (ascii '[') := rfl
  have hname : (headerText sec).tail.takeWhile (fun c => decide (c ≠ ascii ']')) = sec := by
    show (sec ++ [ascii ']']).takeWhile _ = _
    rw [List.takeWhile_append_of_pos fun c hc => decide_eq_true (h.chars c hc).2.1]
    simp
  simp only [entryOf, hstripped.strip_eq, hhead, hlast]
  rw [if_neg (by decide), if_pos ⟨trivial, trivial⟩, hname, if_neg h.nonempty]

theorem rdropWhile_header (sec : Text) : (headerText sec).rdropWhile isspace = headerText sec :=
  rdropWhile_append_last (show (text "]").getLast? = some (ascii ']') by decide) (by decide)

/-! ## The lines of the file -/

/-- A line that ends before the buffer does and is not continued. -/
structure PlainLine (line : Text) : Prop where
  chars : ∀ c ∈ line, c ≠ ascii '\n' ∧ c ≠ 0
  fits : line.length + 2 ≤ asciilinesz
  ends : (line.rdropWhile isspace).getLast? ≠ some (ascii '\\')

theorem plainLine_nil : PlainLine [] := ⟨nofun, by decide, nofun⟩

theorem PlainSection.plainLine (h : PlainSection sec) : PlainLine (headerText sec) where
  chars := by
    intro c hc
    rcases List.mem_append.mp hc with hc | hc
    · rcases List.mem_append.mp hc with hc | hc
      · rw [List.mem_singleton.mp hc]
        decide
      · exact (h.chars c hc).2.2
    · rw [List.mem_singleton.mp hc]
      decide
  fits := by
    have hlength : (headerText sec).length = sec.length + 2 := by simp [headerText, text]
    have hfits := h.fits
    omega
  ends := by
    rw [rdropWhile_header, headerText, List.getLast?_append]
    exact fun he => absurd (Option.some.inj he) (by decide)

theorem PlainSetting.plainLine (h : PlainSetting key val) : PlainLine (settingText key val) where
  chars := by
    have hequals : ∀ c ∈ text " = ", c ≠ ascii '\n' ∧ c ≠ 0 := by decide
    intro c hc
    rcases List.mem_append.mp hc with hc | hc
    · rcases List.mem_append.mp hc with hc | hc
      · rcases List.mem_append.mp hc with hc | hc
        · exact (h.chars c hc).2
        · rw [(List.mem_replicate.mp hc).2]
          decide
      · exact hequals c hc
    · exact (h.valChars c hc).2.2
  fits := h.fits
  ends := by
    obtain ⟨c, hlast, -, hcontinued, -⟩ := h.getLast?_shown
    rw [h.rdropWhile_eq, hlast]
    exact fun he => hcontinued (Option.some.inj he)

/-- Such lines are the logical lines, empty ones apart. -/
theorem logicalLines_plain {lines : List Text} (h : ∀ line ∈ lines, PlainLine line) :
    logicalLines [] lines [] = ((lines.filter (· ≠ [])).map (List.rdropWhile isspace), false) := by
  induction lines with
  | nil => rfl
  | cons line lines ih =>
    have hsize : asciilinesz = 1024 := rfl
    have hrest := ih fun l hl => h l (List.mem_cons_of_mem line hl)
    obtain ⟨-, hfits, hends⟩ := h line (List.mem_cons_self ..)
    rw [logicalLines, List.nil_append, if_neg (by omega)]
    by_cases hline : line = []
    · rw [if_pos hline, hrest, hline]
      rfl
    · have hkeep : (line :: lines).filter (· ≠ []) = line :: lines.filter (· ≠ []) :=
        List.filter_cons_of_pos (decide_eq_true hline)
      rw [if_neg hline, hkeep]
      dsimp only
      rw [if_neg hends, hrest, List.map_cons]

/-- An entry that is read back as a key of the section. -/
def Writable (sec : Text) (row : Row) : Prop :=
  ∃ key, row.1 = sec ++ ascii ':' :: key ∧ PlainSetting key (row.2.getD []) ∧ sec.length + 1 + key.length ≤ asciilinesz

theorem drop_name (sec key : Text) : (sec ++ ascii ':' :: key).drop (sec.length + 1) = key := by
  rw [List.append_cons, List.drop_left' (by simp)]

/-- What the parser is given of a section. -/
def shownSection (rows : List (Option Row)) (sec : Text) : List Text :=
  headerText sec :: (settingsOf rows sec).map fun row => shownSetting (row.1.drop (sec.length + 1)) (row.2.getD [])

theorem plain_sectionLines (hsec : PlainSection sec) (hrows : ∀ row ∈ settingsOf rows sec, Writable sec row) :
    ∀ line ∈ sectionLines rows sec, PlainLine line := by
  intro line hline
  rcases List.mem_append.mp hline with hline | hline
  · rcases List.mem_append.mp hline with hline | hline
    · rcases List.mem_cons.mp hline with rfl | hline
      · exact plainLine_nil
      · rw [List.mem_singleton.mp hline]
        exact hsec.plainLine
    · obtain ⟨row, hrow, rfl⟩ := List.mem_map.mp hline
      obtain ⟨key, hname, hplain, -⟩ := hrows row hrow
      rw [writtenSetting, hname, drop_name]
      exact hplain.plainLine
  · rw [List.mem_singleton.mp hline]
    exact plainLine_nil

theorem shown_sectionLines (hrows : ∀ row ∈ settingsOf rows sec, Writable sec row) :
    ((sectionLines rows sec).filter (· ≠ [])).map (List.rdropWhile isspace) = shownSection rows sec := by
  have hkeep : ((settingsOf rows sec).map (writtenSetting sec)).filter (· ≠ []) =
      (settingsOf rows sec).map (writtenSetting sec) := by
    rw [List.filter_eq_self]
    intro line hline
    obtain ⟨row, -, rfl⟩ := List.mem_map.mp hline
    simp [writtenSetting, settingText, text]
  have hheader : [[], headerText sec].filter (· ≠ []) = [headerText sec] := by simp [headerText, text]
  have hnone : [([] : Text)].filter (· ≠ []) = [] := rfl
  rw [sectionLines, List.filter_append, List.filter_append, hkeep, hheader, hnone, List.append_nil, List.map_append,
    List.map_singleton, rdropWhile_header, List.map_map, shownSection, List.singleton_append]
  congr 1
  apply List.map_congr_left
  intro row hrow
  obtain ⟨key, hname, hplain, -⟩ := hrows row hrow
  show (writtenSetting sec row).rdropWhile isspace = _
  rw [writtenSetting, hname, drop_name, hplain.rdropWhile_eq]

/-! ## What is entered -/

/-- The keys of the list with the values that `g` has for them. -/
def assign (g : Text → Option Text) (keys : List Text) (m : Map) : Map :=
  keys.foldl (fun m key => Function.update m key (some (g key))) m

theorem assign_apply (g : Text → Option Text) (keys : List Text) (m : Map) (key : Text) :
    assign g keys m key = if key ∈ keys then some (g key) else m key := by
  induction keys generalizing m with
  | nil => rfl
  | cons k keys ih =>
    rw [assign, List.foldl_cons]
    show assign g keys _ key = _
    rw [ih]
    by_cases hmem : key ∈ keys
    · rw [if_pos hmem, if_pos (List.mem_cons_of_mem k hmem)]
    · rw [if_neg hmem]
      by_cases hk : key = k
      · rw [hk, Function.update_self, if_pos (List.mem_cons_self ..)]
      · rw [Function.update_of_ne hk, if_neg (by simp [hk, hmem])]

theorem readable_append {lines more : List Text} :
    Readable p (lines ++ more) ↔ Readable p lines ∧ Readable (lines.foldl Progress.enter p) more := by
  induction lines generalizing p with
  | nil => simp [Readable]
  | cons line lines ih =>
    rw [List.cons_append, Readable, Readable, ih, List.foldl_cons]
    tauto

/-- The settings of a section, when the parser is in it. -/
theorem settings_enter {g : Text → Option Text} (entries : List Row) (hentries : ∀ row ∈ entries, Writable sec row ∧
      g row.1 = some (row.2.getD [])) (map : Map) :
    Readable ⟨sec, map, 0⟩ (entries.map fun row => shownSetting (row.1.drop (sec.length + 1)) (row.2.getD [])) ∧
    (entries.map fun row => shownSetting (row.1.drop (sec.length + 1)) (row.2.getD [])).foldl Progress.enter ⟨sec, map, 0⟩ =
      ⟨sec, assign g (entries.map Prod.fst) map, 0⟩ := by
  induction entries generalizing map with
  | nil => exact ⟨trivial, rfl⟩
  | cons row entries ih =>
    obtain ⟨⟨key, hname, hplain, hfits⟩, hval⟩ := hentries row (List.mem_cons_self ..)
    obtain ⟨hread, hfold⟩ := ih (fun r hr => hentries r (List.mem_cons_of_mem row hr))
      (Function.update map row.1 (some (g row.1)))
    have henter : Progress.enter ⟨sec, map, 0⟩ (shownSetting key (row.2.getD [])) =
        ⟨sec, Function.update map row.1 (some (g row.1)), 0⟩ := by
      rw [Progress.enter, hplain.entryOf_eq, hval, hname]
    have hshown : shownSetting key (row.2.getD []) ≠ [] := by
      intro hnil
      have hentry := hplain.entryOf_eq
      rw [hnil] at hentry
      cases hentry
    have hroom : Room sec (shownSetting key (row.2.getD [])) := by
      rw [Room, hplain.entryOf_eq]
      exact hfits
    rw [List.map_cons, List.map_cons, hname, drop_name, ← hname, Readable, List.foldl_cons, henter]
    exact ⟨⟨hshown, hroom, hread⟩, hfold⟩

/-- The names of a section and of its settings. -/
def namesOf (rows : List (Option Row)) (sec : Text) : List Text := sec :: (settingsOf rows sec).map Prod.fst

theorem section_enter {g : Text → Option Text} (hsec : PlainSection sec) (hg : g sec = none)
    (hrows : ∀ row ∈ settingsOf rows sec, Writable sec row ∧ g row.1 = some (row.2.getD [])) (p : Progress) :
    Readable p (shownSection rows sec) ∧
      (shownSection rows sec).foldl Progress.enter p = ⟨sec, assign g (namesOf rows sec) p.map, 0⟩ := by
  have hclean : clean sec = sec := by rw [clean, hsec.isClean.stripped.strip_eq, hsec.isClean.lower]
  have henter : p.enter (headerText sec) = ⟨sec, Function.update p.map sec (some (g sec)), 0⟩ := by
    rw [Progress.enter, hsec.entryOf_eq, hg]
    simp only [Option.getD_some, hclean]
  have hroom : Room p.sec (headerText sec) := by
    rw [Room, hsec.entryOf_eq]
    trivial
  obtain ⟨hread, hfold⟩ := settings_enter (settingsOf rows sec) hrows (Function.update p.map sec (some (g sec)))
  rw [shownSection, Readable, List.foldl_cons, henter]
  exact ⟨⟨List.cons_ne_nil _ _, hroom, hread⟩, hfold⟩

theorem sections_enter {g : Text → Option Text} (secs : List Text) (hsecs : ∀ sec ∈ secs, PlainSection sec ∧ g sec = none ∧
      ∀ row ∈ settingsOf rows sec, Writable sec row ∧ g row.1 = some (row.2.getD [])) (hp : p.errs = 0) :
    Readable p (secs.flatMap (shownSection rows)) ∧
      ((secs.flatMap (shownSection rows)).foldl Progress.enter p).map = assign g (secs.flatMap (namesOf rows)) p.map ∧
      ((secs.flatMap (shownSection rows)).foldl Progress.enter p).errs = 0 := by
  induction secs generalizing p with
  | nil => exact ⟨trivial, rfl, hp⟩
  | cons sec secs ih =>
    obtain ⟨hsec, hg, hrows⟩ := hsecs sec (List.mem_cons_self ..)
    obtain ⟨hread, hfold⟩ := section_enter hsec hg hrows p
    obtain ⟨hmore, hmap, herrs⟩ := @ih ⟨sec, assign g (namesOf rows sec) p.map, 0⟩
      (fun r hr => hsecs r (List.mem_cons_of_mem sec hr)) rfl
    rw [List.flatMap_cons, List.flatMap_cons, readable_append, List.foldl_append, hfold]
    refine ⟨⟨hread, hmore⟩, ?_, herrs⟩
    rw [hmap, assign, assign, assign, List.foldl_append]

/-! ## The whole dictionary -/

theorem not_isSection (sec key : Text) : isSection (sec ++ ascii ':' :: key) = false := by
  simp [isSection]

/-- The section is what comes before the first colon. -/
theorem name_parts {sec sec' key key' : Text} (hsec : isSection sec = true) (hsec' : isSection sec' = true)
    (h : sec ++ ascii ':' :: key = sec' ++ ascii ':' :: key') : sec = sec' ∧ key = key' := by
  have htake : ∀ t k : Text, isSection t = true → (t ++ ascii ':' :: k).takeWhile (· ≠ ascii ':') = t := by
    intro t k ht
    have hplain : ∀ c ∈ t, decide (c ≠ ascii ':') = true := by
      intro c hc
      refine decide_eq_true ?_
      rintro rfl
      simp [isSection, hc] at ht
    rw [List.takeWhile_append_of_pos hplain]
    simp
  have hs : sec = sec' := by rw [← htake sec key hsec, h, htake sec' key' hsec']
  subst hs
  exact ⟨rfl, List.cons.inj (List.append_cancel_left h) |>.2⟩

/-- All entries can be printed. -/
def AllPrintable (m : Map) : Prop := ∀ key val, m key = some val → Printable m key val

theorem AllPrintable.section (h : AllPrintable m) (hsec : isSection sec = true) (hthere : (m sec).isSome) :
    PlainSection sec := by
  obtain ⟨v, hv⟩ := Option.isSome_iff_exists.mp hthere
  cases h sec v hv with
  | header _ _ hplain => exact hplain
  | setting sec key _ _ _ _ _ => rw [not_isSection] at hsec; cases hsec

theorem AllPrintable.settings (h : AllPrintable m) (hholds : Holds rows m) (hsec : isSection sec = true) {row : Row}
    (hrow : row ∈ settingsOf rows sec) : m row.1 = some row.2 ∧ Writable sec row := by
  obtain ⟨k, v⟩ := row
  obtain ⟨hmem, hprefix⟩ := List.mem_filter.mp hrow
  have hkey : m k = some v := (hholds k v).mpr (mem_iff_slotAt.mp (List.reduceOption_mem_iff.mp hmem))
  refine ⟨hkey, ?_⟩
  obtain ⟨key, hname⟩ := List.isPrefixOf_iff_prefix.mp hprefix
  rw [List.append_assoc, List.singleton_append] at hname
  change sec ++ ascii ':' :: key = k at hname
  cases h k v hkey with
  | header _ _ hplain => exact absurd rfl (hplain.chars (ascii ':') (by rw [← hname]; simp)).1
  | setting sec' key' _ hsec' hthere hplain hfits =>
    obtain ⟨rfl, rfl⟩ := name_parts hsec hsec' hname
    exact ⟨key, rfl, hplain, hfits⟩

/-- Every entry is written. -/
theorem mem_namesOf (h : AllPrintable m) (hholds : Holds rows m) (key : Text) :
    key ∈ (sectionsOf rows).flatMap (namesOf rows) ↔ (m key).isSome := by
  rw [List.mem_flatMap]
  constructor
  · rintro ⟨sec, hsec, hkey⟩
    obtain ⟨hthere, hsection⟩ := List.mem_filter.mp hsec
    rcases List.mem_cons.mp hkey with rfl | hkey
    · exact (mem_slotKeys hholds).mp hthere
    · obtain ⟨row, hrow, rfl⟩ := List.mem_map.mp hkey
      rw [(h.settings hholds hsection hrow).1]
      rfl
  · intro hsome
    obtain ⟨v, hv⟩ := Option.isSome_iff_exists.mp hsome
    cases h key v hv with
    | header _ _ hplain =>
      have hsection : isSection key = true := by
        simp only [isSection, Bool.not_eq_true', List.contains_eq_mem, decide_eq_false_iff_not]
        exact fun hc => (hplain.chars _ hc).1 rfl
      exact ⟨key, List.mem_filter.mpr ⟨(mem_slotKeys hholds).mpr hsome, hsection⟩, List.mem_cons_self ..⟩
    | setting sec key _ hsec hthere _ _ =>
      refine ⟨sec, List.mem_filter.mpr ⟨(mem_slotKeys hholds).mpr hthere, hsec⟩, List.mem_cons_of_mem sec ?_⟩
      refine List.mem_map.mpr ⟨(sec ++ ascii ':' :: key, v), List.mem_filter.mpr ⟨?_, ?_⟩, rfl⟩
      · exact List.reduceOption_mem_iff.mpr (mem_iff_slotAt.mpr ((hholds _ v).mp hv))
      · rw [List.isPrefixOf_iff_prefix]
        exact ⟨key, by simp⟩

theorem mem_fileOf {lines : List Text} {c : Byte} (h : c ∈ fileOf lines []) : c = ascii '\n' ∨ ∃ line ∈ lines, c ∈ line := by
  induction lines with
  | nil => cases h
  | cons line lines ih =>
    rw [fileOf_cons, List.mem_append, List.mem_cons] at h
    rcases h with h | h | h
    · exact Or.inr ⟨line, List.mem_cons_self .., h⟩
    · exact Or.inl h
    · exact (ih h).imp_right fun ⟨l, hl, hc⟩ => ⟨l, List.mem_cons_of_mem line hl, hc⟩

/-- A file of plain lines is loaded when their entries are. -/
theorem load_lines {lines shown : List Text} (hlines : ∀ line ∈ lines, PlainLine line)
    (hshown : (lines.filter (· ≠ [])).map (List.rdropWhile isspace) = shown) (hread : Readable Progress.start shown)
    (herrs : (shown.foldl Progress.enter Progress.start).errs = 0) (mem : Mem) :
    ∃ d mem', iniparserLoad (some (fileOf lines [])) mem = some (some d, mem') ∧
      Refines mem.read (d, mem') (shown.foldl Progress.enter Progress.start).map := by
  have hnul : ∀ c ∈ fileOf lines [], c ≠ 0 := by
    intro c hc
    rcases mem_fileOf hc with rfl | ⟨line, hline, hmem⟩
    · decide
    · exact ((hlines line hline).chars c hmem).2
  have hparsed : parsedLines (fileOf lines []) = (shown, false) := by
    rw [parsedLines, linesOf_fileOf fun line hline hc => ((hlines line hline).chars _ hc).1 rfl, logicalLines_plain hlines,
      hshown]
  have hspec := (load_spec hnul mem).1
  rw [hparsed] at hspec
  obtain ⟨r, mem', hload, houtcome⟩ := hspec hread
  rw [entriesOf, hparsed] at houtcome
  cases r with
  | none => exact absurd herrs (houtcome.1.resolve_left nofun)
  | some d => exact ⟨d, mem', hload, houtcome.2.2⟩

/-- What is written of a dictionary is loaded again, with the same names. -/
theorem dump_load (h : Represents before s.1 s.2 rows) (hholds : Holds rows m) (hprint : AllPrintable m) (mem : Mem) :
    ∃ out d mem', iniparserDumpIni s = some out ∧ iniparserLoad (some out) mem = some (some d, mem') ∧
      Refines mem.read (d, mem') fun key => (m key).map (reloaded key) := by
  have hsecs : ∀ sec ∈ sectionsOf rows, PlainSection sec ∧ reloaded sec ((m sec).getD none) = none ∧
      ∀ row ∈ settingsOf rows sec, Writable sec row ∧ reloaded row.1 ((m row.1).getD none) = some (row.2.getD []) := by
    intro sec hmem
    obtain ⟨hthere, hsec⟩ := List.mem_filter.mp hmem
    refine ⟨hprint.section hsec ((mem_slotKeys hholds).mp hthere), by rw [reloaded, if_pos hsec], fun row hrow => ?_⟩
    obtain ⟨hval, hwritable⟩ := hprint.settings hholds hsec hrow
    refine ⟨hwritable, ?_⟩
    obtain ⟨key, hname, -⟩ := hwritable
    rw [hval, reloaded, if_neg (by rw [hname, not_isSection]; exact Bool.false_ne_true), Option.getD_some]
  obtain ⟨hread, hmap, herrs⟩ := sections_enter (p := Progress.start) (sectionsOf rows) hsecs rfl
  have hassign : assign (fun key => reloaded key ((m key).getD none)) ((sectionsOf rows).flatMap (namesOf rows))
      (fun _ => none) = fun key => (m key).map (reloaded key) := by
    funext key
    rw [assign_apply]
    by_cases hkey : (m key).isSome
    · obtain ⟨v, hv⟩ := Option.isSome_iff_exists.mp hkey
      rw [if_pos ((mem_namesOf hprint hholds key).mpr hkey), hv]
      rfl
    · rw [if_neg (mt (mem_namesOf hprint hholds key).mp hkey), Option.not_isSome_iff_eq_none.mp hkey]
      rfl
  by_cases hnone : sectionsOf rows = []
  · -- without a section there is no entry at all
    have hempty : rows.reduceOption = [] := by
      rw [List.eq_nil_iff_forall_not_mem]
      intro row hrow
      have hkey : (m row.1).isSome := (mem_slotKeys hholds).mp (List.mem_map_of_mem hrow)
      rw [← mem_namesOf hprint hholds, hnone] at hkey
      cases hkey
    obtain ⟨d, mem', hload, hrefines⟩ := @load_lines [] [] nofun rfl trivial rfl mem
    refine ⟨[], d, mem', dumpIni_empty h hempty, hload, ?_⟩
    rw [hnone] at hassign
    rw [← hassign]
    exact hrefines
  · have hfound : ∀ sec ∈ sectionsOf rows, iniparserFindEntry s sec = some true ∧ sec.length + 1 ≤ asciilinesz := by
      intro sec hmem
      have hsize : asciilinesz = 1024 := rfl
      obtain ⟨hplain, -⟩ := hsecs sec hmem
      have hfits := hplain.fits
      have hlower : SelfLower sec := (strlwc_eq (by omega)).trans hplain.isClean.lower
      rw [findEntry_spec h hholds hlower, (mem_slotKeys hholds).mp (List.mem_filter.mp hmem).1]
      exact ⟨rfl, by omega⟩
    have hlines : ∀ line ∈ (sectionsOf rows).flatMap (sectionLines rows) ++ [[]], PlainLine line := by
      intro line hline
      rcases List.mem_append.mp hline with hline | hline
      · obtain ⟨sec, hsec, hline⟩ := List.mem_flatMap.mp hline
        obtain ⟨hplain, -, hrows⟩ := hsecs sec hsec
        exact plain_sectionLines hplain (fun row hrow => (hrows row hrow).1) line hline
      · rw [List.mem_singleton.mp hline]
        exact plainLine_nil
    have hshown : (((sectionsOf rows).flatMap (sectionLines rows) ++ [[]]).filter (· ≠ [])).map (List.rdropWhile isspace) =
        (sectionsOf rows).flatMap (shownSection rows) := by
      have hlast : [([] : Text)].filter (· ≠ []) = [] := rfl
      rw [List.filter_append, hlast, List.append_nil, List.filter_flatMap, List.map_flatMap]
      apply List.flatMap_congr
      intro sec hsec
      exact shown_sectionLines fun row hrow => ((hsecs sec hsec).2.2 row hrow).1
    obtain ⟨d, mem', hload, hrefines⟩ := load_lines hlines hshown hread herrs mem
    refine ⟨_, d, mem', dumpIni_sections h hfound hnone, hload, ?_⟩
    rw [hmap] at hrefines
    rw [← hassign]
    exact hrefines

/-- After any calls: what `iniparser_dump_ini` writes of entries that can be printed,
`iniparser_load` reads back, each under its name. -/
theorem dumped_ini_loads (mem mem' : Mem) (size : Nat) (calls : List Call)
    (hprint : AllPrintable (specRun mapStep (fun _ => none) calls).1) :
    ∃ s replies out d mem'', run callStep (dictionaryNew size, mem) calls = some (s, replies) ∧
      iniparserDumpIni s = some out ∧ iniparserLoad (some out) mem' = some (some d, mem'') ∧
      ∀ key, getText (d, mem'') key = some (((specRun mapStep (fun _ => none) calls).1 key).map (reloaded key)) := by
  obtain ⟨s, replies, hrun, ⟨rows, hrep, hholds⟩, -⟩ := run_map mem size calls
  obtain ⟨out, d, mem'', hdump, hload, hrefines⟩ := dump_load hrep hholds hprint mem'
  exact ⟨s, replies, out, d, mem'', hrun, hdump, hload, hrefines.get⟩

/-- A section and a key in it. -/
def netCalls : List Call := [.set (some (text "net")) none, .set (some (text "net:port")) (some (text "80"))]

theorem netCalls_printable : AllPrintable (specRun mapStep (fun _ => none) netCalls).1 := by
  have hword : ∀ s : Text, s.map tolower = s → (s.head?.all fun c => !isspace c) → (s.getLast?.all fun c => !isspace c) →
      IsClean s := by
    intro s hlower hfirst hlast
    refine ⟨hlower, fun c hc => ?_, fun c hc => ?_⟩
    · simpa [hc] using hfirst
    · simpa [hc] using hlast
  intro key val h
  change Function.update (Function.update (fun _ => none) (text "net") (some none)) (text "net:port")
    (some (some (text "80"))) key = some val at h
  by_cases hport : key = text "net:port"
  · rw [hport, Function.update_self, Option.some.injEq] at h
    subst h
    rw [hport]
    refine .setting (text "net") (text "port") _ (by decide) (by decide) ?_ (by decide)
    exact ⟨by decide, hword _ (by decide) (by decide) (by decide), by decide, by decide,
      (hword _ (by decide) (by decide) (by decide)).stripped, by decide, by decide, by decide, by decide⟩
  · rw [Function.update_of_ne hport] at h
    by_cases hnet : key = text "net"
    · rw [hnet]
      exact .header _ _ ⟨by decide, hword _ (by decide) (by decide) (by decide), by decide, by decide⟩
    · rw [Function.update_of_ne hnet] at h
      cases h

theorem dumped_net_loads : ∃ s replies out d mem'', run callStep (dictionaryNew 0, noMem) netCalls = some (s, replies) ∧
    iniparserDumpIni s = some out ∧ iniparserLoad (some out) noMem = some (some d, mem'') ∧
    getText (d, mem'') (text "net:port") = some (some (some (text "80"))) := by
  obtain ⟨s, replies, out, d, mem'', hrun, hdump, hload, hget⟩ := dumped_ini_loads noMem noMem 0 netCalls netCalls_printable
  exact ⟨s, replies, out, d, mem'', hrun, hdump, hload, by rw [hget]; decide⟩

end Devclego.Ini
