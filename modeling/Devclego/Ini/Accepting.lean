import Devclego.Ini.Loading

/-!
# Which files `iniparser_load` accepts

A section or a setting resets `errs`, so a syntax error counts only when nothing but
empty lines, comments and further errors follow it. What is accepted is in lower case
and without blanks at the ends of its parts.
-/
namespace Devclego.Ini

open Foundation Devclego.Dictionaries

/-- The lines that are given to the parser, and whether the reading breaks off. -/
def parsedLines (file : List Byte) : List Text × Bool := logicalLines [] (linesOf file).1 (linesOf file).2

/-- The entries of a file. -/
def entriesOf (file : List Byte) : Progress := (parsedLines file).1.foldl Progress.enter Progress.start

/-- The last entry that is something. -/
def lastEntry (lines : List Text) : Option Entry := ((lines.map entryOf).filter (· ≠ .nothing)).getLast?

variable {file : List Byte} {mem : Mem} {p : Progress} {line key : Text}

/-! ## The whole file -/

theorem load_spec (hfile : ∀ c ∈ file, c ≠ 0) (mem : Mem) :
    (Readable Progress.start (parsedLines file).1 → ∃ r mem', iniparserLoad (some file) mem = some (r, mem') ∧
      Outcome mem.read (entriesOf file) (parsedLines file).2 r mem') ∧
    (¬ Readable Progress.start (parsedLines file).1 → iniparserLoad (some file) mem = none) := by
  obtain ⟨hwhole, hlines, hrest⟩ := linesOf_spec (q := (· ≠ 0)) fun c hc _ => hfile c hc
  have hstart : Follows mem.read
      { held := [], fields := { sec := [], key := [], val := [] }, errs := 0, store := (dictionaryNew 0, mem) }
      Progress.start := ⟨rfl, rfl, Int.le_refl 0, Nat.zero_le _, refines_new mem 0⟩
  have hloop := loadLoop_spec file.length hlines hrest (Nat.le_of_eq (congrArg List.length hwhole)) hstart (Nat.zero_le _)
  rwa [hwhole] at hloop

/-- A file and a memory to try the loader with. -/
def serverIni : List Byte := text "[Server]\nPort = 8080 ; default\n"

def noMem : Mem := ⟨[]⟩

theorem readable_serverIni : Readable Progress.start (parsedLines serverIni).1 :=
  ⟨by decide, by decide, by decide, by decide, trivial⟩

/-- Nothing is left of the blanks before the newline. -/
example : iniparserLoad (some (text "[Server]\n  \n")) noMem = none := by decide +kernel

theorem enter_errs (p : Progress) (line : Text) :
    (p.enter line).errs = if entryOf line = .nothing then p.errs else if entryOf line = .bad then p.errs + 1 else 0 := by
  rw [Progress.enter]
  cases entryOf line with
  | nothing => rfl
  | header name => rfl
  | setting key val => rfl
  | bad => rfl

/-- `errs` counts the errors since the last section or setting. -/
theorem errs_eq_zero_iff (lines : List Text) :
    (lines.foldl Progress.enter Progress.start).errs = 0 ↔ lastEntry lines ≠ some .bad := by
  have hcount : 0 ≤ (lines.foldl Progress.enter Progress.start).errs ∧
      ((lines.foldl Progress.enter Progress.start).errs = 0 ↔ lastEntry lines ≠ some .bad) := by
    induction lines using List.reverseRecOn with
    | nil => exact ⟨Int.le_refl 0, fun _ => nofun, fun _ => rfl⟩
    | append_singleton lines line ih =>
      obtain ⟨hnonneg, hiff⟩ := ih
      have hlast : lastEntry (lines ++ [line]) =
          if entryOf line = .nothing then lastEntry lines else some (entryOf line) := by
        rw [lastEntry, List.map_append, List.filter_append, List.map_singleton]
        by_cases hentry : entryOf line = .nothing
        · rw [if_pos hentry, hentry]
          simp [lastEntry]
        · have hkeep : [entryOf line].filter (· ≠ .nothing) = [entryOf line] := List.filter_cons_of_pos (decide_eq_true hentry)
          rw [if_neg hentry, hkeep, List.getLast?_concat]
      rw [List.foldl_append, List.foldl_cons, List.foldl_nil, enter_errs, hlast]
      by_cases hentry : entryOf line = .nothing
      · rw [if_pos hentry, if_pos hentry]
        exact ⟨hnonneg, hiff⟩
      · rw [if_neg hentry, if_neg hentry]
        by_cases hbad : entryOf line = .bad
        · rw [if_pos hbad, hbad]
          refine ⟨by omega, fun h => ?_, fun h => absurd rfl h⟩
          omega
        · rw [if_neg hbad]
          exact ⟨Int.le_refl 0, fun _ h => hbad (Option.some.inj h), fun _ => rfl⟩
  exact hcount.2

theorem tolower_tolower (c : Byte) : tolower (tolower c) = tolower c := by
  revert c
  decide +kernel

theorem isspace_tolower (c : Byte) : isspace (tolower c) = isspace c := by
  revert c
  decide +kernel

theorem map_tolower_map (s : Text) : (s.map tolower).map tolower = s.map tolower := by
  rw [List.map_map]
  exact List.map_congr_left fun c _ => tolower_tolower c

/-- A part of a name as the parser stores it. -/
structure IsClean (s : Text) : Prop where
  lower : s.map tolower = s
  stripped : Stripped isspace s

theorem isClean_clean (s : Text) : IsClean (clean s) where
  lower := map_tolower_map _
  stripped := by
    have hends := stripped_strip isspace s
    refine ⟨fun c hc => ?_, fun c hc => ?_⟩
    · rw [clean, List.head?_map] at hc
      obtain ⟨d, hd, rfl⟩ := Option.map_eq_some_iff.mp hc
      rw [isspace_tolower, hends.first d hd]
    · rw [clean, List.getLast?_map] at hc
      obtain ⟨d, hd, rfl⟩ := Option.map_eq_some_iff.mp hc
      rw [isspace_tolower, hends.last d hd]

/-- An entry without a value is a section. One with a value is a key with the section it
stands in, which is there too; outside all sections its name begins with the colon. -/
inductive WellFormed (m : Map) : Text → Option Text → Prop where
  | header (sec : Text) (hsec : IsClean sec) : WellFormed m sec none
  | setting (sec key val : Text) (hsec : sec = [] ∨ IsClean sec ∧ (m sec).isSome) (hkey : IsClean key) :
      WellFormed m (sec ++ ascii ':' :: key) (some val)

theorem WellFormed.mono {m m' : Map} {val : Option Text} (h : WellFormed m key val)
    (hle : ∀ k, (m k).isSome → (m' k).isSome) : WellFormed m' key val := by
  cases h with
  | header _ hsec => exact .header _ hsec
  | setting sec key val hsec hkey => exact .setting sec key val (hsec.imp_right fun hs => ⟨hs.1, hle sec hs.2⟩) hkey

theorem isSome_update {m : Map} {k : Text} (v : Option Text) (h : (m k).isSome) (key : Text) :
    (Function.update m key (some v) k).isSome := by
  by_cases hk : k = key
  · rw [hk, Function.update_self]
    rfl
  · rw [Function.update_of_ne hk]
    exact h

/-- The entries that have been read are well formed, and the section that the parser is in has been entered. -/
structure Formed (p : Progress) : Prop where
  current : p.sec = [] ∨ IsClean p.sec ∧ (p.map p.sec).isSome
  names : ∀ key val, p.map key = some val → WellFormed p.map key val
  short : ∀ key, (p.map key).isSome → key.length ≤ asciilinesz

theorem entryOf_setting {key val : Text} (h : entryOf line = .setting key val) : IsClean key := by
  have hsetting : settingOf (strip isspace line) = .setting key val := by
    rw [entryOf] at h
    generalize strip isspace line = l at h ⊢
    cases l with
    | nil => cases h
    | cons c l =>
      cases hl : (c :: l).getLast? with
      | none => simp at hl
      | some last =>
        simp only [List.head?_cons, hl] at h
        split at h
        · cases h
        · split at h
          · cases h
          · exact h
  rw [settingOf] at hsetting
  split at hsetting
  · cases hsetting
  · split at hsetting
    · cases hsetting
    · cases hsetting
      exact isClean_clean _

theorem Formed.enter (h : Formed p) (hroom : Room p.sec line) (hsec : p.sec.length ≤ asciilinesz)
    (hline : line.length ≤ asciilinesz) : Formed (p.enter line) ∧ (p.enter line).sec.length ≤ asciilinesz := by
  rw [Room] at hroom
  rw [Progress.enter]
  cases hentry : entryOf line with
  | nothing => exact ⟨h, hsec⟩
  | bad => exact ⟨⟨h.current, h.names, h.short⟩, hsec⟩
  | header name =>
    have hclean := isClean_clean (name.getD p.sec)
    have hlength : (clean (name.getD p.sec)).length ≤ asciilinesz := by
      refine (length_clean_le _).trans ?_
      cases name with
      | none => exact hsec
      | some name => exact (entryOf_header hentry).trans hline
    refine ⟨⟨Or.inr ⟨hclean, ?_⟩, fun key val hkey => ?_, fun key hkey => ?_⟩, hlength⟩
    · show (Function.update p.map _ (some none) _).isSome
      rw [Function.update_self]
      rfl
    · change Function.update p.map _ (some none) key = some val at hkey
      by_cases hk : key = clean (name.getD p.sec)
      · rw [hk, Function.update_self] at hkey
        cases hkey
        exact hk ▸ .header _ hclean
      · rw [Function.update_of_ne hk] at hkey
        exact (h.names key val hkey).mono fun k hk => isSome_update none hk _
    · by_cases hk : key = clean (name.getD p.sec)
      · exact hk ▸ hlength
      · change (Function.update p.map _ (some none) key).isSome at hkey
        rw [Function.update_of_ne hk] at hkey
        exact h.short key hkey
  | setting name val =>
    rw [hentry] at hroom
    have hcurrent := h.current.imp_right fun hs => And.intro hs.1 (isSome_update (some val) hs.2 (p.sec ++ ascii ':' :: name))
    refine ⟨⟨hcurrent, fun key val' hkey => ?_, fun key hkey => ?_⟩, hsec⟩
    · change Function.update p.map _ (some (some val)) key = some val' at hkey
      by_cases hk : key = p.sec ++ ascii ':' :: name
      · subst hk
        rw [Function.update_self] at hkey
        cases hkey
        exact .setting _ _ _ hcurrent (entryOf_setting hentry)
      · rw [Function.update_of_ne hk] at hkey
        exact (h.names key val' hkey).mono fun k hk => isSome_update _ hk _
    · by_cases hk : key = p.sec ++ ascii ':' :: name
      · rw [hk, List.length_append, List.length_cons]
        change p.sec.length + 1 + name.length ≤ asciilinesz at hroom
        omega
      · change (Function.update p.map _ _ key).isSome at hkey
        rw [Function.update_of_ne hk] at hkey
        exact h.short key hkey

theorem formed_start : Formed Progress.start where
  current := Or.inl rfl
  names := nofun
  short := nofun

theorem length_logicalLines (lines : List Text) (held rest : Text) :
    ∀ line ∈ (logicalLines held lines rest).1, line.length ≤ asciilinesz := by
  induction lines generalizing held with
  | nil => exact List.forall_mem_nil _
  | cons line lines ih =>
    rw [logicalLines]
    split
    · exact List.forall_mem_nil _
    · split
      · exact ih []
      · dsimp only
        split
        · exact ih _
        · intro l hl
          rcases List.mem_cons.mp hl with rfl | hl
          · have hprefix := (List.rdropWhile_prefix isspace (held ++ line)).length_le
            omega
          · exact ih [] l hl

theorem Formed.foldl {lines : List Text} (h : Formed p) (hread : Readable p lines) (hsec : p.sec.length ≤ asciilinesz)
    (hlines : ∀ line ∈ lines, line.length ≤ asciilinesz) : Formed (lines.foldl Progress.enter p) := by
  induction lines generalizing p with
  | nil => exact h
  | cons line lines ih =>
    obtain ⟨hnext, hnextsec⟩ := h.enter hread.2.1 hsec (hlines line (List.mem_cons_self ..))
    exact ih hnext hread.2.2 hnextsec fun l hl => hlines l (List.mem_cons_of_mem line hl)

theorem formed_entriesOf (hread : Readable Progress.start (parsedLines file).1) : Formed (entriesOf file) :=
  formed_start.foldl hread (Nat.zero_le _) (length_logicalLines _ _ _)

/-- Whatever file was accepted, its entries are well formed, with their sections there, and
each is found under every spelling of its name. -/
theorem accepted_names_well_formed (file : List Byte) (hfile : ∀ c ∈ file, c ≠ 0) (mem mem' : Mem) (d : Dictionary)
    (hload : iniparserLoad (some file) mem = some (some d, mem')) :
    ∃ m : Map, (∀ key, getText (d, mem') key = some (m key)) ∧
      (∀ key val, m key = some val → WellFormed m key val) ∧
      ∀ key spelling, (m key).isSome → spelling.map tolower = key →
        ∃ p, iniparserGetstring (d, mem') spelling = some (some p) ∧ (readVal mem' p).map some = some (m key) := by
  have hread : Readable Progress.start (parsedLines file).1 := by
    by_contra hread
    cases hload.symm.trans ((load_spec hfile mem).2 hread)
  obtain ⟨r, mem'', hload', houtcome⟩ := (load_spec hfile mem).1 hread
  cases hload.symm.trans hload'
  obtain ⟨-, -, hrefines⟩ := houtcome
  have hformed := formed_entriesOf hread
  refine ⟨(entriesOf file).map, hrefines.get, hformed.names, fun key spelling hkey hspell => ?_⟩
  have hlower : strlwc spelling = key := by
    have hshort := hformed.short key hkey
    rw [← hspell, List.length_map] at hshort
    rw [strlwc_eq hshort, hspell]
  have hget := hrefines.get key
  obtain ⟨v, hv⟩ := Option.isSome_iff_exists.mp hkey
  rw [hv] at hget ⊢
  rw [iniparserGetstring, hlower]
  rw [getText] at hget
  cases hfound : dictionaryGet d mem' key with
  | none => simp [hfound] at hget
  | some found =>
    cases found with
    | none => simp [hfound] at hget
    | some p => exact ⟨p, rfl, by simpa [hfound] using hget⟩

theorem accepted_names_server : ∃ d mem', iniparserLoad (some serverIni) noMem = some (some d, mem') ∧
    ∃ m : Map, (∀ key, getText (d, mem') key = some (m key)) ∧ ∀ key val, m key = some val → WellFormed m key val := by
  obtain ⟨r, mem', hload, houtcome⟩ := (load_spec (show ∀ c ∈ serverIni, c ≠ 0 by decide) noMem).1 readable_serverIni
  cases r with
  | none => exact absurd houtcome.1 (by decide)
  | some d =>
    obtain ⟨m, hget, hnames, -⟩ := accepted_names_well_formed serverIni (by decide) noMem mem' d hload
    exact ⟨d, mem', hload, m, hget, hnames⟩

end Devclego.Ini
