import Devclego.Ini.Queries

/-!
# What `iniparser_dump_ini` writes

A section is an empty line, its header, one line for each of its keys and an empty
line again. An empty line ends the file. Without a section the entries are written
under their whole names.
-/
namespace Devclego.Ini

open Foundation Devclego.Dictionaries

def settingText (key val : Text) : Text := padded key ++ text " = " ++ val

def headerText (sec : Text) : Text := text "[" ++ sec ++ text "]"

/-- The entries whose names begin with the section and a colon. -/
def settingsOf (rows : List (Option Row)) (sec : Text) : List Row :=
  rows.reduceOption.filter fun row => (sec ++ [ascii ':']).isPrefixOf row.1

def writtenSetting (sec : Text) (row : Row) : Text := settingText (row.1.drop (sec.length + 1)) (row.2.getD [])

def sectionLines (rows : List (Option Row)) (sec : Text) : List Text :=
  [[], headerText sec] ++ (settingsOf rows sec).map (writtenSetting sec) ++ [[]]

variable {before : Addr → Option Text} {s : Store} {rows : List (Option Row)} {sec : Text}

/-- The value in a slot with a key. -/
theorem valText_spec (h : Represents before s.1 s.2 rows) {i : Nat} {k : Text} {v : Option Text}
    (hslot : slotAt rows i = some (k, v)) : valText s i = some v := by
  obtain ⟨a, p, -, hval, -, -, hpoints⟩ := h.full hslot
  rw [valText, hval, Option.bind_eq_bind, Option.bind_some]
  exact readVal_pointsTo hpoints

/-- Writing line after line. -/
theorem foldl_lines (sec : Text) (entries : List Row) (out : Text) :
    entries.foldl (fun out row => if (sec ++ [ascii ':']).isPrefixOf row.1 then
        out ++ padded (row.1.drop (sec ++ [ascii ':']).length) ++ text " = " ++ row.2.getD [] ++ newline else out) out =
      out ++ fileOf ((entries.filter fun row => (sec ++ [ascii ':']).isPrefixOf row.1).map (writtenSetting sec)) [] := by
  induction entries generalizing out with
  | nil => simp
  | cons row entries ih =>
    rw [List.foldl_cons, ih, List.filter_cons]
    by_cases hprefix : (sec ++ [ascii ':']).isPrefixOf row.1 = true
    · rw [if_pos hprefix, if_pos hprefix, List.map_cons, fileOf_cons, writtenSetting, settingText, List.length_append,
        List.length_singleton]
      simp [newline]
    · rw [if_neg hprefix, if_neg hprefix]

theorem dumpsection_spec (h : Represents before s.1 s.2 rows) (hfound : iniparserFindEntry s sec = some true)
    (hfits : sec.length + 1 ≤ asciilinesz) (out : Text) :
    iniparserDumpsectionIni s sec out = some (out ++ fileOf (sectionLines rows sec) []) := by
  rw [iniparserDumpsectionIni, hfound]
  simp only [Option.bind_eq_bind, Option.bind_some, ↓reduceIte, keyPrefix, if_pos hfits]
  rw [forKeys_eq h (f := fun out row => if (sec ++ [ascii ':']).isPrefixOf row.1 then
      out ++ padded (row.1.drop (sec ++ [ascii ':']).length) ++ text " = " ++ row.2.getD [] ++ newline else out)]
  · rw [foldl_lines, Option.bind_some, sectionLines, fileOf_append, fileOf_append]
    simp [newline, headerText, settingsOf]
  · intro out i k v hslot
    rw [valText_spec h hslot]
    split
    · rfl
    · rfl

/-- All sections in the order of their numbers. -/
theorem dumpSections_spec (h : Represents before s.1 s.2 rows)
    (hsecs : ∀ sec ∈ sectionsOf rows, iniparserFindEntry s sec = some true ∧ sec.length + 1 ≤ asciilinesz)
    (fuel i : Nat) (hfuel : fuel + i = (sectionsOf rows).length) (out : Text) :
    dumpSections s fuel i out =
      some (out ++ fileOf (((sectionsOf rows).drop i).flatMap (sectionLines rows)) []) := by
  induction fuel generalizing i out with
  | zero =>
    rw [List.drop_of_length_le (by omega)]
    simp [dumpSections]
  | succ fuel ih =>
    have hlt : i < (sectionsOf rows).length := by omega
    obtain ⟨hfound, hfits⟩ := hsecs _ (List.getElem_mem hlt)
    have hname : iniparserGetsecname s i = some (some (sectionsOf rows)[i]) := by
      rw [getsecname_spec h, if_neg (by omega), Int.toNat_natCast, List.getElem?_eq_getElem hlt]
    rw [dumpSections, hname]
    simp only [Option.bind_eq_bind, Option.bind_some, dumpsection_spec h hfound hfits]
    rw [ih (i + 1) (by omega), List.drop_eq_getElem_cons hlt, List.flatMap_cons, fileOf_append, List.append_assoc]

/-- A dictionary with sections is written section after section. -/
theorem dumpIni_sections (h : Represents before s.1 s.2 rows)
    (hsecs : ∀ sec ∈ sectionsOf rows, iniparserFindEntry s sec = some true ∧ sec.length + 1 ≤ asciilinesz)
    (hsome : sectionsOf rows ≠ []) :
    iniparserDumpIni s = some (fileOf ((sectionsOf rows).flatMap (sectionLines rows) ++ [[]]) []) := by
  have hpositive := List.length_pos_iff.mpr hsome
  rw [iniparserDumpIni, getnsec_spec h]
  simp only [Option.bind_eq_bind, Option.bind_some]
  rw [if_neg (by omega), dumpSections_spec h hsecs _ 0 (Nat.add_zero _), Option.bind_some, List.drop_zero, fileOf_append]
  rfl

/-- An empty one leaves an empty file. -/
theorem dumpIni_empty (h : Represents before s.1 s.2 rows) (hnone : rows.reduceOption = []) :
    iniparserDumpIni s = some [] := by
  have hsecs : sectionsOf rows = [] := by rw [sectionsOf, slotKeys, hnone]; rfl
  rw [iniparserDumpIni, getnsec_spec h, hsecs]
  simp only [Option.bind_eq_bind, Option.bind_some, List.length_nil, Nat.lt_one_iff, ↓reduceIte]
  rw [forKeys_from h (f := fun out row => row.2.bind fun val => some (out ++ row.1 ++ text " = " ++ val ++ newline))
    _ s.1.size 0 (Nat.add_zero _), List.drop_zero, hnone]
  · rfl
  · intro out i k v hslot
    rw [valText_spec h hslot]
    cases v with
    | none => rfl
    | some val => rfl

end Devclego.Ini
