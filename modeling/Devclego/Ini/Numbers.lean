import Devclego.Foundation.Strtol
import Devclego.Ini.RoundTrip

/-!
# Numbers in a dictionary

`iniparser_getint` reads the integer at the start of a value, in the base that it
announces, and keeps its low 32 bits; where there is none it is zero. The value of a key
may be null, which `strtol` does not read; in a file that is written it is empty.
-/
namespace Devclego.Ini

open Foundation Devclego.Dictionaries

/-- `(int) strtol(str, NULL, 0)` -/
def intOf (str : Text) : Int :=
  match strtolAuto str with
  | none => 0
  | some (val, _) => toInt32 val

def iniparserGetint (s : Store) (key : Text) (notfound : Int) : Option Int := do
  match ← iniparserGetstring s key with
  | none => some notfound
  | some p => (s.2.load p).map intOf

variable {before : Addr → Option Text} {s : Store} {m : Map} {base : Nat} {t rest : Text} {v : Int}

theorem intOf_literal (h : IsLiteral base t v) (hrest : Ends base rest) (hzero : ¬ Continues t rest) :
    intOf (t ++ rest) = toInt32 (clampLong v) := by
  unfold intOf
  rw [strtolAuto_of_literal h hrest hzero]

/-- An `int` that was printed with `%d` is read back. -/
theorem intOf_decimal (h : intMin ≤ v ∧ v ≤ intMax) : intOf (decimal v) = v := by
  obtain ⟨base, hliteral⟩ := literal_decimal v
  have hread : intOf (decimal v ++ []) = toInt32 (clampLong v) := intOf_literal hliteral nofun not_continues_nil
  rw [List.append_nil, toInt32_of_inRange h] at hread
  exact hread

/-- What a caller of `iniparser_getint` finds of a map. -/
theorem getint_spec (h : Refines before s m) (key : Text) (notfound : Int) :
    iniparserGetint s key notfound = match m (strlwc key) with
      | none => some notfound
      | some none => none
      | some (some str) => some (intOf str) := by
  obtain ⟨rows, hrep, hholds⟩ := h
  unfold iniparserGetint iniparserGetstring
  cases hkey : m (strlwc key) with
  | none =>
    rw [dictionaryGet_absent hrep (hholds.absent.mp hkey)]
    rfl
  | some val =>
    obtain ⟨i, hslot⟩ := (hholds _ val).mp hkey
    obtain ⟨p, hget, hpoints⟩ := dictionaryGet_found hrep hslot
    rw [hget]
    cases hpoints with
    | none => rfl
    | some hread =>
      show (s.2.load _).map intOf = _
      rw [Memory.load, Option.bind_some, hread]
      rfl

/-- The integer of a value, whatever it is, is the same before it is written to a file and
after it is loaded again; a null value faults before and is zero after. -/
theorem integers_reload (mem mem' : Mem) (size : Nat) (calls : List Call)
    (hprint : AllPrintable (specRun mapStep (fun _ => none) calls).1) (key : Text) (hkey : isSection (strlwc key) = false)
    (notfound : Int) :
    ∃ s replies out d mem'', run callStep (dictionaryNew size, mem) calls = some (s, replies) ∧
      iniparserDumpIni s = some out ∧ iniparserLoad (some out) mem' = some (some d, mem'') ∧
      ((specRun mapStep (fun _ => none) calls).1 (strlwc key) = none →
        iniparserGetint s key notfound = some notfound ∧ iniparserGetint (d, mem'') key notfound = some notfound) ∧
      ((specRun mapStep (fun _ => none) calls).1 (strlwc key) = some none →
        iniparserGetint s key notfound = none ∧ iniparserGetint (d, mem'') key notfound = some 0) ∧
      (∀ str, (specRun mapStep (fun _ => none) calls).1 (strlwc key) = some (some str) →
        iniparserGetint s key notfound = some (intOf str) ∧ iniparserGetint (d, mem'') key notfound = some (intOf str)) ∧
      (∀ base t rest v, (specRun mapStep (fun _ => none) calls).1 (strlwc key) = some (some (t ++ rest)) →
        IsLiteral base t v → Ends base rest → ¬ Continues t rest →
        iniparserGetint s key notfound = some (toInt32 (clampLong v)) ∧
        iniparserGetint (d, mem'') key notfound = some (toInt32 (clampLong v))) ∧
      ∀ v, (specRun mapStep (fun _ => none) calls).1 (strlwc key) = some (some (decimal v)) → intMin ≤ v ∧ v ≤ intMax →
        iniparserGetint s key notfound = some v ∧ iniparserGetint (d, mem'') key notfound = some v := by
  obtain ⟨s, replies, hrun, hrefines, -⟩ := run_map mem size calls
  obtain ⟨rows, hrep, hholds⟩ := id hrefines
  obtain ⟨out, d, mem'', hdump, hload, hreloaded⟩ := dump_load hrep hholds hprint mem'
  have hbefore := getint_spec hrefines key notfound
  have hafter := getint_spec hreloaded key notfound
  have hvalue : ∀ val, reloaded (strlwc key) val = some (val.getD []) := by
    intro val
    unfold reloaded
    rw [if_neg (by rw [hkey]; exact Bool.false_ne_true)]
  have hsame : ∀ str, (specRun mapStep (fun _ => none) calls).1 (strlwc key) = some (some str) →
      iniparserGetint s key notfound = some (intOf str) ∧ iniparserGetint (d, mem'') key notfound = some (intOf str) := by
    intro str hsome
    rw [hsome] at hbefore hafter
    rw [Option.map_some, hvalue] at hafter
    exact ⟨hbefore, hafter⟩
  refine ⟨s, replies, out, d, mem'', hrun, hdump, hload, ?_, ?_, hsame, ?_, ?_⟩
  · intro hnone
    rw [hnone] at hbefore hafter
    exact ⟨hbefore, hafter⟩
  · intro hnull
    rw [hnull] at hbefore hafter
    rw [Option.map_some, hvalue] at hafter
    exact ⟨hbefore, hafter⟩
  · intro base t rest v hsome hliteral hrest hzero
    rw [← intOf_literal hliteral hrest hzero]
    exact hsame _ hsome
  · intro v hprinted hrange
    have hread := hsame _ hprinted
    rw [intOf_decimal hrange] at hread
    exact hread

theorem net_port_reloads : ∃ s replies out d mem'', run callStep (dictionaryNew 0, noMem) netCalls = some (s, replies) ∧
    iniparserDumpIni s = some out ∧ iniparserLoad (some out) noMem = some (some d, mem'') ∧
    iniparserGetint (d, mem'') (text "NET:port") 7 = some 80 := by
  obtain ⟨s, replies, out, d, mem'', hrun, hdump, hload, -, -, -, hsome, -⟩ :=
    integers_reload noMem noMem 0 netCalls netCalls_printable (text "NET:port") (by decide) 7
  have hport : IsLiteral 10 (text "80") 80 :=
    .decimal [] (text "80") 1 (.mk [] [] 1 nofun .none) (by decide) (by decide) (by decide)
  exact ⟨s, replies, out, d, mem'', hrun, hdump, hload, (hsome 10 (text "80") [] 80 (by decide) hport nofun not_continues_nil).2⟩

/-- A leading zero means octal, and what follows a number does not matter. -/
example : intOf (text "010") = 8 ∧ intOf (text "640x480") = 640 ∧ intOf (text "eighty") = 0 := by decide +kernel

end Devclego.Ini
