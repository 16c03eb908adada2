import Devclego.Ini.Lines

/-!
# What `iniparser_load` makes of a file

A line that ends with a backslash is continued by the next one. The parser is given the
logical lines, without the blanks at their ends; it stops at a line that does not fit
into its buffer or has no newline. A blank line of more than a newline has nothing
left, and the load reads in front of its buffer.
-/
namespace Devclego.Ini

open Foundation Devclego.Dictionaries

/-- The logical lines of a file, and whether the reading breaks off before its end. -/
def logicalLines : Text → List Text → Text → List Text × Bool
  | held, [], rest => ([], rest ≠ [] ∧ held.length + rest.length ≠ 1)
  | held, line :: lines, rest =>
    let line := held ++ line
    if asciilinesz - 2 < line.length then ([], true)
    else if line = [] then logicalLines [] lines rest
    else
      let line := line.rdropWhile isspace
      if line.getLast? = some (ascii '\\') then logicalLines line.dropLast lines rest
      else (line :: (logicalLines [] lines rest).1, (logicalLines [] lines rest).2)

/-- What the parser has read: the section it is in, the entries and `errs`. -/
structure Progress where
  sec : Text
  map : Map
  errs : Int

def Progress.start : Progress := { sec := [], map := fun _ => none, errs := 0 }

def Progress.enter (p : Progress) (line : Text) : Progress :=
  match entryOf line with
  | .nothing => p
  | .header name =>
    let sec := clean (name.getD p.sec)
    { sec := sec, map := Function.update p.map sec (some none), errs := 0 }
  | .setting key val => { p with map := Function.update p.map (p.sec ++ ascii ':' :: key) (some (some val)), errs := 0 }
  | .bad => { p with errs := p.errs + 1 }

/-- The name of a setting fits into its buffer. -/
def Room (sec line : Text) : Prop :=
  match entryOf line with
  | .setting key _ => sec.length + 1 + key.length ≤ asciilinesz
  | _ => True

instance (sec line : Text) : Decidable (Room sec line) := by
  unfold Room
  split
  · infer_instance
  · infer_instance

/-- No line is blank and every name of a setting fits. -/
def Readable : Progress → List Text → Prop
  | _, [] => True
  | p, line :: lines => line ≠ [] ∧ Room p.sec line ∧ Readable (p.enter line) lines

def decidableReadable : (p : Progress) → (lines : List Text) → Decidable (Readable p lines)
  | _, [] => isTrue trivial
  | p, line :: lines =>
    have := decidableReadable (p.enter line) lines
    inferInstanceAs (Decidable (line ≠ [] ∧ Room p.sec line ∧ Readable (p.enter line) lines))

instance (p : Progress) (lines : List Text) : Decidable (Readable p lines) := decidableReadable p lines

/-- `NULL` after an error, and all memory free again; or else the entries. -/
def Outcome (before : Addr → Option Text) (p : Progress) (broken : Bool) : Option Dictionary → Mem → Prop
  | none, mem => (broken = true ∨ p.errs ≠ 0) ∧ mem.read = before
  | some d, mem => broken = false ∧ p.errs = 0 ∧ Refines before (d, mem) p.map

/-- The variables of `iniparser_load` after what it has read. -/
structure Follows (before : Addr → Option Text) (this : Loader) (p : Progress) : Prop where
  sec : this.fields.sec = p.sec
  errs : this.errs = p.errs
  nonneg : 0 ≤ p.errs
  bounded : p.sec.length ≤ asciilinesz
  refines : Refines before this.store p.map

variable {before : Addr → Option Text} {this : Loader} {p : Progress} {line : Text} {lines : List Text} {rest : Text}

/-! ## One line -/

theorem entryOf_header {name : Text} (h : entryOf line = .header (some name)) : name.length ≤ line.length := by
  have hlen := length_strip_le isspace line
  rw [entryOf] at h
  generalize strip isspace line = l at h hlen
  cases hl : l.getLast? with
  | none => simp [List.getLast?_eq_none_iff.mp hl] at h
  | some last =>
    cases l with
    | nil => cases hl
    | cons c l =>
      simp only [List.head?_cons, hl] at h
      split at h
      · cases h
      · split at h
        · have htake := takeWhile_length_le (fun x => decide (x ≠ ascii ']')) l
          rw [List.length_cons] at hlen
          by_cases hname : l.takeWhile (fun x => decide (x ≠ ascii ']')) = []
          · rw [List.tail_cons, if_pos hname] at h
            cases h
          · rw [List.tail_cons, if_neg hname, Entry.header.injEq, Option.some.injEq] at h
            rw [h] at htake
            omega
        · rw [settingOf] at h
          split at h
          · cases h
          · split at h
            · cases h
            · cases h

theorem loadLine_spec (h : Follows before this p) (hline : line.length ≤ asciilinesz) :
    (Room p.sec line → ∃ this', loadLine this line = some this' ∧ Follows before this' (p.enter line)) ∧
      (¬ Room p.sec line → loadLine this line = none) := by
  obtain ⟨status, b, hparse, hresult⟩ := iniparserLine_spec this.fields hline (by rw [h.sec]; exact h.bounded)
  rw [Room, Progress.enter, loadLine, hparse]
  generalize hentry : entryOf line = entry at hresult
  simp only [Option.bind_eq_bind, Option.bind_some]
  cases hresult with
  | empty => exact ⟨fun _ => ⟨this, rfl, h⟩, fun hroom => absurd trivial hroom⟩
  | comment => exact ⟨fun _ => ⟨this, rfl, h⟩, fun hroom => absurd trivial hroom⟩
  | header name =>
    refine ⟨fun _ => ?_, fun hroom => absurd trivial hroom⟩
    obtain ⟨d, mem, hset, hrefines⟩ := h.refines.set (clean (name.getD this.fields.sec)) none
    refine ⟨_, by rw [hset]; rfl, ?_⟩
    rw [h.sec] at hrefines ⊢
    refine ⟨rfl, rfl, Int.le_refl 0, (length_clean_le _).trans ?_, hrefines⟩
    cases name with
    | none => exact h.bounded
    | some name => exact (entryOf_header hentry).trans hline
  | value key val =>
    rw [← h.sec]
    constructor
    · intro hroom
      rw [if_pos hroom]
      obtain ⟨d, mem, hset, hrefines⟩ := h.refines.set (this.fields.sec ++ ascii ':' :: key) (some val)
      refine ⟨_, by rw [hset]; rfl, ?_⟩
      exact ⟨rfl, rfl, Int.le_refl 0, by rw [h.sec]; exact h.bounded, hrefines⟩
    · intro hroom
      rw [if_neg hroom]
  | error b' hsec =>
    refine ⟨fun _ => ⟨_, rfl, hsec.trans h.sec, ?_, ?_, h.bounded, h.refines⟩, fun hroom => absurd trivial hroom⟩
    · show this.errs + 1 = p.errs + 1
      rw [h.errs]
    · have hnonneg := h.nonneg
      show 0 ≤ p.errs + 1
      omega

/-- What `iniparser_load` returns after its loop. -/
theorem loadEnd_spec (h : Follows before this p) :
    ∃ r mem', loadEnd this = some (r, mem') ∧ Outcome before p false r mem' := by
  rw [loadEnd, h.errs]
  by_cases herrs : p.errs = 0
  · rw [if_neg (not_not.mpr herrs)]
    exact ⟨_, _, rfl, rfl, herrs, h.refines⟩
  · rw [if_pos herrs]
    obtain ⟨rows, hrep, -⟩ := h.refines
    obtain ⟨mem', hdel, hread⟩ := dictionaryDel_spec hrep
    exact ⟨none, mem', by rw [hdel]; rfl, Or.inr herrs, hread⟩

/-- What it returns when a line does not end. -/
theorem broken_spec (h : Follows before this p) :
    ∃ r mem', ((dictionaryDel this.store.1 this.store.2).map fun mem => ((none : Option Dictionary), mem)) =
      some (r, mem') ∧ Outcome before p true r mem' := by
  obtain ⟨rows, hrep, -⟩ := h.refines
  obtain ⟨mem', hdel, hread⟩ := dictionaryDel_spec hrep
  exact ⟨none, mem', by rw [hdel]; rfl, Or.inl rfl, hread⟩

/-! ## The loop -/

theorem takeWhile_nonzero {s : Text} (h : ∀ c ∈ s, c ≠ 0) : s.takeWhile (fun c => decide (c ≠ 0)) = s := by
  rw [List.takeWhile_eq_self_iff]
  intro c hc
  exact decide_eq_true (h c hc)

theorem fgets_eq {n : Nat} {input : Text} (h : input ≠ []) : fgets n input = some (readLine (n - 1) input) := by
  cases input with
  | nil => exact absurd rfl h
  | cons c input => rfl

/-- One round that reads a line which fits. -/
theorem loadLoop_line (fuel : Nat) (hplain : ∀ c ∈ line, c ≠ ascii '\n' ∧ c ≠ 0)
    (hfits : (this.held ++ line).length ≤ asciilinesz - 2) (file : Text) :
    loadLoop (fuel + 1) (line ++ ascii '\n' :: file) this =
      if this.held ++ line = [] then loadLoop fuel file this
      else
        match ((this.held ++ line).rdropWhile isspace).getLast? with
        | none => none
        | some last =>
          if last = ascii '\\' then
            loadLoop fuel file { this with held := ((this.held ++ line).rdropWhile isspace).dropLast }
          else (loadLine this ((this.held ++ line).rdropWhile isspace)).bind fun this =>
            if this.errs < 0 then loadEnd this else loadLoop fuel file { this with held := [] } := by
  have hread : readLine (asciilinesz - this.held.length - 1) (line ++ ascii '\n' :: file) =
      (line ++ [ascii '\n'], file) := by
    have hsize : asciilinesz = 1024 := rfl
    apply readLine_line fun c hc => (hplain c hc).1
    rw [List.length_append] at hfits
    omega
  have hchunk : (line ++ [ascii '\n']).takeWhile (fun c => decide (c ≠ 0)) = line ++ [ascii '\n'] := by
    apply takeWhile_nonzero
    intro c hc
    rcases List.mem_append.mp hc with hc | hc
    · exact (hplain c hc).2
    · rw [List.mem_singleton.mp hc]
      decide
  have htrim : (this.held ++ line ++ [ascii '\n']).rdropWhile isspace = (this.held ++ line).rdropWhile isspace := by
    apply rdropWhile_append
    intro c hc
    rw [List.mem_singleton.mp hc]
    decide
  rw [loadLoop, fgets_eq (by simp), hread]
  simp only [hchunk, ← List.append_assoc, List.getLast?_concat, htrim]
  by_cases hempty : this.held ++ line = []
  · rw [if_pos hempty, if_pos (by rw [hempty]; rfl)]
  · have hlength : (this.held ++ line ++ [ascii '\n']).length ≠ 1 := by
      rw [List.length_append, List.length_singleton]
      have hpositive := List.length_pos_iff.mpr hempty
      omega
    rw [if_neg hempty, if_neg hlength, if_neg (not_not.mpr rfl)]
    rfl

/-- A line that does not end within the buffer. -/
theorem loadLoop_broken (fuel : Nat) {chunk input file : Text} (hread : fgets (asciilinesz - this.held.length) input =
      some (chunk, file)) (hplain : ∀ c ∈ chunk, c ≠ ascii '\n' ∧ c ≠ 0) (hchunk : chunk ≠ [])
    (hlength : (this.held ++ chunk).length ≠ 1) :
    loadLoop (fuel + 1) input this = (dictionaryDel this.store.1 this.store.2).map fun mem => (none, mem) := by
  rw [loadLoop, hread]
  obtain ⟨last, hlast⟩ : ∃ last, chunk.getLast? = some last := ⟨_, List.getLast?_eq_some_getLast hchunk⟩
  have hnewline : last ≠ ascii '\n' := (hplain last (List.mem_of_getLast? hlast)).1
  simp only [takeWhile_nonzero fun c hc => (hplain c hc).2, List.getLast?_append, hlast, Option.some_or]
  rw [if_neg hlength, if_pos hnewline]

/-- The loop reads the logical lines, whatever they are. -/
theorem loadLoop_spec (fuel : Nat) (hlines : ∀ line ∈ lines, ∀ c ∈ line, c ≠ ascii '\n' ∧ c ≠ 0)
    (hrest : ∀ c ∈ rest, c ≠ ascii '\n' ∧ c ≠ 0) (hfuel : (fileOf lines rest).length ≤ fuel)
    (h : Follows before this p) (hheld : this.held.length ≤ asciilinesz - 3) :
    (Readable p (logicalLines this.held lines rest).1 →
      ∃ r mem', loadLoop fuel (fileOf lines rest) this = some (r, mem') ∧
        Outcome before ((logicalLines this.held lines rest).1.foldl Progress.enter p)
          (logicalLines this.held lines rest).2 r mem') ∧
    (¬ Readable p (logicalLines this.held lines rest).1 → loadLoop fuel (fileOf lines rest) this = none) := by
  have hsize : asciilinesz = 1024 := rfl
  induction lines generalizing fuel this p with
  | nil =>
    refine ⟨fun _ => ?_, fun hread => absurd trivial hread⟩
    rw [fileOf_nil] at hfuel ⊢
    rw [logicalLines, List.foldl_nil]
    by_cases hempty : rest = []
    · subst hempty
      rw [decide_eq_false fun hb => hb.1 rfl]
      cases fuel with
      | zero => exact loadEnd_spec h
      | succ fuel => exact loadEnd_spec h
    · have hpositive := List.length_pos_iff.mpr hempty
      obtain ⟨k, rfl⟩ : ∃ k, fuel = k + 1 := ⟨fuel - 1, by omega⟩
      have hread : fgets (asciilinesz - this.held.length) rest =
          some (rest.take (asciilinesz - this.held.length - 1), rest.drop (asciilinesz - this.held.length - 1)) := by
        rw [fgets_eq hempty, readLine_last fun c hc => (hrest c hc).1]
      by_cases hone : this.held.length + rest.length = 1
      · -- a single character is passed over
        have hheldnil : this.held = [] := List.eq_nil_of_length_eq_zero (by omega)
        have hlen : rest.length = 1 := by omega
        obtain ⟨c, rfl⟩ := List.length_eq_one_iff.mp hlen
        have hc := hrest c (List.mem_singleton_self c)
        rw [decide_eq_false fun hb => hb.2 hone, loadLoop, hread, hheldnil]
        simp only [List.length_nil, hsize, List.take_of_length_le (show [c].length ≤ 1024 - 0 - 1 by simp),
          takeWhile_nonzero (s := [c]) (by simpa using hc.2), List.nil_append, List.getLast?_singleton,
          List.length_singleton, ↓reduceIte]
        cases k with
        | zero => exact loadEnd_spec h
        | succ k => exact loadEnd_spec h
      · rw [decide_eq_true ⟨hempty, hone⟩, loadLoop_broken k hread]
        · exact broken_spec h
        · exact fun c hc => hrest c (List.mem_of_mem_take hc)
        · intro hnil
          rw [List.take_eq_nil_iff] at hnil
          rcases hnil with hnil | hnil
          · omega
          · exact hempty hnil
        · rw [List.length_append, List.length_take]
          omega
  | cons line lines ih =>
    have hplain := hlines line (List.mem_cons_self ..)
    rw [fileOf_cons] at hfuel ⊢
    rw [List.length_append, List.length_cons] at hfuel
    obtain ⟨k, rfl⟩ : ∃ k, fuel = k + 1 := ⟨fuel - 1, by omega⟩
    have hrec : ∀ {this' : Loader} {p' : Progress}, Follows before this' p' → this'.held.length ≤ asciilinesz - 3 → _ :=
      fun {this' p'} h' hheld' => @ih this' p' k (fun l hl => hlines l (List.mem_cons_of_mem line hl))
        (by omega) h' hheld'
    rw [logicalLines]
    by_cases hlong : asciilinesz - 2 < (this.held ++ line).length
    · rw [if_pos hlong]
      refine ⟨fun _ => ?_, fun hread => absurd trivial hread⟩
      rw [List.length_append] at hlong
      have hread : fgets (asciilinesz - this.held.length) (line ++ ascii '\n' :: fileOf lines rest) =
          some (line.take (asciilinesz - this.held.length - 1),
            line.drop (asciilinesz - this.held.length - 1) ++ ascii '\n' :: fileOf lines rest) := by
        rw [fgets_eq (by simp), readLine_long (fun c hc => (hplain c hc).1) (by omega)]
      rw [loadLoop_broken k hread]
      · exact broken_spec h
      · exact fun c hc => hplain c (List.mem_of_mem_take hc)
      · intro hnil
        have hzero := congrArg List.length hnil
        rw [List.length_take, List.length_nil] at hzero
        omega
      · rw [List.length_append, List.length_take]
        omega
    rw [if_neg hlong, loadLoop_line k hplain (Nat.le_of_not_lt hlong)]
    by_cases hempty : this.held ++ line = []
    · have hnil : this.held = [] := (List.append_eq_nil_iff.mp hempty).1
      rw [if_pos hempty, if_pos hempty, ← hnil]
      exact hrec h hheld
    rw [if_neg hempty, if_neg hempty]
    have hshort : ((this.held ++ line).rdropWhile isspace).length ≤ asciilinesz - 2 :=
      (List.rdropWhile_prefix isspace _).length_le.trans (Nat.le_of_not_lt hlong)
    generalize (this.held ++ line).rdropWhile isspace = l at hshort
    cases hlast : l.getLast? with
    | none =>
      rw [List.getLast?_eq_none_iff] at hlast
      subst hlast
      exact ⟨fun hread => absurd rfl hread.1, fun _ => rfl⟩
    | some last =>
      have hl : l ≠ [] := by
        rintro rfl
        cases hlast
      by_cases hcontinued : last = ascii '\\'
      · rw [if_pos (by rw [hlast, hcontinued])]
        dsimp only
        rw [if_pos hcontinued]
        refine @hrec { this with held := l.dropLast } p ⟨h.sec, h.errs, h.nonneg, h.bounded, h.refines⟩ ?_
        show l.dropLast.length ≤ _
        rw [List.length_dropLast]
        omega
      · rw [if_neg (by rw [hlast]; simpa using hcontinued)]
        dsimp only
        rw [if_neg hcontinued, List.foldl_cons]
        obtain ⟨hparse, hfault⟩ := loadLine_spec h (show l.length ≤ asciilinesz by omega)
        by_cases hroom : Room p.sec l
        · obtain ⟨this', hload, h'⟩ := hparse hroom
          have hnonneg : ¬ this'.errs < 0 := by
            rw [h'.errs]
            exact Int.not_lt.mpr h'.nonneg
          rw [hload, Option.bind_some, if_neg hnonneg]
          obtain ⟨hreadable, hunreadable⟩ := @hrec { this' with held := [] } (p.enter l)
            ⟨h'.sec, h'.errs, h'.nonneg, h'.bounded, h'.refines⟩ (Nat.zero_le _)
          exact ⟨fun hread => hreadable hread.2.2, fun hread => hunreadable fun hr => hread ⟨hl, hroom, hr⟩⟩
        · rw [hfault hroom]
          exact ⟨fun hread => absurd hread.2.1 hroom, fun _ => rfl⟩

end Devclego.Ini
