import Mathlib.Data.List.TakeWhile
import Devclego.Foundation.CText

/-!
# Scanning text

`isspace`, `tolower`, `fgets` and the directives of `sscanf` that need no conversion,
in the C locale.
-/
namespace Devclego.Foundation

def isspace (c : Byte) : Bool := c = ascii ' ' ∨ 0x09 ≤ c ∧ c ≤ 0x0d

def tolower (c : Byte) : Byte := if ascii 'A' ≤ c ∧ c ≤ ascii 'Z' then c + 0x20 else c

/-- The characters of a literal. -/
def text (s : String) : List Byte := s.toList.map ascii

inductive Directive where
  /-- `%[^...]` -/
  | noneOf (chars : List Byte)
  /-- `%[...]` -/
  | oneOf (chars : List Byte)
  | blanks
  | lit (c : Byte)
deriving DecidableEq, Repr

/-- A set conversion takes at least one character. -/
def scanSet (p : Byte → Bool) (s : List Byte) : Option (List Byte × List Byte) :=
  match s.takeWhile p with
  | [] => none
  | t => some (t, s.dropWhile p)

/-- What the conversions assign, up to the first directive that does not match. -/
def sscanf : List Directive → List Byte → List (List Byte)
  | [], _ => []
  | .noneOf chars :: format, s =>
    match scanSet (fun c => !chars.contains c) s with
    | none => []
    | some (t, s) => t :: sscanf format s
  | .oneOf chars :: format, s =>
    match scanSet (fun c => chars.contains c) s with
    | none => []
    | some (t, s) => t :: sscanf format s
  | .blanks :: format, s => sscanf format (s.dropWhile isspace)
  | .lit _ :: _, [] => []
  | .lit c :: format, d :: s => if c = d then sscanf format s else []

/-- At most so many characters, and no more than a line. -/
def readLine : Nat → List Byte → List Byte × List Byte
  | 0, input => ([], input)
  | _ + 1, [] => ([], [])
  | n + 1, c :: input =>
    if c = ascii '\n' then ([c], input) else (c :: (readLine n input).1, (readLine n input).2)

/-- `fgets` into `n` bytes: what it stores before the terminator and what is left of
the file, or `none` at its end. -/
def fgets (n : Nat) (input : List Byte) : Option (List Byte × List Byte) :=
  match input with
  | [] => none
  | _ => some (readLine (n - 1) input)

/-! ## Files and their lines -/

/-- The lines of a file, without the newlines that end them, and what follows the last one. -/
def linesOf : List Byte → List (List Byte) × List Byte
  | [] => ([], [])
  | c :: file =>
    if c = ascii '\n' then ([] :: (linesOf file).1, (linesOf file).2)
    else
      match linesOf file with
      | ([], rest) => ([], c :: rest)
      | (line :: lines, rest) => ((c :: line) :: lines, rest)

def fileOf (lines : List (List Byte)) (rest : List Byte) : List Byte :=
  lines.foldr (fun line file => line ++ ascii '\n' :: file) rest

@[simp] theorem fileOf_nil (rest : List Byte) : fileOf [] rest = rest := rfl

@[simp] theorem fileOf_cons (line : List Byte) (lines : List (List Byte)) (rest : List Byte) :
    fileOf (line :: lines) rest = line ++ ascii '\n' :: fileOf lines rest := rfl

theorem fileOf_append (lines more : List (List Byte)) (rest : List Byte) :
    fileOf (lines ++ more) rest = fileOf lines [] ++ fileOf more rest := by
  induction lines with
  | nil => rfl
  | cons line lines ih => simp [ih]

/-- What holds of the characters of a file, newlines apart, holds of those of its lines. -/
theorem linesOf_spec {q : Byte → Prop} {file : List Byte} (h : ∀ c ∈ file, c ≠ ascii '\n' → q c) :
    fileOf (linesOf file).1 (linesOf file).2 = file ∧
      (∀ line ∈ (linesOf file).1, ∀ c ∈ line, c ≠ ascii '\n' ∧ q c) ∧
      ∀ c ∈ (linesOf file).2, c ≠ ascii '\n' ∧ q c := by
  induction file with
  | nil => exact ⟨rfl, by simp [linesOf], by simp [linesOf]⟩
  | cons c file ih =>
    obtain ⟨hfile, hlines, hrest⟩ := ih fun d hd => h d (List.mem_cons_of_mem c hd)
    rw [linesOf]
    by_cases hc : c = ascii '\n'
    · rw [if_pos hc]
      refine ⟨by simp [hfile, hc], ?_, hrest⟩
      intro line hline
      rcases List.mem_cons.mp hline with rfl | hline
      · simp
      · exact hlines line hline
    · rw [if_neg hc]
      have hq := h c (List.mem_cons_self ..) hc
      generalize linesOf file = parts at hfile hlines hrest
      obtain ⟨lines, rest⟩ := parts
      cases lines with
      | nil =>
        refine ⟨by rw [← hfile]; rfl, hlines, ?_⟩
        intro d hd
        rcases List.mem_cons.mp hd with rfl | hd
        · exact ⟨hc, hq⟩
        · exact hrest d hd
      | cons line lines =>
        refine ⟨by rw [← hfile]; rfl, ?_, hrest⟩
        intro l hl
        rcases List.mem_cons.mp hl with rfl | hl
        · intro d hd
          rcases List.mem_cons.mp hd with rfl | hd
          · exact ⟨hc, hq⟩
          · exact hlines line (List.mem_cons_self ..) d hd
        · exact hlines l (List.mem_cons_of_mem line hl)

theorem linesOf_fileOf {lines : List (List Byte)} (h : ∀ line ∈ lines, ascii '\n' ∉ line) :
    linesOf (fileOf lines []) = (lines, []) := by
  induction lines with
  | nil => rfl
  | cons line lines ih =>
    have hrest := ih fun l hl => h l (List.mem_cons_of_mem line hl)
    have hline := h line (List.mem_cons_self ..)
    rw [fileOf_cons]
    clear h ih
    induction line with
    | nil => rw [List.nil_append, linesOf, if_pos rfl, hrest]
    | cons c line ih =>
      rw [List.mem_cons, not_or] at hline
      rw [List.cons_append, linesOf, if_neg (Ne.symm hline.1), ih hline.2]

variable {line rest : List Byte} {n : Nat}

/-- A line that fits is read with its newline. -/
theorem readLine_line (h : ∀ c ∈ line, c ≠ ascii '\n') (hn : line.length < n) :
    readLine n (line ++ ascii '\n' :: rest) = (line ++ [ascii '\n'], rest) := by
  induction line generalizing n with
  | nil =>
    obtain ⟨k, rfl⟩ : ∃ k, n = k + 1 := ⟨n - 1, by omega⟩
    rw [List.nil_append, readLine, if_pos rfl]
    rfl
  | cons c line ih =>
    obtain ⟨k, rfl⟩ : ∃ k, n = k + 1 := ⟨n - 1, by omega⟩
    rw [List.cons_append, readLine, if_neg (h c (List.mem_cons_self ..)),
      ih (fun d hd => h d (List.mem_cons_of_mem c hd)) (by simpa using hn)]
    rfl

/-- Of a longer one only the beginning. -/
theorem readLine_long (h : ∀ c ∈ line, c ≠ ascii '\n') (hn : n ≤ line.length) :
    readLine n (line ++ rest) = (line.take n, line.drop n ++ rest) := by
  induction line generalizing n with
  | nil =>
    rw [Nat.le_zero.mp hn]
    rfl
  | cons c line ih =>
    cases n with
    | zero => rfl
    | succ k =>
      rw [List.cons_append, readLine, if_neg (h c (List.mem_cons_self ..)),
        ih (fun d hd => h d (List.mem_cons_of_mem c hd)) (by simpa using hn)]
      rfl

theorem readLine_last (h : ∀ c ∈ line, c ≠ ascii '\n') (n : Nat) : readLine n line = (line.take n, line.drop n) := by
  induction line generalizing n with
  | nil => cases n <;> rfl
  | cons c line ih =>
    cases n with
    | zero => rfl
    | succ k =>
      rw [readLine, if_neg (h c (List.mem_cons_self ..)), ih fun d hd => h d (List.mem_cons_of_mem c hd)]
      rfl

/-! ## Directives -/

theorem sscanf_lit (c : Byte) (format : List Directive) (s : List Byte) :
    sscanf (.lit c :: format) (c :: s) = sscanf format s := if_pos rfl

theorem sscanf_blanks (format : List Directive) (s : List Byte) :
    sscanf (.blanks :: format) s = sscanf format (s.dropWhile isspace) := rfl

theorem scanSet_eq (p : Byte → Bool) (s : List Byte) :
    scanSet p s = if s.takeWhile p = [] then none else some (s.takeWhile p, s.dropWhile p) := by
  rw [scanSet]
  cases h : s.takeWhile p with
  | nil => rfl
  | cons c t => rfl

end Devclego.Foundation
