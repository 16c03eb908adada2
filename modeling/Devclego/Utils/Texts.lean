import Devclego.Foundation.Appending
import Devclego.Foundation.Assigning
import Devclego.Foundation.Scanning
import Devclego.Foundation.Strip

/-!
# Strings in place

`trim`, `basename` and `str_repeat` of `etc_utils.c`. A buffer is what is readable from
the pointer on, and a pointer into it is an index.
-/
namespace Devclego.Utils

open Foundation

/-- `newstart`, which is left of the terminator at the latest. -/
def leadingBlanks : List Byte → Option Nat
  | [] => none
  | c :: s => if isspace c = true then (leadingBlanks s).map (· + 1) else some 0

def ltrim (s : List Byte) : Option (List Byte) := do
  let newstart ← leadingBlanks s
  let len ← strlen (s.drop newstart)
  some (overwrite 0 ((s.drop newstart).take (len + 1)) s)

/-- `end`, from the terminator down. -/
def trailingEnd (s : List Byte) : Nat → Option Nat
  | 0 => some 0
  | e + 1 => do
    let c ← s[e]?
    if isspace c = true then trailingEnd s e else some (e + 1)

def rtrim (s : List Byte) : Option (List Byte) := do
  let len ← strlen s
  let e ← trailingEnd s len
  some (s.set e 0)

def trim (s : List Byte) : Option (List Byte) := do
  let s ← ltrim s
  rtrim s

/-- `*p` is read before `p` is moved on, and a slash after it. -/
def basenameLoop : Nat → List Byte → Option Nat → Option (Option Nat)
  | _, [], _ => none
  | _, [c], ret => if c = 0 then some ret else none
  | p, c :: d :: rest, ret =>
    if c = 0 then some ret else basenameLoop (p + 1) (d :: rest) (if d = ascii '/' then some (p + 2) else ret)

/-- The pointer that is returned, or null. -/
def basename (string : List Byte) : Option (Option Nat) := basenameLoop 0 string none

def strcat (src dest : List Byte) : Option (List Byte) := do
  let s ← cString dest
  let t ← cString src
  putString (s ++ t) dest

/-- The loop, for so many times. -/
def repeatLoop (str : List Byte) : Nat → List Byte → Option (List Byte)
  | 0, result => some result
  | n + 1, result => do
    let result ← strcat str result
    repeatLoop str n result

def strRepeat (result str : List Byte) (num : Int) : Option (List Byte) := repeatLoop str num.toNat result

variable {s t junk buffer : List Byte} {n p : Nat}

/-- A string is what stands before a first zero byte. -/
theorem cString_eq_some_iff : cString buffer = some s ↔ (∀ c ∈ s, c ≠ 0) ∧ ∃ junk, buffer = s ++ 0 :: junk := by
  constructor
  · intro h
    induction buffer generalizing s with
    | nil => cases h
    | cons c buffer ih =>
      rw [cString] at h
      split at h
      next hc =>
        cases h
        exact ⟨List.forall_mem_nil _, buffer, by rw [hc]; rfl⟩
      next hc =>
        obtain ⟨t, ht, rfl⟩ := Option.map_eq_some_iff.mp h
        obtain ⟨hclean, junk, rfl⟩ := ih ht
        exact ⟨List.forall_mem_cons.mpr ⟨hc, hclean⟩, junk, rfl⟩
  · rintro ⟨hclean, junk, rfl⟩
    exact cString_append hclean junk

theorem cString_eq_none_iff : cString buffer = none ↔ ∀ c ∈ buffer, c ≠ 0 := by
  induction buffer with
  | nil => exact ⟨fun _ => List.forall_mem_nil _, fun _ => rfl⟩
  | cons c buffer ih =>
    rw [cString, List.forall_mem_cons]
    by_cases hc : c = 0
    · rw [if_pos hc]
      exact ⟨fun h => (Option.some_ne_none _ h).elim, fun h => absurd hc h.1⟩
    · rw [if_neg hc, Option.map_eq_none_iff, ih]
      exact ⟨fun h => ⟨hc, h⟩, And.right⟩

/-! ## Trimming -/

theorem leadingBlanks_append {lead : List Byte} (hlead : ∀ c ∈ lead, isspace c = true)
    (ht : ∀ c, t.head? = some c → isspace c = false) (junk : List Byte) :
    leadingBlanks (lead ++ (t ++ 0 :: junk)) = some lead.length := by
  induction lead with
  | nil =>
    cases t with
    | nil => rfl
    | cons c t => exact if_neg (Bool.eq_false_iff.mp (ht c rfl))
  | cons c lead ih =>
    obtain ⟨hc, hlead⟩ := List.forall_mem_cons.mp hlead
    rw [List.cons_append, leadingBlanks, if_pos hc, ih hlead]
    rfl

theorem ltrim_append {lead : List Byte} (hlead : ∀ c ∈ lead, isspace c = true)
    (ht : ∀ c, t.head? = some c → isspace c = false) (hclean : ∀ c ∈ t, c ≠ 0) (junk : List Byte) :
    ltrim (lead ++ (t ++ 0 :: junk)) = some (overwrite 0 (t ++ [0]) (lead ++ (t ++ 0 :: junk))) := by
  have hmoved : (t ++ 0 :: junk).take (t.length + 1) = t ++ [0] := by
    rw [List.take_append, List.take_of_length_le (Nat.le_succ _), Nat.add_sub_cancel_left]
    rfl
  rw [ltrim, leadingBlanks_append hlead ht, Option.bind_eq_bind, Option.bind_some, List.drop_left, strlen_append hclean,
    Option.bind_some, hmoved]

theorem trailingEnd_append (t rest : List Byte) : trailingEnd (t ++ rest) t.length = some (t.rdropWhile isspace).length := by
  induction t using List.reverseRecOn generalizing rest with
  | nil => rfl
  | append_singleton t c ih =>
    have hread : (t ++ [c] ++ rest)[t.length]? = some c := by
      rw [List.append_assoc, List.getElem?_append_right (Nat.le_refl _), Nat.sub_self]
      rfl
    rw [List.length_append, List.length_singleton, trailingEnd, hread, List.rdropWhile_concat]
    show (if isspace c = true then _ else _) = _
    split
    · rw [List.append_assoc, ih]
    · rw [List.length_append, List.length_singleton]

/-! A string with its terminator is put over a longer one. -/

theorem overwrite_start (t buffer : List Byte) :
    overwrite 0 (t ++ [0]) buffer = t ++ 0 :: buffer.drop (t.length + 1) := by
  rw [overwrite, List.take_zero, List.nil_append, List.length_append, List.length_singleton, Nat.zero_add,
    List.append_assoc]
  rfl

theorem length_overwrite_start (h : t.length < buffer.length) :
    (overwrite 0 (t ++ [0]) buffer).length = buffer.length := by
  apply length_overwrite
  rw [List.length_append, List.length_singleton, Nat.zero_add]
  exact h

theorem getElem?_overwrite_start (h : t.length < buffer.length) {i : Nat} (hi : t.length < i) :
    (overwrite 0 (t ++ [0]) buffer)[i]? = buffer[i]? := by
  apply getElem?_overwrite_out
  · rw [List.length_append, List.length_singleton, Nat.zero_add]
    exact h
  · rw [List.length_append, List.length_singleton, Nat.zero_add]
    exact .inr hi

theorem rtrim_append (hclean : ∀ c ∈ t, c ≠ 0) (junk : List Byte) :
    rtrim (t ++ 0 :: junk) = some (overwrite 0 (t.rdropWhile isspace ++ [0]) (t ++ 0 :: junk)) := by
  have hshorter := List.rdropWhile_prefix isspace t
  have hlt : (t.rdropWhile isspace).length < (t ++ 0 :: junk).length := by
    rw [List.length_append, List.length_cons]
    exact Nat.lt_of_le_of_lt hshorter.length_le (Nat.lt_add_of_pos_right (Nat.succ_pos _))
  have htake : (t ++ 0 :: junk).take (t.rdropWhile isspace).length = t.rdropWhile isspace :=
    (List.prefix_iff_eq_take.mp (hshorter.trans (List.prefix_append t _))).symm
  rw [rtrim, strlen_append hclean, Option.bind_eq_bind, Option.bind_some, trailingEnd_append, Option.bind_some,
    List.set_eq_take_append_cons_drop, if_pos hlt, htake, overwrite_start]

theorem ltrim_unterminated (h : cString buffer = none) : ltrim buffer = none := by
  have hall := cString_eq_none_iff.mp h
  unfold ltrim
  cases leadingBlanks buffer with
  | none => rfl
  | some newstart =>
    have hrest : cString (buffer.drop newstart) = none :=
      cString_eq_none_iff.mpr fun c hc => hall c (List.mem_of_mem_drop hc)
    show (strlen (buffer.drop newstart)).bind _ = none
    rw [strlen, hrest]
    rfl

theorem trim_append (hclean : ∀ c ∈ s, c ≠ 0) (junk : List Byte) :
    trim (s ++ 0 :: junk) =
      some (overwrite 0 (strip isspace s ++ [0]) (overwrite 0 (s.dropWhile isspace ++ [0]) (s ++ 0 :: junk))) := by
  have hlead : ∀ c ∈ s.takeWhile isspace, isspace c = true := fun c hc => List.mem_takeWhile_imp hc
  have hkept : ∀ c ∈ s.dropWhile isspace, c ≠ 0 := fun c hc => hclean c ((List.dropWhile_sublist _).subset hc)
  have hltrim := ltrim_append hlead (head?_dropWhile s) hkept junk
  rw [← List.append_assoc, List.takeWhile_append_dropWhile] at hltrim
  rw [trim, hltrim, Option.bind_eq_bind, Option.bind_some, overwrite_start, rtrim_append hkept, strip]

/-- `trim` takes the blanks off at both ends of a string, in place; without a terminator
it reads behind the buffer. -/
theorem trim_spec (buffer : List Byte) :
    (cString buffer = none → trim buffer = none) ∧
    ∀ s, cString buffer = some s → ∃ buffer', trim buffer = some buffer' ∧ cString buffer' = some (strip isspace s) ∧
      buffer'.length = buffer.length ∧ ∀ i, s.length < i → buffer'[i]? = buffer[i]? := by
  constructor
  · intro hnone
    rw [trim, ltrim_unterminated hnone]
    rfl
  · intro s hs
    obtain ⟨hclean, junk, rfl⟩ := cString_eq_some_iff.mp hs
    have hstripped : ∀ c ∈ strip isspace s, c ≠ 0 := fun c hc =>
      hclean c ((List.dropWhile_sublist _).subset ((List.rdropWhile_prefix isspace _).subset hc))
    have hroom : s.length < (s ++ 0 :: junk).length := by
      rw [List.length_append, List.length_cons]
      exact Nat.lt_add_of_pos_right (Nat.succ_pos _)
    have hlead : (s.dropWhile isspace).length ≤ s.length := List.length_dropWhile_le isspace s
    have hboth : (strip isspace s).length ≤ s.length := length_strip_le isspace s
    have hmid := length_overwrite_start (hlead.trans_lt hroom)
    have hlast : (strip isspace s).length < (overwrite 0 (s.dropWhile isspace ++ [0]) (s ++ 0 :: junk)).length := by
      rw [hmid]
      exact hboth.trans_lt hroom
    refine ⟨_, trim_append hclean junk, ?_, ?_, ?_⟩
    · rw [overwrite_start]
      exact cString_append hstripped _
    · rw [length_overwrite_start hlast, hmid]
    · intro i hi
      rw [getElem?_overwrite_start hlast (hboth.trans_lt hi),
        getElem?_overwrite_start (hlead.trans_lt hroom) (hlead.trans_lt hi)]

theorem blanks_trimmed : ∃ buffer', trim (text " \t a b " ++ [0, 7]) = some buffer' ∧ cString buffer' = some (text "a b") := by
  obtain ⟨buffer', htrim, hstring, -⟩ := (trim_spec (text " \t a b " ++ [0, 7])).2 (text " \t a b ") (by decide)
  exact ⟨buffer', htrim, hstring.trans (by decide)⟩

/-! ## The name of a file -/

theorem basenameLoop_unterminated {ret : Option Nat} (h : ∀ c ∈ buffer, c ≠ 0) : basenameLoop p buffer ret = none := by
  induction buffer generalizing p ret with
  | nil => rfl
  | cons c buffer ih =>
    obtain ⟨hc, hrest⟩ := List.forall_mem_cons.mp h
    cases buffer with
    | nil => exact if_neg hc
    | cons d rest => exact (if_neg hc).trans (ih hrest)

/-- A slash counts from the second character on. -/
theorem basenameLoop_append (hclean : ∀ c ∈ s, c ≠ 0) (junk : List Byte) (p : Nat) (ret : Option Nat) :
    ∃ r, basenameLoop p (s ++ 0 :: junk) ret = some r ∧ (ascii '/' ∉ s.drop 1 → r = ret) ∧
      ∀ dir file, s = dir ++ ascii '/' :: file → dir ≠ [] → ascii '/' ∉ file → r = some (p + dir.length + 1) := by
  induction s generalizing p ret with
  | nil =>
    refine ⟨ret, ?_, fun _ => rfl, ?_⟩
    · cases junk with
      | nil => rfl
      | cons d junk => rfl
    · intro dir file h
      exact absurd h.symm (List.append_ne_nil_of_right_ne_nil _ (List.cons_ne_nil _ _))
  | cons c s ih =>
    obtain ⟨hc, hrest⟩ := List.forall_mem_cons.mp hclean
    obtain ⟨d, rest, hnext⟩ : ∃ d rest, s ++ 0 :: junk = d :: rest :=
      List.exists_cons_of_ne_nil (List.append_ne_nil_of_right_ne_nil _ (List.cons_ne_nil _ _))
    obtain ⟨r, hr, hnone, hsome⟩ := ih hrest (p + 1) (if d = ascii '/' then some (p + 2) else ret)
    refine ⟨r, ?_, ?_, ?_⟩
    · rw [List.cons_append, hnext]
      rw [hnext] at hr
      exact (if_neg hc).trans hr
    · intro hslash
      rw [List.drop_one, List.tail_cons] at hslash
      have hd : d ≠ ascii '/' := by
        cases s with
        | nil =>
          cases hnext
          decide
        | cons e s =>
          cases hnext
          exact fun he => hslash (he ▸ List.mem_cons_self ..)
      rw [if_neg hd] at hnone
      exact hnone fun hmem => hslash (List.mem_of_mem_drop hmem)
    · intro dir file hsplit hdir hfile
      obtain ⟨e, dir, rfl⟩ := List.exists_cons_of_ne_nil hdir
      obtain ⟨-, rfl⟩ := List.cons.inj hsplit
      cases dir with
      | nil =>
        cases hnext
        rw [if_pos rfl] at hnone
        exact hnone hfile
      | cons e' dir =>
        rw [hsome (e' :: dir) file rfl (List.cons_ne_nil _ _) hfile, List.length_cons (a := e), Nat.add_right_comm p 1,
          Nat.add_assoc p]

theorem exists_last_slash (h : ascii '/' ∈ s.drop 1) :
    ∃ dir file, s = dir ++ ascii '/' :: file ∧ dir ≠ [] ∧ ascii '/' ∉ file := by
  cases s with
  | nil => cases h
  | cons c s =>
    obtain ⟨file, dir, hsplit, hfile⟩ := List.eq_append_cons_of_mem (List.mem_reverse.mpr h)
    refine ⟨c :: dir.reverse, file.reverse, ?_, List.cons_ne_nil _ _, fun hmem => hfile (List.mem_reverse.mp hmem)⟩
    have hs : s = (file ++ ascii '/' :: dir).reverse := by
      rw [← hsplit, List.reverse_reverse]
      rfl
    rw [hs, List.reverse_append, List.reverse_cons, List.append_assoc]
    rfl

/-- `basename` finds what follows the last slash, but null where there is no slash behind
the first character. -/
theorem basename_spec (buffer : List Byte) :
    (cString buffer = none → basename buffer = none) ∧
    ∀ s, cString buffer = some s →
      (basename buffer = some none ↔ ascii '/' ∉ s.drop 1) ∧
      ∀ k, basename buffer = some (some k) ↔ ∃ dir file, s = dir ++ ascii '/' :: file ∧ dir ≠ [] ∧ ascii '/' ∉ file ∧
        k = dir.length + 1 ∧ cString (buffer.drop k) = some file := by
  refine ⟨fun h => basenameLoop_unterminated (cString_eq_none_iff.mp h), ?_⟩
  intro s hs
  obtain ⟨hclean, junk, rfl⟩ := cString_eq_some_iff.mp hs
  obtain ⟨r, hr, hnone, hsome⟩ := basenameLoop_append hclean junk 0 none
  have hfound : ∀ dir file, s = dir ++ ascii '/' :: file → dir ≠ [] → ascii '/' ∉ file → r = some (dir.length + 1) := by
    intro dir file hsplit hdir hfile
    rw [hsome dir file hsplit hdir hfile, Nat.zero_add]
  have hrest : ∀ dir file, s = dir ++ ascii '/' :: file → cString ((s ++ 0 :: junk).drop (dir.length + 1)) = some file := by
    intro dir file hsplit
    subst hsplit
    have hdrop : (dir ++ ascii '/' :: file ++ 0 :: junk).drop (dir.length + 1) = file ++ 0 :: junk := by
      rw [List.append_assoc, List.drop_append, List.drop_eq_nil_of_le (Nat.le_succ _), Nat.add_sub_cancel_left]
      rfl
    rw [hdrop]
    exact cString_append (fun c hc => hclean c (List.mem_append_right _ (List.mem_cons_of_mem _ hc))) junk
  rw [basename, hr]
  refine ⟨⟨?_, fun hslash => congrArg some (hnone hslash)⟩, fun k => ⟨?_, ?_⟩⟩
  · intro hnull hslash
    obtain ⟨dir, file, hsplit, hdir, hfile⟩ := exists_last_slash hslash
    rw [hfound dir file hsplit hdir hfile] at hnull
    cases hnull
  · intro hk
    cases hk
    by_cases hslash : ascii '/' ∈ s.drop 1
    · obtain ⟨dir, file, hsplit, hdir, hfile⟩ := exists_last_slash hslash
      obtain rfl : k = dir.length + 1 := Option.some.inj (hfound dir file hsplit hdir hfile)
      exact ⟨dir, file, hsplit, hdir, hfile, rfl, hrest dir file hsplit⟩
    · cases hnone hslash
  · rintro ⟨dir, file, hsplit, hdir, hfile, rfl, -⟩
    exact congrArg some (hfound dir file hsplit hdir hfile)

theorem file_name_found : basename (text "/a/b" ++ [0]) = some (some 3) := by
  have hspec := (basename_spec (text "/a/b" ++ [0])).2 (text "/a/b") (by decide)
  exact (hspec.2 3).mpr ⟨text "/a", text "b", by decide, by decide, by decide, by decide, by decide⟩

/-- A slash at the start alone is not found. -/
example : basename (text "/b" ++ [0]) = some none := by decide

/-! ## Repeating a string -/

/-- A string in a buffer of so many bytes. -/
def HoldsString (size : Nat) (s buffer : List Byte) : Prop := cString buffer = some s ∧ buffer.length = size

variable {size : Nat} {str result : List Byte}

theorem HoldsString.length_lt (h : HoldsString size s buffer) : s.length < size := by
  obtain ⟨-, junk, rfl⟩ := cString_eq_some_iff.mp h.1
  rw [← h.2, List.length_append, List.length_cons]
  exact Nat.lt_add_of_pos_right (Nat.succ_pos _)

theorem strcat_appends (ht : cString str = some t) : Appends (HoldsString size) size (strcat str) t := by
  intro s d h
  have hclean : ∀ c ∈ s ++ t, c ≠ 0 := by
    intro c hc
    rcases List.mem_append.mp hc with hc | hc
    · exact (cString_eq_some_iff.mp h.1).1 c hc
    · exact (cString_eq_some_iff.mp ht).1 c hc
  have hstep : strcat str d = putString (s ++ t) d := by
    rw [strcat, h.1, ht]
    rfl
  rw [hstep, ← h.2, ← List.length_append]
  constructor
  · intro hroom
    refine ⟨_, putString_eq hroom, cString_append hclean _, ?_⟩
    rw [List.length_append, List.length_cons, List.length_drop]
    omega
  · exact fun hfull => if_neg (Nat.not_lt.mpr hfull)

theorem repeatLoop_appends (ht : cString str = some t) (n : Nat) :
    Appends (HoldsString size) size (repeatLoop str n) (List.replicate n t).flatten := by
  induction n with
  | zero => exact appends_nil fun s d h => h.length_lt
  | succ n ih => exact ((strcat_appends ht).bind ih).congr (fun _ => rfl) (by rw [List.replicate_succ, List.flatten_cons])

/-- `str_repeat` appends all copies, or it writes behind the buffer. -/
theorem strRepeat_spec (hs : cString result = some s) (ht : cString str = some t) (num : Int) :
    (s.length + num.toNat * t.length < result.length → ∃ result', strRepeat result str num = some result' ∧
      cString result' = some (s ++ (List.replicate num.toNat t).flatten) ∧ result'.length = result.length) ∧
    (result.length ≤ s.length + num.toNat * t.length → strRepeat result str num = none) := by
  have hlen : (List.replicate num.toNat t).flatten.length = num.toNat * t.length := by
    rw [List.length_flatten, List.map_replicate, List.sum_replicate_nat]
  have happends : Appends (HoldsString result.length) result.length _ _ := repeatLoop_appends ht num.toNat
  have hall := happends s result ⟨hs, rfl⟩
  rw [hlen] at hall
  exact hall

end Devclego.Utils
