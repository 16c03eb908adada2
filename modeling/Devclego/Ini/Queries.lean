import Devclego.Dictionaries.Order
import Devclego.Ini.Lines

/-!
# The sections of a dictionary and their keys

A loop over the slots is a fold over the stored keys. The sections are the keys without
a colon; those of a section are the keys that begin with its name and a colon, for
which `iniparser_getseckeys` has just enough room.
-/
namespace Devclego.Ini

open Foundation Devclego.Dictionaries

def sectionsOf (rows : List (Option Row)) : List Text := (slotKeys rows).filter isSection

variable {before : Addr → Option Text} {s : Store} {rows : List (Option Row)} {m : Map} {σ : Type} {sec key : Text}

/-! ## Loops over the slots -/

theorem forKeys_from (h : Represents before s.1 s.2 rows) {body : σ → Nat → Text → Option σ}
    {f : σ → Row → Option σ} (hbody : ∀ acc i k v, slotAt rows i = some (k, v) → body acc i k = f acc (k, v))
    (fuel i : Nat) (hfuel : fuel + i = s.1.size) (acc : σ) :
    forKeys s body fuel i acc = (rows.drop i).reduceOption.foldlM f acc := by
  induction fuel generalizing i acc with
  | zero =>
    rw [List.drop_of_length_le (by rw [h.length]; omega)]
    rfl
  | succ fuel ih =>
    have hlt : i < s.1.size := by omega
    have hdrop : rows.drop i = slotAt rows i :: rows.drop (i + 1) := drop_eq_slotAt_cons (h.length ▸ hlt)
    have hnext := ih (i + 1) (by omega)
    rw [forKeys, hdrop]
    cases hslot : slotAt rows i with
    | none =>
      rw [List.reduceOption_cons_of_none, (h.free hlt hslot).1]
      exact hnext acc
    | some row =>
      obtain ⟨k, v⟩ := row
      obtain ⟨a, p, hkey, -, -, hread, -⟩ := h.full hslot
      rw [List.reduceOption_cons_of_some, List.foldlM_cons, hkey]
      simp only [Option.bind_eq_bind, Option.bind_some, hread, hbody acc i k v hslot]
      cases f acc (k, v) with
      | none => rfl
      | some acc' => exact hnext acc'

theorem forKeys_eq (h : Represents before s.1 s.2 rows) {body : σ → Nat → Text → Option σ} {f : σ → Row → σ}
    (hbody : ∀ acc i k v, slotAt rows i = some (k, v) → body acc i k = some (f acc (k, v))) (acc : σ) :
    forKeys s body s.1.size 0 acc = some (rows.reduceOption.foldl f acc) := by
  rw [forKeys_from h (f := fun acc row => some (f acc row)) hbody s.1.size 0 (Nat.add_zero _), List.drop_zero]
  exact List.foldlM_pure

theorem foldl_count (p : Text → Bool) (entries : List Row) (n : Nat) :
    entries.foldl (fun n row => if p row.1 then n + 1 else n) n = n + ((entries.map Prod.fst).filter p).length := by
  induction entries generalizing n with
  | nil => rfl
  | cons row entries ih =>
    rw [List.foldl_cons, ih, List.map_cons, List.filter_cons]
    split
    · rw [List.length_cons]
      omega
    · rfl

/-! ## Sections -/

theorem getnsec_spec (h : Represents before s.1 s.2 rows) : iniparserGetnsec s = some (sectionsOf rows).length := by
  rw [iniparserGetnsec, forKeys_eq h (f := fun n row => if isSection row.1 then n + 1 else n) fun _ _ _ _ _ => rfl,
    foldl_count, Nat.zero_add]
  rfl

theorem getsecnameLoop_spec (h : Represents before s.1 s.2 rows) (n fuel i found : Nat) (hfuel : fuel + i = s.1.size)
    (hfound : found ≤ n) : getsecnameLoop s n fuel i found = some ((sectionsOf (rows.drop i))[n - found]?) := by
  induction fuel generalizing i found with
  | zero =>
    rw [List.drop_of_length_le (by rw [h.length]; omega)]
    rfl
  | succ fuel ih =>
    have hlt : i < s.1.size := by omega
    have hdrop : rows.drop i = slotAt rows i :: rows.drop (i + 1) := drop_eq_slotAt_cons (h.length ▸ hlt)
    rw [getsecnameLoop, hdrop, sectionsOf, slotKeys]
    cases hslot : slotAt rows i with
    | none =>
      rw [List.reduceOption_cons_of_none, (h.free hlt hslot).1]
      exact ih (i + 1) found (by omega) hfound
    | some row =>
      obtain ⟨k, v⟩ := row
      obtain ⟨a, p, hkey, -, -, hread, -⟩ := h.full hslot
      rw [List.reduceOption_cons_of_some, List.map_cons, List.filter_cons, hkey]
      simp only [Option.bind_eq_bind, Option.bind_some, hread]
      by_cases hsec : isSection k = true
      · rw [if_pos hsec, if_pos hsec]
        by_cases hlast : n < found + 1
        · rw [if_pos hlast, show n - found = 0 by omega]
          rfl
        · rw [if_neg hlast, ih (i + 1) (found + 1) (by omega) (by omega), show n - found = n - (found + 1) + 1 by omega]
          rfl
      · rw [if_neg hsec, if_neg hsec]
        exact ih (i + 1) found (by omega) hfound

theorem getsecname_spec (h : Represents before s.1 s.2 rows) (n : Int) :
    iniparserGetsecname s n = some (if n < 0 then none else (sectionsOf rows)[n.toNat]?) := by
  rw [iniparserGetsecname]
  split
  · rfl
  · exact getsecnameLoop_spec h n.toNat s.1.size 0 0 (Nat.add_zero _) (Nat.zero_le _)

/-- The sections have the numbers from zero on, each once. As long as nothing was unset,
they are numbered in the order in which they came. -/
theorem sections_are_numbered (mem : Mem) (size : Nat) (calls : List Call) :
    ∃ s replies secs, run callStep (dictionaryNew size, mem) calls = some (s, replies) ∧ secs.Nodup ∧
      (∀ key, key ∈ secs ↔ isSection key = true ∧ ((specRun mapStep (fun _ => none) calls).1 key).isSome) ∧
      iniparserGetnsec s = some secs.length ∧
      (∀ n : Int, iniparserGetsecname s n = some (if n < 0 then none else secs[n.toNat]?)) ∧
      ((∀ key, .unset key ∉ calls) → secs = (setOrder calls).filter isSection) := by
  obtain ⟨s, replies, hrun, ⟨rows, hrep, hholds⟩, -⟩ := run_map mem size calls
  by_cases hcalls : ∀ key, .unset key ∉ calls
  · obtain ⟨rows, hrep, hholds, hcompact⟩ := run_ordered hcalls (new_ordered mem size) hrun
    refine ⟨s, replies, sectionsOf rows, hrun, (nodup_slotKeys hrep).filter _, fun key => ?_, getnsec_spec hrep,
      getsecname_spec hrep, fun _ => ?_⟩
    · rw [sectionsOf, List.mem_filter, mem_slotKeys hholds, and_comm]
    · rw [sectionsOf, hcompact.slotKeys]
      rfl
  · refine ⟨s, replies, sectionsOf rows, hrun, (nodup_slotKeys hrep).filter _, fun key => ?_, getnsec_spec hrep,
      getsecname_spec hrep, fun h => absurd h hcalls⟩
    rw [sectionsOf, List.mem_filter, mem_slotKeys hholds, and_comm]

/-! ## The keys of a section -/

/-- A name that is found as it is written. -/
def SelfLower (key : Text) : Prop := strlwc key = key

theorem findEntry_spec (h : Represents before s.1 s.2 rows) (hholds : Holds rows m) (hsec : SelfLower sec) :
    iniparserFindEntry s sec = some (m sec).isSome := by
  rw [iniparserFindEntry, iniparserGetstring, hsec]
  cases hkey : m sec with
  | none => rw [dictionaryGet_absent h (hholds.absent.mp hkey)]; rfl
  | some v =>
    obtain ⟨i, hslot⟩ := (hholds sec v).mp hkey
    obtain ⟨p, hget, -⟩ := dictionaryGet_found h hslot
    rw [hget]
    rfl

def sectionKeys (rows : List (Option Row)) (sec : Text) : List Text :=
  (slotKeys rows).filter fun key => (sec ++ [ascii ':']).isPrefixOf key

theorem getsecnkeys_spec (h : Represents before s.1 s.2 rows) (hfound : iniparserFindEntry s sec = some true)
    (hfits : sec.length + 1 ≤ asciilinesz) : iniparserGetsecnkeys s sec = some (sectionKeys rows sec).length := by
  rw [iniparserGetsecnkeys, hfound]
  simp only [Option.bind_eq_bind, Option.bind_some, ↓reduceIte, keyPrefix, if_pos hfits]
  rw [forKeys_eq h (f := fun n row => if (sec ++ [ascii ':']).isPrefixOf row.1 then n + 1 else n) fun _ _ _ _ _ => rfl,
    foldl_count, Nat.zero_add]
  rfl

/-- Filling an array that has room for all. -/
theorem foldlM_collect (p : Text → Bool) (nkeys : Nat) (entries : List Row) (keys : List Text)
    (hroom : keys.length + ((entries.map Prod.fst).filter p).length ≤ nkeys) :
    entries.foldlM (fun keys row => if p row.1 then if keys.length < nkeys then some (keys ++ [row.1]) else none else some keys)
      keys = some (keys ++ (entries.map Prod.fst).filter p) := by
  induction entries generalizing keys with
  | nil => simp
  | cons row entries ih =>
    rw [List.foldlM_cons]
    rw [List.map_cons, List.filter_cons] at hroom ⊢
    by_cases hp : p row.1 = true
    · rw [if_pos hp] at hroom ⊢
      rw [List.length_cons] at hroom
      rw [if_pos hp, if_pos (by omega)]
      show List.foldlM _ (keys ++ [row.1]) entries = _
      rw [ih (keys ++ [row.1]) (by rw [List.length_append, List.length_singleton]; omega), List.append_assoc]
      rfl
    · rw [if_neg hp] at hroom ⊢
      rw [if_neg hp]
      exact ih keys hroom

theorem getseckeys_spec (h : Represents before s.1 s.2 rows) (hfound : iniparserFindEntry s sec = some true)
    (hfits : sec.length + 1 ≤ asciilinesz) : iniparserGetseckeys s sec = some (some (sectionKeys rows sec)) := by
  rw [iniparserGetseckeys, hfound]
  simp only [Option.bind_eq_bind, Option.bind_some, ↓reduceIte, getsecnkeys_spec h hfound hfits, keyPrefix, if_pos hfits]
  rw [forKeys_from h (f := fun keys row => if (sec ++ [ascii ':']).isPrefixOf row.1 then
      if keys.length < (sectionKeys rows sec).length then some (keys ++ [row.1]) else none else some keys)
    (fun _ _ _ _ _ => rfl) s.1.size 0 (Nat.add_zero _), List.drop_zero, foldlM_collect]
  · rfl
  · exact Nat.le_of_eq (Nat.zero_add _)

/-- The keys of a section that is there are all listed, each once, and fill the array
exactly. A section that is not there has none. -/
theorem section_keys_listed (mem : Mem) (size : Nat) (calls : List Call) (sec : Text) (hsec : SelfLower sec)
    (hfits : sec.length < asciilinesz) :
    ∃ s replies, run callStep (dictionaryNew size, mem) calls = some (s, replies) ∧
      (((specRun mapStep (fun _ => none) calls).1 sec).isSome → ∃ keys : List Text, iniparserGetseckeys s sec = some (some keys) ∧
        iniparserGetsecnkeys s sec = some keys.length ∧ keys.Nodup ∧
        ∀ key, key ∈ keys ↔ ((specRun mapStep (fun _ => none) calls).1 key).isSome ∧ sec ++ [ascii ':'] <+: key) ∧
      (((specRun mapStep (fun _ => none) calls).1 sec) = none →
        iniparserGetseckeys s sec = some none ∧ iniparserGetsecnkeys s sec = some 0) := by
  obtain ⟨s, replies, hrun, ⟨rows, hrep, hholds⟩, -⟩ := run_map mem size calls
  have hfind := findEntry_spec hrep hholds hsec
  refine ⟨s, replies, hrun, fun hsome => ?_, fun hnone => ?_⟩
  · rw [hsome] at hfind
    refine ⟨sectionKeys rows sec, getseckeys_spec hrep hfind hfits, getsecnkeys_spec hrep hfind hfits,
      (nodup_slotKeys hrep).filter _, fun key => ?_⟩
    rw [sectionKeys, List.mem_filter, mem_slotKeys hholds, List.isPrefixOf_iff_prefix]
  · rw [hnone] at hfind
    constructor
    · rw [iniparserGetseckeys, hfind]
      rfl
    · rw [iniparserGetsecnkeys, hfind]
      rfl

theorem net_keys_listed : ∃ s replies, run callStep (dictionaryNew 0, ⟨[]⟩)
      [.set (some (text "net")) none, .set (some (text "net:port")) (some (text "80"))] = some (s, replies) ∧
    ∃ keys : List Text, iniparserGetseckeys s (text "net") = some (some keys) ∧ text "net:port" ∈ keys := by
  obtain ⟨s, replies, hrun, hthere, -⟩ := section_keys_listed ⟨[]⟩ 0
    [.set (some (text "net")) none, .set (some (text "net:port")) (some (text "80"))] (text "net") rfl (by decide)
  obtain ⟨keys, hkeys, -, -, hmem⟩ := hthere (by decide)
  exact ⟨s, replies, hrun, keys, hkeys, (hmem _).mpr ⟨by decide, ⟨text "port", by decide⟩⟩⟩

end Devclego.Ini
