import Devclego.Arguments.Errors
import Devclego.Arguments.Integers

/-!
# What the entries are given

An entry takes an argument when it has room and, if it is for integers, the argument is
one that stays in the range of an `int`. It holds what it was given in this order; what it does not
take leaves it as it is.
-/
namespace Devclego.Arguments

open Foundation

/-- The arguments that an entry was given; an option may come without one. -/
abbrev Given := List (Option Text)

/-- The values of an entry are an array of `maxcount`. -/
def Arg.Sized : Arg → Prop
  | .lit arg => 0 ≤ arg.hdr.maxcount
  | .int arg => (arg.ival.length : Int) = arg.hdr.maxcount
  | .str arg => (arg.sval.length : Int) = arg.hdr.maxcount
  | .rem _ => True

/-- A text that an entry for integers stores. -/
def IsInt (s : Text) (v : Int) : Prop := IntText s v ∧ InRange v

def Arg.Accepts (entry : Arg) (argval : Option Text) : Prop :=
  match entry with
  | .int _ => ∀ s, argval = some s → ∃ v, IsInt s v
  | _ => True

/-- In the place of each argument stands a value of it. -/
def Values {α : Type} (P : Text → α → Prop) (given : Given) (values : List (Option α)) : Prop :=
  ∀ (k : Nat) (s : Text), given[k]? = some (some s) → ∃ v, P s v ∧ values[k]? = some (some v)

/-- An entry that was empty and has been given these arguments. -/
inductive Filled : Arg → Given → Arg → Prop where
  | lit (arg : ArgLit) (given : Given) : Filled (.lit arg) given (.lit { arg with count := given.length })
  | int (arg : ArgInt) (given : Given) (ival : List (Option Int)) (hlength : ival.length = arg.ival.length)
      (hvalues : Values IsInt given ival) : Filled (.int arg) given (.int { arg with count := given.length, ival := ival })
  | str (arg : ArgStr) (given : Given) (sval : List (Option Text)) (hlength : sval.length = arg.sval.length)
      (hvalues : Values Eq given sval) : Filled (.str arg) given (.str { arg with count := given.length, sval := sval })
  | rem (hdr : ArgHdr) (given : Given) : Filled (.rem hdr) given (.rem hdr)

/-- An entry has room for another argument and accepts it. -/
def Arg.Takes (entry : Arg) (used : Nat) (argval : Option Text) : Prop :=
  (used : Int) < entry.hdr.maxcount ∧ entry.Accepts argval

/-- The error of an entry that has no room. -/
def Arg.emaxcount : Arg → Int
  | .lit _ => emaxcountLit
  | .int _ => emaxcountInt
  | .str _ => emaxcountStr
  | .rem _ => 0

/-- The error of an entry that was given too little. -/
def Arg.emincount : Arg → Int
  | .lit _ => emincountLit
  | .int _ => emincountInt
  | .str _ => emincountStr
  | .rem _ => 0

/-- The error with which an entry refuses an argument. -/
inductive Refuses : Arg → Nat → Option Text → Int → Prop where
  | full (entry : Arg) (used : Nat) (argval : Option Text) (hfull : ¬ (used : Int) < entry.hdr.maxcount) :
      Refuses entry used argval entry.emaxcount
  | overflow (arg : ArgInt) (used : Nat) (s : Text) (v : Int) (hroom : (used : Int) < arg.hdr.maxcount) (htext : IntText s v)
      (hout : ∀ v, IntText s v → ¬ InRange v) : Refuses (.int arg) used (some s) eoverflowInt
  | bad (arg : ArgInt) (used : Nat) (s : Text) (hroom : (used : Int) < arg.hdr.maxcount) (hnone : ∀ v, ¬ IntText s v) :
      Refuses (.int arg) used (some s) ebadint

variable {entry next : Arg} {given : Given} {argval : Option Text} {used : Nat} {code code' : Int}

theorem emaxcount_ne_zero (hscan : entry.hasScanfn = true) : entry.emaxcount ≠ 0 := by
  cases entry with
  | lit arg => exact (by decide : emaxcountLit ≠ 0)
  | int arg => exact (by decide : emaxcountInt ≠ 0)
  | str arg => exact (by decide : emaxcountStr ≠ 0)
  | rem hdr => cases hscan

theorem Refuses.ne_zero (h : Refuses entry used argval code) (hscan : entry.hasScanfn = true) : code ≠ 0 := by
  cases h with
  | full => exact emaxcount_ne_zero hscan
  | overflow => exact (by decide : eoverflowInt ≠ 0)
  | bad => exact (by decide : ebadint ≠ 0)

theorem Refuses.not_takes (h : Refuses entry used argval code) : ¬ entry.Takes used argval := by
  rintro ⟨hroom, haccepts⟩
  cases h with
  | full entry used argval hfull => exact hfull hroom
  | overflow arg used s v hroom htext hout =>
    obtain ⟨v, htext, hrange⟩ := haccepts s rfl
    exact hout v htext hrange
  | bad arg used s hroom hnone =>
    obtain ⟨v, htext, -⟩ := haccepts s rfl
    exact hnone v htext

theorem Refuses.unique (h : Refuses entry used argval code) (h' : Refuses entry used argval code') : code = code' := by
  cases h with
  | full entry used argval hfull =>
    cases h' with
    | full => rfl
    | overflow arg used s v hroom => exact absurd hroom hfull
    | bad arg used s hroom => exact absurd hroom hfull
  | overflow arg used s v hroom htext =>
    cases h' with
    | full _ _ _ hfull => exact absurd hroom hfull
    | overflow => rfl
    | bad _ _ _ _ hnone => exact absurd htext (hnone v)
  | bad arg used s hroom hnone =>
    cases h' with
    | full _ _ _ hfull => exact absurd hroom hfull
    | overflow _ _ _ v _ htext => exact absurd htext (hnone v)
    | bad => rfl

theorem filled_reset (entry : Arg) : Filled entry [] (resetfn entry) := by
  cases entry with
  | lit arg => exact .lit arg []
  | int arg => exact .int arg [] arg.ival rfl nofun
  | str arg => exact .str arg [] arg.sval rfl nofun
  | rem hdr => exact .rem hdr []

theorem Filled.hdr_eq (h : Filled entry given next) : next.hdr = entry.hdr := by
  cases h with
  | lit => rfl
  | int => rfl
  | str => rfl
  | rem => rfl

theorem Filled.hasScanfn_eq (h : Filled entry given next) : next.hasScanfn = entry.hasScanfn := by
  cases h with
  | lit => rfl
  | int => rfl
  | str => rfl
  | rem => rfl

theorem Filled.untagged_eq (h : Filled entry given next) : next.untagged = entry.untagged := by
  unfold Arg.untagged
  rw [h.hdr_eq, h.hasScanfn_eq]

theorem length_given (given : Given) (argval : Option Text) : ((given ++ [argval]).length : Int) = given.length + 1 := by
  rw [List.length_append, List.length_singleton]
  rfl

section Values

variable {α : Type} {P : Text → α → Prop} {values : List (Option α)}

theorem given_concat {k : Nat} {s : Text} (hk : (given ++ [argval])[k]? = some (some s)) :
    (k < given.length ∧ given[k]? = some (some s)) ∨ k = given.length ∧ argval = some s := by
  rcases Nat.lt_trichotomy k given.length with hlow | rfl | hhigh
  · rw [List.getElem?_append_left hlow] at hk
    exact Or.inl ⟨hlow, hk⟩
  · rw [List.getElem?_concat_length] at hk
    exact Or.inr ⟨rfl, Option.some.inj hk⟩
  · rw [List.getElem?_eq_none (by rw [List.length_append, List.length_singleton]; omega)] at hk
    cases hk

/-- An option without an argument is counted, and the values stay as they are. -/
theorem Values.count (h : Values P given values) : Values P (given ++ [none]) values := by
  intro k s hk
  rcases given_concat hk with ⟨-, hk⟩ | ⟨-, hnone⟩
  · exact h k s hk
  · cases hnone

theorem Values.store (h : Values P given values) (hlt : given.length < values.length) {s : Text} {v : α} (hv : P s v) :
    Values P (given ++ [some s]) (values.set given.length (some v)) := by
  intro k t hk
  rcases given_concat hk with ⟨hlow, hk⟩ | ⟨rfl, ht⟩
  · obtain ⟨w, hw, hat⟩ := h k t hk
    refine ⟨w, hw, ?_⟩
    rw [List.getElem?_set_ne (by omega)]
    exact hat
  · cases ht
    exact ⟨v, hv, List.getElem?_set_self hlt⟩

end Values

theorem scanfnInt_full {this : ArgInt} (h : this.count = this.hdr.maxcount) :
    scanfnInt this argval = some (this, emaxcountInt) := by
  unfold scanfnInt
  rw [if_pos h]

theorem scanfnInt_none {this : ArgInt} (h : this.count ≠ this.hdr.maxcount) :
    scanfnInt this none = some ({ this with count := this.count + 1 }, 0) := by
  unfold scanfnInt
  rw [if_neg h]

theorem scanfnInt_filled (arg : ArgInt) (ival : List (Option Int)) (hsized : (ival.length : Int) = arg.hdr.maxcount)
    (hbound : (given.length : Int) ≤ arg.hdr.maxcount) (hvalues : Values IsInt given ival) :
    ((Arg.int arg).Takes given.length argval → ∃ ival', ival'.length = ival.length ∧ Values IsInt (given ++ [argval]) ival' ∧
      scanfnInt { arg with count := given.length, ival := ival } argval =
        some ({ arg with count := (given ++ [argval]).length, ival := ival' }, 0)) ∧
    (¬ (Arg.int arg).Takes given.length argval → ∃ code, Refuses (.int arg) given.length argval code ∧
      scanfnInt { arg with count := given.length, ival := ival } argval =
        some ({ arg with count := given.length, ival := ival }, code)) := by
  constructor
  · rintro ⟨hroom, haccepts⟩
    have hplace : (given.length : Int) < arg.hdr.maxcount := hroom
    rw [length_given]
    cases argval with
    | none => exact ⟨ival, rfl, hvalues.count, scanfnInt_none (Int.ne_of_lt hplace)⟩
    | some s =>
      obtain ⟨v, htext, hrange⟩ := haccepts s rfl
      refine ⟨ival.set given.length (some v), List.length_set, hvalues.store (by omega) ⟨htext, hrange⟩, ?_⟩
      rw [scanfnInt_denoted ⟨Int.natCast_nonneg _, hplace⟩ hsized htext, if_pos hrange]
      rfl
  · intro hnot
    by_cases hfull : (given.length : Int) = arg.hdr.maxcount
    · exact ⟨emaxcountInt, .full (.int arg) _ _ (Int.not_lt.mpr (Int.le_of_eq hfull.symm)), scanfnInt_full hfull⟩
    · have hplace : (given.length : Int) < arg.hdr.maxcount := by omega
      cases argval with
      | none => exact absurd ⟨hplace, nofun⟩ hnot
      | some s =>
        have hout : ∀ v, IntText s v → ¬ InRange v := by
          intro v htext hrange
          refine hnot ⟨hplace, fun t ht => ?_⟩
          cases ht
          exact ⟨v, htext, hrange⟩
        by_cases htext : ∃ v, IntText s v
        · obtain ⟨v, htext⟩ := htext
          refine ⟨eoverflowInt, .overflow arg _ s v hplace htext hout, ?_⟩
          rw [scanfnInt_denoted ⟨Int.natCast_nonneg _, hplace⟩ hsized htext, if_neg (hout v htext)]
        · have hnone : ∀ v, ¬ IntText s v := fun v hv => htext ⟨v, hv⟩
          exact ⟨ebadint, .bad arg _ s hplace hnone, scanfnInt_nothing hfull hnone⟩

theorem scanfnStr_filled (arg : ArgStr) (sval : List (Option Text)) (hsized : (sval.length : Int) = arg.hdr.maxcount)
    (hbound : (given.length : Int) ≤ arg.hdr.maxcount) (hvalues : Values Eq given sval) :
    ((given.length : Int) < arg.hdr.maxcount → ∃ sval', sval'.length = sval.length ∧ Values Eq (given ++ [argval]) sval' ∧
      scanfnStr { arg with count := given.length, sval := sval } argval =
        some ({ arg with count := (given ++ [argval]).length, sval := sval' }, 0)) ∧
    (¬ (given.length : Int) < arg.hdr.maxcount → scanfnStr { arg with count := given.length, sval := sval } argval =
      some ({ arg with count := given.length, sval := sval }, emaxcountStr)) := by
  constructor
  · intro hroom
    rw [length_given]
    cases argval with
    | none => exact ⟨sval, rfl, hvalues.count, if_neg (Int.ne_of_lt hroom)⟩
    | some s =>
      have hstore : storeAt sval given.length s = some (sval.set given.length (some s)) := if_pos (by omega)
      refine ⟨sval.set given.length (some s), List.length_set, hvalues.store (by omega) rfl, ?_⟩
      have hscan : scanfnStr { arg with count := given.length, sval := sval } (some s) =
          (storeAt sval given.length s).bind fun sval =>
            some ({ arg with count := given.length + 1, sval := sval }, 0) := if_neg (Int.ne_of_lt hroom)
      rw [hscan, hstore]
      rfl
  · intro hfull
    have hlast : (given.length : Int) = arg.hdr.maxcount := by omega
    exact if_pos hlast

theorem scanfn_lit (arg : ArgLit) : scanfn (.lit arg) argval = some (.lit (scanfnLit arg).1, (scanfnLit arg).2) := rfl

theorem scanfn_int (arg : ArgInt) : scanfn (.int arg) argval = (scanfnInt arg argval).map fun r => (.int r.1, r.2) := rfl

theorem scanfn_str (arg : ArgStr) : scanfn (.str arg) argval = (scanfnStr arg argval).map fun r => (.str r.1, r.2) := rfl

/-- An entry with a function takes an argument, or refuses it and stays as it is. -/
theorem scanfn_filled (h : Filled entry given next) (hsized : entry.Sized)
    (hbound : (given.length : Int) ≤ entry.hdr.maxcount) (hscan : entry.hasScanfn = true) :
    (entry.Takes given.length argval →
      ∃ next', scanfn next argval = some (next', 0) ∧ Filled entry (given ++ [argval]) next') ∧
    (¬ entry.Takes given.length argval →
      ∃ code, Refuses entry given.length argval code ∧ scanfn next argval = some (next, code)) := by
  cases h with
  | lit arg given =>
    have hlit : scanfnLit { arg with count := given.length } = if (given.length : Int) < arg.hdr.maxcount then
        ({ arg with count := given.length + 1 }, 0) else ({ arg with count := given.length }, emaxcountLit) := rfl
    rw [scanfn_lit, hlit]
    constructor
    · rintro ⟨hroom, -⟩
      have hplace : (given.length : Int) < arg.hdr.maxcount := hroom
      have hfilled := Filled.lit arg (given ++ [argval])
      rw [length_given] at hfilled
      rw [if_pos hplace]
      exact ⟨_, rfl, hfilled⟩
    · intro hnot
      have hfull : ¬ (given.length : Int) < arg.hdr.maxcount := fun hroom => hnot ⟨hroom, trivial⟩
      rw [if_neg hfull]
      exact ⟨emaxcountLit, .full (.lit arg) _ _ hfull, rfl⟩
  | int arg given ival hlength hvalues =>
    have hspec := @scanfnInt_filled given argval arg ival (by rw [hlength]; exact hsized) hbound hvalues
    rw [scanfn_int]
    constructor
    · intro htakes
      obtain ⟨ival', hlength', hvalues', hscanned⟩ := hspec.1 htakes
      rw [hscanned]
      exact ⟨_, rfl, .int arg (given ++ [argval]) ival' (hlength'.trans hlength) hvalues'⟩
    · intro hnot
      obtain ⟨code, hcode, hscanned⟩ := hspec.2 hnot
      rw [hscanned]
      exact ⟨code, hcode, rfl⟩
  | str arg given sval hlength hvalues =>
    have hspec := @scanfnStr_filled given argval arg sval (by rw [hlength]; exact hsized) hbound hvalues
    rw [scanfn_str]
    constructor
    · rintro ⟨hroom, -⟩
      obtain ⟨sval', hlength', hvalues', hscanned⟩ := hspec.1 hroom
      rw [hscanned]
      exact ⟨_, rfl, .str arg (given ++ [argval]) sval' (hlength'.trans hlength) hvalues'⟩
    · intro hnot
      rw [hspec.2 fun hroom => hnot ⟨hroom, trivial⟩]
      exact ⟨emaxcountStr, .full (.str arg) _ _ fun hroom => hnot ⟨hroom, trivial⟩, rfl⟩
  | rem hdr given => cases hscan

/-- An entry with a function has been given less than it asks for. -/
def Arg.Lacks (entry : Arg) (used : Nat) : Prop := entry.hasScanfn = true ∧ (used : Int) < entry.hdr.mincount

instance (entry : Arg) (used : Nat) : Decidable (entry.Lacks used) := inferInstanceAs (Decidable (_ ∧ _))

theorem checkfn_filled (h : Filled entry given next) :
    checkfn next = if entry.Lacks given.length then entry.emincount else 0 := by
  have hlacks : ∀ hdr : ArgHdr, (given.length : Int) < hdr.mincount ↔ true = true ∧ (given.length : Int) < hdr.mincount :=
    fun _ => ⟨fun hless => ⟨rfl, hless⟩, And.right⟩
  cases h with
  | lit arg given => exact if_congr (hlacks arg.hdr) rfl rfl
  | int arg given ival hlength hvalues => exact if_congr (hlacks arg.hdr) rfl rfl
  | str arg given sval hlength hvalues => exact if_congr (hlacks arg.hdr) rfl rfl
  | rem hdr given =>
    refine (if_neg ?_).symm
    rintro ⟨hscan, -⟩
    cases hscan

theorem emincount_ne_zero (hscan : entry.hasScanfn = true) : entry.emincount ≠ 0 := by
  cases entry with
  | lit arg => exact (by decide : emincountLit ≠ 0)
  | int arg => exact (by decide : emincountInt ≠ 0)
  | str arg => exact (by decide : emincountStr ≠ 0)
  | rem hdr => cases hscan

end Devclego.Arguments
