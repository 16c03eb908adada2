import Devclego.Arguments.Tagged

/-!
# Other arguments

An argument that is no option goes to the first entry without options that takes it,
counted from the one that took the argument before. The entries are passed once, so what
follows an argument that no entry takes is left, too.
-/
namespace Devclego.Arguments

open Foundation

/-- How the arguments come to the entries from an index on, and what is left. -/
inductive Shares (entries : List Arg) : Nat → (Nat → Given) → List Text → (Nat → Given) → List Text → Prop where
  | done (k : Nat) (given : Nat → Given) (rest : List Text) (hk : entries.length ≤ k) : Shares entries k given rest given rest
  | skip {k : Nat} {given given' : Nat → Given} {rest left : List Text} (entry : Arg) (hk : entries[k]? = some entry)
      (htagged : entry.untagged = false) (h : Shares entries (k + 1) given rest given' left) :
      Shares entries k given rest given' left
  | take {k : Nat} {given given' : Nat → Given} {rest left : List Text} (entry : Arg) (s : Text)
      (hk : entries[k]? = some entry) (huntagged : entry.untagged = true) (htakes : entry.Takes (given k).length (some s))
      (h : Shares entries k (deliver given k (some s)) rest given' left) : Shares entries k given (s :: rest) given' left
  | pass {k : Nat} {given given' : Nat → Given} {rest left : List Text} (entry : Arg) (hk : entries[k]? = some entry)
      (huntagged : entry.untagged = true) (hnot : ∀ s, rest.head? = some s → ¬ entry.Takes (given k).length (some s))
      (h : Shares entries (k + 1) given rest given' left) : Shares entries k given rest given' left

/-- The last entry before an index that may have other arguments, if there is one. -/
def LastUntagged (entries : List Arg) (k : Nat) (j : Option Nat) : Prop :=
  match j with
  | none => ∀ i < k, ∀ entry, entries[i]? = some entry → entry.untagged = false
  | some j => j < k ∧ (∃ entry, entries[j]? = some entry ∧ entry.untagged = true) ∧
      ∀ i, j < i → i < k → ∀ entry, entries[i]? = some entry → entry.untagged = false

/-- The errors for the arguments that are left: one for each, in their order. The first
comes from the last entry that has refused it. -/
inductive Leftover (entries : List Arg) (given : Nat → Given) : List Text → List Registered → Prop where
  | none : Leftover entries given [] []
  | unmatched (left : List Text) (hnone : LastUntagged entries entries.length none) :
      Leftover entries given left (left.map unmatched)
  | refused (s : Text) (left : List Text) (j : Nat) (entry : Arg) (code : Int)
      (hlast : LastUntagged entries entries.length (some j)) (hentry : entries[j]? = some entry)
      (hrefuses : Refuses entry (given j).length (some s) code) :
      Leftover entries given (s :: left)
        ({ error := code, parent := some j, argval := some s } :: left.map Arguments.unmatched)

variable {t this : ArgTable} {given given' given'' : Nat → Given} {rs errs errs' : List Registered} {entry next : Arg} {i k : Nat}
  {entries : List Arg} {rest left left' : List Text}

/-! ## Shares -/

theorem shares_nil (entries : List Arg) (k : Nat) (given : Nat → Given) : Shares entries k given [] given [] := by
  by_cases hk : k < entries.length
  · obtain ⟨entry, hentry⟩ : ∃ entry, entries[k]? = some entry := ⟨_, List.getElem?_eq_getElem hk⟩
    have hnext := shares_nil entries (k + 1) given
    by_cases huntagged : entry.untagged = true
    · exact .pass entry hentry huntagged nofun hnext
    · exact .skip entry hentry (Bool.not_eq_true _ ▸ huntagged) hnext
  · exact .done k given [] (Nat.not_lt.mp hk)
termination_by entries.length - k

theorem Shares.unique (h : Shares entries k given rest given' left) (h' : Shares entries k given rest given'' left') :
    given' = given'' ∧ left = left' := by
  induction h with
  | done k given rest hk =>
    have hnone : entries[k]? = none := List.getElem?_eq_none hk
    cases h' with
    | done => exact ⟨rfl, rfl⟩
    | skip entry hk' => cases hnone.symm.trans hk'
    | take entry s hk' => cases hnone.symm.trans hk'
    | pass entry hk' => cases hnone.symm.trans hk'
  | skip entry hk htagged h ih =>
    cases h' with
    | done _ _ _ hk' =>
      rw [List.getElem?_eq_none hk'] at hk
      cases hk
    | skip entry' hk' htagged' h' => exact ih h'
    | take entry' s hk' huntagged htakes h' =>
      cases hk.symm.trans hk'
      cases htagged.symm.trans huntagged
    | pass entry' hk' huntagged hnot h' =>
      cases hk.symm.trans hk'
      cases htagged.symm.trans huntagged
  | take entry s hk huntagged htakes h ih =>
    cases h' with
    | done _ _ _ hk' =>
      rw [List.getElem?_eq_none hk'] at hk
      cases hk
    | skip entry' hk' htagged h' =>
      cases hk.symm.trans hk'
      cases htagged.symm.trans huntagged
    | take entry' s' hk' huntagged' htakes' h' => exact ih h'
    | pass entry' hk' huntagged' hnot h' =>
      cases hk.symm.trans hk'
      exact absurd htakes (hnot s rfl)
  | pass entry hk huntagged hnot h ih =>
    cases h' with
    | done _ _ _ hk' =>
      rw [List.getElem?_eq_none hk'] at hk
      cases hk
    | skip entry' hk' htagged h' =>
      cases hk.symm.trans hk'
      cases htagged.symm.trans huntagged
    | take entry' s hk' huntagged' htakes h' =>
      cases hk.symm.trans hk'
      exact absurd htakes (hnot s rfl)
    | pass entry' hk' huntagged' hnot' h' => exact ih h'

theorem prefix_deliver (given : Nat → Given) (k : Nat) (a : Option Text) (i : Nat) : given i <+: deliver given k a i := by
  by_cases hi : i = k
  · subst hi
    rw [deliver_self]
    exact List.prefix_append ..
  · exact ⟨[], by rw [List.append_nil, deliver_ne hi]⟩

theorem Shares.prefix (h : Shares entries k given rest given' left) (i : Nat) : given i <+: given' i := by
  induction h with
  | done => exact List.prefix_refl _
  | skip entry hk htagged h ih => exact ih
  | take entry s hk huntagged htakes h ih =>
    exact (prefix_deliver ..).trans ih
  | pass entry hk huntagged hnot h ih => exact ih

/-- Entries with options are passed over. -/
theorem Shares.tagged_eq (h : Shares entries k given rest given' left) (hentry : entries[i]? = some entry)
    (htagged : entry.untagged = false) : given' i = given i := by
  induction h with
  | done => rfl
  | skip entry' hk htagged' h ih => exact ih
  | take entry' s hk huntagged htakes h ih =>
    rw [ih]
    refine deliver_ne ?_
    rintro rfl
    cases hk.symm.trans hentry
    cases htagged.symm.trans huntagged
  | pass entry' hk huntagged hnot h ih => exact ih

theorem Leftover.eq_nil_iff (h : Leftover entries given left errs) : errs = [] ↔ left = [] := by
  cases h with
  | none => exact iff_of_true rfl rfl
  | unmatched left hnone => exact List.map_eq_nil_iff
  | refused s left j entry code hlast hentry hrefuses => exact iff_of_false (List.cons_ne_nil _ _) (List.cons_ne_nil _ _)

theorem LastUntagged.unique {j j' : Option Nat} (h : LastUntagged entries k j) (h' : LastUntagged entries k j') : j = j' := by
  have hnot : ∀ i : Nat, (i < k ∧ (∃ entry, entries[i]? = some entry ∧ entry.untagged = true)) →
      ¬ ∀ entry, entries[i]? = some entry → entry.untagged = false := by
    rintro i ⟨-, entry, hentry, huntagged⟩ hall
    cases huntagged.symm.trans (hall entry hentry)
  cases j with
  | none =>
    cases j' with
    | none => rfl
    | some j' => exact absurd (h j' h'.1) (hnot j' ⟨h'.1, h'.2.1⟩)
  | some j =>
    cases j' with
    | none => exact absurd (h' j h.1) (hnot j ⟨h.1, h.2.1⟩)
    | some j' =>
      rcases Nat.lt_trichotomy j j' with hlt | rfl | hlt
      · exact absurd (h.2.2 j' hlt h'.1) (hnot j' ⟨h'.1, h'.2.1⟩)
      · rfl
      · exact absurd (h'.2.2 j hlt h.1) (hnot j ⟨h.1, h.2.1⟩)

theorem Leftover.unique (h : Leftover entries given left errs) (h' : Leftover entries given left errs') : errs = errs' := by
  cases h with
  | none => exact (h'.eq_nil_iff.mpr rfl).symm
  | unmatched left hnone =>
    cases h' with
    | none => rfl
    | unmatched => rfl
    | refused s left j entry code hlast => cases hnone.unique hlast
  | refused s left j entry code hlast hentry hrefuses =>
    cases h' with
    | unmatched _ hnone => cases hlast.unique hnone
    | refused _ _ j' entry' code' hlast' hentry' hrefuses' =>
      cases hlast.unique hlast'
      cases hentry.symm.trans hentry'
      rw [hrefuses.unique hrefuses']

/-! ## The loop -/

/-- The tentative error before an entry is looked at. -/
inductive Tentative (entries : List Arg) (given : Nat → Given) (k : Nat) : List Text → Option Registered → Prop where
  | fresh (rest : List Text) (h : LastUntagged entries k none) : Tentative entries given k rest none
  | matched (rest : List Text) (entry : Arg) (hk : entries[k]? = some entry) (huntagged : entry.untagged = true) :
      Tentative entries given k rest none
  | refused (s : Text) (rest : List Text) (j : Nat) (entry : Arg) (code : Int) (hlast : LastUntagged entries k (some j))
      (hentry : entries[j]? = some entry) (hrefuses : Refuses entry (given j).length (some s) code) :
      Tentative entries given k (s :: rest) (some { error := code, parent := some j, argval := some s })

theorem LastUntagged.skip {j : Option Nat} (h : LastUntagged entries k j) (hk : entries[k]? = some entry)
    (htagged : entry.untagged = false) : LastUntagged entries (k + 1) j := by
  have hnext : ∀ i < k + 1, (i < k ∨ i = k) := fun i hi => Nat.lt_succ_iff_lt_or_eq.mp hi
  cases j with
  | none =>
    intro i hi entry' hentry'
    rcases hnext i hi with hi | rfl
    · exact h i hi entry' hentry'
    · cases hk.symm.trans hentry'
      exact htagged
  | some j =>
    obtain ⟨hj, hentry, hafter⟩ := h
    refine ⟨by omega, hentry, fun i hji hi entry' hentry' => ?_⟩
    rcases hnext i hi with hi | rfl
    · exact hafter i hji hi entry' hentry'
    · cases hk.symm.trans hentry'
      exact htagged

theorem lastUntagged_self (hk : entries[k]? = some entry) (huntagged : entry.untagged = true) :
    LastUntagged entries (k + 1) (some k) :=
  ⟨Nat.lt_succ_self k, ⟨entry, hk, huntagged⟩, fun i hki hi => by omega⟩

theorem Tentative.skip {tentative : Option Registered} (h : Tentative entries given k rest tentative)
    (hk : entries[k]? = some entry) (htagged : entry.untagged = false) : Tentative entries given (k + 1) rest tentative := by
  cases h with
  | fresh _ h => exact .fresh rest (h.skip hk htagged)
  | matched _ entry' hk' huntagged =>
    cases hk.symm.trans hk'
    cases htagged.symm.trans huntagged
  | refused s rest j entry' code hlast hentry hrefuses =>
    exact .refused s rest j entry' code (hlast.skip hk htagged) hentry hrefuses

/-- The errors that are registered after the loop. -/
def leftErrors (left : List Text) : Option Registered → List Registered
  | none => left.map unmatched
  | some r => r :: left.tail.map unmatched

theorem Tentative.leftover {tentative : Option Registered} (h : Tentative entries given entries.length rest tentative) :
    Leftover entries given rest (leftErrors rest tentative) := by
  cases h with
  | fresh _ h => exact .unmatched rest h
  | matched _ entry hk huntagged =>
    rw [List.getElem?_eq_none (Nat.le_refl _)] at hk
    cases hk
  | refused s rest j entry code hlast hentry hrefuses => exact .refused s rest j entry code hlast hentry hrefuses

theorem untagged_hasScanfn (h : entry.untagged = true) : entry.hasScanfn = true := by
  unfold Arg.untagged at h
  exact (Bool.and_eq_true_iff.mp h).2

theorem set_passed {passed ahead : List Arg} (entry next : Arg) :
    (passed ++ entry :: ahead).set passed.length next = passed ++ next :: ahead := by
  rw [List.set_append_right _ _ (Nat.le_refl _), Nat.sub_self, List.set_cons_zero]

theorem ParseState.untaggedLoop (hready : Ready t) (fuel : Nat) (passed ahead : List Arg) (rest : List Text)
    (tentative : Option Registered) (hfuel : ahead.length + rest.length < fuel)
    (h : ParseState t given rs { this with entries := passed ++ ahead })
    (htentative : Tentative t.entries given passed.length rest tentative) :
    ∃ entries' given' left tentative', Arguments.untaggedLoop fuel passed ahead rest tentative = some (entries', left, tentative') ∧
      ParseState t given' rs { this with entries := entries' } ∧ Shares t.entries passed.length given rest given' left ∧
      Leftover t.entries given' left (leftErrors left tentative') := by
  induction fuel generalizing passed ahead rest tentative given with
  | zero => exact absurd hfuel (Nat.not_lt_zero _)
  | succ fuel ih =>
    have hlength : passed.length + ahead.length = t.entries.length := by
      rw [← h.length, List.length_append]
    cases ahead with
    | nil =>
      have hend : t.entries.length = passed.length := hlength.symm
      rw [List.append_nil] at h
      refine ⟨passed, given, rest, tentative, rfl, h, .done _ _ _ (Nat.le_of_eq hend), ?_⟩
      rw [← hend] at htentative
      exact htentative.leftover
    | cons next ahead =>
      cases rest with
      | nil => exact ⟨_, given, [], none, rfl, h, shares_nil .., .none⟩
      | cons s rest =>
        obtain ⟨entry, hentry⟩ : ∃ entry, t.entries[passed.length]? = some entry :=
          ⟨_, List.getElem?_eq_getElem (by rw [← hlength, List.length_cons]; omega)⟩
        obtain ⟨next', hnext, hfilled⟩ := h.filled _ entry hentry
        have hhere : next' = next := by
          rw [List.getElem?_append_right (Nat.le_refl _), Nat.sub_self] at hnext
          exact (Option.some.inj hnext).symm
        rw [hhere] at hfilled
        have hmoved : passed ++ next :: ahead = (passed ++ [next]) ++ ahead := by
          rw [List.append_assoc]
          rfl
        rw [Arguments.untaggedLoop, hfilled.untagged_eq]
        by_cases huntagged : entry.untagged = true
        · rw [if_pos huntagged]
          have hscan := untagged_hasScanfn huntagged
          obtain ⟨htake, hleave⟩ :=
            scanfn_filled hfilled (hready.sized entry (List.mem_of_getElem? hentry)) (h.within.bound _ entry hentry hscan) hscan
          by_cases htakes : entry.Takes (given passed.length).length (some s)
          · obtain ⟨next'', hscanned, hfilled'⟩ := htake htakes
            have hstate := h.take hentry hfilled' fun _ => htakes
            dsimp only at hstate
            rw [set_passed] at hstate
            obtain ⟨entries', given', left, tentative', hloop, hstate', hshares, hleft⟩ :=
              ih passed (next'' :: ahead) rest none (by simp only [List.length_cons] at hfuel ⊢; omega) hstate
                (.matched rest entry hentry huntagged)
            refine ⟨entries', given', left, tentative', ?_, hstate', .take entry s hentry huntagged htakes hshares, hleft⟩
            rw [hscanned, Option.bind_some]
            dsimp only
            rw [if_pos rfl]
            exact hloop
          · obtain ⟨code, hrefuses, hscanned⟩ := hleave htakes
            rw [hmoved] at h
            have hlast := lastUntagged_self hentry huntagged
            obtain ⟨entries', given', left, tentative', hloop, hstate', hshares, hleft⟩ :=
              ih (passed ++ [next]) ahead (s :: rest) _ (by simp only [List.length_cons] at hfuel ⊢; omega) h
                (by rw [List.length_append, List.length_singleton]; exact .refused s rest passed.length entry code hlast hentry hrefuses)
            rw [List.length_append, List.length_singleton] at hshares
            refine ⟨entries', given', left, tentative', ?_, hstate', .pass entry hentry huntagged ?_ hshares, hleft⟩
            · rw [hscanned, Option.bind_some]
              dsimp only
              rw [if_neg (hrefuses.ne_zero hscan)]
              exact hloop
            · intro s' hs'
              cases hs'
              exact htakes
        · have htagged : entry.untagged = false := Bool.eq_false_iff.mpr huntagged
          rw [if_neg huntagged]
          rw [hmoved] at h
          obtain ⟨entries', given', left, tentative', hloop, hstate', hshares, hleft⟩ :=
            ih (passed ++ [next]) ahead (s :: rest) tentative (by simp only [List.length_cons] at hfuel ⊢; omega) h
              (by rw [List.length_append, List.length_singleton]; exact htentative.skip hentry htagged)
          rw [List.length_append, List.length_singleton] at hshares
          exact ⟨entries', given', left, tentative', hloop, hstate', .skip entry hentry htagged hshares, hleft⟩

/-- What is no option is shared out, and each argument that is left is an error. -/
theorem ParseState.untagged (hready : Ready t) (h : ParseState t given rs this) (rest : List Text) :
    ∃ this' given' left errs, argParseUntagged this rest = some this' ∧ ParseState t given' (rs ++ errs) this' ∧
      Shares t.entries 0 given rest given' left ∧ Leftover t.entries given' left errs := by
  obtain ⟨entries', given', left, tentative, hloop, hstate, hshares, hleft⟩ :=
    ParseState.untaggedLoop hready (this.entries.length + rest.length + 1) [] this.entries rest none (Nat.lt_succ_self _) h
      (.fresh rest fun i hi => absurd hi (Nat.not_lt_zero i))
  obtain ⟨last, hlast, hmax, hlogs⟩ := hstate.logs.registerAll (leftErrors left tentative)
  refine ⟨{ entries := entries', last := last }, given', left, leftErrors left tentative, ?_, ?_, hshares, hleft⟩
  · unfold argParseUntagged
    rw [hloop]
    simp only [Option.bind_eq_bind, Option.bind_some]
    dsimp only at hlast
    cases tentative with
    | none =>
      rw [show leftErrors left none = left.map unmatched from rfl] at hlast
      rw [hlast]
      rfl
    | some r =>
      rw [show leftErrors left (some r) = r :: left.tail.map unmatched from rfl] at hlast
      rw [hlast]
      rfl
  · exact ⟨hstate.length, hstate.filled, hstate.within, hlogs, hmax.trans hstate.maxcount⟩

end Devclego.Arguments
