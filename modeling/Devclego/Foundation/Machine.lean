import Mathlib.Data.List.Basic

/-!
# Runs of partial deterministic machines

One step takes a state and an input and either faults or gives the next state
and an output. Scheduling choices are inputs, so a nondeterministic system is
the set of its input lists. A guard says which inputs the environment may offer
in a state; the rules below lift a statement about one guarded step to a run.
-/
namespace Devclego.Foundation

variable {σ τ ι ο π : Type}

/-- The final state and the outputs of a run, unless some step faults. -/
def run (step : σ → ι → Option (σ × ο)) : σ → List ι → Option (σ × List ο)
  | s, [] => some (s, [])
  | s, i :: is => do
    let (s, o) ← step s i
    let (s, os) ← run step s is
    some (s, o :: os)

/-- Every input is offered in a state that admits it. -/
def Guarded (step : σ → ι → Option (σ × ο)) (guard : σ → ι → Prop) : σ → List ι → Prop
  | _, [] => True
  | s, i :: is => guard s i ∧ ∀ s' o, step s i = some (s', o) → Guarded step guard s' is

instance decidableGuarded (step : σ → ι → Option (σ × ο)) (guard : σ → ι → Prop)
    [hg : ∀ s i, Decidable (guard s i)] : ∀ s is, Decidable (Guarded step guard s is)
  | _, [] => isTrue trivial
  | s, i :: is =>
    match hg s i with
    | isFalse h => isFalse fun hs => h hs.1
    | isTrue h =>
      match hs : step s i with
      | none => isTrue ⟨h, fun s' o he => by rw [hs] at he; cases he⟩
      | some (s', o) =>
        match decidableGuarded step guard s' is with
        | isTrue hr => isTrue ⟨h, fun t p he => by rw [hs] at he; cases he; exact hr⟩
        | isFalse hr => isFalse fun hall => hr (hall.2 s' o hs)

variable {step : σ → ι → Option (σ × ο)}

@[simp] theorem run_nil (s : σ) : run step s [] = some (s, []) := rfl

theorem run_cons {s : σ} {i : ι} {is : List ι} {r : σ × List ο} :
    run step s (i :: is) = some r ↔
      ∃ s' o s'' os, step s i = some (s', o) ∧ run step s' is = some (s'', os) ∧ r = (s'', o :: os) := by
  simp only [run, Option.bind_eq_bind, Option.bind_eq_some_iff, Option.some.injEq]
  constructor
  · intro hparts
    obtain ⟨⟨s', o⟩, h, ⟨s'', os⟩, h', rfl⟩ := hparts
    exact ⟨s', o, s'', os, h, h', rfl⟩
  · intro hparts
    obtain ⟨s', o, s'', os, h, h', rfl⟩ := hparts
    exact ⟨(s', o), h, (s'', os), h', rfl⟩

theorem run_append {s : σ} {is js : List ι} {r : σ × List ο} :
    run step s (is ++ js) = some r ↔
      ∃ t os t' qs, run step s is = some (t, os) ∧ run step t js = some (t', qs) ∧ r = (t', os ++ qs) := by
  induction is generalizing s r with
  | nil =>
    constructor
    · exact fun h => ⟨s, [], r.1, r.2, rfl, h, rfl⟩
    · intro hparts
      obtain ⟨t, os, t', qs, h, h', rfl⟩ := hparts
      cases h
      exact h'
  | cons i is ih =>
    rw [List.cons_append, run_cons]
    constructor
    · intro hparts
      obtain ⟨u, o, t', ps, hs, hr, rfl⟩ := hparts
      obtain ⟨t, os, t'', qs, h, h', he⟩ := ih.mp hr
      cases he
      exact ⟨t, o :: os, t', qs, run_cons.mpr ⟨u, o, t, os, hs, h, rfl⟩, h', rfl⟩
    · intro hparts
      obtain ⟨t, os, t', qs, h, h', rfl⟩ := hparts
      obtain ⟨u, o, t'', ps, hs, hr, he⟩ := run_cons.mp h
      cases he
      exact ⟨u, o, t', ps ++ qs, hs, ih.mpr ⟨t, ps, t', qs, hr, h', rfl⟩, rfl⟩

theorem run_concat {s t t' : σ} {is : List ι} {i : ι} {os : List ο} {o : ο} (h : run step s is = some (t, os))
    (hi : step t i = some (t', o)) : run step s (is ++ [i]) = some (t', os ++ [o]) :=
  run_append.mpr ⟨t, os, t', [o], h, run_cons.mpr ⟨t', o, t', [], hi, rfl, rfl⟩, rfl⟩

/-- A step that puts nothing out. -/
theorem silent_iff {r : Option σ} {s : σ} {u : Unit} : r.map (fun t => (t, ())) = some (s, u) ↔ r = some s := by
  simp

theorem length_of_run {s s' : σ} {is : List ι} {os : List ο} (h : run step s is = some (s', os)) :
    os.length = is.length := by
  induction is generalizing s os with
  | nil => cases h; rfl
  | cons i is ih =>
    obtain ⟨t, o, t', ps, -, hr, he⟩ := run_cons.mp h
    cases he
    rw [List.length_cons, List.length_cons, ih hr]

theorem guarded_append {guard : σ → ι → Prop} {s s' : σ} {is js : List ι} {os : List ο}
    (h : run step s is = some (s', os)) (hg : Guarded step guard s (is ++ js)) : Guarded step guard s' js := by
  induction is generalizing s os with
  | nil => cases h; exact hg
  | cons i is ih =>
    obtain ⟨t, o, t', ps, hs, hr, he⟩ := run_cons.mp h
    cases he
    exact ih hr (hg.2 t o hs)

theorem guarded_trivial (s : σ) (is : List ι) : Guarded step (fun _ _ => True) s is := by
  induction is generalizing s with
  | nil => trivial
  | cons i is ih => exact ⟨trivial, fun s' _ _ => ih s'⟩

theorem Guarded.take {guard : σ → ι → Prop} {s : σ} {is : List ι} (hg : Guarded step guard s is)
    (k : Nat) : Guarded step guard s (is.take k) := by
  induction is generalizing s k with
  | nil => simpa using hg
  | cons i is ih =>
    cases k with
    | zero => trivial
    | succ k => exact ⟨hg.1, fun s' o hs => ih (hg.2 s' o hs) k⟩

/-- After a step that returns, the rest is guarded from the state it returned. -/
theorem guarded_cons {guard : σ → ι → Prop} {s s' : σ} {i : ι} {is : List ι} {o : ο}
    (h : step s i = some (s', o)) :
    Guarded step guard s (i :: is) ↔ guard s i ∧ Guarded step guard s' is := by
  constructor
  · exact fun hg => ⟨hg.1, hg.2 s' o h⟩
  · intro hparts
    obtain ⟨hi, hr⟩ := hparts
    refine ⟨hi, fun t p ht => ?_⟩
    cases h.symm.trans ht
    exact hr

/-- Partial correctness: an invariant kept by every guarded step that returns
holds after every run that returns. -/
theorem run_preserves {guard : σ → ι → Prop} {inv : σ → Prop}
    (hstep : ∀ s i s' o, inv s → guard s i → step s i = some (s', o) → inv s')
    {s s' : σ} {is : List ι} {os : List ο} (hinv : inv s) (hg : Guarded step guard s is)
    (h : run step s is = some (s', os)) : inv s' := by
  induction is generalizing s os with
  | nil => cases h; exact hinv
  | cons i is ih =>
    obtain ⟨t, o, t', qs, hs, hr, he⟩ := run_cons.mp h
    cases he
    exact ih (hstep s i t o hinv hg.1 hs) (hg.2 t o hs) hr

/-- A guard that has to be met: a step that does not meet it returns in a bad state. -/
theorem guarded_of_prefixes {pre guard : σ → ι → Prop} {inv good : σ → Prop}
    (hstep : ∀ s i s' o, inv s → pre s i → guard s i → step s i = some (s', o) → inv s')
    (hbad : ∀ s i, inv s → pre s i → ¬ guard s i → ∃ s' o, step s i = some (s', o) ∧ ¬ good s')
    {s : σ} {is : List ι} (hinv : inv s) (hpre : Guarded step pre s is)
    (hall : ∀ k s' os, run step s (is.take k) = some (s', os) → good s') : Guarded step guard s is := by
  induction is generalizing s with
  | nil => trivial
  | cons i is ih =>
    have hi : guard s i := by
      by_contra hi
      obtain ⟨t, o, hs, ht⟩ := hbad s i hinv hpre.1 hi
      exact ht (hall 1 t [o] (run_cons.mpr ⟨t, o, t, [], hs, rfl, rfl⟩))
    refine ⟨hi, fun t o hs => ih (hstep s i t o hinv hpre.1 hi hs) (hpre.2 t o hs) fun k s' os hr => ?_⟩
    exact hall (k + 1) s' (o :: os) (run_cons.mpr ⟨t, o, s', os, hs, hr, rfl⟩)

theorem Guarded.and {pre guard : σ → ι → Prop} {s : σ} {is : List ι} (hp : Guarded step pre s is)
    (hg : Guarded step guard s is) : Guarded step (fun s i => pre s i ∧ guard s i) s is := by
  induction is generalizing s with
  | nil => trivial
  | cons i is ih => exact ⟨⟨hp.1, hg.1⟩, fun s' o hs => ih (hp.2 s' o hs) (hg.2 s' o hs)⟩

/-- An exact guard among the runs that are guarded already: every state reached is good
just when every step meets the guard, provided that a step from the invariant keeps it
under the guard and ends in a bad state otherwise. -/
theorem prefixes_iff_guarded_within {pre guard : σ → ι → Prop} {inv good : σ → Prop}
    (hgood : ∀ s, inv s → good s)
    (hstep : ∀ s i s' o, inv s → pre s i → step s i = some (s', o) →
      (guard s i → inv s') ∧ (good s' → guard s i))
    (hfault : ∀ s i, inv s → pre s i → step s i = none → guard s i) {s : σ} (hinv : inv s) {is : List ι}
    (hpre : Guarded step pre s is) :
    (∀ k s' os, run step s (is.take k) = some (s', os) → good s') ↔ Guarded step guard s is := by
  constructor
  · refine guarded_of_prefixes (fun s i t o h hp hi hs => (hstep s i t o h hp hs).1 hi)
      (fun s i h hp hi => ?_) hinv hpre
    cases hs : step s i with
    | none => exact absurd (hfault s i h hp hs) hi
    | some r => exact ⟨r.1, r.2, rfl, mt (hstep s i r.1 r.2 h hp hs).2 hi⟩
  · intro hg k s' os hr
    exact hgood s' (run_preserves (fun s i t o h hi hs => (hstep s i t o h hi.1 hs).1 hi.2) hinv
      ((hpre.and hg).take k) hr)

/-- An exact guard: every state reached is good just when every step meets it. -/
theorem prefixes_iff_guarded {guard : σ → ι → Prop} {inv good : σ → Prop}
    (hgood : ∀ s, inv s → good s)
    (hstep : ∀ s i s' o, inv s → step s i = some (s', o) → (guard s i → inv s') ∧ (good s' → guard s i))
    (hfault : ∀ s i, inv s → step s i = none → guard s i) {s : σ} (hinv : inv s) (is : List ι) :
    (∀ k s' os, run step s (is.take k) = some (s', os) → good s') ↔ Guarded step guard s is :=
  prefixes_iff_guarded_within hgood (fun s i t o h _ hs => hstep s i t o h hs) (fun s i h _ hs => hfault s i h hs)
    hinv (guarded_trivial s is)

/-- Total correctness: if a guarded step from the invariant always returns and
keeps the invariant, every guarded run returns. -/
theorem run_total {guard : σ → ι → Prop} {inv : σ → Prop}
    (hstep : ∀ s i, inv s → guard s i → ∃ s' o, step s i = some (s', o) ∧ inv s')
    {s : σ} {is : List ι} (hinv : inv s) (hg : Guarded step guard s is) :
    ∃ s' os, run step s is = some (s', os) ∧ inv s' := by
  induction is generalizing s with
  | nil => exact ⟨s, [], rfl, hinv⟩
  | cons i is ih =>
    obtain ⟨t, o, hs, ht⟩ := hstep s i hinv hg.1
    obtain ⟨s', os, hr, hs'⟩ := ih ht (hg.2 t o hs)
    exact ⟨s', o :: os, run_cons.mpr ⟨t, o, s', os, hs, hr, rfl⟩, hs'⟩

/-- An exact guard when a fault counts as a failure: every prefix returns in a good
state just when every step meets the guard. -/
theorem returns_iff_guarded {guard : σ → ι → Prop} {inv good : σ → Prop} (hgood : ∀ s, inv s → good s)
    (hstep : ∀ s i, inv s → guard s i → ∃ s' o, step s i = some (s', o) ∧ inv s')
    (hbad : ∀ s i s' o, inv s → ¬ guard s i → step s i = some (s', o) → ¬ good s')
    {s : σ} (hinv : inv s) (is : List ι) :
    (∀ k, ∃ s' os, run step s (is.take k) = some (s', os) ∧ good s') ↔ Guarded step guard s is := by
  constructor
  · intro hall
    induction is generalizing s with
    | nil => trivial
    | cons i is ih =>
      obtain ⟨t, os, hr, ht⟩ := hall 1
      obtain ⟨t', o, t'', qs, hs, hr', he⟩ := run_cons.mp hr
      cases hr'
      cases he
      have hi : guard s i := by
        by_contra hi
        exact hbad s i t o hinv hi hs ht
      obtain ⟨t', o', hs', hinv'⟩ := hstep s i hinv hi
      cases hs.symm.trans hs'
      refine (guarded_cons hs).mpr ⟨hi, ih hinv' fun k => ?_⟩
      obtain ⟨u, us, hu, hgu⟩ := hall (k + 1)
      obtain ⟨u', p, u'', ps, hsu, hru, he⟩ := run_cons.mp hu
      cases hs.symm.trans hsu
      cases he
      exact ⟨u, ps, hru, hgu⟩
  · intro hg k
    obtain ⟨s', os, hr, hinv'⟩ := run_total hstep hinv (hg.take k)
    exact ⟨s', os, hr, hgood s' hinv'⟩

/-- Outputs of a total specification machine. -/
def specRun (spec : τ → ι → τ × π) : τ → List ι → τ × List π
  | a, [] => (a, [])
  | a, i :: is =>
    let (a', p) := spec a i
    let (a'', ps) := specRun spec a' is
    (a'', p :: ps)

theorem specRun_append (spec : τ → ι → τ × π) (a : τ) (is js : List ι) :
    specRun spec a (is ++ js) = ((specRun spec (specRun spec a is).1 js).1,
      (specRun spec a is).2 ++ (specRun spec (specRun spec a is).1 js).2) := by
  induction is generalizing a with
  | nil => rfl
  | cons i is ih => simp only [List.cons_append, specRun, ih]

theorem length_specRun (spec : τ → ι → τ × π) (a : τ) (is : List ι) :
    (specRun spec a is).2.length = is.length := by
  induction is generalizing a with
  | nil => rfl
  | cons i is ih => simp only [specRun, List.length_cons, ih]

/-- An invariant of the specification. -/
theorem specRun_preserves {spec : τ → ι → τ × π} {inv : τ → Prop} {is : List ι}
    (hstep : ∀ a, ∀ i ∈ is, inv a → inv (spec a i).1) {a : τ} (hinv : inv a) : inv (specRun spec a is).1 := by
  induction is generalizing a with
  | nil => exact hinv
  | cons i is ih =>
    have hi := hstep a i (List.mem_cons_self ..) hinv
    exact ih (fun a' j hj => hstep a' j (List.mem_cons_of_mem _ hj)) hi

/-- Forward simulation: a step that follows the specification from related
states makes every run follow it, output by output. -/
theorem run_refines {guard : σ → ι → Prop} {spec : τ → ι → τ × π} {rel : σ → τ → Prop}
    {out : ο → π → Prop}
    (hstep : ∀ s a i, rel s a → guard s i →
      ∃ s' o, step s i = some (s', o) ∧ rel s' (spec a i).1 ∧ out o (spec a i).2)
    {s : σ} {a : τ} {is : List ι} (hrel : rel s a) (hg : Guarded step guard s is) :
    ∃ s' os, run step s is = some (s', os) ∧ rel s' (specRun spec a is).1 ∧
      List.Forall₂ out os (specRun spec a is).2 := by
  induction is generalizing s a with
  | nil => exact ⟨s, [], rfl, hrel, List.Forall₂.nil⟩
  | cons i is ih =>
    obtain ⟨t, o, hs, ht, ho⟩ := hstep s a i hrel hg.1
    obtain ⟨s', os, hr, hs', hos⟩ := ih ht (hg.2 t o hs)
    exact ⟨s', o :: os, run_cons.mpr ⟨t, o, s', os, hs, hr, rfl⟩, hs', List.Forall₂.cons ho hos⟩

/-- An exact simulation: where each step follows the specification just under a guard
on its state, a run follows it at every point just when all its steps meet the guard. -/
theorem follows_iff_guarded {spec : τ → ι → τ × ο} {guard : τ → ι → Prop} {rel : σ → τ → Prop}
    (hexact : ∀ s a i, rel s a → ((∃ s', step s i = some (s', (spec a i).2) ∧ rel s' (spec a i).1) ↔ guard a i))
    {s : σ} {a : τ} (hrel : rel s a) (is : List ι) :
    (∀ k, ∃ s', run step s (is.take k) = some (s', (specRun spec a (is.take k)).2) ∧
      rel s' (specRun spec a (is.take k)).1) ↔ Guarded (fun a i => some (spec a i)) guard a is := by
  induction is generalizing s a with
  | nil => exact iff_of_true (fun k => ⟨s, by rw [List.take_nil]; rfl, by rw [List.take_nil]; exact hrel⟩) trivial
  | cons i is ih =>
    rw [guarded_cons (show (fun a i => some (spec a i)) a i = some (spec a i) from rfl), ← hexact s a i hrel]
    constructor
    · intro hall
      obtain ⟨t, hr, ht⟩ := hall 1
      obtain ⟨t', o, t'', os, hs, hr', he⟩ := run_cons.mp hr
      cases hr'
      cases he
      refine ⟨⟨t, hs, ht⟩, (ih ht).mp fun k => ?_⟩
      obtain ⟨u, hu, hrel'⟩ := hall (k + 1)
      obtain ⟨u', p, u'', ps, hsu, hru, he⟩ := run_cons.mp hu
      cases hs.symm.trans hsu
      cases he
      exact ⟨u, hru, hrel'⟩
    · rintro ⟨⟨t, hs, ht⟩, hrest⟩ k
      cases k with
      | zero => exact ⟨s, rfl, hrel⟩
      | succ k =>
        obtain ⟨u, hu, hrel'⟩ := (ih ht).mpr hrest k
        exact ⟨u, run_cons.mpr ⟨t, _, u, _, hs, hu, rfl⟩, hrel'⟩

/-! ## Two states that cannot be told apart -/

/-- Both sides fault, or both return related results. -/
theorem rel_bind {α β γ δ : Type} {R : α → β → Prop} {S : γ → δ → Prop} {x : Option α} {y : Option β}
    {f : α → Option γ} {g : β → Option δ} (h : Option.Rel R x y)
    (hf : ∀ a b, R a b → Option.Rel S (f a) (g b)) : Option.Rel S (x >>= f) (y >>= g) := by
  cases h with
  | none => exact .none
  | some hab => exact hf _ _ hab

theorem rel_read {α γ δ : Type} {S : γ → δ → Prop} {x : Option α} {f : α → Option γ} {g : α → Option δ}
    (hf : ∀ a, Option.Rel S (f a) (g a)) : Option.Rel S (x >>= f) (x >>= g) := by
  cases x with
  | none => exact .none
  | some a => exact hf a

theorem rel_ite {γ δ : Type} {S : γ → δ → Prop} {c : Prop} [Decidable c] {x x' : Option γ}
    {y y' : Option δ} (h : c → Option.Rel S x y) (h' : ¬ c → Option.Rel S x' y') :
    Option.Rel S (if c then x else x') (if c then y else y') := by
  by_cases hc : c
  · rw [if_pos hc, if_pos hc]
    exact h hc
  · rw [if_neg hc, if_neg hc]
    exact h' hc

theorem rel_map {α β γ δ : Type} {R : α → β → Prop} {S : γ → δ → Prop} {x : Option α} {y : Option β}
    {f : α → γ} {g : β → δ} (h : Option.Rel R x y) (hf : ∀ a b, R a b → S (f a) (g b)) :
    Option.Rel S (x.map f) (y.map g) := by
  cases h with
  | none => exact .none
  | some hab => exact .some (hf _ _ hab)

/-- The outputs of a run, one step unfolded. -/
theorem outputs_cons (s : σ) (i : ι) (is : List ι) :
    (run step s (i :: is)).map Prod.snd =
      (step s i).bind fun r => ((run step r.1 is).map Prod.snd).map (r.2 :: ·) := by
  simp only [run, Option.bind_eq_bind, Option.map_bind, Option.map_map]
  cases step s i with
  | none => rfl
  | some r => cases hr : run step r.1 is <;> simp [hr]

/-- A bisimulation: related states give the same outputs on every input list. -/
theorem run_bisim {rel : σ → σ → Prop}
    (hstep : ∀ s t i, rel s t → Option.Rel (fun a b => rel a.1 b.1 ∧ a.2 = b.2) (step s i) (step t i))
    {s t : σ} (h : rel s t) (is : List ι) :
    (run step s is).map Prod.snd = (run step t is).map Prod.snd := by
  induction is generalizing s t with
  | nil => rfl
  | cons i is ih =>
    have hi := hstep s t i h
    rw [outputs_cons, outputs_cons]
    generalize step s i = x at hi
    generalize step t i = y at hi
    cases hi with
    | none => rfl
    | some hab =>
      obtain ⟨hrel, ho⟩ := hab
      rw [Option.bind_some, Option.bind_some, ih hrel, ho]

end Devclego.Foundation
