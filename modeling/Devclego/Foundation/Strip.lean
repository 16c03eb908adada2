import Mathlib.Data.List.DropRight
import Mathlib.Data.List.TakeWhile

/-!
# Stripping lists

What is left of a list when the elements with a property go at both of its ends.
-/
namespace Devclego.Foundation

variable {α : Type} {p : α → Bool} {s t : List α}

def strip (p : α → Bool) (s : List α) : List α := (s.dropWhile p).rdropWhile p

/-- Neither end has the property. -/
structure Stripped (p : α → Bool) (s : List α) : Prop where
  first : ∀ c, s.head? = some c → p c = false
  last : ∀ c, s.getLast? = some c → p c = false

theorem dropWhile_eq_self (h : ∀ c, s.head? = some c → p c = false) : s.dropWhile p = s := by
  cases s with
  | nil => rfl
  | cons c s => rw [List.dropWhile_cons, h c rfl, if_neg Bool.false_ne_true]

theorem rdropWhile_eq_self (h : ∀ c, s.getLast? = some c → p c = false) : s.rdropWhile p = s := by
  rw [List.rdropWhile_eq_self_iff]
  intro hs
  rw [h _ (List.getLast?_eq_some_getLast hs)]
  exact Bool.false_ne_true

theorem head?_dropWhile (s : List α) : ∀ c, (s.dropWhile p).head? = some c → p c = false := by
  induction s with
  | nil =>
    intro c hc
    cases hc
  | cons d s ih =>
    intro c hc
    rw [List.dropWhile_cons] at hc
    split at hc
    · exact ih c hc
    · cases hc
      exact Bool.eq_false_iff.mpr ‹_›

theorem getLast?_rdropWhile (s : List α) : ∀ c, (s.rdropWhile p).getLast? = some c → p c = false := by
  intro c hc
  by_cases hs : s.rdropWhile p = []
  · rw [hs] at hc
    cases hc
  · rw [List.getLast?_eq_some_getLast hs] at hc
    cases hc
    exact Bool.eq_false_iff.mpr (List.rdropWhile_last_not p s hs)

/-- A list that ends with such elements. -/
theorem rdropWhile_append (h : ∀ c ∈ t, p c = true) : (s ++ t).rdropWhile p = s.rdropWhile p := by
  rw [List.rdropWhile, List.reverse_append, List.dropWhile_append_of_pos]
  · rfl
  · exact fun c hc => h c (List.mem_reverse.mp hc)

theorem rdropWhile_append_last {c : α} (hc : t.getLast? = some c) (h : p c = false) :
    (s ++ t).rdropWhile p = s ++ t := by
  apply rdropWhile_eq_self
  intro d hd
  rw [List.getLast?_append, hc, Option.some_or, Option.some.injEq] at hd
  rwa [← hd]

theorem stripped_strip (p : α → Bool) (s : List α) : Stripped p (strip p s) where
  first := by
    intro c hc
    obtain ⟨t, ht⟩ := List.rdropWhile_prefix p (s.dropWhile p)
    apply head?_dropWhile (p := p) s c
    rw [← ht, List.head?_append]
    change Option.or (strip p s).head? _ = some c
    rw [hc]
    rfl
  last := getLast?_rdropWhile _

theorem Stripped.strip_eq (h : Stripped p s) : strip p s = s := by
  rw [strip, dropWhile_eq_self h.first, rdropWhile_eq_self h.last]

/-- A stripped list is found between the elements that go. -/
theorem Stripped.strip_between (h : Stripped p s) {before after : List α} (hbefore : ∀ c ∈ before, p c = true)
    (hafter : ∀ c ∈ after, p c = true) : strip p (before ++ s ++ after) = s := by
  rw [strip, List.append_assoc, List.dropWhile_append_of_pos hbefore]
  cases hs : s with
  | nil =>
    rw [List.nil_append, List.dropWhile_eq_nil_iff.mpr hafter]
    rfl
  | cons c t =>
    have hfirst := h.first c (by rw [hs]; rfl)
    rw [List.cons_append, List.dropWhile_cons, hfirst, if_neg Bool.false_ne_true, ← List.cons_append,
      rdropWhile_append hafter, ← hs, rdropWhile_eq_self h.last]

theorem length_strip_le (p : α → Bool) (s : List α) : (strip p s).length ≤ s.length :=
  ((List.rdropWhile_prefix p _).length_le).trans (List.length_dropWhile_le p s)

end Devclego.Foundation
