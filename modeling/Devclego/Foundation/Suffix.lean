import Mathlib.Data.List.Basic
import Mathlib.Data.List.Infix

/-!
# Longest suffixes

A window over a growing list keeps the longest suffix with a property. When the
property bounds the length and asks something of every element but the last, the
window is updated by dropping from its front.
-/
namespace Devclego.Foundation

variable {α : Type}

/-- The longest of the suffixes with a property contains all of them. -/
structure LongestSuffix (p : List α → Prop) (xs ys : List α) : Prop where
  suffix : ys <:+ xs
  holds : p ys
  longest : ∀ zs, zs <:+ xs → p zs → zs <:+ ys

/-- The last `n` elements. -/
def lastN (n : Nat) (xs : List α) : List α := xs.drop (xs.length - n)

theorem lastN_suffix (n : Nat) (xs : List α) : lastN n xs <:+ xs := List.drop_suffix _ _

theorem length_lastN (n : Nat) (xs : List α) : (lastN n xs).length ≤ n := by
  rw [lastN, List.length_drop]
  omega

theorem suffix_lastN {zs xs : List α} {n : Nat} (h : zs <:+ xs) (hn : zs.length ≤ n) : zs <:+ lastN n xs := by
  refine List.suffix_of_suffix_length_le h (lastN_suffix n xs) ?_
  have hle := h.length_le
  rw [lastN, List.length_drop]
  omega

/-- A suffix whose elements all pass is not touched by dropping what fails. -/
theorem suffix_dropWhile {zs xs : List α} {fails : α → Bool} (h : zs <:+ xs) (hpass : ∀ u ∈ zs, fails u = false) :
    zs <:+ xs.dropWhile fails := by
  induction xs with
  | nil => exact h
  | cons x xs ih =>
    rcases List.suffix_cons_iff.mp h with rfl | h'
    · have hx : fails x = false := hpass x (List.mem_cons_self ..)
      rw [List.dropWhile_cons_of_neg (by rw [hx]; exact Bool.false_ne_true)]
    · by_cases hx : fails x = true
      · rw [List.dropWhile_cons_of_pos hx]
        exact ih h'
      · rw [List.dropWhile_cons_of_neg hx]
        exact h

/-- Once an element passes, the later ones do. -/
theorem dropWhile_passes {xs : List α} {fails : α → Bool}
    (hmono : xs.Pairwise fun u v => fails u = false → fails v = false) :
    ∀ u ∈ xs.dropWhile fails, fails u = false := by
  induction xs with
  | nil => simp
  | cons x xs ih =>
    obtain ⟨hx, hxs⟩ := List.pairwise_cons.mp hmono
    by_cases hf : fails x = true
    · rw [List.dropWhile_cons_of_pos hf]
      exact ih hxs
    · rw [List.dropWhile_cons_of_neg hf]
      intro u hu
      rcases List.mem_cons.mp hu with rfl | hu
      · exact Bool.eq_false_iff.mpr hf
      · exact hx u hu (Bool.eq_false_iff.mpr hf)

/-- At most `n + 1` elements, of which all but the last pass. -/
def Fits (fails : α → Bool) (n : Nat) (zs : List α) : Prop :=
  zs.length ≤ n + 1 ∧ ∀ u ∈ zs.dropLast, fails u = false

/-- A new element is put behind what is left of the window when the front has been
dropped, by the test and by the length. -/
theorem longestSuffix_push {fails : α → Bool} {n : Nat} {xs w : List α} (x : α) (hw : w <:+ xs)
    (hmax : ∀ zs, zs <:+ xs → zs.length ≤ n → (∀ u ∈ zs, fails u = false) → zs <:+ w)
    (hmono : w.Pairwise fun u v => fails u = false → fails v = false) :
    LongestSuffix (Fits fails n) (xs ++ [x]) (lastN n (w.dropWhile fails) ++ [x]) where
  suffix := by
    have hkept : lastN n (w.dropWhile fails) <:+ xs :=
      (lastN_suffix _ _).trans ((List.dropWhile_suffix _).trans hw)
    obtain ⟨front, rfl⟩ := hkept
    exact ⟨front, by rw [List.append_assoc]⟩
  holds := by
    refine ⟨?_, fun u hu => ?_⟩
    · rw [List.length_append, List.length_singleton]
      exact Nat.succ_le_succ (length_lastN _ _)
    · rw [List.dropLast_concat] at hu
      exact dropWhile_passes hmono u ((lastN_suffix _ _).subset hu)
  longest := by
    intro zs hzs hfits
    rcases List.eq_nil_or_concat' zs with rfl | ⟨ys, y, rfl⟩
    · exact List.nil_suffix
    · obtain ⟨hlen, hpass⟩ := hfits
      rw [List.dropLast_concat] at hpass
      rw [List.length_append, List.length_singleton] at hlen
      obtain ⟨front, hfront⟩ := hzs
      rw [← List.append_assoc] at hfront
      obtain ⟨hys, hy⟩ := List.append_inj' hfront rfl
      cases hy
      have hsuffix : ys <:+ w := hmax ys ⟨front, hys⟩ (by omega) hpass
      obtain ⟨front', hfront'⟩ := suffix_lastN (suffix_dropWhile hsuffix hpass) (by omega : ys.length ≤ n)
      exact ⟨front', by rw [← hfront', List.append_assoc]⟩

end Devclego.Foundation
