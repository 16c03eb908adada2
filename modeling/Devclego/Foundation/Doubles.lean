import Mathlib.Algebra.Order.Field.Rat
import Mathlib.Tactic.FieldSimp
import Mathlib.Tactic.Linarith

/-!
# Double operations

A program that divides counters and compares the quotients uses five operations
of a floating-point type. The class names them and promises nothing. `Exact` is
the instance whose quotients are rational numbers, extended by what a division
by zero gives: an infinity, or no number.
-/
namespace Devclego.Foundation

class Doubles (F : Type) where
  ofInt : Int → F
  add : F → F → F
  div : F → F → F
  lt : F → F → Bool
  trunc : F → Int

inductive Exact where
  | fin (q : Rat)
  | inf (positive : Bool)
  | nan
deriving DecidableEq, Repr

namespace Exact

def add : Exact → Exact → Exact
  | .fin a, .fin b => .fin (a + b)
  | .fin _, .inf s => .inf s
  | .inf s, .fin _ => .inf s
  | .inf s, .inf s' => if s = s' then .inf s else .nan
  | _, _ => .nan

/-- A zero divisor counts as positive zero. -/
def div : Exact → Exact → Exact
  | .fin a, .fin b => if b = 0 then (if a = 0 then .nan else .inf (decide (0 < a))) else .fin (a / b)
  | .fin _, .inf _ => .fin 0
  | .inf s, .fin b => .inf (s == decide (0 ≤ b))
  | _, _ => .nan

/-- No comparison with `nan` holds. -/
def lt : Exact → Exact → Bool
  | .fin a, .fin b => decide (a < b)
  | .fin _, .inf s => s
  | .inf s, .fin _ => !s
  | .inf s, .inf s' => !s && s'
  | _, _ => false

/-- Truncation towards zero; the language leaves the other values undefined. -/
def trunc : Exact → Int
  | .fin q => if 0 ≤ q then q.floor else q.ceil
  | _ => 0

instance : Doubles Exact where
  ofInt n := .fin n
  add := add
  div := div
  lt := lt
  trunc := trunc

/-- A quotient of counters with a positive divisor, compared from below. -/
theorem lt_div_iff (r : Rat) (a : Int) {b : Int} (hb : 0 < b) :
    Doubles.lt (Exact.fin r) (Doubles.div (Doubles.ofInt a) (Doubles.ofInt b)) = true ↔ r * b < a := by
  have hbr : (0 : Rat) < b := by exact_mod_cast hb
  have hne : (b : Rat) ≠ 0 := ne_of_gt hbr
  change Exact.lt (.fin r) (Exact.div (.fin a) (.fin b)) = true ↔ _
  simp only [div, hne, ↓reduceIte, lt, decide_eq_true_eq]
  exact lt_div_iff₀ hbr

/-- The same, compared from above. -/
theorem div_lt_iff (r : Rat) (a : Int) {b : Int} (hb : 0 < b) :
    Doubles.lt (Doubles.div (Doubles.ofInt a) (Doubles.ofInt b)) (Exact.fin r) = true ↔ (a : Rat) < r * b := by
  have hbr : (0 : Rat) < b := by exact_mod_cast hb
  have hne : (b : Rat) ≠ 0 := ne_of_gt hbr
  change Exact.lt (Exact.div (.fin a) (.fin b)) (.fin r) = true ↔ _
  simp only [div, hne, ↓reduceIte, lt, decide_eq_true_eq]
  exact div_lt_iff₀ hbr

end Exact

end Devclego.Foundation
