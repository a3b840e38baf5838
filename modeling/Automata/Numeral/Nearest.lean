import Mathlib.Algebra.Order.Group.Unbundled.Abs
import Automata.Numeral.Spelling

/-!
# The nearest binary64 value

What it means for a number to be rounded correctly, said without regard to how that is done.

* `gap`, `IsValue`: the values of the format, with exponents that are not bounded above.
* `Nearest`: the value nearest to a number; of two, the one whose last binary digit is 0.
* `Rounds`: the nearest value is finite.
* `maxFinite`: the greatest finite value.
* `Bound.RoundsTo`: a text without its blank ends is a numeral that is rounded to a whole number.
-/

namespace Automata

namespace Binary64

/-- The distance of neighbouring values, by exponents that count from the least one. -/
def gap (e : ℕ) : ℚ := 2 ^ e / 2 ^ 1074

/-- **The values of the format**: 53 binary digits and a sign. -/
def IsValue (x : ℚ) : Prop := ∃ (m : ℤ) (e : ℕ), |m| < 2 ^ 53 ∧ x = m * gap e

/-- **The value nearest to a number.** Where two values are equally near, the even one is taken: it
is an even multiple of the distance to the other one. -/
structure Nearest (v x : ℚ) : Prop where
  isValue : IsValue x
  dist_le : ∀ y, IsValue y → |v - x| ≤ |v - y|
  even : ∀ y, IsValue y → y ≠ x → |v - y| = |v - x| → ∃ k : ℤ, x = 2 * k * (y - x)

/-- **Rounding**: the nearest value, if it is one that exponents of the format reach. -/
def Rounds (v x : ℚ) : Prop := Nearest v x ∧ |x| < 2 ^ 1024

/-- The greatest finite value of the format. -/
def maxFinite : ℚ := 2 ^ 1024 - 2 ^ 971

end Binary64

/-- **A bound is rounded to a whole number**: it denotes a number whose nearest value that is. -/
def Bound.RoundsTo (text : List Char) (n : ℤ) : Prop :=
  ∃ v, Denotes text v ∧ Binary64.Rounds v n

end Automata
