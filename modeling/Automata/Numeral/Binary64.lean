import Automata.Numeral.Basic

/-!
# Rounding to binary64

The finite magnitudes of the binary64 format are whole multiples of one *unit*, `2 ^ -1074`: below
`2 ^ 53` units all of them, and in each octave above that every `2 ^ s`-th, so that 53 binary digits
are enough. A value is rounded to the nearest of them, a tie to the one with an even multiple.

* `roundHalfEven`: a quotient rounded to a whole number.
* `roundUnits?`: the binary64 magnitude nearest to a quotient, in units.
* `Numeral.integral?`: the whole number that a numeral is rounded to, if it is one.
-/

namespace Automata.Binary64

/-- The whole number nearest to `num / den`; of two, the even one. -/
def roundHalfEven (num den : Nat) : Nat :=
  let q := num / den
  let r := num % den
  if 2 * r < den then q
  else if den < 2 * r then q + 1
  else q + q % 2

/-- The number of units in one. -/
def one : Nat := Nat.pow 2 1074

/-- The number of units in the least power of two beyond the finite magnitudes. -/
def infinity : Nat := Nat.pow 2 2098

/-- The distance of neighbouring magnitudes around `units`, as a power of two. -/
def spacing (units : Nat) : Nat := units.log2 - 52

/-- **The nearest magnitude** to `num / den`, in units; `none` if it is beyond the finite ones. -/
def roundUnits? (num den : Nat) : Option Nat :=
  let scaled := num * one
  let step := Nat.pow 2 (spacing (scaled / den))
  let units := roundHalfEven scaled (den * step) * step
  if units < infinity then some units else none

end Automata.Binary64

namespace Automata.Numeral

/-- The magnitude of a numeral rounded to binary64, in units. Powers of ten that are beyond the
format on sight are not written out: `8 ^ e ≤ 10 ^ e`. -/
def units? (q : Numeral) : Option Nat :=
  if q.digits = 0 then some 0
  else
    match q.exponent with
    | .ofNat e =>
      -- at least `2 ^ 1024`, beyond the finite magnitudes
      if 1024 ≤ q.digits.log2 + 3 * e then none
      else Binary64.roundUnits? (q.digits * Nat.pow 10 e) 1
    | .negSucc e =>
      -- less than half a unit
      if q.digits.log2 + 1076 ≤ 3 * (e + 1) then some 0
      else Binary64.roundUnits? q.digits (Nat.pow 10 (e + 1))

/-- The whole number that a numeral is rounded to; `none` if it is rounded to a fraction or beyond
the finite magnitudes. -/
def integral? (q : Numeral) : Option Int :=
  match q.units? with
  | some units =>
    if Binary64.one ∣ units then some (signed q.negative (units / Binary64.one)) else none
  | none => none

end Automata.Numeral
