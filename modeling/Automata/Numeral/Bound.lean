import Automata.Nfa.Combine
import Automata.Numeral.Binary64

/-!
# Digit ranges with bounds in text

A bound is a numeral between blank characters. One of a sign and digits that fits into 64 bits is
read exactly. Any other is rounded to binary64, has to be whole then, and is kept within 64 bits.

* `Bound.clamp`: the nearest number that fits into 64 bits with a sign.
* `Bound.parse`: reads a bound.
* `Nfa.parseDigitRange`: the digit range between two bounds, the lower one read first.
-/

namespace Automata

namespace Bound

/-- The least number of 64 bits with a sign. -/
def least : Int := -9223372036854775808

/-- The greatest number of 64 bits with a sign. -/
def greatest : Int := 9223372036854775807

/-- The nearest number of 64 bits with a sign. -/
def clamp (n : Int) : Int := max least (min n greatest)

/-- Reads a text without blank ends. -/
def ofTrimmed? (text : List Char) : Option Int :=
  match (Numeral.integer? text).filter fun n => least ≤ n && n ≤ greatest with
  | some n => some n
  | none => ((Numeral.parse? text).bind (·.integral?)).map clamp

/-- **Reads a bound.** -/
def parse (text : List Char) : Except Error Int :=
  let text := Text.trim text
  match ofTrimmed? text with
  | some n => .ok n
  | none => .error <| .invalidArgument <|
      "range bound '" ++ String.ofList text ++ "' is not an integral number"

end Bound

/-- The words of one digit between two bounds in text, as a union of single digits. -/
def Nfa.parseDigitRange (lo hi : List Char) : Except Error Nfa := do
  let lo ← Bound.parse lo
  let hi ← Bound.parse hi
  digitRange lo hi

end Automata
