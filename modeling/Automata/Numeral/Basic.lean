/-!
# Decimal numerals

A numeral has an optional sign, digits with an optional point among or around them, and an
optional exponent: `+7`, `-0.50`, `5.`, `.5`, `300e-2`.

* `Numeral`: the exact decimal value, as a whole number of units of a power of ten.
* `Numeral.parse?`: reads a numeral.
* `Numeral.integer?`: reads the numerals of a sign and digits only.
* `Text.isBlank`, `Text.trim`: the Unicode property `White_Space`, and a text without the characters
  at its ends that have it. Blank ends are no part of a numeral.
-/

namespace Automata

/-- The number `± digits * 10 ^ exponent`. -/
structure Numeral where
  /-- Whether a minus sign stands in front. -/
  negative : Bool
  /-- The digits before and after the point as one number. -/
  digits : Nat
  /-- The power of ten of the last digit. -/
  exponent : Int
deriving DecidableEq, Repr

namespace Numeral

/-- A text without its sign, and whether that is a minus. -/
def splitSign : List Char → Bool × List Char
  | '-' :: text => (true, text)
  | '+' :: text => (false, text)
  | text => (false, text)

/-- The longest run of decimal digits in front of a text, and the rest. -/
def splitDigits (text : List Char) : List Char × List Char := text.span Char.isDigit

/-- Minus `n` or plus `n`. -/
def signed (negative : Bool) (n : Nat) : Int := if negative then -n else n

/-- Reads a sign and at least one digit, up to the end of the text. -/
def integer? (text : List Char) : Option Int :=
  let (negative, text) := splitSign text
  match splitDigits text with
  | (digits@(_ :: _), []) => some (signed negative (Nat.ofDigitChars 10 digits 0))
  | _ => none

/-- The digits after a point, and the rest; without a point, no digits. -/
def splitFraction : List Char → List Char × List Char
  | '.' :: text => splitDigits text
  | text => ([], text)

/-- Reads what may follow the digits of a numeral: an exponent, or nothing at all. -/
def exponent? : List Char → Option Int
  | [] => some 0
  | c :: text => if c = 'e' ∨ c = 'E' then integer? text else none

/-- **Reads a numeral**: there is a digit before or after the point, and nothing is left over. -/
def parse? (text : List Char) : Option Numeral :=
  let (negative, text) := splitSign text
  let (whole, text) := splitDigits text
  let (fraction, text) := splitFraction text
  if whole.isEmpty && fraction.isEmpty then none
  else
    (exponent? text).map fun exponent =>
      { negative
        digits := Nat.ofDigitChars 10 (whole ++ fraction) 0
        exponent := exponent - fraction.length }

end Numeral

namespace Text

/-- The code points with the property `White_Space`, as ranges with both ends included. -/
def blankRanges : List (Nat × Nat) :=
  [(0x9, 0xD), (0x20, 0x20), (0x85, 0x85), (0xA0, 0xA0), (0x1680, 0x1680), (0x2000, 0x200A),
    (0x2028, 0x2029), (0x202F, 0x202F), (0x205F, 0x205F), (0x3000, 0x3000)]

/-- Whether a character has the property `White_Space`. -/
def isBlank (c : Char) : Bool := blankRanges.any fun (lo, hi) => lo ≤ c.toNat && c.toNat ≤ hi

/-- The property has 25 members. -/
example : (blankRanges.map fun (lo, hi) => hi + 1 - lo).sum = 25 := by decide

/-- A text without the blank characters at its ends. -/
def trim (text : List Char) : List Char :=
  ((text.dropWhile isBlank).reverse.dropWhile isBlank).reverse

end Text

end Automata
