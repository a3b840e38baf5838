import Mathlib.Algebra.Order.Field.Rat
import Mathlib.Data.Nat.Digits.Defs
import Automata.Numeral.Basic

/-!
# How numerals are written

The grammar of numerals, said without regard to how a text is read: what is written down comes
first, and its characters and its exact value are functions of it.

* `Sign`, `Exponent`, `Spelling`: the parts of a written numeral.
* `Spelling.text`, `Spelling.value`: its characters, and the number that it stands for.
* `Numeral.value`: the number that a numeral stands for once it has been read.
* `Bound.Denotes`: a text without its blank ends is a numeral of an exact value.
-/

namespace Automata

namespace Numeral

/-- What may stand in front of digits. -/
inductive Sign where
  | absent
  | plus
  | minus
deriving DecidableEq, Repr

namespace Sign

/-- The characters of a sign. -/
def text : Sign → List Char
  | absent => []
  | plus => ['+']
  | minus => ['-']

/-- Whether the sign is a minus. -/
def negative : Sign → Bool
  | minus => true
  | absent | plus => false

/-- What the sign multiplies a number by. -/
def factor : Sign → ℤ
  | minus => -1
  | absent | plus => 1

end Sign

/-- The character of a decimal digit. -/
def digitChar (d : Fin 10) : Char := Nat.digitChar d

/-- The number that a run of digits stands for, the first digit counting most. -/
def positional (digits : List (Fin 10)) : ℕ := Nat.ofDigits 10 (digits.reverse.map Fin.val)

/-- A written exponent. -/
structure Exponent where
  /-- Whether it is marked by a capital letter. -/
  capital : Bool
  /-- The sign behind the mark. -/
  sign : Sign
  /-- The digits behind the sign. -/
  digits : List (Fin 10)
  /-- There is a digit. -/
  digits_ne_nil : digits ≠ []

namespace Exponent

/-- The letter that marks the exponent. -/
def mark (e : Exponent) : Char := if e.capital then 'E' else 'e'

/-- The characters of an exponent. -/
def text (e : Exponent) : List Char := e.mark :: (e.sign.text ++ e.digits.map digitChar)

/-- The power of ten that the exponent stands for. -/
def value (e : Exponent) : ℤ := e.sign.factor * positional e.digits

end Exponent

/-- **A written numeral**: a sign, digits, a point with digits behind it, and an exponent. Each part
may be missing, but there is a digit before the point or behind it. -/
structure Spelling where
  /-- The sign in front. -/
  sign : Sign
  /-- The digits before the point. -/
  whole : List (Fin 10)
  /-- The digits behind the point, if there is a point. -/
  fraction : Option (List (Fin 10))
  /-- The exponent, if there is one. -/
  exponent : Option Exponent
  /-- There is a digit. -/
  digits_ne_nil : whole ++ fraction.getD [] ≠ []

namespace Spelling

/-- The digits behind the point; without a point, none. -/
def decimals (s : Spelling) : List (Fin 10) := s.fraction.getD []

/-- The power of ten that the exponent stands for; without an exponent, none. -/
def power (s : Spelling) : ℤ := (s.exponent.map Exponent.value).getD 0

/-- The characters of a point and the digits behind it. -/
def fractionText : Option (List (Fin 10)) → List Char
  | none => []
  | some digits => '.' :: digits.map digitChar

/-- The characters of an exponent that may be missing. -/
def exponentText : Option Exponent → List Char
  | none => []
  | some e => e.text

/-- **The characters of a numeral.** -/
def text (s : Spelling) : List Char :=
  s.sign.text ++ (s.whole.map digitChar ++ (fractionText s.fraction ++ exponentText s.exponent))

/-- **The exact value of a numeral.** -/
def value (s : Spelling) : ℚ :=
  s.sign.factor * (positional s.whole + positional s.decimals / 10 ^ s.decimals.length) *
    10 ^ s.power

/-- The numeral that reading the text is to answer. -/
def numeral (s : Spelling) : Numeral where
  negative := s.sign.negative
  digits := positional (s.whole ++ s.decimals)
  exponent := s.power - s.decimals.length

end Spelling

/-- The magnitude of a numeral that has been read. -/
def magnitude (q : Numeral) : ℚ := q.digits * 10 ^ q.exponent

/-- **The exact value of a numeral that has been read.** -/
def value (q : Numeral) : ℚ := if q.negative then -q.magnitude else q.magnitude

end Numeral

/-- **A bound denotes a number** when it is, without its blank ends, a numeral of that exact
value. -/
def Bound.Denotes (text : List Char) (v : ℚ) : Prop :=
  ∃ s : Numeral.Spelling, s.text = Text.trim text ∧ s.value = v

end Automata
