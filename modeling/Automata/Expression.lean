import Mathlib.Computability.Language
import Automata.Nfa.Combine

/-!
# Expressions

An expression says how an automaton is put together, with the plain and the compact form of each
repetition.

* `Expression`, `Expression.nfa`: the ways to build an automaton, and the automaton built.
* `Expression.concat`, `Expression.union`: of any number of expressions.
* `Nfa.charRange_eq_ok_iff`, `Nfa.digitRange_eq_ok_iff`, `Nfa.compactDigitRange_eq_ok_iff`: **for
  bounds in order, and for no others, the automaton of a range is built.**
* `Expression.plain`: the expression with every compact form replaced by the plain one.
* `Expression.language`: the regular language that an expression denotes, without regard to the
  automaton that it builds. Compact forms denote the same language as plain ones.
* `Expression.AvoidsEmpty`: no part of an expression is the empty language.
* `Expression.Reordered`: expressions that differ in the order of the operands of unions, at any
  depth, and in the order and the number of the symbols of a choice.
* `Nfa.Constructible`: the automata that some expression builds.
-/

namespace Automata

open scoped Computability

/-- How an automaton is put together. -/
inductive Expression where
  | char (c : Char)
  | epsilon
  | emptyLanguage
  | anyOf (symbols : List Char)
  | charRange (lo hi : Char)
  | digitRange (lo hi : Nat)
  | compactDigitRange (lo hi : Nat)
  | concatPair (a b : Expression)
  | unionPair (a b : Expression)
  | star (a : Expression)
  | plus (a : Expression)
  | optional (a : Expression)
  | compactStar (a : Expression)
  | compactPlus (a : Expression)
  | compactOptional (a : Expression)
deriving DecidableEq, Repr

namespace Expression

/-- **The automaton of an expression.** -/
def nfa : Expression → Nfa
  | char c => .char c
  | epsilon => .epsilon
  | emptyLanguage => .emptyLanguage
  | anyOf symbols => .anyOf symbols
  | charRange lo hi => .anyOf (Nfa.symbolsBetween lo hi)
  | digitRange lo hi => .union ((Nfa.digitSymbols lo hi).map .char)
  | compactDigitRange lo hi => .anyOf (Nfa.digitSymbols lo hi)
  | concatPair a b => a.nfa.concatPair b.nfa
  | unionPair a b => a.nfa.unionPair b.nfa
  | star a => a.nfa.star
  | plus a => a.nfa.plus
  | optional a => a.nfa.optional
  | compactStar a => a.nfa.compactStar
  | compactPlus a => a.nfa.compactPlus
  | compactOptional a => a.nfa.compactOptional

/-- One expression after another, grouped from the left. -/
def concat : List Expression → Expression
  | [] => epsilon
  | a :: rest => rest.foldl concatPair a

/-- One expression or another, grouped from the left. -/
def union : List Expression → Expression
  | [] => emptyLanguage
  | a :: rest => rest.foldl unionPair a

/-- The expression without compact forms. -/
def plain : Expression → Expression
  | compactDigitRange lo hi => digitRange lo hi
  | concatPair a b => concatPair a.plain b.plain
  | unionPair a b => unionPair a.plain b.plain
  | star a | compactStar a => star a.plain
  | plus a | compactPlus a => plus a.plain
  | optional a | compactOptional a => optional a.plain
  | e => e

/-- The automaton of a concatenation is the concatenation of the automata. -/
theorem nfa_concat (l : List Expression) : (concat l).nfa = .concat (l.map nfa) := by
  cases l with
  | nil => rfl
  | cons a l => exact (List.foldl_map_hom fun _ _ => rfl).symm

/-- The automaton of a union is the union of the automata. -/
theorem nfa_union (l : List Expression) : (union l).nfa = .union (l.map nfa) := by
  cases l with
  | nil => rfl
  | cons a l => exact (List.foldl_map_hom fun _ _ => rfl).symm

/-! ### Languages -/

/-- The words of one symbol out of a list. -/
def singles (symbols : List Char) : Language Char := { w | ∃ c ∈ symbols, w = [c] }

/-- **The language of an expression.** -/
def language : Expression → Language Char
  | char c => singles [c]
  | epsilon => 1
  | emptyLanguage => 0
  | anyOf symbols => singles symbols
  | charRange lo hi => { w | ∃ c, lo ≤ c ∧ c ≤ hi ∧ w = [c] }
  | digitRange lo hi | compactDigitRange lo hi => { w | ∃ n, lo ≤ n ∧ n ≤ hi ∧ w = [n.digitChar] }
  | concatPair a b => a.language * b.language
  | unionPair a b => a.language + b.language
  | star a | compactStar a => a.language∗
  | plus a | compactPlus a => a.language * a.language∗
  | optional a | compactOptional a => a.language + 1

/-- **An expression without the empty language.** No part of it is the empty language itself or a
choice out of no symbols. The bounds of a range are in order; otherwise nothing is built at all. -/
def AvoidsEmpty : Expression → Prop
  | char _ | epsilon => True
  | emptyLanguage => False
  | anyOf symbols => symbols ≠ []
  | charRange lo hi => lo ≤ hi
  | digitRange lo hi | compactDigitRange lo hi => lo ≤ hi
  | concatPair a b | unionPair a b => a.AvoidsEmpty ∧ b.AvoidsEmpty
  | star a | plus a | optional a => a.AvoidsEmpty
  | compactStar a | compactPlus a | compactOptional a => a.AvoidsEmpty

/-! ### Reordered expressions -/

/-- **Reordered expressions**: the operands of a union may change places, and the symbols of a choice
may be listed in any order and any number of times. -/
inductive Reordered : Expression → Expression → Prop where
  | refl (e : Expression) : Reordered e e
  | trans {d e f : Expression} : Reordered d e → Reordered e f → Reordered d f
  | swap (a b : Expression) : Reordered (unionPair a b) (unionPair b a)
  | anyOf {l l' : List Char} : (∀ c, c ∈ l ↔ c ∈ l') → Reordered (anyOf l) (anyOf l')
  | concatPair {a a' b b' : Expression} :
    Reordered a a' → Reordered b b' → Reordered (concatPair a b) (concatPair a' b')
  | unionPair {a a' b b' : Expression} :
    Reordered a a' → Reordered b b' → Reordered (unionPair a b) (unionPair a' b')
  | star {a a' : Expression} : Reordered a a' → Reordered (star a) (star a')
  | plus {a a' : Expression} : Reordered a a' → Reordered (plus a) (plus a')
  | optional {a a' : Expression} : Reordered a a' → Reordered (optional a) (optional a')
  | compactStar {a a' : Expression} : Reordered a a' → Reordered (compactStar a) (compactStar a')
  | compactPlus {a a' : Expression} : Reordered a a' → Reordered (compactPlus a) (compactPlus a')
  | compactOptional {a a' : Expression} :
    Reordered a a' → Reordered (compactOptional a) (compactOptional a')

end Expression

namespace Nfa

/-! ### Ranges -/

/-- A range of symbols is built if its bounds are in order, and then it is that of the expression. -/
theorem charRange_eq_ok_iff {lo hi : Char} {g : Nfa} :
    charRange lo hi = .ok g ↔ lo ≤ hi ∧ (Expression.charRange lo hi).nfa = g := by
  unfold charRange
  split
  · next h => exact ⟨fun hok => absurd hok (by simp), fun hok => absurd h (Char.not_lt.2 hok.1)⟩
  · next h =>
    rw [Except.ok.injEq, and_iff_right (Char.not_lt.1 h)]
    rfl

/-- What is built from a range of digits, if the bounds are digits in order. -/
theorem map_digits?_eq_ok_iff {f : List Char → Nfa} {lo hi : Int} {g : Nfa} :
    (digits? lo hi).map f = .ok g ↔
      ∃ m n : Nat, lo = m ∧ hi = n ∧ m ≤ n ∧ n ≤ 9 ∧ f (digitSymbols m n) = g := by
  unfold digits?
  split
  · next h =>
    obtain ⟨m, rfl⟩ := Int.eq_ofNat_of_zero_le h.1
    obtain ⟨n, rfl⟩ := Int.eq_ofNat_of_zero_le (h.1.trans h.2.1)
    refine ⟨fun hok => ⟨m, n, rfl, rfl, by omega, by omega, Except.ok.inj hok⟩, ?_⟩
    rintro ⟨m', n', hm, hn, -, -, hok⟩
    rw [hm, hn]
    exact congrArg Except.ok hok
  · next h =>
    refine ⟨fun hok => absurd hok (by simp [Except.map]), ?_⟩
    rintro ⟨m, n, rfl, rfl, hmn, hn, -⟩
    exact absurd ⟨by omega, by omega, by omega⟩ h

/-- A range of digits is built if its bounds are digits in order. -/
theorem digitRange_eq_ok_iff {lo hi : Int} {g : Nfa} :
    digitRange lo hi = .ok g ↔
      ∃ m n : Nat, lo = m ∧ hi = n ∧ m ≤ n ∧ n ≤ 9 ∧ (Expression.digitRange m n).nfa = g :=
  map_digits?_eq_ok_iff

/-- The compact range of digits is built for the same bounds. -/
theorem compactDigitRange_eq_ok_iff {lo hi : Int} {g : Nfa} :
    compactDigitRange lo hi = .ok g ↔
      ∃ m n : Nat, lo = m ∧ hi = n ∧ m ≤ n ∧ n ≤ 9 ∧ (Expression.compactDigitRange m n).nfa = g :=
  map_digits?_eq_ok_iff

end Nfa

/-- An automaton is constructible when some expression builds it. -/
def Nfa.Constructible (g : Nfa) : Prop := ∃ e : Expression, e.nfa = g

end Automata
