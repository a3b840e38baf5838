import Automata.Numeral.Bound
import Automata.Proofs.Numeral.Integral
import Automata.Proofs.Numeral.Spelling

/-!
# What a bound in text is read as

A bound is read if it is rounded to a whole number. The number that it is read as may be another one,
because it was read exactly or kept within 64 bits; but no digit tells the two apart.

* `SameDigit`: two numbers that compare alike to every digit.
* `sameDigit_clamp`, `sameDigit_of_rounds`: keeping within 64 bits and rounding respect that.
* `exists_of_parse`, `exists_parse`: **a bound is read exactly when it is a numeral that is rounded
  to a whole number**, and as a number that no digit tells apart from it.
* `parse_eq_refusal_iff`: everything else is refused.
-/

namespace Automata.Bound

open Numeral (Spelling)
open Binary64

variable {text : List Char} {s : Spelling} {n k m : ℤ}

/-! ### Numbers beside the digits -/

/-- Two numbers that compare alike to every digit. -/
def SameDigit (n k : ℤ) : Prop := ∀ d : ℤ, 0 ≤ d → d ≤ 9 → (n ≤ d ↔ k ≤ d) ∧ (d ≤ n ↔ d ≤ k)

theorem SameDigit.refl (n : ℤ) : SameDigit n n := fun _ _ _ => ⟨Iff.rfl, Iff.rfl⟩

theorem SameDigit.trans (h : SameDigit n k) (h' : SameDigit k m) : SameDigit n m :=
  fun d hnonneg hle => ⟨(h d hnonneg hle).1.trans (h' d hnonneg hle).1,
    (h d hnonneg hle).2.trans (h' d hnonneg hle).2⟩

theorem SameDigit.symm (h : SameDigit n k) : SameDigit k n :=
  fun d hnonneg hle => ⟨(h d hnonneg hle).1.symm, (h d hnonneg hle).2.symm⟩

/-- A digit is told apart from every other number. -/
theorem SameDigit.eq (h : SameDigit n k) (hnonneg : 0 ≤ n) (hle : n ≤ 9) : k = n := by
  obtain ⟨habove, hbelow⟩ := h n hnonneg hle
  exact le_antisymm (habove.1 le_rfl) (hbelow.1 le_rfl)

/-- **Keeping a number within 64 bits** does not change its place beside the digits. -/
theorem sameDigit_clamp (n : ℤ) : SameDigit (clamp n) n := by
  intro d hnonneg hle
  unfold clamp least greatest
  omega

/-- **Rounding a whole number** does not change its place beside the digits. -/
theorem sameDigit_of_rounds (h : Rounds n k) : SameDigit n k := by
  have hsmall : ∀ d : ℤ, -1 ≤ d → d ≤ 10 → (d ≤ n → d ≤ k) ∧ (n ≤ d → k ≤ d) := by
    intro d hlo hhi
    have hd : |d| ≤ 2 ^ 53 := abs_le.2 ⟨by omega, by omega⟩
    obtain ⟨hle, hge⟩ := h.le_intCast_iff hd
    exact ⟨fun hn => hle (by exact_mod_cast hn), fun hn => hge (by exact_mod_cast hn)⟩
  intro d hnonneg hle
  -- what passes a digit passes its neighbour
  have hself := hsmall d (by omega) (by omega)
  have hnext := hsmall (d + 1) (by omega) (by omega)
  have hprevious := hsmall (d - 1) (by omega) (by omega)
  omega

/-! ### Reading a bound -/

/-- What is read exactly is a whole number, and it is rounded to one. -/
theorem exists_rounds_of_integer? (h : Numeral.integer? text = some n) (hlo : least ≤ n)
    (hhi : n ≤ greatest) :
    ∃ (s : Spelling) (k : ℤ), s.text = text ∧ s.value = n ∧ Rounds s.value k := by
  obtain ⟨s, htext, hvalue⟩ := Numeral.exists_spelling_of_integer? h
  have hsmall : |(n : ℚ)| ≤ maxFinite := by
    have habs : |n| ≤ 2 ^ 63 := by
      unfold least at hlo
      unfold greatest at hhi
      exact abs_le.2 ⟨by omega, by omega⟩
    have habs' : |(n : ℚ)| ≤ 2 ^ 63 := by exact_mod_cast habs
    exact habs'.trans (two_pow_le_maxFinite (by norm_num))
  obtain ⟨k, hk⟩ := exists_rounds_intCast hsmall
  exact ⟨s, k, htext, hvalue, hvalue ▸ hk⟩

/-- **The two ways in which a text without blank ends is read.** -/
theorem ofTrimmed?_cases (text : List Char) :
    (∃ n, Numeral.integer? text = some n ∧ least ≤ n ∧ n ≤ greatest ∧ ofTrimmed? text = some n) ∨
      ofTrimmed? text = ((Numeral.parse? text).bind (·.integral?)).map clamp := by
  unfold ofTrimmed?
  split
  · next n hn =>
    obtain ⟨hread, hfits⟩ := Option.filter_eq_some_iff.1 hn
    rw [Bool.and_eq_true, decide_eq_true_eq, decide_eq_true_eq] at hfits
    exact Or.inl ⟨n, hread, hfits.1, hfits.2, rfl⟩
  · exact Or.inr rfl

/-- What is read is a numeral that is rounded to a whole number. -/
theorem exists_of_ofTrimmed? (h : ofTrimmed? text = some n) :
    ∃ (s : Spelling) (k : ℤ), s.text = text ∧ Rounds s.value k ∧ SameDigit n k := by
  rcases ofTrimmed?_cases text with ⟨i, hread, hlo, hhi, hi⟩ | hread
  · obtain rfl := Option.some.inj (hi.symm.trans h)
    obtain ⟨s, k, htext, hvalue, hk⟩ := exists_rounds_of_integer? hread hlo hhi
    exact ⟨s, k, htext, hk, sameDigit_of_rounds (hvalue ▸ hk)⟩
  · rw [hread] at h
    obtain ⟨k, hk, rfl⟩ := Option.map_eq_some_iff.1 h
    obtain ⟨q, hq, hintegral⟩ := Option.bind_eq_some_iff.1 hk
    obtain ⟨s, htext, rfl⟩ := Numeral.exists_spelling hq
    rw [Numeral.integral?_eq_some_iff, Numeral.value_numeral] at hintegral
    exact ⟨s, k, htext, hintegral, sameDigit_clamp k⟩

/-- A numeral that is rounded to a whole number is read. -/
theorem exists_ofTrimmed? (h : Rounds s.value k) :
    ∃ n, ofTrimmed? s.text = some n ∧ SameDigit n k := by
  rcases ofTrimmed?_cases s.text with ⟨n, hread, -, -, hn⟩ | hread
  · obtain ⟨s', htext, hvalue⟩ := Numeral.exists_spelling_of_integer? hread
    rw [← Numeral.value_eq_of_text_eq htext, hvalue] at h
    exact ⟨n, hn, sameDigit_of_rounds h⟩
  · have hintegral : s.numeral.integral? = some k := by
      rw [Numeral.integral?_eq_some_iff, Numeral.value_numeral]
      exact h
    refine ⟨clamp k, ?_, sameDigit_clamp k⟩
    rw [hread, Numeral.parse?_text, Option.bind_some, hintegral, Option.map_some]

/-- The error that a bound is refused with. -/
def refusal (text : List Char) : Error :=
  .invalidArgument <|
    "range bound '" ++ String.ofList (Text.trim text) ++ "' is not an integral number"

theorem parse_cases (text : List Char) :
    (∃ n, ofTrimmed? (Text.trim text) = some n ∧ parse text = .ok n) ∨
      ofTrimmed? (Text.trim text) = none ∧ parse text = .error (refusal text) := by
  unfold parse
  dsimp only
  split
  · next n hn => exact Or.inl ⟨n, hn, rfl⟩
  · next hnone => exact Or.inr ⟨hnone, rfl⟩

/-- **What is read is a numeral that is rounded to a whole number.** -/
theorem exists_of_parse (h : parse text = .ok n) : ∃ k, RoundsTo text k ∧ SameDigit n k := by
  rcases parse_cases text with ⟨i, hread, hi⟩ | ⟨-, he⟩
  · rw [hi] at h
    obtain rfl := Except.ok.inj h
    obtain ⟨s, k, htext, hk, hsame⟩ := exists_of_ofTrimmed? hread
    exact ⟨k, ⟨s.value, ⟨s, htext, rfl⟩, hk⟩, hsame⟩
  · rw [he] at h
    exact absurd h (by simp)

/-- **A numeral that is rounded to a whole number is read.** -/
theorem exists_parse (h : RoundsTo text k) : ∃ n, parse text = .ok n ∧ SameDigit n k := by
  obtain ⟨_, ⟨s, htext, rfl⟩, hk⟩ := h
  obtain ⟨n, hn, hsame⟩ := exists_ofTrimmed? hk
  rcases parse_cases text with ⟨i, hread, hi⟩ | ⟨hnone, -⟩
  · rw [← htext, hn] at hread
    obtain rfl := Option.some.inj hread
    exact ⟨n, hi, hsame⟩
  · rw [← htext, hn] at hnone
    exact absurd hnone (by simp)

/-- **Everything else is refused**, with its own text. -/
theorem parse_eq_refusal_iff : parse text = .error (refusal text) ↔ ∀ k, ¬RoundsTo text k := by
  refine ⟨fun h k hk => ?_, fun h => ?_⟩
  · obtain ⟨n, hn, -⟩ := exists_parse hk
    rw [hn] at h
    exact absurd h (by simp)
  · rcases parse_cases text with ⟨n, -, hn⟩ | ⟨-, he⟩
    · obtain ⟨k, hk, -⟩ := exists_of_parse hn
      exact absurd hk (h k)
    · exact he

end Automata.Bound
