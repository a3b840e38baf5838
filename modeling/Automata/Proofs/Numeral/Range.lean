import Automata.Proofs.Numeral.Bound

/-!
# The range between two bounds in text

* `parseDigitRange_of_sameDigit`: **whole bounds decide the range**, whichever way they are read.
* `parseDigitRange_eq_ok_iff`, `parseDigitRange_eq_invalidArgument_iff`: what is accepted and what
  is refused, by what the bounds are rounded to.
* `parseDigitRange_denotes`: **whole bounds are treated alike, however they are written.**
* `parseDigitRange_rounds`: **bounds are judged after they have been rounded**, so a fraction beside
  a digit passes for the digit (`parseDigitRange_nines`).
-/

namespace Automata.Nfa

open Automata.Bound Binary64 Numeral

variable {lo hi : List Char} {l h k j : ℤ} {g : Nfa}

/-! ### Digit ranges -/

theorem exists_digitRange (hrange : 0 ≤ l ∧ l ≤ h ∧ h ≤ 9) : ∃ g, digitRange l h = .ok g := by
  unfold digitRange digits?
  rw [if_pos hrange]
  exact ⟨_, rfl⟩

theorem digitRange_eq_error (hrange : ¬(0 ≤ l ∧ l ≤ h ∧ h ≤ 9)) :
    digitRange l h = .error (.invalidRange (toString l) (toString h)) := by
  unfold digitRange digits?
  rw [if_neg hrange]
  rfl

theorem parseDigitRange_of_parse (hl : Bound.parse lo = .ok l) (hh : Bound.parse hi = .ok h) :
    parseDigitRange lo hi = digitRange l h := by
  rw [parseDigitRange, hl, hh]
  rfl

/-- The bounds of a digit range are known from any numbers that no digit tells apart from them. -/
theorem eq_of_sameDigit (hlo : SameDigit l k) (hhi : SameDigit h j)
    (hrange : 0 ≤ l ∧ l ≤ h ∧ h ≤ 9) : k = l ∧ j = h :=
  ⟨hlo.eq hrange.1 (by omega), hhi.eq (by omega) hrange.2.2⟩

/-- **Whole bounds decide the range**, whether they are read exactly or rounded before. -/
theorem parseDigitRange_of_sameDigit (hk : RoundsTo lo k) (hj : RoundsTo hi j)
    (hlo : SameDigit k l) (hhi : SameDigit j h) :
    (0 ≤ l ∧ l ≤ h ∧ h ≤ 9 →
        parseDigitRange lo hi = digitRange l h ∧ ∃ g, digitRange l h = .ok g) ∧
      (¬(0 ≤ l ∧ l ≤ h ∧ h ≤ 9) →
        ∃ m n : ℤ, Bound.parse lo = .ok m ∧ Bound.parse hi = .ok n ∧
          parseDigitRange lo hi = .error (.invalidRange (toString m) (toString n))) := by
  obtain ⟨m, hm, hmk⟩ := exists_parse hk
  obtain ⟨n, hn, hnj⟩ := exists_parse hj
  have hread := parseDigitRange_of_parse hm hn
  have hml := hmk.trans hlo
  have hnh := hnj.trans hhi
  refine ⟨fun hrange => ?_, fun hrange => ⟨m, n, hm, hn, ?_⟩⟩
  · obtain ⟨rfl, rfl⟩ := eq_of_sameDigit hml.symm hnh.symm hrange
    exact ⟨hread, exists_digitRange hrange⟩
  · rw [hread]
    refine digitRange_eq_error fun hrange' => hrange ?_
    obtain ⟨rfl, rfl⟩ := eq_of_sameDigit hml hnh hrange'
    exact hrange'

/-- **A bound that is not rounded to a whole number is refused**, the lower one first. -/
theorem parseDigitRange_eq_refusal :
    ((∀ k, ¬RoundsTo lo k) → parseDigitRange lo hi = .error (refusal lo)) ∧
      ((∃ k, RoundsTo lo k) → (∀ j, ¬RoundsTo hi j) →
        parseDigitRange lo hi = .error (refusal hi)) := by
  refine ⟨fun hlo => ?_, fun ⟨_, hk⟩ hhi => ?_⟩
  · rw [parseDigitRange, parse_eq_refusal_iff.2 hlo]
    rfl
  · obtain ⟨m, hm, -⟩ := exists_parse hk
    rw [parseDigitRange, hm, parse_eq_refusal_iff.2 hhi]
    rfl

theorem rounds_or_refused (lo hi : List Char) :
    (∃ k j : ℤ, RoundsTo lo k ∧ RoundsTo hi j) ∨
      ((∀ k, ¬RoundsTo lo k) ∨ ∀ j, ¬RoundsTo hi j) ∧
        ∃ text, parseDigitRange lo hi = .error (.invalidArgument text) := by
  by_cases hlo : ∃ k, RoundsTo lo k
  · by_cases hhi : ∃ j, RoundsTo hi j
    · obtain ⟨k, hk⟩ := hlo
      obtain ⟨j, hj⟩ := hhi
      exact Or.inl ⟨k, j, hk, hj⟩
    · rw [not_exists] at hhi
      exact Or.inr ⟨Or.inr hhi, _, parseDigitRange_eq_refusal.2 hlo hhi⟩
  · rw [not_exists] at hlo
    exact Or.inr ⟨Or.inl hlo, _, parseDigitRange_eq_refusal.1 hlo⟩

/-- **A range is accepted** when its bounds are rounded to digits in order. -/
theorem parseDigitRange_eq_ok_iff : parseDigitRange lo hi = .ok g ↔
    ∃ l h : ℤ, RoundsTo lo l ∧ RoundsTo hi h ∧ 0 ≤ l ∧ l ≤ h ∧ h ≤ 9 ∧
      digitRange l h = .ok g := by
  refine ⟨fun hok => ?_, ?_⟩
  · rcases rounds_or_refused lo hi with ⟨k, j, hk, hj⟩ | ⟨-, text, herror⟩
    · obtain ⟨hin, hout⟩ := parseDigitRange_of_sameDigit hk hj (.refl k) (.refl j)
      by_cases hrange : 0 ≤ k ∧ k ≤ j ∧ j ≤ 9
      · exact ⟨k, j, hk, hj, hrange.1, hrange.2.1, hrange.2.2, (hin hrange).1.symm.trans hok⟩
      · obtain ⟨m, n, -, -, herror⟩ := hout hrange
        exact absurd (herror.symm.trans hok) (by simp)
    · exact absurd (herror.symm.trans hok) (by simp)
  · rintro ⟨l, h, hl, hh, hnonneg, hle, hnine, hok⟩
    obtain ⟨hin, -⟩ := parseDigitRange_of_sameDigit hl hh (.refl l) (.refl h)
    exact (hin ⟨hnonneg, hle, hnine⟩).1.trans hok

/-- **An argument is invalid** when a bound is not rounded to a whole number. -/
theorem parseDigitRange_eq_invalidArgument_iff :
    (∃ text, parseDigitRange lo hi = .error (.invalidArgument text)) ↔
      (∀ k, ¬RoundsTo lo k) ∨ ∀ j, ¬RoundsTo hi j := by
  rcases rounds_or_refused lo hi with ⟨k, j, hk, hj⟩ | ⟨hrefused, htext⟩
  · refine ⟨?_, fun h => ?_⟩
    · rintro ⟨text, htext⟩
      obtain ⟨hin, hout⟩ := parseDigitRange_of_sameDigit hk hj (.refl k) (.refl j)
      by_cases hrange : 0 ≤ k ∧ k ≤ j ∧ j ≤ 9
      · obtain ⟨hread, g, hg⟩ := hin hrange
        exact absurd (htext.symm.trans (hread.trans hg)) (by simp)
      · obtain ⟨m, n, -, -, herror⟩ := hout hrange
        exact absurd (htext.symm.trans herror) (by simp)
    · rcases h with hlo | hhi
      · exact absurd hk (hlo k)
      · exact absurd hj (hhi j)
  · exact ⟨fun _ => hrefused, fun _ => htext⟩

/-! ### Main results -/

/-- **Whole bounds are treated alike, however they are written**: the range is that of their exact
values if these are digits in order, and out of range in all other cases. -/
theorem parseDigitRange_denotes (hlo : Denotes lo l) (hhi : Denotes hi h)
    (hl : |(l : ℚ)| ≤ maxFinite) (hh : |(h : ℚ)| ≤ maxFinite) :
    (0 ≤ l ∧ l ≤ h ∧ h ≤ 9 →
        parseDigitRange lo hi = digitRange l h ∧ ∃ g, digitRange l h = .ok g) ∧
      (¬(0 ≤ l ∧ l ≤ h ∧ h ≤ 9) →
        ∃ m n : ℤ, Bound.parse lo = .ok m ∧ Bound.parse hi = .ok n ∧
          parseDigitRange lo hi = .error (.invalidRange (toString m) (toString n))) := by
  obtain ⟨k, hk⟩ := exists_rounds_intCast hl
  obtain ⟨j, hj⟩ := exists_rounds_intCast hh
  exact parseDigitRange_of_sameDigit ⟨l, hlo, hk⟩ ⟨h, hhi, hj⟩
    (sameDigit_of_rounds hk).symm (sameDigit_of_rounds hj).symm

/-- A blank, a point and exponents. -/
theorem parseDigitRange_denotes_three_seven :
    Denotes [' ', '0', '.', '3', 'e', '1'] (3 : ℤ) ∧
      Denotes ['7', '0', '0', 'E', '-', '2'] (7 : ℤ) ∧
      parseDigitRange [' ', '0', '.', '3', 'e', '1'] ['7', '0', '0', 'E', '-', '2'] =
        digitRange 3 7 := by
  have hthree : Denotes [' ', '0', '.', '3', 'e', '1'] (3 : ℤ) := by
    refine ⟨⟨.absent, [0], some [3], some ⟨false, .absent, [1], by decide⟩, by decide⟩,
      by decide, ?_⟩
    norm_num [Spelling.value, Spelling.decimals, Spelling.power, positional, Exponent.value,
      Sign.factor]
  have hseven : Denotes ['7', '0', '0', 'E', '-', '2'] (7 : ℤ) := by
    refine ⟨⟨.absent, [7, 0, 0], none, some ⟨true, .minus, [2], by decide⟩, by decide⟩,
      by decide, ?_⟩
    norm_num [Spelling.value, Spelling.decimals, Spelling.power, positional, Exponent.value,
      Sign.factor, Nat.ofDigits_cons]
  have hfinite : ∀ n : ℤ, |n| ≤ 2 ^ 3 → |(n : ℚ)| ≤ maxFinite := by
    intro n hn
    have hn' : |(n : ℚ)| ≤ 2 ^ 3 := by exact_mod_cast hn
    exact hn'.trans (two_pow_le_maxFinite (by norm_num))
  exact ⟨hthree, hseven, ((parseDigitRange_denotes hthree hseven (hfinite 3 (by decide))
    (hfinite 7 (by decide))).1 (by decide)).1⟩

/-- **Bounds are judged after they have been rounded.** A range is accepted when both are rounded to
digits in order; then each is a numeral near to its digit. An argument is invalid when a bound is
not rounded to a whole number. -/
theorem parseDigitRange_rounds (lo hi : List Char) :
    (∀ g, parseDigitRange lo hi = .ok g ↔
      ∃ l h : ℤ, RoundsTo lo l ∧ RoundsTo hi h ∧ 0 ≤ l ∧ l ≤ h ∧ h ≤ 9 ∧
        digitRange l h = .ok g) ∧
    (∀ g, parseDigitRange lo hi = .ok g →
      ∃ (u v : ℚ) (l h : ℤ), Denotes lo u ∧ Denotes hi v ∧ |u - l| ≤ 1 / 2 ^ 50 ∧
        |v - h| ≤ 1 / 2 ^ 50 ∧ digitRange l h = .ok g) ∧
    ((∃ text, parseDigitRange lo hi = .error (.invalidArgument text)) ↔
      (∀ k, ¬RoundsTo lo k) ∨ ∀ j, ¬RoundsTo hi j) := by
  refine ⟨fun g => parseDigitRange_eq_ok_iff, fun g hok => ?_,
    parseDigitRange_eq_invalidArgument_iff⟩
  obtain ⟨l, h, ⟨u, hu, hl⟩, ⟨v, hv, hh⟩, hnonneg, hle, hnine, hg⟩ :=
    parseDigitRange_eq_ok_iff.1 hok
  exact ⟨u, v, l, h, hu, hv, hl.abs_sub_le hnonneg (by omega),
    hh.abs_sub_le (by omega) hnine, hg⟩

/-- A numeral of twenty nines behind the point is accepted as 1. -/
theorem parseDigitRange_nines :
    (∃ g, parseDigitRange ('0' :: '.' :: List.replicate 20 '9') ['5'] = .ok g) ∧
      ∃ v : ℚ, Denotes ('0' :: '.' :: List.replicate 20 '9') v ∧ ∀ n : ℤ, v ≠ n := by
  have hok : (parseDigitRange ('0' :: '.' :: List.replicate 20 '9') ['5']).isOk = true := by
    decide +kernel
  have hread : ∃ g, parseDigitRange ('0' :: '.' :: List.replicate 20 '9') ['5'] = .ok g := by
    cases h : parseDigitRange ('0' :: '.' :: List.replicate 20 '9') ['5'] with
    | error e => rw [h] at hok; exact absurd hok (by simp [Except.isOk, Except.toBool])
    | ok g => exact ⟨g, rfl⟩
  have hnines : positional (List.replicate 20 9) = 10 ^ 20 - 1 := by decide +kernel
  refine ⟨hread, 1 - 1 / 10 ^ 20, ⟨⟨.absent, [0], some (List.replicate 20 9), none, by decide⟩,
    by decide, ?_⟩, fun n hn => ?_⟩
  · simp only [Spelling.value, Spelling.decimals, Spelling.power, Option.getD_some, hnines,
      List.length_replicate]
    norm_num [positional, Sign.factor]
  · -- it lies between 0 and 1
    have hpos : (0 : ℚ) < n := by rw [← hn]; norm_num
    have hlt : (n : ℚ) < 1 := by rw [← hn]; norm_num
    have hpos' : 0 < n := by exact_mod_cast hpos
    have hlt' : n < 1 := by exact_mod_cast hlt
    omega

end Automata.Nfa
