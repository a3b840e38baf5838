import Automata.Numeral.Spelling
import Automata.Proofs.Numeral.Rounding

/-!
# Numerals are rounded correctly

* `counts_units?`: the magnitude of a numeral is rounded to the nearest value, however large or
  small its power of ten is.
* `rounds_value_iff`: the sign does not change how.
* `integral?_eq_some_iff`: **a numeral is read as a whole number exactly when its exact value is
  rounded to that number.**
-/

namespace Automata

attribute [local irreducible] Binary64.one Binary64.infinity

namespace Numeral

open Binary64

variable {q : Numeral} {n : ℤ}

theorem magnitude_nonneg (q : Numeral) : 0 ≤ q.magnitude :=
  mul_nonneg (Nat.cast_nonneg _) (zpow_nonneg (by norm_num) _)

/-- A power of ten is at least the power of eight. -/
theorem eight_pow_le (e : ℕ) : 2 ^ (3 * e) ≤ 10 ^ e := by
  rw [pow_mul]
  exact Nat.pow_le_pow_left (by norm_num) e

/-- Digits and a power of ten that are large on sight. -/
theorem large_on_sight {d e k : ℕ} (hd : d ≠ 0) (h : k ≤ d.log2 + 3 * e) : 2 ^ k ≤ d * 10 ^ e :=
  calc 2 ^ k ≤ 2 ^ (d.log2 + 3 * e) := Nat.pow_le_pow_right two_pos h
    _ = 2 ^ d.log2 * 2 ^ (3 * e) := pow_add _ _ _
    _ ≤ d * 10 ^ e := Nat.mul_le_mul (Nat.log2_self_le hd) (eight_pow_le e)

/-- Digits and a power of ten that are small on sight. -/
theorem small_on_sight {d e k : ℕ} (h : d.log2 + 1 + k ≤ 3 * e) : d * 2 ^ k ≤ 10 ^ e :=
  calc d * 2 ^ k ≤ 2 ^ (d.log2 + 1) * 2 ^ k := Nat.mul_le_mul_right _ Nat.lt_log2_self.le
    _ = 2 ^ (d.log2 + 1 + k) := (pow_add _ _ _).symm
    _ ≤ 2 ^ (3 * e) := Nat.pow_le_pow_right two_pos h
    _ ≤ 10 ^ e := eight_pow_le e

/-- **A magnitude is rounded to the nearest value**, also where its power of ten is not written
out. -/
theorem counts_units? (q : Numeral) : Counts q.magnitude q.units? := by
  unfold units?
  split
  · next hzero =>
    refine counts_zero q.magnitude_nonneg ?_
    rw [magnitude, hzero, Nat.cast_zero, zero_mul, zero_mul]
    exact zero_le_one
  next hdigits =>
  split
  · next e he =>
    have hmagnitude : q.magnitude = (q.digits * 10 ^ e : ℕ) := by
      rw [magnitude, he, Int.ofNat_eq_natCast, zpow_natCast]
      push_cast
      rfl
    split
    · next hlarge =>
      refine not_rounds_of_large ?_
      rw [hmagnitude]
      exact_mod_cast large_on_sight hdigits hlarge
    · have hcounts := counts_roundUnits? (q.digits * 10 ^ e) one_pos
      rwa [Nat.cast_one, div_one, ← hmagnitude] at hcounts
  · next e he =>
    have hmagnitude : q.magnitude = q.digits / (10 ^ (e + 1) : ℕ) := by
      rw [magnitude, he, zpow_negSucc, div_eq_mul_inv]
      push_cast
      rfl
    split
    · next hsmall =>
      have hle : q.digits * 2 ^ 1075 ≤ 10 ^ (e + 1) := small_on_sight (by omega)
      have hle' : (q.digits : ℚ) * 2 ^ 1075 ≤ (10 ^ (e + 1) : ℕ) := by exact_mod_cast hle
      have hpow : (0 : ℚ) < (10 ^ (e + 1) : ℕ) := by positivity
      refine counts_zero q.magnitude_nonneg ?_
      rw [hmagnitude, div_mul_eq_mul_div, div_le_one hpow]
      exact hle'
    · rw [hmagnitude]
      exact counts_roundUnits? q.digits (Nat.pow_pos (by norm_num))

theorem units?_eq_some_iff {u : ℕ} : q.units? = some u ↔ Rounds q.magnitude (u * gap 0) := by
  have hcounts := q.counts_units?
  refine ⟨fun h => ?_, fun h => ?_⟩
  · rwa [h] at hcounts
  · cases hu : q.units? with
    | none =>
      rw [hu] at hcounts
      exact absurd h (hcounts _)
    | some w =>
      rw [hu] at hcounts
      have heq : (w : ℚ) = u := mul_right_cancel₀ (gap_pos 0).ne' (hcounts.unique h)
      rw [Nat.cast_inj.1 heq]

theorem value_of_negative (h : q.negative = true) : q.value = -q.magnitude := if_pos h

theorem value_of_not_negative (h : q.negative = false) : q.value = q.magnitude := by
  rw [value, h]
  exact if_neg Bool.false_ne_true

/-- **A sign does not change how a number is rounded.** -/
theorem rounds_value_iff :
    Rounds q.value n ↔ ∃ k : ℕ, Rounds q.magnitude k ∧ n = signed q.negative k := by
  -- the nearest value of a magnitude is not negative
  have hnat : ∀ i : ℤ, Rounds q.magnitude i → ∃ k : ℕ, i = k ∧ Rounds q.magnitude k := by
    intro i hi
    have hle : (0 : ℚ) ≤ i := hi.1.le_of_le isValue_zero q.magnitude_nonneg
    obtain ⟨k, rfl⟩ := Int.eq_ofNat_of_zero_le (by exact_mod_cast hle)
    exact ⟨k, rfl, by exact_mod_cast hi⟩
  cases hsign : q.negative with
  | false =>
    rw [value_of_not_negative hsign]
    refine ⟨fun h => ?_, ?_⟩
    · obtain ⟨k, rfl, hk⟩ := hnat n h
      exact ⟨k, hk, rfl⟩
    · rintro ⟨k, hk, rfl⟩
      exact hk
  | true =>
    rw [value_of_negative hsign]
    refine ⟨fun h => ?_, ?_⟩
    · have hneg := h.neg
      rw [neg_neg] at hneg
      obtain ⟨k, hk, hround⟩ := hnat (-n) (by exact_mod_cast hneg)
      exact ⟨k, hround, neg_eq_iff_eq_neg.1 hk⟩
    · rintro ⟨k, hk, rfl⟩
      have hneg := hk.neg
      rwa [← Int.cast_natCast, ← Int.cast_neg] at hneg

/-- A numeral is read as a whole number when it has as many units as that. -/
theorem integral?_eq_some_iff_units : q.integral? = some n ↔
    ∃ k : ℕ, q.units? = some (one * k) ∧ n = signed q.negative k := by
  have hpos := units_pos
  unfold integral?
  cases q.units? with
  | none => simp
  | some u =>
    dsimp only
    by_cases hdvd : one ∣ u
    · obtain ⟨k, rfl⟩ := hdvd
      rw [if_pos (Nat.dvd_mul_right one k), Nat.mul_div_cancel_left k hpos, Option.some_inj]
      refine ⟨fun h => ⟨k, rfl, h.symm⟩, ?_⟩
      rintro ⟨i, hi, rfl⟩
      rw [Nat.eq_of_mul_eq_mul_left hpos (Option.some.inj hi)]
    · rw [if_neg hdvd]
      refine ⟨fun h => absurd h (by simp), ?_⟩
      rintro ⟨i, hi, -⟩
      exact absurd ⟨i, Option.some.inj hi⟩ hdvd

/-- **A numeral is read as a whole number exactly when its exact value is rounded to that
number.** -/
theorem integral?_eq_some_iff : q.integral? = some n ↔ Rounds q.value n := by
  have hwhole : ∀ k : ℕ, ((one * k : ℕ) : ℚ) * gap 0 = k := by
    intro k
    rw [Nat.cast_mul, mul_right_comm, one_mul_gap, one_mul]
  rw [integral?_eq_some_iff_units, rounds_value_iff]
  refine exists_congr fun k => and_congr_left fun _ => ?_
  rw [units?_eq_some_iff, hwhole]

end Numeral

end Automata
