import Mathlib.Tactic.Linarith
import Mathlib.Tactic.LinearCombination
import Mathlib.Tactic.Positivity
import Mathlib.Tactic.Ring
import Automata.Numeral.Nearest

/-!
# Nearest values

* `gap_add`, `IsValue.on_grid_or_small`: a value is a multiple of a gap, or small beside it.
* `isValue_intCast`, `IsValue.exists_int`: **whole numbers up to `2 ^ 53` are values**, and values
  from there on are whole numbers.
* `Nearest.unique`, `Nearest.neg`, `Nearest.le_of_le`: there is one nearest value, on the same side
  of every value as the number itself.
* `nearest_of_grid`: **the nearest multiple of the right gap is the nearest value.**
-/

namespace Automata.Binary64

variable {v x y : ℚ} {e s : ℕ} {m n z : ℤ}

/-! ### Values -/

theorem gap_pos (e : ℕ) : 0 < gap e := div_pos (pow_pos two_pos e) (pow_pos two_pos 1074)

theorem gap_add (s k : ℕ) : gap (s + k) = 2 ^ k * gap s := by
  unfold gap
  rw [pow_add, mul_comm (2 ^ s), mul_div_assoc]

theorem gap_mono {s e : ℕ} (h : s ≤ e) : gap s ≤ gap e := by
  obtain ⟨k, rfl⟩ := Nat.exists_eq_add_of_le h
  have hone : (1 : ℚ) ≤ 2 ^ k := one_le_pow₀ (by norm_num)
  rw [gap_add]
  exact le_mul_of_one_le_left (gap_pos s).le hone

theorem gap_one : gap 1074 = 1 := by
  unfold gap
  rw [div_self (pow_ne_zero 1074 two_ne_zero)]

theorem isValue_zero : IsValue 0 := ⟨0, 0, by norm_num, by simp⟩

theorem IsValue.neg (h : IsValue x) : IsValue (-x) := by
  obtain ⟨m, e, hm, rfl⟩ := h
  exact ⟨-m, e, by rwa [abs_neg], by push_cast; ring⟩

/-- Multiples of a gap are values, up to the first one of 54 digits. -/
theorem isValue_mul_gap {m : ℤ} (h : |m| ≤ 2 ^ 53) (e : ℕ) : IsValue (m * gap e) := by
  rcases h.lt_or_eq with h | h
  · exact ⟨m, e, h, rfl⟩
  -- the greatest multiple has one binary digit only
  have hvalue : IsValue (2 ^ 53 * gap e) := ⟨1, e + 53, by norm_num, by rw [gap_add]; simp⟩
  rcases (abs_eq (by norm_num)).1 h with rfl | rfl
  · push_cast
    exact hvalue
  · push_cast
    rw [neg_mul]
    exact hvalue.neg

/-- **Whole numbers up to `2 ^ 53` are values.** -/
theorem isValue_intCast (h : |n| ≤ 2 ^ 53) : IsValue n := by
  have hvalue := isValue_mul_gap h 1074
  rwa [gap_one, mul_one] at hvalue

theorem isValue_two_pow (k : ℕ) : IsValue (2 ^ k) := by
  refine ⟨1, 1074 + k, by norm_num, ?_⟩
  rw [gap_add, gap_one]
  simp

theorem isValue_maxFinite : IsValue maxFinite := by
  refine ⟨2 ^ 53 - 1, 1074 + 971, by norm_num, ?_⟩
  have hpow : (2 : ℚ) ^ 1024 = 2 ^ 971 * 2 ^ 53 := by rw [← pow_add]
  have hdigits : ((2 ^ 53 - 1 : ℤ) : ℚ) = 2 ^ 53 - 1 := by norm_num
  rw [gap_add, gap_one, maxFinite, hpow, hdigits, mul_one, sub_one_mul, mul_comm]

/-- Powers of two below `2 ^ 1024` are finite. -/
theorem two_pow_le_maxFinite {k : ℕ} (h : k ≤ 1023) : 2 ^ k ≤ maxFinite := by
  have htop : (2 : ℚ) ^ 1024 = 2 ^ 1023 + 2 ^ 1023 := by rw [← two_mul, ← pow_succ']
  have hgap : (2 : ℚ) ^ 971 ≤ 2 ^ 1023 := pow_le_pow_right₀ one_le_two (by norm_num)
  have hk : (2 : ℚ) ^ k ≤ 2 ^ 1023 := pow_le_pow_right₀ one_le_two h
  rw [maxFinite, htop, add_sub_assoc]
  exact hk.trans (le_add_of_nonneg_right (sub_nonneg.2 hgap))

/-- A value is a multiple of a gap, or it has a lesser exponent and is small beside that gap. -/
theorem IsValue.on_grid_or_small (h : IsValue y) (s : ℕ) :
    (∃ z : ℤ, y = z * gap s) ∨ 0 < s ∧ |y| < 2 ^ 52 * gap s := by
  obtain ⟨m, e, hm, rfl⟩ := h
  rcases Nat.lt_or_ge e s with hes | hse
  · right
    refine ⟨by omega, ?_⟩
    have hm' : |(m : ℚ)| < 2 ^ 53 := by exact_mod_cast hm
    calc |(m : ℚ) * gap e| = |(m : ℚ)| * gap e := by rw [abs_mul, abs_of_pos (gap_pos e)]
      _ < 2 ^ 53 * gap e := mul_lt_mul_of_pos_right hm' (gap_pos e)
      _ = 2 ^ 52 * gap (e + 1) := by rw [gap_add]; ring
      _ ≤ 2 ^ 52 * gap s := mul_le_mul_of_nonneg_left (gap_mono hes) (by positivity)
  · left
    obtain ⟨k, rfl⟩ := Nat.exists_eq_add_of_le hse
    refine ⟨m * 2 ^ k, ?_⟩
    rw [gap_add]
    push_cast
    ring

/-- **Values from `2 ^ 53` on are whole numbers.** -/
theorem IsValue.exists_int (h : IsValue x) (hx : 2 ^ 53 ≤ |x|) : ∃ n : ℤ, x = n := by
  rcases h.on_grid_or_small 1074 with ⟨z, rfl⟩ | ⟨-, hsmall⟩
  · exact ⟨z, by rw [gap_one, mul_one]⟩
  · rw [gap_one] at hsmall
    linarith

/-! ### Nearest values -/

/-- **There is one nearest value**: of two, both would be even. -/
theorem Nearest.unique (h : Nearest v x) (h' : Nearest v y) : x = y := by
  by_contra hne
  have hdist : |v - x| = |v - y| :=
    le_antisymm (h.dist_le y h'.isValue) (h'.dist_le x h.isValue)
  obtain ⟨k, hk⟩ := h.even y h'.isValue (Ne.symm hne) hdist.symm
  obtain ⟨j, hj⟩ := h'.even x h.isValue hne hdist
  have hodd : ((2 * (k + j) + 1 : ℤ) : ℚ) * (y - x) = 0 := by
    push_cast
    linear_combination hj - hk
  rcases mul_eq_zero.1 hodd with hzero | hzero
  · have : 2 * (k + j) + 1 = 0 := by exact_mod_cast hzero
    omega
  · exact hne (sub_eq_zero.1 hzero).symm

/-- A value is nearest to itself. -/
theorem Nearest.refl (h : IsValue v) : Nearest v v where
  isValue := h
  dist_le := fun y _ => by rw [sub_self, abs_zero]; exact abs_nonneg _
  even := by
    intro y _ hne hdist
    rw [sub_self, abs_zero, abs_eq_zero, sub_eq_zero] at hdist
    exact absurd hdist.symm hne

theorem Nearest.neg (h : Nearest v x) : Nearest (-v) (-x) where
  isValue := h.isValue.neg
  dist_le := by
    intro y hy
    have hle := h.dist_le (-y) hy.neg
    rwa [← abs_neg, ← abs_neg (v - -y), neg_sub', neg_sub', neg_neg] at hle
  even := by
    intro y hy hne hdist
    have hdist' : |v - -y| = |v - x| := by
      rw [← abs_neg, ← abs_neg (v - x), neg_sub', neg_sub', neg_neg]
      exact hdist
    obtain ⟨k, hk⟩ := h.even (-y) hy.neg (fun he => hne (by rw [← he, neg_neg])) hdist'
    exact ⟨k, by linear_combination -hk⟩

/-- **What lies above a value is rounded to that value or above it.** -/
theorem Nearest.le_of_le (h : Nearest v x) (hy : IsValue y) (hv : y ≤ v) : y ≤ x := by
  by_contra hlt
  rw [not_le] at hlt
  have hle := h.dist_le y hy
  rw [abs_of_nonneg (by linarith), abs_of_nonneg (by linarith)] at hle
  linarith

theorem Nearest.ge_of_ge (h : Nearest v x) (hy : IsValue y) (hv : v ≤ y) : x ≤ y := by
  have hle := h.neg.le_of_le hy.neg (neg_le_neg hv)
  linarith

theorem Nearest.le_abs (h : Nearest v x) (hy : IsValue y) (hv : y ≤ |v|) : y ≤ |x| := by
  rcases abs_choice v with he | he
  · exact (h.le_of_le hy (he ▸ hv)).trans (le_abs_self x)
  · exact (h.neg.le_of_le hy (he ▸ hv)).trans (neg_le_abs x)

theorem Nearest.abs_le (h : Nearest v x) (hy : IsValue y) (hv : |v| ≤ y) : |x| ≤ y :=
  abs_le'.2 ⟨h.ge_of_ge hy ((le_abs_self v).trans hv),
    h.neg.ge_of_ge hy ((neg_le_abs v).trans hv)⟩

/-! ### Finite values -/

theorem Rounds.unique (h : Rounds v x) (h' : Rounds v y) : x = y := h.1.unique h'.1

theorem Rounds.neg (h : Rounds v x) : Rounds (-v) (-x) := ⟨h.1.neg, by rw [abs_neg]; exact h.2⟩

/-- From `2 ^ 1024` on, no nearest value is finite. -/
theorem not_rounds_of_large (h : 2 ^ 1024 ≤ v) (x : ℚ) : ¬Rounds v x := by
  intro hx
  have hle := hx.1.le_of_le (isValue_two_pow 1024) h
  exact absurd hx.2 (not_lt.2 (hle.trans (le_abs_self x)))

/-- Up to the greatest finite value, every nearest value is finite. -/
theorem Nearest.rounds (h : Nearest v x) (hv : |v| ≤ maxFinite) : Rounds v x := by
  have hlt : maxFinite < 2 ^ 1024 := sub_lt_self _ (pow_pos two_pos 971)
  exact ⟨h, (h.abs_le isValue_maxFinite hv).trans_lt hlt⟩

/-- **Rounding does not pass a whole number** of up to 53 binary digits. -/
theorem Rounds.le_intCast_iff (h : Rounds v m) (hn : |n| ≤ 2 ^ 53) :
    (n ≤ v → n ≤ m) ∧ (v ≤ n → m ≤ n) := by
  refine ⟨fun hle => ?_, fun hle => ?_⟩
  · exact_mod_cast h.1.le_of_le (isValue_intCast hn) hle
  · exact_mod_cast h.1.ge_of_ge (isValue_intCast hn) hle

/-- What is nearer to nothing than to `g` is at most half of it. -/
theorem two_mul_le_of_abs_le {d g : ℚ} (hg : 0 < g) (h : |d| ≤ |d - g|) : 2 * d ≤ g := by
  by_contra hlt
  rw [not_le] at hlt
  rw [abs_of_pos (by linarith)] at h
  rcases abs_choice (d - g) with he | he <;> linarith

/-- **What is rounded to a digit is near to it.** -/
theorem Rounds.abs_sub_le (h : Rounds v m) (hnonneg : 0 ≤ m) (hle : m ≤ 9) :
    |v - m| ≤ 1 / 2 ^ 50 := by
  have hgap : gap 1025 = 1 / 2 ^ 49 := by
    have hsplit : gap 1074 = 2 ^ 49 * gap 1025 := gap_add 1025 49
    rw [gap_one] at hsplit
    rw [eq_div_iff (by norm_num), mul_comm, ← hsplit]
  -- the neighbours of a digit are values
  have hnext : ∀ z : ℤ, |z| ≤ 1 → IsValue (m + z / 2 ^ 49) := by
    intro z hz
    rw [abs_le] at hz
    refine ⟨m * 2 ^ 49 + z, 1025, by rw [abs_lt]; constructor <;> omega, ?_⟩
    rw [hgap]
    push_cast
    ring
  have habove : |v - m| ≤ |v - m - 1 / 2 ^ 49| := by
    have hle := h.1.dist_le _ (hnext 1 (by norm_num))
    rwa [Int.cast_one, ← sub_sub] at hle
  have hbelow : |-(v - m)| ≤ |-(v - m) - 1 / 2 ^ 49| := by
    have hle := h.1.dist_le _ (hnext (-1) (by norm_num))
    rw [Int.cast_neg, Int.cast_one, neg_div, ← sub_sub, sub_neg_eq_add] at hle
    rwa [abs_neg, ← abs_neg (-(v - m) - _), neg_sub', neg_neg, sub_neg_eq_add]
  have hpos : (0 : ℚ) < 1 / 2 ^ 49 := by positivity
  have hupper := two_mul_le_of_abs_le hpos habove
  have hlower := two_mul_le_of_abs_le hpos hbelow
  rw [abs_le]
  constructor <;> linarith

/-! ### Nearest multiples -/

/-- A whole number within a half is nearest. -/
theorem abs_sub_le_of_half {t : ℚ} (h : |t - m| ≤ 1 / 2) (hne : z ≠ m) :
    |t - m| ≤ |t - z| ∧ (|t - z| = |t - m| → |t - m| = 1 / 2 ∧ |z - m| = 1) := by
  have hone : (1 : ℤ) ≤ |z - m| := Int.one_le_abs (sub_ne_zero.2 hne)
  have hone' : (1 : ℚ) ≤ |(z : ℚ) - m| := by exact_mod_cast hone
  have htriangle : |(z : ℚ) - m| ≤ |t - m| + |t - z| := by
    have hsum := abs_sub_le (z : ℚ) t m
    rw [abs_sub_comm (z : ℚ) t] at hsum
    linarith
  refine ⟨by linarith, fun heq => ⟨by linarith, ?_⟩⟩
  have hle : |(z : ℚ) - m| ≤ 1 := by linarith
  have hle' : |z - m| ≤ 1 := by exact_mod_cast hle
  omega

/-- Distances, measured in gaps. -/
theorem abs_sub_mul_gap (v a : ℚ) (s : ℕ) : |v - a * gap s| = |v / gap s - a| * gap s := by
  have hpos := gap_pos s
  rw [← abs_of_pos hpos, ← abs_mul, abs_of_pos hpos, sub_mul, div_mul_cancel₀ _ hpos.ne']

/-- **The nearest multiple of a gap is the nearest value**, if the gap is the least one or there are
52 digits in front of it: values off the grid lie below all numbers of so many digits. -/
theorem nearest_of_grid (hm : |m| ≤ 2 ^ 53) (hhalf : |v / gap s - m| ≤ 1 / 2)
    (heven : |v / gap s - m| = 1 / 2 → Even m) (hlow : s = 0 ∨ 2 ^ 52 * gap s ≤ v) :
    Nearest v (m * gap s) := by
  have hpos := gap_pos s
  have hgrid : ∀ z : ℤ, |v - m * gap s| ≤ |v - z * gap s| := by
    intro z
    rw [abs_sub_mul_gap, abs_sub_mul_gap]
    refine mul_le_mul_of_nonneg_right ?_ hpos.le
    by_cases hz : z = m
    · rw [hz]
    · exact (abs_sub_le_of_half hhalf hz).1
  have hsmall : ∀ y : ℚ, 0 < s → |y| < 2 ^ 52 * gap s → |v - m * gap s| < |v - y| := by
    intro y hs hy
    have hv : 2 ^ 52 * gap s ≤ v := hlow.resolve_left hs.ne'
    have hfirst : |v - m * gap s| ≤ |v - 2 ^ 52 * gap s| := by
      have hle := hgrid (2 ^ 52)
      push_cast at hle
      exact hle
    calc |v - m * gap s| ≤ |v - 2 ^ 52 * gap s| := hfirst
      _ = v - 2 ^ 52 * gap s := abs_of_nonneg (sub_nonneg.2 hv)
      _ < v - |y| := sub_lt_sub_left hy v
      _ ≤ v - y := sub_le_sub_left (le_abs_self y) v
      _ ≤ |v - y| := le_abs_self _
  refine ⟨isValue_mul_gap hm s, fun y hy => ?_, fun y hy hne hdist => ?_⟩
  · rcases hy.on_grid_or_small s with ⟨z, rfl⟩ | ⟨hs, hlt⟩
    · exact hgrid z
    · exact (hsmall y hs hlt).le
  · rcases hy.on_grid_or_small s with ⟨z, rfl⟩ | ⟨hs, hlt⟩
    · have hz : z ≠ m := fun he => hne (by rw [he])
      rw [abs_sub_mul_gap, abs_sub_mul_gap] at hdist
      obtain ⟨htie, hnext⟩ := (abs_sub_le_of_half hhalf hz).2 (mul_right_cancel₀ hpos.ne' hdist)
      obtain ⟨j, hj⟩ := heven htie
      -- the other multiple is the next one or the one before
      rcases (abs_eq (by norm_num)).1 hnext with hstep | hstep
      · refine ⟨j, ?_⟩
        obtain rfl : z = m + 1 := by omega
        rw [hj]; push_cast; ring
      · refine ⟨-j, ?_⟩
        obtain rfl : z = m - 1 := by omega
        rw [hj]; push_cast; ring
    · exact absurd hdist (hsmall y hs hlt).ne'

end Automata.Binary64
