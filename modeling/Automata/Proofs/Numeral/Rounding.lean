import Mathlib.Tactic.FieldSimp
import Automata.Numeral.Binary64
import Automata.Proofs.Numeral.Nearest

/-!
# Rounding is correct

* `roundHalfEven_nearest`: a quotient is rounded to a nearest whole number.
* `nearest_roundUnits`: **rounding by quotients gives the nearest value.**
* `exists_nearest`, `exists_rounds_intCast`: so every number has one, and that of a whole number is
  whole.
* `Counts`, `counts_roundUnits?`: the same of an answer that may be missing.
-/

namespace Automata

-- the unit and the bound are powers that are too large to be unfolded
attribute [local irreducible] Binary64.one Binary64.infinity

namespace Binary64

variable {num den u : ℕ} {v x : ℚ}

/-! ### Whole numbers -/

/-- A quotient beside its whole part. -/
theorem div_sub_div (num : ℕ) (hden : 0 < den) :
    (num : ℚ) / den - (num / den : ℕ) = (num % den : ℕ) / den := by
  have hpos : (0 : ℚ) < den := by exact_mod_cast hden
  have hsplit : (den : ℚ) * (num / den : ℕ) + (num % den : ℕ) = num := by
    exact_mod_cast Nat.div_add_mod num den
  rw [← hsplit]
  field_simp
  ring

/-- It is less than one away from it. -/
theorem div_sub_div_mem (num : ℕ) (hden : 0 < den) :
    0 ≤ (num : ℚ) / den - (num / den : ℕ) ∧ (num : ℚ) / den - (num / den : ℕ) < 1 := by
  have hpos : (0 : ℚ) < den := by exact_mod_cast hden
  rw [div_sub_div num hden, div_lt_one hpos]
  exact ⟨by positivity, by exact_mod_cast Nat.mod_lt num hden⟩

/-- What the remainder says about the distance to the whole part. -/
theorem compare_half (r : ℕ) (hden : 0 < den) :
    (2 * r < den → (r : ℚ) / den < 1 / 2) ∧ (den < 2 * r → 1 / 2 < (r : ℚ) / den) ∧
      (2 * r = den → (r : ℚ) / den = 1 / 2) := by
  have hpos : (0 : ℚ) < den := by exact_mod_cast hden
  refine ⟨fun h => ?_, fun h => ?_, fun h => ?_⟩
  · have hr : (2 : ℚ) * r < den := by exact_mod_cast h
    rw [div_lt_iff₀ hpos]
    linarith
  · have hr : (den : ℚ) < 2 * r := by exact_mod_cast h
    rw [lt_div_iff₀ hpos]
    linarith
  · have hr : (2 : ℚ) * r = den := by exact_mod_cast h
    rw [div_eq_iff hpos.ne']
    linarith

/-- **A quotient is rounded to a nearest whole number**, a tie to an even one. -/
theorem roundHalfEven_nearest (num : ℕ) (hden : 0 < den) :
    |(num : ℚ) / den - roundHalfEven num den| ≤ 1 / 2 ∧
      (|(num : ℚ) / den - roundHalfEven num den| = 1 / 2 → Even (roundHalfEven num den)) := by
  obtain ⟨hnonneg, hone⟩ := div_sub_div_mem num hden
  obtain ⟨hless, hmore, htie⟩ := compare_half (num % den) hden
  rw [← div_sub_div num hden] at hless hmore htie
  unfold roundHalfEven
  dsimp only
  split
  · next h =>
    have hlt := hless h
    rw [abs_of_nonneg hnonneg]
    exact ⟨hlt.le, fun he => absurd he hlt.ne⟩
  split
  · next h =>
    have hlt : |(num : ℚ) / den - ((num / den + 1 : ℕ) : ℚ)| < 1 / 2 := by
      rw [abs_lt]
      push_cast
      constructor <;> linarith [hmore h]
    exact ⟨hlt.le, fun he => absurd he hlt.ne⟩
  · have heq := htie (by omega)
    have heven : Even (num / den + num / den % 2) := by
      rw [Nat.even_iff]
      omega
    refine ⟨?_, fun _ => heven⟩
    rcases Nat.mod_two_eq_zero_or_one (num / den) with hbit | hbit
    · rw [hbit, Nat.add_zero, heq]
      norm_num
    · rw [hbit, Nat.cast_add, Nat.cast_one, ← sub_sub, heq]
      norm_num

/-! ### Units -/

/-- As many units as a power of two. -/
theorem two_pow_mul_gap (k : ℕ) : ((Nat.pow 2 k : ℕ) : ℚ) * gap 0 = gap k := by
  rw [Nat.pow_eq, Nat.cast_pow, Nat.cast_ofNat, ← gap_add, zero_add]

theorem one_mul_gap : (one : ℚ) * gap 0 = 1 := by
  unfold one
  simp only [two_pow_mul_gap, gap_one]

theorem units_pos : 0 < one := by
  refine Nat.pos_of_ne_zero fun hzero => ?_
  have hone := one_mul_gap
  rw [hzero, Nat.cast_zero, zero_mul] at hone
  exact zero_ne_one hone

theorem infinity_mul_gap : (infinity : ℚ) * gap 0 = 2 ^ 1024 := by
  have hsplit : gap 2098 = 2 ^ 1024 * gap 1074 := gap_add 1074 1024
  unfold infinity
  simp only [two_pow_mul_gap, hsplit, gap_one, mul_one]

/-- The digits that a spacing leaves: 53 of them, or fewer if it is the least one. -/
theorem spacing_spec (u : ℕ) :
    u < 2 ^ (spacing u + 53) ∧ (spacing u = 0 ∨ 2 ^ (spacing u + 52) ≤ u) := by
  have hlt : u < 2 ^ (u.log2 + 1) := Nat.lt_log2_self
  refine ⟨hlt.trans_le (Nat.pow_le_pow_right two_pos (by unfold spacing; omega)), ?_⟩
  rcases Nat.eq_zero_or_pos (spacing u) with h | h
  · exact Or.inl h
  · right
    have hlog : spacing u + 52 = u.log2 := by
      unfold spacing at h ⊢
      omega
    rw [hlog]
    exact Nat.log2_self_le (by rintro rfl; simp [spacing] at h)

/-- A quotient in units lies between two whole numbers of them. -/
theorem units_between (num : ℕ) (hden : 0 < den) :
    ((num * one / den : ℕ) : ℚ) ≤ num / den / gap 0 ∧
      (num / den / gap 0 : ℚ) < (num * one / den : ℕ) + 1 ∧
      (num / den / gap 0 : ℚ) = (num * one : ℕ) / den := by
  have hscale : (num / den / gap 0 : ℚ) = (num * one : ℕ) / den := by
    rw [div_eq_iff (gap_pos 0).ne', Nat.cast_mul, div_mul_eq_mul_div, mul_assoc, one_mul_gap,
      mul_one]
  obtain ⟨hnonneg, hone⟩ := div_sub_div_mem (num * one) hden
  refine ⟨?_, ?_, hscale⟩
  · rw [hscale]
    exact sub_nonneg.1 hnonneg
  · rw [hscale]
    exact sub_lt_iff_lt_add'.1 hone

/-- **The nearest magnitude is found.** -/
theorem nearest_roundUnits (num : ℕ) (hden : 0 < den) :
    ∃ u : ℕ, Nearest (num / den) (u * gap 0) ∧
      (u < infinity → roundUnits? num den = some u) ∧
      (infinity ≤ u → roundUnits? num den = none) := by
  obtain ⟨hge, hlt, hscale⟩ := units_between num hden
  obtain ⟨hdigits, hlow⟩ := spacing_spec (num * one / den)
  obtain ⟨hhalf, heven⟩ := roundHalfEven_nearest (num * one)
    (Nat.mul_pos hden (Nat.two_pow_pos (spacing (num * one / den))))
  generalize hs : spacing (num * one / den) = s at *
  generalize hm : roundHalfEven (num * one) (den * 2 ^ s) = m at *
  have hgap : gap s = 2 ^ s * gap 0 := by rw [← gap_add, zero_add]
  have hpow : (0 : ℚ) < 2 ^ s := pow_pos two_pos s
  -- the quotient in the multiples of that spacing
  have hquotient : (num / den / gap s : ℚ) = (num * one : ℕ) / (den * 2 ^ s : ℕ) := by
    rw [hgap, mul_comm, ← div_div, hscale, div_div]
    push_cast
    rfl
  rw [← hquotient] at hhalf heven
  have htop : (num / den / gap s : ℚ) < 2 ^ 53 := by
    have hle : ((num * one / den : ℕ) : ℚ) + 1 ≤ 2 ^ (s + 53) := by exact_mod_cast hdigits
    rw [hgap, mul_comm, ← div_div, div_lt_iff₀ hpow, ← pow_add, add_comm]
    exact hlt.trans_le hle
  have hmle : m ≤ 2 ^ 53 := by
    have hmlt : (m : ℚ) < 2 ^ 53 + 1 := by linarith [(abs_le.1 hhalf).1]
    exact Nat.lt_succ_iff.1 (by exact_mod_cast hmlt)
  have hnearest : Nearest (num / den) ((m : ℤ) * gap s) := by
    refine nearest_of_grid ?_ ?_ ?_ ?_
    · rw [Nat.abs_cast]
      exact_mod_cast hmle
    · exact_mod_cast hhalf
    · exact_mod_cast heven
    · refine hlow.imp id fun hle => ?_
      have hle' : (2 : ℚ) ^ (s + 52) ≤ num / den / gap 0 := le_trans (by exact_mod_cast hle) hge
      rw [le_div_iff₀ (gap_pos 0), pow_add, mul_comm (2 ^ s), mul_assoc, ← hgap] at hle'
      exact hle'
  refine ⟨m * 2 ^ s, ?_, fun hfinite => ?_, fun hlarge => ?_⟩
  · rw [hgap] at hnearest
    push_cast at hnearest ⊢
    rwa [mul_assoc]
  · subst hm hs
    exact if_pos hfinite
  · subst hm hs
    exact if_neg (Nat.not_lt.2 hlarge)

/-- **Every number has a nearest value.** -/
theorem exists_nearest (v : ℚ) : ∃ x, Nearest v x := by
  have hmagnitude : ∃ x, Nearest |v| x := by
    obtain ⟨u, hu, -⟩ := nearest_roundUnits v.num.natAbs v.den_pos
    rw [Nat.cast_natAbs, Int.cast_abs, ← Nat.abs_cast v.den, ← abs_div, Rat.num_div_den] at hu
    exact ⟨_, hu⟩
  obtain ⟨x, hx⟩ := hmagnitude
  rcases abs_choice v with h | h
  · exact ⟨x, h ▸ hx⟩
  · rw [h] at hx
    exact ⟨-x, neg_neg v ▸ hx.neg⟩

/-- **A whole number is rounded to a whole number**, up to the greatest finite value. -/
theorem exists_rounds_intCast {n : ℤ} (h : |(n : ℚ)| ≤ maxFinite) : ∃ m : ℤ, Rounds n m := by
  rcases le_total |n| (2 ^ 53) with hle | hge
  · exact ⟨n, (Nearest.refl (isValue_intCast hle)).rounds h⟩
  · obtain ⟨x, hx⟩ := exists_nearest n
    have hlarge : (2 : ℚ) ^ 53 ≤ |(n : ℚ)| := by exact_mod_cast hge
    obtain ⟨m, rfl⟩ := hx.isValue.exists_int (hx.le_abs (isValue_two_pow 53) hlarge)
    exact ⟨m, hx.rounds h⟩

/-! ### Answers that may be missing -/

/-- What a rounding that counts units is to answer: the units of the nearest value, if that is
finite. -/
def Counts (v : ℚ) : Option ℕ → Prop
  | some u => Rounds v (u * gap 0)
  | none => ∀ x, ¬Rounds v x

theorem abs_units_lt_iff : |(u : ℚ) * gap 0| < 2 ^ 1024 ↔ u < infinity := by
  have hgap := gap_pos 0
  have habs : |(u : ℚ) * gap 0| = u * gap 0 := abs_of_nonneg (by positivity)
  rw [habs, ← infinity_mul_gap, mul_lt_mul_iff_left₀ hgap, Nat.cast_lt]

/-- **Rounding by quotients gives the nearest value.** -/
theorem counts_roundUnits? (num : ℕ) (hden : 0 < den) :
    Counts (num / den) (roundUnits? num den) := by
  obtain ⟨u, hu, hfinite, hlarge⟩ := nearest_roundUnits num hden
  rcases Nat.lt_or_ge u infinity with hlt | hge
  · rw [hfinite hlt]
    exact ⟨hu, abs_units_lt_iff.2 hlt⟩
  · rw [hlarge hge]
    intro x hx
    rw [hx.1.unique hu] at hx
    exact absurd (abs_units_lt_iff.1 hx.2) (Nat.not_lt.2 hge)

/-- Half a unit and less is rounded to nothing. -/
theorem counts_zero (hnonneg : 0 ≤ v) (h : v * 2 ^ 1075 ≤ 1) : Counts v (some 0) := by
  have hgap := gap_pos 0
  have hunits : 2 ^ 1074 * gap 0 = 1 := by rw [← gap_add, zero_add, gap_one]
  have hquotient : v / gap 0 ≤ 1 / 2 := by
    rw [pow_succ, ← mul_assoc] at h
    rw [div_le_iff₀ hgap]
    have hle := mul_le_mul_of_nonneg_right h hgap.le
    rw [mul_right_comm, mul_assoc v, hunits, mul_one, one_mul] at hle
    linarith only [hle]
  have hnearest : Nearest v ((0 : ℤ) * gap 0) := by
    refine nearest_of_grid (by norm_num) ?_ (fun _ => Even.zero) (Or.inl rfl)
    rw [Int.cast_zero, sub_zero, abs_of_nonneg (div_nonneg hnonneg hgap.le)]
    exact hquotient
  refine ⟨by exact_mod_cast hnearest, ?_⟩
  rw [Nat.cast_zero, zero_mul, abs_zero]
  exact pow_pos two_pos 1024

end Binary64

end Automata
