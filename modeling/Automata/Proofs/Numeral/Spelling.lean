import Mathlib.Tactic.FieldSimp
import Mathlib.Tactic.IntervalCases
import Mathlib.Tactic.Ring
import Automata.Numeral.Spelling

/-!
# Reading a numeral undoes writing it

* `ofDigitChars_map_digitChar`, `positional_append`: the value of a run of digits.
* `splitSign_text`, `splitDigits_text`, `splitFraction_text`, `exponent?_text`: each part of a text
  is read as it is written, when what follows cannot be taken for more of it.
* `parse?_text`: **a written numeral is read**, and `value_numeral`: with its exact value.
* `exists_spelling`: **what is read is a written numeral.**
* `exists_spelling_of_integer?`: so is what is read of a sign and digits only.
-/

namespace Automata.Numeral

variable {digits : List (Fin 10)} {sign : Sign} {text rest : List Char} {c : Char} {n : ℤ}

/-! ### Digits -/

theorem isDigit_digitChar (d : Fin 10) : (digitChar d).isDigit = true := by
  revert d; decide

theorem toNat_digitChar (d : Fin 10) : (digitChar d).toNat - '0'.toNat = d := by
  revert d; decide

theorem exists_digitChar (h : c.isDigit = true) : ∃ d : Fin 10, digitChar d = c := by
  simp only [Char.isDigit, Bool.and_eq_true, decide_eq_true_eq] at h
  obtain ⟨hlo, hhi⟩ := h
  have hlo : 48 ≤ c.toNat := hlo
  have hhi : c.toNat ≤ 57 := hhi
  have hchar : ∀ k, 48 ≤ k → k ≤ 57 → Nat.digitChar (k - 48) = Char.ofNat k := by
    intro k hlo hhi
    interval_cases k <;> rfl
  exact ⟨⟨c.toNat - 48, by omega⟩, (hchar _ hlo hhi).trans (Char.ofNat_toNat c)⟩

theorem exists_map_digitChar {l : List Char} (h : ∀ c ∈ l, c.isDigit = true) :
    ∃ digits : List (Fin 10), digits.map digitChar = l := by
  induction l with
  | nil => exact ⟨[], rfl⟩
  | cons c l ih =>
    obtain ⟨d, rfl⟩ := exists_digitChar (h c List.mem_cons_self)
    obtain ⟨digits, rfl⟩ := ih fun c hc => h c (List.mem_cons_of_mem _ hc)
    exact ⟨d :: digits, rfl⟩

/-- **Digits are read as they are written.** -/
theorem ofDigitChars_map_digitChar (digits : List (Fin 10)) :
    Nat.ofDigitChars 10 (digits.map digitChar) 0 = positional digits := by
  unfold Nat.ofDigitChars positional
  rw [List.foldl_map, Nat.ofDigits_eq_foldr, List.foldr_map, List.foldr_reverse]
  refine congrArg (fun f => List.foldl f 0 digits) (funext fun n => funext fun d => ?_)
  rw [toNat_digitChar]
  exact Nat.add_comm _ _

theorem positional_append (a b : List (Fin 10)) :
    positional (a ++ b) = positional a * 10 ^ b.length + positional b := by
  unfold positional
  rw [List.reverse_append, List.map_append, Nat.ofDigits_append, List.length_map,
    List.length_reverse, Nat.add_comm, Nat.mul_comm]

/-! ### The parts of a text -/

theorem signed_eq_factor (sign : Sign) (k : ℕ) : signed sign.negative k = sign.factor * k := by
  cases sign <;> simp [signed, Sign.negative, Sign.factor]

/-- Digits and a point are not taken for a sign. -/
theorem splitSign_text (sign : Sign) (h : ∀ c ∈ rest.head?, c ≠ '-' ∧ c ≠ '+') :
    splitSign (sign.text ++ rest) = (sign.negative, rest) := by
  cases sign with
  | plus => rfl
  | minus => rfl
  | absent =>
    cases rest with
    | nil => rfl
    | cons c rest =>
      obtain ⟨hminus, hplus⟩ := h c rfl
      unfold splitSign Sign.text Sign.negative
      split
      · next he => exact absurd (List.cons.inj he).1 hminus
      · next he => exact absurd (List.cons.inj he).1 hplus
      · rfl

theorem splitDigits_text (digits : List (Fin 10)) (h : ∀ c ∈ rest.head?, c.isDigit = false) :
    splitDigits (digits.map digitChar ++ rest) = (digits.map digitChar, rest) := by
  have hall : ∀ c ∈ digits.map digitChar, c.isDigit = true := by
    intro c hc
    obtain ⟨d, -, rfl⟩ := List.mem_map.1 hc
    exact isDigit_digitChar d
  have hstop : rest.takeWhile Char.isDigit = [] ∧ rest.dropWhile Char.isDigit = rest := by
    cases rest with
    | nil => exact ⟨rfl, rfl⟩
    | cons c rest =>
      have hc := h c rfl
      exact ⟨List.takeWhile_cons_of_neg (by simp [hc]), List.dropWhile_cons_of_neg (by simp [hc])⟩
  rw [splitDigits, List.span_eq_takeWhile_dropWhile, List.takeWhile_append_of_pos hall,
    List.dropWhile_append_of_pos hall, hstop.1, hstop.2, List.append_nil]

/-- The first character of digits that something follows. -/
theorem head?_digits {P : Char → Prop} (hdigit : ∀ d, P (digitChar d))
    (hrest : ∀ c ∈ rest.head?, P c) :
    ∀ c ∈ (digits.map digitChar ++ rest).head?, P c := by
  cases digits with
  | nil => exact hrest
  | cons d digits =>
    intro c hc
    obtain rfl := Option.mem_some_iff.1 hc
    exact hdigit d

theorem digitChar_ne_sign (d : Fin 10) : digitChar d ≠ '-' ∧ digitChar d ≠ '+' := by
  revert d; decide

/-- A sign and digits, with nothing left over. -/
theorem integer?_of_split {negative : Bool} {l : List Char}
    (hsign : splitSign text = (negative, rest)) (hdigits : splitDigits rest = (l, []))
    (h : l ≠ []) : integer? text = some (signed negative (Nat.ofDigitChars 10 l 0)) := by
  obtain ⟨c, l, rfl⟩ := List.exists_cons_of_ne_nil h
  unfold integer?
  rw [hsign]
  dsimp only
  rw [hdigits]

/-- Nothing else is read. -/
theorem split_of_integer? (h : integer? text = some n) :
    (splitDigits (splitSign text).2).1 ≠ [] ∧ (splitDigits (splitSign text).2).2 = [] ∧
      n = signed (splitSign text).1 (Nat.ofDigitChars 10 (splitDigits (splitSign text).2).1 0) := by
  unfold integer? at h
  dsimp only at h
  split at h
  · next he =>
    rw [he]
    exact ⟨List.cons_ne_nil _ _, rfl, (Option.some.inj h).symm⟩
  · exact absurd h (by simp)

theorem integer?_text (sign : Sign) (h : digits ≠ []) :
    integer? (sign.text ++ digits.map digitChar) = some (sign.factor * positional digits) := by
  have hsign : splitSign (sign.text ++ digits.map digitChar) =
      (sign.negative, digits.map digitChar) := by
    refine splitSign_text sign ?_
    have hhead : ∀ c ∈ (digits.map digitChar ++ []).head?, c ≠ '-' ∧ c ≠ '+' :=
      head?_digits digitChar_ne_sign (by simp)
    rwa [List.append_nil] at hhead
  have hdigits : splitDigits (digits.map digitChar) = (digits.map digitChar, []) := by
    have hsplit : splitDigits (digits.map digitChar ++ []) = (digits.map digitChar, []) :=
      splitDigits_text digits (by simp)
    rwa [List.append_nil] at hsplit
  rw [integer?_of_split hsign hdigits (by simpa using h), ofDigitChars_map_digitChar, signed_eq_factor]

theorem splitFraction_text (fraction : Option (List (Fin 10)))
    (h : ∀ c ∈ rest.head?, c.isDigit = false ∧ c ≠ '.') :
    splitFraction (Spelling.fractionText fraction ++ rest) =
      ((fraction.getD []).map digitChar, rest) := by
  cases fraction with
  | some digits => exact splitDigits_text digits fun c hc => (h c hc).1
  | none =>
    cases rest with
    | nil => rfl
    | cons c rest =>
      unfold splitFraction Spelling.fractionText
      split
      · next he => exact absurd (List.cons.inj he).1 (h c rfl).2
      · rfl

theorem exponent?_text (e : Option Exponent) :
    exponent? (Spelling.exponentText e) = some ((e.map Exponent.value).getD 0) := by
  cases e with
  | none => rfl
  | some e =>
    have hmark : e.mark = 'e' ∨ e.mark = 'E' := by
      unfold Exponent.mark
      cases e.capital
      · exact Or.inl rfl
      · exact Or.inr rfl
    have hread : exponent? e.text = if e.mark = 'e' ∨ e.mark = 'E' then
        integer? (e.sign.text ++ e.digits.map digitChar) else none := rfl
    rw [Spelling.exponentText, hread, if_pos hmark, integer?_text e.sign e.digits_ne_nil]
    rfl

/-! ### Whole numerals -/

/-- What an exponent begins with is neither a digit nor a point nor a sign. -/
theorem head?_exponentText (e : Option Exponent) :
    ∀ c ∈ (Spelling.exponentText e).head?,
      c.isDigit = false ∧ c ≠ '.' ∧ c ≠ '-' ∧ c ≠ '+' := by
  cases e with
  | none => simp [Spelling.exponentText]
  | some e =>
    intro c hc
    obtain rfl := Option.mem_some_iff.1 hc
    unfold Exponent.mark
    cases e.capital <;> decide

/-- What follows the digits before the point is not one of them. -/
theorem head?_fractionText (fraction : Option (List (Fin 10))) (e : Option Exponent) :
    ∀ c ∈ (Spelling.fractionText fraction ++ Spelling.exponentText e).head?,
      c.isDigit = false ∧ c ≠ '-' ∧ c ≠ '+' := by
  cases fraction with
  | none => exact fun c hc => ⟨(head?_exponentText e c hc).1, (head?_exponentText e c hc).2.2⟩
  | some digits =>
    intro c hc
    obtain rfl := Option.mem_some_iff.1 hc
    decide

/-- **A written numeral is read.** -/
theorem parse?_text (s : Spelling) : parse? s.text = some s.numeral := by
  have hsign : splitSign s.text = (s.sign.negative, s.whole.map digitChar ++
      (Spelling.fractionText s.fraction ++ Spelling.exponentText s.exponent)) :=
    splitSign_text s.sign (head?_digits digitChar_ne_sign fun c hc =>
      (head?_fractionText s.fraction s.exponent c hc).2)
  have hwhole := splitDigits_text s.whole fun c hc =>
    (head?_fractionText s.fraction s.exponent c hc).1
  have hfraction := splitFraction_text s.fraction fun c hc =>
    ⟨(head?_exponentText s.exponent c hc).1, (head?_exponentText s.exponent c hc).2.1⟩
  have hsome : ¬ ((s.whole.map digitChar).isEmpty &&
      ((s.fraction.getD []).map digitChar).isEmpty) = true := by
    intro hempty
    rw [Bool.and_eq_true, List.isEmpty_iff, List.isEmpty_iff, List.map_eq_nil_iff,
      List.map_eq_nil_iff] at hempty
    exact s.digits_ne_nil (List.append_eq_nil_iff.2 hempty)
  unfold parse?
  simp only [hsign, hwhole, hfraction]
  rw [if_neg hsome, exponent?_text, Option.map_some, ← List.map_append, ofDigitChars_map_digitChar,
    List.length_map]
  rfl

/-- **It is read with its exact value.** -/
theorem value_numeral (s : Spelling) : s.numeral.value = s.value := by
  have hten : (10 : ℚ) ≠ 0 := by norm_num
  have hmagnitude : s.numeral.magnitude =
      (positional s.whole + positional s.decimals / 10 ^ s.decimals.length) * 10 ^ s.power := by
    unfold magnitude Spelling.numeral
    rw [positional_append, zpow_sub₀ hten, zpow_natCast]
    push_cast
    field_simp
  have hsign : s.numeral.value = s.sign.factor * s.numeral.magnitude := by
    unfold value Spelling.numeral
    cases s.sign <;> simp [Sign.negative, Sign.factor]
  rw [hsign, hmagnitude, Spelling.value, mul_assoc]

/-- Texts of the same characters have the same value. -/
theorem value_eq_of_text_eq {s s' : Spelling} (h : s.text = s'.text) : s.value = s'.value := by
  have hnumeral : some s.numeral = some s'.numeral := by rw [← parse?_text, ← parse?_text, h]
  rw [← value_numeral, ← value_numeral, Option.some.inj hnumeral]

/-! ### What is read is written -/

theorem exists_sign (text : List Char) :
    ∃ sign : Sign, (splitSign text).1 = sign.negative ∧ text = sign.text ++ (splitSign text).2 := by
  unfold splitSign
  split
  · exact ⟨.minus, rfl, rfl⟩
  · exact ⟨.plus, rfl, rfl⟩
  · exact ⟨.absent, rfl, rfl⟩

theorem exists_digits (text : List Char) : ∃ digits : List (Fin 10),
    (splitDigits text).1 = digits.map digitChar ∧
      text = digits.map digitChar ++ (splitDigits text).2 := by
  have hall : ∀ c ∈ (splitDigits text).1, c.isDigit = true := by
    rw [splitDigits, List.span_eq_takeWhile_dropWhile]
    exact List.all_eq_true.1 List.all_takeWhile
  obtain ⟨digits, hdigits⟩ := exists_map_digitChar hall
  refine ⟨digits, hdigits.symm, ?_⟩
  rw [hdigits, splitDigits, List.span_eq_takeWhile_dropWhile]
  exact List.takeWhile_append_dropWhile.symm

theorem exists_fraction (text : List Char) : ∃ fraction : Option (List (Fin 10)),
    (splitFraction text).1 = (fraction.getD []).map digitChar ∧
      text = Spelling.fractionText fraction ++ (splitFraction text).2 := by
  unfold splitFraction
  split
  · next text =>
    obtain ⟨digits, hfirst, hall⟩ := exists_digits text
    exact ⟨some digits, hfirst, congrArg (List.cons '.') hall⟩
  · exact ⟨none, rfl, rfl⟩

/-- What `integer?` reads is a sign and digits. -/
theorem exists_of_integer? (h : integer? text = some n) :
    ∃ (sign : Sign) (digits : List (Fin 10)), digits ≠ [] ∧
      text = sign.text ++ digits.map digitChar := by
  obtain ⟨hne, hrest, -⟩ := split_of_integer? h
  obtain ⟨sign, -, htext⟩ := exists_sign text
  obtain ⟨digits, hfirst, hall⟩ := exists_digits (splitSign text).2
  refine ⟨sign, digits, ?_, ?_⟩
  · rintro rfl
    exact hne hfirst
  · rwa [hall, hrest, List.append_nil] at htext

theorem exists_exponent {k : ℤ} (h : exponent? text = some k) :
    ∃ e : Option Exponent, text = Spelling.exponentText e := by
  cases text with
  | nil => exact ⟨none, rfl⟩
  | cons c text =>
    have hread : exponent? (c :: text) = if c = 'e' ∨ c = 'E' then integer? text else none := rfl
    rw [hread] at h
    split at h
    · next hmark =>
      obtain ⟨sign, digits, hne, rfl⟩ := exists_of_integer? h
      rcases hmark with rfl | rfl
      · exact ⟨some { capital := false, sign, digits, digits_ne_nil := hne }, rfl⟩
      · exact ⟨some { capital := true, sign, digits, digits_ne_nil := hne }, rfl⟩
    · exact absurd h (by simp)

/-- **What is read is a written numeral.** -/
theorem exists_spelling {q : Numeral} (h : parse? text = some q) :
    ∃ s : Spelling, s.text = text ∧ s.numeral = q := by
  obtain ⟨sign, -, htext⟩ := exists_sign text
  obtain ⟨whole, hwhole, hrest⟩ := exists_digits (splitSign text).2
  obtain ⟨fraction, hfraction, hlast⟩ := exists_fraction (splitDigits (splitSign text).2).2
  have hread := h
  unfold parse? at hread
  dsimp only at hread
  split at hread
  · exact absurd hread (by simp)
  next hsome =>
  obtain ⟨k, hk, -⟩ := Option.map_eq_some_iff.1 hread
  obtain ⟨exponent, hexponent⟩ := exists_exponent hk
  have hne : whole ++ fraction.getD [] ≠ [] := by
    intro hnil
    rw [hwhole, hfraction, Bool.and_eq_true, List.isEmpty_iff, List.isEmpty_iff,
      List.map_eq_nil_iff, List.map_eq_nil_iff] at hsome
    exact hsome (List.append_eq_nil_iff.1 hnil)
  refine ⟨{ sign, whole, fraction, exponent, digits_ne_nil := hne }, ?_, ?_⟩
  · rw [Spelling.text, ← hexponent, ← hlast, ← hrest, ← htext]
  · -- the text decides what is read
    rw [← Option.some_inj, ← parse?_text, ← h, Spelling.text, ← hexponent, ← hlast, ← hrest,
      ← htext]

/-- **A sign and digits are a written numeral** of the same value. -/
theorem exists_spelling_of_integer? (h : integer? text = some n) :
    ∃ s : Spelling, s.text = text ∧ s.value = n := by
  obtain ⟨sign, digits, hne, rfl⟩ := exists_of_integer? h
  rw [integer?_text sign hne] at h
  refine ⟨{ sign, whole := digits, fraction := none, exponent := none, digits_ne_nil := ?_ },
    ?_, ?_⟩
  · rwa [Option.getD_none, List.append_nil]
  · simp [Spelling.text, Spelling.fractionText, Spelling.exponentText]
  · rw [← Option.some.inj h]
    simp [Spelling.value, Spelling.decimals, Spelling.power, positional]

end Automata.Numeral
