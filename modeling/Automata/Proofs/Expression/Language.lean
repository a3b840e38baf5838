import Mathlib
import Automata.Expression
import Automata.Proofs.Nfa.Accept
import Automata.Proofs.Nfa.Compact

/-!
# The automaton of an expression accepts its language

* `wellFormed_nfa`: every constructible automaton is well-formed.
* `language_nfa`: **the language of the automaton is that of the expression**, by induction on the
  expression.
* `accepts_nfa_iff`: what the automaton accepts is what the expression denotes.
* `thompson`: the same, with what it says of expressions that have any number of operands, and of
  the bounds of ranges.
-/

namespace Automata

namespace Nfa

variable {c lo hi : Char}

/-- A range of code points without those that are no symbols is a range of symbols. -/
theorem mem_symbolsBetween : c ∈ symbolsBetween lo hi ↔ lo ≤ c ∧ c ≤ hi := by
  have hle : lo ≤ c ∧ c ≤ hi ↔ lo.toNat ≤ c.toNat ∧ c.toNat ≤ hi.toNat := by
    rw [Char.le_def, Char.le_def, UInt32.le_iff_toNat_le, UInt32.le_iff_toNat_le]
    rfl
  rw [hle]
  unfold symbolsBetween
  simp only [List.mem_map, List.mem_filter, List.mem_range'_1, decide_eq_true_eq]
  refine ⟨?_, ?_⟩
  · rintro ⟨n, ⟨hn, hv⟩, rfl⟩
    rw [Char.toNat_ofNat, if_pos hv]
    omega
  · intro h
    exact ⟨c.toNat, ⟨by omega, c.valid⟩, Char.ofNat_toNat c⟩

theorem mem_digitSymbols {m n : Nat} :
    c ∈ digitSymbols m n ↔ ∃ k, m ≤ k ∧ k ≤ n ∧ c = k.digitChar := by
  unfold digitSymbols
  rw [List.mem_map]
  refine exists_congr fun k => ?_
  rw [List.mem_range'_1, ← and_assoc, eq_comm (a := c)]
  refine and_congr_left fun _ => ?_
  omega

end Nfa

namespace Expression

variable {w : List Char}

/-- **Every automaton that is built is well-formed.** -/
theorem wellFormed_nfa (e : Expression) : e.nfa.WellFormed := by
  induction e with
  | char c => exact Nfa.wellFormed_anyOf [c]
  | epsilon => exact Nfa.wellFormed_epsilon
  | emptyLanguage => exact Nfa.wellFormed_anyOf []
  | anyOf symbols => exact Nfa.wellFormed_anyOf symbols
  | charRange lo hi => exact Nfa.wellFormed_anyOf _
  | digitRange lo hi => exact Nfa.wellFormed_union (Nfa.wellFormed_chars _)
  | compactDigitRange lo hi => exact Nfa.wellFormed_anyOf _
  | concatPair a b iha ihb => exact Nfa.wellFormed_concatPair iha ihb
  | unionPair a b iha ihb => exact Nfa.wellFormed_unionPair iha ihb
  | star a ih => exact Nfa.wellFormed_star ih
  | plus a ih => exact Nfa.wellFormed_plus ih
  | optional a ih => exact Nfa.wellFormed_optional ih
  | compactStar a ih => exact Nfa.wellFormed_compactStar ih
  | compactPlus a ih => exact Nfa.wellFormed_compactPlus ih
  | compactOptional a ih => exact Nfa.wellFormed_compactOptional ih

theorem mem_digits_iff {lo hi : Nat} :
    (∃ c ∈ Nfa.digitSymbols lo hi, w = [c]) ↔ ∃ n, lo ≤ n ∧ n ≤ hi ∧ w = [n.digitChar] := by
  refine ⟨?_, ?_⟩
  · rintro ⟨c, hc, rfl⟩
    obtain ⟨n, hlo, hhi, rfl⟩ := Nfa.mem_digitSymbols.1 hc
    exact ⟨n, hlo, hhi, rfl⟩
  · rintro ⟨n, hlo, hhi, rfl⟩
    exact ⟨n.digitChar, Nfa.mem_digitSymbols.2 ⟨n, hlo, hhi, rfl⟩, rfl⟩

/-- **The language of the automaton is that of the expression.** -/
theorem language_nfa (e : Expression) : e.nfa.language = e.language := by
  induction e with
  | char c => exact Language.ext fun w => Nfa.mem_language_anyOf [c]
  | epsilon => exact Nfa.language_epsilon
  | emptyLanguage => exact Nfa.language_emptyLanguage
  | anyOf symbols => exact Language.ext fun w => Nfa.mem_language_anyOf symbols
  | charRange lo hi =>
    refine Language.ext fun w => (Nfa.mem_language_anyOf _).trans (exists_congr fun c => ?_)
    rw [Nfa.mem_symbolsBetween, and_assoc]
  | digitRange lo hi =>
    exact Language.ext fun w => Nfa.mem_language_union_chars.trans mem_digits_iff
  | compactDigitRange lo hi =>
    exact Language.ext fun w => (Nfa.mem_language_anyOf _).trans mem_digits_iff
  | concatPair a b iha ihb =>
    rw [nfa, language, Nfa.language_concatPair a.wellFormed_nfa b.wellFormed_nfa, iha, ihb]
  | unionPair a b iha ihb =>
    rw [nfa, language, Nfa.language_unionPair a.wellFormed_nfa b.wellFormed_nfa, iha, ihb]
  | star a ih => rw [nfa, language, Nfa.language_star a.wellFormed_nfa, ih]
  | plus a ih => rw [nfa, language, Nfa.language_plus a.wellFormed_nfa, ih]
  | optional a ih => rw [nfa, language, Nfa.language_optional a.wellFormed_nfa, ih]
  | compactStar a ih => rw [nfa, language, Nfa.language_compactStar a.wellFormed_nfa, ih]
  | compactPlus a ih => rw [nfa, language, Nfa.language_compactPlus a.wellFormed_nfa, ih]
  | compactOptional a ih => rw [nfa, language, Nfa.language_compactOptional a.wellFormed_nfa, ih]

/-- The automaton of an expression accepts the words that the expression denotes. -/
theorem accepts_nfa_iff (e : Expression) : e.nfa.accepts w = true ↔ w ∈ e.language := by
  rw [e.wellFormed_nfa.accepts_iff, ← language_nfa]
  exact Iff.rfl

-- the empty word is repeated inside a repetition, and the search still ends
example : (star (optional (star (char 'a')))).nfa.accepts ['a', 'b'] = false := by cbv

theorem wellFormed_map_nfa (l : List Expression) : ∀ g ∈ l.map nfa, g.WellFormed := by
  intro g hg
  obtain ⟨e, -, rfl⟩ := List.mem_map.1 hg
  exact e.wellFormed_nfa

theorem map_language_nfa (l : List Expression) : (l.map nfa).map Nfa.language = l.map language := by
  rw [List.map_map]
  exact List.map_congr_left fun e _ => e.language_nfa

theorem language_concat (l : List Expression) : (concat l).language = (l.map language).prod := by
  rw [← language_nfa, nfa_concat, Nfa.language_concat (wellFormed_map_nfa l), map_language_nfa]

theorem language_union (l : List Expression) : (union l).language = (l.map language).sum := by
  rw [← language_nfa, nfa_union, Nfa.language_union (wellFormed_map_nfa l), map_language_nfa]

/-- **Thompson's construction is correct.** The automaton of every expression accepts its language;
of any number of operands, that is the product or the sum of theirs. A range of symbols or of digits
is built for bounds in order and no others, and what is built is the automaton of the expression. -/
theorem thompson (w : List Char) :
    (∀ e : Expression, e.nfa.accepts w = true ↔ w ∈ e.language) ∧
    (∀ l : List Expression, (concat l).nfa = .concat (l.map nfa) ∧
      (concat l).language = (l.map language).prod) ∧
    (∀ l : List Expression, (union l).nfa = .union (l.map nfa) ∧
      (union l).language = (l.map language).sum) ∧
    (digitRange 0 9).nfa = .digits ∧
    (∀ (lo hi : Char) (g : Nfa),
      Nfa.charRange lo hi = .ok g ↔ lo ≤ hi ∧ (charRange lo hi).nfa = g) ∧
    (∀ (lo hi : Int) (g : Nfa), Nfa.digitRange lo hi = .ok g ↔
      ∃ m n : Nat, lo = m ∧ hi = n ∧ m ≤ n ∧ n ≤ 9 ∧ (digitRange m n).nfa = g) := by
  refine ⟨fun e => e.accepts_nfa_iff, fun l => ?_, fun l => ?_, rfl,
    fun _ _ _ => Nfa.charRange_eq_ok_iff, fun _ _ _ => Nfa.digitRange_eq_ok_iff⟩
  · exact ⟨nfa_concat l, language_concat l⟩
  · exact ⟨nfa_union l, language_union l⟩

end Expression

end Automata
