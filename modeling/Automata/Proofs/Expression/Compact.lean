import Automata.Proofs.Expression.Language

/-!
# Compact forms are interchangeable with plain ones

An expression comes from its plain form by replacing some of the repetitions, options and ranges of
digits in it by their compact forms. Every choice of them is the choice of some expression with
that plain form.

* `plain_plain`, `plain_concat`, `plain_union`: what the plain form is.
* `language_plain`: it denotes the same language.
* `size_nfa_le`: its automaton has at least as many states.
* `compact_interchangeable`: **so compact forms may be used anywhere.**
-/

namespace Automata

theorem Nfa.WellFormed.two_le_size {g : Nfa} (h : g.WellFormed) : 2 ≤ g.size := by
  have hs := h.start_lt
  have hf := h.final_lt
  have hne := h.start_ne_final
  omega

namespace Expression

theorem plain_plain (e : Expression) : e.plain.plain = e.plain := by
  induction e with
  | concatPair a b iha ihb | unionPair a b iha ihb => simp only [plain, iha, ihb]
  | star a ih | plus a ih | optional a ih => simp only [plain, ih]
  | compactStar a ih | compactPlus a ih | compactOptional a ih => simp only [plain, ih]
  | _ => rfl

theorem plain_concat (l : List Expression) : (concat l).plain = concat (l.map plain) := by
  cases l with
  | nil => rfl
  | cons a l => exact (List.foldl_map_hom fun _ _ => rfl).symm

theorem plain_union (l : List Expression) : (union l).plain = union (l.map plain) := by
  cases l with
  | nil => rfl
  | cons a l => exact (List.foldl_map_hom fun _ _ => rfl).symm

theorem language_plain (e : Expression) : e.plain.language = e.language := by
  induction e with
  | concatPair a b iha ihb | unionPair a b iha ihb => simp only [plain, language, iha, ihb]
  | star a ih | plus a ih | optional a ih => simp only [plain, language, ih]
  | compactStar a ih | compactPlus a ih | compactOptional a ih => simp only [plain, language, ih]
  | _ => rfl

/-- **Compact forms never need more states**, on whichever way each of them is built. -/
theorem size_nfa_le (e : Expression) : e.nfa.size ≤ e.plain.nfa.size := by
  induction e with
  | compactDigitRange lo hi =>
    -- two states, and no automaton has less
    have h := (digitRange lo hi).wellFormed_nfa.two_le_size
    rw [nfa, Nfa.size_anyOf]
    exact h
  | concatPair a b iha ihb =>
    rw [plain, nfa, nfa, Nfa.size_concatPair, Nfa.size_concatPair]
    omega
  | unionPair a b iha ihb =>
    rw [plain, nfa, nfa, Nfa.size_unionPair, Nfa.size_unionPair]
    omega
  | star a ih =>
    rw [plain, nfa, nfa, Nfa.size_star, Nfa.size_star]
    omega
  | plus a ih =>
    rw [plain, nfa, nfa, Nfa.size_plus, Nfa.size_plus]
    omega
  | optional a ih =>
    rw [plain, nfa, nfa, Nfa.size_optional, Nfa.size_optional]
    omega
  | compactStar a ih =>
    have h := Nfa.size_compactStar_le (a := a.nfa)
    rw [plain, nfa, nfa, Nfa.size_star]
    omega
  | compactPlus a ih =>
    rw [plain, nfa, nfa, Nfa.size_compactPlus, Nfa.size_plus]
    omega
  | compactOptional a ih =>
    have h := Nfa.size_compactOptional_le (a := a.nfa)
    rw [plain, nfa, nfa, Nfa.size_optional]
    omega
  | _ => exact Nat.le_refl _

theorem accepts_plain (e : Expression) (w : List Char) :
    e.nfa.accepts w = e.plain.nfa.accepts w := by
  rw [Bool.eq_iff_iff, accepts_nfa_iff, accepts_nfa_iff, language_plain]

/-- **Compact forms are interchangeable with plain ones in every context**: the words accepted are
the same, and there are never more states. What has been made plain stays as it is, and of any number
of operands each is made plain. The compact range of digits is built for the same bounds as the plain
one. -/
theorem compact_interchangeable :
    (∀ e : Expression, (∀ w, e.nfa.accepts w = e.plain.nfa.accepts w) ∧
      e.nfa.size ≤ e.plain.nfa.size ∧ e.plain.plain = e.plain) ∧
    (∀ l : List Expression, (concat l).plain = concat (l.map plain) ∧
      (union l).plain = union (l.map plain)) ∧
    (∀ (lo hi : Int) (g : Nfa), Nfa.compactDigitRange lo hi = .ok g ↔
      ∃ m n : Nat, lo = m ∧ hi = n ∧ m ≤ n ∧ n ≤ 9 ∧ (compactDigitRange m n).nfa = g) :=
  ⟨fun e => ⟨e.accepts_plain, e.size_nfa_le, e.plain_plain⟩,
    fun l => ⟨plain_concat l, plain_union l⟩, fun _ _ _ => Nfa.compactDigitRange_eq_ok_iff⟩

end Expression

end Automata
