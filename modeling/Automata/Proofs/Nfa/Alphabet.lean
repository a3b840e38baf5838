import Automata.Proofs.Expression.Language
import Automata.Proofs.Nfa.Reachable
import Automata.Proofs.Nfa.Search

/-!
# The alphabets of combinations

The alphabet holds the symbols on edges of reachable states. All edges on symbols are those of the
operands, so the alphabet of a combination is told by which of their states are reachable.

* `WellFormed.mem_alphabet_iff`: the alphabet in terms of edges.
* `mem_alphabet_concatPair`, `alphabet_unionPair`, `alphabet_star`: **the symbols of the operands,
  but of the second operand of a concatenation only if it is entered at all.**
* `alphabet_addEpsilon`: a further edge brings no symbol if nothing new can be read behind it.
* `Expression.alphabet_combination`: the alphabets of all combinations, where it is said by words
  that are accepted whether the second operand of a concatenation is entered.
-/

namespace Automata

namespace Nfa

variable {g a b : Nfa} {s t u v : Nat} {c : Char}

/-- **The alphabet** holds the symbols on edges of reachable states. -/
theorem WellFormed.mem_alphabet_iff (hg : g.WellFormed) :
    c ∈ g.alphabet ↔ ∃ s t, g.Reachable s ∧ g.Edge s (some c) t := by
  rw [hg.toInArena.mem_alphabet_iff]
  refine exists_congr fun s => ?_
  rw [(hg.tidy.proper s).mem_edges_iff]
  exact exists_and_left.symm

/-! ### Edges on symbols -/

theorem edge_concatPair_symbol (ha : a.WellFormed) (hb : b.WellFormed) :
    (a.concatPair b).Edge s (some c) t ↔
      a.Edge s (some c) t ∨ ∃ i j, s = i + a.size ∧ t = j + a.size ∧ b.Edge i (some c) j := by
  rw [edge_concatPair ha.final_lt hb.final_lt]
  simp only [reduceCtorEq, false_and, and_false, or_false]

theorem edge_unionPair_symbol (ha : a.WellFormed) (hb : b.WellFormed) :
    (a.unionPair b).Edge s (some c) t ↔
      a.Edge s (some c) t ∨ ∃ i j, s = i + a.size ∧ t = j + a.size ∧ b.Edge i (some c) j := by
  rw [edge_unionPair ha.final_lt hb.final_lt]
  simp only [reduceCtorEq, false_and, and_false, or_false]

theorem edge_star_symbol (ha : a.WellFormed) :
    a.star.Edge s (some c) t ↔ a.Edge s (some c) t := by
  rw [edge_star ha.final_lt]
  simp only [reduceCtorEq, false_and, and_false, or_false]

theorem edge_addEpsilon_symbol (hu : u < g.size) :
    (g.addEpsilon u v).Edge s (some c) t ↔ g.Edge s (some c) t := by
  rw [edge_addEpsilon hu]
  simp only [reduceCtorEq, false_and, and_false, or_false]

/-! ### Combinations -/

theorem not_mem_alphabet_epsilon : c ∉ epsilon.alphabet := by
  rw [wellFormed_epsilon.mem_alphabet_iff]
  rintro ⟨s, t, -, he⟩
  exact absurd (edge_epsilon.1 he).2.1 (by simp)

/-- **The alphabet of a concatenation.** The symbols of the second operand are read only if the
first one can be left. -/
theorem mem_alphabet_concatPair (ha : a.WellFormed) (hb : b.WellFormed) :
    c ∈ (a.concatPair b).alphabet ↔
      c ∈ a.alphabet ∨ a.Reachable a.final ∧ c ∈ b.alphabet := by
  rw [(wellFormed_concatPair ha hb).mem_alphabet_iff, ha.mem_alphabet_iff, hb.mem_alphabet_iff]
  refine ⟨?_, ?_⟩
  · rintro ⟨s, t, hs, hedge⟩
    rcases (edge_concatPair_symbol ha hb).1 hedge with he | ⟨i, j, rfl, rfl, he⟩
    · exact Or.inl ⟨s, t, (reachable_concatPair_left_iff ha hb he.source_lt).1 hs, he⟩
    · obtain ⟨hf, hi⟩ := (reachable_concatPair_right_iff ha hb).1 hs
      exact Or.inr ⟨hf, i, j, hi, he⟩
  · rintro (⟨s, t, hs, he⟩ | ⟨hf, i, j, hi, he⟩)
    · exact ⟨s, t, hs.concatPair_left ha hb, (edge_concatPair_symbol ha hb).2 (Or.inl he)⟩
    · exact ⟨i + a.size, j + a.size, hi.concatPair_right ha hb hf,
        (edge_concatPair_symbol ha hb).2 (Or.inr ⟨i, j, rfl, rfl, he⟩)⟩

/-- **The alphabet of a union** is the union of the alphabets. -/
theorem alphabet_unionPair (ha : a.WellFormed) (hb : b.WellFormed) :
    (a.unionPair b).alphabet = a.alphabet ∪ b.alphabet := by
  apply Std.ExtTreeSet.ext_mem
  intro c
  rw [Std.ExtTreeSet.mem_union_iff, (wellFormed_unionPair ha hb).mem_alphabet_iff,
    ha.mem_alphabet_iff, hb.mem_alphabet_iff]
  refine ⟨?_, ?_⟩
  · rintro ⟨s, t, hs, hedge⟩
    rcases (edge_unionPair_symbol ha hb).1 hedge with he | ⟨i, j, rfl, rfl, he⟩
    · exact Or.inl ⟨s, t, (reachable_unionPair_left_iff ha hb he.source_lt).1 hs, he⟩
    · exact Or.inr ⟨i, j, (reachable_unionPair_right_iff ha hb he.source_lt).1 hs, he⟩
  · rintro (⟨s, t, hs, he⟩ | ⟨i, j, hi, he⟩)
    · exact ⟨s, t, hs.unionPair_left ha hb, (edge_unionPair_symbol ha hb).2 (Or.inl he)⟩
    · exact ⟨i + a.size, j + a.size, hi.unionPair_right ha hb,
        (edge_unionPair_symbol ha hb).2 (Or.inr ⟨i, j, rfl, rfl, he⟩)⟩

/-- **A repetition** reads the symbols of its operand. -/
theorem alphabet_star (ha : a.WellFormed) : a.star.alphabet = a.alphabet := by
  apply Std.ExtTreeSet.ext_mem
  intro c
  rw [(wellFormed_star ha).mem_alphabet_iff, ha.mem_alphabet_iff]
  refine exists_congr fun s => exists_congr fun t => ?_
  rw [edge_star_symbol ha]
  exact and_congr_left fun he => reachable_star_iff ha he.source_lt

theorem alphabet_plus (ha : a.WellFormed) : a.plus.alphabet = a.alphabet := by
  apply Std.ExtTreeSet.ext_mem
  intro c
  rw [plus, mem_alphabet_concatPair ha (wellFormed_star ha), alphabet_star ha]
  exact or_iff_left_of_imp And.right

theorem alphabet_optional (ha : a.WellFormed) : a.optional.alphabet = a.alphabet := by
  apply Std.ExtTreeSet.ext_mem
  intro c
  rw [optional, alphabet_unionPair ha wellFormed_epsilon, Std.ExtTreeSet.mem_union_iff]
  exact or_iff_left not_mem_alphabet_epsilon

/-! ### Compact combinations -/

/-- **A further edge on the empty word** brings no symbol into the alphabet if what can be read
behind it is read from states that are reachable without it. -/
theorem alphabet_addEpsilon (hg : g.WellFormed) (hu : u < g.size) (hv : v < g.size)
    (h : ∀ w s c t, g.Path v w s → g.Edge s (some c) t → g.Reachable s) :
    (g.addEpsilon u v).alphabet = g.alphabet := by
  apply Std.ExtTreeSet.ext_mem
  intro c
  rw [(wellFormed_addEpsilon hg hu hv).mem_alphabet_iff, hg.mem_alphabet_iff]
  refine exists_congr fun s => exists_congr fun t => ?_
  rw [edge_addEpsilon_symbol hu, reachable_addEpsilon_iff hu]
  refine and_congr_left fun he => or_iff_left_of_imp ?_
  rintro ⟨-, w, hp⟩
  exact h w s c t hp he

theorem alphabet_compactPlus (ha : a.WellFormed) : a.compactPlus.alphabet = a.alphabet :=
  alphabet_addEpsilon ha ha.final_lt ha.start_lt fun w _ _ _ hp _ => ⟨w, hp⟩

/-- Nothing is read behind a final state that cannot be left. -/
theorem alphabet_addEpsilon_isolated (ha : a.WellFormed) (hi : a.IsolatedEnds) :
    (a.addEpsilon a.start a.final).alphabet = a.alphabet := by
  refine alphabet_addEpsilon ha ha.start_lt ha.final_lt fun w s c t hp he => ?_
  cases hp with
  | nil => exact absurd he hi.not_edge_final
  | epsilon he' _ => exact absurd (edge_none.2 he') hi.not_edge_final
  | symbol he' _ => exact absurd (edge_some.2 he') hi.not_edge_final

theorem alphabet_compactStar (ha : a.WellFormed) : a.compactStar.alphabet = a.alphabet := by
  unfold compactStar
  split
  · next hi =>
    -- the option first, then its repetition
    have hw := wellFormed_addEpsilon ha ha.start_lt ha.final_lt
    have h := alphabet_compactPlus hw
    rw [alphabet_addEpsilon_isolated ha hi] at h
    exact h
  · exact alphabet_star ha

theorem alphabet_compactOptional (ha : a.WellFormed) :
    a.compactOptional.alphabet = a.alphabet := by
  unfold compactOptional
  split
  · next hi => exact alphabet_addEpsilon_isolated ha hi
  · exact alphabet_optional ha

end Nfa

namespace Expression

open scoped Classical in
/-- **The alphabets of combinations.** A union reads the symbols of both operands. A concatenation
does so if the first operand accepts some word, and otherwise reads those of the first operand only.
Repetitions and options, plain or compact, read the symbols of their operand. -/
theorem alphabet_combination (a b : Expression) :
    (unionPair a b).nfa.alphabet = a.nfa.alphabet ∪ b.nfa.alphabet ∧
    (concatPair a b).nfa.alphabet =
      (if ∃ w, a.nfa.accepts w = true then a.nfa.alphabet ∪ b.nfa.alphabet
        else a.nfa.alphabet) ∧
    (star a).nfa.alphabet = a.nfa.alphabet ∧
    (plus a).nfa.alphabet = a.nfa.alphabet ∧
    (optional a).nfa.alphabet = a.nfa.alphabet ∧
    (compactStar a).nfa.alphabet = a.nfa.alphabet ∧
    (compactPlus a).nfa.alphabet = a.nfa.alphabet ∧
    (compactOptional a).nfa.alphabet = a.nfa.alphabet := by
  have ha := a.wellFormed_nfa
  have hb := b.wellFormed_nfa
  refine ⟨Nfa.alphabet_unionPair ha hb, ?_, Nfa.alphabet_star ha, Nfa.alphabet_plus ha,
    Nfa.alphabet_optional ha, Nfa.alphabet_compactStar ha, Nfa.alphabet_compactPlus ha,
    Nfa.alphabet_compactOptional ha⟩
  apply Std.ExtTreeSet.ext_mem
  intro c
  rw [nfa, Nfa.mem_alphabet_concatPair ha hb, ← ha.exists_accepts_iff]
  split
  · next h => rw [Std.ExtTreeSet.mem_union_iff, and_iff_right h]
  · next h => exact or_iff_left fun hc => h hc.1

-- nothing is read behind an operand without words
example : (concatPair (concatPair (char 'a') emptyLanguage) (char 'b')).nfa.alphabet.toList =
    ['a'] := by cbv

end Expression

end Automata
