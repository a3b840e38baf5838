import Mathlib.Tactic.TFAE
import Automata.Proofs.Dfa.Simulation
import Automata.Proofs.Dfa.WellFormed
import Automata.Proofs.Table.Renumbering

/-!
# Which automata accept some word

An automaton accepts some word if its final state is reachable. The table shows this by a number,
and the deterministic automaton by an accepting state. Its states are found one after another, each
from one found before, so a state is never far from the start.

* `InArena.exists_short_run`: **a state is the end of a run along a word that is no longer than the
  states before it are many.**
* `InArena.accepting_ne_nil_iff`: the table has an accepting number if the final state is reachable.
* `Expression.emptiness_agrees`: whether some word is accepted is told alike by all representations,
  and a short word is accepted if any is.
-/

namespace Automata

/-- An id without a state is not accepting. -/
theorem Dfa.lt_of_isAccepting {d : Dfa} {q : Nat} (h : d.isAccepting q = true) :
    q < d.states.size := by
  by_contra hq
  rw [isAccepting, Array.getElem?_eq_none (Nat.not_lt.1 hq)] at h
  exact absurd h Bool.false_ne_true

namespace Nfa.InArena

variable {g : Nfa} {q : Nat}

/-- **Every state is near the start**: some run to it is along a word of no more symbols than there
are states before it. Going back from a state to the one that it was found from, no state comes
twice. -/
theorem exists_short_run (hq : q < g.toDfa.states.size) :
    ∃ w, w.length ≤ q ∧ g.toDfa.run? w = some q := by
  induction q using Nat.strong_induction_on with
  | _ q ih =>
    rcases Nat.eq_zero_or_pos q with rfl | hpos
    · exact ⟨[], Nat.le_refl 0, rfl⟩
    · obtain ⟨p, c, hp, hc⟩ := exists_entering hpos hq
      obtain ⟨w, hlen, hw⟩ := ih p hp (Nat.lt_trans hp hq)
      refine ⟨w ++ [c], ?_, ?_⟩
      · rw [List.length_append, List.length_singleton]
        omega
      · rw [Dfa.run?_concat, hw, Option.bind_some, hc]

/-- The table has an accepting number if the final state has one. -/
theorem accepting_ne_nil_iff (hg : g.InArena) (ha : g.AcceptsAtFinal) :
    (Table.ofNfa g).accepting ≠ [] ↔ ∃ n, (Table.ofNfa g).numberOf? g.final = some n := by
  rw [hg.accepting_ofNfa ha, Ne, Option.toList_eq_nil_iff, ← Ne, Option.ne_none_iff_exists']

end Nfa.InArena

namespace Expression

/-- **Emptiness is told alike by all representations.** The automaton accepts some word if and only
if its final state has a number, the table has an accepting number, the deterministic automaton has
an accepting state, and a word of fewer symbols than that has states is accepted. -/
theorem emptiness_agrees (e : Expression) :
    [∃ w, e.nfa.accepts w = true,
      ∃ n, (Table.ofNfa e.nfa).numberOf? e.nfa.final = some n,
      (Table.ofNfa e.nfa).accepting ≠ [],
      ∃ q, e.nfa.toDfa.isAccepting q = true,
      ∃ w, w.length < e.nfa.toDfa.states.size ∧ e.nfa.accepts w = true].TFAE := by
  have hw := e.wellFormed_nfa
  have hg := hw.toInArena
  have hdfa : ∀ w, e.nfa.toDfa.accepts w = true ↔ e.nfa.accepts w = true := fun w => by
    rw [hg.accepts_toDfa_iff, hg.accepts_iff]
  tfae_have 1 ↔ 2 := by rw [hw.exists_accepts_iff, hg.exists_number_iff]
  tfae_have 3 ↔ 2 := hg.accepting_ne_nil_iff hw.acceptsAtFinal
  tfae_have 1 → 4 := by
    rintro ⟨w, h⟩
    obtain ⟨q, -, hacc⟩ := Dfa.accepts_iff.1 ((hdfa w).2 h)
    exact ⟨q, hacc⟩
  tfae_have 4 → 5 := by
    rintro ⟨q, hacc⟩
    have hq := Dfa.lt_of_isAccepting hacc
    obtain ⟨w, hlen, hrun⟩ := Nfa.InArena.exists_short_run hq
    exact ⟨w, Nat.lt_of_le_of_lt hlen hq, (hdfa w).1 (Dfa.accepts_iff.2 ⟨q, hrun, hacc⟩)⟩
  tfae_have 5 → 1 := by
    rintro ⟨w, -, h⟩
    exact ⟨w, h⟩
  tfae_finish

end Expression

end Automata
