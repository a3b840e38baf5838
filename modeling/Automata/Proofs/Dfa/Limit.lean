import Automata.Proofs.Dfa.Subset
import Automata.Proofs.Expression.Language
import Automata.Proofs.Search.Discovery

/-!
# The limit to the number of states

A construction with a limit stops when it meets one label too many. Up to there it does not differ
from the construction without a limit, and it meets one too many if and only if there is one.

* `InArena.toDfaWithin_eq`: **a limit is exceeded by automata with more states, and makes no
  difference to all others.**
* `Expression.limit_exact`: in particular, no automaton has no states.
-/

namespace Automata

open Search

namespace Nfa.InArena

variable {g : Nfa}

/-- **One label too many is met** if and only if the automaton has more states than the limit. -/
theorem overflow_subsets_iff (hg : g.InArena) (limit : Nat) :
    ((Table.ofNfa g).subsets g.alphabet (some limit)).overflow = true ↔
      limit < g.toDfa.states.size := by
  have hsize : g.toDfa.states.size = ((Table.ofNfa g).subsets g.alphabet none).found.size :=
    Dfa.size_states_ofExploration
  rw [hsize]
  exact overflow_explore_iff hg.overflow_subsets

/-- A limit that is kept makes no difference to what is found. -/
theorem subsets_some_of_le (hg : g.InArena) {limit : Nat} (hle : g.toDfa.states.size ≤ limit) :
    (Table.ofNfa g).subsets g.alphabet (some limit) = (Table.ofNfa g).subsets g.alphabet none := by
  refine explore_congr_bound ?_ hg.overflow_subsets
  rw [← Bool.not_eq_true]
  exact fun ho => absurd ((hg.overflow_subsets_iff limit).1 ho) (Nat.not_lt.2 hle)

/-- **A limit that is kept makes no difference**, and any other is reported. -/
theorem toDfaWithin_eq (hg : g.InArena) (limit : Nat) :
    g.toDfaWithin limit =
      if g.toDfa.states.size ≤ limit then .ok g.toDfa else .error (.stateLimitExceeded limit) := by
  unfold Nfa.toDfaWithin Dfa.ofTableWithin Dfa.ofSubsets
  by_cases hle : g.toDfa.states.size ≤ limit
  · rw [if_pos hle, hg.subsets_some_of_le hle, hg.overflow_subsets]
    rfl
  · have ho := (hg.overflow_subsets_iff limit).2 (Nat.not_le.1 hle)
    rw [if_neg hle, ho]

end Nfa.InArena

namespace Expression

/-- **The limit is exact.** The construction with a limit gives the automaton of the construction
without one if that has no more states than the limit, and otherwise the error that names the limit.
The limit 0 is always exceeded, since the start state counts as well. -/
theorem limit_exact (e : Expression) (limit : Nat) :
    (e.nfa.toDfaWithin limit =
      if e.nfa.toDfa.states.size ≤ limit then .ok e.nfa.toDfa
      else .error (.stateLimitExceeded limit)) ∧
    e.nfa.toDfaWithin 0 = .error (.stateLimitExceeded 0) := by
  have hg : e.nfa.InArena := e.wellFormed_nfa.toInArena
  have hpos : 0 < e.nfa.toDfa.states.size := hg.label_toDfa_zero.1
  refine ⟨hg.toDfaWithin_eq limit, ?_⟩
  rw [hg.toDfaWithin_eq 0, if_neg (Nat.not_le.2 hpos)]

end Expression

end Automata
