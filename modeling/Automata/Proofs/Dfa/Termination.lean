import Mathlib.Data.Set.Card
import Automata.Proofs.Dfa.WellFormed
import Automata.Proofs.Search.WorkList

/-!
# The subset construction ends

* `InArena.ncard_reachable`: the table has as many rows as there are reachable states.
* `InArena.toList_found_subsets`: what the construction finds is the labels of the states.
* `InArena.size_toDfa_lt`: **there are fewer states than sets of reachable states**, because the
  empty set is none of them.
* `Expression.construction_ends`: **the work list is worked off**, in as many turns as there are
  states.
-/

namespace Automata

open Search

namespace Nfa.InArena

variable {g : Nfa}

/-- The table numbers the reachable states, each of them once. -/
theorem ncard_reachable (hg : g.InArena) :
    { s | g.Reachable s }.ncard = (Table.ofNfa g).size := by
  have hset : { s | g.Reachable s } = (g.visitingOrder.toList.toFinset : Set Nat) := by
    ext s
    rw [Set.mem_ofPred_eq, List.coe_toFinset, Set.mem_ofPred_eq, Array.mem_toList_iff,
      hg.mem_visitingOrder_iff]
  rw [hset, Set.ncard_coe_finset, List.toFinset_card_of_nodup hg.nodup_visitingOrder,
    Array.length_toList, size_ofNfa]

/-- The labels of the states, in the order of their ids, are what the construction finds. -/
theorem toList_found_subsets :
    ((Table.ofNfa g).subsets g.alphabet none).found.toList =
      g.toDfa.states.toList.map (·.label) := by
  apply List.ext_getElem?
  intro q
  have hstate : g.toDfa.states[q]? = _ := Dfa.getElem?_states_ofExploration
  rw [List.getElem?_map, Array.getElem?_toList, Array.getElem?_toList, hstate, Option.map_map]
  exact Option.map_id'.symm

/-- **There are fewer states than sets of reachable states.** -/
theorem size_toDfa_lt (hg : g.InArena) :
    g.toDfa.states.size < 2 ^ { s | g.Reachable s }.ncard := by
  have hinv : Exploration.Invariant _ _ _ ((Table.ofNfa g).subsets g.alphabet none) :=
    invariant_explore
  have hlt := Label.length_lt_two_pow (n := (Table.ofNfa g).size) hinv.nodup ?_ ?_
  · rw [hg.ncard_reachable]
    rwa [toList_found_subsets, List.length_map, Array.length_toList] at hlt
  · intro l hl n hn
    obtain ⟨s, hs⟩ := hg.number_of_reaches (hinv.reaches l (Array.mem_toList_iff.1 hl)) n hn
    exact hg.number_mem_range' hs
  · intro l hl
    obtain ⟨q, hq⟩ := Array.mem_iff_getElem?.1 (Array.mem_toList_iff.1 hl)
    obtain ⟨hlt, rfl⟩ := getElem?_found_subsets.1 hq
    exact hg.label_ne_nil hlt

end Nfa.InArena

namespace Expression

/-- **The subset construction ends by itself.** Its loop, without any limit, comes to an end in one
way only. It has then pushed the labels of the states of the automaton, in the order of their ids
and each once, and has expanded each of them once, so it has taken as many turns as there are
states. Of `n` reachable states there are at most `2 ^ n - 1` sets that are not empty, and no more
states than that. -/
theorem construction_ends (e : Expression) :
    ∃ turns : List Label,
      (∀ pushed expanded,
        WorkList (fun l => ((Table.ofNfa e.nfa).successors e.nfa.alphabet l).toList.map (·.2))
            [] [(Table.ofNfa e.nfa).startLabel] [] pushed expanded ↔
          pushed = e.nfa.toDfa.states.toList.map (·.label) ∧ expanded = turns) ∧
      (e.nfa.toDfa.states.toList.map (·.label)).Nodup ∧
      turns.Perm (e.nfa.toDfa.states.toList.map (·.label)) ∧
      turns.length = e.nfa.toDfa.states.size ∧
      e.nfa.toDfa.states.size ≤ 2 ^ { s | e.nfa.Reachable s }.ncard - 1 := by
  have hg : e.nfa.InArena := e.wellFormed_nfa.toInArena
  have hinv : Exploration.Invariant _ _ _ ((Table.ofNfa e.nfa).subsets e.nfa.alphabet none) :=
    invariant_explore
  have hperm : ((Table.ofNfa e.nfa).subsets e.nfa.alphabet none).found.toList.Perm
      ((Table.ofNfa e.nfa).subsets e.nfa.alphabet none).expanded.toList :=
    perm_expanded_explore hg.overflow_subsets
  have hsize : e.nfa.toDfa.states.size =
      ((Table.ofNfa e.nfa).subsets e.nfa.alphabet none).found.size :=
    Dfa.size_states_ofExploration
  rw [← Nfa.InArena.toList_found_subsets]
  refine ⟨((Table.ofNfa e.nfa).subsets e.nfa.alphabet none).expanded.toList,
    fun pushed expanded => workList_explore_iff hg.atMost_subsets, hinv.nodup, hperm.symm, ?_,
    Nat.le_sub_one_of_lt hg.size_toDfa_lt⟩
  rw [hsize, ← hperm.length_eq, Array.length_toList]

end Expression

end Automata
