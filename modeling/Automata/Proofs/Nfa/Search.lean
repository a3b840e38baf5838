import Automata.Proofs.Nfa.Accept
import Automata.Proofs.Search.WorkList
import Automata.Table.Basic

/-!
# What the searches of an automaton find

The search for a closure marks a state when it first meets it, so no state waits twice, however many
edges lead to it and whatever cycles they form.

* `InArena.mem_closure_iff`: the closure of a state holds what paths along the empty word lead to.
* `closure_exact`: on every automaton whose edges stay in the arena, **the closure is the states that
  edges on the empty word lead to, each once, the state itself first.**
* `InArena.mem_visitingOrder_iff`, `InArena.mem_reachable_iff`: **both depth-first searches enter
  the reachable states**, though in different orders.
* `InArena.mem_alphabet_iff`: the alphabet holds the symbols on edges of reachable states.
-/

namespace Automata.Nfa

open Search

variable {g : Nfa} {s t : Nat} {c : Char}

/-! ### The closure of a state -/

theorem InArena.mem_closure_iff (hg : g.InArena) (hs : s < g.size) :
    t ∈ g.closure s ↔ g.Path s [] t := by
  have ho := overflow_explore (hg.enclosed.atMost_epsilon hs)
  rw [closure, Array.mem_toList_iff, mem_found_explore_iff ho, path_nil_iff]

/-- A closure starts with its own state. -/
theorem Enclosed.head?_closure (hg : g.Enclosed) (hs : s < g.size) :
    (g.closure s).head? = some s := by
  have hfirst := getElem?_zero_explore (overflow_explore (hg.atMost_epsilon hs))
  rw [closure, List.head?_eq_getElem?, Array.getElem?_toList]
  exact hfirst

/-- A closure holds no state twice. -/
theorem nodup_closure : (g.closure s).Nodup := by
  have h : Exploration.Invariant (fun i => (g.state i).epsilon) s g.size
    (explore (fun i => (g.state i).epsilon) g.size s) := invariant_explore
  exact h.nodup

/-- **The closure is exact.** It starts with its state, holds no state twice, and holds those states
that some number of edges on the empty word, which may be none, lead to. The loop that collects it
ends by itself: without any bound it pushes the states of the closure, in that order, and no
others. -/
theorem closure_exact (g : Nfa) (hg : g.Enclosed) (s : Nat) (hs : s < g.size) :
    (g.closure s).head? = some s ∧ (g.closure s).Nodup ∧
    (∀ t, t ∈ g.closure s ↔ Relation.ReflTransGen (fun i j => g.Edge i none j) s t) ∧
    (∀ pushed, (∃ expanded, WorkList (fun i => (g.state i).epsilon) [] [s] [] pushed expanded) ↔
      pushed = g.closure s) := by
  have hb := hg.atMost_epsilon hs
  refine ⟨hg.head?_closure hs, nodup_closure, fun t => ?_, fun pushed => ⟨?_, ?_⟩⟩
  · exact Array.mem_toList_iff.trans (mem_found_explore_iff (overflow_explore hb))
  · rintro ⟨expanded, h⟩
    exact ((workList_explore_iff hb).1 h).1
  · rintro rfl
    exact ⟨_, workList_explore hb⟩

/-- On the tangle, the closure of the start is the two states that lead to each other. -/
theorem closure_exact_tangle :
    tangle.Enclosed ∧ 0 < tangle.size ∧ tangle.closure 0 = [0, 1] ∧
    (tangle.closure 0).head? = some 0 ∧ (tangle.closure 0).Nodup ∧
    (∀ t, t ∈ tangle.closure 0 ↔
      Relation.ReflTransGen (fun i j => tangle.Edge i none j) 0 t) ∧
    (∀ pushed, (∃ expanded,
        WorkList (fun i => (tangle.state i).epsilon) [] [0] [] pushed expanded) ↔
      pushed = tangle.closure 0) := by
  have hg : tangle.Enclosed := by unfold Enclosed; decide +kernel
  have hs : 0 < tangle.size := by decide
  exact ⟨hg, hs, by cbv, closure_exact tangle hg 0 hs⟩

/-! ### Reachable states -/

/-- **The states that are numbered** are those that can be reached, each once. -/
theorem InArena.mem_visitingOrder_iff (hg : g.InArena) :
    s ∈ g.visitingOrder ↔ g.Reachable s := by
  rw [visitingOrder, mem_preorder_iff (hg.enclosed.atMost_successors hg.start_lt), reachable_iff]

theorem InArena.nodup_visitingOrder (hg : g.InArena) : g.visitingOrder.toList.Nodup :=
  nodup_preorder (hg.enclosed.atMost_successors hg.start_lt)

theorem InArena.getElem?_zero_visitingOrder (hg : g.InArena) :
    g.visitingOrder[0]? = some g.start := by
  have hstart := hg.start_lt
  exact getElem?_zero_preorder (by omega)

theorem InArena.reachable_lt (hg : g.InArena) (h : g.Reachable s) : s < g.size := by
  obtain ⟨w, hp⟩ := h
  exact hp.target_lt hg.enclosed hg.start_lt

theorem InArena.mem_reachable_iff (hg : g.InArena) : s ∈ g.reachable ↔ g.Reachable s := by
  have hb : AtMost (fun i => (g.state i).successors.reverse) g.start g.size :=
    hg.enclosed.atMost (fun i j hj => mem_successors_state.1 (List.mem_reverse.1 hj)) hg.start_lt
  rw [reachable, Array.mem_toList_iff, mem_preorder_iff hb, reachable_iff]
  exact reaches_congr fun _ _ => List.mem_reverse

/-- **The alphabet** holds the symbols that reachable states have an entry for. -/
theorem InArena.mem_alphabet_iff (hg : g.InArena) :
    c ∈ g.alphabet ↔ ∃ s, g.Reachable s ∧ c ∈ (g.state s).edges := by
  rw [alphabet, Std.ExtTreeSet.mem_ofList, List.contains_iff_mem, List.mem_flatMap]
  refine exists_congr fun s => ?_
  rw [hg.mem_reachable_iff, Std.ExtTreeMap.mem_keys]

/-- What is read on an edge of a reachable state is in the alphabet. -/
theorem InArena.mem_alphabet_of_edge (hg : g.InArena) (hs : g.Reachable s)
    (he : t ∈ (g.state s).targets c) : c ∈ g.alphabet := by
  obtain ⟨targets, hc, -⟩ := State.mem_targets.1 he
  have hmem : c ∈ (g.state s).edges :=
    Std.ExtTreeMap.isSome_getElem?_iff_mem.1 (by rw [hc]; rfl)
  exact hg.mem_alphabet_iff.2 ⟨s, hs, hmem⟩

end Automata.Nfa
