import Automata.Proofs.Dfa.Simulation
import Automata.Proofs.Dfa.WellFormed
import Automata.Proofs.Nfa.Alphabet
import Automata.Proofs.Table.Renumbering

/-!
# The subset construction leaves nothing out

What is reachable is reached along some word, and the run along that word does not stop on the way.
So each number of the table turns up in some label, and each symbol of the alphabet on some edge.

* `InArena.exists_label_of_reachable`: **a reachable state has its number in some label.**
* `WellFormed.exists_edge_of_mem_alphabet`: **a symbol of the alphabet is read on some edge.**
* `Expression.dfa_covers`: the labels hold the numbers of the table, and the edges read the symbols
  of the alphabet, all of them and no others.
-/

namespace Automata

namespace Nfa

variable {g : Nfa} {s n : Nat} {c : Char}

/-- **A reachable state has its number in some label**: that of the state that the run along a word
to it ends in. -/
theorem InArena.exists_label_of_reachable (hg : g.InArena) (hs : g.Reachable s)
    (hn : (Table.ofNfa g).numberOf? s = some n) :
    ∃ q, q < g.toDfa.states.size ∧ n ∈ (g.toDfa.label q).numbers := by
  obtain ⟨w, hw⟩ := hs
  obtain ⟨q, hq⟩ := hg.exists_run? hw
  have htracks := hg.tracks_run? hq
  exact ⟨q, htracks.lt, (htracks.label_iff n).2 ⟨s, hw, hn⟩⟩

/-- **A symbol of the alphabet is read on some edge.** It is on an edge of a reachable state, so the
run to that state goes on along it. -/
theorem WellFormed.exists_edge_of_mem_alphabet (hg : g.WellFormed) (hc : c ∈ g.alphabet) :
    ∃ q r, g.toDfa.next? q c = some r := by
  obtain ⟨s, t, ⟨w, hw⟩, hedge⟩ := hg.mem_alphabet_iff.1 hc
  obtain ⟨q, hq⟩ := hg.toInArena.exists_run? hw
  have htracks := hg.toInArena.tracks_run? hq
  have hpath : g.Path g.start (w ++ [c]) t := hw.append (Path.edge hedge)
  obtain ⟨r, hr⟩ := htracks.exists_next hg.toInArena hpath
  exact ⟨q, r, hr⟩

end Nfa

namespace Expression

/-- **The deterministic automaton covers all that can be reached.** The numbers in the labels of its
states are those from 1 to the size of the table, and the symbols on its edges are those of its
alphabet. Each number is in the label of some state, and each symbol on some edge between two
states. -/
theorem dfa_covers (e : Expression) :
    (∀ n, (∃ q, q < e.nfa.toDfa.states.size ∧ n ∈ (e.nfa.toDfa.label q).numbers) ↔
      1 ≤ n ∧ n ≤ (Table.ofNfa e.nfa).size) ∧
    ∀ c, c ∈ e.nfa.toDfa.alphabet ↔ ∃ q r, q < e.nfa.toDfa.states.size ∧
      r < e.nfa.toDfa.states.size ∧ e.nfa.toDfa.next? q c = some r := by
  have hw := e.wellFormed_nfa
  have hg := hw.toInArena
  have hd := hg.wellFormed_toDfa
  refine ⟨fun n => ⟨?_, ?_⟩, fun c => ⟨?_, ?_⟩⟩
  · rintro ⟨q, hq, hn⟩
    exact hd.label_range q hq n hn
  · intro hn
    obtain ⟨s, hs⟩ := hg.exists_state_iff.2 hn
    exact hg.exists_label_of_reachable (hg.exists_number_iff.1 ⟨n, hs⟩) hs
  · intro hc
    obtain ⟨q, r, hr⟩ := hw.exists_edge_of_mem_alphabet hc
    exact ⟨q, r, Dfa.lt_of_next? hr, (hd.edge q c r hr).2, hr⟩
  · rintro ⟨q, r, -, -, hr⟩
    exact (hd.edge q c r hr).1

-- the symbol behind an operand without words is on no edge, and in no alphabet
example : (concatPair emptyLanguage (char 'a')).nfa.toDfa.alphabet.toList = [] := by cbv

end Expression

end Automata
