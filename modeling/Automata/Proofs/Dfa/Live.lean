import Automata.Proofs.Dfa.Emptiness
import Automata.Proofs.Nfa.Trim

/-!
# Representations of trim automata

A trim automaton has nothing for its table to leave out, and its deterministic automaton has no dead
states. The label of a state holds some state that leads on to the final one, and the runs of the
deterministic automaton follow the path that does so.

* `InArena.size_ofNfa_of_trim`: the table has a row for every state of the arena.
* `InArena.live_toDfa`: **every state of the deterministic automaton is live.**
* `Expression.trim_of_avoidsEmpty`: all of this holds of what is built without the empty language.
-/

namespace Automata

namespace Nfa.InArena

variable {g : Nfa} {q s : Nat}

/-- **The table of a trim automaton has as many rows as there are states.** -/
theorem size_ofNfa_of_trim (hg : g.InArena) (ht : g.Trim) : (Table.ofNfa g).size = g.size := by
  have hperm : g.visitingOrder.toList.Perm (List.range g.size) := by
    refine (List.perm_ext_iff_of_nodup hg.nodup_visitingOrder List.nodup_range).2 fun s => ?_
    rw [Array.mem_toList_iff, hg.mem_visitingOrder_iff, List.mem_range]
    exact ⟨hg.reachable_lt, ht.reachable s⟩
  rw [size_ofNfa, ← Array.length_toList, hperm.length_eq, List.length_range]

/-- **The deterministic automaton of a trim automaton has no dead states.** -/
theorem live_toDfa (hg : g.InArena) (ha : g.AcceptsAtFinal) (ht : g.Trim)
    (hq : q < g.toDfa.states.size) : g.toDfa.Live q := by
  obtain ⟨v, -, hv⟩ := exists_short_run hq
  -- a path along the same word leads to some state, and from there another one to the final state
  obtain ⟨s, hs⟩ := (hg.tracks_run? hv).exists_path
  obtain ⟨w, hw⟩ := ht.productive s (hg.reachable_lt ⟨v, hs⟩)
  have haccepts : g.toDfa.accepts (v ++ w) = true :=
    hg.accepts_toDfa_iff.2 ⟨g.final, hs.append hw, (ha g.final).2 rfl⟩
  obtain ⟨r, hr, hacc⟩ := Dfa.accepts_iff.1 haccepts
  rw [Dfa.run?_append, hv, Option.bind_some] at hr
  exact ⟨w, r, hr, hacc⟩

end Nfa.InArena

namespace Expression

/-- **Without the empty language, there are no useless states.** Every state of the automaton is
reached from the start and leads on to the final state. So every state has a number, the table has
as many rows as there are states, and every state of the deterministic automaton leads on to an
accepting one. Of any number of operands, all have to avoid the empty language, and a union needs
one. -/
theorem trim_of_avoidsEmpty :
    (∀ e : Expression, e.AvoidsEmpty →
      e.nfa.Trim ∧
      (∀ s, s < e.nfa.size → ∃ n, (Table.ofNfa e.nfa).numberOf? s = some n) ∧
      (Table.ofNfa e.nfa).size = e.nfa.size ∧
      ∀ q, q < e.nfa.toDfa.states.size → e.nfa.toDfa.Live q) ∧
    ∀ l : List Expression, ((concat l).AvoidsEmpty ↔ ∀ a ∈ l, a.AvoidsEmpty) ∧
      ((union l).AvoidsEmpty ↔ l ≠ [] ∧ ∀ a ∈ l, a.AvoidsEmpty) := by
  refine ⟨fun e h => ?_, fun l => ⟨avoidsEmpty_concat, avoidsEmpty_union⟩⟩
  have hw := e.wellFormed_nfa
  have hg := hw.toInArena
  have ht := e.trim_nfa h
  exact ⟨ht, fun s hs => hg.exists_number_iff.2 (ht.reachable s hs), hg.size_ofNfa_of_trim ht,
    fun q hq => hg.live_toDfa hw.acceptsAtFinal ht hq⟩

/-- Digits behind a sign that may be missing: the repetition goes back to the start of the digits,
and still nothing is useless. -/
theorem trim_signed_digits :
    (concatPair (optional (char '-')) (compactPlus (digitRange 0 9))).nfa.Trim ∧
    ∀ q,
      q < (concatPair (optional (char '-')) (compactPlus (digitRange 0 9))).nfa.toDfa.states.size →
        (concatPair (optional (char '-')) (compactPlus (digitRange 0 9))).nfa.toDfa.Live q := by
  have h := trim_of_avoidsEmpty.1 (concatPair (optional (char '-')) (compactPlus (digitRange 0 9)))
    ⟨trivial, Nat.zero_le 9⟩
  exact ⟨h.1, h.2.2.2⟩

end Expression

end Automata
