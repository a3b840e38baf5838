import Mathlib
import Automata.Dfa.WellFormed
import Automata.Proofs.Dfa.Limit

/-!
# The subset construction builds well-formed automata

* `InArena.closed_of_number`, `InArena.closed_move`: the label of a numbered state is closed, and so
  is every label that a label of numbers moves to.
* `InArena.reaches_label`: the labels of the states are the labels that can be reached, so what
  moving keeps holds of all of them.
* `InArena.exists_entering`: **every state but the first is entered from a state before it.**
* `InArena.eq_toDfa_of_within`: a limit that is kept makes no difference.
* `InArena.wellFormed_toDfa`, `Expression.dfa_wellFormed`: **the automaton is well-formed**, built
  with a limit or without.
-/

namespace Automata

open Search

variable {c : Char} {k m n : Nat}

/-- The closure of a number and its label have the same members. -/
theorem Table.mem_closure_iff {t : Table} : k ∈ t.closure n ↔ k ∈ (t.label n).numbers := by
  unfold Table.closure Table.label
  cases t.row? n with
  | none => rfl
  | some row =>
    rw [Option.map_some, Option.map_some, Option.getD_some, Option.getD_some, row.label_eq,
      Label.mem_numbers_ofList]

/-- An id without a state has no edges. -/
theorem Dfa.lt_of_next? {d : Dfa} {q r : Nat} {c : Char} (h : d.next? q c = some r) :
    q < d.states.size := by
  by_contra hq
  rw [next?, Array.getElem?_eq_none (Nat.not_lt.1 hq)] at h
  exact absurd h (by simp)

namespace Nfa.InArena

variable {g : Nfa} {q r s : Nat} {l : Label}

/-! ### Labels -/

/-- **The label of a numbered state is closed**, because paths along the empty word are composed. -/
theorem closed_of_number (hg : g.InArena) (hs : (Table.ofNfa g).numberOf? s = some n) :
    ((Table.ofNfa g).label n).Closed (Table.ofNfa g) := by
  intro m hm k hk
  obtain ⟨t, ht, htm⟩ := (hg.mem_label_iff hs).1 hm
  obtain ⟨u, hu, huk⟩ := (hg.mem_label_iff htm).1 (Table.mem_closure_iff.1 hk)
  exact (hg.mem_label_iff hs).2 ⟨u, ht.append hu, huk⟩

/-- **What a label moves to is closed**, because it is a union of closed labels. -/
theorem closed_move (hg : g.InArena)
    (hl : ∀ n ∈ l.numbers, ∃ s, (Table.ofNfa g).numberOf? s = some n) :
    ((Table.ofNfa g).move l c).Closed (Table.ofNfa g) := by
  intro m hm k hk
  obtain ⟨n, hn, i, hi, him⟩ := Table.mem_move_iff.1 hm
  obtain ⟨s, hs⟩ := hl n hn
  obtain ⟨t, -, ht⟩ := (hg.mem_targets_iff hs).1 hi
  exact Table.mem_move_iff.2 ⟨n, hn, i, hi, hg.closed_of_number ht m him k hk⟩

/-- A successor of a label is a nonempty label that it moves to on a symbol of the alphabet. -/
theorem exists_of_mem_successors {target : Label}
    (h : target ∈ ((Table.ofNfa g).successors g.alphabet l).toList.map (·.2)) :
    ∃ c ∈ g.alphabet, target = (Table.ofNfa g).move l c ∧ target.numbers ≠ [] := by
  obtain ⟨⟨c, target⟩, hmem, rfl⟩ := List.mem_map.1 h
  obtain ⟨rfl, hc, hne⟩ := Table.getElem?_successors.1
    (Std.ExtTreeMap.mem_toList_iff_getElem?_eq_some.1 hmem)
  exact ⟨c, hc, rfl, hne⟩

/-- The labels of the states can be reached from that of the start. -/
theorem reaches_label (hq : q < g.toDfa.states.size) :
    Reaches (fun l => ((Table.ofNfa g).successors g.alphabet l).toList.map (·.2))
      (Table.ofNfa g).startLabel (g.toDfa.label q) :=
  invariant_explore.reaches _ (Array.mem_of_getElem? (getElem?_found_subsets.2 ⟨hq, rfl⟩))

theorem number_of_mem_label (hg : g.InArena) (hq : q < g.toDfa.states.size) :
    ∀ n ∈ (g.toDfa.label q).numbers, ∃ s, (Table.ofNfa g).numberOf? s = some n :=
  hg.number_of_reaches (reaches_label hq)

theorem label_ne_nil (hg : g.InArena) (hq : q < g.toDfa.states.size) :
    (g.toDfa.label q).numbers ≠ [] := by
  refine (reaches_label hq).mem_of_closed (P := fun l => l.numbers ≠ []) ?_ ?_
  · have hstart := (hg.mem_label_iff hg.number_start).2 ⟨g.start, .nil _, hg.number_start⟩
    exact List.ne_nil_of_mem hstart
  · intro l _ target htarget
    obtain ⟨c, -, -, hne⟩ := exists_of_mem_successors htarget
    exact hne

theorem closed_label (hg : g.InArena) (hq : q < g.toDfa.states.size) :
    (g.toDfa.label q).Closed (Table.ofNfa g) := by
  -- moving keeps a label closed because what can be reached has numbers of states as its members
  have key := (reaches_label hq).mem_of_closed
    (P := fun l => Reaches (fun l => ((Table.ofNfa g).successors g.alphabet l).toList.map (·.2))
      (Table.ofNfa g).startLabel l ∧ l.Closed (Table.ofNfa g)) ?_ ?_
  · exact key.2
  · exact ⟨Relation.ReflTransGen.refl, hg.closed_of_number hg.number_start⟩
  · rintro l ⟨hr, -⟩ target htarget
    refine ⟨Relation.ReflTransGen.tail hr htarget, ?_⟩
    obtain ⟨c, -, rfl, -⟩ := exists_of_mem_successors htarget
    exact hg.closed_move (hg.number_of_reaches hr)

/-! ### The index and the edges -/

/-- **The index of the automaton** knows the labels of its states and nothing else. -/
theorem idOf?_toDfa_iff : g.toDfa.idOf? l = some q ↔
    q < g.toDfa.states.size ∧ g.toDfa.label q = l := by
  have h : ((Table.ofNfa g).subsets g.alphabet none).index[l]? = some q ↔
      ((Table.ofNfa g).subsets g.alphabet none).found[q]? = some l := getElem?_index_explore
  exact h.trans getElem?_found_subsets

/-- **Every state but the first is entered** from a state that was found before it. -/
theorem exists_entering (hq : 0 < q) (hlt : q < g.toDfa.states.size) :
    ∃ p c, p < q ∧ g.toDfa.next? p c = some q := by
  obtain ⟨p, l, hp, hl, hmem⟩ := exists_parent_explore hq (getElem?_found_subsets.2 ⟨hlt, rfl⟩)
  obtain ⟨c, hc, hmove, hne⟩ := exists_of_mem_successors hmem
  obtain ⟨hplt, hlabel⟩ := getElem?_found_subsets.1 hl
  rw [← hlabel] at hmove
  refine ⟨p, c, hp, (next?_toDfa_iff hplt).2 ⟨⟨hlt, hmove⟩, hc, ?_⟩⟩
  rwa [← hmove]

/-- **A limit that is kept makes no difference.** -/
theorem eq_toDfa_of_within (hg : g.InArena) {limit : Nat} {d : Dfa}
    (h : g.toDfaWithin limit = .ok d) : d = g.toDfa := by
  rw [hg.toDfaWithin_eq] at h
  split at h
  · exact (Except.ok.inj h).symm
  · exact absurd h (by simp)

/-- **The subset construction builds a well-formed automaton.** -/
theorem wellFormed_toDfa (hg : g.InArena) : g.toDfa.WellFormed (Table.ofNfa g) where
  id_eq := by
    intro q s hs
    have h : g.toDfa.states[q]? = _ := Dfa.getElem?_states_ofExploration
    rw [h, Option.map_eq_some_iff] at hs
    obtain ⟨l, -, rfl⟩ := hs
    rfl
  label_ne := by
    intro q r hq hr hne heq
    have hq' := idOf?_toDfa_iff.2 ⟨hq, heq⟩
    have hr' := idOf?_toDfa_iff.2 ⟨hr, rfl⟩
    rw [hq'] at hr'
    exact hne (Option.some.inj hr')
  label_nonempty := fun _ hq => hg.label_ne_nil hq
  label_ascending := fun q _ => (g.toDfa.label q).ascending
  label_range := by
    intro q hq n hn
    obtain ⟨s, hs⟩ := hg.number_of_mem_label hq n hn
    have h := List.mem_range'_1.1 (hg.number_mem_range' hs)
    omega
  label_closed := fun _ hq => hg.closed_label hq
  idOf?_label := fun _ hq => idOf?_toDfa_iff.2 ⟨hq, rfl⟩
  idOf?_other := by
    intro l hl
    rw [Option.eq_none_iff_forall_ne_some]
    intro q hq
    obtain ⟨hlt, hlabel⟩ := idOf?_toDfa_iff.1 hq
    exact hl q hlt hlabel
  edge := by
    intro q c r hr
    obtain ⟨⟨hlt, -⟩, hc, -⟩ := (next?_toDfa_iff (Dfa.lt_of_next? hr)).1 hr
    exact ⟨hc, hlt⟩
  accepting_iff := fun _ hq => isAccepting_toDfa_iff hq
  entered := fun _ hq hlt => exists_entering hq hlt

end Nfa.InArena

namespace Expression

/-- **Every deterministic automaton that is built is well-formed** over the table of the automaton
that it is built from, and has the alphabet of that automaton: without a limit, and with a limit
that is kept. -/
theorem dfa_wellFormed (e : Expression) (d : Dfa)
    (h : d = e.nfa.toDfa ∨ ∃ limit, e.nfa.toDfaWithin limit = .ok d) :
    d.WellFormed (Table.ofNfa e.nfa) ∧ d.alphabet = e.nfa.alphabet := by
  have hg : e.nfa.InArena := e.wellFormed_nfa.toInArena
  have hd : d = e.nfa.toDfa := by
    rcases h with h | ⟨limit, h⟩
    · exact h
    · exact hg.eq_toDfa_of_within h
  rw [hd]
  exact ⟨hg.wellFormed_toDfa, rfl⟩

/-- The automaton of a repetition has two states, so a limit of two is kept. -/
theorem dfa_wellFormed_star : ∃ d, (star (char 'a')).nfa.toDfaWithin 2 = .ok d ∧
    d.WellFormed (Table.ofNfa (star (char 'a')).nfa) ∧
    d.alphabet = (star (char 'a')).nfa.alphabet := by
  have hok : ((star (char 'a')).nfa.toDfaWithin 2).isOk = true := by cbv
  cases h : (star (char 'a')).nfa.toDfaWithin 2 with
  | error e => rw [h] at hok; exact absurd hok Bool.false_ne_true
  | ok d => exact ⟨d, rfl, dfa_wellFormed (star (char 'a')) d (Or.inr ⟨2, h⟩)⟩

end Expression

end Automata
