import Automata.Nfa.Search
import Automata.Proofs.Nfa.Path
import Automata.Proofs.Search.Traversal

/-!
# Backtracking decides recognition

A match in progress at position `p` in state `s` stands for a path along the first `p` symbols of
the word that leads from the start to `s` (`reaches_moves_iff`). There are no more of them than
pairs of a position and a state, so the search is complete, and **an automaton accepts the words it
recognizes** (`accepts_iff`), as long as its edges stay in the arena. Nothing else is asked of the
automaton: the search ends by itself, and tries no match twice (`backtracking_decides`).
-/

namespace Automata.Nfa

open Search

variable {g : Nfa} {s t : Nat} {w : List Char} {m m' : Config}

theorem mem_moves_iff : m' ∈ g.moves w.toArray m ↔
    (∃ c t, w[m.position]? = some c ∧ t ∈ (g.state m.state).targets c ∧
      m' = { position := m.position + 1, state := t }) ∨
    ∃ t ∈ (g.state m.state).epsilon, m' = { m with state := t } := by
  unfold moves
  rw [List.mem_append, List.mem_map, List.getElem?_toArray]
  refine or_congr ?_ (exists_congr fun t => and_congr_right fun _ => eq_comm)
  cases hc : w[m.position]? with
  | none => simp
  | some c => simp [eq_comm]

/-- The matches in progress are paths from the start along a part of the word. -/
theorem path_of_reaches_moves
    (h : Reaches (g.moves w.toArray) { position := 0, state := g.start } m) :
    m.position ≤ w.length ∧ g.Path g.start (w.take m.position) m.state := by
  refine h.mem_of_closed
    (P := fun m => m.position ≤ w.length ∧ g.Path g.start (w.take m.position) m.state) ?_ ?_
  · exact ⟨Nat.zero_le _, .nil _⟩
  · rintro m ⟨hle, hp⟩ m' hm'
    rcases mem_moves_iff.1 hm' with ⟨c, t, hc, ht, rfl⟩ | ⟨t, ht, rfl⟩
    · refine ⟨(List.getElem?_eq_some_iff.1 hc).1, ?_⟩
      rw [List.take_add_one, hc]
      exact hp.append (Path.edge (edge_some.2 ht))
    · refine ⟨hle, ?_⟩
      have h1 := hp.append (Path.edge (edge_none.2 ht))
      rwa [Option.toList_none, List.append_nil] at h1

/-- Along a path, the search can go from the position before its word to the position behind it. -/
theorem Path.reaches_moves (hp : g.Path s w t) (u v : List Char) :
    Reaches (g.moves (u ++ w ++ v).toArray) { position := u.length, state := s }
      { position := u.length + w.length, state := t } := by
  induction hp generalizing u with
  | nil s => exact Relation.ReflTransGen.refl
  | epsilon he _ ih =>
    exact Relation.ReflTransGen.head (mem_moves_iff.2 (Or.inr ⟨_, he, rfl⟩)) (ih u)
  | @symbol s t' t c w he _ ih =>
    -- what is read on this edge counts as read before for the rest of the path
    have hrest := ih (u ++ [c])
    have hword : u ++ [c] ++ w ++ v = u ++ c :: w ++ v := by simp
    have hlen : (u ++ [c]).length + w.length = u.length + (c :: w).length := by
      simp only [List.length_append, List.length_cons, List.length_nil]
      omega
    rw [hword, hlen] at hrest
    refine Relation.ReflTransGen.head (mem_moves_iff.2 (Or.inl ⟨c, t', ?_, he, ?_⟩)) hrest
    · simp
    · rw [List.length_append, List.length_singleton]

/-- **The matches in progress** that can be reached, as paths. -/
theorem reaches_moves_iff {p : Nat} :
    Reaches (g.moves w.toArray) { position := 0, state := g.start } { position := p, state := s } ↔
      p ≤ w.length ∧ g.Path g.start (w.take p) s := by
  refine ⟨?_, ?_⟩
  · exact path_of_reaches_moves
  · rintro ⟨hle, hp⟩
    have hr := hp.reaches_moves [] (w.drop p)
    rw [List.nil_append, List.take_append_drop, List.length_take, Nat.min_eq_left hle] at hr
    simpa using hr

/-- All pairs of a position in a word of a length and a state of an arena. -/
def configs (length size : Nat) : List Config :=
  (List.range (length + 1)).flatMap fun p =>
    (List.range size).map fun s => { position := p, state := s }

theorem length_configs (n k : Nat) : (configs n k).length = (n + 1) * k := by
  simp [configs, List.length_flatMap]

theorem mem_configs {n k : Nat} : m ∈ configs n k ↔ m.position ≤ n ∧ m.state < k := by
  unfold configs
  simp only [List.mem_flatMap, List.mem_map, List.mem_range]
  refine ⟨?_, ?_⟩
  · rintro ⟨p, hp, s, hs, rfl⟩
    exact ⟨Nat.le_of_lt_succ hp, hs⟩
  · rintro ⟨hp, hs⟩
    exact ⟨m.position, Nat.lt_succ_of_le hp, m.state, hs, rfl⟩

/-- **The pairs of a position and a state bound the search.** -/
theorem Enclosed.atMost_moves (hg : g.Enclosed) (hs : g.start < g.size) :
    AtMost (g.moves w.toArray) { position := 0, state := g.start }
      ((w.toArray.size + 1) * g.size) := by
  refine AtMost.of_subset (l := configs w.length g.size) ?_ ?_
  · rw [length_configs]
    exact Nat.le_refl _
  · intro m hm
    obtain ⟨hle, hp⟩ := path_of_reaches_moves hm
    exact mem_configs.2 ⟨hle, hp.target_lt hg hs⟩

/-- **Acceptance is recognition**, whatever cycles and unreachable states there are. -/
theorem Enclosed.accepts_iff (hg : g.Enclosed) (hs : g.start < g.size) :
    g.accepts w = true ↔ g.Recognizes w := by
  unfold accepts attempts
  rw [any_preorder_iff (hg.atMost_moves hs)]
  refine ⟨?_, ?_⟩
  · rintro ⟨m, hm, hmatch⟩
    obtain ⟨-, hp⟩ := path_of_reaches_moves hm
    unfold isMatch at hmatch
    rw [Bool.and_eq_true, beq_iff_eq, List.size_toArray] at hmatch
    rw [hmatch.1, List.take_length] at hp
    exact ⟨m.state, hp, hmatch.2⟩
  · rintro ⟨s, hp, hs⟩
    refine ⟨{ position := w.length, state := s }, reaches_moves_iff.2 ⟨Nat.le_refl _, ?_⟩, ?_⟩
    · rwa [List.take_length]
    · unfold isMatch
      rw [hs, List.size_toArray, beq_self_eq_true, Bool.and_true]

theorem InArena.accepts_iff (hg : g.InArena) : g.accepts w = true ↔ g.Recognizes w :=
  hg.enclosed.accepts_iff hg.start_lt

/-- Where only the final state accepts, recognition is a path from the start to it. -/
theorem AcceptsAtFinal.recognizes_iff (hg : g.AcceptsAtFinal) :
    g.Recognizes w ↔ g.Path g.start w g.final := by
  refine ⟨?_, ?_⟩
  · rintro ⟨s, hp, hs⟩
    rwa [(hg s).1 hs] at hp
  · intro hp
    exact ⟨g.final, hp, (hg g.final).2 rfl⟩

/-- Acceptance by a well-formed automaton is a path from the start to the final state. -/
theorem WellFormed.accepts_iff (hg : g.WellFormed) :
    g.accepts w = true ↔ g.Path g.start w g.final :=
  hg.toInArena.accepts_iff.trans hg.acceptsAtFinal.recognizes_iff

/-- **Some word is accepted** if and only if the final state is reachable. -/
theorem WellFormed.exists_accepts_iff (hg : g.WellFormed) :
    (∃ w, g.accepts w = true) ↔ g.Reachable g.final := exists_congr fun _ => hg.accepts_iff

/-- **Backtracking ends and decides recognition**, on every automaton that is entered inside its
arena and whose edges stay there. The loop of the search, which nothing bounds, comes to an end in
one way only: it has then entered the matches that are attempted, and answers whether the word is
accepted. No match is entered twice. The word is accepted if and only if a path from the start that
spells it leads to an accepting state. -/
theorem backtracking_decides (g : Nfa) (hg : g.Enclosed) (hs : g.start < g.size) (w : List Char) :
    (∀ entered found,
      DepthFirst (g.moves w.toArray) (g.isMatch w.toArray) []
          [{ position := 0, state := g.start }] entered found ↔
        entered = (g.attempts w.toArray).toList ∧ found = g.accepts w) ∧
    (g.attempts w.toArray).toList.Nodup ∧
    (g.accepts w = true ↔ g.Recognizes w) := by
  have hb := hg.atMost_moves (w := w) hs
  have hends : DepthFirst (g.moves w.toArray) (g.isMatch w.toArray) []
      [{ position := 0, state := g.start }] (g.attempts w.toArray).toList (g.accepts w) :=
    depthFirst_preorder hb (g.isMatch w.toArray)
  refine ⟨fun entered found => ⟨fun h => h.unique hends, ?_⟩, nodup_preorder hb,
    hg.accepts_iff hs⟩
  rintro ⟨rfl, rfl⟩
  exact hends

/-- Two states with edges in both directions and to themselves, on `a` and on the empty word, some
of them twice, and a third state that leads to both but is not reached. No state knows its place. -/
def tangle : Nfa where
  states := #[
    { id := 7, edges := .ofList [('a', [1, 0, 1])], epsilon := [0, 1, 1] },
    { id := 7, accepting := true, edges := .ofList [('a', [0, 0])], epsilon := [0, 1] },
    { id := 7, accepting := true, edges := .ofList [('b', [1])], epsilon := [0, 2] }]
  start := 0
  final := 5

/-- On the tangle, the search for the word of two symbols `a` ends with success. -/
theorem backtracking_decides_tangle :
    tangle.Enclosed ∧ tangle.start < tangle.size ∧
    DepthFirst (tangle.moves #['a', 'a']) (tangle.isMatch #['a', 'a']) []
      [{ position := 0, state := 0 }] (tangle.attempts #['a', 'a']).toList true ∧
    (tangle.attempts #['a', 'a']).toList.Nodup ∧ tangle.accepts ['a', 'a'] = true ∧
    tangle.Recognizes ['a', 'a'] := by
  have hg : tangle.Enclosed := by unfold Enclosed; decide +kernel
  have hs : tangle.start < tangle.size := by decide
  have hr : tangle.Recognizes ['a', 'a'] := by
    -- over to the second state and back, and once more over on the empty word
    refine ⟨1, .symbol (t := 1) ?_ (.symbol (t := 0) ?_ (.epsilon (t := 1) ?_ (.nil 1))), ?_⟩
    all_goals decide +kernel
  obtain ⟨hends, hnodup, haccepts⟩ := backtracking_decides tangle hg hs ['a', 'a']
  have ha : tangle.accepts ['a', 'a'] = true := haccepts.2 hr
  exact ⟨hg, hs, (hends _ true).2 ⟨rfl, ha.symm⟩, hnodup, ha, hr⟩

end Automata.Nfa
