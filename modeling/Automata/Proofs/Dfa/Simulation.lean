import Automata.Proofs.Dfa.Subset
import Automata.Proofs.Expression.Language

/-!
# The subset construction follows all paths at once

* `Tracks`: a state of the deterministic automaton stands for a word when its label holds the
  numbers of the states that paths along the word lead to.
* `tracks_nil`, `Tracks.next`: the start stands for the empty word, and an edge keeps this. So **a
  run ends in a state that stands for its word** (`InArena.tracks_run?`).
* `InArena.exists_run?`: a run does not stop while some path goes on.
* `InArena.accepts_toDfa_iff`: **the deterministic automaton accepts the same words.**
-/

namespace Automata

/-- A run along two words goes on along the second where it has come to along the first. -/
theorem Dfa.run?_append {d : Dfa} {v w : List Char} :
    d.run? (v ++ w) = (d.run? v).bind (w.foldlM d.next?) := List.foldlM_append

/-- A run is a run up to the last symbol, and one more edge. -/
theorem Dfa.run?_concat {d : Dfa} {w : List Char} {c : Char} :
    d.run? (w ++ [c]) = (d.run? w).bind (d.next? · c) := by
  rw [run?_append]
  cases d.run? w with
  | none => rfl
  | some q => exact bind_pure (d.next? q c)

/-- A word is accepted when its run ends in an accepting state. -/
theorem Dfa.accepts_iff {d : Dfa} {w : List Char} :
    d.accepts w = true ↔ ∃ q, d.run? w = some q ∧ d.isAccepting q = true := by
  unfold Dfa.accepts
  rw [Option.any_eq_true]

/-- Where a run stops, an edge is missing. -/
theorem Dfa.exists_missing {d : Dfa} {w : List Char} (h : ∀ q, d.run? w ≠ some q) :
    ∃ u c v q, w = u ++ c :: v ∧ d.run? u = some q ∧ d.next? q c = none := by
  induction w using List.reverseRecOn with
  | nil => exact absurd rfl (h 0)
  | append_singleton w c ih =>
    -- the edge is missing at the last symbol, or the run has stopped before
    by_cases hw : ∃ q, d.run? w = some q
    · obtain ⟨q, hq⟩ := hw
      refine ⟨w, c, [], q, rfl, hq, ?_⟩
      rw [Option.eq_none_iff_forall_ne_some]
      intro r hr
      refine h r ?_
      rw [run?_concat, hq, Option.bind_some, hr]
    · obtain ⟨u, d, v, q, rfl, hq, hmissing⟩ := ih fun q hq => hw ⟨q, hq⟩
      exact ⟨u, d, v ++ [c], q, by simp, hq, hmissing⟩

namespace Nfa

variable {g : Nfa} {q r s : Nat} {c : Char} {w : List Char}

/-- **A state stands for a word** when its label holds the numbers of the states that paths along
the word lead to, of which there is at least one. -/
structure Tracks (g : Nfa) (w : List Char) (q : Nat) : Prop where
  lt : q < g.toDfa.states.size
  exists_path : ∃ s, g.Path g.start w s
  label_iff : ∀ n, n ∈ (g.toDfa.label q).numbers ↔
    ∃ s, g.Path g.start w s ∧ (Table.ofNfa g).numberOf? s = some n

theorem tracks_nil (hg : g.InArena) : g.Tracks [] 0 := by
  obtain ⟨hlt, hlabel⟩ := hg.label_toDfa_zero
  refine ⟨hlt, ⟨g.start, .nil _⟩, fun n => ?_⟩
  rw [hlabel]
  exact hg.mem_label_iff hg.number_start

/-- What a label moves to is what paths along one more symbol lead to. -/
theorem Tracks.mem_move_iff (hg : g.InArena) (h : g.Tracks w q) {k : Nat} :
    k ∈ ((Table.ofNfa g).move (g.toDfa.label q) c).numbers ↔
      ∃ s, g.Path g.start (w ++ [c]) s ∧ (Table.ofNfa g).numberOf? s = some k := by
  rw [Table.mem_move_iff]
  refine ⟨?_, ?_⟩
  · rintro ⟨n, hn, m, hm, hk⟩
    obtain ⟨p, hp, hpn⟩ := (h.label_iff n).1 hn
    obtain ⟨t, ht, htm⟩ := (hg.mem_targets_iff hpn).1 hm
    obtain ⟨s, hs, hsk⟩ := (hg.mem_label_iff htm).1 hk
    exact ⟨s, path_concat_iff.2 ⟨p, t, hp, ht, hs⟩, hsk⟩
  · rintro ⟨s, hs, hsk⟩
    obtain ⟨p, t, hp, ht, hts⟩ := path_concat_iff.1 hs
    obtain ⟨n, hn⟩ := hg.number_of_path hp
    -- the target of a numbered state is reachable, so it has a number as well
    obtain ⟨m, hm⟩ := hg.number_of_path (hp.append (Path.edge (edge_some.2 ht)))
    have hnm := (hg.mem_targets_iff hn).2 ⟨t, ht, hm⟩
    exact ⟨n, (h.label_iff n).2 ⟨p, hp, hn⟩, m, hnm, (hg.mem_label_iff hm).2 ⟨s, hts, hsk⟩⟩

/-- **An edge leads to a state that stands for one more symbol.** -/
theorem Tracks.next (hg : g.InArena) (h : g.Tracks w q) (hr : g.toDfa.next? q c = some r) :
    g.Tracks (w ++ [c]) r := by
  obtain ⟨⟨hlt, hlabel⟩, -, hne⟩ := (InArena.next?_toDfa_iff h.lt).1 hr
  obtain ⟨k, hk⟩ := List.exists_mem_of_ne_nil _ hne
  obtain ⟨s, hs, -⟩ := (h.mem_move_iff hg).1 hk
  refine ⟨hlt, ⟨s, hs⟩, fun k => ?_⟩
  rw [hlabel]
  exact h.mem_move_iff hg

/-- **An edge is missing only where no path goes on.** -/
theorem Tracks.exists_next (hg : g.InArena) (h : g.Tracks w q)
    (hp : g.Path g.start (w ++ [c]) s) : ∃ r, g.toDfa.next? q c = some r := by
  obtain ⟨k, hk⟩ := hg.number_of_path hp
  have hmem := (h.mem_move_iff hg).2 ⟨s, hp, hk⟩
  -- the symbol is in the alphabet, because it is read on the way
  obtain ⟨p, t, hp, ht, -⟩ := path_concat_iff.1 hp
  have hc : c ∈ g.alphabet := hg.mem_alphabet_of_edge ⟨w, hp⟩ ht
  exact hg.exists_next?_toDfa h.lt hc (List.ne_nil_of_mem hmem)

namespace InArena

/-- **A run ends in a state that stands for its word.** -/
theorem tracks_run? (hg : g.InArena) (h : g.toDfa.run? w = some q) : g.Tracks w q := by
  induction w using List.reverseRecOn generalizing q with
  | nil =>
    rw [← Option.some.inj h]
    exact tracks_nil hg
  | append_singleton w c ih =>
    rw [Dfa.run?_concat, Option.bind_eq_some_iff] at h
    obtain ⟨p, hp, hq⟩ := h
    exact (ih hp).next hg hq

/-- **A run does not stop while some path goes on.** -/
theorem exists_run? (hg : g.InArena) (hp : g.Path g.start w s) :
    ∃ q, g.toDfa.run? w = some q := by
  induction w using List.reverseRecOn generalizing s with
  | nil => exact ⟨0, rfl⟩
  | append_singleton w c ih =>
    obtain ⟨p, t, hwp, -, -⟩ := path_concat_iff.1 hp
    obtain ⟨q, hq⟩ := ih hwp
    obtain ⟨r, hr⟩ := (hg.tracks_run? hq).exists_next hg hp
    exact ⟨r, by rw [Dfa.run?_concat, hq, Option.bind_some, hr]⟩

theorem exists_run?_iff (hg : g.InArena) :
    (∃ q, g.toDfa.run? w = some q) ↔ ∃ s, g.Path g.start w s := by
  refine ⟨?_, ?_⟩
  · rintro ⟨q, hq⟩
    exact (hg.tracks_run? hq).exists_path
  · rintro ⟨s, hp⟩
    exact hg.exists_run? hp

/-- **The deterministic automaton recognizes the same words.** -/
theorem accepts_toDfa_iff (hg : g.InArena) : g.toDfa.accepts w = true ↔ g.Recognizes w := by
  rw [Dfa.accepts_iff]
  refine ⟨?_, ?_⟩
  · rintro ⟨q, hq, ha⟩
    have h := hg.tracks_run? hq
    obtain ⟨n, hn, hacc⟩ := (isAccepting_toDfa_iff h.lt).1 ha
    obtain ⟨s, hp, hs⟩ := (h.label_iff n).1 hn
    exact ⟨s, hp, (hg.mem_accepting_iff hs).1 hacc⟩
  · rintro ⟨s, hp, hs⟩
    obtain ⟨q, hq⟩ := hg.exists_run? hp
    have h := hg.tracks_run? hq
    obtain ⟨n, hn⟩ := hg.number_of_path hp
    refine ⟨q, hq, (isAccepting_toDfa_iff h.lt).2 ⟨n, (h.label_iff n).2 ⟨s, hp, hn⟩, ?_⟩⟩
    exact (hg.mem_accepting_iff hn).2 hs

end InArena

end Nfa

namespace Expression

/-- **The subset construction is exact.** The run along a word ends in some state if and only if
some path spells the word. The label of that state holds the numbers of the states that such paths
lead to, which all have numbers. Otherwise the run meets a missing edge. -/
theorem subset_exact (e : Expression) (w : List Char) :
    ((∃ q, e.nfa.toDfa.run? w = some q) ↔ ∃ s, e.nfa.Path e.nfa.start w s) ∧
    (∀ q, e.nfa.toDfa.run? w = some q → q < e.nfa.toDfa.states.size ∧
      ∀ n, n ∈ (e.nfa.toDfa.label q).numbers ↔
        ∃ s, e.nfa.Path e.nfa.start w s ∧ (Table.ofNfa e.nfa).numberOf? s = some n) ∧
    (∀ s, e.nfa.Path e.nfa.start w s → ∃ n, (Table.ofNfa e.nfa).numberOf? s = some n) ∧
    ((¬ ∃ s, e.nfa.Path e.nfa.start w s) → ∃ u c v q, w = u ++ c :: v ∧
      e.nfa.toDfa.run? u = some q ∧ e.nfa.toDfa.next? q c = none) := by
  have hg : e.nfa.InArena := e.wellFormed_nfa.toInArena
  refine ⟨hg.exists_run?_iff, fun q hq => ?_, fun s hs => hg.number_of_path hs, fun hno => ?_⟩
  · have h := hg.tracks_run? hq
    exact ⟨h.lt, h.label_iff⟩
  · rw [← hg.exists_run?_iff] at hno
    exact Dfa.exists_missing fun q hq => hno ⟨q, hq⟩

/-- **Both automata accept the same words**: the search with backtracking on the one and the walk on
the other always agree. -/
theorem nfa_dfa_agree (e : Expression) (w : List Char) :
    e.nfa.toDfa.accepts w = e.nfa.accepts w := by
  have hg : e.nfa.InArena := e.wellFormed_nfa.toInArena
  rw [Bool.eq_iff_iff, hg.accepts_toDfa_iff, hg.accepts_iff]

end Expression

end Automata
