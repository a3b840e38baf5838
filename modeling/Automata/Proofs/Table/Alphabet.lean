import Mathlib
import Automata.Proofs.Dfa.Simulation
import Automata.Proofs.Table.Renumbering

/-!
# The table holds all that the subset construction reads

The alphabet of an automaton and the rows of its table come from two searches in different orders.
Both visit the reachable states, so they meet the same symbols. The subset construction looks at
nothing but these two, which makes it a function of the table.

* `Table.mem_alphabet_iff`: the alphabet of a table in terms of its rows.
* `Renumbers.exists_describes`: every row is that of a reachable state.
* `Row.Describes.mem_edges_iff`, `Row.Describes.targets_ne_nil`: a row has entries for the symbols
  of its state, and none of them is empty.
* `Renumbers.alphabet_eq`: **the alphabet is that of the table.**
* `Expression.table_determines_dfa`: automata with equal tables have the same deterministic
  automaton and accept the same words.
-/

namespace Automata

variable {t : Table} {g : Nfa} {row : Row} {n s : Nat} {c : Char}

/-! ### Rows -/

/-- The alphabet of a table holds the symbols that some row has an entry for. -/
theorem Table.mem_alphabet_iff : c ∈ t.alphabet ↔ ∃ row ∈ t.rows, c ∈ row.edges := by
  rw [alphabet, Std.ExtTreeSet.mem_ofList, List.contains_iff_mem, List.mem_flatMap]
  refine exists_congr fun row => ?_
  rw [Array.mem_toList_iff, Std.ExtTreeMap.mem_keys]

/-- A row is the row of some number up to the size of the table. -/
theorem Table.exists_row?_eq (h : row ∈ t.rows) :
    ∃ n, 1 ≤ n ∧ n ≤ t.size ∧ t.row? n = some row := by
  obtain ⟨k, hk, rfl⟩ := Array.mem_iff_getElem.1 h
  exact ⟨k + 1, Nat.le_add_left 1 k, hk, Array.getElem?_eq_getElem hk⟩

theorem Table.mem_rows_of_row? (h : t.row? n = some row) : row ∈ t.rows := by
  cases n with
  | zero => exact absurd h (by simp [row?])
  | succ k => exact Array.mem_of_getElem? h

/-- **Every row is that of a reachable state.** -/
theorem Table.Renumbers.exists_describes (h : t.Renumbers g) (hrow : row ∈ t.rows) :
    ∃ s, g.Reachable s ∧ row.Describes t g s := by
  obtain ⟨n, hone, hn, hget⟩ := Table.exists_row?_eq hrow
  obtain ⟨s, hs⟩ := (h.exists_state n).2 ⟨hone, hn⟩
  obtain ⟨row', hget', hdesc⟩ := h.row s n hs
  rw [hget] at hget'
  rw [← Option.some.inj hget'] at hdesc
  exact ⟨s, (h.exists_number s).1 ⟨n, hs⟩, hdesc⟩

/-- **Every reachable state has a row.** -/
theorem Table.Renumbers.exists_row (h : t.Renumbers g) (hs : g.Reachable s) :
    ∃ row ∈ t.rows, row.Describes t g s := by
  obtain ⟨n, hn⟩ := (h.exists_number s).2 hs
  obtain ⟨row, hget, hdesc⟩ := h.row s n hn
  exact ⟨row, Table.mem_rows_of_row? hget, hdesc⟩

namespace Row.Describes

/-- A row has entries for the symbols of its state. -/
theorem mem_edges_iff (h : row.Describes t g s) : c ∈ row.edges ↔ c ∈ (g.state s).edges := by
  rw [← Std.ExtTreeMap.isSome_getElem?_iff_mem, ← Std.ExtTreeMap.isSome_getElem?_iff_mem]
  have hrel := h.edges c
  generalize (g.state s).edges[c]? = ids, row.edges[c]? = targets at hrel ⊢
  cases hrel <;> exact Iff.rfl

/-- The targets in a row are as many as those of its state, so no entry is empty. -/
theorem targets_ne_nil (h : row.Describes t g s) (hs : (g.state s).Proper) {targets : List Nat}
    (hc : row.edges[c]? = some targets) : targets ≠ [] := by
  have hrel := h.edges c
  rw [hc] at hrel
  cases hstate : (g.state s).edges[c]? with
  | none =>
    rw [hstate] at hrel
    cases hrel
  | some ids =>
    rw [hstate] at hrel
    cases hrel with
    | some hnames =>
      have hne := hs c ids hstate
      rw [← List.length_pos_iff_ne_nil] at hne ⊢
      rwa [← hnames.length_eq]

end Row.Describes

/-! ### The alphabet -/

/-- **The alphabet of an automaton is that of its table.** -/
theorem Table.Renumbers.alphabet_eq (h : t.Renumbers g) (hg : g.InArena) :
    g.alphabet = t.alphabet := by
  apply Std.ExtTreeSet.ext_mem
  intro c
  rw [hg.mem_alphabet_iff, Table.mem_alphabet_iff]
  refine ⟨?_, ?_⟩
  · rintro ⟨s, hs, hc⟩
    obtain ⟨row, hrow, hdesc⟩ := h.exists_row hs
    exact ⟨row, hrow, hdesc.mem_edges_iff.2 hc⟩
  · rintro ⟨row, hrow, hc⟩
    obtain ⟨s, hs, hdesc⟩ := h.exists_describes hrow
    exact ⟨s, hs, hdesc.mem_edges_iff.1 hc⟩

namespace Expression

/-- The table and its alphabet are all that goes into the deterministic automaton. -/
theorem toDfa_nfa (e : Expression) :
    e.nfa.toDfa = .ofTable (.ofNfa e.nfa) (Table.ofNfa e.nfa).alphabet := by
  have hg := e.wellFormed_nfa
  rw [← (hg.toInArena.renumbers_ofNfa hg.acceptsAtFinal).alphabet_eq hg.toInArena]
  rfl

/-- **The deterministic automaton is a function of the table.** The alphabet is the union of the
symbols of the rows, in which every symbol has a target. So automata with equal tables have equal
deterministic automata, with the same states, labels, edges and accepting states, and they accept
the same words. -/
theorem table_determines_dfa (e e' : Expression) :
    e.nfa.alphabet = (Table.ofNfa e.nfa).alphabet ∧
    (∀ row ∈ (Table.ofNfa e.nfa).rows, ∀ (c : Char) (targets : List Nat),
      row.edges[c]? = some targets → targets ≠ []) ∧
    e.nfa.toDfa = .ofTable (.ofNfa e.nfa) (Table.ofNfa e.nfa).alphabet ∧
    (Table.ofNfa e.nfa = .ofNfa e'.nfa →
      e.nfa.toDfa = e'.nfa.toDfa ∧ ∀ w, e.nfa.accepts w = e'.nfa.accepts w) := by
  have hg := e.wellFormed_nfa
  have hr := hg.toInArena.renumbers_ofNfa hg.acceptsAtFinal
  refine ⟨hr.alphabet_eq hg.toInArena, fun row hrow c targets hc => ?_, e.toDfa_nfa, fun h => ?_⟩
  · obtain ⟨s, -, hdesc⟩ := hr.exists_describes hrow
    exact hdesc.targets_ne_nil (hg.tidy.proper s) hc
  · have hdfa : e.nfa.toDfa = e'.nfa.toDfa := by rw [e.toDfa_nfa, e'.toDfa_nfa, h]
    have hg' := e'.wellFormed_nfa.toInArena
    refine ⟨hdfa, fun w => ?_⟩
    rw [Bool.eq_iff_iff, hg.toInArena.accepts_iff, hg'.accepts_iff,
      ← hg.toInArena.accepts_toDfa_iff, ← hg'.accepts_toDfa_iff, hdfa]

/-- The symbol of an operand that is never entered leaves no trace in the table, so either automaton
has the other's deterministic one. -/
theorem dfa_eq_of_unreached_symbol :
    Table.ofNfa (concatPair emptyLanguage (char 'a')).nfa =
      .ofNfa (concatPair emptyLanguage (char 'b')).nfa ∧
    (concatPair emptyLanguage (char 'a')).nfa.toDfa =
      (concatPair emptyLanguage (char 'b')).nfa.toDfa ∧
    ∀ w, (concatPair emptyLanguage (char 'a')).nfa.accepts w =
      (concatPair emptyLanguage (char 'b')).nfa.accepts w := by
  have htable : Table.ofNfa (concatPair emptyLanguage (char 'a')).nfa =
      .ofNfa (concatPair emptyLanguage (char 'b')).nfa := by cbv
  have h := table_determines_dfa (concatPair emptyLanguage (char 'a'))
    (concatPair emptyLanguage (char 'b'))
  exact ⟨htable, h.2.2.2 htable⟩

end Expression

end Automata
