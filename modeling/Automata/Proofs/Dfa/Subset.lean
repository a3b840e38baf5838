import Mathlib.Data.List.Sort
import Mathlib.Data.List.Sublists
import Automata.Dfa.Subset
import Automata.Proofs.Label
import Automata.Proofs.Table.Numbering

/-!
# The states and edges of the subset construction

* `Label.length_le_two_pow`, `Label.length_lt_two_pow`: there are no more than `2 ^ n` labels of the
  numbers from 1 to `n`, and fewer that are not empty.
* `Table.move`, `Table.mem_move_iff`: the label that a label leads to on a symbol, by its members.
* `InArena.overflow_subsets`: **the bound of the construction is no restriction**, so its
  exploration finds every label.
* `InArena.next?_toDfa_iff`, `InArena.exists_next?_toDfa`: an edge leads to the state of the label
  moved, and **only an empty label or a symbol outside the alphabet has no edge.**
-/

namespace Automata

open Search

variable {c : Char} {k n : Nat}

/-! ### Counting labels -/

namespace Label

/-- A label of numbers up to `n` is a sublist of all of them. -/
theorem sublist_range' {l : Label} (h : ∀ m ∈ l.numbers, m ∈ List.range' 1 n) :
    l.numbers.Sublist (List.range' 1 n) := by
  have hsub := List.subperm_of_subset (l.ascending.imp Nat.ne_of_lt) h
  exact List.sublist_of_subperm_of_pairwise hsub l.ascending List.pairwise_lt_range'

/-- **There are at most `2 ^ n` labels** of numbers up to `n`. -/
theorem length_le_two_pow {labels : List Label} (hl : labels.Nodup)
    (h : ∀ l ∈ labels, ∀ m ∈ l.numbers, m ∈ List.range' 1 n) : labels.length ≤ Nat.pow 2 n := by
  have hnodup : (labels.map numbers).Nodup := hl.map numbers_injective
  have hsub : labels.map numbers ⊆ (List.range' 1 n).sublists := by
    intro x hx
    obtain ⟨l, hmem, rfl⟩ := List.mem_map.1 hx
    exact List.mem_sublists.2 (sublist_range' (h l hmem))
  have hlen := (List.subperm_of_subset hnodup hsub).length_le
  rw [List.length_map, List.length_sublists, List.length_range'] at hlen
  exact hlen

/-- **There are fewer than `2 ^ n` nonempty labels** of numbers up to `n`: the empty one is left
out. -/
theorem length_lt_two_pow {labels : List Label} (hl : labels.Nodup)
    (h : ∀ l ∈ labels, ∀ m ∈ l.numbers, m ∈ List.range' 1 n)
    (hne : ∀ l ∈ labels, l.numbers ≠ []) : labels.length < Nat.pow 2 n := by
  have hempty : (∅ : Label) ∉ labels := fun hmem => hne ∅ hmem rfl
  refine length_le_two_pow (List.nodup_cons.2 ⟨hempty, hl⟩) fun l hmem => ?_
  rcases List.mem_cons.1 hmem with rfl | hmem
  · intro m hm
    exact absurd hm List.not_mem_nil
  · exact h l hmem

end Label

/-! ### One step -/

namespace Table

variable {t : Table} {alphabet : Alphabet} {l target : Label}

theorem mem_foldl_union {targets : List Nat} :
    k ∈ (targets.foldl (fun l n => l ∪ t.label n) l).numbers ↔
      k ∈ l.numbers ∨ ∃ m ∈ targets, k ∈ (t.label m).numbers := by
  induction targets generalizing l with
  | nil => simp
  | cons m targets ih =>
    rw [List.foldl_cons, ih, Label.mem_numbers_union, or_assoc, List.exists_mem_cons_iff]

/-- What a row adds to the labels collected so far. -/
theorem mem_addRow {labels : SymbolMap Label} {row : Row} :
    k ∈ ((t.addRow labels row).getD c ∅).numbers ↔
      k ∈ (labels.getD c ∅).numbers ∨
        ∃ targets, row.edges[c]? = some targets ∧ ∃ m ∈ targets, k ∈ (t.label m).numbers := by
  have key : ∀ (edges : List (Char × List Nat)) (labels : SymbolMap Label),
      k ∈ ((edges.foldl (fun labels p => labels.insert p.1
        (p.2.foldl (fun l n => l ∪ t.label n) (labels.getD p.1 ∅))) labels).getD c ∅).numbers ↔
      k ∈ (labels.getD c ∅).numbers ∨
        ∃ targets, (c, targets) ∈ edges ∧ ∃ m ∈ targets, k ∈ (t.label m).numbers := by
    intro edges
    induction edges with
    | nil => intro labels; simp
    | cons p edges ih =>
      obtain ⟨d, targets⟩ := p
      intro labels
      rw [List.foldl_cons, ih, Std.ExtTreeMap.getD_insert]
      by_cases hd : d = c
      · subst hd
        rw [if_pos Std.ReflCmp.compare_self, mem_foldl_union, or_assoc]
        simp only [List.mem_cons, Prod.mk.injEq, true_and, or_and_right, exists_or,
          exists_eq_left]
      · rw [if_neg fun h => hd (Std.LawfulEqCmp.eq_of_compare h)]
        simp only [List.mem_cons, Prod.mk.injEq, Ne.symm hd, false_and, false_or]
  -- the fold over the map is one over the list of its entries
  unfold addRow
  rw [Std.ExtTreeMap.foldl_eq_foldl_toList, key]
  simp only [Std.ExtTreeMap.mem_toList_iff_getElem?_eq_some]

/-- The label that a label leads to on a symbol; it is empty if nothing is reached. -/
def move (t : Table) (l : Label) (c : Char) : Label :=
  ((l.numbers.filterMap t.row?).foldl t.addRow ∅).getD c ∅

theorem mem_targets : k ∈ t.targets n c ↔
    ∃ row, t.row? n = some row ∧ ∃ targets, row.edges[c]? = some targets ∧ k ∈ targets := by
  unfold targets
  cases t.row? n with
  | none => simp
  | some row => cases h : row.edges[c]? <;> simp [h]

/-- **A label moves to the closures of the targets of its members.** -/
theorem mem_move_iff : k ∈ (t.move l c).numbers ↔
    ∃ n ∈ l.numbers, ∃ m ∈ t.targets n c, k ∈ (t.label m).numbers := by
  have key : ∀ (rows : List Row) (labels : SymbolMap Label),
      k ∈ ((rows.foldl t.addRow labels).getD c ∅).numbers ↔ k ∈ (labels.getD c ∅).numbers ∨
        ∃ row ∈ rows, ∃ targets, row.edges[c]? = some targets ∧
          ∃ m ∈ targets, k ∈ (t.label m).numbers := by
    intro rows
    induction rows with
    | nil => intro labels; simp
    | cons row rows ih =>
      intro labels
      rw [List.foldl_cons, ih, mem_addRow, or_assoc, List.exists_mem_cons_iff]
  have hempty : k ∉ ((∅ : SymbolMap Label).getD c ∅).numbers := by
    rw [Std.ExtTreeMap.getD_empty]
    exact List.not_mem_nil
  unfold move
  rw [key, or_iff_right hempty]
  refine ⟨?_, ?_⟩
  · rintro ⟨row, hrow, targets, hc, m, hm, hk⟩
    obtain ⟨n, hn, hr⟩ := List.mem_filterMap.1 hrow
    exact ⟨n, hn, m, mem_targets.2 ⟨row, hr, targets, hc, hm⟩, hk⟩
  · rintro ⟨n, hn, m, hm, hk⟩
    obtain ⟨row, hr, targets, hc, hmem⟩ := mem_targets.1 hm
    exact ⟨row, List.mem_filterMap.2 ⟨n, hn, hr⟩, targets, hc, m, hmem, hk⟩

/-- **The successors of a label** are the labels it moves to, where they are not empty. -/
theorem getElem?_successors : (t.successors alphabet l)[c]? = some target ↔
    target = t.move l c ∧ c ∈ alphabet ∧ (t.move l c).numbers ≠ [] := by
  unfold successors move
  rw [Std.ExtTreeMap.getElem?_filter', Option.filter_eq_some_iff,
    Std.ExtTreeMap.getD_eq_getD_getElem?, Bool.and_eq_true, Bool.not_eq_true']
  unfold Label.isEmpty
  cases ((l.numbers.filterMap t.row?).foldl t.addRow ∅)[c]? with
  | none =>
    refine ⟨fun h => absurd h.1 (by simp), fun h => absurd rfl h.2.2⟩
  | some x =>
    rw [Option.some.injEq, Option.getD_some, eq_comm]
    refine and_congr_right ?_
    rintro rfl
    rw [List.isEmpty_eq_false_iff]
    exact Iff.rfl

end Table

/-! ### The automaton of an exploration -/

namespace Dfa

variable {t : Table} {alphabet : Alphabet} {e : Exploration Label} {q r : Nat} {l : Label}

theorem getElem?_states_ofExploration : (ofExploration t alphabet e).states[q]? =
    e.found[q]?.map fun label =>
      { id := q, label, accepting := t.accepts label
        edges := (t.successors alphabet label).filterMap fun _ target => e.index[target]? } := by
  unfold ofExploration
  rw [Array.getElem?_mapIdx]

theorem size_states_ofExploration : (ofExploration t alphabet e).states.size = e.found.size :=
  Array.size_mapIdx

/-- The states are labelled with what is found, in the same order. -/
theorem label_ofExploration (h : e.found[q]? = some l) :
    (ofExploration t alphabet e).label q = l := by
  unfold label
  rw [getElem?_states_ofExploration, h]
  rfl

theorem isAccepting_ofExploration (h : e.found[q]? = some l) :
    (ofExploration t alphabet e).isAccepting q = t.accepts l := by
  unfold isAccepting
  rw [getElem?_states_ofExploration, h]
  rfl

theorem next?_ofExploration (h : e.found[q]? = some l) :
    (ofExploration t alphabet e).next? q c = some r ↔
      e.index[t.move l c]? = some r ∧ c ∈ alphabet ∧ (t.move l c).numbers ≠ [] := by
  unfold next?
  rw [getElem?_states_ofExploration, h, Option.map_some, Option.bind_some,
    Std.ExtTreeMap.getElem?_filterMap', Option.bind_eq_some_iff]
  refine ⟨?_, ?_⟩
  · rintro ⟨target, htarget, hr⟩
    obtain ⟨rfl, hc, hne⟩ := Table.getElem?_successors.1 htarget
    exact ⟨hr, hc, hne⟩
  · rintro ⟨hr, hc, hne⟩
    exact ⟨t.move l c, Table.getElem?_successors.2 ⟨rfl, hc, hne⟩, hr⟩

end Dfa

/-! ### The automaton of an automaton -/

namespace Nfa.InArena

variable {g : Nfa} {q r : Nat}

/-- The members of the labels that can be reached are numbers of states. -/
theorem number_of_reaches (hg : g.InArena) {l : Label}
    (h : Reaches (fun l => ((Table.ofNfa g).successors g.alphabet l).toList.map (·.2))
      (Table.ofNfa g).startLabel l) :
    ∀ n ∈ l.numbers, ∃ s, (Table.ofNfa g).numberOf? s = some n := by
  refine h.mem_of_closed
    (P := fun l => ∀ n ∈ l.numbers, ∃ s, (Table.ofNfa g).numberOf? s = some n) ?_ ?_
  · intro n hn
    obtain ⟨s, -, hs⟩ := (hg.mem_label_iff hg.number_start).1 hn
    exact ⟨s, hs⟩
  · intro l hl l' hl' n hn
    obtain ⟨⟨c, target⟩, hmem, rfl⟩ := List.mem_map.1 hl'
    obtain ⟨rfl, -, -⟩ := Table.getElem?_successors.1
      (Std.ExtTreeMap.mem_toList_iff_getElem?_eq_some.1 hmem)
    obtain ⟨k, hk, m, hm, hn⟩ := Table.mem_move_iff.1 hn
    obtain ⟨s, hs⟩ := hl k hk
    obtain ⟨t, -, ht⟩ := (hg.mem_targets_iff hs).1 hm
    obtain ⟨u, -, hu⟩ := (hg.mem_label_iff ht).1 hn
    exact ⟨u, hu⟩

/-- There are at most `2 ^ n` labels that can be reached, because they hold numbers up to `n`
only. -/
theorem atMost_subsets (hg : g.InArena) :
    AtMost (fun l => ((Table.ofNfa g).successors g.alphabet l).toList.map (·.2))
      (Table.ofNfa g).startLabel (Nat.pow 2 (Table.ofNfa g).size) := by
  intro labels hnodup hreach
  refine Label.length_le_two_pow hnodup fun l hl n hn => ?_
  obtain ⟨s, hs⟩ := hg.number_of_reaches (hreach l hl) n hn
  exact hg.number_mem_range' hs

/-- **The bound of the construction is no restriction.** -/
theorem overflow_subsets (hg : g.InArena) :
    ((Table.ofNfa g).subsets g.alphabet none).overflow = false :=
  overflow_explore hg.atMost_subsets

theorem getElem?_found_subsets {l : Label} :
    ((Table.ofNfa g).subsets g.alphabet none).found[q]? = some l ↔
      q < g.toDfa.states.size ∧ g.toDfa.label q = l := by
  have hsize : g.toDfa.states.size = ((Table.ofNfa g).subsets g.alphabet none).found.size :=
    Dfa.size_states_ofExploration
  refine ⟨?_, ?_⟩
  · intro h
    have hlt := (Array.getElem?_eq_some_iff.1 h).1
    exact ⟨by omega, Dfa.label_ofExploration h⟩
  · rintro ⟨hq, rfl⟩
    have hlt : q < ((Table.ofNfa g).subsets g.alphabet none).found.size := by omega
    have h := Array.getElem?_eq_getElem hlt
    have hlabel : g.toDfa.label q = ((Table.ofNfa g).subsets g.alphabet none).found[q] :=
      Dfa.label_ofExploration h
    rw [hlabel, h]

/-- **The start state** is labelled with the closure of the start. -/
theorem label_toDfa_zero (hg : g.InArena) :
    0 < g.toDfa.states.size ∧ g.toDfa.label 0 = (Table.ofNfa g).startLabel :=
  getElem?_found_subsets.1 (getElem?_zero_explore hg.overflow_subsets)

/-- **An edge leads to the state of the label moved**, if that is not empty. -/
theorem next?_toDfa_iff (hq : q < g.toDfa.states.size) :
    g.toDfa.next? q c = some r ↔
      (r < g.toDfa.states.size ∧ g.toDfa.label r = (Table.ofNfa g).move (g.toDfa.label q) c) ∧
        c ∈ g.alphabet ∧ ((Table.ofNfa g).move (g.toDfa.label q) c).numbers ≠ [] := by
  have hnext : g.toDfa.next? q c = some r ↔
      ((Table.ofNfa g).subsets g.alphabet none).index[(Table.ofNfa g).move (g.toDfa.label q) c]? =
        some r ∧ c ∈ g.alphabet ∧ ((Table.ofNfa g).move (g.toDfa.label q) c).numbers ≠ [] :=
    Dfa.next?_ofExploration (getElem?_found_subsets.2 ⟨hq, rfl⟩)
  have hindex : ((Table.ofNfa g).subsets g.alphabet none).index[
      (Table.ofNfa g).move (g.toDfa.label q) c]? = some r ↔ _ := getElem?_index_explore
  rw [hnext, hindex]
  exact and_congr_left fun _ => getElem?_found_subsets

/-- **A label that is not empty is found**: the state has an edge for it. -/
theorem exists_next?_toDfa (hg : g.InArena) (hq : q < g.toDfa.states.size) (hc : c ∈ g.alphabet)
    (hne : ((Table.ofNfa g).move (g.toDfa.label q) c).numbers ≠ []) :
    ∃ r, g.toDfa.next? q c = some r := by
  have hmem := Array.mem_of_getElem? (getElem?_found_subsets.2 ⟨hq, rfl⟩)
  have hmove : (Table.ofNfa g).move (g.toDfa.label q) c ∈
      ((Table.ofNfa g).subsets g.alphabet none).found := by
    refine closed_explore hg.overflow_subsets hmem (List.mem_map.2 ⟨(c, _), ?_, rfl⟩)
    exact Std.ExtTreeMap.mem_toList_iff_getElem?_eq_some.2
      (Table.getElem?_successors.2 ⟨rfl, hc, hne⟩)
  obtain ⟨r, hr⟩ := Array.mem_iff_getElem?.1 hmove
  exact ⟨r, (next?_toDfa_iff hq).2 ⟨getElem?_found_subsets.1 hr, hc, hne⟩⟩

theorem isAccepting_toDfa_iff (hq : q < g.toDfa.states.size) :
    g.toDfa.isAccepting q = true ↔
      ∃ n ∈ (g.toDfa.label q).numbers, n ∈ (Table.ofNfa g).accepting := by
  have h : g.toDfa.isAccepting q = (Table.ofNfa g).accepts (g.toDfa.label q) :=
    Dfa.isAccepting_ofExploration (getElem?_found_subsets.2 ⟨hq, rfl⟩)
  unfold Table.accepts at h
  rw [h, List.any_eq_true]
  simp only [List.contains_iff_mem]

end Nfa.InArena

end Automata
