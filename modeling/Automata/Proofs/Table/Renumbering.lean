import Automata.Proofs.Expression.Language
import Automata.Proofs.Search.Traversal
import Automata.Proofs.Table.Numbering
import Automata.Table.Renumbering

/-!
# The table of an automaton renumbers it, in preorder

The rows name states by what `filterMap` finds a number for, which would hide an edge to a state
without one. There is none: what a numbered state leads to is reachable, so it is numbered too.

* `InArena.names_of_paths`: all numbers are found.
* `InArena.describes_row`: the row of a number describes its state.
* `InArena.accepting_ofNfa`: the number of the final state is the accepting one.
* `Expression.table_renumbers`: **the table renumbers the automaton.**
* `InArena.traversal_visitingOrder`, `Expression.numbering_preorder`: **the numbers follow the
  recursive traversal** that goes to the symbols in their order, and then along the empty word.
-/

namespace Automata

open Search

/-- What is found for every element of a list is found one by one. -/
theorem forall₂_filterMap {α β : Type} {f : α → Option β} {l : List α}
    (h : ∀ x ∈ l, ∃ y, f x = some y) :
    List.Forall₂ (fun x y => f x = some y) l (l.filterMap f) := by
  induction l with
  | nil => exact .nil
  | cons x l ih =>
    obtain ⟨y, hy⟩ := h x List.mem_cons_self
    rw [List.filterMap_cons_some hy]
    exact .cons hy (ih fun z hz => h z (List.mem_cons_of_mem x hz))

/-- Of a list without repetitions, what is found for one element only is found once. -/
theorem filterMap_eq_toList {α β : Type} {f : α → Option β} {l : List α} {a : α} (hl : l.Nodup)
    (hf : ∀ x ∈ l, x ≠ a → f x = none) (ha : a ∉ l → f a = none) :
    l.filterMap f = (f a).toList := by
  induction l with
  | nil => rw [ha List.not_mem_nil]; rfl
  | cons x l ih =>
    obtain ⟨hx, hl⟩ := List.nodup_cons.1 hl
    by_cases hxa : x = a
    · subst hxa
      -- nothing is found behind the element, which does not come again
      have hrest : l.filterMap f = [] := List.filterMap_eq_nil_iff.2 fun y hy =>
        hf y (List.mem_cons_of_mem x hy) fun hyx => hx (hyx ▸ hy)
      rw [List.filterMap_cons, hrest]
      cases f x <;> rfl
    · rw [List.filterMap_cons_none (hf x List.mem_cons_self hxa)]
      refine ih hl (fun y hy => hf y (List.mem_cons_of_mem x hy)) fun hal => ha fun hm => ?_
      rcases List.mem_cons.1 hm with rfl | hm
      · exact hxa rfl
      · exact hal hm

/-- The successors of a state, symbol by symbol in the order of the symbols, and then along the
empty word. -/
theorem State.successors_eq (s : State) :
    s.successors = s.edges.keys.flatMap s.targets ++ s.epsilon := by
  have h : s.edges.toList.flatMap (·.2) = s.edges.toList.flatMap fun p => s.targets p.1 := by
    refine List.flatMap_congr fun p hp => ?_
    have hc := Std.ExtTreeMap.mem_toList_iff_getElem?_eq_some.1 hp
    rw [State.targets, Std.ExtTreeMap.getD_eq_getD_getElem?, hc, Option.getD_some]
  rw [State.successors, h, ← Std.ExtTreeMap.map_fst_toList_eq_keys, List.flatMap_map]

/-- The symbols of the edges of a state are listed in ascending order. -/
theorem State.keys_ascending (s : State) : s.edges.keys.Pairwise (· < ·) := by
  have h : s.edges.keys.Pairwise fun c d => compare c d = .lt := Std.ExtTreeMap.ordered_keys
  exact h.imp compareOfLessAndEq_eq_lt.1

namespace Nfa.InArena

variable {g : Nfa} {s n : Nat} {c : Char}

/-! ### Rows -/

/-- **All numbers are found** for states that paths lead to from a numbered state. -/
theorem names_of_paths (hg : g.InArena) (hs : (Table.ofNfa g).numberOf? s = some n) {l : List Nat}
    (hl : ∀ t ∈ l, ∃ w, g.Path s w t) :
    (Table.ofNfa g).Names l (l.filterMap (Table.ofNfa g).numberOf?) := by
  refine forall₂_filterMap fun t ht => ?_
  obtain ⟨w, hp⟩ := hl t ht
  exact hg.number_of_path_from hs hp

/-- **The row of a number describes its state.** -/
theorem describes_row (hg : g.InArena) (hs : (Table.ofNfa g).numberOf? s = some n) :
    (Row.ofState (Table.ofNfa g).numberOf? s (g.state s) (g.closure s)).Describes
      (Table.ofNfa g) g s where
  state_eq := rfl
  edges := by
    intro c
    have hrow : (Row.ofState (Table.ofNfa g).numberOf? s (g.state s) (g.closure s)).edges[c]? =
        (g.state s).edges[c]?.map fun targets => targets.filterMap (Table.ofNfa g).numberOf? :=
      Std.ExtTreeMap.getElem?_map
    rw [hrow]
    cases hc : (g.state s).edges[c]? with
    | none => exact .none
    | some targets =>
      refine .some (hg.names_of_paths hs fun t ht => ⟨[c], Path.edge (l := some c) ?_⟩)
      exact edge_some.2 (State.mem_targets.2 ⟨targets, hc, ht⟩)
  closure := by
    have hlt : s < g.size := hg.reachable_lt (hg.exists_number_iff.1 ⟨n, hs⟩)
    exact hg.names_of_paths hs fun t ht => ⟨[], (hg.mem_closure_iff hlt).1 ht⟩

/-! ### Numbers -/

/-- **The numbers are those from 1 to the size of the table.** -/
theorem exists_state_iff (hg : g.InArena) :
    (∃ s, (Table.ofNfa g).numberOf? s = some n) ↔ 1 ≤ n ∧ n ≤ (Table.ofNfa g).size := by
  refine ⟨?_, ?_⟩
  · rintro ⟨s, hs⟩
    have h := List.mem_range'_1.1 (hg.number_mem_range' hs)
    omega
  · rintro ⟨h1, hn⟩
    rw [size_ofNfa] at hn
    have hlt : n - 1 < g.visitingOrder.size := by omega
    exact ⟨g.visitingOrder[n - 1], hg.numberOf?_iff.2
      ⟨n - 1, Array.getElem?_eq_getElem hlt, by omega⟩⟩

/-- **The accepting number** is that of the final state, if it has one. -/
theorem accepting_ofNfa (hg : g.InArena) (ha : g.AcceptsAtFinal) :
    (Table.ofNfa g).accepting = ((Table.ofNfa g).numberOf? g.final).toList := by
  have h : (Table.ofNfa g).accepting = g.visitingOrder.toList.filterMap fun id =>
      if (g.state id).accepting then (Table.ofNfa g).numberOf? id else none := rfl
  have hfinal : (g.state g.final).accepting = true := (ha g.final).2 rfl
  rw [h, filterMap_eq_toList (a := g.final) hg.nodup_visitingOrder, if_pos hfinal]
  · intro s _ hs
    rw [if_neg fun hacc => hs ((ha s).1 hacc)]
  · -- a state that is not visited has no number
    intro hno
    rw [if_pos hfinal, Option.eq_none_iff_forall_ne_some]
    intro n hn
    refine hno (Array.mem_toList_iff.2 (hg.mem_visitingOrder_iff.2 ?_))
    exact hg.exists_number_iff.1 ⟨n, hn⟩

/-- **The table of an automaton renumbers it.** -/
theorem renumbers_ofNfa (hg : g.InArena) (ha : g.AcceptsAtFinal) : (Table.ofNfa g).Renumbers g where
  exists_number := fun _ => hg.exists_number_iff
  exists_state := fun _ => hg.exists_state_iff
  injective := fun _ _ _ hs hs' => hg.number_inj hs hs'
  start := hg.number_start
  row := fun _ _ hs => ⟨_, hg.row?_of_number hs, hg.describes_row hs⟩
  accepting := hg.accepting_ofNfa ha

/-! ### The order of the numbers -/

/-- **States are visited in the order of the recursive traversal.** -/
theorem traversal_visitingOrder (hg : g.InArena) :
    Traversal (fun i => (g.state i).successors) [] [g.start] g.visitingOrder.toList :=
  traversal_preorder (hg.enclosed.atMost_successors hg.start_lt)

theorem map_state_rows : (Table.ofNfa g).rows.toList.map (·.state) = g.visitingOrder.toList := by
  have h : (Table.ofNfa g).rows = g.visitingOrder.map fun id =>
      Row.ofState (Table.ofNfa g).numberOf? id (g.state id) (g.closure id) := rfl
  rw [h, Array.toList_map, List.map_map]
  exact List.map_id _

end Nfa.InArena

namespace Expression

/-- **The table is a faithful renumbering of the reachable states**, with every edge, every closure
and the final state, and with nothing that is not reachable. -/
theorem table_renumbers (e : Expression) : (Table.ofNfa e.nfa).Renumbers e.nfa :=
  e.wellFormed_nfa.toInArena.renumbers_ofNfa e.wellFormed_nfa.acceptsAtFinal

/-- **The numbers follow the recursive depth-first traversal.** The traversal from the start has one
result, and this is the order of the rows. Each number is a place in it, counted from 1. From a
state the traversal goes to the targets on its symbols, which ascend, and then along the empty word,
in each case in the order in which the state has them. -/
theorem numbering_preorder (e : Expression) :
    (∀ order, Traversal (fun i => (e.nfa.state i).successors) [] [e.nfa.start] order ↔
      order = (Table.ofNfa e.nfa).rows.toList.map (·.state)) ∧
    (∀ s n, (Table.ofNfa e.nfa).numberOf? s = some n ↔
      ∃ k, ((Table.ofNfa e.nfa).rows.toList.map (·.state))[k]? = some s ∧ n = k + 1) ∧
    ∀ i, (e.nfa.state i).edges.keys.Pairwise (· < ·) ∧
      (e.nfa.state i).successors =
        (e.nfa.state i).edges.keys.flatMap (e.nfa.state i).targets ++ (e.nfa.state i).epsilon := by
  have hg : e.nfa.InArena := e.wellFormed_nfa.toInArena
  rw [Nfa.InArena.map_state_rows]
  refine ⟨fun order => ⟨fun h => h.unique hg.traversal_visitingOrder, ?_⟩, fun s n => ?_,
    fun i => ?_⟩
  · rintro rfl
    exact hg.traversal_visitingOrder
  · rw [hg.numberOf?_iff]
    simp only [Array.getElem?_toList]
  · exact ⟨State.keys_ascending _, State.successors_eq _⟩

end Expression

end Automata
