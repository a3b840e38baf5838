import Automata.Checked.Table
import Automata.Proofs.Checked.Nfa
import Automata.Proofs.Table.Numbering

/-!
# The table is built within its vectors

The vector of numbers has a place for each state of the arena. What is numbered are states, and so
is all that is looked up for a row, the targets of a state and its closure.

* `numbering?_eq`, `numbersOf?_eq`: the writes and the look-ups.
* `InArena.row?_eq`: one row.
* `InArena.table?_eq`: **the table is built without a look-up outside.**
-/

namespace Automata

/-- A map put together again from its entries, each changed by `f`. -/
theorem ofList_map_toList {α β : Type} (m : SymbolMap α) (f : α → β) :
    Std.ExtTreeMap.ofList (m.toList.map fun p => (p.1, f p.2)) compare = m.map fun _ x => f x := by
  apply Std.ExtTreeMap.ext_getElem?
  intro c
  have hdistinct : (m.toList.map fun p => (p.1, f p.2)).Pairwise
      fun p q => ¬ compare p.1 q.1 = .eq :=
    List.pairwise_map.2 Std.ExtTreeMap.distinct_keys_toList
  rw [Std.ExtTreeMap.getElem?_map]
  cases hc : m[c]? with
  | some x =>
    have hmem : (c, f x) ∈ m.toList.map fun p => (p.1, f p.2) :=
      List.mem_map.2 ⟨(c, x), Std.ExtTreeMap.mem_toList_iff_getElem?_eq_some.2 hc, rfl⟩
    exact Std.ExtTreeMap.getElem?_ofList_of_mem Std.ReflCmp.compare_self hdistinct hmem
  | none =>
    refine Std.ExtTreeMap.getElem?_ofList_of_contains_eq_false ?_
    rw [List.map_map, List.contains_eq_mem, decide_eq_false_iff_not]
    intro hmem
    obtain ⟨⟨d, x⟩, hd, rfl⟩ := List.mem_map.1 hmem
    have hx : m[d]? = some x := Std.ExtTreeMap.mem_toList_iff_getElem?_eq_some.1 hd
    have hnone : m[d]? = none := hc
    rw [hx] at hnone
    exact absurd hnone (by simp)

theorem size_numbering (size : Nat) (order : Array Nat) : (numbering size order).size = size := by
  unfold numbering
  rw [← Array.foldl_toList]
  refine List.foldlRecOn (motive := fun (numbers : Array (Option Nat)) => numbers.size = size) _ _
    Array.size_replicate ?_
  intro numbers hsize p _
  rw [Array.size_setIfInBounds, hsize]

theorem numbering?_eq {size : Nat} {order : Array Nat} (h : ∀ i ∈ order, i < size) :
    numbering? size order = some (numbering size order) := by
  unfold numbering? numbering
  rw [← Array.foldl_toList, Array.toList_zipIdx]
  -- the vector of numbers keeps its size
  refine foldlM_eq_some (P := fun numbers => numbers.size = size) Array.size_replicate ?_
  intro numbers p hsize hp
  have hmem : p.1 ∈ order := Array.mem_toList_iff.1 (List.fst_mem_of_mem_zipIdx hp)
  exact ⟨checked_of_lt (by rw [hsize]; exact h p.1 hmem),
    by rw [Array.size_setIfInBounds, hsize]⟩

theorem numbersOf?_eq {numbers : Array (Option Nat)} {l : List Nat}
    (h : ∀ t ∈ l, t < numbers.size) :
    numbersOf? numbers l = some (l.filterMap fun t => numbers[t]?.join) := by
  have hl : (l.mapM fun t => numbers[t]?) = some (l.map fun t => numbers[t]?.join) :=
    mapM_eq_some fun t ht => by rw [Array.getElem?_eq_getElem (h t ht), Option.join_some]
  unfold numbersOf?
  rw [hl, Option.bind_eq_bind, Option.bind_some, List.filterMap_map]
  rfl

namespace Nfa.InArena

variable {g : Nfa} {s : Nat} {numbers : Array (Option Nat)}

theorem visitingOrder?_eq (hg : g.InArena) : g.visitingOrder? = some g.visitingOrder := by
  have hvisit : ∀ i, Search.Reaches (fun i => (g.state i).successors) g.start i →
      decide (i < g.size) = true ∧ ((g.state? i).map fun s => (false, s.successors)) =
        some (false, (g.state i).successors) := by
    intro i hi
    have hlt := hg.enclosed.lt_of_reaches (fun i j hj => mem_successors_state.1 hj) hg.start_lt hi
    exact ⟨decide_eq_true hlt, by rw [state?_of_lt hlt, Option.map_some]⟩
  unfold visitingOrder?
  rw [Search.preorder?_eq (fun _ => false) (hg.enclosed.atMost_successors hg.start_lt) hvisit,
    Option.bind_eq_bind, Option.bind_some]
  rfl

/-- **A row is built within the vectors** if there is a place for the number of each state. -/
theorem row?_eq (hg : g.InArena) (hs : s < g.size) (hsize : numbers.size = g.size) :
    g.row? numbers s =
      some (Row.ofState (fun id => numbers[id]?.join) s (g.state s) (g.closure s)) := by
  have hedges : ((g.state s).edges.toList.mapM fun p => (numbersOf? numbers p.2).map fun targets =>
      (p.1, targets)) = some ((g.state s).edges.toList.map fun p =>
        (p.1, p.2.filterMap fun t => numbers[t]?.join)) := by
    refine mapM_eq_some fun p hp => ?_
    have htargets : ∀ t ∈ p.2, t < numbers.size := by
      intro t ht
      have hsucc : t ∈ (g.state s).successors :=
        List.mem_append.2 (Or.inl (List.mem_flatMap.2 ⟨p, hp, ht⟩))
      obtain ⟨l, hl⟩ := mem_successors_state.1 hsucc
      rw [hsize]
      exact hg.edge_lt hl
    rw [numbersOf?_eq htargets, Option.map_some]
  have hclosure : ∀ t ∈ g.closure s, t < numbers.size := by
    intro t ht
    rw [hsize]
    exact ((hg.mem_closure_iff hs).1 ht).target_lt hg.enclosed hs
  unfold row?
  simp only [state?_of_lt hs, hedges, hg.closure?_eq hs, numbersOf?_eq hclosure,
    Option.bind_eq_bind, Option.bind_some, ofList_map_toList]
  rfl

theorem acceptingNumber?_eq (hs : s < g.size) (hsize : numbers.size = g.size) :
    g.acceptingNumber? numbers s =
      some (if (g.state s).accepting then numbers[s]?.join else none) := by
  have hlt : s < numbers.size := by omega
  unfold acceptingNumber?
  rw [state?_of_lt hs, Option.bind_eq_bind, Option.bind_some, Array.getElem?_eq_getElem hlt,
    Option.join_some]
  split <;> rfl

/-- **The table is built without a look-up outside** its vectors and those of the automaton. -/
theorem table?_eq (hg : g.InArena) : g.table? = some (Table.ofNfa g) := by
  have hlt : ∀ i ∈ g.visitingOrder, i < g.size := fun i hi =>
    hg.reachable_lt (hg.mem_visitingOrder_iff.1 hi)
  have hrows := mapM_eq_some (l := g.visitingOrder.toList) fun i hi =>
    hg.row?_eq (hlt i (Array.mem_toList_iff.1 hi)) (size_numbering g.size g.visitingOrder)
  have haccepting := mapM_eq_some (l := g.visitingOrder.toList) fun i hi =>
    acceptingNumber?_eq (hlt i (Array.mem_toList_iff.1 hi))
      (size_numbering g.size g.visitingOrder)
  unfold table?
  simp only [hg.visitingOrder?_eq, numbering?_eq hlt, hrows, haccepting, Option.bind_eq_bind,
    Option.bind_some, List.filterMap_map]
  unfold Table.ofNfa Table.ofClosures
  rw [← Array.toList_map]
  rfl

end Nfa.InArena

end Automata
