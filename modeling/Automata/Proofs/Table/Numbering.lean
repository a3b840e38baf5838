import Automata.Proofs.Nfa.Search

/-!
# The table of an automaton in terms of its states

The table names states by numbers. Every look-up of a numbered state answers what the arena says of
it, with the targets named by their own numbers. Nothing drops out on the way, because what a
reachable state leads to is reachable too.

* `numberOf?_iff`: the number of a state is its place in the order of visits, counted from 1.
* `exists_number_iff`, `number_inj`: **the reachable states have numbers, and different ones.**
* `mem_targets_iff`, `mem_label_iff`, `mem_accepting_iff`: the look-ups.
-/

namespace Automata

/-- What an array holds after all places of a list have been numbered on from `k`. -/
theorem join_foldl_zipIdx {l : List Nat} {k i n : Nat} {a : Array (Option Nat)} (hl : l.Nodup)
    (ha : ∀ x ∈ l, x < a.size) :
    ((l.zipIdx k).foldl (fun a (x, n) => a.setIfInBounds x (some n)) a)[i]?.join = some n ↔
      (i, n) ∈ l.zipIdx k ∨ i ∉ l ∧ a[i]?.join = some n := by
  induction l generalizing k a with
  | nil => simp
  | cons x l ih =>
    obtain ⟨hx, hl⟩ := List.nodup_cons.1 hl
    have hsize : x < a.size := ha x List.mem_cons_self
    have ha' : ∀ y ∈ l, y < (a.setIfInBounds x (some k)).size := by
      intro y hy
      rw [Array.size_setIfInBounds]
      exact ha y (List.mem_cons_of_mem x hy)
    rw [List.zipIdx_cons, List.foldl_cons, ih hl ha', List.mem_cons, or_comm (a := (i, n) = (x, k)),
      or_assoc]
    refine or_congr_right ?_
    -- `x` does not come again, so the number given to it now is the one it keeps
    by_cases hi : i = x
    · subst hi
      rw [Array.getElem?_setIfInBounds_self_of_lt hsize]
      simp [hx, eq_comm]
    · rw [Array.getElem?_setIfInBounds_ne (Ne.symm hi)]
      simp [hi]

theorem join_numbering {size i n : Nat} {order : Array Nat} (ho : order.toList.Nodup)
    (hsize : ∀ x ∈ order, x < size) :
    (numbering size order)[i]?.join = some n ↔ ∃ k, order[k]? = some i ∧ n = k + 1 := by
  have hlt : ∀ x ∈ order.toList, x < (Array.replicate size (none : Option Nat)).size := by
    intro x hx
    rw [Array.size_replicate]
    exact hsize x (Array.mem_toList_iff.1 hx)
  have hnone : ¬ (Array.replicate size (none : Option Nat))[i]?.join = some n := by
    rw [Array.getElem?_replicate]
    split <;> simp
  unfold numbering
  rw [← Array.foldl_toList, Array.toList_zipIdx, join_foldl_zipIdx ho hlt,
    or_iff_left fun h => hnone h.2, List.mk_mem_zipIdx_iff_le_and_getElem?_sub,
    Array.getElem?_toList]
  refine ⟨?_, ?_⟩
  · rintro ⟨hn, h⟩
    exact ⟨n - 1, h, by omega⟩
  · rintro ⟨k, h, rfl⟩
    exact ⟨by omega, h⟩

namespace Nfa.InArena

variable {g : Nfa} {s t n m : Nat} {c : Char} {w : List Char}

/-- **The number of a state** is its place in the order of visits. -/
theorem numberOf?_iff (hg : g.InArena) :
    (Table.ofNfa g).numberOf? s = some n ↔ ∃ k, g.visitingOrder[k]? = some s ∧ n = k + 1 :=
  join_numbering hg.nodup_visitingOrder fun _ hx =>
    hg.reachable_lt (hg.mem_visitingOrder_iff.1 hx)

theorem exists_number_iff (hg : g.InArena) :
    (∃ n, (Table.ofNfa g).numberOf? s = some n) ↔ g.Reachable s := by
  rw [← hg.mem_visitingOrder_iff, Array.mem_iff_getElem?]
  refine ⟨?_, ?_⟩
  · rintro ⟨n, hn⟩
    obtain ⟨k, hk, -⟩ := hg.numberOf?_iff.1 hn
    exact ⟨k, hk⟩
  · rintro ⟨k, hk⟩
    exact ⟨k + 1, hg.numberOf?_iff.2 ⟨k, hk, rfl⟩⟩

theorem number_of_path (hg : g.InArena) (hp : g.Path g.start w s) :
    ∃ n, (Table.ofNfa g).numberOf? s = some n := hg.exists_number_iff.2 ⟨w, hp⟩

/-- What a path leads to from a numbered state has a number. -/
theorem number_of_path_from (hg : g.InArena) (hs : (Table.ofNfa g).numberOf? s = some n)
    (hp : g.Path s w t) : ∃ k, (Table.ofNfa g).numberOf? t = some k := by
  obtain ⟨v, hv⟩ := hg.exists_number_iff.1 ⟨n, hs⟩
  exact hg.number_of_path (hv.append hp)

/-- **Different states have different numbers.** -/
theorem number_inj (hg : g.InArena) (hs : (Table.ofNfa g).numberOf? s = some n)
    (ht : (Table.ofNfa g).numberOf? t = some n) : s = t := by
  obtain ⟨k, hk, hn⟩ := hg.numberOf?_iff.1 hs
  obtain ⟨j, hj, hm⟩ := hg.numberOf?_iff.1 ht
  obtain rfl : k = j := by omega
  rw [hk] at hj
  exact Option.some.inj hj

theorem number_start (hg : g.InArena) :
    (Table.ofNfa g).numberOf? g.start = some Table.start :=
  hg.numberOf?_iff.2 ⟨0, hg.getElem?_zero_visitingOrder, rfl⟩

theorem size_ofNfa : (Table.ofNfa g).size = g.visitingOrder.size := Array.size_map

theorem number_mem_range' (hg : g.InArena) (hs : (Table.ofNfa g).numberOf? s = some n) :
    n ∈ List.range' 1 (Table.ofNfa g).size := by
  obtain ⟨k, hk, rfl⟩ := hg.numberOf?_iff.1 hs
  have hlt := (Array.getElem?_eq_some_iff.1 hk).1
  rw [List.mem_range'_1, size_ofNfa]
  omega

/-- The row of a number is that of its state. -/
theorem row?_of_number (hg : g.InArena) (hs : (Table.ofNfa g).numberOf? s = some n) :
    (Table.ofNfa g).row? n =
      some (Row.ofState (Table.ofNfa g).numberOf? s (g.state s) (g.closure s)) := by
  obtain ⟨k, hk, rfl⟩ := hg.numberOf?_iff.1 hs
  have h : (Table.ofNfa g).row? (k + 1) = g.visitingOrder[k]?.map fun id =>
      Row.ofState (Table.ofNfa g).numberOf? id (g.state id) (g.closure id) := Array.getElem?_map
  rw [h, hk, Option.map_some]

/-- **The targets of a number** are the numbers of the targets of its state. -/
theorem mem_targets_iff (hg : g.InArena) (hs : (Table.ofNfa g).numberOf? s = some n) :
    m ∈ (Table.ofNfa g).targets n c ↔
      ∃ t ∈ (g.state s).targets c, (Table.ofNfa g).numberOf? t = some m := by
  have h : (Table.ofNfa g).targets n c =
      ((g.state s).targets c).filterMap (Table.ofNfa g).numberOf? := by
    unfold Table.targets
    rw [hg.row?_of_number hs, Option.bind_some, Row.ofState, Std.ExtTreeMap.getElem?_map,
      State.targets, Std.ExtTreeMap.getD_eq_getD_getElem?]
    cases (g.state s).edges[c]? <;> rfl
  rw [h, List.mem_filterMap]

/-- **The label of a number** holds the numbers of the closure of its state. -/
theorem mem_label_iff (hg : g.InArena) (hs : (Table.ofNfa g).numberOf? s = some n) :
    m ∈ ((Table.ofNfa g).label n).numbers ↔
      ∃ t, g.Path s [] t ∧ (Table.ofNfa g).numberOf? t = some m := by
  have hlt : s < g.size := hg.reachable_lt (hg.exists_number_iff.1 ⟨n, hs⟩)
  have h : (Table.ofNfa g).label n =
      .ofList ((g.closure s).filterMap (Table.ofNfa g).numberOf?) := by
    unfold Table.label
    rw [hg.row?_of_number hs]
    rfl
  rw [h, Label.mem_numbers_ofList, List.mem_filterMap]
  refine exists_congr fun t => ?_
  rw [hg.mem_closure_iff hlt]

/-- **A number is accepting** when its state is. -/
theorem mem_accepting_iff (hg : g.InArena) (hs : (Table.ofNfa g).numberOf? s = some n) :
    n ∈ (Table.ofNfa g).accepting ↔ (g.state s).accepting = true := by
  have h : (Table.ofNfa g).accepting = g.visitingOrder.toList.filterMap fun id =>
      if (g.state id).accepting then (Table.ofNfa g).numberOf? id else none := rfl
  rw [h, List.mem_filterMap]
  refine ⟨?_, ?_⟩
  · rintro ⟨t, -, ht⟩
    split at ht
    · next ha => rwa [hg.number_inj hs ht]
    · exact absurd ht (by simp)
  · -- the state occurs in the order because it has a number at all
    intro ha
    have hr := hg.exists_number_iff.1 ⟨n, hs⟩
    exact ⟨s, Array.mem_toList_iff.2 (hg.mem_visitingOrder_iff.2 hr), by rw [if_pos ha, hs]⟩

end Nfa.InArena

end Automata
