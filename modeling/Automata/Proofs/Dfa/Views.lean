import Mathlib.Data.Set.Card
import Automata.Proofs.Dfa.Emptiness
import Automata.Proofs.Dfa.WellFormed

/-!
# States named by their labels

The views by label collect what is said of each state under its label. Nothing is merged on the way,
because different states have different labels. States without edges are left out of the table, but
not out of the labels that it leads to.

* `countP_range_any_getElem?`, `ncard_any_getElem?`: how many places of an array hold what.
* `WellFormed.getElem?_states`, `WellFormed.idOf?_iff`: a state is found by its label.
* `WellFormed.getElem?_labelTable_iff`, `WellFormed.mem_acceptingLabels_iff`: **what the views hold.**
* `WellFormed.size_labelTable`, `WellFormed.size_acceptingLabels`: **and how much.**
* `Expression.labels_agree`: the views of every automaton that is built.
-/

namespace Automata

/-- Looking at the places of an array one by one counts its elements. -/
theorem countP_range_any_getElem? {α : Type} (a : Array α) (p : α → Bool) :
    (List.range a.size).countP (fun i => a[i]?.any p) = a.toList.countP p := by
  have hmap : (List.range a.size).map (fun i => a[i]?.any p) = a.toList.map p := by
    refine List.ext_getElem (by simp) fun i hi _ => ?_
    have hlt : i < a.size := by simpa using hi
    simp [hlt]
  have h := congrArg (List.countP id) hmap
  rwa [List.countP_map, List.countP_map] at h

/-- Of the places of an array, as many hold an element with a property as there are such
elements. -/
theorem ncard_any_getElem? {α : Type} (a : Array α) (p : α → Bool) :
    { i : Nat | a[i]?.any p = true }.ncard = a.toList.countP p := by
  have hset : { i : Nat | a[i]?.any p = true } =
      (((List.range a.size).filter fun i => a[i]?.any p).toFinset : Set Nat) := by
    ext i
    rw [Set.mem_ofPred_eq, List.coe_toFinset, Set.mem_ofPred_eq, List.mem_filter, List.mem_range]
    refine ⟨fun h => ⟨?_, h⟩, And.right⟩
    obtain ⟨x, hx, -⟩ := (Option.any_eq_true _ _).1 h
    exact (Array.getElem?_eq_some_iff.1 hx).1
  rw [hset, Set.ncard_coe_finset, List.toFinset_card_of_nodup (List.nodup_range.filter _),
    ← List.countP_eq_length_filter, countP_range_any_getElem?]

/-- A map collected from a list in which no key comes twice has the entries of the list. -/
theorem getElem?_ofList_iff {α β : Type} [Ord α] [Std.TransOrd α] [Std.LawfulEqOrd α]
    {l : List (α × β)} {k : α} {v : β} (hl : l.Pairwise fun a b => ¬ compare a.1 b.1 = .eq) :
    (Std.ExtTreeMap.ofList l compare)[k]? = some v ↔ (k, v) ∈ l := by
  have hget : ∀ {w : β}, (k, w) ∈ l → (Std.ExtTreeMap.ofList l compare)[k]? = some w :=
    Std.ExtTreeMap.getElem?_ofList_of_mem Std.ReflCmp.compare_self hl
  refine ⟨fun h => ?_, hget⟩
  -- some entry of the list has the key, and it is the one that is found
  have hk := Std.ExtTreeMap.isSome_getElem?_iff_mem.1 (Option.isSome_of_mem h)
  classical
  rw [Std.ExtTreeMap.mem_ofList, List.contains_iff_mem] at hk
  obtain ⟨⟨_, w⟩, hw, rfl⟩ := List.mem_map.1 hk
  rw [hget hw] at h
  rwa [← Option.some.inj h]

namespace Dfa

variable {t : Table} {d : Dfa} {s : SubsetState} {l : Label} {q r : Nat} {c : Char}

theorem label_of_getElem? (h : d.states[q]? = some s) : d.label q = s.label := by
  rw [label, h]
  rfl

theorem next?_of_getElem? (h : d.states[q]? = some s) : d.next? q c = s.edges[c]? := by
  rw [next?, h]
  rfl

/-- A state has an edge if its map of edges is not empty. -/
theorem exists_next?_iff :
    (∃ c r, d.next? q c = some r) ↔ d.states[q]?.any (!·.edges.isEmpty) = true := by
  unfold next?
  cases d.states[q]? with
  | none => simp
  | some s =>
    rw [Option.any_some, Bool.not_eq_true']
    refine ⟨?_, ?_⟩
    · rintro ⟨c, r, hr⟩
      by_contra hempty
      rw [Bool.not_eq_false, Std.ExtTreeMap.isEmpty_iff] at hempty
      rw [Option.bind_some, hempty] at hr
      exact absurd hr (by simp)
    · intro hne
      by_contra hno
      have hempty : s.edges = ∅ := by
        apply Std.ExtTreeMap.ext_getElem?
        intro c
        cases hc : s.edges[c]? with
        | none => simp
        | some r => exact absurd ⟨c, r, hc⟩ hno
      rw [hempty] at hne
      exact absurd hne (by simp)

namespace WellFormed

/-- A state is at the place that its label is known by. -/
theorem idOf?_iff (h : d.WellFormed t) :
    d.idOf? l = some q ↔ q < d.states.size ∧ d.label q = l := by
  refine ⟨fun hq => ?_, ?_⟩
  · -- some state has the label, since others are unknown
    by_cases hl : ∃ r, r < d.states.size ∧ d.label r = l
    · obtain ⟨r, hr, rfl⟩ := hl
      rw [h.idOf?_label r hr] at hq
      obtain rfl := Option.some.inj hq
      exact ⟨hr, rfl⟩
    · rw [h.idOf?_other l fun r hr hrl => hl ⟨r, hr, hrl⟩] at hq
      exact absurd hq (by simp)
  · rintro ⟨hq, rfl⟩
    exact h.idOf?_label q hq

/-- **Different states have different labels.** -/
theorem pairwise_label (h : d.WellFormed t) :
    d.states.toList.Pairwise fun s s' => s.label ≠ s'.label := by
  rw [List.pairwise_iff_getElem]
  intro i j hi hj hij
  have hs : d.states[i]? = some d.states.toList[i] := by simp [show i < d.states.size from hi]
  have hs' : d.states[j]? = some d.states.toList[j] := by simp [show j < d.states.size from hj]
  rw [← label_of_getElem? hs, ← label_of_getElem? hs']
  exact h.label_ne i j hi hj (Nat.ne_of_lt hij)

/-- No two entries of a view are under the same label. -/
theorem pairwise_compare (h : d.WellFormed t) (p : SubsetState → Bool) :
    (d.states.toList.filter p).Pairwise fun s s' => ¬ compare s.label s'.label = .eq :=
  (h.pairwise_label.filter p).imp fun hne heq => hne (Std.LawfulEqCmp.eq_of_compare heq)

/-! ### The table -/

/-- **What the table holds**: under the label of a state with edges, the labels of their targets. -/
theorem getElem?_labelTable_iff (h : d.WellFormed t) {targets : SymbolMap Label} :
    d.labelTable[l]? = some targets ↔
      ∃ s ∈ d.states, s.edges.isEmpty = false ∧ s.label = l ∧
        s.edges.map (fun _ target => d.label target) = targets := by
  unfold labelTable
  rw [getElem?_ofList_iff (List.pairwise_map.2 (h.pairwise_compare _))]
  simp only [List.mem_map, List.mem_filter, Array.mem_toList_iff, Bool.not_eq_true',
    Prod.mk.injEq, and_assoc]

/-- **The table has entries for the labels of states with edges.** -/
theorem mem_labelTable_iff (h : d.WellFormed t) :
    l ∈ d.labelTable ↔ ∃ q, d.label q = l ∧ ∃ c r, d.next? q c = some r := by
  rw [← Std.ExtTreeMap.isSome_getElem?_iff_mem, Option.isSome_iff_exists]
  refine ⟨?_, ?_⟩
  · rintro ⟨targets, htargets⟩
    obtain ⟨s, hs, hne, rfl, -⟩ := h.getElem?_labelTable_iff.1 htargets
    obtain ⟨q, hq⟩ := Array.mem_iff_getElem?.1 hs
    exact ⟨q, label_of_getElem? hq, exists_next?_iff.2 (by rw [hq]; simp [hne])⟩
  · rintro ⟨q, rfl, hedge⟩
    obtain ⟨s, hq, hne⟩ := (Option.any_eq_true _ _).1 (exists_next?_iff.1 hedge)
    exact ⟨_, h.getElem?_labelTable_iff.2 ⟨s, Array.mem_of_getElem? hq, by simpa using hne,
      (label_of_getElem? hq).symm, rfl⟩⟩

/-- **An edge in the table** leads from the label of a state to the label of the next one. -/
theorem labelTable_bind (h : d.WellFormed t) (hq : q < d.states.size) :
    d.labelTable[d.label q]?.bind (·[c]?) = (d.next? q c).map d.label := by
  have hs : d.states[q]? = some d.states[q] := Array.getElem?_eq_getElem hq
  by_cases hedge : ∃ c r, d.next? q c = some r
  · obtain ⟨s, hs', hne⟩ := (Option.any_eq_true _ _).1 (exists_next?_iff.1 hedge)
    have hentry := h.getElem?_labelTable_iff.2 ⟨s, Array.mem_of_getElem? hs', by simpa using hne,
      (label_of_getElem? hs').symm, rfl⟩
    rw [hentry, Option.bind_some, Std.ExtTreeMap.getElem?_map, next?_of_getElem? hs']
  · -- a state without edges has no entry, because no other state has its label
    have hnone : d.labelTable[d.label q]? = none := by
      refine Std.ExtTreeMap.getElem?_eq_none fun hmem => ?_
      obtain ⟨r, hlabel, hr⟩ := h.mem_labelTable_iff.1 hmem
      by_cases hrq : r = q
      · exact hedge (hrq ▸ hr)
      · obtain ⟨c, r', hr'⟩ := hr
        exact h.label_ne r q (lt_of_next? hr') hq hrq hlabel
    have hnext : d.next? q c = none :=
      Option.eq_none_iff_forall_ne_some.2 fun r hr => hedge ⟨c, r, hr⟩
    rw [hnone, hnext]
    rfl

/-- **There are as many entries as states with edges.** -/
theorem size_labelTable (h : d.WellFormed t) :
    d.labelTable.size = { q | ∃ c r, d.next? q c = some r }.ncard := by
  have hset : { q | ∃ c r, d.next? q c = some r } =
      { q | d.states[q]?.any (!·.edges.isEmpty) = true } := Set.ext fun _ => exists_next?_iff
  unfold labelTable
  rw [hset, ncard_any_getElem?, Std.ExtTreeMap.size_ofList, List.length_map,
    List.countP_eq_length_filter]
  rw [List.pairwise_map]
  exact h.pairwise_compare _

/-! ### The accepting labels -/

/-- **The accepting labels** are those of accepting states. -/
theorem mem_acceptingLabels_iff (h : d.WellFormed t) :
    l ∈ d.acceptingLabels ↔ ∃ q, d.idOf? l = some q ∧ d.isAccepting q = true := by
  unfold acceptingLabels
  rw [Std.ExtTreeSet.mem_ofList, List.contains_iff_mem, List.mem_map]
  refine ⟨?_, ?_⟩
  · rintro ⟨s, hs, rfl⟩
    obtain ⟨hs, hacc⟩ := List.mem_filter.1 hs
    obtain ⟨q, hq⟩ := Array.mem_iff_getElem?.1 (Array.mem_toList_iff.1 hs)
    have hlt := (Array.getElem?_eq_some_iff.1 hq).1
    refine ⟨q, h.idOf?_iff.2 ⟨hlt, label_of_getElem? hq⟩, ?_⟩
    rwa [isAccepting, hq, Option.any_some]
  · rintro ⟨q, hq, hacc⟩
    obtain ⟨-, rfl⟩ := h.idOf?_iff.1 hq
    obtain ⟨s, hs, hacc⟩ := (Option.any_eq_true _ _).1 hacc
    exact ⟨s, List.mem_filter.2 ⟨Array.mem_toList_iff.2 (Array.mem_of_getElem? hs), hacc⟩,
      (label_of_getElem? hs).symm⟩

/-- **There are as many accepting labels as accepting states.** -/
theorem size_acceptingLabels (h : d.WellFormed t) :
    d.acceptingLabels.size = { q | d.isAccepting q = true }.ncard := by
  unfold acceptingLabels isAccepting
  rw [ncard_any_getElem?, Std.ExtTreeSet.size_ofList, List.length_map,
    List.countP_eq_length_filter]
  rw [List.pairwise_map]
  exact h.pairwise_compare _

end WellFormed

end Dfa

namespace Expression

/-- **The views by label agree with the states.** In every deterministic automaton that is built,
the table leads from the label of a state on a symbol to the label of the next state, and nowhere if
there is none. It has an entry for the label of each state with an edge, for no other label, and as
many entries as there are such states. A label is accepting if it is that of an accepting state, and
there are as many such labels as accepting states. -/
theorem labels_agree (e : Expression) (d : Dfa)
    (h : d = e.nfa.toDfa ∨ ∃ limit, e.nfa.toDfaWithin limit = .ok d) :
    (∀ q c, q < d.states.size →
      d.labelTable[d.label q]?.bind (·[c]?) = (d.next? q c).map d.label) ∧
    (∀ l, l ∈ d.labelTable ↔
      ∃ q, q < d.states.size ∧ d.label q = l ∧ ∃ c r, d.next? q c = some r) ∧
    d.labelTable.size = { q | ∃ c r, d.next? q c = some r }.ncard ∧
    (∀ l, l ∈ d.acceptingLabels ↔ ∃ q, d.idOf? l = some q ∧ d.isAccepting q = true) ∧
    d.acceptingLabels.size = { q | d.isAccepting q = true }.ncard := by
  have hg : e.nfa.InArena := e.wellFormed_nfa.toInArena
  have hd : d.WellFormed (Table.ofNfa e.nfa) := by
    rcases h with rfl | ⟨limit, hlimit⟩
    · exact hg.wellFormed_toDfa
    · exact hg.eq_toDfa_of_within hlimit ▸ hg.wellFormed_toDfa
  refine ⟨fun q c hq => hd.labelTable_bind hq, fun l => ?_, hd.size_labelTable,
    fun l => hd.mem_acceptingLabels_iff, hd.size_acceptingLabels⟩
  rw [hd.mem_labelTable_iff]
  refine exists_congr fun q => ⟨?_, And.right⟩
  rintro ⟨hl, c, r, hr⟩
  exact ⟨Dfa.lt_of_next? hr, hl, c, r, hr⟩

/-- Of the three states of a word of two symbols, the last one accepts and has no edge. Its label is
a target in the table, but has no entry. -/
theorem labels_agree_concatPair :
    ∃ d, (concatPair (char 'a') (char 'b')).nfa.toDfaWithin 3 = .ok d ∧
      d.states.size = 3 ∧ d.labelTable.size = 2 ∧
      (∀ q c, q < d.states.size →
        d.labelTable[d.label q]?.bind (·[c]?) = (d.next? q c).map d.label) ∧
      (∀ l, l ∈ d.labelTable ↔
        ∃ q, q < d.states.size ∧ d.label q = l ∧ ∃ c r, d.next? q c = some r) ∧
      d.labelTable.size = { q | ∃ c r, d.next? q c = some r }.ncard ∧
      (∀ l, l ∈ d.acceptingLabels ↔ ∃ q, d.idOf? l = some q ∧ d.isAccepting q = true) ∧
      d.acceptingLabels.size = { q | d.isAccepting q = true }.ncard := by
  have hsizes : ((concatPair (char 'a') (char 'b')).nfa.toDfaWithin 3).toOption.map
      (fun d => (d.states.size, d.labelTable.size)) = some (3, 2) := by cbv
  cases hd : (concatPair (char 'a') (char 'b')).nfa.toDfaWithin 3 with
  | error e => rw [hd] at hsizes; exact absurd hsizes (by simp [Except.toOption])
  | ok d =>
    rw [hd] at hsizes
    obtain ⟨hstates, htable⟩ := Prod.mk.inj (Option.some.inj hsizes)
    exact ⟨d, rfl, hstates, htable,
      labels_agree (concatPair (char 'a') (char 'b')) d (Or.inr ⟨3, hd⟩)⟩

end Expression

end Automata
