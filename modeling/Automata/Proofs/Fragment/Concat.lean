import Automata.Fragment
import Automata.Proofs.Nfa.Edge

/-!
# Concatenations can be grouped in any way

A concatenation changes two states: the final state of the first operand rejects and gets one more
edge, which comes first among its edges on the empty word, and the final state of the second operand
accepts. Another grouping makes these changes in another order and moves the states in other steps.

* `State.withAccepting`: the state that accepts or rejects as told.
* `ext_state`: an automaton is told by its size, its states and its ends.
* `state_concatPair_left`, `state_concatPair_right`: **the states of a concatenation.**
* `concatPair_assoc`: **grouping to the left or to the right gives the same automaton**, state by
  state and edge by edge.
* `concatPair_foldl`, `concat_append`: so a list can be concatenated in two parts.
* `Fragment.concat_regroup`: what is known of a concatenation does not depend on the grouping
  either.
-/

namespace Automata

namespace State

variable {s : State} {t offset : Nat} {accepting before : Bool}

/-- The state that accepts or rejects as told. -/
def withAccepting (s : State) (accepting : Bool) : State := { s with accepting }

/-- What is told last holds. -/
theorem withAccepting_withAccepting :
    (s.withAccepting before).withAccepting accepting = s.withAccepting accepting := rfl

/-- Whether a state accepts does not change when it moves. -/
theorem shift_withAccepting :
    (s.withAccepting accepting).shift offset = (s.shift offset).withAccepting accepting := rfl

/-- An edge moves up with its state. -/
theorem shift_addEpsilon :
    (s.addEpsilon t).shift offset = (s.shift offset).addEpsilon (t + offset) := rfl

end State

namespace Nfa

variable {g h a b c : Nfa} {i : Nat}

/-- **An automaton is told by its size, its states and its ends.** -/
theorem ext_state (hsize : g.size = h.size) (hstate : ∀ i, g.state i = h.state i)
    (hstart : g.start = h.start) (hfinal : g.final = h.final) : g = h := by
  have hstates : g.states = h.states := by
    refine Array.ext hsize fun i hi hi' => ?_
    rw [← state_of_lt hi, ← state_of_lt hi']
    exact hstate i
  cases g
  cases h
  simp only at hstates hstart hfinal
  rw [hstates, hstart, hfinal]

/-! ### The states of a concatenation -/

/-- A concatenation changes the states of the joined arenas at two places. -/
theorem state_concatPair (ha : a.final < a.size) (hb : b.final < b.size) :
    (a.concatPair b).state i =
      if i = a.final then ((a.append b).state i).withAccepting false |>.addEpsilon (b.start + a.size)
      else if i = b.final + a.size then ((a.append b).state i).withAccepting true
      else (a.append b).state i := by
  have hstate : (a.concatPair b).state i =
      (((a.append b).setAccepting a.final false |>.setAccepting (b.final + a.size) true).addEpsilon
        a.final (b.start + a.size)).state i := rfl
  rw [hstate, state_addEpsilon, state_setAccepting, state_setAccepting]
  · by_cases hfa : i = a.final
    · have hfb : b.final + a.size ≠ i := by omega
      rw [if_pos hfa.symm, if_neg hfb, if_pos hfa.symm, if_pos hfa]
      rfl
    · by_cases hfb : i = b.final + a.size
      · rw [if_neg (Ne.symm hfa), if_pos hfb.symm, if_neg (Ne.symm hfa), if_neg hfa, if_pos hfb]
        rfl
      · rw [if_neg (Ne.symm hfa), if_neg (Ne.symm hfb), if_neg (Ne.symm hfa), if_neg hfa,
          if_neg hfb]
  all_goals
    simp only [size_setAccepting, size_append]
    omega

/-- **The states of the first operand** stay. The final one rejects and leads to the second
operand. -/
theorem state_concatPair_left (ha : a.final < a.size) (hb : b.final < b.size) (hi : i < a.size) :
    (a.concatPair b).state i =
      if i = a.final then ((a.state i).withAccepting false).addEpsilon (b.start + a.size)
      else a.state i := by
  have hne : i ≠ b.final + a.size := by omega
  rw [state_concatPair ha hb, state_append_left hi, if_neg hne]

/-- **The states of the second operand** move up. The final one accepts. -/
theorem state_concatPair_right (ha : a.final < a.size) (hb : b.final < b.size) :
    (a.concatPair b).state (i + a.size) =
      (if i = b.final then (b.state i).withAccepting true else b.state i).shift a.size := by
  have hne : i + a.size ≠ a.final := by omega
  have happend : (a.append b).state (i + a.size) = (b.state i).shift a.size := by
    have hge : ¬ i + a.size < a.size := by omega
    rw [state_append, if_neg hge, Nat.add_sub_cancel]
  rw [state_concatPair ha hb, if_neg hne, happend]
  by_cases hf : i = b.final
  · rw [if_pos (by omega), if_pos hf, State.shift_withAccepting]
  · rw [if_neg (by omega), if_neg hf]

/-! ### Grouping -/

/-- The final state of a concatenation is in its arena. -/
theorem final_lt_concatPair (hb : b.final < b.size) :
    (a.concatPair b).final < (a.concatPair b).size := by
  rw [final_concatPair, size_concatPair]
  omega

/-- **Grouping to the left or to the right gives the same states.** -/
theorem state_concatPair_assoc (ha : a.final < a.size) (hb : b.final < b.size)
    (hc : c.final < c.size) :
    ((a.concatPair b).concatPair c).state i = (a.concatPair (b.concatPair c)).state i := by
  have hab : (a.concatPair b).final < (a.concatPair b).size := final_lt_concatPair hb
  have hbc : (b.concatPair c).final < (b.concatPair c).size := final_lt_concatPair hc
  by_cases hi : i < a.size
  · -- a state of `a`
    have hlt : i < (a.concatPair b).size := by rw [size_concatPair]; omega
    have hne : i ≠ (a.concatPair b).final := by rw [final_concatPair]; omega
    rw [state_concatPair_left hab hc hlt, if_neg hne, state_concatPair_left ha hb hi,
      state_concatPair_left ha hbc hi, start_concatPair]
  obtain ⟨j, rfl⟩ : ∃ j, i = j + a.size := ⟨i - a.size, by omega⟩
  by_cases hj : j < b.size
  · -- a state of `b`, which moves up once
    have hlt : j + a.size < (a.concatPair b).size := by rw [size_concatPair]; omega
    have hne : j ≠ (b.concatPair c).final := by rw [final_concatPair]; omega
    rw [state_concatPair_left hab hc hlt, state_concatPair_right ha hb,
      state_concatPair_right ha hbc, if_neg hne, state_concatPair_left hb hc hj,
      final_concatPair, size_concatPair]
    by_cases hf : j = b.final
    · -- it accepts before `c` follows, and its edge into `c` moves up once or is made there
      have htarget : c.start + b.size + a.size = c.start + (a.size + b.size) := by omega
      rw [if_pos (by omega), if_pos hf, if_pos hf, State.shift_addEpsilon, htarget]
      simp only [State.shift_withAccepting, State.withAccepting_withAccepting]
    · rw [if_neg (by omega), if_neg hf, if_neg hf]
  · -- a state of `c`, which moves up twice or by the sum
    obtain ⟨k, rfl⟩ : ∃ k, j = k + b.size := ⟨j - b.size, by omega⟩
    have hindex : k + b.size + a.size = k + (a.concatPair b).size := by
      rw [size_concatPair]; omega
    have hsize : (a.concatPair b).size = b.size + a.size := by
      rw [size_concatPair]; omega
    rw [state_concatPair_right ha hbc, state_concatPair_right hb hc, hindex,
      state_concatPair_right hab hc, final_concatPair, hsize, ← State.shift_shift]
    by_cases hf : k = c.final
    · -- that it accepts is told twice or once
      rw [if_pos hf, if_pos (by omega)]
      simp only [State.shift_withAccepting, State.withAccepting_withAccepting]
    · rw [if_neg hf, if_neg (by omega)]

/-- **Grouping to the left or to the right gives the same automaton.** -/
theorem concatPair_assoc (ha : a.final < a.size) (hb : b.final < b.size) (hc : c.final < c.size) :
    (a.concatPair b).concatPair c = a.concatPair (b.concatPair c) := by
  have hsize : ((a.concatPair b).concatPair c).size = (a.concatPair (b.concatPair c)).size := by
    simp only [size_concatPair, Nat.add_assoc]
  have hstart : ((a.concatPair b).concatPair c).start = (a.concatPair (b.concatPair c)).start := by
    simp only [start_concatPair]
  have hfinal : ((a.concatPair b).concatPair c).final = (a.concatPair (b.concatPair c)).final := by
    simp only [final_concatPair, size_concatPair]
    omega
  exact ext_state hsize (fun i => state_concatPair_assoc ha hb hc) hstart hfinal

/-- **A first operand can be put in front of a concatenation or into it.** -/
theorem concatPair_foldl {l : List Nfa} (ha : a.final < a.size) (hb : b.final < b.size)
    (hl : ∀ g ∈ l, g.final < g.size) :
    a.concatPair (l.foldl concatPair b) = l.foldl concatPair (a.concatPair b) := by
  induction l generalizing b with
  | nil => rfl
  | cons d l ih =>
    obtain ⟨hd, hl⟩ := List.forall_mem_cons.1 hl
    rw [List.foldl_cons, List.foldl_cons, concatPair_assoc ha hb hd]
    exact ih (final_lt_concatPair hd) hl

theorem final_lt_foldl_concatPair {l : List Nfa} (ha : a.final < a.size)
    (hl : ∀ g ∈ l, g.final < g.size) :
    (l.foldl concatPair a).final < (l.foldl concatPair a).size := by
  induction l generalizing a with
  | nil => exact ha
  | cons b l ih =>
    obtain ⟨hb, hl⟩ := List.forall_mem_cons.1 hl
    exact ih (final_lt_concatPair hb) hl

/-- **A list can be concatenated in two parts.** -/
theorem concat_append {l l' : List Nfa} (hl : l ≠ []) (hl' : l' ≠ [])
    (hall : ∀ g ∈ l ++ l', g.final < g.size) :
    (concat l).concatPair (concat l') = concat (l ++ l') := by
  obtain ⟨a, l, rfl⟩ := List.exists_cons_of_ne_nil hl
  obtain ⟨b, l', rfl⟩ := List.exists_cons_of_ne_nil hl'
  obtain ⟨hleft, hright⟩ := List.forall_mem_append.1 hall
  obtain ⟨ha, hleft⟩ := List.forall_mem_cons.1 hleft
  obtain ⟨hb, hright⟩ := List.forall_mem_cons.1 hright
  have hfold := concatPair_foldl (final_lt_foldl_concatPair ha hleft) hb hright
  rw [List.cons_append]
  simp only [concat, hfold, List.foldl_append, List.foldl_cons]

end Nfa

namespace Fragment

/-- A fragment of which nothing is known is told by its automaton. -/
theorem eq_of_nfa {a b : Fragment} (ha : a.memo = {}) (hb : b.memo = {}) (h : a.nfa = b.nfa) :
    a = b := by
  cases a
  cases b
  simp only at ha hb h
  rw [ha, hb, h]

/-- **Concatenations can be regrouped.** Three fragments whose final states are in their arenas give
the same fragment in both groupings: the same states with the same ids, the same edges in the same
order, the same ends, and nothing known of them, so that every query answers the same. A list of
such fragments can be cut in two parts that are concatenated first. -/
theorem concat_regroup :
    (∀ a b c : Fragment, a.nfa.final < a.nfa.size → b.nfa.final < b.nfa.size →
      c.nfa.final < c.nfa.size →
        (a.concatPair b).concatPair c = a.concatPair (b.concatPair c)) ∧
    ∀ l l' : List Fragment, l ≠ [] → l' ≠ [] → (∀ f ∈ l ++ l', f.nfa.final < f.nfa.size) →
      concat [concat l, concat l'] = concat (l ++ l') := by
  refine ⟨fun a b c ha hb hc => ?_, fun l l' hl hl' hall => ?_⟩
  · exact eq_of_nfa rfl rfl (Nfa.concatPair_assoc ha hb hc)
  · have hnfa : (concat [concat l, concat l']).nfa = (concat (l ++ l')).nfa := by
      have hmap : ∀ g ∈ l.map (·.nfa) ++ l'.map (·.nfa), g.final < g.size := by
        rw [← List.map_append]
        exact List.forall_mem_map.2 hall
      have hne : l.map (·.nfa) ≠ [] := fun h => hl (List.map_eq_nil_iff.1 h)
      have hne' : l'.map (·.nfa) ≠ [] := fun h => hl' (List.map_eq_nil_iff.1 h)
      rw [nfa_concat (l ++ l'), List.map_append, ← Nfa.concat_append hne hne' hmap, ← nfa_concat,
        ← nfa_concat]
      rfl
    -- there are at least two fragments, so the last step has forgotten what was known
    have hlength : (l ++ l').length ≠ 1 := by
      have := List.length_pos_of_ne_nil hl
      have := List.length_pos_of_ne_nil hl'
      rw [List.length_append]
      omega
    exact eq_of_nfa rfl (memo_concat hlength) hnfa

/-- The final states of a repetition and of a loop have edges already when they are joined. -/
theorem concat_regroup_star :
    ∃ a b c : Fragment, a = star { nfa := .char 'a' } ∧ b = compactPlus { nfa := .char 'b' } ∧
      c = { nfa := .anyOf ['c', 'd'] } ∧
      a.nfa.final < a.nfa.size ∧ b.nfa.final < b.nfa.size ∧ c.nfa.final < c.nfa.size ∧
      (a.concatPair b).concatPair c = a.concatPair (b.concatPair c) ∧
      concat [concat [a, b], concat [c]] = concat [a, b, c] := by
  have ha : (star { nfa := .char 'a' }).nfa.final < (star { nfa := .char 'a' }).nfa.size := by
    decide
  have hb : (compactPlus { nfa := .char 'b' }).nfa.final <
      (compactPlus { nfa := .char 'b' }).nfa.size := by decide
  have hc : (Nfa.anyOf ['c', 'd']).final < (Nfa.anyOf ['c', 'd']).size := by decide
  refine ⟨_, _, _, rfl, rfl, rfl, ha, hb, hc, concat_regroup.1 _ _ _ ha hb hc,
    concat_regroup.2 [_, _] [_] (List.cons_ne_nil _ _) (List.cons_ne_nil _ _) ?_⟩
  exact List.forall_mem_cons.2 ⟨ha, List.forall_mem_cons.2 ⟨hb, List.forall_mem_singleton.2 hc⟩⟩

end Fragment

end Automata
