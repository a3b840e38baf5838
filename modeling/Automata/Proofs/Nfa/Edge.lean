import Mathlib.Data.List.Basic
import Automata.Nfa.Lemmas
import Automata.Nfa.Path

/-!
# The edges of a combination

An edge leaves a place of the arena only. So the edges of an automaton can be told without regard to
places: those of a combination are those of its operands, those of the second operand moved up,
and the edges that join them.

* `edge_append`, `edge_addEpsilon`, `edge_addEdge`: the edges after each operation on an arena.
* `edge_concatPair`, `edge_unionPair`, `edge_star`, `edge_anyOf`: the edges of a combination.
* `edge_concatPair_join`, `edge_unionPair_enter`, `edge_star_leave` and the rest: how a combination
  goes on from one part to the next.
-/

namespace Automata

namespace State

/-- A state without edges stays one when it moves. -/
theorem shift_bare (offset id : Nat) : (bare id).shift offset = bare (id + offset) := by
  have he : (bare id).edges.map (fun _ targets => targets.map (· + offset)) = ∅ := by
    apply Std.ExtTreeMap.ext_getElem?
    intro c
    simp [bare]
  simp only [shift, he]
  rfl

end State

namespace Nfa

variable {g a b : Nfa} {i s t u v : Nat} {l : Option Char} {c : Char}

/-- The two arenas of an append, also outside of both. -/
theorem state_append : (a.append b).state i =
    if i < a.size then a.state i else (b.state (i - a.size)).shift a.size := by
  by_cases hi : i < a.size
  · rw [if_pos hi, state_append_left hi]
  rw [if_neg hi]
  obtain ⟨j, rfl⟩ : ∃ j, i = a.size + j := ⟨i - a.size, by omega⟩
  rw [Nat.add_sub_cancel_left]
  by_cases hj : j < b.size
  · exact state_append_right hj
  · have hs : (a.append b).size ≤ a.size + j := by rw [size_append]; omega
    rw [state_of_size_le hs, state_of_size_le (Nat.not_lt.1 hj), State.shift_bare, Nat.add_comm]

theorem edge_none : g.Edge s none t ↔ t ∈ (g.state s).epsilon := Iff.rfl

theorem edge_some : g.Edge s (some c) t ↔ t ∈ (g.state s).targets c := Iff.rfl

theorem Edge.source_lt (h : g.Edge s l t) : s < g.size := by
  by_contra hs
  have hbare := state_of_size_le (Nat.not_lt.1 hs)
  cases l with
  | none =>
    rw [edge_none, hbare] at h
    exact absurd h List.not_mem_nil
  | some c =>
    rw [edge_some, hbare, State.targets_bare] at h
    exact absurd h List.not_mem_nil

theorem mem_successors_state : t ∈ (g.state s).successors ↔ ∃ l, g.Edge s l t := by
  rw [State.mem_successors]
  refine ⟨?_, ?_⟩
  · rintro (⟨c, h⟩ | h)
    · exact ⟨some c, h⟩
    · exact ⟨none, h⟩
  · rintro ⟨l, h⟩
    cases l with
    | none => exact Or.inr h
    | some c => exact Or.inl ⟨c, h⟩

/-! ### Operations on an arena -/

/-- Where a combination is entered and left does not change its edges. -/
theorem edge_mk {start final : Nat} : (Nfa.mk g.states start final).Edge s l t ↔ g.Edge s l t :=
  Iff.rfl

theorem edge_addState : g.addState.Edge s l t ↔ g.Edge s l t := by
  unfold Edge
  rw [state_addState]

theorem edge_setAccepting {accepting : Bool} (hu : u < g.size) :
    (g.setAccepting u accepting).Edge s l t ↔ g.Edge s l t := by
  cases l with
  | none => rw [edge_none, edge_none, state_setAccepting hu]; split <;> rfl
  | some c => rw [edge_some, edge_some, state_setAccepting hu]; split <;> rfl

theorem edge_addEpsilon (hu : u < g.size) :
    (g.addEpsilon u v).Edge s l t ↔ g.Edge s l t ∨ s = u ∧ l = none ∧ t = v := by
  cases l with
  | none =>
    rw [edge_none, edge_none, state_addEpsilon hu]
    by_cases hs : u = s
    · simp [hs, or_comm]
    · simp [hs, Ne.symm hs]
  | some c =>
    rw [edge_some, edge_some, state_addEpsilon hu]
    split <;> simp

theorem edge_addEdge (hu : u < g.size) :
    (g.addEdge u c v).Edge s l t ↔ g.Edge s l t ∨ s = u ∧ l = some c ∧ t = v := by
  cases l with
  | none =>
    rw [edge_none, edge_none, state_addEdge hu]
    split <;> simp
  | some d =>
    rw [edge_some, edge_some, state_addEdge hu]
    by_cases hs : u = s
    · by_cases hd : c = d
      · simp [hs, hd, State.targets_addEdge, or_comm]
      · simp [hs, hd, Ne.symm hd, State.targets_addEdge]
    · simp [hs, Ne.symm hs]

theorem edge_append : (a.append b).Edge s l t ↔
    a.Edge s l t ∨ ∃ i j, s = i + a.size ∧ t = j + a.size ∧ b.Edge i l j := by
  -- below `a.size` no edge of `b` can start, from there on no edge of `a`
  by_cases hs : s < a.size
  · have hout : ¬ ∃ i j, s = i + a.size ∧ t = j + a.size ∧ b.Edge i l j := by
      rintro ⟨i, j, hi, -, -⟩
      omega
    rw [or_iff_left hout]
    cases l with
    | none => rw [edge_none, edge_none, state_append, if_pos hs]
    | some c => rw [edge_some, edge_some, state_append, if_pos hs]
  · obtain ⟨i, rfl⟩ : ∃ i, s = i + a.size := ⟨s - a.size, by omega⟩
    have hout : ¬ a.Edge (i + a.size) l t := fun h => hs h.source_lt
    rw [or_iff_right hout]
    have hstate : (a.append b).state (i + a.size) = (b.state i).shift a.size := by
      rw [state_append, if_neg hs, Nat.add_sub_cancel]
    cases l with
    | none =>
      rw [edge_none, hstate, State.epsilon_shift, List.mem_map]
      refine ⟨?_, ?_⟩
      · rintro ⟨j, hj, rfl⟩
        exact ⟨i, j, rfl, rfl, hj⟩
      · rintro ⟨i', j, hi, rfl, hj⟩
        rw [Nat.add_right_cancel hi]
        exact ⟨j, hj, rfl⟩
    | some c =>
      rw [edge_some, hstate, State.targets_shift, List.mem_map]
      refine ⟨?_, ?_⟩
      · rintro ⟨j, hj, rfl⟩
        exact ⟨i, j, rfl, rfl, hj⟩
      · rintro ⟨i', j, hi, rfl, hj⟩
        rw [Nat.add_right_cancel hi]
        exact ⟨j, hj, rfl⟩

/-! ### Primitive automata -/

theorem edge_emptyLanguage : ¬ emptyLanguage.Edge s l t := by
  intro h
  have hs := h.source_lt
  rw [size_emptyLanguage] at hs
  obtain rfl | rfl : s = 0 ∨ s = 1 := by omega
  all_goals
    cases l <;> simp [Edge, emptyLanguage, state, state?, State.bare, State.targets] at h

theorem edge_epsilon : epsilon.Edge s l t ↔ s = 0 ∧ l = none ∧ t = 1 := by
  rw [epsilon, edge_addEpsilon (by decide), or_iff_right edge_emptyLanguage]

theorem size_foldl_addEdge (symbols : List Char) :
    (symbols.foldl (fun g c => g.addEdge u c v) g).size = g.size := by
  induction symbols generalizing g with
  | nil => rfl
  | cons c symbols ih => rw [List.foldl_cons, ih, size_addEdge]

theorem edge_foldl_addEdge (symbols : List Char) (hu : u < g.size) :
    (symbols.foldl (fun g c => g.addEdge u c v) g).Edge s l t ↔
      g.Edge s l t ∨ ∃ c ∈ symbols, s = u ∧ l = some c ∧ t = v := by
  induction symbols generalizing g with
  | nil => simp
  | cons c symbols ih =>
    rw [List.foldl_cons, ih (by rwa [size_addEdge]), edge_addEdge hu, or_assoc]
    simp only [List.exists_mem_cons_iff]

@[simp] theorem size_anyOf (symbols : List Char) : (anyOf symbols).size = 2 :=
  size_foldl_addEdge symbols

theorem edge_anyOf {symbols : List Char} :
    (anyOf symbols).Edge s l t ↔ ∃ c ∈ symbols, s = 0 ∧ l = some c ∧ t = 1 := by
  rw [anyOf, edge_foldl_addEdge symbols (by decide), or_iff_right edge_emptyLanguage]

/-! ### Combinations -/

/-- **The edges of a concatenation.** One edge joins the operands. -/
theorem edge_concatPair (ha : a.final < a.size) (hb : b.final < b.size) :
    (a.concatPair b).Edge s l t ↔
      a.Edge s l t ∨ (∃ i j, s = i + a.size ∧ t = j + a.size ∧ b.Edge i l j) ∨
        s = a.final ∧ l = none ∧ t = b.start + a.size := by
  unfold concatPair
  simp only [edge_mk]
  rw [edge_addEpsilon, edge_setAccepting, edge_setAccepting, edge_append, or_assoc]
  all_goals
    simp only [size_setAccepting, size_append]
    omega

/-- **The edges of a union.** Two edges leave the new start, and two lead to the new final state. -/
theorem edge_unionPair (ha : a.final < a.size) (hb : b.final < b.size) :
    (a.unionPair b).Edge s l t ↔
      a.Edge s l t ∨ (∃ i j, s = i + a.size ∧ t = j + a.size ∧ b.Edge i l j) ∨
        s = a.size + b.size ∧ l = none ∧ (t = a.start ∨ t = b.start + a.size) ∨
        (s = a.final ∨ s = b.final + a.size) ∧ l = none ∧ t = a.size + b.size + 1 := by
  unfold unionPair
  simp only [edge_mk]
  rw [edge_addEpsilon, edge_addEpsilon, edge_addEpsilon, edge_addEpsilon, edge_setAccepting,
    edge_setAccepting, edge_setAccepting, edge_addState, edge_addState, edge_append]
  · grind
  all_goals
    simp only [size_addEpsilon, size_setAccepting, size_addState, size_append]
    omega

/-- **The edges of a repetition.** The new final state leads back to the old start. -/
theorem edge_star (ha : a.final < a.size) :
    a.star.Edge s l t ↔
      a.Edge s l t ∨ (s = a.size ∨ s = a.size + 1) ∧ l = none ∧ t = a.start ∨
        (s = a.size ∨ s = a.final) ∧ l = none ∧ t = a.size + 1 := by
  unfold star
  simp only [edge_mk]
  rw [edge_addEpsilon, edge_addEpsilon, edge_addEpsilon, edge_addEpsilon, edge_setAccepting,
    edge_setAccepting, edge_addState, edge_addState]
  · grind
  all_goals
    simp only [size_addEpsilon, size_setAccepting, size_addState]
    omega

/-! ### The edges between the operands and the ends -/

/-- A concatenation goes on from the first operand to the second. -/
theorem edge_concatPair_join (ha : a.final < a.size) (hb : b.final < b.size) :
    (a.concatPair b).Edge a.final none (b.start + a.size) :=
  (edge_concatPair ha hb).2 (Or.inr (Or.inr ⟨rfl, rfl, rfl⟩))

/-- A union goes from its start to that of either operand. -/
theorem edge_unionPair_enter (ha : a.final < a.size) (hb : b.final < b.size)
    (ht : t = a.start ∨ t = b.start + a.size) :
    (a.unionPair b).Edge (a.unionPair b).start none t :=
  (edge_unionPair ha hb).2 (Or.inr (Or.inr (Or.inl ⟨rfl, rfl, ht⟩)))

/-- A union goes from the final state of either operand to its own. -/
theorem edge_unionPair_leave (ha : a.final < a.size) (hb : b.final < b.size)
    (hs : s = a.final ∨ s = b.final + a.size) :
    (a.unionPair b).Edge s none (a.unionPair b).final :=
  (edge_unionPair ha hb).2 (Or.inr (Or.inr (Or.inr ⟨hs, rfl, rfl⟩)))

/-- A repetition goes from its start to that of its operand. -/
theorem edge_star_enter (ha : a.final < a.size) : a.star.Edge a.star.start none a.start :=
  (edge_star ha).2 (Or.inr (Or.inl ⟨Or.inl rfl, rfl, rfl⟩))

/-- A repetition goes from the final state of its operand to its own. -/
theorem edge_star_leave (ha : a.final < a.size) : a.star.Edge a.final none a.star.final :=
  (edge_star ha).2 (Or.inr (Or.inr ⟨Or.inr rfl, rfl, rfl⟩))

end Nfa

end Automata
