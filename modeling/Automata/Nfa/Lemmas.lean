import Automata.Nfa.Combine

/-!
# Sizes and states after each operation

An automaton is seen through `size` and `state`. Each operation of `Nfa.Basic` says what it does to
both, and each combination what it does to the size.

* `state_append_left`, `state_append_right`: the two arenas of `append`.
* `state_modify`: a change at one place leaves all other states alone.
* `size_unionPair`, `size_star` and the rest: how many states a combination has.
-/

namespace Automata.Nfa

variable {g a b : Nfa} {i s t : Nat} {accepting : Bool}

theorem state_of_lt (h : i < g.states.size) : g.state i = g.states[i] := by
  simp [state, state?, h]

/-- Outside the arena there are no edges. -/
theorem state_of_size_le (h : g.size ≤ i) : g.state i = .bare i := by
  simp [state, state?, Array.getElem?_eq_none (show g.states.size ≤ i from h)]

/-! ### Sizes -/

@[simp] theorem size_addState : g.addState.size = g.size + 1 := Array.size_push _

@[simp] theorem size_addEpsilon : (g.addEpsilon s t).size = g.size := Array.size_modify

@[simp] theorem size_addEdge {c : Char} : (g.addEdge s c t).size = g.size := Array.size_modify

@[simp] theorem size_setAccepting : (g.setAccepting s accepting).size = g.size :=
  Array.size_modify

@[simp] theorem size_append : (a.append b).size = a.size + b.size := by
  simp [append, size]

/-- The size does not depend on where an automaton is entered and left. -/
@[simp] theorem size_mk_states {start final : Nat} : (Nfa.mk g.states start final).size = g.size :=
  rfl

@[simp] theorem size_concatPair : (a.concatPair b).size = a.size + b.size := by
  simp [concatPair]

@[simp] theorem size_unionPair : (a.unionPair b).size = a.size + b.size + 2 := by
  simp [unionPair]

@[simp] theorem size_star : a.star.size = a.size + 2 := by
  simp [star]

@[simp] theorem size_emptyLanguage : emptyLanguage.size = 2 := rfl

@[simp] theorem size_epsilon : epsilon.size = 2 := by
  simp [epsilon]

@[simp] theorem size_char {c : Char} : (char c).size = 2 := by
  simp [char]

@[simp] theorem size_plus : a.plus.size = 2 * a.size + 2 := by
  simp only [plus, size_concatPair, size_star]
  omega

@[simp] theorem size_optional : a.optional.size = a.size + 4 := by
  simp only [optional, size_unionPair, size_epsilon]

@[simp] theorem size_compactPlus : a.compactPlus.size = a.size := size_addEpsilon

/-! ### Ends -/

@[simp] theorem start_concatPair : (a.concatPair b).start = a.start := rfl

@[simp] theorem final_concatPair : (a.concatPair b).final = b.final + a.size := rfl

@[simp] theorem start_unionPair : (a.unionPair b).start = a.size + b.size := rfl

@[simp] theorem final_unionPair : (a.unionPair b).final = a.size + b.size + 1 := rfl

@[simp] theorem start_star : a.star.start = a.size := rfl

@[simp] theorem final_star : a.star.final = a.size + 1 := rfl

/-! ### States -/

/-- The first arena of an append is left alone. -/
theorem state_append_left (h : i < a.size) : (a.append b).state i = a.state i := by
  have hi : i < a.states.size := h
  simp [state, state?, append, Array.getElem?_append_left hi]

/-- The second arena of an append is moved up by the size of the first. -/
theorem state_append_right (h : i < b.size) :
    (a.append b).state (a.size + i) = (b.state i).shift a.size := by
  have hi : i < b.states.size := h
  simp [state, state?, append, size, hi]

/-- **A change at one place** of the arena leaves all other states alone. -/
theorem state_modify (f : State → State) {start final : Nat} (h : s < g.size) :
    (Nfa.mk (g.states.modify s f) start final).state i =
      if s = i then f (g.state i) else g.state i := by
  have hs : s < g.states.size := h
  by_cases hi : s = i
  · subst hi
    simp [state, state?, Array.getElem_modify, hs]
  · simp [state, state?, Array.getElem?_modify, hi]

theorem state_addEpsilon (h : s < g.size) :
    (g.addEpsilon s t).state i = if s = i then (g.state i).addEpsilon t else g.state i :=
  state_modify (·.addEpsilon t) h

theorem state_addEdge {c : Char} (h : s < g.size) :
    (g.addEdge s c t).state i = if s = i then (g.state i).addEdge c t else g.state i :=
  state_modify (·.addEdge c t) h

theorem state_setAccepting (h : s < g.size) :
    (g.setAccepting s accepting).state i =
      if s = i then { g.state i with accepting } else g.state i :=
  state_modify ({ · with accepting }) h

/-- A new state has no edges, which is how places outside the arena read anyway. -/
theorem state_addState : g.addState.state i = g.state i := by
  by_cases hi : i = g.size
  · subst hi
    rw [state_of_size_le (Nat.le_refl _)]
    simp [state, state?, addState, size]
  · have hne : i ≠ g.states.size := hi
    simp [state, state?, addState, Array.getElem?_push, hne]

end Automata.Nfa
