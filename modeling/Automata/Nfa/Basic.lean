import Automata.Basic

/-!
# Nondeterministic automata

An automaton is an arena of states with a start and a final state. The automata built in this
library accept in the final state and nowhere else.

* `State`: a state with its outgoing edges, on symbols and on the empty word.
* `State.addEdge`, `State.addEpsilon`: a new edge goes in front of the older ones.
* `State.successors`: the targets of all edges, symbols before the empty word.
* `State.shift`: the state after the arena it belongs to has moved by an offset.
* `Nfa.state`: total look-up; a place outside the arena reads as a state without edges.
* `Nfa.append`: two arenas one after the other, the second moved up.
-/

namespace Automata

/-- A state and the edges that leave it. Targets are places in the arena that holds the state. -/
structure State where
  /-- The place of the state in its arena. -/
  id : Nat
  /-- Whether a word may end here. -/
  accepting : Bool := false
  /-- The targets of the edges on each symbol, the newest edge first. -/
  edges : SymbolMap (List Nat) := ∅
  /-- The targets of the edges on the empty word, the newest edge first. -/
  epsilon : List Nat := []
deriving DecidableEq

namespace State

/-- The state at place `id` that rejects and has no edges. -/
def bare (id : Nat) : State := { id }

/-- The targets of the edges on symbol `c`. -/
def targets (s : State) (c : Char) : List Nat := s.edges.getD c []

/-- Whether no edge leaves the state. -/
def isBare (s : State) : Bool := s.edges.isEmpty && s.epsilon.isEmpty

/-- The state with a further edge on symbol `c`, in front of the others on `c`. -/
def addEdge (s : State) (c : Char) (target : Nat) : State :=
  { s with edges := s.edges.insert c (target :: s.targets c) }

/-- The state with a further edge on the empty word, in front of the others. -/
def addEpsilon (s : State) (target : Nat) : State :=
  { s with epsilon := target :: s.epsilon }

/-- The targets of all edges: symbols ascending, then the empty word, each list as stored. -/
def successors (s : State) : List Nat := s.edges.toList.flatMap (·.2) ++ s.epsilon

/-- The state after its arena has moved up by `offset` places. -/
def shift (offset : Nat) (s : State) : State :=
  { s with
    id := s.id + offset
    edges := s.edges.map fun _ targets => targets.map (· + offset)
    epsilon := s.epsilon.map (· + offset) }

/-! ### Edges of the states above -/

variable {s : State} {c d : Char} {t offset : Nat}

@[simp] theorem targets_bare {id : Nat} : (bare id).targets c = [] := by simp [targets, bare]

@[simp] theorem successors_bare {id : Nat} : (bare id).successors = [] := by
  simp [successors, bare]

/-- The targets on a symbol, read off the map of edges. -/
theorem mem_targets : t ∈ s.targets c ↔ ∃ targets, s.edges[c]? = some targets ∧ t ∈ targets := by
  rw [targets, Std.ExtTreeMap.getD_eq_getD_getElem?]
  cases s.edges[c]? <;> simp

/-- The successors of a state are the targets of its edges. -/
theorem mem_successors : t ∈ s.successors ↔ (∃ c, t ∈ s.targets c) ∨ t ∈ s.epsilon := by
  simp only [successors, List.mem_append, List.mem_flatMap, mem_targets, Prod.exists,
    Std.ExtTreeMap.mem_toList_iff_getElem?_eq_some]

@[simp] theorem epsilon_addEdge : (s.addEdge c t).epsilon = s.epsilon := rfl

theorem targets_addEdge :
    (s.addEdge c t).targets d = if c = d then t :: s.targets c else s.targets d := by
  simp only [targets, addEdge, Std.ExtTreeMap.getD_insert, Std.LawfulEqCmp.compare_eq_iff_eq]

@[simp] theorem epsilon_addEpsilon : (s.addEpsilon t).epsilon = t :: s.epsilon := rfl

@[simp] theorem targets_addEpsilon : (s.addEpsilon t).targets c = s.targets c := rfl

@[simp] theorem epsilon_shift : (s.shift offset).epsilon = s.epsilon.map (· + offset) := rfl

@[simp] theorem targets_shift : (s.shift offset).targets c = (s.targets c).map (· + offset) := by
  simp only [targets, shift, Std.ExtTreeMap.getD_eq_getD_getElem?, Std.ExtTreeMap.getElem?_map]
  cases s.edges[c]? <;> rfl

/-- Moving an arena twice moves it by both offsets. -/
theorem shift_shift (m n : Nat) : (s.shift m).shift n = s.shift (m + n) := by
  have hmap : ∀ l : List Nat, (l.map (· + m)).map (· + n) = l.map (· + (m + n)) := fun l => by
    rw [List.map_map]
    exact List.map_congr_left fun k _ => Nat.add_assoc k m n
  have hedges : (s.shift m |>.shift n).edges = (s.shift (m + n)).edges := by
    apply Std.ExtTreeMap.ext_getElem?
    intro c
    simp only [shift, Std.ExtTreeMap.getElem?_map, Option.map_map]
    cases s.edges[c]? with
    | none => rfl
    | some targets => exact congrArg some (hmap targets)
  simp only [shift, State.mk.injEq, Nat.add_assoc, true_and]
  exact ⟨hedges, hmap s.epsilon⟩

end State

/-- A graph of states with one place to enter and one place to leave. -/
structure Nfa where
  /-- The states, by their place. -/
  states : Array State
  /-- The place where words begin. -/
  start : Nat
  /-- The place where accepted words end. -/
  final : Nat
deriving DecidableEq

namespace Nfa

/-- The number of states. -/
def size (g : Nfa) : Nat := g.states.size

/-- The state at a place of the arena. -/
def state? (g : Nfa) (id : Nat) : Option State := g.states[id]?

/-- The state at a place; outside the arena, one that has no edges. -/
def state (g : Nfa) (id : Nat) : State := (g.state? id).getD (.bare id)

/-- The automaton with a further state, which has no edges yet. -/
def addState (g : Nfa) : Nfa := { g with states := g.states.push (.bare g.size) }

/-- The automaton with a further edge on a symbol. -/
def addEdge (g : Nfa) (source : Nat) (c : Char) (target : Nat) : Nfa :=
  { g with states := g.states.modify source (·.addEdge c target) }

/-- The automaton with a further edge on the empty word. -/
def addEpsilon (g : Nfa) (source target : Nat) : Nfa :=
  { g with states := g.states.modify source (·.addEpsilon target) }

/-- The automaton in which the state at `id` accepts or rejects as told. -/
def setAccepting (g : Nfa) (id : Nat) (accepting : Bool) : Nfa :=
  { g with states := g.states.modify id ({ · with accepting }) }

/-- The states of `a` followed by those of `b`, which move up by the size of `a`. -/
def append (a b : Nfa) : Nfa := { a with states := a.states ++ b.states.map (·.shift a.size) }

end Nfa

end Automata
