import Automata.Label
import Automata.Nfa.Search

/-!
# Transition tables

The table of a nondeterministic automaton numbers its reachable states from 1 and has a row for
each of them, in which states are named by their numbers. States are numbered in the order in which
a depth-first search from the start enters them: at each state the edges on symbols come before
those on the empty word, in the order of `State.successors`. So the start has number 1, and a state
that cannot be reached has no number.

* `Row`, `Table`: the rows, the number of each state of the arena, the accepting numbers.
* `Table.row?`, `Table.numberOf?`, `Table.targets`, `Table.closure`: look-ups; an unknown number
  has no row, no targets and an empty closure.
* `Nfa.visitingOrder`: the reachable states in the order of their numbers.
* `numbering`: the number of each state, read off that order.
* `Table.ofNfa`: the rows, with states named by their numbers.
-/

namespace Automata

/-- The row of a numbered state. -/
structure Row where
  /-- The place of the state in the arena. -/
  state : Nat
  /-- The numbers of the targets on each symbol, the newest edge first. -/
  edges : SymbolMap (List Nat)
  /-- The numbers of the states reachable on the empty word, in the order of discovery. -/
  closure : List Nat
  /-- The closure as a set, which every subset that enters this row takes in. -/
  label : Label := .ofList closure
  /-- The set holds the numbers of the closure. -/
  label_eq : label = .ofList closure := by rfl
deriving DecidableEq

/-- The transition table of an automaton. -/
structure Table where
  /-- The rows in the order of their numbers: the row of number `n` is at place `n - 1`. -/
  rows : Array Row
  /-- The number of each state of the arena; a state that cannot be reached has none. -/
  numbers : Array (Option Nat)
  /-- The numbers of the accepting states, ascending. -/
  accepting : List Nat
deriving DecidableEq

namespace Table

/-- The number of the start state. -/
def start : Nat := 1

/-- The number of rows. -/
def size (t : Table) : Nat := t.rows.size

/-- The row of a number. -/
def row? (t : Table) : Nat → Option Row
  | 0 => none
  | n + 1 => t.rows[n]?

/-- The number of a state of the arena. -/
def numberOf? (t : Table) (id : Nat) : Option Nat := t.numbers[id]?.join

/-- The targets of a numbered state on symbol `c`. -/
def targets (t : Table) (n : Nat) (c : Char) : List Nat :=
  ((t.row? n).bind (·.edges[c]?)).getD []

/-- The numbers of the states reachable on the empty word from a numbered state. -/
def closure (t : Table) (n : Nat) : List Nat :=
  ((t.row? n).map (·.closure)).getD []

/-- The closure of a numbered state as a set. -/
def label (t : Table) (n : Nat) : Label := ((t.row? n).map (·.label)).getD ∅

end Table

/-! ### The table of an automaton -/

/-- The reachable states, in the order of their numbers. -/
def Nfa.visitingOrder (g : Nfa) : Array Nat :=
  Search.preorder (fun i => (g.state i).successors) (fun _ => false) g.size g.start

/-- The number of each of `size` states, counted from 1 in the order in which they are visited. -/
def numbering (size : Nat) (order : Array Nat) : Array (Option Nat) :=
  (order.zipIdx 1).foldl (fun numbers (id, n) => numbers.setIfInBounds id (some n))
    (Array.replicate size none)

/-- The row of the state at `id`, under a numbering. What has no number drops out of it. -/
def Row.ofState (number? : Nat → Option Nat) (id : Nat) (s : State) (closure : List Nat) : Row where
  state := id
  edges := s.edges.map fun _ targets => targets.filterMap number?
  closure := closure.filterMap number?

namespace Table

/-- The table of an automaton whose closures are given. -/
def ofClosures (g : Nfa) (closure : Nat → List Nat) : Table :=
  let order := g.visitingOrder
  let numbers := numbering g.size order
  let number? := fun id => numbers[id]?.join
  { rows := order.map fun id => Row.ofState number? id (g.state id) (closure id)
    numbers
    accepting := order.toList.filterMap fun id =>
      if (g.state id).accepting then number? id else none }

/-- **The transition table of an automaton.** -/
def ofNfa (g : Nfa) : Table := ofClosures g g.closure

end Table

end Automata
