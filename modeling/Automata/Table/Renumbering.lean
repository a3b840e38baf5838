import Mathlib.Data.List.Forall2
import Automata.Nfa.Path
import Automata.Table.Basic

/-!
# Tables that renumber an automaton

What it means for a table to say of numbers what an automaton says of states.

* `Table.Names`: the numbers of a list of states, one by one.
* `Row.Describes`: a row that is a state with numbers in the place of states.
* `Table.Renumbers`: numbers for the reachable states, and a row for each of them.
* `Table.alphabet`: the symbols that some row has an entry for.
-/

namespace Automata

/-- **The numbers of a list of states**: as many of them, in the same order, and each state has
one. -/
def Table.Names (t : Table) : List Nat → List Nat → Prop :=
  List.Forall₂ fun s n => t.numberOf? s = some n

/-- **The row of a state.** It has entries for the same symbols as the state; the targets on each
symbol, and the closure, are those of the state by their numbers. -/
structure Row.Describes (row : Row) (t : Table) (g : Nfa) (s : Nat) : Prop where
  state_eq : row.state = s
  edges : ∀ c : Char, Option.Rel t.Names (g.state s).edges[c]? row.edges[c]?
  closure : t.Names (g.closure s) row.closure

/-- **A table renumbers an automaton** when the reachable states have the numbers from 1 to the size
of the table, each its own and the start the first one, when the row of each number is that of its
state, and when the number of the final state is the accepting one. -/
structure Table.Renumbers (t : Table) (g : Nfa) : Prop where
  exists_number : ∀ s, (∃ n, t.numberOf? s = some n) ↔ g.Reachable s
  exists_state : ∀ n, (∃ s, t.numberOf? s = some n) ↔ 1 ≤ n ∧ n ≤ t.size
  injective : ∀ s s' n, t.numberOf? s = some n → t.numberOf? s' = some n → s = s'
  start : t.numberOf? g.start = some 1
  row : ∀ s n, t.numberOf? s = some n → ∃ row, t.row? n = some row ∧ row.Describes t g s
  accepting : t.accepting = (t.numberOf? g.final).toList

/-- The symbols of all rows together. -/
def Table.alphabet (t : Table) : Alphabet := .ofList (t.rows.toList.flatMap (·.edges.keys)) compare

end Automata
