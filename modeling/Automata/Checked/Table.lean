import Automata.Checked.Nfa
import Automata.Table.Basic

/-!
# The table, with checked look-ups

The table of an automaton once more, with `none` where a number is written or looked up outside the
vector of numbers, which has a place for each state of the arena.

* `numbering?`: the numbers written.
* `numbersOf?`, `Nfa.row?`, `Nfa.acceptingNumber?`: the numbers looked up.
* `Nfa.table?`: the table.
-/

namespace Automata

/-- The number of each of `size` states, in the order in which they are visited. -/
def numbering? (size : Nat) (order : Array Nat) : Option (Array (Option Nat)) :=
  (order.toList.zipIdx 1).foldlM
    (fun numbers p => checked p.1 numbers.size (numbers.setIfInBounds p.1 (some p.2)))
    (Array.replicate size none)

/-- The numbers of some states, as far as they have one. -/
def numbersOf? (numbers : Array (Option Nat)) (states : List Nat) : Option (List Nat) := do
  let found ← states.mapM fun i => numbers[i]?
  return found.filterMap fun n => n

namespace Nfa

/-- The reachable states, in the order of their numbers. -/
def visitingOrder? (g : Nfa) : Option (Array Nat) := do
  let (order, _) ← Search.preorder? (· < g.size)
    (fun i => (g.state? i).map fun s => (false, s.successors)) g.size g.start
  return order

/-- The row of the state at `id`. -/
def row? (g : Nfa) (numbers : Array (Option Nat)) (id : Nat) : Option Row := do
  let s ← g.state? id
  let edges ← s.edges.toList.mapM fun p => (numbersOf? numbers p.2).map fun targets =>
    (p.1, targets)
  let closure ← g.closure? id
  let closure ← numbersOf? numbers closure
  return { state := id, edges := .ofList edges compare, closure }

/-- The number of the state at `id`, if that is an accepting state. -/
def acceptingNumber? (g : Nfa) (numbers : Array (Option Nat)) (id : Nat) :
    Option (Option Nat) := do
  let s ← g.state? id
  if s.accepting then numbers[id]? else return none

/-- The transition table of an automaton. -/
def table? (g : Nfa) : Option Table := do
  let order ← g.visitingOrder?
  let numbers ← numbering? g.size order
  let rows ← order.toList.mapM (g.row? numbers)
  let accepting ← order.toList.mapM (g.acceptingNumber? numbers)
  return { rows := rows.toArray, numbers, accepting := accepting.filterMap fun n => n }

end Nfa

end Automata
