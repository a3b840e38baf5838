import Automata.Dfa.Subset

/-!
# Events

What is reported while tables and deterministic automata are built.

* `Event`, `Event.text`: what happened, and the line that reports it.
* `Table.events`: the numbering of the states of a table.
* `Dfa.events`: the labels found by an exploration.
-/

namespace Automata

/-- Something that is reported. -/
inductive Event where
  /-- A state of the arena gets its number. -/
  | numbered (id number : Nat)
  /-- A table is complete. -/
  | tableBuilt (size : Nat)
  /-- A deterministic automaton gets a state. -/
  | stateAdded (id : Nat) (label : Label)
  /-- A deterministic automaton is complete. -/
  | dfaBuilt (size accepting : Nat)
  /-- A compact star falls back to new states. -/
  | starWrapped
  /-- A compact option falls back to new states. -/
  | optionalWrapped
deriving DecidableEq

/-- The line that reports an event. -/
def Event.text : Event → String
  | numbered id number => "TRACE Number state " ++ toString id ++ " as " ++ toString number
  | tableBuilt size =>
    "DEBUG NFA transition table with " ++ toString size ++ " states built"
  | stateAdded id label => "TRACE Add state " ++ toString id ++ ": \x7b" ++ label.text ++ "\x7d"
  | dfaBuilt size accepting =>
    "DEBUG DFA with " ++ toString size ++ " states and " ++ toString accepting ++
      " accepting states built"
  | starWrapped => "TRACE star_opt: ends are connected, using wrapper states"
  | optionalWrapped => "TRACE optional_opt: ends are connected, using wrapper states"

/-- What is reported while a table is built: each numbering, then the size. -/
def Table.events (t : Table) : List Event :=
  (t.rows.mapIdx fun i row => .numbered row.state (i + 1)).toList ++ [.tableBuilt t.size]

/-- What is reported while labels are found: each label with its id. -/
def Dfa.discoveries (e : Search.Exploration Label) : List Event :=
  (e.found.mapIdx .stateAdded).toList

/-- What is reported when a deterministic automaton is complete. -/
def Dfa.summary (d : Dfa) : Event := .dfaBuilt d.states.size d.acceptingCount

end Automata
