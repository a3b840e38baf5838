import Std.Data.HashMap
import Automata.Label

/-!
# Deterministic automata

A state of a deterministic automaton stands for a set of numbered states, its label. The start
state has id 0. A missing edge rejects.

* `Dfa.next?`, `Dfa.walk`, `Dfa.accepts`: one symbol, the path of a word, acceptance.
* `Dfa.idOf?`: the state of a label.
* `Dfa.labelTable`, `Dfa.acceptingLabels`: the automaton with its states named by their labels,
  in the order of the labels.
-/

namespace Automata

/-- A state of a deterministic automaton. -/
structure SubsetState where
  /-- The place of the state in its automaton. -/
  id : Nat
  /-- The numbered states that the state stands for. -/
  label : Label
  /-- Whether one of them accepts. -/
  accepting : Bool
  /-- The ids of the targets, at most one on each symbol. -/
  edges : SymbolMap Nat
deriving DecidableEq

/-- A deterministic automaton whose states are sets of numbered states. -/
structure Dfa where
  /-- The states, by their ids. -/
  states : Array SubsetState
  /-- The symbols of the automaton that it was built from. -/
  alphabet : Alphabet
  /-- The id of each label. -/
  ids : Std.HashMap Label Nat

namespace Dfa

/-- The label of a state; of an unknown id, the empty one. -/
def label (d : Dfa) (id : Nat) : Label := (d.states[id]?.map (·.label)).getD ∅

/-- The label of the start state. -/
def startLabel (d : Dfa) : Label := d.label 0

/-- Whether the state is accepting; an unknown id is not. -/
def isAccepting (d : Dfa) (id : Nat) : Bool := d.states[id]?.any (·.accepting)

/-- The id of the state with a label. -/
def idOf? (d : Dfa) (l : Label) : Option Nat := d.ids[l]?

/-- The state reached from a state on a symbol. -/
def next? (d : Dfa) (id : Nat) (c : Char) : Option Nat := d.states[id]?.bind (·.edges[c]?)

/-- The states passed from `id` along a word, after those passed before; `none` where an edge is
missing, and nothing after that. -/
def walkFrom (d : Dfa) (passed : Array (Option Nat)) (id : Nat) : List Char → Array (Option Nat)
  | [] => passed.push (some id)
  | c :: word =>
    match d.next? id c with
    | some target => d.walkFrom (passed.push (some id)) target word
    | none => (passed.push (some id)).push none

/-- The states passed from the start along a word. -/
def walk (d : Dfa) (word : List Char) : Array (Option Nat) := d.walkFrom #[] 0 word

/-- The state reached from the start along a word. -/
def run? (d : Dfa) (word : List Char) : Option Nat := word.foldlM d.next? 0

/-- **Acceptance**: the word leads from the start to an accepting state. -/
def accepts (d : Dfa) (word : List Char) : Bool := (d.run? word).any d.isAccepting

/-- The number of accepting states. -/
def acceptingCount (d : Dfa) : Nat := d.states.countP (·.accepting)

/-- The labels of the accepting states. -/
def acceptingLabels (d : Dfa) : Std.ExtTreeSet Label :=
  .ofList ((d.states.toList.filter (·.accepting)).map (·.label)) compare

/-- **The edges by labels**: for each label of a state with an edge, the labels of the targets. -/
def labelTable (d : Dfa) : Std.ExtTreeMap Label (SymbolMap Label) :=
  .ofList
    ((d.states.toList.filter (!·.edges.isEmpty)).map fun s =>
      (s.label, s.edges.map fun _ target => d.label target))
    compare

end Dfa

end Automata
