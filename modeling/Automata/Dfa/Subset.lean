import Automata.Dfa.Basic
import Automata.Table.Basic

/-!
# The subset construction

The states of the deterministic automaton are the labels that an exploration finds, from the
closure of the start along all symbols. A symbol that leads a label to no state at all has no edge.

* `Table.successors`: the labels that a label leads to, by symbol.
* `Table.subsets`: the exploration, with or without a limit to the number of labels. There are
  fewer than `2 ^ n` nonempty labels of `n` numbers, so that number as a bound is no limit.
* `Dfa.ofTable`: the automaton of all labels.
* `Dfa.ofTableWithin`: the same automaton, or an error if it has too many states.
-/

namespace Automata

namespace Table

/-- The label of the start state. -/
def startLabel (t : Table) : Label := t.label start

/-- Takes the closures of the targets of a row into the labels collected so far. -/
def addRow (t : Table) (labels : SymbolMap Label) (row : Row) : SymbolMap Label :=
  row.edges.foldl (fun labels c targets =>
    labels.insert c (targets.foldl (fun l n => l ∪ t.label n) (labels.getD c ∅))) labels

/-- **The successors of a label**: for each symbol of the alphabet, the closures of the targets of
all its members, unless there are none. -/
def successors (t : Table) (alphabet : Alphabet) (l : Label) : SymbolMap Label :=
  ((l.numbers.filterMap t.row?).foldl t.addRow ∅).filter fun c target =>
    alphabet.contains c && !target.isEmpty

/-- The exploration of the labels from that of the start, cut off at `limit` labels if there is a
limit. -/
def subsets (t : Table) (alphabet : Alphabet) (limit : Option Nat) : Search.Exploration Label :=
  let bound := limit.getD (Nat.pow 2 t.size)
  Search.explore (fun l => (t.successors alphabet l).toList.map (·.2)) bound t.startLabel

/-- Whether a label has an accepting member. -/
def accepts (t : Table) (l : Label) : Bool := l.numbers.any (t.accepting.contains ·)

end Table

namespace Dfa

/-- The automaton of the labels that an exploration has found. -/
def ofExploration (t : Table) (alphabet : Alphabet) (e : Search.Exploration Label) : Dfa where
  states := e.found.mapIdx fun id label =>
    { id, label
      accepting := t.accepts label
      edges := (t.successors alphabet label).filterMap fun _ target => e.index[target]? }
  alphabet
  ids := e.index

/-- The automaton of the labels that an exploration has found, unless a limit has cut it off. -/
def ofSubsets (t : Table) (alphabet : Alphabet) (limit : Option Nat)
    (e : Search.Exploration Label) : Except Error Dfa :=
  match limit, e.overflow with
  | some limit, true => .error (.stateLimitExceeded limit)
  | _, _ => .ok (ofExploration t alphabet e)

/-- **The deterministic automaton of a table.** -/
def ofTable (t : Table) (alphabet : Alphabet) : Dfa :=
  ofExploration t alphabet (t.subsets alphabet none)

/-- The deterministic automaton of a table, if it has at most `limit` states. -/
def ofTableWithin (t : Table) (alphabet : Alphabet) (limit : Nat) : Except Error Dfa :=
  ofSubsets t alphabet (some limit) (t.subsets alphabet (some limit))

end Dfa

/-- The deterministic automaton of a nondeterministic one. -/
def Nfa.toDfa (g : Nfa) : Dfa := Dfa.ofTable (.ofNfa g) g.alphabet

/-- The deterministic automaton of a nondeterministic one, if it has at most `limit` states. -/
def Nfa.toDfaWithin (g : Nfa) (limit : Nat) : Except Error Dfa :=
  Dfa.ofTableWithin (.ofNfa g) g.alphabet limit

end Automata
