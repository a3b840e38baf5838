import Automata.Nfa.Basic
import Automata.Search.Basic

/-!
# Searches of an automaton

Words are matched by backtracking. A match in progress is a state and a position in the word. The
search for an accepting match tries the edges on the next symbol before those on the empty word, and
enters no match twice: one that was entered before either lies on the current path or has failed.

* `Nfa.closure`: the states reachable on the empty word, each once, the state itself first.
* `Nfa.reachable`: the states reachable from the start on any word.
* `Nfa.alphabet`: the symbols on edges between reachable states.
* `Config`: a state and a position.
* `Nfa.attempts`: the matches that the search enters, in that order.
* `Nfa.accepts`: whether one of them is accepting at the end of the word.
-/

namespace Automata

namespace Nfa

/-- **The closure of a state**: the states reachable from it on the empty word, in the order of an
exploration that looks at the newest edges first. -/
def closure (g : Nfa) (id : Nat) : List Nat :=
  (Search.explore (fun i => (g.state i).epsilon) g.size id).found.toList

/-- The states reachable from the start, each once, in the order of a depth-first search that
follows the last edge of a state first. -/
def reachable (g : Nfa) : List Nat :=
  (Search.preorder (fun i => (g.state i).successors.reverse) (fun _ => false) g.size g.start).toList

/-- **The alphabet**: the symbols on which a word can go on from a reachable state. -/
def alphabet (g : Nfa) : Alphabet :=
  .ofList (g.reachable.flatMap fun i => (g.state i).edges.keys) compare

end Nfa

/-! ### Matching -/

/-- A match in progress. -/
structure Config where
  /-- The number of symbols read. -/
  position : Nat
  /-- The state reached. -/
  state : Nat
deriving DecidableEq, Hashable

namespace Nfa

/-- The ways to go on: by the next symbol of the word, then by the empty word. -/
def moves (g : Nfa) (word : Array Char) (m : Config) : List Config :=
  let s := g.state m.state
  let symbolMoves := match word[m.position]? with
    | some c => (s.targets c).map fun t => { position := m.position + 1, state := t }
    | none => []
  symbolMoves ++ s.epsilon.map fun t => { m with state := t }

/-- Whether the whole word is read and the state accepts. -/
def isMatch (g : Nfa) (word : Array Char) (m : Config) : Bool :=
  m.position == word.size && (g.state m.state).accepting

/-- The matches in progress that the search enters, up to the first that accepts. -/
def attempts (g : Nfa) (word : Array Char) : Array Config :=
  -- there are no more matches in progress than pairs of a position and a state
  Search.preorder (g.moves word) (g.isMatch word) ((word.size + 1) * g.size)
    { position := 0, state := g.start }

/-- **Acceptance**: some match in progress accepts at the end of the word. -/
def accepts (g : Nfa) (word : List Char) : Bool :=
  (g.attempts word.toArray).any (g.isMatch word.toArray)

end Nfa

end Automata
