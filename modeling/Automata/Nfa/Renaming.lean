import Mathlib.Data.Set.Function
import Mathlib.Order.Interval.Set.Defs
import Automata.Dfa.Subset
import Automata.Nfa.Path

/-!
# Renaming states

Two automata are alike when their states correspond to each other one to one and their edges with
them. How often an edge occurs in its list, and where in it, is of no account.

* `Nfa.Renaming`: a correspondence of states that carries the start, the final state and the edges
  of one automaton to those of the other.
* `Nfa.SameNumber`, `Nfa.SameLabel`: numbers, and labels of numbers, that stand for corresponding
  states in the tables of the two automata.
* `Nfa.SameDfa`: two automata with the same deterministic automaton, up to the numbers in its labels.
-/

namespace Automata.Nfa

/-- **A renaming** of the states of `f` to those of `g`. The targets of a state on a symbol, or on
the empty word, are renamed to the targets of the renamed state. -/
structure Renaming (f g : Nfa) (h : Nat → Nat) : Prop where
  bijOn : Set.BijOn h (Set.Iio f.size) (Set.Iio g.size)
  start : h f.start = g.start
  final : h f.final = g.final
  edge_iff : ∀ s, s < f.size → ∀ (l : Option Char) (t : Nat),
    g.Edge (h s) l t ↔ ∃ t', f.Edge s l t' ∧ h t' = t

/-- Two numbers stand for the same state when one is the number of a state and the other that of its
new name. -/
def SameNumber (f g : Nfa) (h : Nat → Nat) (n m : Nat) : Prop :=
  ∃ s, (Table.ofNfa f).numberOf? s = some n ∧ (Table.ofNfa g).numberOf? (h s) = some m

/-- One label is the image of another: each number of one stands for the same state as some number
of the other. -/
def SameLabel (f g : Nfa) (h : Nat → Nat) (l l' : Label) : Prop :=
  (∀ n ∈ l.numbers, ∃ m ∈ l'.numbers, f.SameNumber g h n m) ∧
    ∀ m ∈ l'.numbers, ∃ n ∈ l.numbers, f.SameNumber g h n m

/-- **The same deterministic automaton**, state by state and edge by edge, with labels that are
images of each other. -/
structure SameDfa (f g : Nfa) (h : Nat → Nat) : Prop where
  size_eq : f.toDfa.states.size = g.toDfa.states.size
  alphabet_eq : f.toDfa.alphabet = g.toDfa.alphabet
  next?_eq : ∀ (q : Nat) (c : Char), f.toDfa.next? q c = g.toDfa.next? q c
  isAccepting_eq : ∀ q : Nat, f.toDfa.isAccepting q = g.toDfa.isAccepting q
  sameLabel : ∀ q : Nat, f.SameLabel g h (f.toDfa.label q) (g.toDfa.label q)

end Automata.Nfa
