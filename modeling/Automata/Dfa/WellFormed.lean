import Automata.Dfa.Basic
import Automata.Table.Basic

/-!
# Well-formed deterministic automata

What holds of a deterministic automaton whose states are sets of numbers of a table.

* `Label.Closed`: a label that holds the closures of its members.
* `Dfa.WellFormed`: the states know their places, their labels are different, nonempty and closed
  sets of numbers of the table, the index knows these labels and no others, edges are on symbols of
  the alphabet and lead to states, a state accepts as its label does, and every state but the first
  is entered from a state before it.
* `Dfa.Live`: some word leads from a state on to an accepting one.
-/

namespace Automata

/-- A label is closed when it holds the closure of each of its members. -/
def Label.Closed (t : Table) (l : Label) : Prop :=
  ∀ n ∈ l.numbers, ∀ m ∈ t.closure n, m ∈ l.numbers

namespace Dfa

/-- **A deterministic automaton over a table**, with all that its parts owe each other. -/
structure WellFormed (t : Table) (d : Dfa) : Prop where
  id_eq : ∀ (q : Nat) (s : SubsetState), d.states[q]? = some s → s.id = q
  label_ne : ∀ q r, q < d.states.size → r < d.states.size → q ≠ r → d.label q ≠ d.label r
  label_nonempty : ∀ q, q < d.states.size → (d.label q).numbers ≠ []
  label_ascending : ∀ q, q < d.states.size → (d.label q).numbers.Pairwise (· < ·)
  label_range : ∀ q, q < d.states.size → ∀ n ∈ (d.label q).numbers, 1 ≤ n ∧ n ≤ t.size
  label_closed : ∀ q, q < d.states.size → (d.label q).Closed t
  idOf?_label : ∀ q, q < d.states.size → d.idOf? (d.label q) = some q
  idOf?_other : ∀ l, (∀ q, q < d.states.size → d.label q ≠ l) → d.idOf? l = none
  edge : ∀ q c r, d.next? q c = some r → c ∈ d.alphabet ∧ r < d.states.size
  accepting_iff : ∀ q, q < d.states.size →
    (d.isAccepting q = true ↔ ∃ n ∈ (d.label q).numbers, n ∈ t.accepting)
  entered : ∀ q, 0 < q → q < d.states.size → ∃ p c, p < q ∧ d.next? p c = some q

/-- A state is live when some word leads from it to an accepting state. -/
def Live (d : Dfa) (id : Nat) : Prop :=
  ∃ (word : List Char) (target : Nat),
    word.foldlM d.next? id = some target ∧ d.isAccepting target = true

end Dfa

end Automata
