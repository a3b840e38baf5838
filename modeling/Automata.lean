import Automata.Checked.Dfa
import Automata.Checked.Nfa
import Automata.Checked.Search
import Automata.Checked.Table
import Automata.Expression
import Automata.Nfa.Lemmas
import Automata.Nfa.Path
import Automata.Nfa.Renaming
import Automata.Proofs.Checked.Dfa
import Automata.Proofs.Checked.Nfa
import Automata.Proofs.Checked.Search
import Automata.Proofs.Checked.Table
import Automata.Proofs.Dfa.Coverage
import Automata.Proofs.Dfa.Live
import Automata.Proofs.Dfa.Renaming
import Automata.Proofs.Dfa.Termination
import Automata.Proofs.Dfa.Views
import Automata.Proofs.Expression.Compact
import Automata.Proofs.Fragment.Concat
import Automata.Proofs.Nfa.Alphabet
import Automata.Proofs.Nfa.Operand
import Automata.Proofs.Nfa.Renaming
import Automata.Proofs.Nfa.Search
import Automata.Proofs.Numeral.Range
import Automata.Proofs.Search.Traversal
import Automata.Proofs.Session.History
import Automata.Proofs.Table.Alphabet
import Automata.Search.Relation
import Automata.Session.Basic
