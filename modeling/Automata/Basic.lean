import Std.Data.ExtTreeMap
import Std.Data.ExtTreeSet

/-!
# Symbols, how states are named, and errors

Symbols are Unicode characters, ordered by code point. `SymbolMap` and `Alphabet` are extensional
search trees: two of them are equal when they have the same entries, and they list their entries by
ascending symbol.

States are named by natural numbers, in three ways:

* an *id* is the place of a state in the arena of a nondeterministic automaton, from 0;
* a *number* is the place of a reachable state in a transition table, from 1;
* the id of a state of a deterministic automaton is its place in the order of discovery, from 0.

An `Error` tells why an automaton could not be built, and `Error.message` is the text in which that
is reported.
-/

namespace Automata

/-- A finite map from symbols, in the order of their code points. -/
abbrev SymbolMap (α : Type) := Std.ExtTreeMap Char α

instance {α : Type} [DecidableEq α] : DecidableEq (SymbolMap α) := inferInstance

/-- A finite set of symbols, in the order of their code points. -/
abbrev Alphabet := Std.ExtTreeSet Char

/-- Why an automaton could not be built. -/
inductive Error where
  /-- The bounds of a range are out of order or out of their domain. -/
  | invalidRange (lo hi : String)
  /-- An argument cannot be read as what it stands for. -/
  | invalidArgument (text : String)
  /-- The deterministic automaton has more states than the caller allows. -/
  | stateLimitExceeded (limit : Nat)
deriving DecidableEq, Repr

/-- The text in which an error is reported. -/
def Error.message : Error → String
  | invalidRange lo hi => "Invalid range: " ++ lo ++ "-" ++ hi
  | invalidArgument text => "Invalid argument: " ++ text
  | stateLimitExceeded limit =>
    "DFA construction exceeded the limit of " ++ toString limit ++ " states"

end Automata
