import Automata.Checked.Search
import Automata.Expression
import Automata.Nfa.Search

/-!
# Automata that check their look-ups

Every operation on an arena once more, with `none` where an index is outside the arena or outside
the vector of marks that a search keeps for it. `Expression.nfa?` combines in this way all that an
expression builds.

* `Nfa.setAccepting?`, `Nfa.addEdge?`, `Nfa.addEpsilon?`: the writes, from which each combination is
  put together step by step.
* `Nfa.isolatedEnds?`: the one combination that looks before it writes.
* `Nfa.closure?`, `Nfa.alphabet?`, `Nfa.accepts?`: the queries and the matcher.
-/

namespace Automata

namespace Nfa

/-! ### Writes -/

/-- Tells the state at a place of the arena whether to accept. -/
def setAccepting? (g : Nfa) (id : Nat) (accepting : Bool) : Option Nfa :=
  checked id g.size (g.setAccepting id accepting)

/-- Adds an edge on a symbol to the state at a place of the arena. -/
def addEdge? (g : Nfa) (source : Nat) (c : Char) (target : Nat) : Option Nfa :=
  checked source g.size (g.addEdge source c target)

/-- Adds an edge on the empty word to the state at a place of the arena. -/
def addEpsilon? (g : Nfa) (source target : Nat) : Option Nfa :=
  checked source g.size (g.addEpsilon source target)

/-! ### Primitives -/

/-- No word at all: of two new states the second one is made accepting. -/
def emptyLanguage? : Option Nfa :=
  setAccepting? { states := #[.bare 0, .bare 1], start := 0, final := 1 } 1 true

/-- The word of the one symbol `c`. -/
def char? (c : Char) : Option Nfa := do
  let g ← emptyLanguage?
  g.addEdge? 0 c 1

/-- The empty word. -/
def epsilon? : Option Nfa := do
  let g ← emptyLanguage?
  g.addEpsilon? 0 1

/-- The words of one symbol out of a list. -/
def anyOf? (symbols : List Char) : Option Nfa := do
  let g ← emptyLanguage?
  symbols.foldlM (fun g c => g.addEdge? 0 c 1) g

/-! ### Combinations -/

/-- Concatenation. -/
def concatPair? (a b : Nfa) : Option Nfa := do
  let bStart := b.start + a.size
  let bFinal := b.final + a.size
  let g ← (a.append b).setAccepting? a.final false
  let g ← g.setAccepting? bFinal true
  let g ← g.addEpsilon? a.final bStart
  return { g with final := bFinal }

/-- Union. -/
def unionPair? (a b : Nfa) : Option Nfa := do
  let bStart := b.start + a.size
  let bFinal := b.final + a.size
  let start := a.size + b.size
  let final := start + 1
  let g ← (a.append b).addState.addState.setAccepting? a.final false
  let g ← g.setAccepting? bFinal false
  let g ← g.setAccepting? final true
  let g ← g.addEpsilon? start a.start
  let g ← g.addEpsilon? start bStart
  let g ← g.addEpsilon? a.final final
  let g ← g.addEpsilon? bFinal final
  return { g with start, final }

/-- Any number of words. -/
def star? (a : Nfa) : Option Nfa := do
  let start := a.size
  let final := start + 1
  let g ← a.addState.addState.setAccepting? a.final false
  let g ← g.setAccepting? final true
  let g ← g.addEpsilon? start a.start
  let g ← g.addEpsilon? start final
  let g ← g.addEpsilon? a.final final
  let g ← g.addEpsilon? final a.start
  return { g with start, final }

/-- One word or more. -/
def plus? (a : Nfa) : Option Nfa := do
  let b ← a.star?
  a.concatPair? b

/-- One word or the empty word. -/
def optional? (a : Nfa) : Option Nfa := do
  let b ← epsilon?
  a.unionPair? b

/-- The union of a list, grouped from the left. -/
def union? : List Nfa → Option Nfa
  | [] => emptyLanguage?
  | a :: rest => rest.foldlM unionPair? a

/-- Whether the ends are isolated; the final state is looked at only if it is not the start. -/
def isolatedEnds? (g : Nfa) : Option Bool :=
  if g.start = g.final then some false
  else do
    let s ← g.state? g.final
    return s.isBare && g.states.all fun s => !s.successors.contains g.start

/-- Any number of words, without new states if the ends are isolated. -/
def compactStar? (a : Nfa) : Option Nfa := do
  if ← a.isolatedEnds? then
    let g ← a.addEpsilon? a.start a.final
    g.addEpsilon? a.final a.start
  else a.star?

/-- One word or more, without new states. -/
def compactPlus? (a : Nfa) : Option Nfa := a.addEpsilon? a.final a.start

/-- One word or the empty word, without new states if the ends are isolated. -/
def compactOptional? (a : Nfa) : Option Nfa := do
  if ← a.isolatedEnds? then a.addEpsilon? a.start a.final else a.optional?

/-! ### Queries -/

/-- The closure of a state. The marks of the search are as many as there are states. -/
def closure? (g : Nfa) (id : Nat) : Option (List Nat) := do
  let e ← Search.explore? (· < g.size) (fun i => (g.state? i).map (·.epsilon)) g.size id
  return e.found.toList

/-- The alphabet. -/
def alphabet? (g : Nfa) : Option Alphabet := do
  let (reachable, _) ← Search.preorder? (· < g.size)
    (fun i => (g.state? i).map fun s => (false, s.successors.reverse)) g.size g.start
  let states ← reachable.toList.mapM g.state?
  return .ofList (states.flatMap (·.edges.keys)) compare

/-- Acceptance by backtracking. The matches entered are kept in a set, so only states are looked
up. -/
def accepts? (g : Nfa) (word : List Char) : Option Bool := do
  let (_, accepted) ← Search.preorder? (fun _ => true)
    (fun m => checked m.state g.size (g.isMatch word.toArray m, g.moves word.toArray m))
    ((word.toArray.size + 1) * g.size) { position := 0, state := g.start }
  return accepted

end Nfa

/-- The automaton of an expression. -/
def Expression.nfa? : Expression → Option Nfa
  | char c => Nfa.char? c
  | epsilon => Nfa.epsilon?
  | emptyLanguage => Nfa.emptyLanguage?
  | anyOf symbols => Nfa.anyOf? symbols
  | charRange lo hi => Nfa.anyOf? (Nfa.symbolsBetween lo hi)
  | digitRange lo hi => do
    let digits ← (Nfa.digitSymbols lo hi).mapM Nfa.char?
    Nfa.union? digits
  | compactDigitRange lo hi => Nfa.anyOf? (Nfa.digitSymbols lo hi)
  | concatPair a b => do
    let f ← a.nfa?
    let g ← b.nfa?
    f.concatPair? g
  | unionPair a b => do
    let f ← a.nfa?
    let g ← b.nfa?
    f.unionPair? g
  | star a => a.nfa?.bind Nfa.star?
  | plus a => a.nfa?.bind Nfa.plus?
  | optional a => a.nfa?.bind Nfa.optional?
  | compactStar a => a.nfa?.bind Nfa.compactStar?
  | compactPlus a => a.nfa?.bind Nfa.compactPlus?
  | compactOptional a => a.nfa?.bind Nfa.compactOptional?

end Automata
