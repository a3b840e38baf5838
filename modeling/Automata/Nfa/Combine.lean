import Automata.Nfa.Basic

/-!
# Building automata

What has one symbol or none has two states, the start at 0 and the final state at 1. Each combination
joins its operands by edges on the empty word and leaves their own edges alone. The order of the
operations fixes the order of the edges: the newest comes first.

* `Nfa.char`, `Nfa.anyOf`, `Nfa.charRange`: one symbol, out of one, several or a range.
* `Nfa.epsilon`, `Nfa.emptyLanguage`: the empty word only, and no word at all.
* `Nfa.concatPair`, `Nfa.concat`: one word after another.
* `Nfa.unionPair`, `Nfa.union`: a word of one operand or of the other.
* `Nfa.star`, `Nfa.plus`, `Nfa.optional`: any number of words, at least one, at most one.
* `Nfa.digitRange`: a range of digits as a union of single digits.
* `Nfa.compactStar`, `Nfa.compactPlus`, `Nfa.compactOptional`: the languages of `star`, `plus` and
  `optional` with at most as many states, by edges between the ends of the operand itself.
* `Nfa.IsolatedEnds`: nothing leads into the start and nothing leaves the final state. Only then is
  such an edge sound for `star` and `optional`, which otherwise fall back to new states.
-/

namespace Automata.Nfa

/-! ### Single symbols, and no symbol -/

/-- **No word at all**: a start and a final state that nothing connects. -/
def emptyLanguage : Nfa where
  states := #[.bare 0, { id := 1, accepting := true }]
  start := 0
  final := 1

/-- The word of the one symbol `c`. -/
def char (c : Char) : Nfa := emptyLanguage.addEdge 0 c 1

/-- The empty word. -/
def epsilon : Nfa := emptyLanguage.addEpsilon 0 1

/-- The words of one symbol out of a list. A symbol listed twice gets two edges. -/
def anyOf (symbols : List Char) : Nfa :=
  symbols.foldl (fun g c => g.addEdge 0 c 1) emptyLanguage

/-- The symbols from `lo` to `hi`. Code points between them that are no symbols are left out. -/
def symbolsBetween (lo hi : Char) : List Char :=
  ((List.range' lo.toNat (hi.toNat + 1 - lo.toNat)).filter (·.isValidChar)).map Char.ofNat

/-- The words of one symbol between `lo` and `hi`. -/
def charRange (lo hi : Char) : Except Error Nfa :=
  if hi < lo then .error (.invalidRange lo.toString hi.toString)
  else .ok (anyOf (symbolsBetween lo hi))

/-- The decimal digits from `lo` to `hi`. -/
def digitSymbols (lo hi : Nat) : List Char := (List.range' lo (hi + 1 - lo)).map Nat.digitChar

/-- The decimal digits from `lo` to `hi`, for bounds that are digits and in order. -/
def digits? (lo hi : Int) : Except Error (List Char) :=
  if 0 ≤ lo ∧ lo ≤ hi ∧ hi ≤ 9 then .ok (digitSymbols lo.toNat hi.toNat)
  else .error (.invalidRange (toString lo) (toString hi))

/-- The words of one digit between `lo` and `hi`, all digits sharing their two states. -/
def compactDigitRange (lo hi : Int) : Except Error Nfa := (digits? lo hi).map anyOf

/-! ### Combinations -/

/-- **Concatenation.** The final state of `a` leads to the start of `b`. -/
def concatPair (a b : Nfa) : Nfa :=
  let bStart := b.start + a.size
  let bFinal := b.final + a.size
  let g := (a.append b).setAccepting a.final false |>.setAccepting bFinal true
  { g.addEpsilon a.final bStart with final := bFinal }

/-- **Union.** A new start leads to both starts, the one of `b` first, and both final states lead
to a new final state. -/
def unionPair (a b : Nfa) : Nfa :=
  let bStart := b.start + a.size
  let bFinal := b.final + a.size
  let start := a.size + b.size
  let final := start + 1
  let g := (a.append b).addState.addState
    |>.setAccepting a.final false |>.setAccepting bFinal false |>.setAccepting final true
    -- added later, the edge into `b` is the first of the two
    |>.addEpsilon start a.start |>.addEpsilon start bStart
    |>.addEpsilon a.final final |>.addEpsilon bFinal final
  { g with start, final }

/-- **Any number of words.** A new start leads to the old one and to a new final state, which the
old final state leads to and which leads back to the old start. -/
def star (a : Nfa) : Nfa :=
  let start := a.size
  let final := start + 1
  let g := a.addState.addState
    |>.setAccepting a.final false |>.setAccepting final true
    |>.addEpsilon start a.start |>.addEpsilon start final
    -- a repetition begins at the old start: nothing leads into the new one
    |>.addEpsilon a.final final |>.addEpsilon final a.start
  { g with start, final }

/-- One word or more: a word, then any number of words. -/
def plus (a : Nfa) : Nfa := a.concatPair a.star

/-- One word or the empty word. -/
def optional (a : Nfa) : Nfa := a.unionPair epsilon

/-- The concatenation of a list, grouped from the left; of no automata, the empty word. -/
def concat : List Nfa → Nfa
  | [] => epsilon
  | a :: rest => rest.foldl concatPair a

/-- The union of a list, grouped from the left; of no automata, no word. -/
def union : List Nfa → Nfa
  | [] => emptyLanguage
  | a :: rest => rest.foldl unionPair a

/-- The words of one digit between `lo` and `hi`, as a union of single digits. -/
def digitRange (lo hi : Int) : Except Error Nfa :=
  (digits? lo hi).map fun symbols => union (symbols.map char)

/-- The words of one decimal digit. -/
def digits : Nfa := union ((digitSymbols 0 9).map char)

/-! ### Repetition without new states -/

/-- The ends are isolated when the start cannot be re-entered and the final state cannot be left. -/
def IsolatedEnds (g : Nfa) : Prop :=
  g.start ≠ g.final ∧ (g.state g.final).isBare ∧ ∀ s ∈ g.states, g.start ∉ s.successors

instance (g : Nfa) : Decidable g.IsolatedEnds :=
  inferInstanceAs (Decidable (_ ∧ _ ∧ _))

/-- Any number of words: the start leads to the final state and the final state back to it. -/
def compactStar (a : Nfa) : Nfa :=
  if a.IsolatedEnds then (a.addEpsilon a.start a.final).addEpsilon a.final a.start else a.star

/-- One word or more: the final state leads back to the start. -/
def compactPlus (a : Nfa) : Nfa := a.addEpsilon a.final a.start

/-- One word or the empty word: the start leads to the final state. -/
def compactOptional (a : Nfa) : Nfa :=
  if a.IsolatedEnds then a.addEpsilon a.start a.final else a.optional

end Automata.Nfa
