import Automata.Fragment

/-!
# Constructions on a stack of fragments

A program builds fragments on a stack, the top of which is the head of a list.

* `Construction`: one step, which takes its operands from the stack and leaves its result there.
* `Construction.apply`: the stack after a step and what the step reports, or why it is refused.
* `Construction.applyAll`: the stack after a program, or the refusal of its first bad step.
-/

namespace Automata

/-- Why a step is refused. -/
inductive Refusal where
  /-- The automaton cannot be built. -/
  | error (e : Error)
  /-- There is no state at this place. -/
  | noState (id : Nat)
  /-- The stack holds fewer fragments than the step needs. -/
  | fewFragments
  /-- No deterministic automaton has been built. -/
  | noDfa
deriving DecidableEq, Repr

/-- A step that builds a fragment. -/
inductive Construction where
  | char (c : Char)
  | epsilon
  | emptyLanguage
  | digits
  | anyOf (symbols : List Char)
  | charRange (lo hi : Char)
  | digitRange (lo hi : Int)
  | compactDigitRange (lo hi : Int)
  | parseDigitRange (lo hi : List Char)
  /-- The concatenation of so many fragments, the deepest first. -/
  | concat (count : Nat)
  /-- The union of so many fragments, the deepest first. -/
  | union (count : Nat)
  | concatPair
  | unionPair
  | star
  | plus
  | optional
  | compactStar
  | compactPlus
  | compactOptional
  /-- A copy of the top. -/
  | duplicate
  /-- The two topmost fragments change places. -/
  | exchange
deriving DecidableEq, Repr

/-- The stack after a step, and what the step reports. -/
structure Built where
  /-- The stack, top first. -/
  stack : List Fragment
  /-- What is reported. -/
  events : List Event := []

namespace Construction

/-- Puts an automaton on the stack, about which nothing is known. -/
def push (stack : List Fragment) (g : Nfa) : Built := { stack := { nfa := g } :: stack }

/-- Puts an automaton on the stack, unless it cannot be built. -/
def push? (stack : List Fragment) : Except Error Nfa → Except Refusal Built
  | .ok g => .ok (push stack g)
  | .error e => .error (.error e)

/-- Turns the top into another fragment. -/
def mapTop (f : Fragment → Fragment) : List Fragment → Except Refusal Built
  | a :: stack => .ok { stack := f a :: stack }
  | [] => .error .fewFragments

/-- Combines the two topmost fragments, the deeper one first. -/
def mapPair (f : Fragment → Fragment → Fragment) : List Fragment → Except Refusal Built
  | b :: a :: stack => .ok { stack := f a b :: stack }
  | _ => .error .fewFragments

/-- Combines the topmost `count` fragments, the deepest first. -/
def gather (f : List Fragment → Fragment) (count : Nat) (stack : List Fragment) :
    Except Refusal Built :=
  if count ≤ stack.length then
    .ok { stack := f (stack.take count).reverse :: stack.drop count }
  else .error .fewFragments

/-- Reports `event` if the ends of the top are connected. -/
def reporting (event : Event) (stack : List Fragment) (built : Built) : Built :=
  { built with
    events := match stack.head? with
      | some a => if a.nfa.IsolatedEnds then [] else [event]
      | none => [] }

/-- **One step on a stack.** -/
def apply (stack : List Fragment) : Construction → Except Refusal Built
  | char c => .ok (push stack (.char c))
  | epsilon => .ok (push stack .epsilon)
  | emptyLanguage => .ok (push stack .emptyLanguage)
  | digits => .ok (push stack .digits)
  | anyOf symbols => .ok (push stack (.anyOf symbols))
  | charRange lo hi => push? stack (Nfa.charRange lo hi)
  | digitRange lo hi => push? stack (Nfa.digitRange lo hi)
  | compactDigitRange lo hi => push? stack (Nfa.compactDigitRange lo hi)
  | parseDigitRange lo hi => push? stack (Nfa.parseDigitRange lo hi)
  | concat count => gather .concat count stack
  | union count => gather .union count stack
  | concatPair => mapPair .concatPair stack
  | unionPair => mapPair .unionPair stack
  | star => mapTop .star stack
  | plus => mapTop .plus stack
  | optional => mapTop .optional stack
  | compactStar => (mapTop .compactStar stack).map (reporting .starWrapped stack)
  | compactPlus => mapTop .compactPlus stack
  | compactOptional => (mapTop .compactOptional stack).map (reporting .optionalWrapped stack)
  | duplicate =>
    match stack with
    | a :: stack => .ok { stack := a :: a :: stack }
    | [] => .error .fewFragments
  | exchange =>
    match stack with
    | b :: a :: stack => .ok { stack := a :: b :: stack }
    | _ => .error .fewFragments

/-- The stack after a program. -/
def applyAll (program : List Construction) : Except Refusal (List Fragment) :=
  program.foldlM (fun stack step => (apply stack step).map (·.stack)) []

end Construction

end Automata
