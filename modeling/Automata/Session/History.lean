import Automata.Session.Run

/-!
# Histories

The history of a fragment is what has been asked of it since a combination built it. A copy takes
over the history of the fragment that it is copied from. Histories are told by the steps of a
session alone: nothing here looks at what a fragment knows.

* `History`, `History.requested`: the queries, and whether one of them has asked for the table.
* `Construction.record`, `Query.record`, `Command.record`: the histories after one step.
* `Session.histories`: **the histories of the fragments on the stack** after a list of steps.
* `Nfa.tableReport`, `Dfa.additions`, `Nfa.dfaReport`: the lines that report an automaton.
* `Query.report`: **the lines that a query reports**, told by the automata on the stack and their
  histories.
-/

namespace Automata

/-- What has been asked of a fragment since a combination built it, the latest query first. -/
abbrev History := List Query

/-- Whether a query asks a fragment for its table. -/
def Query.requestsTable : Query → Bool
  | table | row _ | numberOf _ | targets _ _ | tableClosure _ | sameTable | build _ => true
  | _ => false

/-- Whether the table has been asked for. -/
def History.requested (h : History) : Bool := h.any (·.requestsTable)

/-! ### Histories after a step -/

/-- The histories after a construction that is not refused. What is combined is new; one fragment
alone, concatenated or united, is given back as it is. -/
def Construction.record (histories : List History) : Construction → List History
  | concat count | union count =>
    if count = 1 then histories else [] :: histories.drop count
  | concatPair | unionPair => [] :: histories.drop 2
  | star | plus | optional | compactStar | compactPlus | compactOptional => [] :: histories.drop 1
  | duplicate =>
    match histories with
    | h :: rest => h :: h :: rest
    | [] => []
  | exchange =>
    match histories with
    | b :: a :: rest => a :: b :: rest
    | few => few
  | char _ | epsilon | emptyLanguage | digits | anyOf _ | charRange _ _ | digitRange _ _
  | compactDigitRange _ _ | parseDigitRange _ _ => [] :: histories

/-- The histories after a query. It is made of the top of the stack, unless it looks at the register
or compares two fragments. -/
def Query.record (histories : List History) (q : Query) : List History :=
  match q with
  | drop => histories.tail
  | sameTable =>
    match histories with
    | b :: a :: rest => (sameTable :: b) :: (sameTable :: a) :: rest
    | few => few
  | _ => if q.readsRegister then histories else histories.modifyHead (q :: ·)

/-- The histories after a step of a session. A construction that is refused changes none of them. -/
def Command.record (s : Session) (histories : List History) : Command → List History
  | construct step =>
    match (s.construct step).answer with
    | .ok _ => step.record histories
    | .error _ => histories
  | query q => q.record histories

/-- **The histories of the fragments on the stack**, the top of the stack first, after a list of
steps. -/
def Session.histories (s : Session) (histories : List History) : List Command → List History
  | [] => histories
  | c :: commands => (s.step c).session.histories (c.record s histories) commands

/-! ### Reports -/

/-- The lines of a table: the place of the state of each row, in the order of the numbers from 1 on,
and the number of rows. -/
def Nfa.tableReport (g : Nfa) : List String :=
  ((Table.ofNfa g).rows.toList.zipIdx 1).map (fun row =>
      "TRACE Number state " ++ toString row.1.state ++ " as " ++ toString row.2) ++
    ["DEBUG NFA transition table with " ++ toString (Table.ofNfa g).size ++ " states built"]

/-- The lines of a request for a table: none, if it is not the first one. -/
def Nfa.requestReport (g : Nfa) (requested : Bool) : List String :=
  if requested then [] else g.tableReport

/-- The lines of the first `count` states, in the order of their ids: the numbers in the label of each
of them, joined by commas and in braces. -/
def Dfa.additions (d : Dfa) (count : Nat) : List String :=
  (List.range count).map fun id =>
    "TRACE Add state " ++ toString id ++ ": \x7b" ++
      ",".intercalate ((d.label id).numbers.map toString) ++ "\x7d"

/-- The line of a deterministic automaton: the number of states, and how many of them accept. -/
def Dfa.completion (d : Dfa) : String :=
  "DEBUG DFA with " ++ toString d.states.size ++ " states and " ++
    toString ((List.range d.states.size).countP d.isAccepting) ++ " accepting states built"

/-- **The lines of the subset construction**: every state of the deterministic automaton and its
sizes, or as many states as a limit allows if there are more. -/
def Nfa.dfaReport (g : Nfa) : Option Nat → List String
  | none => g.toDfa.additions g.toDfa.states.size ++ [g.toDfa.completion]
  | some limit =>
    if g.toDfa.states.size ≤ limit then
      g.toDfa.additions g.toDfa.states.size ++ [g.toDfa.completion]
    else g.toDfa.additions limit

/-- **The lines that a query reports**, told by the automata on the stack and their histories. -/
def Query.report (stack : List (Nfa × History)) (q : Query) : List String :=
  match q, stack with
  | table, (g, h) :: _ | row _, (g, h) :: _ | numberOf _, (g, h) :: _ | targets _ _, (g, h) :: _
  | tableClosure _, (g, h) :: _ => g.requestReport h.requested
  -- the deeper one is asked first
  | sameTable, (b, k) :: (a, h) :: _ => a.requestReport h.requested ++ b.requestReport k.requested
  | build limit, (g, h) :: _ => g.requestReport h.requested ++ g.dfaReport limit
  | _, _ => []

end Automata
