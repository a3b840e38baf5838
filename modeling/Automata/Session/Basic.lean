import Automata.Session.Construction

/-!
# Sessions

A session is a stack of fragments and a register for one deterministic automaton. Queries look at
the top of the stack or at the register; they change what the fragments know, never what they
accept. A step that is refused leaves the stack and the register as they were, though a table built
on the way is kept with its fragment.

* `Query`, `Command`: the steps of a session.
* `Answer`: what a step answers.
* `Session.step`: one step, with the session after it and what it reports.
-/

namespace Automata

/-- A step that looks at what has been built. -/
inductive Query where
  /-- Removes the top of the stack and tells how many fragments are left. -/
  | drop
  /-- All states of the top. -/
  | states
  | state (id : Nat)
  /-- The targets of a state on a symbol. -/
  | targetsOf (id : Nat) (c : Char)
  | closure (id : Nat)
  | alphabet
  | table
  | row (number : Nat)
  | numberOf (id : Nat)
  /-- The targets of a numbered state on a symbol. -/
  | targets (number : Nat) (c : Char)
  | tableClosure (number : Nat)
  /-- Whether the two topmost fragments have the same table. -/
  | sameTable
  /-- Whether the top accepts a word. -/
  | accepts (word : List Char)
  /-- Builds the deterministic automaton of the top into the register. -/
  | build (limit : Option Nat)
  /-- The sizes of the automaton in the register. -/
  | sizes
  /-- The automaton in the register. -/
  | dfa
  | labelTable
  | next (id : Nat) (c : Char)
  | walk (word : List Char)
  | isAccepting (id : Nat)
  | idOf (numbers : List Nat)
  /-- Whether the automaton in the register accepts a word. -/
  | dfaAccepts (word : List Char)

/-- A step of a session. -/
inductive Command where
  | construct (step : Construction)
  | query (step : Query)

/-- What a step answers. -/
inductive Answer where
  | count (n : Nat)
  | optionalCount (n : Option Nat)
  | verdict (b : Bool)
  | ids (ids : List Nat)
  | path (ids : Array (Option Nat))
  | symbols (alphabet : Alphabet)
  | state (s : State)
  | states (states : Array State)
  | table (t : Table)
  | row (r : Option Row)
  | dfa (d : Dfa)
  | labelTable (t : Std.ExtTreeMap Label (SymbolMap Label))
  /-- The size, the start and the final state of a fragment. -/
  | fragmentSizes (size start final : Nat)
  /-- The numbers of states, of accepting labels and of symbols of a deterministic automaton. -/
  | dfaSizes (states accepting symbols : Nat)

/-- The size and the ends of an automaton. -/
def Answer.ofNfa (g : Nfa) : Answer := .fragmentSizes g.size g.start g.final

/-- The sizes of a deterministic automaton. -/
def Answer.ofDfa (d : Dfa) : Answer :=
  .dfaSizes d.states.size d.acceptingLabels.size d.alphabet.size

/-- A stack of fragments and a register for a deterministic automaton. -/
structure Session where
  /-- The fragments, the top of the stack first. -/
  stack : List Fragment := []
  /-- The deterministic automaton built last. -/
  register : Option Dfa := none

/-- What a step answers, with the session after it and what it reports. -/
structure Outcome where
  /-- The answer, or why there is none. -/
  answer : Except Refusal Answer
  /-- The session after the step. -/
  session : Session
  /-- What is reported. -/
  events : List Event := []

namespace Session

/-- A refusal, which changes nothing. -/
def refuse (s : Session) (r : Refusal) : Outcome := { answer := .error r, session := s }

/-- Runs a step that builds a fragment; its answer are the sizes of the new top. -/
def construct (s : Session) (step : Construction) : Outcome :=
  match step.apply s.stack with
  | .ok built =>
    match built.stack with
    | top :: _ =>
      { answer := .ok (.ofNfa top.nfa)
        session := { s with stack := built.stack }
        events := built.events }
    | [] => s.refuse .fewFragments
  | .error r => s.refuse r

/-- Asks the top of the stack, which keeps what it finds out. -/
def ask {α : Type} (s : Session) (query : Fragment → Reply α) (answer : α → Answer) : Outcome :=
  match s.stack with
  | top :: rest =>
    let reply := query top
    { answer := .ok (answer reply.value)
      session := { s with stack := reply.fragment :: rest }
      events := reply.events }
  | [] => s.refuse .fewFragments

/-- Looks at a state of the top. -/
def askState (s : Session) (id : Nat) (answer : State → Answer) : Outcome :=
  match s.stack with
  | top :: _ =>
    match top.nfa.state? id with
    | some state => { answer := .ok (answer state), session := s }
    | none => s.refuse (.noState id)
  | [] => s.refuse .fewFragments

/-- Asks for the closure of a state of the top. -/
def askClosure (s : Session) (id : Nat) : Outcome :=
  match s.stack with
  | top :: _ =>
    if id < top.nfa.size then s.ask (·.closure id) .ids else s.refuse (.noState id)
  | [] => s.refuse .fewFragments

/-- Looks at the automaton in the register. -/
def askDfa (s : Session) (answer : Dfa → Answer) : Outcome :=
  match s.register with
  | some d => { answer := .ok (answer d), session := s }
  | none => s.refuse .noDfa

/-- Compares the tables of the two topmost fragments; the deeper one is asked first. -/
def compareTables (s : Session) : Outcome :=
  match s.stack with
  | b :: a :: rest =>
    let first := a.table
    let second := b.table
    { answer := .ok (.verdict (first.value = second.value))
      session := { s with stack := second.fragment :: first.fragment :: rest }
      events := first.events ++ second.events }
  | _ => s.refuse .fewFragments

/-- Builds the deterministic automaton of the top. The register keeps the old one if that fails. -/
def build (s : Session) (limit : Option Nat) : Outcome :=
  match s.stack with
  | top :: rest =>
    let reply := top.dfa limit
    let stack := reply.fragment :: rest
    match reply.value with
    | .ok d =>
      { answer := .ok (.ofDfa d)
        session := { stack, register := some d }
        events := reply.events }
    | .error e =>
      { answer := .error (.error e)
        session := { s with stack }
        events := reply.events }
  | [] => s.refuse .fewFragments

/-- Runs a query. -/
def query (s : Session) : Query → Outcome
  | .drop =>
    match s.stack with
    | _ :: rest => { answer := .ok (.count rest.length), session := { s with stack := rest } }
    | [] => s.refuse .fewFragments
  | .states => s.ask (fun f => { value := f.nfa.states, fragment := f }) .states
  | .state id => s.askState id .state
  | .targetsOf id c => s.askState id fun state => .ids (state.targets c)
  | .closure id => s.askClosure id
  | .alphabet => s.ask (·.alphabet) .symbols
  | .table => s.ask (·.table) .table
  | .row number => s.ask (·.table) fun t => .row (t.row? number)
  | .numberOf id => s.ask (·.table) fun t => .optionalCount (t.numberOf? id)
  | .targets number c => s.ask (·.table) fun t => .ids (t.targets number c)
  | .tableClosure number => s.ask (·.table) fun t => .ids (t.closure number)
  | .sameTable => s.compareTables
  | .accepts word => s.ask (fun f => { value := f.nfa.accepts word, fragment := f }) .verdict
  | .build limit => s.build limit
  | .sizes => s.askDfa .ofDfa
  | .dfa => s.askDfa .dfa
  | .labelTable => s.askDfa fun d => .labelTable d.labelTable
  | .next id c => s.askDfa fun d => .optionalCount (d.next? id c)
  | .walk word => s.askDfa fun d => .path (d.walk word)
  | .isAccepting id => s.askDfa fun d => .verdict (d.isAccepting id)
  | .idOf numbers => s.askDfa fun d => .optionalCount (d.idOf? (.ofList numbers))
  | .dfaAccepts word => s.askDfa fun d => .verdict (d.accepts word)

/-- **One step of a session.** -/
def step (s : Session) : Command → Outcome
  | .construct step => s.construct step
  | .query step => s.query step

end Session

end Automata
