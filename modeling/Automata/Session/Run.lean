import Automata.Session.Basic

/-!
# Runs of a session, and what its fragments know

* `Fragment.Coherent`: what a fragment knows is what a computation would find out now.
* `Session.run`: the session after a list of steps.
* `Thinned`: a list of steps and the same list with some of its queries deleted.
* `Command.withoutQueries`: a list of steps with all queries deleted. Taking a fragment away is no
  query in this sense.
-/

namespace Automata

/-- **What a fragment knows is true of its automaton**: the alphabet, the table and the closure of
each state are those that a computation would find now. -/
structure Fragment.Coherent (f : Fragment) : Prop where
  alphabet : ∀ a, f.memo.alphabet = some a → a = f.nfa.alphabet
  table : ∀ t, f.memo.table = some t → t = Table.ofNfa f.nfa
  closure : ∀ (id : Nat) (l : List Nat), f.memo.closures[id]? = some l → l = f.nfa.closure id

namespace Query

/-- Whether a query takes a fragment away. -/
def isDrop : Query → Bool
  | drop => true
  | _ => false

/-- Whether a query writes to the register. -/
def isBuild : Query → Bool
  | build _ => true
  | _ => false

/-- Whether a query looks at the deterministic automaton in the register, and at no fragment. -/
def readsRegister : Query → Bool
  | sizes | dfa | labelTable | next _ _ | walk _ | isAccepting _ | idOf _ | dfaAccepts _ => true
  | _ => false

end Query

namespace Command

/-- Whether a step looks at the register, and at no fragment. -/
def readsRegister : Command → Bool
  | construct _ => false
  | query q => q.readsRegister

/-- Whether a step only asks: it leaves all fragments where they are. -/
def isQuery : Command → Bool
  | construct _ => false
  | query q => !q.isDrop

/-- The steps that are no queries. -/
def withoutQueries (commands : List Command) : List Command := commands.filter (!·.isQuery)

end Command

/-- **Some queries deleted** from a list of steps, out of those that may be deleted. -/
inductive Thinned (deletable : Query → Bool) : List Command → List Command → Prop where
  | nil : Thinned deletable [] []
  | keep {commands fewer : List Command} (c : Command) :
    Thinned deletable commands fewer → Thinned deletable (c :: commands) (c :: fewer)
  | delete {commands fewer : List Command} {q : Query} :
    deletable q = true → Thinned deletable commands fewer →
      Thinned deletable (.query q :: commands) fewer

/-- All queries may be deleted together. -/
theorem thinned_withoutQueries (commands : List Command) :
    Thinned (fun q => !q.isDrop) commands (Command.withoutQueries commands) := by
  induction commands with
  | nil => exact .nil
  | cons c commands ih =>
    cases c with
    | construct step => exact .keep (.construct step) ih
    | query q =>
      unfold Command.withoutQueries
      cases hq : q.isDrop with
      | true =>
        rw [List.filter_cons_of_pos (by simp [Command.isQuery, hq])]
        exact .keep (.query q) ih
      | false =>
        rw [List.filter_cons_of_neg (by simp [Command.isQuery, hq])]
        exact .delete (by rw [hq]; rfl) ih

namespace Session

/-- **The session after a list of steps.** A step that is refused is passed over. -/
def run (s : Session) (commands : List Command) : Session :=
  commands.foldl (fun s c => (s.step c).session) s

end Session

end Automata
