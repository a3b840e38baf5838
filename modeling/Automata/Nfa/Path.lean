import Automata.Nfa.Basic

/-!
# Edges, paths and well-formed automata

* `Nfa.Edge g s l t`: an edge of `g` leads from `s` to `t` on the symbol `l`, or on the empty word.
* `Nfa.Path g s w t`: the edges of `g` lead from `s` to `t` along the word `w`, where edges on the
  empty word add nothing to `w`.
* `Nfa.Path.append`: paths are composed as their words are.
* `Nfa.SamePaths`: two states of one automaton are joined in another one by the same words.
* `Nfa.Reachable`, `Nfa.Productive`, `Nfa.Trim`: some path leads to a state from the start; some path
  leads on from it to the final state; all states are reachable and productive.
* `Nfa.Recognizes`: some path along the word leads from the start to an accepting state.

What the look-ups of this library take for granted is said as conditions on a raw arena:

* `Nfa.Enclosed`: every edge leads to a place of the arena. This is all that a search needs.
* `Nfa.InArena`: states know their places, and every id that occurs is a place of the arena.
* `Nfa.ProperEdges`: a symbol with an edge has a target.
* `Nfa.AcceptsAtFinal`: the final state accepts, and no other.
* `Nfa.WellFormed`: all of this, with the start and the final state apart.
-/

namespace Automata.Nfa

/-- **An edge** from one state to another, on a symbol or on the empty word. -/
def Edge (g : Nfa) (s : Nat) : Option Char → Nat → Prop
  | none, t => t ∈ (g.state s).epsilon
  | some c, t => t ∈ (g.state s).targets c

/-- **A path** from one state to another along a word. -/
inductive Path (g : Nfa) : Nat → List Char → Nat → Prop where
  | nil (s : Nat) : Path g s [] s
  | epsilon {s t u : Nat} {w : List Char} :
    t ∈ (g.state s).epsilon → Path g t w u → Path g s w u
  | symbol {s t u : Nat} {c : Char} {w : List Char} :
    t ∈ (g.state s).targets c → Path g t w u → Path g s (c :: w) u

/-- An edge in front of a path adds what it reads to the word. -/
theorem Path.cons {g : Nfa} {s t u : Nat} {l : Option Char} {w : List Char} (h : g.Edge s l t)
    (k : g.Path t w u) : g.Path s (l.toList ++ w) u := by
  cases l with
  | none => exact .epsilon h k
  | some c => exact .symbol h k

/-- Paths that meet are one path along both words. -/
theorem Path.append {g : Nfa} {s t u : Nat} {v w : List Char} (h : g.Path s v t)
    (k : g.Path t w u) : g.Path s (v ++ w) u := by
  induction h with
  | nil => exact k
  | epsilon he _ ih => exact .epsilon he (ih k)
  | symbol hc _ ih => exact .symbol hc (ih k)

/-- **The same paths**: state `s` of `g` stands at `f s` in `h`, and between any two states of `g`
there is a path in `h` along the same words as in `g`. -/
def SamePaths (g h : Nfa) (f : Nat → Nat) : Prop :=
  ∀ s, s < g.size → ∀ t, t < g.size → ∀ w : List Char, h.Path (f s) w (f t) ↔ g.Path s w t

/-- A state is reachable when a path along some word leads to it from the start. -/
def Reachable (g : Nfa) (s : Nat) : Prop := ∃ w, g.Path g.start w s

/-- A word is recognised when a path along it leads from the start to an accepting state. -/
def Recognizes (g : Nfa) (w : List Char) : Prop :=
  ∃ s, g.Path g.start w s ∧ (g.state s).accepting = true

/-- A state is productive when a path along some word leads from it to the final state. -/
def Productive (g : Nfa) (s : Nat) : Prop := ∃ w, g.Path s w g.final

/-- **A trim automaton**: every state of the arena is reached from the start and leads on to the
final state. -/
structure Trim (g : Nfa) : Prop where
  reachable : ∀ s, s < g.size → g.Reachable s
  productive : ∀ s, s < g.size → g.Productive s

/-! ### Well-formed automata -/

/-- Every edge leads to a place of the arena. Where the automaton is entered and left, and whether
states know their places, is of no account. -/
def Enclosed (g : Nfa) : Prop := ∀ s ∈ g.states, ∀ t ∈ s.successors, t < g.size

/-- Every id that occurs in the automaton is the place of a state of its own arena. -/
structure InArena (g : Nfa) : Prop where
  id_eq : ∀ i, i < g.size → (g.state i).id = i
  target_lt : ∀ s ∈ g.states, ∀ t ∈ s.successors, t < g.size
  start_lt : g.start < g.size
  final_lt : g.final < g.size

theorem InArena.enclosed {g : Nfa} (h : g.InArena) : g.Enclosed := h.target_lt

/-- No symbol has an entry without a target. -/
def ProperEdges (g : Nfa) : Prop :=
  ∀ s ∈ g.states, ∀ (c : Char) (targets : List Nat), s.edges[c]? = some targets → targets ≠ []

/-- Words are accepted in the final state and nowhere else. -/
def AcceptsAtFinal (g : Nfa) : Prop := ∀ i, (g.state i).accepting = true ↔ i = g.final

/-- An automaton with one place to enter, another one to leave, and nothing that leads outside. -/
structure WellFormed (g : Nfa) : Prop extends InArena g where
  start_ne_final : g.start ≠ g.final
  properEdges : g.ProperEdges
  acceptsAtFinal : g.AcceptsAtFinal

end Automata.Nfa
