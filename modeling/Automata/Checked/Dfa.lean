import Automata.Checked.Table
import Automata.Dfa.Subset

/-!
# The subset construction, with checked look-ups

The construction once more, as a work list of ids over two vectors, the labels of the states and
their edges. A state is found at its id in both, and the result is `none` if one of them ends before
it.

* `Draft`: an automaton under construction.
* `Draft.add`, `Draft.link?`: a state, and an edge of the state that is expanded.
* `Draft.expand?`, `Draft.run?`: all edges of a state, and of all states that wait.
* `Nfa.dfa?`: the automaton, or an error if it has too many states.
-/

namespace Automata

/-- A deterministic automaton under construction. -/
structure Draft where
  /-- The labels of the states, by their ids. -/
  labels : Array Label := #[]
  /-- The edges that the states have so far, by their ids. -/
  edges : Array (SymbolMap Nat) := #[]
  /-- The id of each label. -/
  ids : Std.HashMap Label Nat := ∅
  /-- The ids of the states whose edges are still to be found, the latest first. -/
  work : List Nat := []
  /-- Whether a state too many was met. -/
  overflow : Bool := false

namespace Draft

/-- Adds the state of a label and lets it wait, unless the label is known or is one too many. -/
def add (bound : Nat) (d : Draft) (l : Label) : Draft :=
  if d.overflow || d.ids.contains l then d
  else if d.labels.size < bound then
    { d with
      labels := d.labels.push l
      edges := d.edges.push ∅
      ids := d.ids.insert l d.labels.size
      work := d.labels.size :: d.work }
  else { d with overflow := true }

/-- Adds an edge from the state `id` to that of a known label. -/
def connect? (id : Nat) (d : Draft) (p : Char × Label) : Option Draft := do
  let target ← d.ids[p.2]?
  checked id d.edges.size { d with edges := d.edges.modify id (·.insert p.1 target) }

/-- Adds an edge from the state `id` to that of a label, which may be new. If that is one too many,
the construction fails before the edge is there. -/
def link? (bound id : Nat) (d : Draft) (p : Char × Label) : Option Draft :=
  if (d.add bound p.2).overflow then some (d.add bound p.2)
  else (d.add bound p.2).connect? id p

/-- Adds all edges of the state `id`, with the states of `rest` still waiting. -/
def expand? (t : Table) (alphabet : Alphabet) (bound : Nat) (d : Draft) (id : Nat)
    (rest : List Nat) : Option Draft := do
  let l ← d.labels[id]?
  (t.successors alphabet l).toList.foldlM (link? bound id) { d with work := rest }

/-- A state is added within the bound and waits, or nothing is added. -/
theorem size_labels_add (bound : Nat) (d : Draft) (l : Label) :
    ((d.add bound l).labels.size = d.labels.size ∧
      (d.add bound l).work.length = d.work.length) ∨
    (d.labels.size < (d.add bound l).labels.size ∧ (d.add bound l).labels.size ≤ bound) := by
  unfold add
  split
  · exact Or.inl ⟨rfl, rfl⟩
  · split
    · next h => exact Or.inr ⟨by simp, by simp only [Array.size_push]; omega⟩
    · exact Or.inl ⟨rfl, rfl⟩

/-- An edge adds to the states what its label does. -/
theorem labels_link? {bound id : Nat} {d d' : Draft} {p : Char × Label}
    (h : d.link? bound id p = some d') :
    d'.labels = (d.add bound p.2).labels ∧ d'.work = (d.add bound p.2).work := by
  unfold link? at h
  split at h
  · cases h
    exact ⟨rfl, rfl⟩
  · obtain ⟨target, -, h⟩ := Option.bind_eq_some_iff.1 h
    unfold checked at h
    split at h
    · cases h
      exact ⟨rfl, rfl⟩
    · exact absurd h (by simp)

theorem size_labels_foldlM {bound id : Nat} {l : List (Char × Label)} {d d' : Draft}
    (h : l.foldlM (link? bound id) d = some d') :
    (d'.labels.size = d.labels.size ∧ d'.work.length = d.work.length) ∨
    (d.labels.size < d'.labels.size ∧ d'.labels.size ≤ bound) := by
  induction l generalizing d with
  | nil =>
    cases h
    exact Or.inl ⟨rfl, rfl⟩
  | cons p l ih =>
    obtain ⟨d₁, h₁, h⟩ := Option.bind_eq_some_iff.1 h
    obtain ⟨hlabels, hwork⟩ := labels_link? h₁
    have step := size_labels_add bound d p.2
    have rest := ih h
    rw [← hlabels, ← hwork] at step
    omega

/-- Adds the edges of the states that wait, the latest first, until none is left or there is one too
many. -/
def run? (t : Table) (alphabet : Alphabet) (bound : Nat) (d : Draft) : Option Draft :=
  if d.overflow then some d
  else
    match _h : d.work with
    | [] => some d
    | id :: rest =>
      match _hd : d.expand? t alphabet bound id rest with
      | none => none
      | some d' => run? t alphabet bound d'
termination_by (bound - d.labels.size, d.work.length)
decreasing_by
  rw [‹d.work = id :: rest›]
  obtain ⟨l, -, hd⟩ := Option.bind_eq_some_iff.1 ‹d.expand? t alphabet bound id rest = some d'›
  rcases size_labels_foldlM hd with ⟨hl, hw⟩ | ⟨hlt, hle⟩
  · rw [hl, hw]; exact Prod.Lex.right _ (Nat.lt_succ_self _)
  · exact Prod.Lex.left _ _ (Nat.sub_lt_sub_left (Nat.lt_of_lt_of_le hlt hle) hlt)

/-- The automaton drafted. -/
def toDfa (t : Table) (alphabet : Alphabet) (d : Draft) : Dfa where
  states := (d.labels.zip d.edges).mapIdx fun id p =>
    { id, label := p.1, accepting := t.accepts p.1, edges := p.2 }
  alphabet
  ids := d.ids

end Draft

/-- The automaton of all labels of a table, or an error if there are more than a limit allows. -/
def Table.construct? (t : Table) (alphabet : Alphabet) (limit : Option Nat) :
    Option (Except Error Dfa) := do
  let bound := limit.getD (Nat.pow 2 t.size)
  let d ← (Draft.add bound {} t.startLabel).run? t alphabet bound
  return match limit, d.overflow with
    | some limit, true => .error (.stateLimitExceeded limit)
    | _, _ => .ok (d.toDfa t alphabet)

/-- The deterministic automaton of a nondeterministic one, within a limit if there is one. -/
def Nfa.dfa? (g : Nfa) (limit : Option Nat) : Option (Except Error Dfa) := do
  let t ← g.table?
  let alphabet ← g.alphabet?
  t.construct? alphabet limit

end Automata
