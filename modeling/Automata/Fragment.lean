import Automata.Event
import Automata.Nfa.Combine
import Automata.Numeral.Bound

/-!
# Fragments

A fragment is an automaton together with what has been found out about it: its alphabet, its table
and the closures of its states. A query answers from there if it can, and keeps what it computes.
A combination changes the automaton of its first operand in place, and has to drop afterwards what
was known before.

* `Fragment.closure`, `Fragment.alphabet`, `Fragment.table`: the queries that are kept.
* `Fragment.dfa`: the deterministic automaton, with or without a limit. Its table is kept even if
  the limit is exceeded.
* `Fragment.modify`, `Fragment.invalidated`: a change in place, and what has to follow it.
* `Fragment.concatPair`, `Fragment.star` and the rest: the combinations.
* `Fragment.concat`, `Fragment.union`: of one fragment, that fragment itself.
-/

namespace Automata

/-- What is known about an automaton. -/
structure Memo where
  /-- Its alphabet. -/
  alphabet : Option Alphabet := none
  /-- Its table. -/
  table : Option Table := none
  /-- The closures of some of its states. -/
  closures : Std.HashMap Nat (List Nat) := ∅

/-- An automaton and what is known about it. -/
structure Fragment where
  /-- The automaton. -/
  nfa : Nfa
  /-- What is known about it. -/
  memo : Memo := {}

/-- What a query answers, with the fragment after it and what it reports. -/
structure Reply (α : Type) where
  /-- The answer. -/
  value : α
  /-- The fragment, which may know more than before. -/
  fragment : Fragment
  /-- What is reported on the way. -/
  events : List Event := []

namespace Fragment

/-- The closure of a state, from memory or computed. -/
def closureOf (f : Fragment) (id : Nat) : List Nat := (f.memo.closures[id]?).getD (f.nfa.closure id)

/-- The closure of a state. -/
def closure (f : Fragment) (id : Nat) : Reply (List Nat) :=
  let value := f.closureOf id
  { value
    fragment := { f with memo := { f.memo with closures := f.memo.closures.insert id value } } }

/-- The alphabet. -/
def alphabet (f : Fragment) : Reply Alphabet :=
  let value := f.memo.alphabet.getD f.nfa.alphabet
  { value, fragment := { f with memo := { f.memo with alphabet := some value } } }

/-- The fragment that knows the closures of some states. -/
def withClosures (f : Fragment) (states : Array Nat) : Fragment :=
  states.foldl (fun f id => (f.closure id).fragment) f

/-- **The table.** It is built, and the building reported, at the first request only. The closures
for its rows are kept as well. -/
def table (f : Fragment) : Reply Table :=
  match f.memo.table with
  | some value => { value, fragment := f }
  | none =>
    let f := f.withClosures f.nfa.visitingOrder
    let value := Table.ofClosures f.nfa f.closureOf
    { value
      fragment := { f with memo := { f.memo with table := some value } }
      events := value.events }

/-- **The deterministic automaton**, if it has no more states than a limit allows. -/
def dfa (f : Fragment) (limit : Option Nat) : Reply (Except Error Dfa) :=
  let table := f.table
  let alphabet := table.fragment.alphabet
  let subsets := table.value.subsets alphabet.value limit
  let value := Dfa.ofSubsets table.value alphabet.value limit subsets
  let summary := match value with
    | .ok d => [d.summary]
    | .error _ => []
  { value
    -- what was found out on the way is kept, whatever becomes of the limit
    fragment := alphabet.fragment
    events := table.events ++ Dfa.discoveries subsets ++ summary }

/-! ### Combinations -/

/-- Changes the automaton in place. What is known stays, whether it still holds or not. -/
def modify (f : Fragment) (change : Nfa → Nfa) : Fragment := { f with nfa := change f.nfa }

/-- Forgets all that is known. -/
def invalidated (f : Fragment) : Fragment := { f with memo := {} }

/-- The concatenation: the states of `b` move behind those of `a`. -/
def concatPair (a b : Fragment) : Fragment := (a.modify (·.concatPair b.nfa)).invalidated

/-- The union: the states of `b` move behind those of `a`. -/
def unionPair (a b : Fragment) : Fragment := (a.modify (·.unionPair b.nfa)).invalidated

/-- Any number of words. -/
def star (a : Fragment) : Fragment := (a.modify .star).invalidated

/-- One word or more; the first one is that of a copy. -/
def plus (a : Fragment) : Fragment := a.concatPair a.star

/-- One word or the empty word. -/
def optional (a : Fragment) : Fragment := a.unionPair { nfa := .epsilon }

/-- Any number of words, without new states if the ends are isolated. -/
def compactStar (a : Fragment) : Fragment :=
  if a.nfa.IsolatedEnds then
    (a.modify fun g => (g.addEpsilon g.start g.final).addEpsilon g.final g.start).invalidated
  else a.star

/-- One word or more, without new states. -/
def compactPlus (a : Fragment) : Fragment := (a.modify .compactPlus).invalidated

/-- One word or the empty word, without new states if the ends are isolated. -/
def compactOptional (a : Fragment) : Fragment :=
  if a.nfa.IsolatedEnds then (a.modify fun g => g.addEpsilon g.start g.final).invalidated
  else a.optional

/-- The concatenation of a list of fragments, grouped from the left. -/
def concat : List Fragment → Fragment
  | [] => { nfa := .epsilon }
  | f :: rest => rest.foldl concatPair f

/-- The union of a list of fragments, grouped from the left. -/
def union : List Fragment → Fragment
  | [] => { nfa := .emptyLanguage }
  | f :: rest => rest.foldl unionPair f

/-! ### The automata of the combinations -/

variable {a b : Fragment}

@[simp] theorem nfa_concatPair : (a.concatPair b).nfa = a.nfa.concatPair b.nfa := rfl

@[simp] theorem nfa_unionPair : (a.unionPair b).nfa = a.nfa.unionPair b.nfa := rfl

@[simp] theorem nfa_star : a.star.nfa = a.nfa.star := rfl

@[simp] theorem nfa_plus : a.plus.nfa = a.nfa.plus := rfl

@[simp] theorem nfa_optional : a.optional.nfa = a.nfa.optional := rfl

@[simp] theorem nfa_compactStar : a.compactStar.nfa = a.nfa.compactStar := by
  unfold compactStar Nfa.compactStar
  split <;> rfl

@[simp] theorem nfa_compactPlus : a.compactPlus.nfa = a.nfa.compactPlus := rfl

@[simp] theorem nfa_compactOptional : a.compactOptional.nfa = a.nfa.compactOptional := by
  unfold compactOptional Nfa.compactOptional
  split <;> rfl

/-- The automaton of a concatenation is the concatenation of the automata. -/
theorem nfa_concat (l : List Fragment) : (concat l).nfa = .concat (l.map (·.nfa)) := by
  cases l with
  | nil => rfl
  | cons a l => exact (List.foldl_map_hom fun _ _ => rfl).symm

/-- The automaton of a union is the union of the automata. -/
theorem nfa_union (l : List Fragment) : (union l).nfa = .union (l.map (·.nfa)) := by
  cases l with
  | nil => rfl
  | cons a l => exact (List.foldl_map_hom fun _ _ => rfl).symm

/-! ### What is known of the combinations -/

theorem memo_compactStar : a.compactStar.memo = {} := by
  unfold compactStar
  split <;> rfl

theorem memo_compactOptional : a.compactOptional.memo = {} := by
  unfold compactOptional
  split <;> rfl

/-- Nothing is known of what has been combined, pair by pair, from other than one fragment. -/
theorem memo_of_length_ne_one {f : Fragment → Fragment → Fragment} {k : List Fragment → Fragment}
    (hf : ∀ a b, (f a b).memo = {}) (hnil : (k []).memo = {})
    (hcons : ∀ a l, k (a :: l) = l.foldl f a) {l : List Fragment} (h : l.length ≠ 1) :
    (k l).memo = {} := by
  have hfold : ∀ (l : List Fragment) (a : Fragment), a.memo = {} → (l.foldl f a).memo = {} := by
    intro l
    induction l with
    | nil => exact fun a ha => ha
    | cons b l ih => exact fun a _ => ih (f a b) (hf a b)
  match l, h with
  | [], _ => exact hnil
  | [_], h => exact absurd rfl h
  | a :: b :: l, _ =>
    rw [hcons, List.foldl_cons]
    exact hfold l (f a b) (hf a b)

/-- **Nothing is known of a concatenation**, unless it is of one fragment. -/
theorem memo_concat {l : List Fragment} (h : l.length ≠ 1) : (concat l).memo = {} :=
  memo_of_length_ne_one (fun _ _ => rfl) rfl (fun _ _ => rfl) h

/-- **Nothing is known of a union**, unless it is of one fragment. -/
theorem memo_union {l : List Fragment} (h : l.length ≠ 1) : (union l).memo = {} :=
  memo_of_length_ne_one (fun _ _ => rfl) rfl (fun _ _ => rfl) h

end Fragment

end Automata
