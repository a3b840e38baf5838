import Automata.Search.Basic

/-!
# Searches that check their look-ups

The two searches once more, over nodes that are places in vectors. A look-up outside its vector ends
the search without a result, and so does a node too many: the bound is no part of what is searched.

* `checked`: a value that is there only if an index is in its vector.
* `preorder?`: the depth-first search. It also answers whether it has met a goal.
* `explore?`: the exploration.
-/

namespace Automata

/-- A value that is looked up at place `i` of a vector of some size, if there is such a place. -/
def checked {α : Type} (i size : Nat) (x : α) : Option α := if i < size then some x else none

theorem checked_of_lt {α : Type} {i size : Nat} {x : α} (h : i < size) :
    checked i size x = some x := if_pos h

namespace Search

variable {α : Type} [BEq α] [Hashable α]

/-- **The depth-first loop with checked look-ups.** `inside` tells whether the mark of a node can be
looked up, and `visit?` looks at the node itself: whether it is a goal, and its successors. The
result is what is entered and whether a goal is among it. -/
def preorderFrom? (inside : α → Bool) (visit? : α → Option (Bool × List α)) (bound : Nat)
    (seen : Std.HashSet α) (entered : Array α) : List α → Option (Array α × Bool)
  | [] => some (entered, false)
  | x :: stack =>
    if !inside x then none
    else if seen.contains x then preorderFrom? inside visit? bound seen entered stack
    else if entered.size < bound then
      match visit? x with
      | none => none
      | some (true, _) => some (entered.push x, true)
      | some (false, successors) =>
        preorderFrom? inside visit? bound (seen.insert x) (entered.push x) (successors ++ stack)
    else none
termination_by stack => (bound - entered.size, stack.length)
decreasing_by
  · exact Prod.Lex.right _ (Nat.lt_succ_self _)
  · exact Prod.Lex.left _ _ (by simp only [Array.size_push]; omega)

/-- The depth-first search from one node, with checked look-ups. -/
def preorder? (inside : α → Bool) (visit? : α → Option (Bool × List α)) (bound : Nat) (start : α) :
    Option (Array α × Bool) :=
  preorderFrom? inside visit? bound ∅ #[] [start]

/-- **The exploring loop with checked look-ups.** `next?` looks up the successors of a node, and
`inside` tells whether the mark of a successor can be looked up. -/
def Exploration.run? (inside : α → Bool) (next? : α → Option (List α)) (bound : Nat)
    (e : Exploration α) : Option (Exploration α) :=
  if e.overflow then none
  else
    match _h : e.pending with
    | [] => some e
    | x :: rest =>
      match next? x with
      | none => none
      | some successors =>
        if successors.all inside then
          run? inside next? bound (e.expand (fun _ => successors) bound x rest)
        else none
termination_by (bound - e.found.size, e.pending.length)
decreasing_by
  rw [‹e.pending = x :: rest›]
  rcases size_found_expand (fun _ => successors) bound e x rest with ⟨hf, hp⟩ | ⟨hlt, hle⟩
  · rw [hf, hp]; exact Prod.Lex.right _ (Nat.lt_succ_self _)
  · exact Prod.Lex.left _ _ (by omega)

/-- The exploration from one node, with checked look-ups. -/
def explore? (inside : α → Bool) (next? : α → Option (List α)) (bound : Nat) (start : α) :
    Option (Exploration α) :=
  if inside start then (Exploration.discover bound {} start).run? inside next? bound else none

end Search

end Automata
