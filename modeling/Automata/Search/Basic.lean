import Std.Data.HashMap
import Std.Data.HashSet

/-!
# Searches

Two searches over nodes of any type, given by a successor list for each node. An exploration finds a
node when it is first met; the node waits on a stack until its own successors are looked at. A
depth-first search enters a node when it is taken from the stack, so that a node may wait several
times and is entered once.

* `Exploration`: the nodes found, their positions, those that wait and those that are expanded.
* `Exploration.discover`, `Exploration.expand`: one node met, one node taken from the stack.
* `explore`: the exploration from one node, cut off when more than `bound` nodes would be found.
* `size_found_expand`: an expansion moves its node out of `pending` and every new node into it,
  which is why the loop ends.
* `preorderFrom`: the depth-first loop, from any stack and any set of nodes entered before.
* `preorder`: the nodes in the order in which a depth-first search from one node enters them.

The depth-first search enters at most `bound` nodes. Where `bound` is the number of nodes there are,
that is no restriction: it only bounds the loop.
-/

namespace Automata.Search

/-- How far an exploration has come. -/
structure Exploration (α : Type) [BEq α] [Hashable α] where
  /-- Every node found, in the order of discovery. -/
  found : Array α := #[]
  /-- The position in `found` of every node found. -/
  index : Std.HashMap α Nat := ∅
  /-- The nodes found that are not expanded yet, the latest first. -/
  pending : List α := []
  /-- The nodes whose successors have been looked at, in that order. -/
  expanded : Array α := #[]
  /-- Whether a new node was met when no more were admitted. -/
  overflow : Bool := false

variable {α : Type} [BEq α] [Hashable α]

namespace Exploration

/-- Notes a node: a new one is found and waits, unless `bound` nodes are found already. -/
def discover (bound : Nat) (e : Exploration α) (x : α) : Exploration α :=
  -- once a node too many was met, nothing is noted any more
  if e.overflow || e.index.contains x then e
  else if e.found.size < bound then
    { e with
      found := e.found.push x
      index := e.index.insert x e.found.size
      pending := x :: e.pending }
  else { e with overflow := true }

/-- Expands `x`, with `rest` still waiting: notes the successors of `x` in their order. -/
def expand (next : α → List α) (bound : Nat) (e : Exploration α) (x : α) (rest : List α) :
    Exploration α :=
  (next x).foldl (discover bound) { e with pending := rest, expanded := e.expanded.push x }

/-- A node met is found and pending, or leaves both as they were. -/
theorem size_found_discover (bound : Nat) (e : Exploration α) (x : α) :
    ((e.discover bound x).found.size = e.found.size ∧
      (e.discover bound x).pending.length = e.pending.length) ∨
    (e.found.size < bound ∧ (e.discover bound x).found.size = e.found.size + 1 ∧
      (e.discover bound x).pending.length = e.pending.length + 1) := by
  unfold discover
  split
  · exact Or.inl ⟨rfl, rfl⟩
  · split
    · next h => exact Or.inr ⟨h, Array.size_push _, rfl⟩
    · exact Or.inl ⟨rfl, rfl⟩

/-- Of a list of nodes met, as many become found as become pending, within the bound. -/
theorem size_found_foldl_discover (bound : Nat) (l : List α) (e : Exploration α) :
    ((l.foldl (discover bound) e).found.size = e.found.size ∧
      (l.foldl (discover bound) e).pending.length = e.pending.length) ∨
    (e.found.size < (l.foldl (discover bound) e).found.size ∧
      (l.foldl (discover bound) e).found.size ≤ bound) := by
  induction l generalizing e with
  | nil => exact Or.inl ⟨rfl, rfl⟩
  | cons x l ih =>
    simp only [List.foldl_cons]
    have step := size_found_discover bound e x
    have rest := ih (e.discover bound x)
    omega

/-- **An expansion makes progress**: it finds a new node within the bound, or it leaves `rest`
waiting and nothing else. -/
theorem size_found_expand (next : α → List α) (bound : Nat) (e : Exploration α) (x : α)
    (rest : List α) :
    ((e.expand next bound x rest).found.size = e.found.size ∧
      (e.expand next bound x rest).pending.length = rest.length) ∨
    (e.found.size < (e.expand next bound x rest).found.size ∧
      (e.expand next bound x rest).found.size ≤ bound) :=
  size_found_foldl_discover bound (next x)
    { e with pending := rest, expanded := e.expanded.push x }

/-- Expands the latest pending node until none is left or one too many is met. -/
def run (next : α → List α) (bound : Nat) (e : Exploration α) : Exploration α :=
  if e.overflow then e
  else
    match _h : e.pending with
    | [] => e
    | x :: rest => run next bound (e.expand next bound x rest)
termination_by (bound - e.found.size, e.pending.length)
decreasing_by
  rw [‹e.pending = x :: rest›]
  -- either a node is found, or `x` is gone from the stack and nothing has come for it
  rcases size_found_expand next bound e x rest with ⟨hf, hp⟩ | ⟨hlt, hle⟩
  · rw [hf, hp]; exact Prod.Lex.right _ (Nat.lt_succ_self _)
  · exact Prod.Lex.left _ _ (by omega)

end Exploration

/-- The exploration of everything that can be reached from `start`, cut off when more than `bound`
nodes would be found. -/
def explore (next : α → List α) (bound : Nat) (start : α) : Exploration α :=
  (Exploration.discover bound {} start).run next bound

/-! ### Depth-first search -/

/-- **The depth-first loop.** The top of the stack is dropped if it was entered before; otherwise it
is entered, and its successors go on the stack with the first of them on top. The loop ends when a
goal is entered, when the stack is empty, or when `bound` nodes are entered. -/
def preorderFrom (next : α → List α) (goal : α → Bool) (bound : Nat) (seen : Std.HashSet α)
    (entered : Array α) : List α → Array α
  | [] => entered
  | x :: stack =>
    if seen.contains x then preorderFrom next goal bound seen entered stack
    else if entered.size < bound then
      if goal x then entered.push x
      else preorderFrom next goal bound (seen.insert x) (entered.push x) (next x ++ stack)
    else entered
termination_by stack => (bound - entered.size, stack.length)
decreasing_by
  -- the top is dropped
  · exact Prod.Lex.right _ (Nat.lt_succ_self _)
  -- the top is entered, which happens `bound` times at most, however many successors come for it
  · exact Prod.Lex.left _ _ (by simp only [Array.size_push]; omega)

/-- The nodes that a depth-first search from `start` enters, in that order, up to the first goal. -/
def preorder (next : α → List α) (goal : α → Bool) (bound : Nat) (start : α) : Array α :=
  preorderFrom next goal bound ∅ #[] [start]

end Automata.Search
