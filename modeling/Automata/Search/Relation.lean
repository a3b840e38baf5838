/-!
# Searches as relations

What an exploration and a depth-first search are meant to do, without regard to how long they take.
A derivation is finite, so having a result means that the search ends.

* `WorkList next found met stack pushed expanded`: of the nodes `met`, the new ones are found and
  put on the stack; when all of them are looked at, the top of the stack is taken and its successors
  are met. From there on until the stack is empty, the nodes `pushed` come on the stack and the nodes
  `expanded` are taken from it, in this order.
* `Traversal next seen todo result`: visiting the nodes of `todo` one after the other, each with
  everything that can be reached from it before the next one, extends the visited nodes from `seen`
  to `result`. A node visited before is skipped.
* `DepthFirst next goal entered stack result found`: taking nodes from a stack and entering those
  that were not entered before, until a goal is entered or the stack is empty, extends the entered
  nodes from `entered` to `result`.
* `WorkList.unique`, `Traversal.unique`, `DepthFirst.unique`: there is one result at most.
-/

namespace Automata.Search

/-- **The work-list loop.** A node is put on the stack at the moment when it is found, and one turn
of the loop takes one node from the stack. -/
inductive WorkList {α : Type} (next : α → List α) :
    List α → List α → List α → List α → List α → Prop where
  | finished (found : List α) : WorkList next found [] [] [] []
  | known {found met stack pushed expanded : List α} {x : α} :
    x ∈ found → WorkList next found met stack pushed expanded →
      WorkList next found (x :: met) stack pushed expanded
  | push {found met stack pushed expanded : List α} {x : α} :
    x ∉ found → WorkList next (found ++ [x]) met (x :: stack) pushed expanded →
      WorkList next found (x :: met) stack (x :: pushed) expanded
  | pop {found stack pushed expanded : List α} {x : α} :
    WorkList next found (next x) stack pushed expanded →
      WorkList next found [] (x :: stack) pushed (x :: expanded)

/-- What the loop finds, and in which order it expands, is determined by where it starts. -/
theorem WorkList.unique {α : Type} {next : α → List α} {found met stack p₁ p₂ x₁ x₂ : List α}
    (h₁ : WorkList next found met stack p₁ x₁) (h₂ : WorkList next found met stack p₂ x₂) :
    p₁ = p₂ ∧ x₁ = x₂ := by
  induction h₁ generalizing p₂ x₂ with
  | finished => cases h₂; exact ⟨rfl, rfl⟩
  | known hx _ ih =>
    cases h₂ with
    | known _ k => exact ih k
    | push hy => exact absurd hx hy
  | push hx _ ih =>
    cases h₂ with
    | known hy => exact absurd hy hx
    | push _ k =>
      obtain ⟨rfl, rfl⟩ := ih k
      exact ⟨rfl, rfl⟩
  | pop _ ih =>
    cases h₂ with
    | pop k =>
      obtain ⟨rfl, rfl⟩ := ih k
      exact ⟨rfl, rfl⟩

/-- **The recursive traversal.** Nodes are visited in preorder: a node is added when it is entered,
and its successors are traversed before what comes after it. -/
inductive Traversal {α : Type} (next : α → List α) : List α → List α → List α → Prop where
  | nil (seen : List α) : Traversal next seen [] seen
  | skip {seen todo result : List α} {x : α} :
    x ∈ seen → Traversal next seen todo result → Traversal next seen (x :: todo) result
  | enter {seen inner todo result : List α} {x : α} :
    x ∉ seen → Traversal next (seen ++ [x]) (next x) inner → Traversal next inner todo result →
      Traversal next seen (x :: todo) result

/-- What a traversal visits is determined by where it starts. -/
theorem Traversal.unique {α : Type} {next : α → List α} {seen todo r₁ r₂ : List α}
    (h₁ : Traversal next seen todo r₁) (h₂ : Traversal next seen todo r₂) : r₁ = r₂ := by
  induction h₁ generalizing r₂ with
  | nil => cases h₂; rfl
  | skip hx _ ih =>
    cases h₂ with
    | skip _ k => exact ih k
    | enter hy => exact absurd hx hy
  | enter hx _ _ ih₁ ih₂ =>
    cases h₂ with
    | skip hy => exact absurd hy hx
    | enter _ k₁ k₂ =>
      cases ih₁ k₁
      exact ih₂ k₂

/-- **The depth-first loop.** Each rule but the first is one turn of it: the top of the stack is
dropped if it was entered before, ends the loop if it is a goal, and otherwise leaves its successors
on top of the stack. `found` tells whether the loop has ended at a goal. -/
inductive DepthFirst {α : Type} (next : α → List α) (goal : α → Bool) :
    List α → List α → List α → Bool → Prop where
  | exhausted (entered : List α) : DepthFirst next goal entered [] entered false
  | drop {entered stack result : List α} {found : Bool} {x : α} :
    x ∈ entered → DepthFirst next goal entered stack result found →
      DepthFirst next goal entered (x :: stack) result found
  | goal {entered stack : List α} {x : α} :
    x ∉ entered → goal x = true → DepthFirst next goal entered (x :: stack) (entered ++ [x]) true
  | enter {entered stack result : List α} {found : Bool} {x : α} :
    x ∉ entered → goal x = false →
      DepthFirst next goal (entered ++ [x]) (next x ++ stack) result found →
      DepthFirst next goal entered (x :: stack) result found

/-- How the loop ends is determined by where it starts. -/
theorem DepthFirst.unique {α : Type} {next : α → List α} {goal : α → Bool}
    {entered stack r₁ r₂ : List α} {b₁ b₂ : Bool} (h₁ : DepthFirst next goal entered stack r₁ b₁)
    (h₂ : DepthFirst next goal entered stack r₂ b₂) : r₁ = r₂ ∧ b₁ = b₂ := by
  induction h₁ generalizing r₂ b₂ with
  | exhausted => cases h₂; exact ⟨rfl, rfl⟩
  | drop hx _ ih =>
    cases h₂ with
    | drop _ k => exact ih k
    | goal hy => exact absurd hx hy
    | enter hy => exact absurd hx hy
  | goal hx hg =>
    cases h₂ with
    | drop hy => exact absurd hy hx
    | goal => exact ⟨rfl, rfl⟩
    | enter _ hg' => rw [hg] at hg'; exact absurd hg' (by decide)
  | enter hx hg _ ih =>
    cases h₂ with
    | drop hy => exact absurd hy hx
    | goal _ hg' => rw [hg] at hg'; exact absurd hg' (by decide)
    | enter _ _ k => exact ih k

end Automata.Search
