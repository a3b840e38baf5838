import Automata.Proofs.Search.Preorder
import Automata.Search.Relation

/-!
# A depth-first search with a stack is a recursive traversal

* `depthFirst_preorder`: **the search ends by itself.** If its bound is no restriction, the loop
  without the bound has the same result, and ends at a goal if and only if one is entered.
* `Traversal.split`: what waits on a stack is traversed after everything above it.
* `DepthFirst.traversal`: a loop that meets no goal is a recursive traversal of its stack.
* `traversal_preorder`: so **a search without goals enters nodes in the order of the recursion.**
-/

namespace Automata.Search

variable {α : Type} {next : α → List α} {goal : α → Bool} {start : α} {bound : Nat}

/-! ### The loop without its bound -/

/-- From any point of the loop on, the bound makes no difference. -/
theorem depthFirst_preorderFrom [BEq α] [Hashable α] [LawfulBEq α] [LawfulHashable α]
    (hb : AtMost next start bound) {seen : Std.HashSet α} {entered : Array α} {stack : List α}
    (h : Frontier next goal start seen entered stack) :
    DepthFirst next goal entered.toList stack
      (preorderFrom next goal bound seen entered stack).toList
      ((preorderFrom next goal bound seen entered stack).any goal) := by
  induction seen, entered, stack using preorderFrom.induct next goal bound with
  | case1 seen entered =>
    rw [preorderFrom, h.any_goal]
    exact .exhausted _
  | case2 seen entered x stack hx ih =>
    have hmem : x ∈ seen := Std.HashSet.mem_iff_contains.2 hx
    rw [preorderFrom, if_pos hx]
    exact .drop (Array.mem_toList_iff.2 ((h.mem_seen x).1 hmem)) (ih (h.drop hmem))
  | case3 seen entered x stack hx hlt hg =>
    rw [preorderFrom, if_neg hx, if_pos hlt, if_pos hg, Array.any_push, hg, Bool.or_true,
      Array.toList_push]
    exact .goal (h.not_mem_toList hx) hg
  | case4 seen entered x stack hx hlt hg ih =>
    have hno : goal x = false := by simpa using hg
    rw [preorderFrom, if_neg hx, if_pos hlt, if_neg hg]
    have hrest := ih (h.enter (fun hm => hx (Std.HashSet.mem_iff_contains.1 hm)) hno)
    rw [Array.toList_push] at hrest
    exact .enter (h.not_mem_toList hx) hno hrest
  | case5 seen entered x stack hx hlt =>
    -- there is room for every node that can be reached
    exact absurd (h.size_lt (fun hm => hx (Std.HashSet.mem_iff_contains.1 hm)) hb) hlt

/-- **The search ends by itself**: the loop without the bound enters the same nodes. -/
theorem depthFirst_preorder [BEq α] [Hashable α] [LawfulBEq α] [LawfulHashable α]
    (hb : AtMost next start bound) (goal : α → Bool) :
    DepthFirst next goal [] [start] (preorder next goal bound start).toList
      ((preorder next goal bound start).any goal) :=
  depthFirst_preorderFrom hb Frontier.init

/-! ### The loop and the recursion -/

/-- **A traversal of two lists** is one of the first list, and then one of the second. -/
theorem Traversal.split {seen todo rest result : List α}
    (h : Traversal next seen (todo ++ rest) result) :
    ∃ middle, Traversal next seen todo middle ∧ Traversal next middle rest result := by
  generalize hl : todo ++ rest = l at h
  induction h generalizing todo with
  | nil seen =>
    obtain ⟨rfl, rfl⟩ := List.append_eq_nil_iff.1 hl
    exact ⟨seen, .nil seen, .nil seen⟩
  | @skip seen l result x hx h ih =>
    -- the first node belongs to the first list, unless that is empty
    cases todo with
    | nil =>
      rw [List.nil_append] at hl
      subst hl
      exact ⟨seen, .nil seen, .skip hx h⟩
    | cons y todo =>
      rw [List.cons_append, List.cons.injEq] at hl
      obtain ⟨rfl, hl⟩ := hl
      obtain ⟨middle, h₁, h₂⟩ := ih hl
      exact ⟨middle, .skip hx h₁, h₂⟩
  | @enter seen inner l result x hx hin h _ ih =>
    cases todo with
    | nil =>
      rw [List.nil_append] at hl
      subst hl
      exact ⟨seen, .nil seen, .enter hx hin h⟩
    | cons y todo =>
      rw [List.cons_append, List.cons.injEq] at hl
      obtain ⟨rfl, hl⟩ := hl
      obtain ⟨middle, h₁, h₂⟩ := ih hl
      exact ⟨middle, .enter hx hin h₁, h₂⟩

/-- **A loop that meets no goal is a recursive traversal** of what is on its stack. Nodes may wait
on the stack several times; the copies below the first one are skipped when their turn comes. -/
theorem DepthFirst.traversal {entered stack result : List α} {found : Bool}
    (h : DepthFirst next goal entered stack result found) (hf : found = false) :
    Traversal next entered stack result := by
  induction h with
  | exhausted entered => exact .nil entered
  | drop hx _ ih => exact .skip hx (ih hf)
  | goal => exact absurd hf.symm Bool.false_ne_true
  | enter hx _ _ ih =>
    -- the successors of a node lie above what was on the stack before
    obtain ⟨inner, h₁, h₂⟩ := (ih hf).split
    exact .enter hx h₁ h₂

/-- **A search without goals enters nodes in the order of the recursion.** -/
theorem traversal_preorder [BEq α] [Hashable α] [LawfulBEq α] [LawfulHashable α]
    (hb : AtMost next start bound) :
    Traversal next [] [start] (preorder next (fun _ => false) bound start).toList := by
  have h := depthFirst_preorder hb fun _ => false
  exact h.traversal (Array.any_eq_false.2 fun _ _ => Bool.false_ne_true)

end Automata.Search
