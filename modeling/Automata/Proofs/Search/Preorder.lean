import Automata.Proofs.Search.Reaches
import Automata.Search.Basic

/-!
# What a depth-first search enters

* `Frontier`: what the loop keeps. Everything entered can be reached, has no goal among it, and has
  its successors entered or on the stack.
* `Frontier.drop`, `Frontier.enter`: the two steps of the loop.
* `any_preorder_iff`: **a goal is entered if and only if one can be reached.**
* `mem_preorder_iff`: without goals, everything that can be reached is entered.
* `getElem?_zero_preorder`: the start is entered first.
* `nodup_preorder`: nothing is entered twice.
-/

namespace Automata.Search

variable {α : Type} [BEq α] [Hashable α]
variable {next : α → List α} {goal : α → Bool} {start : α} {bound : Nat}

/-- What the depth-first loop keeps, as long as no goal is entered. -/
structure Frontier (next : α → List α) (goal : α → Bool) (start : α) (seen : Std.HashSet α)
    (entered : Array α) (stack : List α) : Prop where
  mem_seen : ∀ x, x ∈ seen ↔ x ∈ entered
  nodup : entered.toList.Nodup
  reaches : ∀ x ∈ entered, Reaches next start x
  reaches_stack : ∀ x ∈ stack, Reaches next start x
  start_mem : start ∈ entered ∨ start ∈ stack
  closed : ∀ x ∈ entered, ∀ y ∈ next x, y ∈ entered ∨ y ∈ stack
  no_goal : ∀ x ∈ entered, goal x = false

namespace Frontier

variable {seen : Std.HashSet α} {entered : Array α} {stack : List α} {x : α}

theorem init : Frontier next goal start ∅ #[] [start] where
  mem_seen := by simp
  nodup := List.nodup_nil
  reaches := by simp
  reaches_stack := by
    intro x hx
    rw [List.mem_singleton.1 hx]
    exact Relation.ReflTransGen.refl
  start_mem := Or.inr List.mem_cons_self
  closed := by simp
  no_goal := by simp

/-- The top of the stack is dropped if it was entered before. -/
theorem drop (h : Frontier next goal start seen entered (x :: stack)) (hx : x ∈ seen) :
    Frontier next goal start seen entered stack := by
  have hin : x ∈ entered := (h.mem_seen x).1 hx
  -- what was on top of the stack is entered, so nothing is lost with it
  have hmove : ∀ y, y ∈ entered ∨ y ∈ x :: stack → y ∈ entered ∨ y ∈ stack := by
    intro y hy
    rcases hy with hy | hy
    · exact Or.inl hy
    · rcases List.mem_cons.1 hy with rfl | hy
      · exact Or.inl hin
      · exact Or.inr hy
  exact ⟨h.mem_seen, h.nodup, h.reaches, fun y hy => h.reaches_stack y (List.mem_cons_of_mem _ hy),
    hmove _ h.start_mem, fun y hy z hz => hmove z (h.closed y hy z hz), h.no_goal⟩

/-- What can be reached stays so when the top of the stack is entered. -/
theorem reaches_push (h : Frontier next goal start seen entered (x :: stack)) :
    ∀ y ∈ entered.push x, Reaches next start y := by
  intro y hy
  rcases Array.mem_push.1 hy with hy | rfl
  · exact h.reaches y hy
  · exact h.reaches_stack y List.mem_cons_self

theorem nodup_push (h : Frontier next goal start seen entered (x :: stack)) (hx : x ∉ seen) :
    (entered.push x).toList.Nodup :=
  Search.nodup_push h.nodup fun hm => hx ((h.mem_seen x).2 hm)

/-- There is room for a new node if the bound is no restriction. -/
theorem size_lt (h : Frontier next goal start seen entered (x :: stack)) (hx : x ∉ seen)
    (hb : AtMost next start bound) : entered.size < bound := by
  have hl := hb _ (h.nodup_push hx) fun y hy => h.reaches_push y (Array.mem_toList_iff.1 hy)
  rw [Array.length_toList, Array.size_push] at hl
  exact hl

theorem not_mem_toList (h : Frontier next goal start seen entered stack)
    (hx : ¬ seen.contains x = true) : x ∉ entered.toList := fun hm =>
  hx (Std.HashSet.mem_iff_contains.1 ((h.mem_seen x).2 (Array.mem_toList_iff.1 hm)))

/-- As long as no goal is met, none is among what is entered. -/
theorem any_goal (h : Frontier next goal start seen entered stack) : entered.any goal = false := by
  rw [Array.any_eq_false]
  intro i hi
  rw [h.no_goal _ (Array.getElem_mem hi)]
  exact Bool.false_ne_true

variable [LawfulBEq α] [LawfulHashable α]

/-- A new top of the stack is entered, and its successors come in front of the others. -/
theorem enter (h : Frontier next goal start seen entered (x :: stack)) (hx : x ∉ seen)
    (hg : goal x = false) :
    Frontier next goal start (seen.insert x) (entered.push x) (next x ++ stack) := by
  have hmove : ∀ y, y ∈ entered ∨ y ∈ x :: stack → y ∈ entered.push x ∨ y ∈ next x ++ stack := by
    intro y hy
    rcases hy with hy | hy
    · exact Or.inl (Array.mem_push.2 (Or.inl hy))
    · rcases List.mem_cons.1 hy with rfl | hy
      · exact Or.inl (Array.mem_push.2 (Or.inr rfl))
      · exact Or.inr (List.mem_append.2 (Or.inr hy))
  refine ⟨?_, h.nodup_push hx, h.reaches_push, ?_, hmove _ h.start_mem, ?_, ?_⟩
  · intro y
    rw [Std.HashSet.mem_insert, Array.mem_push, h.mem_seen, beq_iff_eq, or_comm, eq_comm]
  · intro y hy
    rcases List.mem_append.1 hy with hy | hy
    · exact Relation.ReflTransGen.tail (h.reaches_stack x List.mem_cons_self) hy
    · exact h.reaches_stack y (List.mem_cons_of_mem _ hy)
  · intro y hy z hz
    rcases Array.mem_push.1 hy with hy | rfl
    · exact hmove z (h.closed y hy z hz)
    · exact Or.inr (List.mem_append.2 (Or.inl hz))
  · intro y hy
    rcases Array.mem_push.1 hy with hy | rfl
    · exact h.no_goal y hy
    · exact hg

end Frontier

/-- **What a search from `start` enters**: some of what can be reached, each once, and all of it if
no goal is met. -/
structure Entered (next : α → List α) (goal : α → Bool) (start : α) (r : Array α) : Prop where
  nodup : r.toList.Nodup
  reaches : ∀ x ∈ r, Reaches next start x
  complete : (∀ x ∈ r, goal x = false) → ∀ x, Reaches next start x → x ∈ r

/-- What is entered stays at its place. -/
theorem getElem?_preorderFrom {seen : Std.HashSet α} {entered : Array α} {stack : List α} {i : Nat}
    {y : α} (h : entered[i]? = some y) :
    (preorderFrom next goal bound seen entered stack)[i]? = some y := by
  induction seen, entered, stack using preorderFrom.induct next goal bound with
  | case1 seen entered => rwa [preorderFrom]
  | case2 seen entered x stack hx ih => rw [preorderFrom, if_pos hx]; exact ih h
  | case3 seen entered x stack hx hlt hg =>
    rw [preorderFrom, if_neg hx, if_pos hlt, if_pos hg]
    exact getElem?_push_of_eq_some h
  | case4 seen entered x stack hx hlt hg ih =>
    rw [preorderFrom, if_neg hx, if_pos hlt, if_neg hg]
    exact ih (getElem?_push_of_eq_some h)
  | case5 seen entered x stack hx hlt => rwa [preorderFrom, if_neg hx, if_neg hlt]

/-- A search enters its start first. -/
theorem getElem?_zero_preorder (hb : 0 < bound) :
    (preorder next goal bound start)[0]? = some start := by
  unfold preorder
  have hroom : (#[] : Array α).size < bound := hb
  rw [preorderFrom, if_neg (by simp), if_pos hroom]
  split
  · rfl
  · exact getElem?_preorderFrom rfl

variable [LawfulBEq α] [LawfulHashable α]

/-- The loop turns its invariant into its result. -/
theorem entered_preorderFrom (hb : AtMost next start bound) (seen : Std.HashSet α)
    (entered : Array α) (stack : List α) (h : Frontier next goal start seen entered stack) :
    Entered next goal start (preorderFrom next goal bound seen entered stack) := by
  induction seen, entered, stack using preorderFrom.induct next goal bound with
  | case1 seen entered =>
    rw [preorderFrom]
    refine ⟨h.nodup, h.reaches, fun _ x hx => ?_⟩
    have hs : start ∈ entered := by simpa using h.start_mem
    exact hx.mem_of_closed hs fun y hy z hz => by simpa using h.closed y hy z hz
  | case2 seen entered x stack hx ih =>
    rw [preorderFrom, if_pos hx]
    exact ih (h.drop (Std.HashSet.mem_iff_contains.2 hx))
  | case3 seen entered x stack hx hlt hg =>
    -- a goal ends the search, and nothing is claimed about what is left out
    rw [preorderFrom, if_neg hx, if_pos hlt, if_pos hg]
    refine ⟨h.nodup_push fun hm => hx (Std.HashSet.mem_iff_contains.1 hm), h.reaches_push, ?_⟩
    intro hno
    have := hno x (Array.mem_push.2 (Or.inr rfl))
    rw [hg] at this
    exact absurd this (by decide)
  | case4 seen entered x stack hx hlt hg ih =>
    rw [preorderFrom, if_neg hx, if_pos hlt, if_neg hg]
    exact ih (h.enter (fun hm => hx (Std.HashSet.mem_iff_contains.1 hm)) (by simpa using hg))
  | case5 seen entered x stack hx hlt =>
    exact absurd (h.size_lt (fun hm => hx (Std.HashSet.mem_iff_contains.1 hm)) hb) hlt

theorem entered_preorder (goal : α → Bool) (hb : AtMost next start bound) :
    Entered next goal start (preorder next goal bound start) :=
  entered_preorderFrom hb _ _ _ Frontier.init

/-- **Nothing is entered twice.** -/
theorem nodup_preorder (hb : AtMost next start bound) :
    (preorder next goal bound start).toList.Nodup :=
  (entered_preorder goal hb).nodup

/-- **A goal is entered if and only if one can be reached.** -/
theorem any_preorder_iff (hb : AtMost next start bound) :
    (preorder next goal bound start).any goal = true ↔
      ∃ x, Reaches next start x ∧ goal x = true := by
  have h := entered_preorder goal hb
  rw [Array.any_eq_true']
  refine ⟨?_, ?_⟩
  · rintro ⟨x, hx, hg⟩
    exact ⟨x, h.reaches x hx, hg⟩
  · rintro ⟨x, hx, hg⟩
    by_contra hno
    have hall : ∀ y ∈ preorder next goal bound start, goal y = false := by
      intro y hy
      by_contra hgy
      exact hno ⟨y, hy, by simpa using hgy⟩
    exact hno ⟨x, h.complete hall x hx, hg⟩

/-- **Without goals, a search enters everything that can be reached.** -/
theorem mem_preorder_iff (hb : AtMost next start bound) {x : α} :
    x ∈ preorder next (fun _ => false) bound start ↔ Reaches next start x := by
  have h := entered_preorder (fun _ => false) hb
  exact ⟨h.reaches x, h.complete (fun _ _ => rfl) x⟩

end Automata.Search
