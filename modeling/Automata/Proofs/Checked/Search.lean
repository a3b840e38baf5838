import Automata.Checked.Search
import Automata.Proofs.Search.Exploration
import Automata.Proofs.Search.Preorder

/-!
# Searches stay inside their vectors

A checked search meets the nodes that can be reached, and no other. So it has a result as soon as
every one of these can be looked up, and then it is the result of the search that does not check.

* `preorder?_eq`: the depth-first search.
* `explore?_eq`: the exploration.
-/

namespace Automata.Search

variable {α : Type} [BEq α] [Hashable α]
variable {next : α → List α} {goal : α → Bool} {start : α} {bound : Nat}
variable {inside : α → Bool} {visit? : α → Option (Bool × List α)} {next? : α → Option (List α)}

/-- **The loop of a checked depth-first search** goes the way of the plain one. -/
theorem preorderFrom?_eq [LawfulBEq α] [LawfulHashable α] (hb : AtMost next start bound)
    (hvisit : ∀ x, Reaches next start x → inside x = true ∧ visit? x = some (goal x, next x))
    {seen : Std.HashSet α} {entered : Array α} {stack : List α}
    (h : Frontier next goal start seen entered stack) :
    preorderFrom? inside visit? bound seen entered stack =
      some (preorderFrom next goal bound seen entered stack,
        (preorderFrom next goal bound seen entered stack).any goal) := by
  induction seen, entered, stack using preorderFrom.induct next goal bound with
  | case1 seen entered => rw [preorderFrom?, preorderFrom, h.any_goal]
  | case2 seen entered x stack hx ih =>
    have hin := (hvisit x (h.reaches_stack x List.mem_cons_self)).1
    rw [preorderFrom?, hin, preorderFrom, if_neg (by decide), if_pos hx, if_pos hx]
    exact ih (h.drop (Std.HashSet.mem_iff_contains.2 hx))
  | case3 seen entered x stack hx hlt hg =>
    obtain ⟨hin, hv⟩ := hvisit x (h.reaches_stack x List.mem_cons_self)
    rw [preorderFrom?, hin, hv, hg, preorderFrom, if_neg (by decide), if_neg hx, if_neg hx,
      if_pos hlt, if_pos hlt, if_pos hg, Array.any_push, hg, Bool.or_true]
  | case4 seen entered x stack hx hlt hg ih =>
    obtain ⟨hin, hv⟩ := hvisit x (h.reaches_stack x List.mem_cons_self)
    have hg' : goal x = false := by simpa using hg
    rw [preorderFrom?, hin, hv, hg', preorderFrom, if_neg (by decide), if_neg hx, if_neg hx,
      if_pos hlt, if_pos hlt, if_neg hg]
    exact ih (h.enter (fun hm => hx (Std.HashSet.mem_iff_contains.1 hm)) hg')
  | case5 seen entered x stack hx hlt =>
    exact absurd (h.size_lt (fun hm => hx (Std.HashSet.mem_iff_contains.1 hm)) hb) hlt

/-- **A depth-first search makes no look-up outside**, if every node that can be reached has its
mark and can be visited. -/
theorem preorder?_eq [LawfulBEq α] [LawfulHashable α] (goal : α → Bool)
    (hb : AtMost next start bound)
    (hvisit : ∀ x, Reaches next start x → inside x = true ∧ visit? x = some (goal x, next x)) :
    preorder? inside visit? bound start =
      some (preorder next goal bound start, (preorder next goal bound start).any goal) :=
  preorderFrom?_eq hb hvisit Frontier.init

/-- **The loop of a checked exploration** goes the way of the plain one. -/
theorem Exploration.run?_eq [LawfulBEq α] [LawfulHashable α]
    (hnext : ∀ x, Reaches next start x → inside x = true ∧ next? x = some (next x))
    {e : Exploration α} (h : Invariant next start bound e)
    (ho : (e.run next bound).overflow = false) :
    e.run? inside next? bound = some (e.run next bound) := by
  induction e using run_induction next bound with
  | stopped e hov =>
    rw [run_of_overflow hov, hov] at ho
    exact absurd ho (by decide)
  | done e hov hp =>
    rw [run_of_nil hp, run?, if_neg (by simp [hov])]
    split
    · rfl
    · next hp' => rw [hp] at hp'; exact absurd hp' (by simp)
  | step e x rest hov hp ih =>
    have hx : Reaches next start x := h.reaches x (h.mem_found_of_pending hp)
    have hall : (next x).all inside = true :=
      List.all_eq_true.2 fun y hy => (hnext y (hx.tail hy)).1
    rw [run_of_cons hov hp] at ho ⊢
    rw [run?, if_neg (by simp [hov])]
    split
    · next hp' => rw [hp] at hp'; exact absurd hp' (by simp)
    · next hp' =>
      rw [hp] at hp'
      cases hp'
      simp only [(hnext x hx).2, hall, if_true]
      exact ih (h.expand hp) ho

/-- **An exploration makes no look-up outside**, if every node that can be reached has its mark and
its successors. -/
theorem explore?_eq [LawfulBEq α] [LawfulHashable α] (hb : AtMost next start bound)
    (hnext : ∀ x, Reaches next start x → inside x = true ∧ next? x = some (next x)) :
    explore? inside next? bound start = some (explore next bound start) := by
  unfold explore?
  rw [if_pos (hnext start Relation.ReflTransGen.refl).1]
  exact Exploration.run?_eq hnext Exploration.Invariant.init (overflow_explore hb)

end Automata.Search
