import Automata.Proofs.Search.Exploration
import Automata.Search.Relation

/-!
# An exploration ends by itself

* `Consistent.workList_discover`, `Consistent.workList_foldl`: one node met is one rule of the loop,
  and so a list of nodes met is a stretch of it.
* `Invariant.workList_run`: from any point on, the bound makes no difference.
* `workList_explore_iff`: **if the bound is no restriction, the loop without it ends**, in one way
  only: it has then pushed the nodes found and taken the nodes expanded from the stack.
-/

namespace Automata.Search

open Exploration

variable {α : Type} [BEq α] [Hashable α] [LawfulBEq α] [LawfulHashable α]
variable {next : α → List α} {start : α} {bound : Nat} {e : Exploration α} {x : α}
variable {met pushed expanded : List α}

/-- One node met: what the loop does after it, it does from there on. -/
theorem Exploration.Consistent.workList_discover (h : Consistent next start bound e)
    (ho : (e.discover bound x).overflow = false)
    (hw : WorkList next (e.discover bound x).found.toList met (e.discover bound x).pending
      pushed expanded) :
    ∃ first, (e.discover bound x).found.toList = e.found.toList ++ first ∧
      WorkList next e.found.toList (x :: met) e.pending (first ++ pushed) expanded := by
  rcases discover_cases ho with ⟨hc, he⟩ | ⟨hc, he⟩
  · rw [he] at hw ⊢
    have hmem : x ∈ e.found.toList := Array.mem_toList_iff.2 (h.contains_index.1 hc)
    exact ⟨[], (List.append_nil _).symm, .known hmem hw⟩
  · rw [he] at hw ⊢
    rw [Array.toList_push] at hw ⊢
    have hnew : x ∉ e.found.toList := fun hm => h.not_mem_found hc (Array.mem_toList_iff.1 hm)
    exact ⟨[x], rfl, .push hnew hw⟩

/-- A list of nodes met. -/
theorem Exploration.Consistent.workList_foldl {l : List α} {e : Exploration α}
    (h : Consistent next start bound e) (hl : ∀ x ∈ l, Reaches next start x)
    (ho : (l.foldl (Exploration.discover bound) e).overflow = false)
    (hw : WorkList next (l.foldl (Exploration.discover bound) e).found.toList []
      (l.foldl (Exploration.discover bound) e).pending pushed expanded) :
    ∃ first, (l.foldl (Exploration.discover bound) e).found.toList = e.found.toList ++ first ∧
      WorkList next e.found.toList l e.pending (first ++ pushed) expanded := by
  induction l generalizing e with
  | nil => exact ⟨[], (List.append_nil _).symm, hw⟩
  | cons x l ih =>
    rw [List.foldl_cons] at ho hw ⊢
    have hx := hl x List.mem_cons_self
    obtain ⟨later, hfound, hrest⟩ :=
      ih (h.discover hx) (fun y hy => hl y (List.mem_cons_of_mem x hy)) ho hw
    obtain ⟨first, hfirst, hall⟩ := h.workList_discover (overflow_of_foldl_discover ho) hrest
    refine ⟨first ++ later, ?_, ?_⟩
    · rw [hfound, hfirst, List.append_assoc]
    · rwa [List.append_assoc]

/-- **From any point of the loop on, the bound makes no difference.** -/
theorem Exploration.Invariant.workList_run (h : Invariant next start bound e)
    (ho : (e.run next bound).overflow = false) :
    ∃ pushed expanded, (e.run next bound).found.toList = e.found.toList ++ pushed ∧
      (e.run next bound).expanded.toList = e.expanded.toList ++ expanded ∧
      WorkList next e.found.toList [] e.pending pushed expanded := by
  induction e using run_induction next bound with
  | stopped e hov =>
    rw [run_of_overflow hov, hov] at ho
    exact absurd ho (by decide)
  | done e hov hp =>
    rw [run_of_nil hp, hp]
    exact ⟨[], [], (List.append_nil _).symm, (List.append_nil _).symm, .finished _⟩
  | step e x rest hov hp ih =>
    rw [run_of_cons hov hp] at ho ⊢
    obtain ⟨pushed, expanded, hfound, hexpanded, hw⟩ := ih (h.expand hp) ho
    -- what is met on the way are the successors of `x`
    have hx : Reaches next start x := h.reaches x (h.mem_found_of_pending hp)
    obtain ⟨first, hfirst, hall⟩ := (h.popped hp).workList_foldl
      (fun y hy => Relation.ReflTransGen.tail hx hy) (overflow_of_run ho) hw
    refine ⟨first ++ pushed, x :: expanded, ?_, ?_, ?_⟩
    · rw [hfound, ← List.append_assoc]
      exact congrArg (· ++ pushed) hfirst
    · rw [hexpanded, Exploration.expand, expanded_foldl_discover, Array.toList_push,
        List.append_assoc, List.singleton_append]
    · rw [hp]
      exact .pop hall

/-- If the bound is no restriction, the loop without it finds and expands the same nodes. -/
theorem workList_explore (hb : AtMost next start bound) :
    WorkList next [] [start] [] (explore next bound start).found.toList
      (explore next bound start).expanded.toList := by
  have ho := overflow_explore hb
  have hinit : Invariant next start bound (discover bound {} start) := Invariant.init
  obtain ⟨pushed, expanded, hfound, hexpanded, hw⟩ := hinit.workList_run ho
  have hempty : Consistent next start bound {} := Consistent.init
  obtain ⟨first, hfirst, hall⟩ := hempty.workList_discover (overflow_of_run ho) hw
  have hpushed : (explore next bound start).found.toList = first ++ pushed := by
    rw [explore, hfound, hfirst]
    rfl
  have hexp : (explore next bound start).expanded.toList = expanded := by
    rw [explore, hexpanded, expanded_discover]
    rfl
  rw [hpushed, hexp]
  exact hall

/-- **The loop ends by itself**, in one way only. -/
theorem workList_explore_iff (hb : AtMost next start bound) :
    WorkList next [] [start] [] pushed expanded ↔
      pushed = (explore next bound start).found.toList ∧
        expanded = (explore next bound start).expanded.toList := by
  refine ⟨fun h => h.unique (workList_explore hb), ?_⟩
  rintro ⟨rfl, rfl⟩
  exact workList_explore hb

end Automata.Search
