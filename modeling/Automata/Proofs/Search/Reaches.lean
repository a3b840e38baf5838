import Mathlib.Data.List.Nodup
import Mathlib.Data.List.Perm.Subperm
import Mathlib.Logic.Relation

/-!
# What a search can reach

* `Reaches`: going from a node to one of its successors, any number of times.
* `AtMost`: no more than `bound` nodes can be reached. This is what makes the bound of a search no
  restriction; `AtMost.of_subset` gets it from a list that holds them all.
-/

namespace Automata.Search

variable {α : Type} {next : α → List α} {start : α}

/-- One node can be reached from another by going to successors. -/
def Reaches (next : α → List α) : α → α → Prop := Relation.ReflTransGen fun x y => y ∈ next x

/-- **At most `bound` nodes can be reached.** -/
def AtMost (next : α → List α) (start : α) (bound : Nat) : Prop :=
  ∀ l : List α, l.Nodup → (∀ x ∈ l, Reaches next start x) → l.length ≤ bound

theorem AtMost.of_subset {l : List α} {bound : Nat} (hl : l.length ≤ bound)
    (h : ∀ x, Reaches next start x → x ∈ l) : AtMost next start bound := by
  intro k hk hr
  have hsub : k ⊆ l := fun x hx => h x (hr x hx)
  exact Nat.le_trans (List.subperm_of_subset hk hsub).length_le hl

/-- What is closed under successors and holds the start holds everything that can be reached. -/
theorem Reaches.mem_of_closed {P : α → Prop} {x : α} (hs : P start)
    (hc : ∀ x, P x → ∀ y ∈ next x, P y) (h : Reaches next start x) : P x := by
  induction h with
  | refl => exact hs
  | tail _ hy ih => exact hc _ ih _ hy

/-- Searches that go to the same successors in different orders reach the same nodes. -/
theorem reaches_congr {next' : α → List α} (h : ∀ x y, y ∈ next x ↔ y ∈ next' x) {x y : α} :
    Reaches next x y ↔ Reaches next' x y := by
  have he : (fun x y => y ∈ next x) = fun x y => y ∈ next' x :=
    funext fun x => funext fun y => propext (h x y)
  unfold Reaches
  rw [he]

/-- A new last element leaves the others at their places. -/
theorem getElem?_push_of_eq_some {a : Array α} {x y : α} {i : Nat} (h : a[i]? = some y) :
    (a.push x)[i]? = some y := by
  have hi := (Array.getElem?_eq_some_iff.1 h).1
  rwa [Array.getElem?_push_lt hi, ← Array.getElem?_eq_getElem hi]

theorem nodup_push {a : Array α} {x : α} (ha : a.toList.Nodup) (hx : x ∉ a) :
    (a.push x).toList.Nodup := by
  rw [Array.toList_push]
  refine List.nodup_append.2 ⟨ha, List.nodup_singleton x, ?_⟩
  intro y hy z hz hyz
  rw [hyz, List.mem_singleton.1 hz] at hy
  exact hx (Array.mem_toList_iff.1 hy)

end Automata.Search
