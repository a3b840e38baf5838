import Mathlib.Data.List.Forall2
import Mathlib.Logic.Relator
import Automata.Proofs.Search.Exploration

/-!
# The order of discovery

* `HasParents`, `exists_parent_explore`: **every node found but the first is a successor of a node
  found before it.**
* `explore_congr_bound`: a bound that is not exceeded makes no difference.
* `overflow_explore_iff`: **a bound is exceeded if and only if there are more nodes than it
  admits.**
* `CutOff`: an exploration that a bound has stopped, beside one that went on.
* `toList_found_explore`: **what is found under a bound is what is found first without it.**
* `Lockstep`: two explorations have found related nodes in the same order, and wait for related
  nodes. `Lockstep.discover`, `Lockstep.expand` and `Lockstep.run` keep this.
* `lockstep_explore`: **related graphs are explored in lockstep**, if the relation is one to one and
  related nodes have related successors in the same order.
-/

namespace Automata.Search

namespace Exploration

variable {α : Type} [BEq α] [Hashable α]
variable {next : α → List α} {start : α} {bound bound' : Nat} {e : Exploration α} {x y : α}
variable {rest : List α}

/-! ### Parents -/

/-- Every node found but the first is a successor of a node found before it. -/
def HasParents (next : α → List α) (e : Exploration α) : Prop :=
  ∀ (i : Nat) (y : α), 0 < i → e.found[i]? = some y →
    ∃ j x, j < i ∧ e.found[j]? = some x ∧ y ∈ next x

theorem HasParents.discover (h : HasParents next e) (hx : x ∈ e.found) (hy : y ∈ next x) :
    HasParents next (e.discover bound y) := by
  unfold Exploration.discover
  split
  · exact h
  split
  · intro i z hi hz
    rw [Array.getElem?_push] at hz
    split at hz
    · next hlast =>
      -- the new node is the last one, and its parent is among the others
      obtain rfl := Option.some.inj hz
      obtain ⟨j, hj⟩ := Array.mem_iff_getElem?.1 hx
      have hlt := (Array.getElem?_eq_some_iff.1 hj).1
      exact ⟨j, x, by omega, getElem?_push_of_eq_some hj, hy⟩
    · obtain ⟨j, w, hji, hj, hw⟩ := h i z hi hz
      exact ⟨j, w, hji, getElem?_push_of_eq_some hj, hw⟩
  · exact h

theorem HasParents.foldl_discover {l : List α} {e : Exploration α} (h : HasParents next e)
    (hx : x ∈ e.found) (hl : ∀ y ∈ l, y ∈ next x) :
    HasParents next (l.foldl (Exploration.discover bound) e) := by
  induction l generalizing e with
  | nil => exact h
  | cons y l ih =>
    have hy := hl y List.mem_cons_self
    have hx' : x ∈ (e.discover bound y).found := mem_found_foldl_discover (l := [y]) hx
    exact ih (h.discover hx hy) hx' fun z hz => hl z (List.mem_cons_of_mem y hz)

theorem HasParents.init : HasParents next (Exploration.discover bound {} start) := by
  -- at most one node is found
  have hsize : (Exploration.discover bound {} start).found.size ≤ 1 := by
    rcases size_found_discover bound {} start with h | h
    · rw [h.1]; exact Nat.zero_le 1
    · rw [h.2.1]; exact Nat.le_refl 1
  intro i y hi hy
  have hlt := (Array.getElem?_eq_some_iff.1 hy).1
  omega

theorem HasParents.run [LawfulBEq α] [LawfulHashable α] (h : HasParents next e)
    (hi : Invariant next start bound e) : HasParents next (e.run next bound) := by
  induction e using run_induction next bound with
  | stopped e ho => rwa [run_of_overflow ho]
  | done e ho hp => rwa [run_of_nil hp]
  | step e x rest ho hp ih =>
    rw [run_of_cons ho hp]
    refine ih ?_ (hi.expand hp)
    have hx := hi.mem_found_of_pending hp
    exact foldl_discover (e := { e with pending := rest, expanded := e.expanded.push x }) h hx
      fun y hy => hy

/-! ### Bounds that are not exceeded -/

theorem discover_congr_bound (ho : (e.discover bound x).overflow = false)
    (ho' : (e.discover bound' x).overflow = false) :
    e.discover bound x = e.discover bound' x := by
  rcases discover_cases ho with ⟨hc, he⟩ | ⟨hc, he⟩
  · rw [he, discover_of_contains hc]
  · rcases discover_cases ho' with ⟨hc', -⟩ | ⟨-, he'⟩
    · rw [hc] at hc'; exact absurd hc' (by decide)
    · rw [he, he']

theorem foldl_discover_congr_bound {l : List α} {e : Exploration α}
    (ho : (l.foldl (discover bound) e).overflow = false)
    (ho' : (l.foldl (discover bound') e).overflow = false) :
    l.foldl (discover bound) e = l.foldl (discover bound') e := by
  induction l generalizing e with
  | nil => rfl
  | cons x l ih =>
    rw [List.foldl_cons] at ho ho'
    have hx := discover_congr_bound (overflow_of_foldl_discover ho) (overflow_of_foldl_discover ho')
    rw [← hx] at ho'
    rw [List.foldl_cons, List.foldl_cons, ← hx]
    exact ih ho ho'

theorem run_congr_bound (ho : (e.run next bound).overflow = false)
    (ho' : (e.run next bound').overflow = false) : e.run next bound = e.run next bound' := by
  induction e using run_induction next bound with
  | stopped e hov => rw [run_of_overflow hov, run_of_overflow hov]
  | done e hov hp => rw [run_of_nil hp, run_of_nil hp]
  | step e x rest hov hp ih =>
    rw [run_of_cons hov hp] at ho ho'
    have hx : e.expand next bound x rest = e.expand next bound' x rest :=
      foldl_discover_congr_bound (overflow_of_run ho) (overflow_of_run ho')
    rw [← hx] at ho'
    rw [run_of_cons hov hp, run_of_cons hov hp, ← hx]
    exact ih ho ho'

end Exploration

open Exploration

/-- **A node that is not the start has a parent**, which is found before it. -/
theorem exists_parent_explore {α : Type} [BEq α] [Hashable α] [LawfulBEq α] [LawfulHashable α]
    {next : α → List α} {start y : α} {bound i : Nat} (hi : 0 < i)
    (hy : (explore next bound start).found[i]? = some y) :
    ∃ j x, j < i ∧ (explore next bound start).found[j]? = some x ∧ y ∈ next x :=
  HasParents.init.run Invariant.init i y hi hy

/-- **A bound that is not exceeded makes no difference.** -/
theorem explore_congr_bound {α : Type} [BEq α] [Hashable α] {next : α → List α} {start : α}
    {bound bound' : Nat} (ho : (explore next bound start).overflow = false)
    (ho' : (explore next bound' start).overflow = false) :
    explore next bound start = explore next bound' start := by
  unfold explore at ho ho' ⊢
  have hx := discover_congr_bound (overflow_of_run ho) (overflow_of_run ho')
  rw [← hx] at ho' ⊢
  exact run_congr_bound ho ho'

/-- **A bound is exceeded if and only if there are more nodes than it admits.** How many there are
is told by an exploration whose own bound is not exceeded. -/
theorem overflow_explore_iff {α : Type} [BEq α] [Hashable α] [LawfulBEq α] [LawfulHashable α]
    {next : α → List α} {start : α} {bound bound' : Nat}
    (ho' : (explore next bound' start).overflow = false) :
    (explore next bound start).overflow = true ↔
      bound < (explore next bound' start).found.size := by
  refine ⟨fun ho => ?_, fun hlt => ?_⟩
  · -- otherwise the nodes found there would be all that can be reached, and few enough
    by_contra hle
    refine invariant_explore.overflow ho (AtMost.of_subset
      (l := (explore next bound' start).found.toList) (Nat.not_lt.1 hle) fun x hx => ?_)
    exact Array.mem_toList_iff.2 ((mem_found_explore_iff ho').2 hx)
  · by_contra ho
    rw [Bool.not_eq_true] at ho
    have hsize : (explore next bound start).found.size ≤ bound := invariant_explore.size_le
    rw [explore_congr_bound ho ho'] at hsize
    omega

/-! ### Explorations that are cut off -/

namespace Exploration

variable {α : Type} [BEq α] [Hashable α]
variable {next : α → List α} {bound bound' : Nat} {e e' : Exploration α} {x : α} {rest : List α}

/-- Found nodes are only ever added at the end. -/
theorem found_prefix_discover : e.found.toList <+: (e.discover bound x).found.toList := by
  unfold discover
  split
  · exact List.prefix_rfl
  split
  · rw [Array.toList_push]
    exact List.prefix_append _ _
  · exact List.prefix_rfl

theorem found_prefix_foldl_discover {l : List α} {e : Exploration α} :
    e.found.toList <+: (l.foldl (discover bound) e).found.toList := by
  induction l generalizing e with
  | nil => exact List.prefix_rfl
  | cons x l ih => exact found_prefix_discover.trans ih

/-- **Cut off**: an exploration under a bound is as far as another one, or it has stopped with all
the nodes that the bound admits, which are those that the other one found first. -/
inductive CutOff (bound : Nat) (e : Exploration α) : Exploration α → Prop where
  | same : CutOff bound e e
  | stopped {e' : Exploration α} : e.overflow = true → bound ≤ e.found.size →
    e.found.toList <+: e'.found.toList → CutOff bound e e'

namespace CutOff

/-- **One node met** is noted on both sides, or it is the one too many. -/
theorem discover (h : CutOff bound e e') (ho' : (e'.discover bound' x).overflow = false) :
    CutOff bound (e.discover bound x) (e'.discover bound' x) := by
  cases h with
  | stopped ho hsize hpart =>
    rw [discover_of_overflow ho]
    exact .stopped ho hsize (hpart.trans found_prefix_discover)
  | same =>
    have ho := overflow_of_discover ho'
    obtain ⟨hc, he'⟩ | ⟨hc, he'⟩ := discover_cases ho'
    · rw [he', discover_of_contains hc]
      exact .same
    by_cases hlt : e.found.size < bound
    · rw [he', discover_of_lt ho hc hlt]
      exact .same
    · have hpart : e.found.toList <+: (e.discover bound' x).found.toList := found_prefix_discover
      rw [discover_of_ge ho hc hlt]
      exact .stopped rfl (Nat.not_lt.1 hlt) hpart

theorem foldl_discover {l : List α} (h : CutOff bound e e')
    (ho' : (l.foldl (Exploration.discover bound') e').overflow = false) :
    CutOff bound (l.foldl (Exploration.discover bound) e)
      (l.foldl (Exploration.discover bound') e') := by
  induction l generalizing e e' with
  | nil => exact h
  | cons x l ih => exact ih (h.discover (overflow_of_foldl_discover ho')) ho'

/-- **The loops keep this**, as long as the second one does not exceed its own bound. -/
theorem run (h : CutOff bound e e') (ho' : (e'.run next bound').overflow = false) :
    CutOff bound (e.run next bound) (e'.run next bound') := by
  induction e' using run_induction next bound' generalizing e with
  | stopped e' hov =>
    rw [run_of_overflow hov, hov] at ho'
    exact absurd ho' (by decide)
  | done e' hov hp =>
    rw [run_of_nil hp]
    cases h with
    | same => rw [run_of_nil hp]; exact .same
    | stopped ho hsize hpart => rw [run_of_overflow ho]; exact .stopped ho hsize hpart
  | step e' x rest hov hp ih =>
    rw [run_of_cons hov hp] at ho' ⊢
    cases h with
    | same =>
      rw [run_of_cons hov hp]
      have hpopped : CutOff bound { e' with pending := rest, expanded := e'.expanded.push x }
          { e' with pending := rest, expanded := e'.expanded.push x } := .same
      exact ih (hpopped.foldl_discover (overflow_of_run ho')) ho'
    | stopped ho hsize hpart =>
      -- the one that has stopped stays as it is while the other one expands `x`
      have hexpand : e'.found.toList <+: (e'.expand next bound' x rest).found.toList :=
        found_prefix_foldl_discover (l := next x)
          (e := { e' with pending := rest, expanded := e'.expanded.push x })
      exact ih (.stopped ho hsize (hpart.trans hexpand)) ho'

end CutOff

end Exploration

/-- **What is found under a bound is what is found first without it.** -/
theorem toList_found_explore {α : Type} [BEq α] [Hashable α] [LawfulBEq α] [LawfulHashable α]
    {next : α → List α} {start : α} {bound bound' : Nat}
    (ho' : (explore next bound' start).overflow = false) :
    (explore next bound start).found.toList =
      (explore next bound' start).found.toList.take bound := by
  have hsize : (explore next bound start).found.size ≤ bound := invariant_explore.size_le
  have hempty : CutOff bound ({} : Exploration α) {} := .same
  have hcut : CutOff bound (explore next bound start) (explore next bound' start) :=
    (hempty.discover (overflow_of_run ho')).run ho'
  generalize explore next bound start = e at hsize hcut
  generalize explore next bound' start = e' at hcut
  cases hcut with
  | same => exact (List.take_of_length_le hsize).symm
  | stopped _ hge hpart =>
    have htake := List.prefix_iff_eq_take.1 hpart
    rwa [Array.length_toList, Nat.le_antisymm hsize hge] at htake

/-! ### Two explorations in lockstep -/

variable {α β : Type} [BEq α] [Hashable α] [BEq β] [Hashable β]
variable {R : α → β → Prop} {next : α → List α} {next' : β → List β} {bound bound' : Nat}
variable {e : Exploration α} {e' : Exploration β} {x : α} {x' : β}

/-- **In lockstep**: related nodes have been found in the same order and wait in the same order. -/
structure Lockstep (R : α → β → Prop) (e : Exploration α) (e' : Exploration β) : Prop where
  found : List.Forall₂ R e.found.toList e'.found.toList
  pending : List.Forall₂ R e.pending e'.pending
  index : ∀ x x', R x x' → e.index[x]? = e'.index[x']?

namespace Lockstep

theorem size_eq (h : Lockstep R e e') : e.found.size = e'.found.size := h.found.length_eq

theorem init : Lockstep R ({} : Exploration α) ({} : Exploration β) where
  found := .nil
  pending := .nil
  index := by simp

/-- Nodes found at the same place are related. -/
theorem exists_found (h : Lockstep R e e') {i : Nat} (hx : e.found[i]? = some x) :
    ∃ x', e'.found[i]? = some x' ∧ R x x' := by
  obtain ⟨hi, rfl⟩ := Array.getElem?_eq_some_iff.1 hx
  have hi' : i < e'.found.size := by rw [← h.size_eq]; exact hi
  refine ⟨e'.found[i], Array.getElem?_eq_getElem hi', ?_⟩
  exact List.forall₂_iff_get.1 h.found |>.2 i hi hi'

variable [LawfulBEq α] [LawfulHashable α] [LawfulBEq β] [LawfulHashable β]

theorem contains_index (h : Lockstep R e e') (hx : R x x') :
    e.index.contains x = e'.index.contains x' := by
  rw [← Std.HashMap.isSome_getElem?_eq_contains, ← Std.HashMap.isSome_getElem?_eq_contains,
    h.index x x' hx]

/-- **Discovering related nodes keeps the lockstep**: both are known, or both are new. -/
theorem discover (hR : Relator.BiUnique R) (h : Lockstep R e e') (hx : R x x')
    (ho : (e.discover bound x).overflow = false) (ho' : (e'.discover bound' x').overflow = false) :
    Lockstep R (e.discover bound x) (e'.discover bound' x') := by
  have hknown := h.contains_index hx
  rcases discover_cases ho with ⟨hc, he⟩ | ⟨hc, he⟩
  · rw [he, discover_of_contains (by rw [← hknown, hc])]
    exact h
  rcases discover_cases ho' with ⟨hc', -⟩ | ⟨-, he'⟩
  · rw [hknown, hc'] at hc
    exact absurd hc (by decide)
  rw [he, he']
  refine ⟨?_, .cons hx h.pending, fun y y' hy => ?_⟩
  · rw [Array.toList_push, Array.toList_push]
    exact List.rel_append h.found (.cons hx .nil)
  · rw [Std.HashMap.getElem?_insert, Std.HashMap.getElem?_insert, h.size_eq, h.index y y' hy]
    -- the relation is one to one, so `y` is the new node on one side if it is on the other
    have hxy : (x == y) = (x' == y') := by
      rw [Bool.eq_iff_iff, beq_iff_eq, beq_iff_eq]
      exact ⟨fun hxy => hR.2 hx (hxy ▸ hy), fun hxy => hR.1 hx (hxy ▸ hy)⟩
    rw [hxy]

theorem foldl_discover {l : List α} {l' : List β} (hR : Relator.BiUnique R)
    (hl : List.Forall₂ R l l') {e : Exploration α} {e' : Exploration β} (h : Lockstep R e e')
    (ho : (l.foldl (Exploration.discover bound) e).overflow = false)
    (ho' : (l'.foldl (Exploration.discover bound') e').overflow = false) :
    Lockstep R (l.foldl (Exploration.discover bound) e)
      (l'.foldl (Exploration.discover bound') e') := by
  induction hl generalizing e e' with
  | nil => exact h
  | cons hx _ ih =>
    have hstep := h.discover hR hx (overflow_of_foldl_discover ho) (overflow_of_foldl_discover ho')
    exact ih hstep ho ho'

/-- **Expanding related nodes keeps the lockstep.** -/
theorem expand (hR : Relator.BiUnique R)
    (hnext : ∀ x x', R x x' → List.Forall₂ R (next x) (next' x')) (h : Lockstep R e e')
    {rest : List α} {rest' : List β} (hx : R x x') (hrest : List.Forall₂ R rest rest')
    (ho : (e.expand next bound x rest).overflow = false)
    (ho' : (e'.expand next' bound' x' rest').overflow = false) :
    Lockstep R (e.expand next bound x rest) (e'.expand next' bound' x' rest') := by
  have hpopped : Lockstep R { e with pending := rest, expanded := e.expanded.push x }
      { e' with pending := rest', expanded := e'.expanded.push x' } := ⟨h.found, hrest, h.index⟩
  exact hpopped.foldl_discover hR (hnext x x' hx) ho ho'

/-- **The loops keep the lockstep**, as long as neither of them exceeds its bound. -/
theorem run (hR : Relator.BiUnique R)
    (hnext : ∀ x x', R x x' → List.Forall₂ R (next x) (next' x')) (h : Lockstep R e e')
    (ho : (e.run next bound).overflow = false) (ho' : (e'.run next' bound').overflow = false) :
    Lockstep R (e.run next bound) (e'.run next' bound') := by
  induction e using run_induction next bound generalizing e' with
  | stopped e hov =>
    rw [run_of_overflow hov, hov] at ho
    exact absurd ho (by decide)
  | done e hov hp =>
    have hp' : e'.pending = [] := by
      have := h.pending
      rw [hp] at this
      exact List.forall₂_nil_left_iff.1 this
    rwa [run_of_nil hp, run_of_nil hp']
  | step e x rest hov hp ih =>
    have hpending := h.pending
    rw [hp] at hpending
    obtain ⟨x', rest', hx, hrest, hp'⟩ := List.forall₂_cons_left_iff.1 hpending
    have hov' := overflow_of_run ho'
    rw [run_of_cons hov hp] at ho ⊢
    rw [run_of_cons hov' hp'] at ho' ⊢
    exact ih (h.expand hR hnext hx hrest (overflow_of_run ho) (overflow_of_run ho')) ho ho'

end Lockstep

/-- **Related graphs are explored in lockstep.** -/
theorem lockstep_explore [LawfulBEq α] [LawfulHashable α] [LawfulBEq β] [LawfulHashable β]
    {start : α} {start' : β} (hR : Relator.BiUnique R)
    (hnext : ∀ x x', R x x' → List.Forall₂ R (next x) (next' x')) (hstart : R start start')
    (ho : (explore next bound start).overflow = false)
    (ho' : (explore next' bound' start').overflow = false) :
    Lockstep R (explore next bound start) (explore next' bound' start') := by
  have hinit := Lockstep.init.discover hR hstart (overflow_of_run ho) (overflow_of_run ho')
  exact hinit.run hR hnext ho ho'

end Automata.Search
