import Automata.Proofs.Search.Reaches
import Automata.Search.Basic

/-!
# What an exploration finds

* `Consistent`: what every single discovery keeps. Nodes are found once, can be reached, are looked
  up at their positions, and wait or are expanded; an overflow means that there are too many.
* `Invariant`: what every expansion keeps besides, as long as there is no overflow. The successors
  of expanded nodes are found.
* `run_induction`: **induction along the loop**, for all that is proved of it.
* `overflow_explore`: **there is no overflow if the bound is no restriction.**
* `mem_found_explore_iff`: **without overflow, everything that can be reached is found.**
* `perm_expanded_explore`: and everything found is expanded exactly once.
-/

namespace Automata.Search

variable {α : Type} [BEq α] [Hashable α]
variable {next : α → List α} {start : α} {bound : Nat} {e : Exploration α} {x : α}
variable {rest : List α}

namespace Exploration

/-- What every discovery keeps. -/
structure Consistent (next : α → List α) (start : α) (bound : Nat) (e : Exploration α) : Prop where
  nodup : e.found.toList.Nodup
  index : ∀ (x : α) (i : Nat), e.index[x]? = some i ↔ e.found[i]? = some x
  reaches : ∀ x ∈ e.found, Reaches next start x
  perm : e.found.toList.Perm (e.pending ++ e.expanded.toList)
  size_le : e.found.size ≤ bound
  overflow : e.overflow = true → ¬ AtMost next start bound

/-- What every expansion keeps. -/
structure Invariant (next : α → List α) (start : α) (bound : Nat) (e : Exploration α) : Prop extends
    Consistent next start bound e where
  first : e.overflow = false → e.found[0]? = some start
  closed : e.overflow = false → ∀ x ∈ e.expanded, ∀ y ∈ next x, y ∈ e.found

/-! ### One discovery -/

theorem discover_of_overflow (h : e.overflow = true) : e.discover bound x = e := by
  unfold discover
  rw [h, Bool.true_or, if_pos rfl]

theorem discover_of_contains (h : e.index.contains x = true) : e.discover bound x = e := by
  unfold discover
  rw [h, Bool.or_true, if_pos rfl]

theorem discover_of_lt (ho : e.overflow = false) (hx : e.index.contains x = false)
    (hlt : e.found.size < bound) :
    e.discover bound x =
      { e with
        found := e.found.push x
        index := e.index.insert x e.found.size
        pending := x :: e.pending } := by
  unfold discover
  rw [ho, hx, if_neg (by decide), if_pos hlt]

theorem discover_of_ge (ho : e.overflow = false) (hx : e.index.contains x = false)
    (hge : ¬ e.found.size < bound) : e.discover bound x = { e with overflow := true } := by
  unfold discover
  rw [ho, hx, if_neg (by decide), if_neg hge]

theorem expanded_discover : (e.discover bound x).expanded = e.expanded := by
  unfold discover
  split
  · rfl
  · split <;> rfl

/-- What is found stays at its place. -/
theorem getElem?_found_discover {y : α} {i : Nat} (h : e.found[i]? = some y) :
    (e.discover bound x).found[i]? = some y := by
  unfold discover
  split
  · exact h
  · split
    · exact getElem?_push_of_eq_some h
    · exact h

theorem overflow_of_discover (h : (e.discover bound x).overflow = false) : e.overflow = false := by
  by_contra ho
  rw [Bool.not_eq_false] at ho
  rw [discover_of_overflow ho, ho] at h
  exact absurd h (by decide)

theorem overflow_of_foldl_discover {l : List α} {e : Exploration α}
    (h : (l.foldl (discover bound) e).overflow = false) : e.overflow = false := by
  induction l generalizing e with
  | nil => exact h
  | cons x l ih => exact overflow_of_discover (ih h)

theorem overflow_of_expand {rest : List α} (h : (e.expand next bound x rest).overflow = false) :
    e.overflow = false := by
  have ho := overflow_of_foldl_discover h
  exact ho

theorem expanded_foldl_discover (l : List α) (e : Exploration α) :
    (l.foldl (discover bound) e).expanded = e.expanded := by
  induction l generalizing e with
  | nil => rfl
  | cons x l ih => rw [List.foldl_cons, ih, expanded_discover]

theorem getElem?_found_foldl_discover {l : List α} {e : Exploration α} {y : α} {i : Nat}
    (h : e.found[i]? = some y) : (l.foldl (discover bound) e).found[i]? = some y := by
  induction l generalizing e with
  | nil => exact h
  | cons x l ih => exact ih (getElem?_found_discover h)

theorem mem_found_foldl_discover {l : List α} {e : Exploration α} {y : α} (h : y ∈ e.found) :
    y ∈ (l.foldl (discover bound) e).found := by
  obtain ⟨i, hi⟩ := Array.mem_iff_getElem?.1 h
  exact Array.mem_of_getElem? (getElem?_found_foldl_discover hi)

/-- **A discovery within the bound** leaves a known node alone and puts a new one last among the
found nodes and first among the pending ones. -/
theorem discover_cases (ho : (e.discover bound x).overflow = false) :
    (e.index.contains x = true ∧ e.discover bound x = e) ∨
    (e.index.contains x = false ∧ e.discover bound x =
      { e with
        found := e.found.push x
        index := e.index.insert x e.found.size
        pending := x :: e.pending }) := by
  have ho' := overflow_of_discover ho
  by_cases hc : e.index.contains x = true
  · exact Or.inl ⟨hc, discover_of_contains hc⟩
  rw [Bool.not_eq_true] at hc
  by_cases hlt : e.found.size < bound
  · exact Or.inr ⟨hc, discover_of_lt ho' hc hlt⟩
  · rw [discover_of_ge ho' hc hlt] at ho
    exact absurd ho.symm Bool.false_ne_true

/-! ### The three ways the loop goes on -/

theorem run_of_overflow (ho : e.overflow = true) : e.run next bound = e := by
  rw [run, if_pos ho]

theorem run_of_nil (hp : e.pending = []) : e.run next bound = e := by
  rw [run]
  split
  · rfl
  · split
    · rfl
    · next hp' => rw [hp] at hp'; exact absurd hp' (by simp)

theorem run_of_cons (ho : e.overflow = false) (hp : e.pending = x :: rest) :
    e.run next bound = (e.expand next bound x rest).run next bound := by
  rw [run, if_neg (by rw [ho]; exact Bool.false_ne_true)]
  split
  · next hp' => rw [hp] at hp'; exact absurd hp' (by simp)
  · next hp' =>
    rw [hp] at hp'
    cases hp'
    rfl

/-- **Induction along the loop**: it has stopped with an overflow, it is done, or it goes on after an
expansion. -/
@[elab_as_elim]
theorem run_induction {motive : Exploration α → Prop} (next : α → List α) (bound : Nat)
    (stopped : ∀ e, e.overflow = true → motive e)
    (done : ∀ e, e.overflow = false → e.pending = [] → motive e)
    (step : ∀ e x rest, e.overflow = false → e.pending = x :: rest →
      motive (e.expand next bound x rest) → motive e) (e : Exploration α) : motive e := by
  induction e using Exploration.run.induct next bound with
  | case1 e ho => exact stopped e ho
  | case2 e ho hp => exact done e (by simpa using ho) hp
  | case3 e ho x rest hp ih => exact step e x rest (by simpa using ho) hp ih

theorem overflow_of_run (ho : (e.run next bound).overflow = false) : e.overflow = false := by
  by_contra h
  rw [Bool.not_eq_false] at h
  rw [run_of_overflow h, h] at ho
  exact absurd ho (by decide)

namespace Consistent

theorem init : Consistent next start bound ({} : Exploration α) where
  nodup := List.nodup_nil
  index := by simp
  reaches := by simp
  perm := List.Perm.refl _
  size_le := Nat.zero_le _
  overflow := fun h => absurd h Bool.false_ne_true

variable [LawfulBEq α] [LawfulHashable α]

/-- What is found is what the index knows. -/
theorem contains_index (h : Consistent next start bound e) :
    e.index.contains x = true ↔ x ∈ e.found := by
  rw [← Std.HashMap.isSome_getElem?_eq_contains, Option.isSome_iff_exists]
  refine ⟨?_, ?_⟩
  · rintro ⟨i, hi⟩
    exact Array.mem_of_getElem? ((h.index x i).1 hi)
  · intro hx
    obtain ⟨i, hi⟩ := Array.mem_iff_getElem?.1 hx
    exact ⟨i, (h.index x i).2 hi⟩

theorem not_mem_found (h : Consistent next start bound e) (hx : e.index.contains x = false) :
    x ∉ e.found := by
  intro hm
  rw [← h.contains_index, hx] at hm
  exact absurd hm (by decide)

/-- A new node gets the next position. -/
theorem index_push (h : Consistent next start bound e) (hx : x ∉ e.found) (y : α) (i : Nat) :
    (e.index.insert x e.found.size)[y]? = some i ↔ (e.found.push x)[i]? = some y := by
  rw [Std.HashMap.getElem?_insert, Array.getElem?_push]
  by_cases hxy : x = y
  · subst hxy
    rw [if_pos (beq_self_eq_true x)]
    by_cases hi : i = e.found.size
    · rw [if_pos hi, hi]
      exact ⟨fun _ => rfl, fun _ => rfl⟩
    · rw [if_neg hi]
      refine ⟨fun hs => absurd (Option.some.inj hs).symm hi, fun hs => ?_⟩
      exact absurd (Array.mem_of_getElem? hs) hx
  · rw [if_neg (by simpa using hxy), h.index y i]
    by_cases hi : i = e.found.size
    · rw [if_pos hi, hi, Array.getElem?_eq_none (Nat.le_refl _)]
      refine ⟨fun hs => absurd hs (by simp), fun hs => absurd (Option.some.inj hs) hxy⟩
    · rw [if_neg hi]

/-- **Every discovery keeps what is found consistent.** -/
theorem discover (h : Consistent next start bound e) (hx : Reaches next start x) :
    Consistent next start bound (e.discover bound x) := by
  by_cases ho : e.overflow = true
  · rw [discover_of_overflow ho]; exact h
  rw [Bool.not_eq_true] at ho
  by_cases hc : e.index.contains x = true
  · rw [discover_of_contains hc]; exact h
  rw [Bool.not_eq_true] at hc
  have hnew : x ∉ e.found := h.not_mem_found hc
  have hall : ∀ y ∈ e.found.push x, Reaches next start y := by
    intro y hy
    rcases Array.mem_push.1 hy with hy | rfl
    · exact h.reaches y hy
    · exact hx
  by_cases hlt : e.found.size < bound
  · rw [discover_of_lt ho hc hlt]
    refine ⟨nodup_push h.nodup hnew, h.index_push hnew, hall, ?_, ?_, ?_⟩
    · have hp : (e.found.toList ++ [x]).Perm (x :: e.found.toList) :=
        List.perm_append_singleton x e.found.toList
      rw [Array.toList_push]
      exact hp.trans (h.perm.cons x)
    · rw [Array.size_push]; exact hlt
    · intro hov
      rw [ho] at hov
      exact absurd hov (by decide)
  · rw [discover_of_ge ho hc hlt]
    refine ⟨h.nodup, h.index, h.reaches, h.perm, h.size_le, fun _ hb => ?_⟩
    -- the new node would be one more than the bound
    have := hb _ (nodup_push h.nodup hnew) fun y hy => hall y (Array.mem_toList_iff.1 hy)
    rw [Array.length_toList, Array.size_push] at this
    omega

/-- A node met is found, unless there are too many. -/
theorem mem_found_self (h : Consistent next start bound e)
    (ho : (e.discover bound x).overflow = false) : x ∈ (e.discover bound x).found := by
  have ho' := overflow_of_discover ho
  by_cases hc : e.index.contains x = true
  · rw [discover_of_contains hc]; exact h.contains_index.1 hc
  rw [Bool.not_eq_true] at hc
  by_cases hlt : e.found.size < bound
  · rw [discover_of_lt ho' hc hlt]; exact Array.mem_push.2 (Or.inr rfl)
  · rw [discover_of_ge ho' hc hlt] at ho
    exact absurd ho.symm Bool.false_ne_true

theorem foldl_discover {l : List α} {e : Exploration α} (h : Consistent next start bound e)
    (hl : ∀ x ∈ l, Reaches next start x) :
    Consistent next start bound (l.foldl (Exploration.discover bound) e) := by
  induction l generalizing e with
  | nil => exact h
  | cons x l ih =>
    have hx := hl x List.mem_cons_self
    exact ih (h.discover hx) fun y hy => hl y (List.mem_cons_of_mem _ hy)

theorem mem_found_of_foldl {l : List α} {e : Exploration α} (h : Consistent next start bound e)
    (hl : ∀ x ∈ l, Reaches next start x)
    (ho : (l.foldl (Exploration.discover bound) e).overflow = false) :
    ∀ x ∈ l, x ∈ (l.foldl (Exploration.discover bound) e).found := by
  induction l generalizing e with
  | nil => intro x hx; exact absurd hx List.not_mem_nil
  | cons y l ih =>
    have hy := hl y List.mem_cons_self
    intro x hx
    rcases List.mem_cons.1 hx with rfl | hx
    · have hx := h.mem_found_self (x := x) (overflow_of_foldl_discover ho)
      rw [List.foldl_cons]
      exact mem_found_foldl_discover hx
    · exact ih (h.discover hy) (fun z hz => hl z (List.mem_cons_of_mem _ hz)) ho x hx

end Consistent

/-! ### One expansion, and the loop -/

namespace Invariant

theorem mem_found_of_pending (h : Invariant next start bound e) (hp : e.pending = x :: rest) :
    x ∈ e.found := by
  refine Array.mem_toList_iff.1 (h.perm.mem_iff.2 ?_)
  rw [hp]
  exact List.mem_cons_self

/-- The top of the stack becomes the last of the expanded nodes. -/
theorem popped (h : Invariant next start bound e) (hp : e.pending = x :: rest) :
    Consistent next start bound { e with pending := rest, expanded := e.expanded.push x } := by
  refine ⟨h.nodup, h.index, h.reaches, ?_, h.size_le, h.overflow⟩
  have hperm := h.perm
  rw [hp] at hperm
  rw [Array.toList_push, ← List.append_assoc]
  exact hperm.trans (List.perm_append_singleton x (rest ++ e.expanded.toList)).symm

variable [LawfulBEq α] [LawfulHashable α]

theorem init : Invariant next start bound (discover bound ({} : Exploration α) start) := by
  have h : Consistent next start bound {} := Consistent.init
  have hs : Reaches next start start := Relation.ReflTransGen.refl
  refine ⟨h.discover hs, fun ho => ?_, fun _ x hx => ?_⟩
  · have hmem := h.mem_found_self ho
    -- without room even the start would be one node too many
    by_cases hlt : ({} : Exploration α).found.size < bound
    · rw [discover_of_lt rfl Std.HashMap.contains_empty hlt]
      rfl
    · rw [discover_of_ge rfl Std.HashMap.contains_empty hlt] at hmem
      exact absurd hmem (Array.not_mem_empty start)
  · rw [expanded_discover] at hx
    exact absurd hx (Array.not_mem_empty x)

/-- **Every expansion keeps the invariant.** -/
theorem expand (h : Invariant next start bound e) (hp : e.pending = x :: rest) :
    Invariant next start bound (e.expand next bound x rest) := by
  have hx : Reaches next start x := h.reaches x (h.mem_found_of_pending hp)
  have hnext : ∀ y ∈ next x, Reaches next start y := fun y hy => Relation.ReflTransGen.tail hx hy
  have hc := h.popped hp
  refine ⟨hc.foldl_discover hnext, fun ho => ?_, fun ho y hy z hz => ?_⟩
  · have ho' := overflow_of_expand ho
    exact getElem?_found_foldl_discover (h.first ho')
  · have ho' := overflow_of_expand ho
    have hy : y ∈ e.expanded.push x := by
      unfold Exploration.expand at hy
      rwa [expanded_foldl_discover] at hy
    rcases Array.mem_push.1 hy with hy | rfl
    · exact mem_found_foldl_discover (h.closed ho' y hy z hz)
    · exact hc.mem_found_of_foldl hnext ho z hz

/-- **The loop keeps the invariant**, and ends with an overflow or with nothing pending. -/
theorem run (h : Invariant next start bound e) :
    Invariant next start bound (e.run next bound) ∧
      ((e.run next bound).overflow = false → (e.run next bound).pending = []) := by
  induction e using run_induction next bound with
  | stopped e ho =>
    rw [run_of_overflow ho]
    refine ⟨h, fun hno => ?_⟩
    rw [ho] at hno
    exact absurd hno (by decide)
  | done e ho hp =>
    rw [run_of_nil hp]
    exact ⟨h, fun _ => hp⟩
  | step e x rest ho hp ih =>
    rw [run_of_cons ho hp]
    exact ih (h.expand hp)

end Invariant

end Exploration

open Exploration

variable [LawfulBEq α] [LawfulHashable α]

theorem invariant_explore : Invariant next start bound (explore next bound start) :=
  Invariant.init.run.1

theorem pending_explore (ho : (explore next bound start).overflow = false) :
    (explore next bound start).pending = [] := by
  have h : Invariant next start bound (discover bound {} start) := Invariant.init
  exact h.run.2 ho

/-- **There is no overflow if the bound is no restriction.** -/
theorem overflow_explore (hb : AtMost next start bound) :
    (explore next bound start).overflow = false := by
  by_contra ho
  exact invariant_explore.overflow (by simpa using ho) hb

/-- **Without overflow, everything found is expanded exactly once.** -/
theorem perm_expanded_explore (ho : (explore next bound start).overflow = false) :
    (explore next bound start).found.toList.Perm (explore next bound start).expanded.toList := by
  have h : Invariant next start bound (explore next bound start) := invariant_explore
  have hp := h.perm
  rw [pending_explore ho, List.nil_append] at hp
  exact hp

/-- What is found is looked up at its place. -/
theorem getElem?_index_explore {x : α} {i : Nat} :
    (explore next bound start).index[x]? = some i ↔
      (explore next bound start).found[i]? = some x := invariant_explore.index x i

/-- An exploration starts with its start. -/
theorem getElem?_zero_explore (ho : (explore next bound start).overflow = false) :
    (explore next bound start).found[0]? = some start := invariant_explore.first ho

/-- The successors of what is found are found. -/
theorem closed_explore (ho : (explore next bound start).overflow = false) {x y : α}
    (hx : x ∈ (explore next bound start).found) (hy : y ∈ next x) :
    y ∈ (explore next bound start).found := by
  refine invariant_explore.closed ho x ?_ y hy
  exact Array.mem_toList_iff.1 ((perm_expanded_explore ho).mem_iff.1 (Array.mem_toList_iff.2 hx))

/-- **Without overflow, an exploration finds what can be reached.** -/
theorem mem_found_explore_iff (ho : (explore next bound start).overflow = false) {x : α} :
    x ∈ (explore next bound start).found ↔ Reaches next start x := by
  refine ⟨invariant_explore.reaches x, fun hx => ?_⟩
  exact hx.mem_of_closed (P := (· ∈ (explore next bound start).found))
    (Array.mem_of_getElem? (getElem?_zero_explore ho)) fun y hy z hz => closed_explore ho hy hz

end Automata.Search
