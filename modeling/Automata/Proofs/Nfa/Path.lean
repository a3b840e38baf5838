import Automata.Proofs.Nfa.WellFormed
import Automata.Proofs.Search.Reaches

/-!
# Paths in an arena

* `Path.edge_induction`: a path is nothing, or an edge in front of a path.
* `Path.map`: a map of states that keeps edges keeps paths.
* `NoReturn.path_or_beyond`: where nothing leads back into a part of an automaton, a path from a state
  of the part is a path of the part, or it has left for good.
* `Path.split`, `path_concat_iff`: a path along a word passes through a state after each part of it.
* `path_nil_iff`, `exists_path_iff`: paths along the empty word and along any word are what a search
  over the edges on the empty word and over all edges can reach.
* `Enclosed.atMost`: a search over edges reaches no more states than there are in the arena.
-/

namespace Automata.Nfa

open Search

variable {g h : Nfa} {s t u : Nat} {l : Option Char} {c : Char} {v w : List Char}
variable {f : Nat → Nat} {beyond : Nat → Prop}

theorem Path.edge (he : g.Edge s l t) : g.Path s l.toList t := by
  have hp := Path.cons he (Path.nil t)
  rwa [List.append_nil] at hp

/-- **Induction along the edges of a path**, on symbols and on the empty word alike. -/
theorem Path.edge_induction
    {motive : (s : Nat) → (w : List Char) → (t : Nat) → g.Path s w t → Prop}
    (nil : ∀ s, motive s [] s (.nil s))
    (cons : ∀ {s l t w u} (he : g.Edge s l t) (hp : g.Path t w u), motive t w u hp →
      motive s (l.toList ++ w) u (.cons he hp))
    {s : Nat} {w : List Char} {t : Nat} (hp : g.Path s w t) : motive s w t hp := by
  induction hp with
  | nil s => exact nil s
  | epsilon he hp ih => exact cons (l := none) he hp ih
  | symbol he hp ih => exact cons (l := some _) he hp ih

/-- A map of states that keeps edges keeps paths. -/
theorem Path.map {f : Nat → Nat} (hf : ∀ s l t, g.Edge s l t → h.Edge (f s) l (f t))
    (hp : g.Path s w t) : h.Path (f s) w (f t) := by
  induction hp using Path.edge_induction with
  | nil s => exact .nil _
  | cons he _ ih => exact .cons (hf _ _ _ he) ih

theorem Path.mono (hf : ∀ s l t, g.Edge s l t → h.Edge s l t) (hp : g.Path s w t) :
    h.Path s w t := hp.map (f := id) hf

theorem Path.target_lt (hg : g.Enclosed) (hp : g.Path s w t) (hs : s < g.size) : t < g.size := by
  induction hp using Path.edge_induction with
  | nil s => exact hs
  | cons he _ ih => exact ih (hg.edge_lt he)

/-! ### Parts of an automaton -/

/-- **No way back** into `g`, whose state `s` stands at `f s` in `h`. From there an edge of `h` is an
edge of `g` or leads beyond, where no state of `g` stands, and edges from beyond stay there. -/
structure NoReturn (g h : Nfa) (f : Nat → Nat) (beyond : Nat → Prop) : Prop where
  leave : ∀ s, s < g.size → ∀ l u, h.Edge (f s) l u → (∃ t, g.Edge s l t ∧ f t = u) ∨ beyond u
  stay : ∀ u, beyond u → ∀ l t, h.Edge u l t → beyond t
  apart : ∀ s, s < g.size → ¬ beyond (f s)

namespace NoReturn

theorem beyond_of_path (H : NoReturn g h f beyond) (hp : h.Path u w t) (hu : beyond u) :
    beyond t := by
  induction hp using Path.edge_induction with
  | nil u => exact hu
  | cons he _ ih => exact ih (H.stay _ hu _ _ he)

/-- **A path from a state of the part** is a path of the part, or it has left for good. -/
theorem path_or_beyond (H : NoReturn g h f beyond) (hg : g.Enclosed) (hs : s < g.size)
    (hp : h.Path (f s) w u) : (∃ t, g.Path s w t ∧ f t = u) ∨ beyond u := by
  -- the induction needs a variable in the place of `f s`
  generalize hx : f s = x at hp
  induction hp using Path.edge_induction generalizing s with
  | nil x => exact Or.inl ⟨s, .nil s, hx⟩
  | cons he hp ih =>
    subst hx
    rcases H.leave s hs _ _ he with ⟨t, hst, ht⟩ | hout
    · refine (ih (hg.edge_lt hst) ht).imp_left ?_
      rintro ⟨v, hv, rfl⟩
      exact ⟨v, hv.cons hst, rfl⟩
    · exact Or.inr (H.beyond_of_path hp hout)

/-- **A part that nothing leads back into gets no further paths**, when its states stand at different
places. -/
theorem samePaths (H : NoReturn g h f beyond) (hg : g.Enclosed) (hf : Function.Injective f)
    (hkeep : ∀ s w t, g.Path s w t → h.Path (f s) w (f t)) : g.SamePaths h f := by
  intro s hs t ht w
  refine ⟨fun hp => ?_, hkeep s w t⟩
  rcases H.path_or_beyond hg hs hp with ⟨t', hp', heq⟩ | hbeyond
  · rwa [hf heq] at hp'
  · exact absurd hbeyond (H.apart t ht)

end NoReturn

/-! ### Words and paths -/

/-- A path along two words passes through a state between them. -/
theorem Path.split (hp : g.Path s (v ++ w) u) : ∃ t, g.Path s v t ∧ g.Path t w u := by
  generalize hx : v ++ w = x at hp
  induction hp generalizing v with
  | nil s =>
    obtain ⟨rfl, rfl⟩ := List.append_eq_nil_iff.1 hx
    exact ⟨s, .nil s, .nil s⟩
  | epsilon he _ ih =>
    obtain ⟨t, h1, h2⟩ := ih hx
    exact ⟨t, .epsilon he h1, h2⟩
  | @symbol s t u c x he hp ih =>
    -- the words are parted in front of this edge or somewhere behind it
    cases v with
    | nil =>
      rw [List.nil_append] at hx
      subst hx
      exact ⟨s, .nil s, .symbol he hp⟩
    | cons d v =>
      rw [List.cons_append, List.cons.injEq] at hx
      obtain ⟨rfl, hx⟩ := hx
      obtain ⟨t, h1, h2⟩ := ih hx
      exact ⟨t, .symbol he h1, h2⟩

theorem Path.split_cons (hp : g.Path s (c :: w) u) :
    ∃ p q, g.Path s [] p ∧ q ∈ (g.state p).targets c ∧ g.Path q w u := by
  generalize hx : c :: w = x at hp
  induction hp with
  | nil s => exact absurd hx (List.cons_ne_nil c w)
  | epsilon he _ ih =>
    obtain ⟨p, q, h1, h2, h3⟩ := ih hx
    exact ⟨p, q, .epsilon he h1, h2, h3⟩
  | @symbol s t u d x he hp ih =>
    rw [List.cons.injEq] at hx
    obtain ⟨rfl, rfl⟩ := hx
    exact ⟨s, t, .nil s, he, hp⟩

/-- **The last symbol of a word** is read on an edge, before some edges on the empty word. -/
theorem path_concat_iff : g.Path s (w ++ [c]) u ↔
    ∃ p q, g.Path s w p ∧ q ∈ (g.state p).targets c ∧ g.Path q [] u := by
  refine ⟨?_, ?_⟩
  · intro hp
    obtain ⟨t, h1, h2⟩ := hp.split
    obtain ⟨p, q, h3, h4, h5⟩ := h2.split_cons
    have h6 := h1.append h3
    rw [List.append_nil] at h6
    exact ⟨p, q, h6, h4, h5⟩
  · rintro ⟨p, q, h1, h2, h3⟩
    exact h1.append (.symbol h2 h3)

/-! ### Paths and searches -/

theorem path_nil_iff : g.Path s [] t ↔ Reaches (fun i => (g.state i).epsilon) s t := by
  refine ⟨?_, ?_⟩
  · intro hp
    -- the induction needs a word in the place of the empty one
    generalize hw : ([] : List Char) = w at hp
    induction hp with
    | nil s => exact Relation.ReflTransGen.refl
    | epsilon he _ ih => exact Relation.ReflTransGen.head he (ih hw)
    | symbol => exact absurd hw.symm (List.cons_ne_nil _ _)
  · intro hr
    induction hr with
    | refl => exact .nil s
    | tail _ he ih => exact ih.append (Path.edge (edge_none.2 he))

theorem exists_path_iff :
    (∃ w, g.Path s w t) ↔ Reaches (fun i => (g.state i).successors) s t := by
  refine ⟨?_, ?_⟩
  · rintro ⟨w, hp⟩
    induction hp using Path.edge_induction with
    | nil s => exact Relation.ReflTransGen.refl
    | cons he _ ih => exact Relation.ReflTransGen.head (mem_successors_state.2 ⟨_, he⟩) ih
  · intro hr
    induction hr with
    | refl => exact ⟨[], .nil s⟩
    | tail _ he ih =>
      obtain ⟨w, hp⟩ := ih
      obtain ⟨l, hl⟩ := mem_successors_state.1 he
      exact ⟨w ++ l.toList, hp.append (Path.edge hl)⟩

theorem reachable_iff : g.Reachable t ↔ Reaches (fun i => (g.state i).successors) g.start t :=
  exists_path_iff

/-- A search over edges from a place of the arena stays in the arena. -/
theorem Enclosed.lt_of_reaches (hg : g.Enclosed) {next : Nat → List Nat}
    (hn : ∀ i, ∀ j ∈ next i, ∃ l, g.Edge i l j) (hs : s < g.size) (h : Reaches next s t) :
    t < g.size :=
  h.mem_of_closed (P := (· < g.size)) hs fun i _ j hj => by
    obtain ⟨l, hl⟩ := hn i j hj
    exact hg.edge_lt hl

/-- **The arena bounds every search over edges.** -/
theorem Enclosed.atMost (hg : g.Enclosed) {next : Nat → List Nat}
    (hn : ∀ i, ∀ j ∈ next i, ∃ l, g.Edge i l j) (hs : s < g.size) : AtMost next s g.size :=
  AtMost.of_subset (l := List.range g.size) (Nat.le_of_eq List.length_range) fun _ ht =>
    List.mem_range.2 (hg.lt_of_reaches hn hs ht)

theorem Enclosed.atMost_epsilon (hg : g.Enclosed) (hs : s < g.size) :
    AtMost (fun i => (g.state i).epsilon) s g.size :=
  hg.atMost (fun _ _ hj => ⟨none, hj⟩) hs

theorem Enclosed.atMost_successors (hg : g.Enclosed) (hs : s < g.size) :
    AtMost (fun i => (g.state i).successors) s g.size :=
  hg.atMost (fun _ _ hj => mem_successors_state.1 hj) hs

end Automata.Nfa
