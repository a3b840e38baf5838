import Automata.Proofs.Nfa.Language

/-!
# Reachable states of a combination

Which states of a combination are reachable can be read off its operands. An operand is entered at
its start only, so the states of the combination that lie in it are those that it reaches by itself;
the second operand of a concatenation is entered through the final state of the first.

* `Reachable.mem_of_closed`: what is closed along edges and holds the start holds every reachable
  state. This is how "and no others" is proved.
* `reachable_concatPair_left_iff` and the rest: **the reachable states of each combination.**
* `reachable_addEpsilon_iff`: what a further edge makes reachable.
-/

namespace Automata.Nfa

variable {g a b : Nfa} {s t u v : Nat} {l : Option Char} {w : List Char}

/-! ### Reachable states -/

theorem reachable_start : g.Reachable g.start := ⟨[], .nil _⟩

/-- What a path leads to from a reachable state is reachable. -/
theorem Reachable.path (h : g.Reachable s) (hp : g.Path s w t) : g.Reachable t := by
  obtain ⟨v, hv⟩ := h
  exact ⟨v ++ w, hv.append hp⟩

theorem Reachable.edge (h : g.Reachable s) (he : g.Edge s l t) : g.Reachable t :=
  h.path (Path.edge he)

/-- **What is closed along edges** and holds the start holds every reachable state. -/
theorem Reachable.mem_of_closed {P : Nat → Prop} (hs : P g.start)
    (hc : ∀ s l t, g.Edge s l t → P s → P t) (h : g.Reachable t) : P t := by
  refine (reachable_iff.1 h).mem_of_closed hs fun i hi j hj => ?_
  obtain ⟨l, hl⟩ := mem_successors_state.1 hj
  exact hc i l j hl hi

/-! ### Concatenation -/

theorem Reachable.concatPair_left (ha : a.WellFormed) (hb : b.WellFormed) (h : a.Reachable s) :
    (a.concatPair b).Reachable s := by
  obtain ⟨w, hp⟩ := h
  exact ⟨w, hp.concatPair_left ha.final_lt hb.final_lt⟩

/-- The second operand is entered from the final state of the first. -/
theorem Reachable.concatPair_right (ha : a.WellFormed) (hb : b.WellFormed)
    (h : b.Reachable s) (hf : a.Reachable a.final) : (a.concatPair b).Reachable (s + a.size) := by
  have hjoin := edge_concatPair_join ha.final_lt hb.final_lt
  obtain ⟨w, hp⟩ := h
  exact ((hf.concatPair_left ha hb).edge hjoin).path
    (hp.concatPair_right ha.final_lt hb.final_lt)

/-- Nothing but this is reachable in a concatenation. -/
theorem Reachable.of_concatPair (ha : a.WellFormed) (hb : b.WellFormed)
    (h : (a.concatPair b).Reachable t) :
    (t < a.size → a.Reachable t) ∧
      ∀ j, t = j + a.size → a.Reachable a.final ∧ b.Reachable j := by
  have hstart := ha.start_lt
  refine h.mem_of_closed (P := fun t => (t < a.size → a.Reachable t) ∧
    ∀ j, t = j + a.size → a.Reachable a.final ∧ b.Reachable j) ?_ ?_
  · rw [start_concatPair]
    exact ⟨fun _ => reachable_start, fun j hj => absurd hj (by omega)⟩
  · rintro s l t hedge ⟨hleft, hright⟩
    -- an edge of either operand stays in it; the edge that joins them starts at the final state
    rcases (edge_concatPair ha.final_lt hb.final_lt).1 hedge with
      he | ⟨i, j, rfl, rfl, he⟩ | ⟨rfl, -, rfl⟩
    · have ht := ha.edge_lt he
      exact ⟨fun _ => (hleft he.source_lt).edge he, fun j hj => absurd hj (by omega)⟩
    · obtain ⟨hf, hi⟩ := hright i rfl
      refine ⟨fun ht => absurd ht (by omega), fun k hk => ⟨hf, ?_⟩⟩
      rw [← Nat.add_right_cancel hk]
      exact hi.edge he
    · refine ⟨fun ht => absurd ht (by omega), fun k hk => ⟨hleft ha.final_lt, ?_⟩⟩
      rw [← Nat.add_right_cancel hk]
      exact reachable_start

/-- **The first operand of a concatenation** reaches what it reaches by itself. -/
theorem reachable_concatPair_left_iff (ha : a.WellFormed) (hb : b.WellFormed) (hs : s < a.size) :
    (a.concatPair b).Reachable s ↔ a.Reachable s :=
  ⟨fun h => (h.of_concatPair ha hb).1 hs, fun h => h.concatPair_left ha hb⟩

/-- **The second operand of a concatenation** is reached if the first can be left. -/
theorem reachable_concatPair_right_iff (ha : a.WellFormed) (hb : b.WellFormed) :
    (a.concatPair b).Reachable (s + a.size) ↔ a.Reachable a.final ∧ b.Reachable s :=
  ⟨fun h => (h.of_concatPair ha hb).2 s rfl, fun h => h.2.concatPair_right ha hb h.1⟩

/-! ### Union -/

theorem Reachable.unionPair_left (ha : a.WellFormed) (hb : b.WellFormed) (h : a.Reachable s) :
    (a.unionPair b).Reachable s := by
  have hin := edge_unionPair_enter ha.final_lt hb.final_lt (Or.inl rfl)
  obtain ⟨w, hp⟩ := h
  exact (reachable_start.edge hin).path (hp.unionPair_left ha.final_lt hb.final_lt)

theorem Reachable.unionPair_right (ha : a.WellFormed) (hb : b.WellFormed) (h : b.Reachable s) :
    (a.unionPair b).Reachable (s + a.size) := by
  have hin := edge_unionPair_enter ha.final_lt hb.final_lt (Or.inr rfl)
  obtain ⟨w, hp⟩ := h
  exact (reachable_start.edge hin).path (hp.unionPair_right ha.final_lt hb.final_lt)

/-- Nothing but this is reachable in the operands of a union. -/
theorem Reachable.of_unionPair (ha : a.WellFormed) (hb : b.WellFormed)
    (h : (a.unionPair b).Reachable t) :
    (t < a.size → a.Reachable t) ∧ ∀ j, j < b.size → t = j + a.size → b.Reachable j := by
  have hsa := ha.start_lt
  have hsb := hb.start_lt
  refine h.mem_of_closed (P := fun t => (t < a.size → a.Reachable t) ∧
    ∀ j, j < b.size → t = j + a.size → b.Reachable j) ?_ ?_
  · rw [start_unionPair]
    exact ⟨fun ht => absurd ht (by omega), fun j hj ht => absurd ht (by omega)⟩
  · rintro s l t hedge ⟨hleft, hright⟩
    -- the edges between the operands and the new ends lead to a start or out of the operands
    rcases (edge_unionPair ha.final_lt hb.final_lt).1 hedge with
      he | ⟨i, j, rfl, rfl, he⟩ | ⟨-, -, rfl | rfl⟩ | ⟨-, -, rfl⟩
    · have ht := ha.edge_lt he
      exact ⟨fun _ => (hleft he.source_lt).edge he, fun j _ hj => absurd hj (by omega)⟩
    · refine ⟨fun ht => absurd ht (by omega), fun k _ hk => ?_⟩
      rw [← Nat.add_right_cancel hk]
      exact (hright i he.source_lt rfl).edge he
    · exact ⟨fun _ => reachable_start, fun j _ hj => absurd hj (by omega)⟩
    · refine ⟨fun ht => absurd ht (by omega), fun k _ hk => ?_⟩
      rw [← Nat.add_right_cancel hk]
      exact reachable_start
    · exact ⟨fun ht => absurd ht (by omega), fun j hj ht => absurd ht (by omega)⟩

/-- **The first operand of a union** reaches what it reaches by itself. -/
theorem reachable_unionPair_left_iff (ha : a.WellFormed) (hb : b.WellFormed) (hs : s < a.size) :
    (a.unionPair b).Reachable s ↔ a.Reachable s :=
  ⟨fun h => (h.of_unionPair ha hb).1 hs, fun h => h.unionPair_left ha hb⟩

/-- **The second operand of a union** reaches what it reaches by itself. -/
theorem reachable_unionPair_right_iff (ha : a.WellFormed) (hb : b.WellFormed) (hs : s < b.size) :
    (a.unionPair b).Reachable (s + a.size) ↔ b.Reachable s :=
  ⟨fun h => (h.of_unionPair ha hb).2 s hs rfl, fun h => h.unionPair_right ha hb⟩

/-! ### Repetition -/

theorem Reachable.star (ha : a.WellFormed) (h : a.Reachable s) : a.star.Reachable s := by
  obtain ⟨w, hp⟩ := h
  exact (reachable_start.edge (edge_star_enter ha.final_lt)).path (hp.star_left ha.final_lt)

/-- **The operand of a repetition** reaches what it reaches by itself, however often it is
repeated. -/
theorem reachable_star_iff (ha : a.WellFormed) (hs : s < a.size) :
    a.star.Reachable s ↔ a.Reachable s := by
  refine ⟨fun h => ?_, fun h => h.star ha⟩
  refine h.mem_of_closed (P := fun t => t < a.size → a.Reachable t) ?_ ?_ hs
  · rw [start_star]
    exact fun ht => absurd ht (Nat.lt_irrefl _)
  · intro s l t hedge hs ht
    rcases (edge_star ha.final_lt).1 hedge with he | ⟨-, -, rfl⟩ | ⟨-, -, rfl⟩
    · exact (hs he.source_lt).edge he
    · exact reachable_start
    · exact absurd ht (by omega)

/-! ### A further edge -/

/-- The paths of an automaton are not lost by a further edge on the empty word. -/
theorem Path.addEpsilon (hu : u < g.size) (hp : g.Path s w t) : (g.addEpsilon u v).Path s w t :=
  hp.mono fun _ _ _ he => (edge_addEpsilon hu).2 (Or.inl he)

/-- **What a further edge makes reachable** is what its target leads to, if its source is
reachable. -/
theorem reachable_addEpsilon_iff (hu : u < g.size) :
    (g.addEpsilon u v).Reachable t ↔
      g.Reachable t ∨ g.Reachable u ∧ ∃ w, g.Path v w t := by
  refine ⟨fun h => ?_, ?_⟩
  · refine h.mem_of_closed (P := fun t => g.Reachable t ∨ g.Reachable u ∧ ∃ w, g.Path v w t) ?_ ?_
    · exact Or.inl reachable_start
    · intro s l t hedge hs
      rcases (edge_addEpsilon hu).1 hedge with he | ⟨rfl, -, rfl⟩
      · rcases hs with hs | ⟨hu', w, hp⟩
        · exact Or.inl (hs.edge he)
        · exact Or.inr ⟨hu', _, hp.append (Path.edge he)⟩
      · -- behind an earlier passage along the new edge, its source is reachable without it, too
        have hsource : g.Reachable s := hs.elim id And.left
        exact Or.inr ⟨hsource, [], .nil _⟩
  · have hold : ∀ s, g.Reachable s → (g.addEpsilon u v).Reachable s := by
      rintro s ⟨w, hp⟩
      exact ⟨w, hp.addEpsilon hu⟩
    rintro (h | ⟨h, w, hp⟩)
    · exact hold t h
    · have hnew : (g.addEpsilon u v).Edge u none v :=
        (edge_addEpsilon hu).2 (Or.inr ⟨rfl, rfl, rfl⟩)
      exact ((hold u h).edge hnew).path (hp.addEpsilon hu)

end Automata.Nfa
