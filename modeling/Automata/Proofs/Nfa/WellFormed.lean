import Automata.Nfa.Path
import Automata.Proofs.Nfa.Edge

/-!
# Combinations are well-formed

* `Tidy`: states know their places and have proper edges. Every operation on an arena keeps this, so
  every combination does.
* `WellFormed.of_edges`: a tidy automaton is well-formed if its edges end in the arena and its ends
  are right. The edges of a combination are known from `Proofs.Nfa.Edge`.
* `wellFormed_concatPair`, `wellFormed_unionPair`, `wellFormed_star` and the rest: **every
  combination of well-formed automata is well-formed.**
-/

namespace Automata

namespace State

variable {s : State}

/-- No symbol has an entry without a target. -/
def Proper (s : State) : Prop :=
  ∀ (c : Char) (targets : List Nat), s.edges[c]? = some targets → targets ≠ []

theorem proper_bare (id : Nat) : (bare id).Proper := by
  intro c targets h
  simp [bare] at h

theorem Proper.addEdge (h : s.Proper) (c : Char) (t : Nat) : (s.addEdge c t).Proper := by
  intro d targets hd
  unfold State.addEdge at hd
  rw [Std.ExtTreeMap.getElem?_insert] at hd
  split at hd
  · rw [← Option.some.inj hd]
    exact List.cons_ne_nil _ _
  · exact h d targets hd

theorem Proper.shift (h : s.Proper) (offset : Nat) : (s.shift offset).Proper := by
  intro c targets hc
  unfold State.shift at hc
  rw [Std.ExtTreeMap.getElem?_map, Option.map_eq_some_iff] at hc
  obtain ⟨l, hl, rfl⟩ := hc
  rw [Ne, List.map_eq_nil_iff]
  exact h c l hl

/-- A proper state has an entry for the symbols that it has edges on. -/
theorem Proper.mem_edges_iff (h : s.Proper) {c : Char} : c ∈ s.edges ↔ ∃ t, t ∈ s.targets c := by
  refine ⟨fun hc => ?_, ?_⟩
  · obtain ⟨targets, htargets⟩ := Option.isSome_iff_exists.1
      (Std.ExtTreeMap.isSome_getElem?_iff_mem.2 hc)
    obtain ⟨t, ht⟩ := List.exists_mem_of_ne_nil _ (h c targets htargets)
    exact ⟨t, mem_targets.2 ⟨targets, htargets, ht⟩⟩
  · rintro ⟨t, ht⟩
    obtain ⟨targets, htargets, -⟩ := mem_targets.1 ht
    exact Std.ExtTreeMap.isSome_getElem?_iff_mem.1 (by rw [htargets]; rfl)

end State

namespace Nfa

variable {g a b : Nfa} {i s t u v : Nat} {l : Option Char} {c : Char} {accepting : Bool}

theorem state_mk {start final : Nat} : (Nfa.mk g.states start final).state i = g.state i := rfl

theorem mem_states_iff {x : State} : x ∈ g.states ↔ ∃ i, i < g.size ∧ g.state i = x := by
  rw [Array.mem_iff_getElem]
  refine ⟨?_, ?_⟩
  · rintro ⟨i, hi, rfl⟩
    exact ⟨i, hi, state_of_lt hi⟩
  · rintro ⟨i, hi, rfl⟩
    exact ⟨i, hi, (state_of_lt hi).symm⟩

/-! ### What every operation keeps -/

/-- States know their places, and no symbol has an entry without a target. -/
structure Tidy (g : Nfa) : Prop where
  id_eq : ∀ i, (g.state i).id = i
  proper : ∀ i, (g.state i).Proper

namespace Tidy

theorem mk_states {start final : Nat} (h : g.Tidy) : (Nfa.mk g.states start final).Tidy :=
  ⟨h.id_eq, h.proper⟩

/-- A change at one place that keeps its id and its edges proper keeps the automaton tidy. -/
theorem modify (h : g.Tidy) (f : State → State) (hu : u < g.size)
    (hid : ∀ s, (f s).id = s.id) (hf : ∀ s, s.Proper → (f s).Proper) :
    (Nfa.mk (g.states.modify u f) g.start g.final).Tidy := by
  refine ⟨?_, ?_⟩
  · intro i
    rw [state_modify f hu]
    split
    · rw [hid, h.id_eq]
    · exact h.id_eq i
  · intro i
    rw [state_modify f hu]
    split
    · exact hf _ (h.proper i)
    · exact h.proper i

theorem addEpsilon (h : g.Tidy) (hu : u < g.size) : (g.addEpsilon u v).Tidy :=
  h.modify (·.addEpsilon v) hu (fun _ => rfl) fun _ hs => hs

theorem addEdge (h : g.Tidy) (hu : u < g.size) : (g.addEdge u c v).Tidy :=
  h.modify (·.addEdge c v) hu (fun _ => rfl) fun _ hs => hs.addEdge c v

theorem setAccepting (h : g.Tidy) (hu : u < g.size) : (g.setAccepting u accepting).Tidy :=
  h.modify ({ · with accepting }) hu (fun _ => rfl) fun _ hs => hs

theorem addState (h : g.Tidy) : g.addState.Tidy := by
  refine ⟨?_, ?_⟩
  · intro i; rw [state_addState]; exact h.id_eq i
  · intro i; rw [state_addState]; exact h.proper i

theorem append (ha : a.Tidy) (hb : b.Tidy) : (a.append b).Tidy := by
  refine ⟨?_, ?_⟩
  · intro i
    rw [state_append]
    split
    · exact ha.id_eq i
    · have := hb.id_eq (i - a.size)
      simp only [State.shift]
      omega
  · intro i
    rw [state_append]
    split
    · exact ha.proper i
    · exact (hb.proper _).shift a.size

theorem foldl_addEdge (h : g.Tidy) (hu : u < g.size) (symbols : List Char) :
    (symbols.foldl (fun g c => g.addEdge u c v) g).Tidy := by
  induction symbols generalizing g with
  | nil => exact h
  | cons c symbols ih => exact ih (h.addEdge hu) (by rwa [size_addEdge])

theorem concatPair (ha : a.Tidy) (hb : b.Tidy) (hfa : a.final < a.size) (hfb : b.final < b.size) :
    (a.concatPair b).Tidy := by
  have h := ha.append hb
  unfold Nfa.concatPair
  refine mk_states (addEpsilon (setAccepting (setAccepting h ?_) ?_) ?_)
  all_goals
    simp only [size_setAccepting, size_append]
    omega

theorem unionPair (ha : a.Tidy) (hb : b.Tidy) (hfa : a.final < a.size) (hfb : b.final < b.size) :
    (a.unionPair b).Tidy := by
  have h := (ha.append hb).addState.addState
  unfold Nfa.unionPair
  refine mk_states (addEpsilon (addEpsilon (addEpsilon (addEpsilon
    (setAccepting (setAccepting (setAccepting h ?_) ?_) ?_) ?_) ?_) ?_) ?_)
  all_goals
    simp only [size_addEpsilon, size_setAccepting, size_addState, size_append]
    omega

theorem star (ha : a.Tidy) (hfa : a.final < a.size) : a.star.Tidy := by
  have h := ha.addState.addState
  unfold Nfa.star
  refine mk_states (addEpsilon (addEpsilon (addEpsilon (addEpsilon
    (setAccepting (setAccepting h ?_) ?_) ?_) ?_) ?_) ?_)
  all_goals
    simp only [size_addEpsilon, size_setAccepting, size_addState]
    omega

end Tidy

/-! ### Accepting states -/

theorem accepting_setAccepting (hu : u < g.size) :
    ((g.setAccepting u accepting).state i).accepting =
      if u = i then accepting else (g.state i).accepting := by
  rw [state_setAccepting hu]
  split <;> rfl

theorem accepting_addEpsilon (hu : u < g.size) :
    ((g.addEpsilon u v).state i).accepting = (g.state i).accepting := by
  rw [state_addEpsilon hu]
  split <;> rfl

theorem accepting_addEdge (hu : u < g.size) :
    ((g.addEdge u c v).state i).accepting = (g.state i).accepting := by
  rw [state_addEdge hu]
  split <;> rfl

theorem accepting_append : ((a.append b).state i).accepting =
    if i < a.size then (a.state i).accepting else (b.state (i - a.size)).accepting := by
  rw [state_append]
  split <;> rfl

theorem accepting_foldl_addEdge (symbols : List Char) (hu : u < g.size) :
    ((symbols.foldl (fun g c => g.addEdge u c v) g).state i).accepting =
      (g.state i).accepting := by
  induction symbols generalizing g with
  | nil => rfl
  | cons c symbols ih =>
    rw [List.foldl_cons, ih (by rwa [size_addEdge]), accepting_addEdge hu]

theorem acceptsAtFinal_concatPair (ha : a.AcceptsAtFinal) (hb : b.AcceptsAtFinal)
    (hfa : a.final < a.size) (hfb : b.final < b.size) : (a.concatPair b).AcceptsAtFinal := by
  intro i
  have hai := ha i
  have hbi := hb (i - a.size)
  unfold concatPair
  simp only [state_mk]
  rw [accepting_addEpsilon, accepting_setAccepting, accepting_setAccepting, accepting_append]
  · split_ifs <;> simp only [hai, hbi, true_iff, false_iff] <;> omega
  all_goals
    simp only [size_setAccepting, size_append]
    omega

theorem acceptsAtFinal_unionPair (ha : a.AcceptsAtFinal) (hb : b.AcceptsAtFinal)
    (hfa : a.final < a.size) (hfb : b.final < b.size) : (a.unionPair b).AcceptsAtFinal := by
  intro i
  have hai := ha i
  have hbi := hb (i - a.size)
  unfold unionPair
  simp only [state_mk]
  rw [accepting_addEpsilon, accepting_addEpsilon, accepting_addEpsilon, accepting_addEpsilon,
    accepting_setAccepting, accepting_setAccepting, accepting_setAccepting, state_addState,
    state_addState, accepting_append]
  · split_ifs <;> simp only [hai, hbi, true_iff, false_iff] <;> omega
  all_goals
    simp only [size_addEpsilon, size_setAccepting, size_addState, size_append]
    omega

theorem acceptsAtFinal_star (ha : a.AcceptsAtFinal) (hfa : a.final < a.size) :
    a.star.AcceptsAtFinal := by
  intro i
  have hai := ha i
  unfold star
  simp only [state_mk]
  rw [accepting_addEpsilon, accepting_addEpsilon, accepting_addEpsilon, accepting_addEpsilon,
    accepting_setAccepting, accepting_setAccepting, state_addState, state_addState]
  · split_ifs <;> simp only [hai, true_iff, false_iff] <;> omega
  all_goals
    simp only [size_addEpsilon, size_setAccepting, size_addState]
    omega

/-! ### Well-formed automata -/

theorem Enclosed.edge_lt (h : g.Enclosed) (he : g.Edge s l t) : t < g.size :=
  h (g.state s) (mem_states_iff.2 ⟨s, he.source_lt, rfl⟩) t (mem_successors_state.2 ⟨l, he⟩)

theorem InArena.edge_lt (h : g.InArena) (he : g.Edge s l t) : t < g.size := h.enclosed.edge_lt he

theorem WellFormed.tidy (h : g.WellFormed) : g.Tidy := by
  refine ⟨?_, ?_⟩
  · intro i
    by_cases hi : i < g.size
    · exact h.id_eq i hi
    · rw [state_of_size_le (Nat.not_lt.1 hi)]
      rfl
  · intro i
    by_cases hi : i < g.size
    · exact h.properEdges (g.state i) (mem_states_iff.2 ⟨i, hi, rfl⟩)
    · rw [state_of_size_le (Nat.not_lt.1 hi)]
      exact State.proper_bare i

/-- A tidy automaton is well-formed if its edges end in the arena and its ends are right. -/
theorem WellFormed.of_edges (ht : g.Tidy) (he : ∀ s l t, g.Edge s l t → t < g.size)
    (hs : g.start < g.size) (hf : g.final < g.size) (hne : g.start ≠ g.final)
    (ha : g.AcceptsAtFinal) : g.WellFormed where
  id_eq := fun i _ => ht.id_eq i
  target_lt := by
    intro x hx t htx
    obtain ⟨i, -, rfl⟩ := mem_states_iff.1 hx
    obtain ⟨l, hl⟩ := mem_successors_state.1 htx
    exact he i l t hl
  start_lt := hs
  final_lt := hf
  start_ne_final := hne
  properEdges := by
    intro x hx
    obtain ⟨i, -, rfl⟩ := mem_states_iff.1 hx
    exact ht.proper i
  acceptsAtFinal := ha

theorem tidy_emptyLanguage : emptyLanguage.Tidy := by
  refine ⟨?_, ?_⟩
  · intro i
    match i with
    | 0 => rfl
    | 1 => rfl
    | i + 2 => rw [state_of_size_le (by rw [size_emptyLanguage]; omega)]; rfl
  · intro i
    match i with
    | 0 => exact State.proper_bare 0
    | 1 => exact State.proper_bare 1
    | i + 2 =>
      rw [state_of_size_le (by rw [size_emptyLanguage]; omega)]
      exact State.proper_bare _

theorem acceptsAtFinal_emptyLanguage : emptyLanguage.AcceptsAtFinal := by
  intro i
  match i with
  | 0 => decide
  | 1 => decide
  | i + 2 =>
    rw [state_of_size_le (by rw [size_emptyLanguage]; omega)]
    simp [State.bare, emptyLanguage]

theorem start_anyOf (symbols : List Char) : (anyOf symbols).start = 0 := by
  have key : ∀ g : Nfa, (symbols.foldl (fun g c => g.addEdge 0 c 1) g).start = g.start := by
    induction symbols with
    | nil => intro g; rfl
    | cons c symbols ih => intro g; exact ih (g.addEdge 0 c 1)
  exact key emptyLanguage

theorem final_anyOf (symbols : List Char) : (anyOf symbols).final = 1 := by
  have key : ∀ g : Nfa, (symbols.foldl (fun g c => g.addEdge 0 c 1) g).final = g.final := by
    induction symbols with
    | nil => intro g; rfl
    | cons c symbols ih => intro g; exact ih (g.addEdge 0 c 1)
  exact key emptyLanguage

theorem wellFormed_anyOf (symbols : List Char) : (anyOf symbols).WellFormed := by
  have hs := start_anyOf symbols
  have hf := final_anyOf symbols
  have hn := size_anyOf symbols
  refine .of_edges (tidy_emptyLanguage.foldl_addEdge (by decide) symbols) ?_ ?_ ?_ ?_ ?_
  · intro s l t h
    obtain ⟨c, -, -, -, rfl⟩ := edge_anyOf.1 h
    rw [hn]; omega
  · omega
  · omega
  · omega
  · intro i
    rw [hf, anyOf, accepting_foldl_addEdge symbols (by decide)]
    exact acceptsAtFinal_emptyLanguage i

theorem wellFormed_epsilon : epsilon.WellFormed := by
  refine .of_edges (tidy_emptyLanguage.addEpsilon (by decide)) ?_ ?_ ?_ (by decide) ?_
  · intro s l t h
    obtain ⟨-, -, rfl⟩ := edge_epsilon.1 h
    rw [size_epsilon]; omega
  · rw [size_epsilon]; decide
  · rw [size_epsilon]; decide
  · intro i
    rw [epsilon, accepting_addEpsilon (by decide)]
    exact acceptsAtFinal_emptyLanguage i

theorem wellFormed_concatPair (ha : a.WellFormed) (hb : b.WellFormed) :
    (a.concatPair b).WellFormed := by
  have hfa := ha.final_lt
  have hfb := hb.final_lt
  have hsa := ha.start_lt
  have hsb := hb.start_lt
  refine .of_edges (ha.tidy.concatPair hb.tidy hfa hfb) ?_ ?_ ?_ ?_
    (acceptsAtFinal_concatPair ha.acceptsAtFinal hb.acceptsAtFinal hfa hfb)
  · intro s l t h
    rw [size_concatPair]
    rcases (edge_concatPair hfa hfb).1 h with he | ⟨i, j, -, rfl, he⟩ | ⟨-, -, rfl⟩
    · have := ha.edge_lt he; omega
    · have := hb.edge_lt he; omega
    · omega
  · rw [start_concatPair, size_concatPair]; omega
  · rw [final_concatPair, size_concatPair]; omega
  · rw [start_concatPair, final_concatPair]; omega

theorem wellFormed_unionPair (ha : a.WellFormed) (hb : b.WellFormed) :
    (a.unionPair b).WellFormed := by
  have hfa := ha.final_lt
  have hfb := hb.final_lt
  have hsa := ha.start_lt
  have hsb := hb.start_lt
  refine .of_edges (ha.tidy.unionPair hb.tidy hfa hfb) ?_ ?_ ?_ ?_
    (acceptsAtFinal_unionPair ha.acceptsAtFinal hb.acceptsAtFinal hfa hfb)
  · intro s l t h
    rw [size_unionPair]
    rcases (edge_unionPair hfa hfb).1 h with
      he | ⟨i, j, -, rfl, he⟩ | ⟨-, -, rfl | rfl⟩ | ⟨-, -, rfl⟩
    · have := ha.edge_lt he; omega
    · have := hb.edge_lt he; omega
    all_goals omega
  · rw [start_unionPair, size_unionPair]; omega
  · rw [final_unionPair, size_unionPair]; omega
  · rw [start_unionPair, final_unionPair]; omega

theorem wellFormed_star (ha : a.WellFormed) : a.star.WellFormed := by
  have hfa := ha.final_lt
  have hsa := ha.start_lt
  refine .of_edges (ha.tidy.star hfa) ?_ ?_ ?_ ?_ (acceptsAtFinal_star ha.acceptsAtFinal hfa)
  · intro s l t h
    rw [size_star]
    rcases (edge_star hfa).1 h with he | ⟨-, -, rfl⟩ | ⟨-, -, rfl⟩
    · have := ha.edge_lt he; omega
    all_goals omega
  · rw [start_star, size_star]; omega
  · rw [final_star, size_star]; omega
  · rw [start_star, final_star]; omega

/-- A further edge on the empty word inside the arena changes nothing about being well-formed. -/
theorem wellFormed_addEpsilon (h : g.WellFormed) (hu : u < g.size) (hv : v < g.size) :
    (g.addEpsilon u v).WellFormed := by
  have hn : (g.addEpsilon u v).size = g.size := size_addEpsilon
  refine .of_edges (h.tidy.addEpsilon hu) ?_ ?_ ?_ h.start_ne_final ?_
  · intro s l t he
    rw [hn]
    rcases (edge_addEpsilon hu).1 he with he | ⟨-, -, rfl⟩
    · exact h.edge_lt he
    · exact hv
  · rw [hn]; exact h.start_lt
  · rw [hn]; exact h.final_lt
  · intro i
    rw [accepting_addEpsilon hu]
    exact h.acceptsAtFinal i

theorem wellFormed_plus (ha : a.WellFormed) : a.plus.WellFormed :=
  wellFormed_concatPair ha (wellFormed_star ha)

theorem wellFormed_optional (ha : a.WellFormed) : a.optional.WellFormed :=
  wellFormed_unionPair ha wellFormed_epsilon

theorem wellFormed_compactPlus (ha : a.WellFormed) : a.compactPlus.WellFormed :=
  wellFormed_addEpsilon ha ha.final_lt ha.start_lt

theorem wellFormed_compactStar (ha : a.WellFormed) : a.compactStar.WellFormed := by
  unfold compactStar
  split
  · exact wellFormed_compactPlus (wellFormed_addEpsilon ha ha.start_lt ha.final_lt)
  · exact wellFormed_star ha

theorem wellFormed_compactOptional (ha : a.WellFormed) : a.compactOptional.WellFormed := by
  unfold compactOptional
  split
  · exact wellFormed_addEpsilon ha ha.start_lt ha.final_lt
  · exact wellFormed_optional ha

end Nfa

end Automata
