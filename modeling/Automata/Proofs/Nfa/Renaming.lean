import Automata.Expression
import Automata.Nfa.Renaming
import Automata.Proofs.Expression.Language

/-!
# Combinations of renamed automata are renamings of each other

* `Embeds`: one direction of a renaming, with the map that undoes it. `Renaming.of_embeds` puts two
  directions together.
* `glue`, `extend`, `exchange`: how the states of operands, new states and exchanged operands are
  renamed; `Undoes`: a way to rename them, and the way back.
* `Embeds.concatPair`, `Embeds.unionPair`, `Embeds.star`, `Embeds.addEpsilon`: combinations keep
  embeddings. Each says what becomes of one edge of the combination.
* `embeds_exchange`, `embeds_anyOf`: the operands of a union change places, the symbols of a choice
  are listed anew.
* `Alike`: embedded into each other. **Every combination keeps automata alike**, since whether the
  ends are isolated does not depend on names (`Alike.isolatedEnds_iff`).
* `Expression.Reordered.alike`: **reordered expressions have automata that are alike.**
-/

namespace Automata

namespace Nfa

/-! ### Maps of states -/

/-- `h` for the first `n` states, and `k` for those behind them. -/
def glue (n : Nat) (h k : Nat → Nat) (i : Nat) : Nat := if i < n then h i else k (i - n) + n

/-- `h` for the first `n` states; new states behind them keep their places. -/
def extend (n : Nat) (h : Nat → Nat) (i : Nat) : Nat := if i < n then h i else i

/-- The first `m` states and the next `n` change places. -/
def exchange (m n : Nat) (i : Nat) : Nat := if i < m then i + n else i - m

variable {m n i : Nat} {h k : Nat → Nat}

theorem glue_left (hi : i < n) : glue n h k i = h i := if_pos hi

theorem glue_right : glue n h k (i + n) = k i + n := by
  rw [glue, if_neg (by omega), Nat.add_sub_cancel]

theorem extend_left (hi : i < n) : extend n h i = h i := if_pos hi

theorem extend_right (hi : n ≤ i) : extend n h i = i := if_neg (Nat.not_lt.2 hi)

theorem exchange_left (hi : i < m) : exchange m n i = i + n := if_pos hi

theorem exchange_right : exchange m n (i + m) = i := by
  rw [exchange, if_neg (by omega), Nat.add_sub_cancel]

/-- **Places exchanged among the first `n` states** by `h`; `k` undoes it. -/
structure Undoes (n : Nat) (h k : Nat → Nat) : Prop where
  lt : ∀ s, s < n → h s < n
  inverse : ∀ s, s < n → k (h s) = s

variable {h' k' : Nat → Nat}

/-- The states of two operands, each renamed in its own way. -/
theorem Undoes.glue (H : Undoes m h k) (H' : Undoes n h' k') :
    Undoes (m + n) (Nfa.glue m h h') (Nfa.glue m k k') where
  lt := by
    intro s hs
    by_cases hsm : s < m
    · have := H.lt s hsm
      rw [glue_left hsm]; omega
    · obtain ⟨i, rfl⟩ : ∃ i, s = i + m := ⟨s - m, by omega⟩
      have := H'.lt i (by omega)
      rw [glue_right]; omega
  inverse := by
    intro s hs
    by_cases hsm : s < m
    · rw [glue_left hsm, glue_left (H.lt s hsm), H.inverse s hsm]
    · obtain ⟨i, rfl⟩ : ∃ i, s = i + m := ⟨s - m, by omega⟩
      rw [glue_right, glue_right, H'.inverse i (by omega)]

/-- New states behind the renamed ones. -/
theorem Undoes.extend (H : Undoes n h k) (m : Nat) :
    Undoes (n + m) (Nfa.extend n h) (Nfa.extend n k) where
  lt := by
    intro s hs
    by_cases hsn : s < n
    · have := H.lt s hsn
      rw [extend_left hsn]; omega
    · rwa [extend_right (Nat.not_lt.1 hsn)]
  inverse := by
    intro s hs
    by_cases hsn : s < n
    · rw [extend_left hsn, extend_left (H.lt s hsn), H.inverse s hsn]
    · rw [extend_right (Nat.not_lt.1 hsn), extend_right (Nat.not_lt.1 hsn)]

theorem undoes_exchange (m n : Nat) : Undoes (m + n) (exchange m n) (exchange n m) where
  lt := by
    intro s hs
    unfold exchange
    split <;> omega
  inverse := by
    intro s hs
    by_cases hsm : s < m
    · rw [exchange_left hsm, exchange_right]
    · obtain ⟨i, rfl⟩ : ∃ i, s = i + m := ⟨s - m, by omega⟩
      rw [exchange_right, exchange_left (by omega)]

/-! ### Embeddings -/

variable {a a' b b' f g : Nfa} {s t u v : Nat} {l : Option Char}

/-- **An embedding** of `f` into an automaton of the same size; `k` undoes `h`. -/
structure Embeds (f g : Nfa) (h k : Nat → Nat) : Prop where
  size_eq : f.size = g.size
  lt : ∀ s, s < f.size → h s < g.size
  inverse : ∀ s, s < f.size → k (h s) = s
  start : h f.start = g.start
  final : h f.final = g.final
  edge : ∀ (s : Nat) (l : Option Char) (t : Nat), f.Edge s l t → g.Edge (h s) l (h t)

/-- **Two embeddings that undo each other** are a renaming. -/
theorem Renaming.of_embeds (hg : g.InArena) (hfg : Embeds f g h k) (hgf : Embeds g f k h) :
    Renaming f g h where
  bijOn := by
    refine ⟨hfg.lt, ?_, ?_⟩
    · intro s hs t ht hst
      rw [← hfg.inverse s hs, hst, hfg.inverse t ht]
    · intro t ht
      exact ⟨k t, hgf.lt t ht, hgf.inverse t ht⟩
  start := hfg.start
  final := hfg.final
  edge_iff := by
    intro s hs l t
    refine ⟨fun he => ⟨k t, ?_, hgf.inverse t (hg.edge_lt he)⟩, ?_⟩
    · have hback := hgf.edge _ _ _ he
      rwa [hfg.inverse s hs] at hback
    · rintro ⟨t', he, rfl⟩
      exact hfg.edge _ _ _ he

namespace Embeds

theorem undoes (H : Embeds f g h k) : Undoes f.size h k :=
  ⟨fun s hs => H.size_eq ▸ H.lt s hs, H.inverse⟩

theorem refl (f : Nfa) : Embeds f f id id :=
  ⟨rfl, fun _ hs => hs, fun _ _ => rfl, rfl, rfl, fun _ _ _ he => he⟩

theorem trans (hab : Embeds a b h k) (hbf : Embeds b f h' k') :
    Embeds a f (h' ∘ h) (k ∘ k') where
  size_eq := hab.size_eq.trans hbf.size_eq
  lt := fun s hs => hbf.lt _ (hab.lt s hs)
  inverse := by
    intro s hs
    simp only [Function.comp_apply]
    rw [hbf.inverse _ (hab.lt s hs), hab.inverse s hs]
  start := by rw [Function.comp_apply, hab.start, hbf.start]
  final := by rw [Function.comp_apply, hab.final, hbf.final]
  edge := fun _ _ _ he => hbf.edge _ _ _ (hab.edge _ _ _ he)

/-- A further edge on the empty word is embedded along with the others. -/
theorem addEpsilon (H : Embeds f g h k) (hu : u < f.size) :
    Embeds (f.addEpsilon u v) (g.addEpsilon (h u) (h v)) h k where
  size_eq := by rw [size_addEpsilon, size_addEpsilon, H.size_eq]
  lt := by rw [size_addEpsilon, size_addEpsilon]; exact H.lt
  inverse := by rw [size_addEpsilon]; exact H.inverse
  start := H.start
  final := H.final
  edge := by
    intro s l t he
    refine (edge_addEpsilon (H.lt u hu)).2 ?_
    rcases (edge_addEpsilon hu).1 he with he | ⟨rfl, rfl, rfl⟩
    · exact Or.inl (H.edge _ _ _ he)
    · exact Or.inr ⟨rfl, rfl, rfl⟩

theorem concatPair (ha : Embeds a a' h k) (hb : Embeds b b' h' k') (wa : a.WellFormed)
    (wb : b.WellFormed) (wa' : a'.WellFormed) (wb' : b'.WellFormed) :
    Embeds (a.concatPair b) (a'.concatPair b') (glue a.size h h') (glue a'.size k k') where
  size_eq := by rw [size_concatPair, size_concatPair, ha.size_eq, hb.size_eq]
  lt := by
    rw [size_concatPair, size_concatPair, ← ha.size_eq, ← hb.size_eq]
    exact (ha.undoes.glue hb.undoes).lt
  inverse := by
    rw [size_concatPair, ← ha.size_eq]
    exact (ha.undoes.glue hb.undoes).inverse
  start := by
    rw [start_concatPair, start_concatPair, glue_left wa.start_lt, ha.start]
  final := by
    rw [final_concatPair, final_concatPair, glue_right, hb.final, ha.size_eq]
  edge := by
    intro s l t hst
    refine (edge_concatPair wa'.final_lt wb'.final_lt).2 ?_
    rcases (edge_concatPair wa.final_lt wb.final_lt).1 hst with
      he | ⟨i, j, rfl, rfl, he⟩ | ⟨rfl, rfl, rfl⟩
    · rw [glue_left he.source_lt, glue_left (wa.edge_lt he)]
      exact Or.inl (ha.edge _ _ _ he)
    · rw [glue_right, glue_right, ha.size_eq]
      exact Or.inr (Or.inl ⟨h' i, h' j, rfl, rfl, hb.edge _ _ _ he⟩)
    · rw [glue_left wa.final_lt, glue_right, ha.final, hb.start, ha.size_eq]
      exact Or.inr (Or.inr ⟨rfl, rfl, rfl⟩)

/-- The states of both operands, each renamed in its own way, and the two new states behind them. -/
theorem unionPair (ha : Embeds a a' h k) (hb : Embeds b b' h' k') (wa : a.WellFormed)
    (wb : b.WellFormed) (wa' : a'.WellFormed) (wb' : b'.WellFormed) :
    Embeds (a.unionPair b) (a'.unionPair b') (extend (a.size + b.size) (glue a.size h h'))
      (extend (a'.size + b'.size) (glue a'.size k k')) where
  size_eq := by rw [size_unionPair, size_unionPair, ha.size_eq, hb.size_eq]
  lt := by
    rw [size_unionPair, size_unionPair, ← ha.size_eq, ← hb.size_eq]
    exact ((ha.undoes.glue hb.undoes).extend 2).lt
  inverse := by
    rw [size_unionPair, ← ha.size_eq, ← hb.size_eq]
    exact ((ha.undoes.glue hb.undoes).extend 2).inverse
  start := by
    rw [start_unionPair, start_unionPair, extend_right (Nat.le_refl _), ha.size_eq, hb.size_eq]
  final := by
    rw [final_unionPair, final_unionPair, extend_right (Nat.le_succ _), ha.size_eq, hb.size_eq]
  edge := by
    intro s l t hst
    have hsa := wa.start_lt
    have hsb := wb.start_lt
    have hfa := wa.final_lt
    have hfb := wb.final_lt
    refine (edge_unionPair wa'.final_lt wb'.final_lt).2 ?_
    rcases (edge_unionPair hfa hfb).1 hst with
      he | ⟨i, j, rfl, rfl, he⟩ | ⟨rfl, rfl, ht⟩ | ⟨hs, rfl, rfl⟩
    · have hs := he.source_lt
      have ht := wa.edge_lt he
      rw [extend_left (by omega), extend_left (by omega), glue_left hs, glue_left ht]
      exact Or.inl (ha.edge _ _ _ he)
    · have hi := he.source_lt
      have hj := wb.edge_lt he
      rw [extend_left (by omega), extend_left (by omega), glue_right, glue_right, ha.size_eq]
      exact Or.inr (Or.inl ⟨h' i, h' j, rfl, rfl, hb.edge _ _ _ he⟩)
    · -- an edge from the new start into an operand
      refine Or.inr (Or.inr (Or.inl ⟨?_, rfl, ?_⟩))
      · rw [extend_right (Nat.le_refl _), ha.size_eq, hb.size_eq]
      · rcases ht with rfl | rfl
        · rw [extend_left (by omega), glue_left hsa, ha.start]
          exact Or.inl rfl
        · rw [extend_left (by omega), glue_right, hb.start, ha.size_eq]
          exact Or.inr rfl
    · -- an edge from an operand to the new final state
      refine Or.inr (Or.inr (Or.inr ⟨?_, rfl, ?_⟩))
      · rcases hs with rfl | rfl
        · rw [extend_left (by omega), glue_left hfa, ha.final]
          exact Or.inl rfl
        · rw [extend_left (by omega), glue_right, hb.final, ha.size_eq]
          exact Or.inr rfl
      · rw [extend_right (Nat.le_succ _), ha.size_eq, hb.size_eq]

theorem star (ha : Embeds a a' h k) (wa : a.WellFormed) (wa' : a'.WellFormed) :
    Embeds a.star a'.star (extend a.size h) (extend a'.size k) where
  size_eq := by rw [size_star, size_star, ha.size_eq]
  lt := by
    rw [size_star, size_star, ← ha.size_eq]
    exact (ha.undoes.extend 2).lt
  inverse := by
    rw [size_star, ← ha.size_eq]
    exact (ha.undoes.extend 2).inverse
  start := by rw [start_star, start_star, extend_right (Nat.le_refl _), ha.size_eq]
  final := by rw [final_star, final_star, extend_right (Nat.le_succ _), ha.size_eq]
  edge := by
    intro s l t hst
    refine (edge_star wa'.final_lt).2 ?_
    rcases (edge_star wa.final_lt).1 hst with he | ⟨hs, rfl, rfl⟩ | ⟨hs, rfl, rfl⟩
    · rw [extend_left he.source_lt, extend_left (wa.edge_lt he)]
      exact Or.inl (ha.edge _ _ _ he)
    · -- an edge that begins a round
      refine Or.inr (Or.inl ⟨?_, rfl, ?_⟩)
      · rw [extend_right (by omega), ← ha.size_eq]
        exact hs
      · rw [extend_left wa.start_lt, ha.start]
    · -- an edge to the new final state
      refine Or.inr (Or.inr ⟨?_, rfl, ?_⟩)
      · rcases hs with rfl | rfl
        · rw [extend_right (Nat.le_refl _), ha.size_eq]
          exact Or.inl rfl
        · rw [extend_left wa.final_lt, ha.final]
          exact Or.inr rfl
      · rw [extend_right (Nat.le_succ _), ha.size_eq]

theorem compactPlus (ha : Embeds a a' h k) (wa : a.WellFormed) :
    Embeds a.compactPlus a'.compactPlus h k := by
  have he := ha.addEpsilon wa.final_lt (v := a.start)
  rwa [ha.start, ha.final] at he

end Embeds

/-! ### Isolated ends -/

/-- For a well-formed automaton, that its ends are isolated is a matter of edges. -/
theorem isolatedEnds_iff (wa : a.WellFormed) : a.IsolatedEnds ↔
    (∀ l t, ¬ a.Edge a.final l t) ∧ ∀ s l, ¬ a.Edge s l a.start := by
  refine ⟨fun hi => ⟨fun _ _ => hi.not_edge_final, fun _ _ => hi.not_edge_start⟩, ?_⟩
  rintro ⟨hfinal, hstart⟩
  refine ⟨wa.start_ne_final, ?_, ?_⟩
  · unfold State.isBare
    rw [Bool.and_eq_true, List.isEmpty_iff, Std.ExtTreeMap.isEmpty_iff]
    refine ⟨Std.ExtTreeMap.ext_getElem? fun c => ?_,
      List.eq_nil_iff_forall_not_mem.2 fun t ht => hfinal none t ht⟩
    have hc : c ∉ (a.state a.final).edges := by
      rw [(wa.tidy.proper a.final).mem_edges_iff]
      rintro ⟨t, ht⟩
      exact hfinal (some c) t ht
    rw [Std.ExtTreeMap.getElem?_empty, Std.ExtTreeMap.getElem?_eq_none hc]
  · intro s hs hmem
    obtain ⟨i, -, rfl⟩ := mem_states_iff.1 hs
    obtain ⟨l, hl⟩ := mem_successors_state.1 hmem
    exact hstart i l hl

/-- **Whether the ends are isolated** does not depend on the names of the states. -/
theorem Embeds.isolatedEnds (ha : Embeds a a' h k) (wa : a.WellFormed) (wa' : a'.WellFormed)
    (hi : a'.IsolatedEnds) : a.IsolatedEnds := by
  rw [isolatedEnds_iff wa'] at hi
  refine (isolatedEnds_iff wa).2 ⟨fun l t he => ?_, fun s l he => ?_⟩
  · have h' := ha.edge _ _ _ he
    rw [ha.final] at h'
    exact hi.1 _ _ h'
  · have h' := ha.edge _ _ _ he
    rw [ha.start] at h'
    exact hi.2 _ _ h'

/-! ### Exchanged operands and choices listed anew -/

/-- **The operands of a union change places**; the new states keep theirs. -/
theorem embeds_exchange (wa : a.WellFormed) (wb : b.WellFormed) :
    Embeds (a.unionPair b) (b.unionPair a) (extend (a.size + b.size) (exchange a.size b.size))
      (extend (b.size + a.size) (exchange b.size a.size)) where
  size_eq := by rw [size_unionPair, size_unionPair, Nat.add_comm a.size b.size]
  lt := by
    rw [size_unionPair, size_unionPair, Nat.add_comm b.size]
    exact ((undoes_exchange a.size b.size).extend 2).lt
  inverse := by
    rw [size_unionPair, Nat.add_comm b.size]
    exact ((undoes_exchange a.size b.size).extend 2).inverse
  start := by
    rw [start_unionPair, start_unionPair, extend_right (Nat.le_refl _), Nat.add_comm]
  final := by
    rw [final_unionPair, final_unionPair, extend_right (Nat.le_succ _), Nat.add_comm a.size]
  edge := by
    intro s l t hst
    have hsa := wa.start_lt
    have hsb := wb.start_lt
    have hfa := wa.final_lt
    have hfb := wb.final_lt
    refine (edge_unionPair hfb hfa).2 ?_
    rcases (edge_unionPair hfa hfb).1 hst with
      he | ⟨i, j, rfl, rfl, he⟩ | ⟨rfl, rfl, ht⟩ | ⟨hs, rfl, rfl⟩
    · -- the first operand is the second one now
      have hs := he.source_lt
      have ht := wa.edge_lt he
      rw [extend_left (by omega), extend_left (by omega), exchange_left hs, exchange_left ht]
      exact Or.inr (Or.inl ⟨s, t, rfl, rfl, he⟩)
    · have hi := he.source_lt
      have hj := wb.edge_lt he
      rw [extend_left (by omega), extend_left (by omega), exchange_right, exchange_right]
      exact Or.inl he
    · refine Or.inr (Or.inr (Or.inl ⟨?_, rfl, ?_⟩))
      · rw [extend_right (Nat.le_refl _), Nat.add_comm]
      · rcases ht with rfl | rfl
        · rw [extend_left (by omega), exchange_left hsa]
          exact Or.inr rfl
        · rw [extend_left (by omega), exchange_right]
          exact Or.inl rfl
    · refine Or.inr (Or.inr (Or.inr ⟨?_, rfl, ?_⟩))
      · rcases hs with rfl | rfl
        · rw [extend_left (by omega), exchange_left hfa]
          exact Or.inr rfl
        · rw [extend_left (by omega), exchange_right]
          exact Or.inl rfl
      · rw [extend_right (Nat.le_succ _), Nat.add_comm a.size]

/-- **The symbols of a choice** may be listed in any order and any number of times. -/
theorem embeds_anyOf {l l' : List Char} (hl : ∀ c ∈ l, c ∈ l') :
    Embeds (anyOf l) (anyOf l') id id where
  size_eq := by rw [size_anyOf, size_anyOf]
  lt := by rw [size_anyOf, size_anyOf]; exact fun _ hs => hs
  inverse := fun _ _ => rfl
  start := by rw [start_anyOf, start_anyOf]; rfl
  final := by rw [final_anyOf, final_anyOf]; rfl
  edge := by
    intro s e t he
    obtain ⟨c, hc, hs⟩ := edge_anyOf.1 he
    exact edge_anyOf.2 ⟨c, hl c hc, hs⟩

/-! ### Automata that are alike -/

/-- Two automata are alike when they are embedded into each other by maps that undo each other. -/
def Alike (f g : Nfa) : Prop := ∃ h k, Embeds f g h k ∧ Embeds g f k h

namespace Alike

theorem refl (f : Nfa) : Alike f f := ⟨id, id, .refl f, .refl f⟩

theorem trans (hab : Alike a b) (hbf : Alike b f) : Alike a f := by
  obtain ⟨h, k, h₁, h₂⟩ := hab
  obtain ⟨h', k', h₃, h₄⟩ := hbf
  exact ⟨h' ∘ h, k ∘ k', h₁.trans h₃, h₄.trans h₂⟩

theorem concatPair (ha : Alike a a') (hb : Alike b b') (wa : a.WellFormed) (wb : b.WellFormed)
    (wa' : a'.WellFormed) (wb' : b'.WellFormed) : Alike (a.concatPair b) (a'.concatPair b') := by
  obtain ⟨h, k, h₁, h₂⟩ := ha
  obtain ⟨h', k', h₃, h₄⟩ := hb
  exact ⟨_, _, h₁.concatPair h₃ wa wb wa' wb', h₂.concatPair h₄ wa' wb' wa wb⟩

theorem unionPair (ha : Alike a a') (hb : Alike b b') (wa : a.WellFormed) (wb : b.WellFormed)
    (wa' : a'.WellFormed) (wb' : b'.WellFormed) : Alike (a.unionPair b) (a'.unionPair b') := by
  obtain ⟨h, k, h₁, h₂⟩ := ha
  obtain ⟨h', k', h₃, h₄⟩ := hb
  exact ⟨_, _, h₁.unionPair h₃ wa wb wa' wb', h₂.unionPair h₄ wa' wb' wa wb⟩

theorem star (ha : Alike a a') (wa : a.WellFormed) (wa' : a'.WellFormed) :
    Alike a.star a'.star := by
  obtain ⟨h, k, h₁, h₂⟩ := ha
  exact ⟨_, _, h₁.star wa wa', h₂.star wa' wa⟩

theorem plus (ha : Alike a a') (wa : a.WellFormed) (wa' : a'.WellFormed) :
    Alike a.plus a'.plus :=
  ha.concatPair (ha.star wa wa') wa (wellFormed_star wa) wa' (wellFormed_star wa')

theorem optional (ha : Alike a a') (wa : a.WellFormed) (wa' : a'.WellFormed) :
    Alike a.optional a'.optional :=
  ha.unionPair (refl epsilon) wa wellFormed_epsilon wa' wellFormed_epsilon

theorem compactPlus (ha : Alike a a') (wa : a.WellFormed) (wa' : a'.WellFormed) :
    Alike a.compactPlus a'.compactPlus := by
  obtain ⟨h, k, h₁, h₂⟩ := ha
  exact ⟨h, k, h₁.compactPlus wa, h₂.compactPlus wa'⟩

/-- Of automata that are alike, both have isolated ends or neither has. -/
theorem isolatedEnds_iff (ha : Alike a a') (wa : a.WellFormed) (wa' : a'.WellFormed) :
    a.IsolatedEnds ↔ a'.IsolatedEnds := by
  obtain ⟨h, k, h₁, h₂⟩ := ha
  exact ⟨h₂.isolatedEnds wa' wa, h₁.isolatedEnds wa wa'⟩

/-- Alike automata get the edge that skips their words at the same time. -/
theorem addEpsilon_start_final (ha : Alike a a') (wa : a.WellFormed) (wa' : a'.WellFormed) :
    Alike (a.addEpsilon a.start a.final) (a'.addEpsilon a'.start a'.final) := by
  obtain ⟨h, k, h₁, h₂⟩ := ha
  have hskip := h₁.addEpsilon wa.start_lt (v := a.final)
  have hskip' := h₂.addEpsilon wa'.start_lt (v := a'.final)
  rw [h₁.start, h₁.final] at hskip
  rw [h₂.start, h₂.final] at hskip'
  exact ⟨h, k, hskip, hskip'⟩

theorem compactStar (ha : Alike a a') (wa : a.WellFormed) (wa' : a'.WellFormed) :
    Alike a.compactStar a'.compactStar := by
  have hi := ha.isolatedEnds_iff wa wa'
  unfold Nfa.compactStar
  by_cases h : a.IsolatedEnds
  · rw [if_pos h, if_pos (hi.1 h)]
    -- with the skip in place, the edge back is the one of `compactPlus`
    exact (ha.addEpsilon_start_final wa wa').compactPlus
      (wellFormed_addEpsilon wa wa.start_lt wa.final_lt)
      (wellFormed_addEpsilon wa' wa'.start_lt wa'.final_lt)
  · rw [if_neg h, if_neg fun h' => h (hi.2 h')]
    exact ha.star wa wa'

theorem compactOptional (ha : Alike a a') (wa : a.WellFormed) (wa' : a'.WellFormed) :
    Alike a.compactOptional a'.compactOptional := by
  have hi := ha.isolatedEnds_iff wa wa'
  unfold Nfa.compactOptional
  by_cases h : a.IsolatedEnds
  · rw [if_pos h, if_pos (hi.1 h)]
    exact ha.addEpsilon_start_final wa wa'
  · rw [if_neg h, if_neg fun h' => h (hi.2 h')]
    exact ha.optional wa wa'

end Alike

end Nfa

namespace Expression

/-- **Reordered expressions have automata that are alike.** -/
theorem Reordered.alike {d e : Expression} (h : Reordered d e) : d.nfa.Alike e.nfa := by
  induction h with
  | refl e => exact .refl e.nfa
  | trans _ _ ihd ihe => exact ihd.trans ihe
  | swap a b =>
    exact ⟨_, _, Nfa.embeds_exchange a.wellFormed_nfa b.wellFormed_nfa,
      Nfa.embeds_exchange b.wellFormed_nfa a.wellFormed_nfa⟩
  | anyOf hl =>
    exact ⟨id, id, Nfa.embeds_anyOf fun c hc => (hl c).1 hc,
      Nfa.embeds_anyOf fun c hc => (hl c).2 hc⟩
  | concatPair _ _ iha ihb =>
    exact iha.concatPair ihb (wellFormed_nfa _) (wellFormed_nfa _) (wellFormed_nfa _)
      (wellFormed_nfa _)
  | unionPair _ _ iha ihb =>
    exact iha.unionPair ihb (wellFormed_nfa _) (wellFormed_nfa _) (wellFormed_nfa _)
      (wellFormed_nfa _)
  | star _ ih => exact ih.star (wellFormed_nfa _) (wellFormed_nfa _)
  | plus _ ih => exact ih.plus (wellFormed_nfa _) (wellFormed_nfa _)
  | optional _ ih => exact ih.optional (wellFormed_nfa _) (wellFormed_nfa _)
  | compactStar _ ih => exact ih.compactStar (wellFormed_nfa _) (wellFormed_nfa _)
  | compactPlus _ ih => exact ih.compactPlus (wellFormed_nfa _) (wellFormed_nfa _)
  | compactOptional _ ih => exact ih.compactOptional (wellFormed_nfa _) (wellFormed_nfa _)

end Expression

end Automata
