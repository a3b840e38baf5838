import Automata.Expression
import Automata.Proofs.Expression.Language
import Automata.Proofs.Nfa.Reachable

/-!
# Automata without useless states

Every combination enters its operands at their starts and leaves them at their final states. So a
state that is of use in an operand is of use in the combination, as long as the other operands can
be passed through. Only what has no words cannot be passed through.

* `Productive.of_edge`, `Productive.of_path`: what leads to a productive state is productive.
* `Productive.concatPair_left` and the rest: productive states of a combination.
* `Trim.concatPair`, `Trim.unionPair`, `Trim.star` and the rest: **every combination of trim
  automata is trim.**
* `Expression.avoidsEmpty_concat`, `Expression.avoidsEmpty_union`: of any number of operands, all
  have to avoid the empty language, and a union needs one.
* `Expression.trim_nfa`: **expressions that avoid the empty language build trim automata.**
-/

namespace Automata

namespace Nfa

variable {g a b : Nfa} {s t u v : Nat} {l : Option Char} {w : List Char}

/-! ### Productive states -/

theorem productive_final : g.Productive g.final := ⟨[], .nil _⟩

/-- What leads to a productive state is productive. -/
theorem Productive.of_path (h : g.Productive t) (hp : g.Path s w t) : g.Productive s := by
  obtain ⟨v, hv⟩ := h
  exact ⟨w ++ v, hp.append hv⟩

theorem Productive.of_edge (h : g.Productive t) (he : g.Edge s l t) : g.Productive s :=
  h.of_path (Path.edge he)

theorem Productive.concatPair_right (ha : a.WellFormed) (hb : b.WellFormed)
    (h : b.Productive s) : (a.concatPair b).Productive (s + a.size) := by
  obtain ⟨w, hp⟩ := h
  exact ⟨w, hp.concatPair_right ha.final_lt hb.final_lt⟩

/-- The first operand of a concatenation is left for the second, which has to be passed, too. -/
theorem Productive.concatPair_left (ha : a.WellFormed) (hb : b.WellFormed)
    (h : a.Productive s) (hs : b.Productive b.start) : (a.concatPair b).Productive s := by
  have hjoin := edge_concatPair_join ha.final_lt hb.final_lt
  obtain ⟨w, hp⟩ := h
  exact ((hs.concatPair_right ha hb).of_edge hjoin).of_path
    (hp.concatPair_left ha.final_lt hb.final_lt)

theorem Productive.unionPair_left (ha : a.WellFormed) (hb : b.WellFormed)
    (h : a.Productive s) : (a.unionPair b).Productive s := by
  have hout := edge_unionPair_leave ha.final_lt hb.final_lt (Or.inl rfl)
  obtain ⟨w, hp⟩ := h
  exact (productive_final.of_edge hout).of_path (hp.unionPair_left ha.final_lt hb.final_lt)

theorem Productive.unionPair_right (ha : a.WellFormed) (hb : b.WellFormed)
    (h : b.Productive s) : (a.unionPair b).Productive (s + a.size) := by
  have hout := edge_unionPair_leave ha.final_lt hb.final_lt (Or.inr rfl)
  obtain ⟨w, hp⟩ := h
  exact (productive_final.of_edge hout).of_path (hp.unionPair_right ha.final_lt hb.final_lt)

theorem Productive.star (ha : a.WellFormed) (h : a.Productive s) : a.star.Productive s := by
  obtain ⟨w, hp⟩ := h
  exact (productive_final.of_edge (edge_star_leave ha.final_lt)).of_path (hp.star_left ha.final_lt)

/-! ### Trim automata -/

/-- A trim automaton has nothing but states that are of use. -/
theorem trim_iff : g.Trim ↔ ∀ s, s < g.size → g.Reachable s ∧ g.Productive s :=
  ⟨fun h s hs => ⟨h.reachable s hs, h.productive s hs⟩,
    fun h => ⟨fun s hs => (h s hs).1, fun s hs => (h s hs).2⟩⟩

/-- A place in two arenas, one behind the other, lies in the first or, moved up, in the second. -/
theorem lt_or_exists_add {m n : Nat} (h : s < m + n) : s < m ∨ ∃ j, j < n ∧ s = j + m := by
  by_cases hs : s < m
  · exact Or.inl hs
  · exact Or.inr ⟨s - m, by omega, by omega⟩

/-- An automaton of two states is trim if an edge joins them. -/
theorem trim_of_edge (hsize : g.size = 2) (hstart : g.start = 0) (hfinal : g.final = 1)
    (he : g.Edge 0 l 1) : g.Trim := by
  have hs : g.Reachable 0 := hstart ▸ reachable_start
  have hf : g.Productive 1 := hfinal ▸ productive_final
  rw [trim_iff]
  intro s hlt
  obtain rfl | rfl : s = 0 ∨ s = 1 := by omega
  · exact ⟨hs, hf.of_edge he⟩
  · exact ⟨hs.edge he, hf⟩

theorem trim_epsilon : epsilon.Trim :=
  trim_of_edge size_epsilon rfl rfl (edge_epsilon.2 ⟨rfl, rfl, rfl⟩)

/-- A choice of symbols is trim unless it is a choice out of nothing. -/
theorem trim_anyOf {symbols : List Char} (h : symbols ≠ []) : (anyOf symbols).Trim := by
  obtain ⟨c, hc⟩ := List.exists_mem_of_ne_nil _ h
  exact trim_of_edge (size_anyOf symbols) (start_anyOf symbols) (final_anyOf symbols)
    (edge_anyOf.2 ⟨c, hc, rfl, rfl, rfl⟩)

namespace Trim

theorem concatPair (ha : a.WellFormed) (hb : b.WellFormed) (hta : a.Trim) (htb : b.Trim) :
    (a.concatPair b).Trim := by
  rw [trim_iff]
  intro s hs
  rw [size_concatPair] at hs
  rcases lt_or_exists_add hs with hs | ⟨j, hj, rfl⟩
  · have hpass := htb.productive b.start hb.start_lt
    exact ⟨(hta.reachable s hs).concatPair_left ha hb,
      (hta.productive s hs).concatPair_left ha hb hpass⟩
  · have hpass := hta.reachable a.final ha.final_lt
    exact ⟨(htb.reachable j hj).concatPair_right ha hb hpass,
      (htb.productive j hj).concatPair_right ha hb⟩

theorem unionPair (ha : a.WellFormed) (hb : b.WellFormed) (hta : a.Trim) (htb : b.Trim) :
    (a.unionPair b).Trim := by
  have hin := edge_unionPair_enter ha.final_lt hb.final_lt (Or.inl rfl)
  have hout := edge_unionPair_leave ha.final_lt hb.final_lt (Or.inl rfl)
  have hstart := (hta.productive a.start ha.start_lt).unionPair_left ha hb
  have hfinal := (hta.reachable a.final ha.final_lt).unionPair_left ha hb
  rw [trim_iff]
  intro s hs
  rw [size_unionPair] at hs
  -- a state of an operand, the new start or the new final state
  rcases lt_or_exists_add hs with hs | ⟨j, hj, rfl⟩
  · rcases lt_or_exists_add hs with hs | ⟨j, hj, rfl⟩
    · exact ⟨(hta.reachable s hs).unionPair_left ha hb,
        (hta.productive s hs).unionPair_left ha hb⟩
    · exact ⟨(htb.reachable j hj).unionPair_right ha hb,
        (htb.productive j hj).unionPair_right ha hb⟩
  · obtain rfl | rfl : j = 0 ∨ j = 1 := by omega
    · rw [Nat.zero_add, ← start_unionPair]
      exact ⟨reachable_start, hstart.of_edge hin⟩
    · rw [Nat.add_comm, ← final_unionPair]
      exact ⟨hfinal.edge hout, productive_final⟩

theorem star (ha : a.WellFormed) (hta : a.Trim) : a.star.Trim := by
  have hstart := (hta.productive a.start ha.start_lt).star ha
  have hfinal := (hta.reachable a.final ha.final_lt).star ha
  rw [trim_iff]
  intro s hs
  rw [size_star] at hs
  rcases lt_or_exists_add hs with hs | ⟨j, hj, rfl⟩
  · exact ⟨(hta.reachable s hs).star ha, (hta.productive s hs).star ha⟩
  · obtain rfl | rfl : j = 0 ∨ j = 1 := by omega
    · rw [Nat.zero_add, ← start_star]
      exact ⟨reachable_start, hstart.of_edge (edge_star_enter ha.final_lt)⟩
    · rw [Nat.add_comm, ← final_star]
      exact ⟨hfinal.edge (edge_star_leave ha.final_lt), productive_final⟩

theorem plus (ha : a.WellFormed) (hta : a.Trim) : a.plus.Trim :=
  hta.concatPair ha (wellFormed_star ha) (hta.star ha)

theorem optional (ha : a.WellFormed) (hta : a.Trim) : a.optional.Trim :=
  hta.unionPair ha wellFormed_epsilon trim_epsilon

/-- A further edge takes no state out of use. -/
theorem addEpsilon (h : g.Trim) (hu : u < g.size) : (g.addEpsilon u v).Trim := by
  rw [trim_iff]
  intro s hs
  rw [size_addEpsilon] at hs
  obtain ⟨w, hw⟩ := h.reachable s hs
  obtain ⟨w', hw'⟩ := h.productive s hs
  exact ⟨⟨w, hw.addEpsilon hu⟩, ⟨w', hw'.addEpsilon hu⟩⟩

theorem compactPlus (ha : a.WellFormed) (hta : a.Trim) : a.compactPlus.Trim :=
  hta.addEpsilon ha.final_lt

theorem compactStar (ha : a.WellFormed) (hta : a.Trim) : a.compactStar.Trim := by
  unfold Nfa.compactStar
  split
  · refine (hta.addEpsilon ha.start_lt).addEpsilon ?_
    rw [size_addEpsilon]
    exact ha.final_lt
  · exact hta.star ha

theorem compactOptional (ha : a.WellFormed) (hta : a.Trim) : a.compactOptional.Trim := by
  unfold Nfa.compactOptional
  split
  · exact hta.addEpsilon ha.start_lt
  · exact hta.optional ha

/-- A union of any number of automata is trim, provided that there is one. -/
theorem foldl_unionPair {l : List Nfa} (ha : a.WellFormed) (hta : a.Trim)
    (hl : ∀ b ∈ l, b.WellFormed ∧ b.Trim) : (l.foldl Nfa.unionPair a).Trim := by
  induction l generalizing a with
  | nil => exact hta
  | cons b l ih =>
    obtain ⟨hb, htb⟩ := hl b List.mem_cons_self
    rw [List.foldl_cons]
    exact ih (wellFormed_unionPair ha hb) (hta.unionPair ha hb htb) fun c hc =>
      hl c (List.mem_cons_of_mem b hc)

theorem union_chars {symbols : List Char} (h : symbols ≠ []) :
    (Nfa.union (symbols.map char)).Trim := by
  have hchar : ∀ c, (char c).WellFormed ∧ (char c).Trim := fun c =>
    ⟨wellFormed_anyOf [c], trim_anyOf (List.cons_ne_nil c [])⟩
  cases symbols with
  | nil => exact absurd rfl h
  | cons c symbols =>
    rw [List.map_cons, Nfa.union]
    refine foldl_unionPair (hchar c).1 (hchar c).2 fun b hb => ?_
    obtain ⟨d, -, rfl⟩ := List.mem_map.1 hb
    exact hchar d

end Trim

theorem symbolsBetween_ne_nil {lo hi : Char} (h : lo ≤ hi) : symbolsBetween lo hi ≠ [] :=
  List.ne_nil_of_mem (mem_symbolsBetween.2 ⟨Char.le_refl lo, h⟩)

theorem digitSymbols_ne_nil {lo hi : Nat} (h : lo ≤ hi) : digitSymbols lo hi ≠ [] :=
  List.ne_nil_of_mem (mem_digitSymbols.2 ⟨lo, Nat.le_refl lo, h, rfl⟩)

end Nfa

namespace Expression

/-! ### Expressions that avoid the empty language -/

/-- If operands are put together pair by pair, all of them have to avoid the empty language. -/
theorem avoidsEmpty_foldl {op : Expression → Expression → Expression}
    (hop : ∀ a b, (op a b).AvoidsEmpty ↔ a.AvoidsEmpty ∧ b.AvoidsEmpty) {l : List Expression}
    {a : Expression} : (l.foldl op a).AvoidsEmpty ↔ a.AvoidsEmpty ∧ ∀ b ∈ l, b.AvoidsEmpty := by
  induction l generalizing a with
  | nil => simp
  | cons b l ih => rw [List.foldl_cons, ih, hop, List.forall_mem_cons, and_assoc]

/-- A concatenation avoids the empty language if its operands do. -/
theorem avoidsEmpty_concat {l : List Expression} :
    (concat l).AvoidsEmpty ↔ ∀ a ∈ l, a.AvoidsEmpty := by
  cases l with
  | nil => simp [concat, AvoidsEmpty]
  | cons a l => rw [concat, avoidsEmpty_foldl fun _ _ => Iff.rfl, List.forall_mem_cons]

/-- A union avoids the empty language if its operands do and there is one. -/
theorem avoidsEmpty_union {l : List Expression} :
    (union l).AvoidsEmpty ↔ l ≠ [] ∧ ∀ a ∈ l, a.AvoidsEmpty := by
  cases l with
  | nil => simp [union, AvoidsEmpty]
  | cons a l =>
    rw [union, avoidsEmpty_foldl fun _ _ => Iff.rfl, List.forall_mem_cons,
      and_iff_right (List.cons_ne_nil a l)]

/-- **Expressions that avoid the empty language build trim automata.** -/
theorem trim_nfa (e : Expression) (h : e.AvoidsEmpty) : e.nfa.Trim := by
  induction e with
  | char c => exact Nfa.trim_anyOf (List.cons_ne_nil c [])
  | epsilon => exact Nfa.trim_epsilon
  | emptyLanguage => exact h.elim
  | anyOf symbols => exact Nfa.trim_anyOf h
  | charRange lo hi => exact Nfa.trim_anyOf (Nfa.symbolsBetween_ne_nil h)
  | digitRange lo hi => exact Nfa.Trim.union_chars (Nfa.digitSymbols_ne_nil h)
  | compactDigitRange lo hi => exact Nfa.trim_anyOf (Nfa.digitSymbols_ne_nil h)
  | concatPair a b iha ihb => exact (iha h.1).concatPair a.wellFormed_nfa b.wellFormed_nfa (ihb h.2)
  | unionPair a b iha ihb => exact (iha h.1).unionPair a.wellFormed_nfa b.wellFormed_nfa (ihb h.2)
  | star a ih => exact (ih h).star a.wellFormed_nfa
  | plus a ih => exact (ih h).plus a.wellFormed_nfa
  | optional a ih => exact (ih h).optional a.wellFormed_nfa
  | compactStar a ih => exact (ih h).compactStar a.wellFormed_nfa
  | compactPlus a ih => exact (ih h).compactPlus a.wellFormed_nfa
  | compactOptional a ih => exact (ih h).compactOptional a.wellFormed_nfa

end Expression

end Automata
