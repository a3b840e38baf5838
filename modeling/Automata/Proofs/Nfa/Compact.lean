import Automata.Proofs.Nfa.Language

/-!
# The languages of compact combinations

* `language_compactPlus`: an edge from the final state back to the start repeats, always.
* `language_addEpsilon_isolated`: an edge from the start to the final state adds the empty word,
  if the ends are isolated.
* `language_compactStar`, `language_compactOptional`: **the compact combinations have the languages
  of the plain ones**, on whichever way they are built.
* `size_compactStar_le`, `size_compactOptional_le`: and no more states.
-/

namespace Automata.Nfa

open scoped Computability

variable {a : Nfa} {s t : Nat} {l : Option Char} {w : List Char}

/-- **An edge from the final state back to the start** repeats the language, whatever other edges
enter the start or leave the final state. -/
theorem language_compactPlus (ha : a.WellFormed) :
    a.compactPlus.language = a.language * a.language∗ := by
  have hedge : ∀ {s l t}, a.compactPlus.Edge s l t ↔
      a.Edge s l t ∨ s = a.final ∧ l = none ∧ t = a.start := edge_addEpsilon ha.final_lt
  have hback : a.compactPlus.Edge a.final none a.start := hedge.2 (Or.inr ⟨rfl, rfl, rfl⟩)
  ext w
  refine ⟨?_, ?_⟩
  · intro hp
    have hK : a.compactPlus.Closed fun s => a.residual s * a.language∗ := by
      intro s l t h w hw
      rcases hedge.1 h with he | ⟨rfl, rfl, rfl⟩
      · exact closed_residual.mul _ s l t he w hw
      · obtain ⟨u, hu, v, hv, rfl⟩ := Language.mem_mul.1 hw
        exact Language.append_mem_mul nil_mem_residual (append_mem_kstar hu hv)
    have hnil := Language.append_mem_mul (nil_mem_residual (g := a))
      (Language.nil_mem_kstar a.language)
    exact hK.mem (mem_language.1 hp) hnil
  · intro hw
    obtain ⟨u, hu, v, hv, rfl⟩ := Language.mem_mul.1 hw
    have hleft : ∀ x ∈ a.language, a.compactPlus.Path a.start x a.final := fun x hx =>
      Path.mono (fun _ _ _ he => hedge.2 (Or.inl he)) hx
    have hround : ∀ x ∈ a.language, a.compactPlus.Path a.compactPlus.final x a.compactPlus.final :=
      fun x hx => Path.cons hback (hleft x hx)
    exact (hleft u hu).append (Path.kstar_final hround hv)

theorem IsolatedEnds.not_edge_start (h : a.IsolatedEnds) : ¬ a.Edge s l a.start := fun he =>
  h.2.2 (a.state s) (mem_states_iff.2 ⟨s, he.source_lt, rfl⟩) (mem_successors_state.2 ⟨l, he⟩)

theorem IsolatedEnds.not_edge_final (h : a.IsolatedEnds) : ¬ a.Edge a.final l t := by
  intro he
  have hbare := h.2.1
  unfold State.isBare at hbare
  rw [Bool.and_eq_true, List.isEmpty_iff, Std.ExtTreeMap.isEmpty_iff] at hbare
  cases l with
  | none =>
    rw [edge_none, hbare.2] at he
    exact absurd he List.not_mem_nil
  | some c =>
    rw [edge_some, State.targets, hbare.1] at he
    simp at he

/-- Nothing is left to read in a final state that cannot be left. -/
theorem IsolatedEnds.residual_final (h : a.IsolatedEnds) (hw : w ∈ a.residual a.final) :
    w = [] := by
  cases hw with
  | nil => rfl
  | epsilon he _ => exact absurd (edge_none.2 he) h.not_edge_final
  | symbol he _ => exact absurd (edge_some.2 he) h.not_edge_final

/-- What is left to read where the start may be skipped. -/
def skipResidual (a : Nfa) (s : Nat) : Language Char :=
  if s = a.start then a.language + 1 else a.residual s

theorem skipResidual_start : skipResidual a a.start = a.language + 1 := if_pos rfl

theorem skipResidual_of_ne (hs : s ≠ a.start) : skipResidual a s = a.residual s := if_neg hs

theorem closed_skipResidual (ha : a.WellFormed) (hi : a.IsolatedEnds) :
    (a.addEpsilon a.start a.final).Closed (skipResidual a) := by
  intro s l t h w hw
  rcases (edge_addEpsilon ha.start_lt).1 h with he | ⟨rfl, rfl, rfl⟩
  · -- the start is not entered again, so the skip is the first edge or is not taken
    have ht : t ≠ a.start := fun ht => hi.not_edge_start (ht ▸ he)
    rw [skipResidual_of_ne ht] at hw
    have hl := closed_residual s l t he w hw
    by_cases hs : s = a.start
    · rw [hs] at hl ⊢
      rw [skipResidual_start]
      exact Or.inl hl
    · rw [skipResidual_of_ne hs]
      exact hl
  · rw [skipResidual_of_ne ha.start_ne_final.symm] at hw
    rw [skipResidual_start]
    exact Or.inr (hi.residual_final hw)

/-- **An edge from the start to the final state** adds the empty word, if nothing leads into the
start and nothing leaves the final state. -/
theorem language_addEpsilon_isolated (ha : a.WellFormed) (hi : a.IsolatedEnds) :
    (a.addEpsilon a.start a.final).language = a.language + 1 := by
  have hedge : ∀ {s l t}, (a.addEpsilon a.start a.final).Edge s l t ↔
      a.Edge s l t ∨ s = a.start ∧ l = none ∧ t = a.final := edge_addEpsilon ha.start_lt
  ext w
  rw [Language.mem_add, Language.mem_one]
  refine ⟨fun hp => ?_, ?_⟩
  · have hnil : [] ∈ skipResidual a a.final := by
      rw [skipResidual_of_ne ha.start_ne_final.symm]
      exact nil_mem_residual
    have hw : w ∈ skipResidual a a.start :=
      (closed_skipResidual ha hi).mem (mem_language.1 hp) hnil
    rw [skipResidual_start] at hw
    exact hw
  · rintro (hw | rfl)
    · exact Path.mono (fun _ _ _ he => hedge.2 (Or.inl he)) hw
    · exact Path.edge (hedge.2 (Or.inr ⟨rfl, rfl, rfl⟩))

/-- Repeating a language with the empty word repeats the language. -/
theorem add_one_mul_kstar (L : Language Char) : (L + 1) * (L + 1)∗ = L∗ := by
  have hle : L + 1 ≤ L∗ := add_le le_kstar one_le_kstar
  refine le_antisymm ?_ ?_
  · calc (L + 1) * (L + 1)∗ ≤ L∗ * L∗∗ := mul_le_mul' hle (kstar_mono hle)
      _ = L∗ := by rw [kstar_idem, kstar_mul_kstar]
  · calc L∗ = 1 * L∗ := (one_mul _).symm
      _ ≤ (L + 1) * (L + 1)∗ := mul_le_mul' le_add_self (kstar_mono le_self_add)

theorem language_compactStar (ha : a.WellFormed) : a.compactStar.language = a.language∗ := by
  unfold compactStar
  split
  · next hi =>
    -- the option first, then its repetition, for which the ends need not be isolated
    have hw := wellFormed_addEpsilon ha ha.start_lt ha.final_lt
    have h := language_compactPlus hw
    rw [language_addEpsilon_isolated ha hi, add_one_mul_kstar] at h
    exact h
  · exact language_star ha

theorem size_compactStar_le : a.compactStar.size ≤ a.size + 2 := by
  unfold compactStar
  split
  · rw [size_addEpsilon, size_addEpsilon]
    omega
  · exact Nat.le_of_eq size_star

theorem language_compactOptional (ha : a.WellFormed) :
    a.compactOptional.language = a.language + 1 := by
  unfold compactOptional
  split
  · next hi => exact language_addEpsilon_isolated ha hi
  · exact language_optional ha

theorem size_compactOptional_le : a.compactOptional.size ≤ a.size + 4 := by
  unfold compactOptional
  split
  · rw [size_addEpsilon]
    omega
  · exact Nat.le_of_eq size_optional

end Automata.Nfa
