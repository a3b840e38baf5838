import Automata.Expression
import Automata.Proofs.Session.Related

/-!
# What a program builds is the automaton of an expression

* `respected_constructible`: every combination of automata of expressions is such an automaton.
* `constructible_apply`: one step of a program leaves only automata of expressions on a stack that
  held only such.
* `constructible_applyAll`: **every fragment that a program builds is the automaton of an
  expression.** So what holds of the automata of all expressions holds of all fragments.
-/

namespace Automata

namespace Nfa

variable {g a b : Nfa}

/-- A one-operand construction of expressions builds a constructible automaton. -/
theorem Constructible.map {f : Nfa → Nfa} {k : Expression → Expression}
    (hf : ∀ e, (k e).nfa = f e.nfa) (h : g.Constructible) : (f g).Constructible := by
  obtain ⟨e, rfl⟩ := h
  exact ⟨k e, hf e⟩

theorem Constructible.map₂ {f : Nfa → Nfa → Nfa} {k : Expression → Expression → Expression}
    (hf : ∀ d e, (k d e).nfa = f d.nfa e.nfa) (ha : a.Constructible) (hb : b.Constructible) :
    (f a b).Constructible := by
  obtain ⟨d, rfl⟩ := ha
  obtain ⟨e, rfl⟩ := hb
  exact ⟨k d e, hf d e⟩

theorem constructible_digitRange {lo hi : Int} (h : digitRange lo hi = .ok g) :
    g.Constructible := by
  obtain ⟨m, n, -, -, -, -, hg⟩ := digitRange_eq_ok_iff.1 h
  exact ⟨.digitRange m n, hg⟩

theorem constructible_compactDigitRange {lo hi : Int} (h : compactDigitRange lo hi = .ok g) :
    g.Constructible := by
  obtain ⟨m, n, -, -, -, -, hg⟩ := compactDigitRange_eq_ok_iff.1 h
  exact ⟨.compactDigitRange m n, hg⟩

theorem constructible_parseDigitRange {lo hi : List Char} (h : parseDigitRange lo hi = .ok g) :
    g.Constructible := by
  unfold parseDigitRange at h
  cases hlo : Bound.parse lo with
  | error e => rw [hlo] at h; exact absurd h (by simp [bind, Except.bind])
  | ok m =>
    cases hhi : Bound.parse hi with
    | error e => rw [hlo, hhi] at h; exact absurd h (by simp [bind, Except.bind])
    | ok n =>
      rw [hlo, hhi] at h
      exact constructible_digitRange h

theorem Primitive.constructible (h : g.Primitive) : g.Constructible := by
  cases h with
  | char c => exact ⟨.char c, rfl⟩
  | epsilon => exact ⟨.epsilon, rfl⟩
  | emptyLanguage => exact ⟨.emptyLanguage, rfl⟩
  | digits => exact ⟨.digitRange 0 9, rfl⟩
  | anyOf symbols => exact ⟨.anyOf symbols, rfl⟩
  | @charRange lo hi g h => exact ⟨.charRange lo hi, (charRange_eq_ok_iff.1 h).2⟩
  | digitRange h => exact constructible_digitRange h
  | compactDigitRange h => exact constructible_compactDigitRange h
  | parseDigitRange h => exact constructible_parseDigitRange h

end Nfa

namespace Fragment

variable {a a' b b' : Fragment}

theorem constructible_map {f : Fragment → Fragment} {n : Nfa → Nfa} {k : Expression → Expression}
    (hf : (f a).nfa = n a.nfa) (hk : ∀ e, (k e).nfa = n e.nfa)
    (h : a = a' ∧ a.nfa.Constructible) : f a = f a' ∧ (f a).nfa.Constructible := by
  obtain ⟨rfl, ha⟩ := h
  rw [hf]
  exact ⟨rfl, Nfa.Constructible.map hk ha⟩

theorem constructible_map₂ {f : Fragment → Fragment → Fragment} {n : Nfa → Nfa → Nfa}
    {k : Expression → Expression → Expression} (hf : (f a b).nfa = n a.nfa b.nfa)
    (hk : ∀ d e, (k d e).nfa = n d.nfa e.nfa) (ha : a = a' ∧ a.nfa.Constructible)
    (hb : b = b' ∧ b.nfa.Constructible) : f a b = f a' b' ∧ (f a b).nfa.Constructible := by
  obtain ⟨rfl, ha⟩ := ha
  obtain ⟨rfl, hb⟩ := hb
  rw [hf]
  exact ⟨rfl, Nfa.Constructible.map₂ hk ha hb⟩

/-- Every combination of constructible automata is constructible. -/
theorem respected_constructible : Respected fun a b => a = b ∧ a.nfa.Constructible where
  primitive := fun hg => ⟨rfl, hg.constructible⟩
  concatPair := constructible_map₂ (k := .concatPair) nfa_concatPair fun _ _ => rfl
  unionPair := constructible_map₂ (k := .unionPair) nfa_unionPair fun _ _ => rfl
  star := constructible_map (k := .star) nfa_star fun _ => rfl
  compactStar := constructible_map (k := .compactStar) nfa_compactStar fun _ => rfl
  compactPlus := constructible_map (k := .compactPlus) nfa_compactPlus fun _ => rfl
  compactOptional := constructible_map (k := .compactOptional) nfa_compactOptional fun _ => rfl

end Fragment

namespace Construction

/-- Only automata of expressions are on the stack. -/
def AllConstructible (stack : List Fragment) : Prop := ∀ f ∈ stack, f.nfa.Constructible

/-- **One step keeps the automata on the stack constructible.** -/
theorem constructible_apply {step : Construction} {stack : List Fragment} {built : Built}
    (hs : AllConstructible stack) (h : apply stack step = .ok built) :
    AllConstructible built.stack := forall_apply Fragment.respected_constructible hs h

/-- **Every fragment that a program builds is the automaton of an expression.** -/
theorem constructible_applyAll {program : List Construction} {result : List Fragment}
    (h : applyAll program = .ok result) : AllConstructible result := by
  -- the program may start from any such stack
  have key : ∀ stack, AllConstructible stack →
      program.foldlM (fun stack step => (apply stack step).map (·.stack)) stack = .ok result →
      AllConstructible result := by
    clear h
    induction program with
    | nil =>
      intro stack hs h
      rw [← Except.ok.inj h]
      exact hs
    | cons step program ih =>
      intro stack hs h
      rw [List.foldlM_cons] at h
      cases hstep : apply stack step with
      | error r => rw [hstep] at h; exact absurd h (by simp [Except.map, bind, Except.bind])
      | ok built =>
        rw [hstep] at h
        exact ih built.stack (constructible_apply hs hstep) h
  exact key [] (fun f hf => absurd hf List.not_mem_nil) h

end Construction

end Automata
