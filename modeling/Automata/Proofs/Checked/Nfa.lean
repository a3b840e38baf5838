import Automata.Checked.Nfa
import Automata.Proofs.Checked.Search
import Automata.Proofs.Expression.Language
import Automata.Proofs.Nfa.Accept
import Automata.Proofs.Nfa.Search

/-!
# Automata stay inside their arenas

On well-formed automata every checked operation has a result, and it is that of the operation that
does not check.

* `concatPair?_eq`, `unionPair?_eq`, `star?_eq` and the rest: the combinations.
* `Expression.nfa?_eq`: **no expression makes a look-up outside an arena while it is built.**
* `InArena.closure?_eq`, `InArena.alphabet?_eq`, `InArena.accepts?_eq`: nor do the queries and the
  matcher, on any automaton whose ids are inside its arena.
-/

namespace Automata

/-- A fold whose steps have results as long as something is kept. -/
theorem foldlM_eq_some {β γ : Type} {P : β → Prop} {f? : β → γ → Option β} {f : β → γ → β}
    {l : List γ} {b : β} (hb : P b)
    (hf : ∀ b x, P b → x ∈ l → f? b x = some (f b x) ∧ P (f b x)) :
    l.foldlM f? b = some (l.foldl f b) := by
  induction l generalizing b with
  | nil => rfl
  | cons x l ih =>
    obtain ⟨hx, hp⟩ := hf b x hb List.mem_cons_self
    rw [List.foldlM_cons, hx, Option.bind_eq_bind, Option.bind_some, List.foldl_cons]
    exact ih hp fun b y hP hy => hf b y hP (List.mem_cons_of_mem x hy)

/-- A list all of whose members have results. -/
theorem mapM_eq_some {β γ : Type} {f? : β → Option γ} {f : β → γ} {l : List β}
    (hf : ∀ x ∈ l, f? x = some (f x)) : l.mapM f? = some (l.map f) := by
  induction l with
  | nil => rfl
  | cons x l ih =>
    rw [List.mapM_cons, hf x List.mem_cons_self, ih fun y hy => hf y (List.mem_cons_of_mem x hy)]
    rfl

namespace Nfa

variable {g a b : Nfa} {s t id : Nat} {c : Char} {accepting : Bool}

/-! ### Writes -/

theorem state?_of_lt (h : id < g.size) : g.state? id = some (g.state id) := by
  have hs : id < g.states.size := h
  rw [state_of_lt hs, state?, Array.getElem?_eq_getElem hs]

theorem setAccepting?_of_lt (h : id < g.size) :
    g.setAccepting? id accepting = some (g.setAccepting id accepting) := checked_of_lt h

theorem addEdge?_of_lt (h : s < g.size) : g.addEdge? s c t = some (g.addEdge s c t) :=
  checked_of_lt h

theorem addEpsilon?_of_lt (h : s < g.size) : g.addEpsilon? s t = some (g.addEpsilon s t) :=
  checked_of_lt h

/-! ### Primitives -/

theorem emptyLanguage?_eq : emptyLanguage? = some emptyLanguage := rfl

theorem char?_eq : char? c = some (char c) := rfl

theorem epsilon?_eq : epsilon? = some epsilon := rfl

theorem anyOf?_eq (symbols : List Char) : anyOf? symbols = some (anyOf symbols) := by
  unfold anyOf?
  rw [emptyLanguage?_eq, Option.bind_eq_bind, Option.bind_some]
  -- the arena keeps its two states
  refine foldlM_eq_some (P := fun g => g.size = 2) size_emptyLanguage fun g c hg _ => ?_
  exact ⟨addEdge?_of_lt (by omega), by rw [size_addEdge, hg]⟩

/-! ### Combinations -/

theorem concatPair?_eq (ha : a.final < a.size) (hb : b.final < b.size) :
    a.concatPair? b = some (a.concatPair b) := by
  have h₁ : a.final < (a.append b).size := by rw [size_append]; omega
  have h₂ : b.final + a.size < (a.append b).size := by rw [size_append]; omega
  unfold concatPair?
  simp only [setAccepting?_of_lt, addEpsilon?_of_lt, size_setAccepting, h₁, h₂,
    Option.bind_eq_bind, Option.bind_some]
  rfl

theorem unionPair?_eq (ha : a.final < a.size) (hb : b.final < b.size) :
    a.unionPair? b = some (a.unionPair b) := by
  have hsize : (a.append b).addState.addState.size = a.size + b.size + 2 := by
    rw [size_addState, size_addState, size_append]
  have h₁ : a.final < (a.append b).addState.addState.size := by omega
  have h₂ : b.final + a.size < (a.append b).addState.addState.size := by omega
  have h₃ : a.size + b.size < (a.append b).addState.addState.size := by omega
  have h₄ : a.size + b.size + 1 < (a.append b).addState.addState.size := by omega
  unfold unionPair?
  simp only [setAccepting?_of_lt, addEpsilon?_of_lt, size_setAccepting, size_addEpsilon, h₁, h₂, h₃,
    h₄, Option.bind_eq_bind, Option.bind_some]
  rfl

theorem star?_eq (ha : a.final < a.size) : a.star? = some a.star := by
  have hsize : a.addState.addState.size = a.size + 2 := by rw [size_addState, size_addState]
  have h₁ : a.final < a.addState.addState.size := by omega
  have h₂ : a.size < a.addState.addState.size := by omega
  have h₃ : a.size + 1 < a.addState.addState.size := by omega
  unfold star?
  simp only [setAccepting?_of_lt, addEpsilon?_of_lt, size_setAccepting, size_addEpsilon, h₁, h₂, h₃,
    Option.bind_eq_bind, Option.bind_some]
  rfl

theorem plus?_eq (wa : a.WellFormed) : a.plus? = some a.plus := by
  unfold plus?
  rw [star?_eq wa.final_lt, Option.bind_eq_bind, Option.bind_some,
    concatPair?_eq wa.final_lt (wellFormed_star wa).final_lt]
  rfl

theorem optional?_eq (wa : a.WellFormed) : a.optional? = some a.optional := by
  unfold optional?
  rw [epsilon?_eq, Option.bind_eq_bind, Option.bind_some,
    unionPair?_eq wa.final_lt wellFormed_epsilon.final_lt]
  rfl

theorem union?_eq {l : List Nfa} (hl : ∀ g ∈ l, g.WellFormed) : union? l = some (union l) := by
  cases l with
  | nil => exact emptyLanguage?_eq
  | cons a rest =>
    refine foldlM_eq_some (P := WellFormed) (hl a List.mem_cons_self) fun g b hg hb => ?_
    have wb := hl b (List.mem_cons_of_mem a hb)
    exact ⟨unionPair?_eq hg.final_lt wb.final_lt, wellFormed_unionPair hg wb⟩

theorem isolatedEnds?_eq (wa : a.WellFormed) :
    a.isolatedEnds? = some (decide a.IsolatedEnds) := by
  unfold isolatedEnds?
  rw [if_neg wa.start_ne_final, state?_of_lt wa.final_lt, Option.bind_eq_bind, Option.bind_some]
  refine congrArg some ?_
  rw [Bool.eq_iff_iff, Bool.and_eq_true, decide_eq_true_iff, Array.all_eq_true']
  simp [IsolatedEnds, wa.start_ne_final]

theorem compactStar?_eq (wa : a.WellFormed) : a.compactStar? = some a.compactStar := by
  unfold compactStar? compactStar
  rw [isolatedEnds?_eq wa, Option.bind_eq_bind, Option.bind_some]
  by_cases hi : a.IsolatedEnds
  · have hfinal : a.final < (a.addEpsilon a.start a.final).size := by
      rw [size_addEpsilon]; exact wa.final_lt
    simp only [hi, decide_true, if_true, addEpsilon?_of_lt wa.start_lt, Option.bind_eq_bind,
      Option.bind_some, addEpsilon?_of_lt hfinal]
  · simp only [hi, decide_false, Bool.false_eq_true, if_false, star?_eq wa.final_lt]

theorem compactPlus?_eq (wa : a.WellFormed) : a.compactPlus? = some a.compactPlus :=
  addEpsilon?_of_lt wa.final_lt

theorem compactOptional?_eq (wa : a.WellFormed) :
    a.compactOptional? = some a.compactOptional := by
  unfold compactOptional? compactOptional
  rw [isolatedEnds?_eq wa, Option.bind_eq_bind, Option.bind_some]
  by_cases hi : a.IsolatedEnds
  · simp only [hi, decide_true, if_true, addEpsilon?_of_lt wa.start_lt]
  · simp only [hi, decide_false, Bool.false_eq_true, if_false, optional?_eq wa]

/-! ### Queries -/

theorem InArena.closure?_eq (hg : g.InArena) (hs : s < g.size) :
    g.closure? s = some (g.closure s) := by
  have hnext : ∀ i, Search.Reaches (fun i => (g.state i).epsilon) s i →
      decide (i < g.size) = true ∧
        (g.state? i).map (·.epsilon) = some (g.state i).epsilon := by
    intro i hi
    have hlt := hg.enclosed.lt_of_reaches (fun i j hj => ⟨none, hj⟩) hs hi
    exact ⟨decide_eq_true hlt, by rw [state?_of_lt hlt, Option.map_some]⟩
  unfold closure?
  rw [Search.explore?_eq (hg.enclosed.atMost_epsilon hs) hnext, Option.bind_eq_bind,
    Option.bind_some]
  rfl

theorem InArena.alphabet?_eq (hg : g.InArena) : g.alphabet? = some g.alphabet := by
  have hedge : ∀ i j, j ∈ (g.state i).successors.reverse → ∃ l, g.Edge i l j := fun i j hj =>
    mem_successors_state.1 (List.mem_reverse.1 hj)
  have hvisit : ∀ i, Search.Reaches (fun i => (g.state i).successors.reverse) g.start i →
      decide (i < g.size) = true ∧ ((g.state? i).map fun s => (false, s.successors.reverse)) =
        some (false, (g.state i).successors.reverse) := by
    intro i hi
    have hlt := hg.enclosed.lt_of_reaches hedge hg.start_lt hi
    exact ⟨decide_eq_true hlt, by rw [state?_of_lt hlt, Option.map_some]⟩
  have hstates : g.reachable.mapM g.state? = some (g.reachable.map g.state) :=
    mapM_eq_some fun i hi => state?_of_lt (hg.reachable_lt (hg.mem_reachable_iff.1 hi))
  unfold alphabet?
  rw [Search.preorder?_eq (fun _ => false) (hg.enclosed.atMost hedge hg.start_lt) hvisit,
    Option.bind_eq_bind, Option.bind_some]
  change (g.reachable.mapM g.state?).bind _ = _
  rw [hstates, Option.bind_some, List.flatMap_map]
  rfl

theorem InArena.accepts?_eq (hg : g.InArena) (w : List Char) :
    g.accepts? w = some (g.accepts w) := by
  have hvisit : ∀ m, Search.Reaches (g.moves w.toArray) { position := 0, state := g.start } m →
      true = true ∧ checked m.state g.size (g.isMatch w.toArray m, g.moves w.toArray m) =
        some (g.isMatch w.toArray m, g.moves w.toArray m) := by
    intro m hm
    obtain ⟨-, hp⟩ := path_of_reaches_moves hm
    exact ⟨rfl, checked_of_lt (hp.target_lt hg.enclosed hg.start_lt)⟩
  unfold accepts?
  rw [Search.preorder?_eq (g.isMatch w.toArray) (hg.enclosed.atMost_moves hg.start_lt) hvisit,
    Option.bind_eq_bind, Option.bind_some]
  rfl

end Nfa

namespace Expression

open Nfa

/-- **No expression makes a look-up outside an arena** while its automaton is built. -/
theorem nfa?_eq (e : Expression) : e.nfa? = some e.nfa := by
  induction e with
  | char c => exact char?_eq
  | epsilon => exact epsilon?_eq
  | emptyLanguage => exact emptyLanguage?_eq
  | anyOf symbols => exact anyOf?_eq symbols
  | charRange lo hi => exact anyOf?_eq _
  | digitRange lo hi =>
    have hdigits : (digitSymbols lo hi).mapM char? = some ((digitSymbols lo hi).map Nfa.char) :=
      mapM_eq_some fun _ _ => char?_eq
    rw [nfa?, hdigits, Option.bind_eq_bind, Option.bind_some]
    refine union?_eq fun g hg => ?_
    obtain ⟨c, -, rfl⟩ := List.mem_map.1 hg
    exact (Expression.char c).wellFormed_nfa
  | compactDigitRange lo hi => exact anyOf?_eq _
  | concatPair a b iha ihb =>
    rw [nfa?, iha, ihb]
    exact concatPair?_eq a.wellFormed_nfa.final_lt b.wellFormed_nfa.final_lt
  | unionPair a b iha ihb =>
    rw [nfa?, iha, ihb]
    exact unionPair?_eq a.wellFormed_nfa.final_lt b.wellFormed_nfa.final_lt
  | star a ih => rw [nfa?, ih]; exact star?_eq a.wellFormed_nfa.final_lt
  | plus a ih => rw [nfa?, ih]; exact plus?_eq a.wellFormed_nfa
  | optional a ih => rw [nfa?, ih]; exact optional?_eq a.wellFormed_nfa
  | compactStar a ih => rw [nfa?, ih]; exact compactStar?_eq a.wellFormed_nfa
  | compactPlus a ih => rw [nfa?, ih]; exact compactPlus?_eq a.wellFormed_nfa
  | compactOptional a ih => rw [nfa?, ih]; exact compactOptional?_eq a.wellFormed_nfa

end Expression

end Automata
