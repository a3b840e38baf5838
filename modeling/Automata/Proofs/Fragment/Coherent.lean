import Automata.Proofs.Session.Related
import Automata.Session.Run

/-!
# What a fragment knows is true of it

* `Reply.IsFresh`: a reply is what a computation would answer, and its fragment knows nothing wrong.
* `Coherent.isFresh_closure`, `Coherent.isFresh_alphabet`, `Coherent.isFresh_table`,
  `Coherent.isFresh_dfa`: **the queries of a coherent fragment.**
* `coherent_concatPair`, `coherent_star` and the rest: **a combination is coherent whatever its
  operands know**, since it forgets all of it after the change.
* `Alike`, `respected_alike`: two coherent fragments of one automaton, and their combinations. A list
  of one fragment gives back that one and what it knows.
-/

namespace Automata

/-- **A fresh reply** of a fragment: the answer `x`, the same automaton, and nothing known that is
wrong. -/
structure Reply.IsFresh {α : Type} (r : Reply α) (f : Fragment) (x : α) : Prop where
  value : r.value = x
  nfa : r.fragment.nfa = f.nfa
  coherent : r.fragment.Coherent

namespace Fragment

variable {f a b : Fragment} {g : Nfa} {id : Nat}

/-- A new fragment knows nothing. -/
theorem coherent_of_nfa (g : Nfa) : Coherent { nfa := g } where
  alphabet := fun _ h => absurd h (by simp)
  table := fun _ h => absurd h (by simp)
  closure := fun id l h => by
    rw [Std.HashMap.getElem?_empty] at h
    exact absurd h (by simp)

/-- **Whatever was known before a change**, nothing is after it. -/
theorem coherent_invalidated (f : Fragment) : f.invalidated.Coherent := coherent_of_nfa f.nfa

/-! ### Queries -/

namespace Coherent

theorem closureOf_eq (h : f.Coherent) (id : Nat) : f.closureOf id = f.nfa.closure id := by
  unfold closureOf
  cases hl : f.memo.closures[id]? with
  | none => rfl
  | some l => exact h.closure id l hl

/-- **A closure is kept as it is answered.** -/
theorem isFresh_closure (h : f.Coherent) (id : Nat) : (f.closure id).IsFresh f (f.nfa.closure id) where
  value := h.closureOf_eq id
  nfa := rfl
  coherent := by
    refine ⟨h.alphabet, h.table, fun i l hl => ?_⟩
    have hl' : (f.memo.closures.insert id (f.closureOf id))[i]? = some l := hl
    rw [Std.HashMap.getElem?_insert] at hl'
    split at hl'
    · next hi =>
      obtain rfl := beq_iff_eq.1 hi
      exact (Option.some.inj hl').symm.trans (h.closureOf_eq id)
    · exact h.closure i l hl'

theorem withClosures (h : f.Coherent) (states : Array Nat) :
    (f.withClosures states).nfa = f.nfa ∧ (f.withClosures states).Coherent := by
  unfold Fragment.withClosures
  rw [← Array.foldl_toList]
  refine List.foldlRecOn (motive := fun (k : Fragment) => k.nfa = f.nfa ∧ k.Coherent) _ _
    ⟨rfl, h⟩ ?_
  rintro k ⟨hnfa, hk⟩ id -
  exact ⟨(hk.isFresh_closure id).nfa.trans hnfa, (hk.isFresh_closure id).coherent⟩

theorem isFresh_alphabet (h : f.Coherent) : f.alphabet.IsFresh f f.nfa.alphabet := by
  have hvalue : f.memo.alphabet.getD f.nfa.alphabet = f.nfa.alphabet := by
    cases ha : f.memo.alphabet with
    | none => rfl
    | some a => exact h.alphabet a ha
  refine ⟨hvalue, rfl, fun a ha => ?_, h.table, h.closure⟩
  exact (Option.some.inj ha).symm.trans hvalue

/-- **The table**, whether it is known or built from closures some of which are known. -/
theorem isFresh_table (h : f.Coherent) : f.table.IsFresh f (Table.ofNfa f.nfa) := by
  unfold Fragment.table
  cases ht : f.memo.table with
  | some t => exact ⟨h.table t ht, rfl, h⟩
  | none =>
    obtain ⟨hnfa, hk⟩ := h.withClosures f.nfa.visitingOrder
    have hclosures : (f.withClosures f.nfa.visitingOrder).closureOf =
        (f.withClosures f.nfa.visitingOrder).nfa.closure := funext hk.closureOf_eq
    have hvalue : Table.ofClosures (f.withClosures f.nfa.visitingOrder).nfa
        (f.withClosures f.nfa.visitingOrder).closureOf = Table.ofNfa f.nfa := by
      rw [hclosures, hnfa]
      rfl
    refine ⟨hvalue, hnfa, hk.alphabet, fun t ht => ?_, hk.closure⟩
    rw [hnfa]
    exact (Option.some.inj ht).symm.trans hvalue

/-- **The deterministic automaton**, and what is kept of the way to it even if it has too many
states. -/
theorem isFresh_dfa (h : f.Coherent) (limit : Option Nat) :
    (f.dfa limit).IsFresh f (Dfa.ofSubsets (.ofNfa f.nfa) f.nfa.alphabet limit
      ((Table.ofNfa f.nfa).subsets f.nfa.alphabet limit)) := by
  have htable := h.isFresh_table
  have halphabet := htable.coherent.isFresh_alphabet
  rw [htable.nfa] at halphabet
  refine ⟨?_, halphabet.nfa.trans htable.nfa, halphabet.coherent⟩
  unfold Fragment.dfa
  simp only [htable.value, halphabet.value]

end Coherent

/-! ### Combinations -/

theorem coherent_concatPair : (a.concatPair b).Coherent := coherent_invalidated _

theorem coherent_unionPair : (a.unionPair b).Coherent := coherent_invalidated _

theorem coherent_star : a.star.Coherent := coherent_invalidated _

/-- Both branches forget: the edges added in place, and the fallback to new states. -/
theorem coherent_compactStar : a.compactStar.Coherent := by
  unfold compactStar
  split
  · exact coherent_invalidated _
  · exact coherent_star

theorem coherent_compactPlus : a.compactPlus.Coherent := coherent_invalidated _

theorem coherent_compactOptional : a.compactOptional.Coherent := by
  unfold compactOptional
  split
  · exact coherent_invalidated _
  · exact coherent_unionPair

/-! ### Two fragments of one automaton -/

/-- **Two coherent fragments of the same automaton.** What they know of it may differ. -/
structure Alike (a b : Fragment) : Prop where
  left : a.Coherent
  right : b.Coherent
  nfa : a.nfa = b.nfa

theorem Alike.symm (h : a.Alike b) : b.Alike a := ⟨h.right, h.left, h.nfa.symm⟩

/-- What a query leaves behind is as good as what was there before. -/
theorem Alike.of_isFresh {α : Type} {r : Reply α} {x : α} (hr : r.IsFresh a x) (h : a.Alike b) :
    r.fragment.Alike b := ⟨hr.coherent, h.right, hr.nfa.trans h.nfa⟩

theorem coherent_of_forall₂ {l l' : List Fragment} (h : List.Forall₂ Alike l l') :
    ∀ f ∈ l, f.Coherent := by
  induction h with
  | nil => exact fun f hf => absurd hf List.not_mem_nil
  | cons hf _ ih => exact List.forall_mem_cons.2 ⟨hf.left, ih⟩

theorem map_nfa_of_forall₂ {l l' : List Fragment} (h : List.Forall₂ Alike l l') :
    l.map (·.nfa) = l'.map (·.nfa) := by
  induction h with
  | nil => rfl
  | cons hf _ ih => exact List.cons_eq_cons.2 ⟨hf.nfa, ih⟩

/-- **Combinations of such fragments are such fragments**: the automaton is that of the combination,
and nothing is known of it. -/
theorem respected_alike : Respected Alike where
  primitive := fun {g} _ => ⟨coherent_of_nfa g, coherent_of_nfa g, rfl⟩
  concatPair := fun ha hb => ⟨coherent_concatPair, coherent_concatPair, by
    rw [nfa_concatPair, nfa_concatPair, ha.nfa, hb.nfa]⟩
  unionPair := fun ha hb => ⟨coherent_unionPair, coherent_unionPair, by
    rw [nfa_unionPair, nfa_unionPair, ha.nfa, hb.nfa]⟩
  star := fun ha => ⟨coherent_star, coherent_star, by rw [nfa_star, nfa_star, ha.nfa]⟩
  compactStar := fun ha => ⟨coherent_compactStar, coherent_compactStar, by
    rw [nfa_compactStar, nfa_compactStar, ha.nfa]⟩
  compactPlus := fun ha => ⟨coherent_compactPlus, coherent_compactPlus, by
    rw [nfa_compactPlus, nfa_compactPlus, ha.nfa]⟩
  compactOptional := fun ha => ⟨coherent_compactOptional, coherent_compactOptional, by
    rw [nfa_compactOptional, nfa_compactOptional, ha.nfa]⟩

end Fragment

end Automata
