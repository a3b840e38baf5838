import Automata.Proofs.Nfa.Language

/-!
# Operands behave in a combination as they do alone

A concatenation and a union keep the edges of their operands and add some that join them. None of
these leads back into an operand that has been left: a concatenation goes on from the first operand
to the second and stays there, and a union goes on from either operand to its final state and ends
there. So between two states of an operand there are the same paths as before.

* `noReturn_concatPair_left`, `noReturn_concatPair_right`: what lies beyond an operand of a
  concatenation.
* `noReturn_unionPair_left`, `noReturn_unionPair_right`: what lies beyond an operand of a union.
* `samePaths_operands`: **no behaviour is added to an operand or taken from it.**
-/

namespace Automata.Nfa

variable {a b : Nfa} {t : Nat} {l : Option Char}

/-- **Beyond the first operand of a concatenation** lies the second. -/
theorem noReturn_concatPair_left (ha : a.final < a.size) (hb : b.final < b.size) :
    a.NoReturn (a.concatPair b) id (a.size ≤ ·) where
  leave s hs l u he := by
    rcases (edge_concatPair ha hb).1 he with he | ⟨i, j, -, rfl, -⟩ | ⟨-, -, rfl⟩
    · exact Or.inl ⟨u, he, rfl⟩
    · exact Or.inr (Nat.le_add_left ..)
    · exact Or.inr (Nat.le_add_left ..)
  stay u hu l t he := by
    rcases (edge_concatPair ha hb).1 he with he | ⟨i, j, -, rfl, -⟩ | ⟨rfl, -, -⟩
    · exact absurd he.source_lt (Nat.not_lt.2 hu)
    · exact Nat.le_add_left ..
    · exact absurd ha (Nat.not_lt.2 hu)
  apart s hs := Nat.not_le.2 hs

/-- **The second operand of a concatenation** is never left. -/
theorem noReturn_concatPair_right (ha : a.final < a.size) (hb : b.final < b.size) :
    b.NoReturn (a.concatPair b) (· + a.size) fun _ => False where
  leave s hs l u he := by
    have he : (a.concatPair b).Edge (s + a.size) l u := he
    rcases (edge_concatPair ha hb).1 he with he | ⟨i, j, hi, rfl, he⟩ | ⟨hi, -, -⟩
    · have := he.source_lt
      omega
    · obtain rfl : s = i := Nat.add_right_cancel hi
      exact Or.inl ⟨j, he, rfl⟩
    · omega
  stay u hu := hu.elim
  apart s hs := id

/-- The final state of a union has no edges. -/
theorem not_edge_final_unionPair (ha : a.final < a.size) (hb : b.final < b.size) :
    ¬ (a.unionPair b).Edge (a.unionPair b).final l t := by
  rw [final_unionPair]
  intro he
  rcases (edge_unionPair ha hb).1 he with he | ⟨i, j, hi, -, he⟩ | ⟨hi, -, -⟩ | ⟨hi, -, -⟩
  · have := he.source_lt
    omega
  · have := he.source_lt
    omega
  · omega
  · omega

/-- **Beyond the first operand of a union** lies the final state. -/
theorem noReturn_unionPair_left (ha : a.final < a.size) (hb : b.final < b.size) :
    a.NoReturn (a.unionPair b) id (· = (a.unionPair b).final) where
  leave s hs l u he := by
    have he : (a.unionPair b).Edge s l u := he
    rcases (edge_unionPair ha hb).1 he with he | ⟨i, j, hi, -, -⟩ | ⟨hi, -, -⟩ | ⟨-, -, hu⟩
    · exact Or.inl ⟨u, he, rfl⟩
    · omega
    · omega
    · exact Or.inr hu
  stay u hu l t he := by
    rw [hu] at he
    exact absurd he (not_edge_final_unionPair ha hb)
  apart s hs h := by
    rw [final_unionPair, id] at h
    omega

/-- **Beyond the second operand of a union** lies the final state too. -/
theorem noReturn_unionPair_right (ha : a.final < a.size) (hb : b.final < b.size) :
    b.NoReturn (a.unionPair b) (· + a.size) (· = (a.unionPair b).final) where
  leave s hs l u he := by
    have he : (a.unionPair b).Edge (s + a.size) l u := he
    rcases (edge_unionPair ha hb).1 he with he | ⟨i, j, hi, rfl, he⟩ | ⟨hi, -, -⟩ | ⟨-, -, hu⟩
    · have := he.source_lt
      omega
    · obtain rfl : s = i := Nat.add_right_cancel hi
      exact Or.inl ⟨j, he, rfl⟩
    · omega
    · exact Or.inr hu
  stay u hu l t he := by
    rw [hu] at he
    exact absurd he (not_edge_final_unionPair ha hb)
  apart s hs h := by
    rw [final_unionPair] at h
    omega

/-- **Operands behave in a combination as they do alone.** In a concatenation and in a union of two
automata, two states of the same operand are joined by a path along a word if and only if they are
in the operand. The states of the first operand keep their places, and those of the second one move
up by the size of the first. -/
theorem samePaths_operands (ha : a.InArena) (hb : b.InArena) :
    (a.SamePaths (a.concatPair b) id ∧ b.SamePaths (a.concatPair b) (· + a.size)) ∧
      a.SamePaths (a.unionPair b) id ∧ b.SamePaths (a.unionPair b) (· + a.size) := by
  have hfa := ha.final_lt
  have hfb := hb.final_lt
  have hshift : Function.Injective (· + a.size) := add_left_injective a.size
  refine ⟨⟨?_, ?_⟩, ?_, ?_⟩
  · exact (noReturn_concatPair_left hfa hfb).samePaths ha.enclosed Function.injective_id
      fun s w t => Path.concatPair_left hfa hfb
  · exact (noReturn_concatPair_right hfa hfb).samePaths hb.enclosed hshift
      fun s w t => Path.concatPair_right hfa hfb
  · exact (noReturn_unionPair_left hfa hfb).samePaths ha.enclosed Function.injective_id
      fun s w t => Path.unionPair_left hfa hfb
  · exact (noReturn_unionPair_right hfa hfb).samePaths hb.enclosed hshift
      fun s w t => Path.unionPair_right hfa hfb

/-- Both operands lead from their final states back into themselves. In the concatenation the first
one is joined to the second at that state, in the union both are joined to the new final state
there. -/
theorem samePaths_operands_loops :
    ∃ a b : Nfa, a = (char 'x').compactPlus ∧ b = (char 'y').star ∧ a.InArena ∧ b.InArena ∧
      ((a.SamePaths (a.concatPair b) id ∧ b.SamePaths (a.concatPair b) (· + a.size)) ∧
        a.SamePaths (a.unionPair b) id ∧ b.SamePaths (a.unionPair b) (· + a.size)) ∧
      (a.concatPair b).Path 1 ['x'] 1 ∧ (a.unionPair b).Path 5 ['y'] 5 := by
  have ha : (char 'x').compactPlus.InArena :=
    (wellFormed_compactPlus (wellFormed_anyOf ['x'])).toInArena
  have hb : (char 'y').star.InArena := (wellFormed_star (wellFormed_anyOf ['y'])).toInArena
  have hx : (char 'x').compactPlus.Path 1 ['x'] 1 := by
    refine .epsilon (t := 0) ?_ (.symbol (t := 1) ?_ (.nil 1)) <;> decide +kernel
  have hy : (char 'y').star.Path 3 ['y'] 3 := by
    refine .epsilon (t := 0) ?_ (.symbol (t := 1) ?_ (.epsilon (t := 3) ?_ (.nil 3))) <;>
      decide +kernel
  have h := samePaths_operands ha hb
  exact ⟨_, _, rfl, rfl, ha, hb, h, (h.1.1 1 (by decide) 1 (by decide) _).2 hx,
    (h.2.2 3 (by decide) 3 (by decide) _).2 hy⟩

end Automata.Nfa
