import Mathlib.Computability.Language
import Automata.Proofs.Nfa.Path

/-!
# The languages of combinations

The language of an automaton holds the words along which a path leads from its start to its final
state. Words that are put together from the operands' words are in the language of a combination
because the edges of an operand are edges of the combination (`Path.map`). For the other direction
each state of the combination gets a language that holds what is left to read from there, and that
is closed under going back along an edge (`Closed`): then it holds the word of every path to the
final state (`Closed.mem`). No path has to be cut into its passages through the operands.

* `language_concatPair`, `language_unionPair`, `language_star`: **product, sum and star.**
* `language_concat`, `language_union`: the same of any number of automata.
-/

namespace Automata.Nfa

open scoped Computability

variable {g a b : Nfa} {s t : Nat} {l : Option Char} {u v w : List Char} {K : Nat → Language Char}

/-- The words that lead from a state to the final state. -/
def residual (g : Nfa) (s : Nat) : Language Char := { w | g.Path s w g.final }

/-- **The words that lead from the start to the final state.** -/
def language (g : Nfa) : Language Char := g.residual g.start

theorem mem_language : w ∈ g.language ↔ g.Path g.start w g.final := Iff.rfl

theorem nil_mem_residual : [] ∈ g.residual g.final := Path.nil _

/-! ### Languages closed along edges -/

/-- What an edge reads can be put in front of the words of its target. -/
def Closed (g : Nfa) (K : Nat → Language Char) : Prop :=
  ∀ s l t, g.Edge s l t → ∀ w ∈ K t, l.toList ++ w ∈ K s

/-- **Closed languages hold the words of paths.** -/
theorem Closed.mem (hK : g.Closed K) (hp : g.Path s w t) (ht : [] ∈ K t) : w ∈ K s := by
  induction hp using Path.edge_induction with
  | nil s => exact ht
  | cons he _ ih => exact hK _ _ _ he _ (ih ht)

theorem closed_residual : g.Closed g.residual :=
  fun _ _ _ he _ hw => Path.cons he hw

theorem Closed.mul (hK : g.Closed K) (M : Language Char) : g.Closed fun s => K s * M := by
  intro s l t he w hw
  obtain ⟨u, hu, v, hv, rfl⟩ := Language.mem_mul.1 hw
  rw [← List.append_assoc]
  exact Language.append_mem_mul (hK s l t he u hu) hv

theorem append_mem_kstar {L : Language Char} (hu : u ∈ L) (hv : v ∈ L∗) : u ++ v ∈ L∗ := by
  have hle : L * L∗ ≤ L∗ := mul_kstar_le_kstar
  exact hle (Language.append_mem_mul hu hv)

/-- **Words that lead back to the final state can be repeated there**, any number of them. -/
theorem Path.kstar_final {L : Language Char} (hback : ∀ u ∈ L, g.Path g.final u g.final)
    (hw : w ∈ L∗) : g.Path g.final w g.final := by
  have hnil : 1 ≤ g.residual g.final := by
    intro v hv
    rw [(Language.mem_one v).1 hv]
    exact nil_mem_residual
  have hround : L * g.residual g.final ≤ g.residual g.final := by
    intro v hv
    obtain ⟨x, hx, y, hy, rfl⟩ := Language.mem_mul.1 hv
    exact (hback x hx).append hy
  exact kstar_le_of_mul_le_right hnil hround hw

/-! ### Primitive automata -/

/-- What is left to read in an automaton for one symbol. -/
def symbolResidual (symbols : List Char) (s : Nat) : Language Char :=
  if s = 0 then { w | ∃ c ∈ symbols, w = [c] } else 1

theorem closed_symbolResidual (symbols : List Char) :
    (anyOf symbols).Closed (symbolResidual symbols) := by
  intro s l t he w hw
  obtain ⟨c, hc, rfl, rfl, rfl⟩ := edge_anyOf.1 he
  obtain rfl : w = [] := hw
  exact ⟨c, hc, rfl⟩

theorem mem_language_anyOf (symbols : List Char) :
    w ∈ (anyOf symbols).language ↔ ∃ c ∈ symbols, w = [c] := by
  rw [mem_language, start_anyOf, final_anyOf]
  refine ⟨fun hp => (closed_symbolResidual symbols).mem hp Language.nil_mem_one, ?_⟩
  rintro ⟨c, hc, rfl⟩
  exact Path.edge (edge_anyOf.2 ⟨c, hc, rfl, rfl, rfl⟩)

theorem language_epsilon : epsilon.language = 1 := by
  ext w
  rw [mem_language, Language.mem_one]
  refine ⟨?_, ?_⟩
  · intro hp
    have hK : epsilon.Closed fun _ => 1 := by
      intro s l t he w hw
      obtain ⟨-, rfl, -⟩ := edge_epsilon.1 he
      exact hw
    exact hK.mem hp Language.nil_mem_one
  · rintro rfl
    exact Path.edge (edge_epsilon.2 ⟨rfl, rfl, rfl⟩)

theorem language_emptyLanguage : emptyLanguage.language = 0 := by
  ext w
  have h : w ∈ emptyLanguage.language ↔ ∃ c ∈ [], w = [c] := mem_language_anyOf []
  rw [h]
  refine ⟨?_, fun hw => absurd hw (Language.notMem_zero w)⟩
  rintro ⟨c, hc, -⟩
  exact absurd hc List.not_mem_nil

/-! ### The paths of operands -/

theorem Path.concatPair_left (ha : a.final < a.size) (hb : b.final < b.size)
    (hp : a.Path s w t) : (a.concatPair b).Path s w t :=
  hp.mono fun _ _ _ he => (edge_concatPair ha hb).2 (Or.inl he)

theorem Path.concatPair_right (ha : a.final < a.size) (hb : b.final < b.size)
    (hp : b.Path s w t) : (a.concatPair b).Path (s + a.size) w (t + a.size) :=
  hp.map (f := (· + a.size)) fun s _ t he =>
    (edge_concatPair ha hb).2 (Or.inr (Or.inl ⟨s, t, rfl, rfl, he⟩))

theorem Path.unionPair_left (ha : a.final < a.size) (hb : b.final < b.size)
    (hp : a.Path s w t) : (a.unionPair b).Path s w t :=
  hp.mono fun _ _ _ he => (edge_unionPair ha hb).2 (Or.inl he)

theorem Path.unionPair_right (ha : a.final < a.size) (hb : b.final < b.size)
    (hp : b.Path s w t) : (a.unionPair b).Path (s + a.size) w (t + a.size) :=
  hp.map (f := (· + a.size)) fun s _ t he =>
    (edge_unionPair ha hb).2 (Or.inr (Or.inl ⟨s, t, rfl, rfl, he⟩))

theorem Path.star_left (ha : a.final < a.size) (hp : a.Path s w t) : a.star.Path s w t :=
  hp.mono fun _ _ _ he => (edge_star ha).2 (Or.inl he)

/-- An edge on the empty word behind a path does not change its word. -/
theorem Path.concat_epsilon (hp : g.Path s w t) {r : Nat} (he : g.Edge t none r) :
    g.Path s w r := by
  have h := hp.append (Path.edge he)
  rwa [Option.toList_none, List.append_nil] at h

/-! ### Concatenation -/

/-- What is left to read in a concatenation: in the first operand, a word of the second one comes
after what is left of the first. -/
def concatResidual (a b : Nfa) (s : Nat) : Language Char :=
  if s < a.size then a.residual s * b.language else b.residual (s - a.size)

theorem concatResidual_left (hs : s < a.size) :
    concatResidual a b s = a.residual s * b.language := if_pos hs

theorem concatResidual_right : concatResidual a b (s + a.size) = b.residual s := by
  have hs : ¬ s + a.size < a.size := by omega
  rw [concatResidual, if_neg hs, Nat.add_sub_cancel]

theorem closed_concatResidual (ha : a.WellFormed) (hb : b.final < b.size) :
    (a.concatPair b).Closed (concatResidual a b) := by
  intro s l t h w hw
  -- an edge of either operand, or the one that joins them
  rcases (edge_concatPair ha.final_lt hb).1 h with he | ⟨i, j, rfl, rfl, he⟩ | ⟨rfl, rfl, rfl⟩
  · rw [concatResidual_left (ha.edge_lt he)] at hw
    rw [concatResidual_left he.source_lt]
    exact closed_residual.mul b.language s l t he w hw
  · rw [concatResidual_right] at hw ⊢
    exact closed_residual i l j he w hw
  · rw [concatResidual_right] at hw
    rw [concatResidual_left ha.final_lt]
    exact Language.append_mem_mul nil_mem_residual hw

/-- **The language of a concatenation** is the product of the languages. -/
theorem language_concatPair (ha : a.WellFormed) (hb : b.WellFormed) :
    (a.concatPair b).language = a.language * b.language := by
  have hfa := ha.final_lt
  have hfb := hb.final_lt
  ext w
  rw [mem_language, start_concatPair, final_concatPair]
  refine ⟨fun hp => ?_, fun hw => ?_⟩
  · have hnil : [] ∈ concatResidual a b (b.final + a.size) := by
      rw [concatResidual_right]
      exact nil_mem_residual
    have hw := (closed_concatResidual ha hfb).mem hp hnil
    rw [concatResidual_left ha.start_lt] at hw
    exact hw
  · obtain ⟨u, hu, v, hv, rfl⟩ := Language.mem_mul.1 hw
    have h1 : (a.concatPair b).Path a.start u a.final := Path.concatPair_left hfa hfb hu
    have h2 := h1.concat_epsilon (edge_concatPair_join hfa hfb)
    exact h2.append (Path.concatPair_right hfa hfb hv)

/-! ### Union -/

/-- What is left to read in a union: at the new start, a word of either operand. -/
def unionResidual (a b : Nfa) (s : Nat) : Language Char :=
  if s < a.size then a.residual s
  else if s < a.size + b.size then b.residual (s - a.size)
  else if s < a.size + b.size + 1 then a.language + b.language
  else 1

theorem unionResidual_left (hs : s < a.size) : unionResidual a b s = a.residual s := if_pos hs

theorem unionResidual_right (hs : s < b.size) :
    unionResidual a b (s + a.size) = b.residual s := by
  rw [unionResidual, if_neg (by omega), if_pos (by omega), Nat.add_sub_cancel]

theorem unionResidual_start : unionResidual a b (a.size + b.size) = a.language + b.language := by
  rw [unionResidual, if_neg (by omega), if_neg (by omega), if_pos (by omega)]

theorem unionResidual_final : unionResidual a b (a.size + b.size + 1) = 1 := by
  rw [unionResidual, if_neg (by omega), if_neg (by omega), if_neg (by omega)]

theorem closed_unionResidual (ha : a.WellFormed) (hb : b.WellFormed) :
    (a.unionPair b).Closed (unionResidual a b) := by
  intro s l t h w hw
  -- an edge of either operand, one of the two that enter them, or one of the two that leave
  rcases (edge_unionPair ha.final_lt hb.final_lt).1 h with
    he | ⟨i, j, rfl, rfl, he⟩ | ⟨rfl, rfl, rfl | rfl⟩ | ⟨rfl | rfl, rfl, rfl⟩
  · rw [unionResidual_left (ha.edge_lt he)] at hw
    rw [unionResidual_left he.source_lt]
    exact closed_residual s l t he w hw
  · rw [unionResidual_right (hb.edge_lt he)] at hw
    rw [unionResidual_right he.source_lt]
    exact closed_residual i l j he w hw
  · rw [unionResidual_left ha.start_lt] at hw
    rw [unionResidual_start]
    exact Or.inl hw
  · rw [unionResidual_right hb.start_lt] at hw
    rw [unionResidual_start]
    exact Or.inr hw
  · rw [unionResidual_final, Language.mem_one] at hw
    rw [unionResidual_left ha.final_lt, hw]
    exact nil_mem_residual
  · rw [unionResidual_final, Language.mem_one] at hw
    rw [unionResidual_right hb.final_lt, hw]
    exact nil_mem_residual

/-- **The language of a union** is the sum of the languages. -/
theorem language_unionPair (ha : a.WellFormed) (hb : b.WellFormed) :
    (a.unionPair b).language = a.language + b.language := by
  have hfa := ha.final_lt
  have hfb := hb.final_lt
  ext w
  rw [mem_language, start_unionPair, final_unionPair, Language.mem_add]
  refine ⟨fun hp => ?_, ?_⟩
  · have hnil : [] ∈ unionResidual a b (a.size + b.size + 1) := by
      rw [unionResidual_final]
      exact Language.nil_mem_one
    have hw := (closed_unionResidual ha hb).mem hp hnil
    rw [unionResidual_start] at hw
    exact hw
  · rintro (hw | hw)
    · have h1 := Path.unionPair_left hfa hfb hw
      have h2 := h1.concat_epsilon (edge_unionPair_leave hfa hfb (Or.inl rfl))
      exact Path.cons (edge_unionPair_enter hfa hfb (Or.inl rfl)) h2
    · have h1 := Path.unionPair_right hfa hfb hw
      have h2 := h1.concat_epsilon (edge_unionPair_leave hfa hfb (Or.inr rfl))
      exact Path.cons (edge_unionPair_enter hfa hfb (Or.inr rfl)) h2

/-! ### Repetition -/

/-- What is left to read in a repetition: outside the operand any number of words, inside of it as
many after what is left of the present one. -/
def starResidual (a : Nfa) (s : Nat) : Language Char :=
  if s < a.size then a.residual s * a.language∗ else a.language∗

theorem starResidual_left (hs : s < a.size) : starResidual a s = a.residual s * a.language∗ :=
  if_pos hs

theorem starResidual_right (hs : a.size ≤ s) : starResidual a s = a.language∗ :=
  if_neg (Nat.not_lt.2 hs)

theorem closed_starResidual (ha : a.WellFormed) : a.star.Closed (starResidual a) := by
  have hrepeat : ∀ w ∈ starResidual a a.start, w ∈ a.language∗ := by
    intro w hw
    rw [starResidual_left ha.start_lt] at hw
    obtain ⟨u, hu, v, hv, rfl⟩ := Language.mem_mul.1 hw
    exact append_mem_kstar hu hv
  intro s l t h w hw
  -- an edge of the operand, one that begins a round, or one to the new final state
  rcases (edge_star ha.final_lt).1 h with he | ⟨hs, rfl, rfl⟩ | ⟨hs, rfl, rfl⟩
  · rw [starResidual_left (ha.edge_lt he)] at hw
    rw [starResidual_left he.source_lt]
    exact closed_residual.mul _ s l t he w hw
  · rw [starResidual_right (by omega)]
    exact hrepeat w hw
  · rw [starResidual_right (Nat.le_succ _)] at hw
    rcases hs with rfl | rfl
    · rw [starResidual_right (Nat.le_refl _)]
      exact hw
    · rw [starResidual_left ha.final_lt]
      exact Language.append_mem_mul nil_mem_residual hw

/-- **The language of a repetition** is the star of the language. -/
theorem language_star (ha : a.WellFormed) : a.star.language = a.language∗ := by
  have hfa := ha.final_lt
  ext w
  rw [mem_language, start_star, final_star]
  refine ⟨fun hp => ?_, fun hw => ?_⟩
  · have hnil : [] ∈ starResidual a (a.size + 1) := by
      rw [starResidual_right (Nat.le_succ _)]
      exact Language.nil_mem_kstar _
    have hw := (closed_starResidual ha).mem hp hnil
    rw [starResidual_right (Nat.le_refl _)] at hw
    exact hw
  · have hskip : a.star.Edge a.size none (a.size + 1) :=
      (edge_star hfa).2 (Or.inr (Or.inr ⟨Or.inl rfl, rfl, rfl⟩))
    have hback : a.star.Edge (a.size + 1) none a.start :=
      (edge_star hfa).2 (Or.inr (Or.inl ⟨Or.inr rfl, rfl, rfl⟩))
    -- the final state is where every round begins and ends
    have hround : ∀ u ∈ a.language, a.star.Path a.star.final u a.star.final := fun u hu =>
      Path.cons hback ((Path.star_left hfa hu).concat_epsilon (edge_star_leave hfa))
    exact Path.cons hskip (Path.kstar_final hround hw)

theorem language_plus (ha : a.WellFormed) : a.plus.language = a.language * a.language∗ := by
  unfold plus
  rw [language_concatPair ha (wellFormed_star ha), language_star ha]

theorem language_optional (ha : a.WellFormed) : a.optional.language = a.language + 1 := by
  unfold optional
  rw [language_unionPair ha wellFormed_epsilon, language_epsilon]

/-! ### Combinations of any number of automata -/

/-- What a combination of two well-formed automata does to their languages, it does along a list. -/
theorem foldl_language {f : Nfa → Nfa → Nfa} {k : Language Char → Language Char → Language Char}
    (hf : ∀ a b, a.WellFormed → b.WellFormed →
      (f a b).WellFormed ∧ (f a b).language = k a.language b.language)
    {l : List Nfa} (ha : a.WellFormed) (hl : ∀ b ∈ l, b.WellFormed) :
    (l.foldl f a).WellFormed ∧
      (l.foldl f a).language = (l.map language).foldl k a.language := by
  induction l generalizing a with
  | nil => exact ⟨ha, rfl⟩
  | cons b l ih =>
    obtain ⟨hb, hl⟩ := List.forall_mem_cons.1 hl
    obtain ⟨hw, hlang⟩ := hf a b ha hb
    rw [List.foldl_cons, List.map_cons, List.foldl_cons, ← hlang]
    exact ih hw hl

theorem foldl_concatPair {l : List Nfa} (ha : a.WellFormed) (hl : ∀ b ∈ l, b.WellFormed) :
    (l.foldl concatPair a).language = (l.map language).foldl (· * ·) a.language :=
  (foldl_language (fun _ _ ha hb => ⟨wellFormed_concatPair ha hb, language_concatPair ha hb⟩)
    ha hl).2

theorem foldl_unionPair {l : List Nfa} (ha : a.WellFormed) (hl : ∀ b ∈ l, b.WellFormed) :
    (l.foldl unionPair a).WellFormed ∧
      (l.foldl unionPair a).language = (l.map language).foldl (· + ·) a.language :=
  foldl_language (fun _ _ ha hb => ⟨wellFormed_unionPair ha hb, language_unionPair ha hb⟩) ha hl

theorem wellFormed_chars (symbols : List Char) : ∀ a ∈ symbols.map char, a.WellFormed := by
  intro a ha
  obtain ⟨c, -, rfl⟩ := List.mem_map.1 ha
  exact wellFormed_anyOf [c]

theorem wellFormed_union {l : List Nfa} (hl : ∀ a ∈ l, a.WellFormed) : (union l).WellFormed := by
  cases l with
  | nil => rw [union]; exact wellFormed_anyOf []
  | cons a l =>
    obtain ⟨ha, hl⟩ := List.forall_mem_cons.1 hl
    exact (foldl_unionPair ha hl).1

theorem language_concat {l : List Nfa} (hl : ∀ a ∈ l, a.WellFormed) :
    (concat l).language = (l.map language).prod := by
  cases l with
  | nil => rw [concat, language_epsilon, List.map_nil, List.prod_nil]
  | cons a l =>
    obtain ⟨ha, hl⟩ := List.forall_mem_cons.1 hl
    rw [concat, foldl_concatPair ha hl, List.map_cons, List.prod_eq_foldl, List.foldl_cons, one_mul]

theorem language_union {l : List Nfa} (hl : ∀ a ∈ l, a.WellFormed) :
    (union l).language = (l.map language).sum := by
  cases l with
  | nil => rw [union, language_emptyLanguage, List.map_nil, List.sum_nil]
  | cons a l =>
    obtain ⟨ha, hl⟩ := List.forall_mem_cons.1 hl
    rw [union, (foldl_unionPair ha hl).2, List.map_cons, List.sum_eq_foldl, List.foldl_cons,
      zero_add]

/-- A union of single symbols has the words of any of them. -/
theorem mem_language_union_chars {symbols : List Char} :
    w ∈ (union (symbols.map char)).language ↔ ∃ c ∈ symbols, w = [c] := by
  rw [language_union (wellFormed_chars symbols)]
  induction symbols with
  | nil =>
    refine ⟨fun hw => absurd hw (Language.notMem_zero w), ?_⟩
    rintro ⟨c, hc, -⟩
    exact absurd hc List.not_mem_nil
  | cons c symbols ih =>
    have hc : w ∈ (char c).language ↔ ∃ d ∈ [c], w = [d] := mem_language_anyOf [c]
    rw [List.map_cons, List.map_cons, List.sum_cons, Language.mem_add, ih, hc]
    simp only [List.mem_cons, List.not_mem_nil, or_false, or_and_right, exists_or]

end Automata.Nfa
