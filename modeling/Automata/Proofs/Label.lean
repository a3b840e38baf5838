import Mathlib.Data.List.Sort
import Mathlib.Order.Defs.Unbundled
import Automata.Label

/-!
# Labels are canonical

A label is the one ascending list of its members, so nothing of the list that it was made from
remains but the set. The text of a label can be read back: no numeral has a comma in it and none is
empty, so the numerals are what stands between the commas.

* `Label.ofList_eq_iff`, `Label.numbers_ofList_eq_iff`: **labels are equal when they have the same
  members**, and they list them in ascending order.
* `Label.filter_splitOn_text`, `Label.text_injective`: **different labels have different texts.**
* `Label.compare_numbers_eq_lt_iff`: labels are compared lexicographically.
* `Label.canonical`: all of this of any two labels.
-/

namespace Automata.Label

variable {a b : Label} {k n : Nat} {l m : List Nat}

/-! ### Members -/

theorem numbers_injective : Function.Injective Label.numbers := by
  intro a b h
  cases a
  cases b
  simpa using h

/-- Labels with the same members are equal. -/
theorem eq_of_mem_iff (h : ∀ n, n ∈ a.numbers ↔ n ∈ b.numbers) : a = b :=
  numbers_injective (a.ascending.eq_of_mem_iff b.ascending h)

/-- **The label of a list depends on its members only.** -/
theorem ofList_eq_iff : ofList l = ofList m ↔ ∀ n, n ∈ l ↔ n ∈ m := by
  refine ⟨fun h n => ?_, fun h => eq_of_mem_iff fun n => ?_⟩
  · rw [← mem_numbers_ofList, h, mem_numbers_ofList]
  · rw [mem_numbers_ofList, mem_numbers_ofList]
    exact h n

/-- **The label of a list is the one ascending list** of its members. -/
theorem numbers_ofList_eq_iff :
    (ofList l).numbers = m ↔ m.Pairwise (· < ·) ∧ ∀ n, n ∈ m ↔ n ∈ l := by
  refine ⟨?_, ?_⟩
  · rintro rfl
    exact ⟨(ofList l).ascending, fun n => mem_numbers_ofList⟩
  · rintro ⟨hm, hmem⟩
    exact (ofList l).ascending.eq_of_mem_iff hm fun n => mem_numbers_ofList.trans (hmem n).symm

/-! ### Texts -/

theorem comma_not_mem_toDigits (n : Nat) : ',' ∉ Nat.toDigits 10 n := by
  intro h
  have hdigit : ','.isDigit = true := Nat.isDigit_of_mem_toDigits (by decide) (by decide) h
  exact absurd hdigit (by decide)

/-- A number can be read back from its digits. -/
theorem toDigits_injective : Function.Injective (Nat.toDigits 10) :=
  Function.LeftInverse.injective (g := fun digits => Nat.ofDigitChars 10 digits 0) fun _ =>
    Nat.ofDigitChars_ten_toDigits

theorem toList_text (l : Label) :
    l.text.toList = [','].intercalate (l.numbers.map (Nat.toDigits 10)) := by
  have hdigits : ∀ n : Nat, (toString n).toList = Nat.toDigits 10 n := by
    intro n
    rw [Nat.toString_eq_ofList_toDigits, String.toList_ofList]
  rw [text, String.toList_intercalate, List.map_map]
  exact congrArg _ (List.map_congr_left fun n _ => hdigits n)

/-- **Between the commas stand the numbers.** Only the text of no numbers has nothing there. -/
theorem filter_splitOn_text (l : Label) :
    (l.text.toList.splitOn ',').filter (· ≠ []) = l.numbers.map (Nat.toDigits 10) := by
  rw [toList_text]
  by_cases hl : l.numbers = []
  · rw [hl]
    rfl
  · rw [List.splitOn_intercalate, List.filter_eq_self]
    · intro x hx
      obtain ⟨n, -, rfl⟩ := List.mem_map.1 hx
      exact decide_eq_true Nat.toDigits_ne_nil
    · intro x hx
      obtain ⟨n, -, rfl⟩ := List.mem_map.1 hx
      exact comma_not_mem_toDigits n
    · exact fun h => hl (List.map_eq_nil_iff.1 h)

/-- **Different labels have different texts.** -/
theorem text_injective : Function.Injective text := by
  intro a b h
  have hmap : a.numbers.map (Nat.toDigits 10) = b.numbers.map (Nat.toDigits 10) := by
    rw [← filter_splitOn_text, h, filter_splitOn_text]
  exact numbers_injective (List.map_injective_iff.2 toDigits_injective hmap)

/-! ### Order -/

theorem not_earlier_nil : ¬ Earlier l [] := by
  rintro (⟨hl, hne⟩ | ⟨common, i, j, l', m', -, -, hm⟩)
  · exact hne (List.prefix_nil.1 hl)
  · exact absurd hm.symm (List.append_ne_nil_of_right_ne_nil _ (List.cons_ne_nil _ _))

theorem earlier_nil_cons : Earlier [] (n :: m) :=
  Or.inl ⟨List.nil_prefix, (List.cons_ne_nil n m).symm⟩

/-- The first numbers decide, unless they are equal. -/
theorem earlier_cons_cons : Earlier (k :: l) (n :: m) ↔ k < n ∨ k = n ∧ Earlier l m := by
  refine ⟨?_, ?_⟩
  · rintro (⟨hl, hne⟩ | ⟨common, i, j, l', m', hij, hl, hm⟩)
    · obtain ⟨rfl, hrest⟩ := List.cons_prefix_cons.1 hl
      exact Or.inr ⟨rfl, Or.inl ⟨hrest, fun h => hne (congrArg _ h)⟩⟩
    -- the lists differ in their first numbers or behind them
    · cases common with
      | nil =>
        obtain ⟨rfl, -⟩ := List.cons.inj hl
        obtain ⟨rfl, -⟩ := List.cons.inj hm
        exact Or.inl hij
      | cons x common =>
        obtain ⟨rfl, rfl⟩ := List.cons.inj hl
        obtain ⟨rfl, rfl⟩ := List.cons.inj hm
        exact Or.inr ⟨rfl, Or.inr ⟨common, i, j, l', m', hij, rfl, rfl⟩⟩
  · rintro (h | ⟨rfl, ⟨hl, hne⟩ | ⟨common, i, j, l', m', hij, rfl, rfl⟩⟩)
    · exact Or.inr ⟨[], k, n, l, m, h, rfl, rfl⟩
    · exact Or.inl ⟨List.cons_prefix_cons.2 ⟨rfl, hl⟩, fun h => hne (List.cons.inj h).2⟩
    · exact Or.inr ⟨k :: common, i, j, l', m', hij, rfl, rfl⟩

/-- **Lists of numbers are compared lexicographically.** -/
theorem compare_numbers_eq_lt_iff : compare l m = .lt ↔ Earlier l m := by
  induction l generalizing m with
  | nil =>
    cases m with
    | nil => exact iff_of_false (by decide) not_earlier_nil
    | cons n m => exact iff_of_true List.compare_nil_cons earlier_nil_cons
  | cons k l ih =>
    cases m with
    | nil => exact iff_of_false (by simp) not_earlier_nil
    | cons n m =>
      rw [List.compare_cons_cons, Ordering.then_eq_lt, Nat.compare_eq_lt, Nat.compare_eq_eq, ih,
        earlier_cons_cons]

theorem isLinearOrder : IsLinearOrder Label fun a b => (compare a b).isLE = true where
  refl a := Std.ReflCmp.isLE_rfl
  trans a b c := Std.TransCmp.isLE_trans
  antisymm a b hab hba := Std.LawfulEqCmp.eq_of_compare (Std.OrientedCmp.isLE_antisymm hab hba)
  total a b := by
    have h : compare b a = (compare a b).swap := Std.OrientedCmp.eq_swap
    rw [h]
    cases compare a b <;> decide

/-- **Labels are canonical**, in memory and as text. The labels of two lists are equal if and only if
the lists have the same members, in whatever order and however often, and if and only if the texts
of the labels are equal. The numbers of a label are the one ascending list of the members. Labels
are ordered totally: one is less than another when its numbers come earlier in the lexicographic
order, and only equal labels compare as equal. -/
theorem canonical :
    (∀ xs ys : List Nat,
      (ofList xs = ofList ys ↔ ∀ n, n ∈ xs ↔ n ∈ ys) ∧
      ((ofList xs).text = (ofList ys).text ↔ ∀ n, n ∈ xs ↔ n ∈ ys)) ∧
    (∀ xs l : List Nat, (ofList xs).numbers = l ↔ l.Pairwise (· < ·) ∧ ∀ n, n ∈ l ↔ n ∈ xs) ∧
    (∀ a b : Label,
      (compare a b = .lt ↔ Earlier a.numbers b.numbers) ∧ (compare a b = .eq ↔ a = b) ∧
      (compare a b = .gt ↔ Earlier b.numbers a.numbers)) ∧
    IsLinearOrder Label fun a b => (compare a b).isLE = true := by
  refine ⟨fun xs ys => ⟨ofList_eq_iff, text_injective.eq_iff.trans ofList_eq_iff⟩,
    fun xs l => numbers_ofList_eq_iff, fun a b => ⟨?_, ?_, ?_⟩, isLinearOrder⟩
  · exact compare_numbers_eq_lt_iff
  · exact Std.LawfulEqCmp.compare_eq_iff_eq
  · exact Std.OrientedCmp.gt_iff_lt.trans compare_numbers_eq_lt_iff

end Automata.Label
