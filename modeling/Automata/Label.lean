import Automata.Basic

/-!
# Labels

A label is a finite set of state numbers, kept as an ascending list, so that equal sets are equal
labels.

* `Label.ofList`: the label of the numbers in a list, in any order and with repetitions.
* `Label.union`: the numbers of either label.
* `Label.text`: the numbers in decimal, joined by commas.
* `Label.Earlier`: the lexicographic order of lists of numbers, which is the order of labels.
-/

namespace Automata

/-- A finite set of state numbers. -/
structure Label where
  /-- The members, ascending. -/
  numbers : List Nat
  /-- Each member is less than every later one. -/
  ascending : numbers.Pairwise (· < ·)
deriving DecidableEq

namespace Label

instance : EmptyCollection Label := ⟨⟨[], .nil⟩⟩

instance : Hashable Label := ⟨fun l => hash l.numbers⟩

instance : Ord Label := ⟨fun a b => compare a.numbers b.numbers⟩

instance : Std.TransOrd Label where
  eq_swap {a b} := Std.OrientedCmp.eq_swap (a := a.numbers) (b := b.numbers)
  isLE_trans {a b c} := Std.TransCmp.isLE_trans (a := a.numbers) (b := b.numbers) (c := c.numbers)

instance : Std.LawfulEqOrd Label where
  compare_self {a} := Std.ReflCmp.compare_self (a := a.numbers)
  eq_of_compare {a b} h := by
    cases a; cases b
    exact (Label.mk.injEq ..).mpr (Std.LawfulEqCmp.eq_of_compare (show compare _ _ = .eq from h))

/-- **Lexicographic order**: a list comes earlier when it is a proper beginning of the other, or has
the smaller number at the first place where they differ. -/
def Earlier (l m : List Nat) : Prop :=
  l <+: m ∧ l ≠ m ∨
    ∃ common i j l' m', i < j ∧ l = common ++ i :: l' ∧ m = common ++ j :: m'

/-- Puts `n` in front of a list, unless the list begins with it already. -/
def consNew (n : Nat) : List Nat → List Nat
  | [] => [n]
  | m :: l => if n = m then m :: l else n :: m :: l

/-- One of each run of equal numbers. -/
def squeeze (l : List Nat) : List Nat := l.foldr consNew []

theorem mem_consNew {n k : Nat} {l : List Nat} :
    k ∈ consNew n l ↔ k = n ∨ k ∈ l := by
  unfold consNew
  split
  · simp
  · split
    · next h => simp [h]
    · simp

@[simp] theorem mem_squeeze {k : Nat} {l : List Nat} : k ∈ squeeze l ↔ k ∈ l := by
  induction l with
  | nil => simp [squeeze]
  | cons n l ih =>
    rw [List.mem_cons, ← ih]
    exact mem_consNew

/-- In front of an ascending list without smaller numbers, `consNew` keeps the order. -/
theorem pairwise_consNew {n : Nat} {l : List Nat} (hl : l.Pairwise (· < ·))
    (hn : ∀ k ∈ l, n ≤ k) : (consNew n l).Pairwise (· < ·) := by
  unfold consNew
  split
  · exact List.pairwise_singleton _ _
  · next m l =>
    split
    · exact hl
    · next h =>
      refine List.pairwise_cons.2 ⟨fun k hk => ?_, hl⟩
      have hm := hn m List.mem_cons_self
      rcases List.mem_cons.1 hk with rfl | hk
      · omega
      -- `n` is less than `m`, and `m` than everything behind it
      · have := (List.pairwise_cons.1 hl).1 k hk
        omega

/-- **Squeezing a sorted list leaves it strictly ascending.** -/
theorem pairwise_squeeze {l : List Nat} (h : l.Pairwise (· ≤ ·)) :
    (squeeze l).Pairwise (· < ·) := by
  induction l with
  | nil => exact .nil
  | cons n l ih =>
    have ⟨hn, hl⟩ := List.pairwise_cons.1 h
    exact pairwise_consNew (ih hl) fun k hk => hn k (mem_squeeze.1 hk)

/-- Whether one number may stand before another. -/
def precedes (m n : Nat) : Bool := decide (m ≤ n)

theorem precedes_trans (k m n : Nat) (hkm : precedes k m = true) (hmn : precedes m n = true) :
    precedes k n = true := by
  simp only [precedes, decide_eq_true_eq] at *
  omega

theorem precedes_total (m n : Nat) : (precedes m n || precedes n m) = true := by
  simp only [precedes, Bool.or_eq_true, decide_eq_true_eq]
  omega

theorem pairwise_precedes {l : List Nat} :
    l.Pairwise (fun m n => precedes m n = true) ↔ l.Pairwise (· ≤ ·) := by
  simp [precedes]

/-- **The label of the numbers in a list.** -/
def ofList (l : List Nat) : Label where
  numbers := squeeze (l.mergeSort precedes)
  ascending := pairwise_squeeze <| pairwise_precedes.1 <|
    List.pairwise_mergeSort precedes_trans precedes_total l

/-- Whether the label has no members. -/
def isEmpty (l : Label) : Bool := l.numbers.isEmpty

/-- **The numbers of either label.** An empty label leaves the other one as it is. -/
def union (a b : Label) : Label :=
  if a.isEmpty then b
  else if b.isEmpty then a
  else
    { numbers := squeeze (a.numbers.merge b.numbers precedes)
      ascending := pairwise_squeeze <| pairwise_precedes.1 <|
        List.pairwise_merge precedes_trans precedes_total _ _
          (pairwise_precedes.2 (a.ascending.imp Nat.le_of_lt))
          (pairwise_precedes.2 (b.ascending.imp Nat.le_of_lt)) }

instance : Union Label := ⟨union⟩

/-- The numbers in decimal, joined by commas. -/
def text (l : Label) : String := ",".intercalate (l.numbers.map toString)

/-- The members of the label of a list are those of the list. -/
@[simp] theorem mem_numbers_ofList {k : Nat} {l : List Nat} :
    k ∈ (ofList l).numbers ↔ k ∈ l := by
  simp [ofList]

/-- The members of a union are those of either label. -/
@[simp] theorem mem_numbers_union {k : Nat} {a b : Label} :
    k ∈ (a ∪ b).numbers ↔ k ∈ a.numbers ∨ k ∈ b.numbers := by
  change k ∈ (union a b).numbers ↔ _
  unfold union
  split
  · next h => simp [List.isEmpty_iff.1 h]
  · split
    · next h => simp [List.isEmpty_iff.1 h]
    · simp [List.mem_merge]

end Label

end Automata
