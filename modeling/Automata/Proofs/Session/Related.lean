import Mathlib.Data.List.Forall2
import Automata.Session.Construction

/-!
# Constructions on related stacks

Two stacks are related if their fragments are, one by one. What a construction does to one of them
it does to the other, as long as the combinations respect the relation.

* `Nfa.Primitive`: the automata that are built without operands.
* `Fragment.Respected`: **a relation that new fragments and combinations respect.**
* `Construction.Related`: two refusals for the same reason, or two related stacks.
* `Construction.related_apply`: **one construction on related stacks.**
* `Construction.forall_apply`: the same for a property of one fragment.
-/

namespace Automata

/-- The automata that are built without operands. -/
inductive Nfa.Primitive : Nfa → Prop where
  | char (c : Char) : Primitive (.char c)
  | epsilon : Primitive .epsilon
  | emptyLanguage : Primitive .emptyLanguage
  | digits : Primitive .digits
  | anyOf (symbols : List Char) : Primitive (.anyOf symbols)
  | charRange {lo hi : Char} {g : Nfa} : Nfa.charRange lo hi = .ok g → Primitive g
  | digitRange {lo hi : Int} {g : Nfa} : Nfa.digitRange lo hi = .ok g → Primitive g
  | compactDigitRange {lo hi : Int} {g : Nfa} : Nfa.compactDigitRange lo hi = .ok g → Primitive g
  | parseDigitRange {lo hi : List Char} {g : Nfa} : Nfa.parseDigitRange lo hi = .ok g → Primitive g

namespace Fragment

/-- **A relation between fragments that is respected**: it holds between new fragments of one
automaton, and between combinations of related operands. -/
structure Respected (R : Fragment → Fragment → Prop) : Prop where
  primitive : ∀ {g : Nfa}, g.Primitive → R { nfa := g } { nfa := g }
  concatPair : ∀ {a a' b b' : Fragment}, R a a' → R b b' → R (a.concatPair b) (a'.concatPair b')
  unionPair : ∀ {a a' b b' : Fragment}, R a a' → R b b' → R (a.unionPair b) (a'.unionPair b')
  star : ∀ {a a' : Fragment}, R a a' → R a.star a'.star
  compactStar : ∀ {a a' : Fragment}, R a a' → R a.compactStar a'.compactStar
  compactPlus : ∀ {a a' : Fragment}, R a a' → R a.compactPlus a'.compactPlus
  compactOptional : ∀ {a a' : Fragment}, R a a' → R a.compactOptional a'.compactOptional

namespace Respected

variable {R : Fragment → Fragment → Prop} {a a' : Fragment} {l l' : List Fragment}

theorem plus (hR : Respected R) (h : R a a') : R a.plus a'.plus := hR.concatPair h (hR.star h)

theorem optional (hR : Respected R) (h : R a a') : R a.optional a'.optional :=
  hR.unionPair h (hR.primitive .epsilon)

theorem foldl {f : Fragment → Fragment → Fragment}
    (hf : ∀ {a a' b b'}, R a a' → R b b' → R (f a b) (f a' b')) (hl : List.Forall₂ R l l')
    (h : R a a') : R (l.foldl f a) (l'.foldl f a') := by
  induction hl generalizing a a' with
  | nil => exact h
  | cons hb _ ih => exact ih (hf h hb)

/-- A list of one fragment gives back that fragment, related as it was. -/
theorem concat (hR : Respected R) (hl : List.Forall₂ R l l') :
    R (Fragment.concat l) (Fragment.concat l') := by
  cases hl with
  | nil => exact hR.primitive .epsilon
  | cons h hl => exact foldl hR.concatPair hl h

theorem union (hR : Respected R) (hl : List.Forall₂ R l l') :
    R (Fragment.union l) (Fragment.union l') := by
  cases hl with
  | nil => exact hR.primitive .emptyLanguage
  | cons h hl => exact foldl hR.unionPair hl h

end Respected

end Fragment

namespace Construction

variable {R : Fragment → Fragment → Prop} {stack stack' : List Fragment}

/-- **Two refusals for the same reason, or two related stacks.** What is reported may differ. -/
inductive Related (R : Fragment → Fragment → Prop) :
    Except Refusal Built → Except Refusal Built → Prop where
  | error (r : Refusal) : Related R (.error r) (.error r)
  | ok {built built' : Built} :
    List.Forall₂ R built.stack built'.stack → Related R (.ok built) (.ok built')

theorem related_push {g : Nfa} (hg : R { nfa := g } { nfa := g })
    (h : List.Forall₂ R stack stack') :
    Related R (.ok (push stack g)) (.ok (push stack' g)) := .ok (.cons hg h)

theorem related_push? {r : Except Error Nfa} (hr : ∀ g, r = .ok g → R { nfa := g } { nfa := g })
    (h : List.Forall₂ R stack stack') : Related R (push? stack r) (push? stack' r) := by
  cases r with
  | error e => exact .error _
  | ok g => exact related_push (hr g rfl) h

theorem related_mapTop {f : Fragment → Fragment} (hf : ∀ {a a'}, R a a' → R (f a) (f a'))
    (h : List.Forall₂ R stack stack') : Related R (mapTop f stack) (mapTop f stack') := by
  cases h with
  | nil => exact .error _
  | cons ha h => exact .ok (.cons (hf ha) h)

theorem related_mapPair {f : Fragment → Fragment → Fragment}
    (hf : ∀ {a a' b b'}, R a a' → R b b' → R (f a b) (f a' b'))
    (h : List.Forall₂ R stack stack') : Related R (mapPair f stack) (mapPair f stack') := by
  cases h with
  | nil => exact .error _
  | cons hb h =>
    cases h with
    | nil => exact .error _
    | cons ha h => exact .ok (.cons (hf ha hb) h)

theorem related_gather {f : List Fragment → Fragment} {count : Nat}
    (hf : ∀ {l l'}, List.Forall₂ R l l' → R (f l) (f l')) (h : List.Forall₂ R stack stack') :
    Related R (gather f count stack) (gather f count stack') := by
  unfold gather
  rw [h.length_eq]
  split
  · -- the operands and what is left are both parts of the stacks
    have htake := List.rel_reverse (List.forall₂_take count h)
    exact .ok (.cons (hf htake) (List.forall₂_drop count h))
  · exact .error _

/-- What is reported has no part in the stacks. -/
theorem related_reporting {event : Event} {r r' : Except Refusal Built} (h : Related R r r') :
    Related R (r.map (reporting event stack)) (r'.map (reporting event stack')) := by
  cases h with
  | error e => exact .error e
  | ok hbuilt => exact .ok hbuilt

/-- **One construction on related stacks** is refused on both, or leaves related stacks. -/
theorem related_apply (hR : Fragment.Respected R) (h : List.Forall₂ R stack stack')
    (step : Construction) : Related R (apply stack step) (apply stack' step) := by
  cases step with
  | char c => exact related_push (hR.primitive (.char c)) h
  | epsilon => exact related_push (hR.primitive .epsilon) h
  | emptyLanguage => exact related_push (hR.primitive .emptyLanguage) h
  | digits => exact related_push (hR.primitive .digits) h
  | anyOf symbols => exact related_push (hR.primitive (.anyOf symbols)) h
  | charRange lo hi => exact related_push? (fun _ hg => hR.primitive (.charRange hg)) h
  | digitRange lo hi => exact related_push? (fun _ hg => hR.primitive (.digitRange hg)) h
  | compactDigitRange lo hi =>
    exact related_push? (fun _ hg => hR.primitive (.compactDigitRange hg)) h
  | parseDigitRange lo hi => exact related_push? (fun _ hg => hR.primitive (.parseDigitRange hg)) h
  | concat count => exact related_gather hR.concat h
  | union count => exact related_gather hR.union h
  | concatPair => exact related_mapPair hR.concatPair h
  | unionPair => exact related_mapPair hR.unionPair h
  | star => exact related_mapTop hR.star h
  | plus => exact related_mapTop hR.plus h
  | optional => exact related_mapTop hR.optional h
  | compactStar => exact related_reporting (related_mapTop hR.compactStar h)
  | compactPlus => exact related_mapTop hR.compactPlus h
  | compactOptional => exact related_reporting (related_mapTop hR.compactOptional h)
  | duplicate =>
    cases h with
    | nil => exact .error _
    | cons ha h => exact .ok (.cons ha (.cons ha h))
  | exchange =>
    cases h with
    | nil => exact .error _
    | cons hb h =>
      cases h with
      | nil => exact .error _
      | cons ha h => exact .ok (.cons ha (.cons hb h))

/-- **A property of fragments that combinations respect** holds of all fragments on the next stack if
it holds of all on this one. -/
theorem forall_apply {P : Fragment → Prop} {step : Construction} {built : Built}
    (hP : Fragment.Respected fun a b => a = b ∧ P a) (hs : ∀ f ∈ stack, P f)
    (h : apply stack step = .ok built) : ∀ f ∈ built.stack, P f := by
  have hstack : List.Forall₂ (fun a b => a = b ∧ P a) stack stack :=
    List.forall₂_same.2 fun f hf => ⟨rfl, hs f hf⟩
  have hrelated := related_apply hP hstack step
  rw [h] at hrelated
  cases hrelated with
  | ok hbuilt => exact fun f hf => (List.forall₂_same.1 hbuilt f hf).2

end Construction

end Automata
