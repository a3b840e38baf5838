import Automata.Proofs.Dfa.Simulation
import Automata.Proofs.Nfa.Renaming
import Automata.Proofs.Search.Discovery

/-!
# The deterministic automaton does not depend on the names of the states

Renamed automata have different tables, since states are numbered in the order of their edges. But
their labels are images of each other at every moment of the two constructions, which look at the
symbols in the same order. So the constructions run in lockstep.

* `Renaming.path_map`, `Renaming.exists_path`: paths of one automaton and of the other.
* `Renaming.biUnique_sameLabel`: a label has one image and is the image of one label.
* `Renaming.sameLabel_label`, `Renaming.sameLabel_move`: **closures and moves of images are images.**
* `Renaming.lockstep_subsets`: so the two constructions find images of the same labels in the same
  order.
* `toDfa_renaming`: **renamed automata have the same deterministic automaton**, and automata of
  reordered expressions are renamed.
-/

namespace Automata

open Search

/-- Maps that have related values at the same symbols list related values. -/
theorem forall₂_toList {α β : Type} {R : α → β → Prop} {m : SymbolMap α} {m' : SymbolMap β}
    (hkeys : ∀ c, c ∈ m ↔ c ∈ m')
    (hR : ∀ (c : Char) (x : α) (x' : β), m[c]? = some x → m'[c]? = some x' → R x x') :
    List.Forall₂ R (m.toList.map (·.2)) (m'.toList.map (·.2)) := by
  -- both maps list the same symbols in the same order
  have hunit : m.map (fun _ _ => ()) = m'.map fun _ _ => () := by
    apply Std.ExtTreeMap.ext_mem_unit
    intro c
    rw [Std.ExtTreeMap.mem_map, Std.ExtTreeMap.mem_map, hkeys]
  have hfst : m.toList.map Prod.fst = m'.toList.map Prod.fst := by
    have h := congrArg Std.ExtTreeMap.keys hunit
    rwa [Std.ExtTreeMap.keys_map, Std.ExtTreeMap.keys_map, ← Std.ExtTreeMap.map_fst_toList_eq_keys,
      ← Std.ExtTreeMap.map_fst_toList_eq_keys] at h
  have hlen : m.toList.length = m'.toList.length := by
    have h := congrArg List.length hfst
    rwa [List.length_map, List.length_map] at h
  rw [List.forall₂_map_left_iff, List.forall₂_map_right_iff, List.forall₂_iff_get]
  refine ⟨hlen, fun i hi hi' => ?_⟩
  have hsymbol : (m.toList[i]).1 = (m'.toList[i]).1 := by
    have h := List.getElem_map (f := Prod.fst) (h := by rw [List.length_map]; exact hi)
    have h' := List.getElem_map (f := Prod.fst) (h := by rw [List.length_map]; exact hi')
    rw [← h, ← h']
    simp only [hfst]
  have hx : m[(m.toList[i]).1]? = some (m.toList[i]).2 :=
    Std.ExtTreeMap.mem_toList_iff_getElem?_eq_some.1 (List.getElem_mem hi)
  have hx' : m'[(m'.toList[i]).1]? = some (m'.toList[i]).2 :=
    Std.ExtTreeMap.mem_toList_iff_getElem?_eq_some.1 (List.getElem_mem hi')
  rw [← hsymbol] at hx'
  exact hR _ _ _ hx hx'

namespace Nfa

variable {f g : Nfa} {h : Nat → Nat} {s t n m k : Nat} {e : Option Char} {c : Char} {w : List Char}
variable {l l' : Label}

namespace Renaming

/-! ### Paths -/

theorem edge_map (H : Renaming f g h) (he : f.Edge s e t) : g.Edge (h s) e (h t) :=
  (H.edge_iff s he.source_lt e (h t)).2 ⟨t, he, rfl⟩

theorem path_map (H : Renaming f g h) (hp : f.Path s w t) : g.Path (h s) w (h t) :=
  hp.map fun _ _ _ => H.edge_map

/-- **A path from a renamed state** renames a path from the state. -/
theorem exists_path (H : Renaming f g h) (hf : f.InArena) (hs : s < f.size)
    (hp : g.Path (h s) w t) : ∃ t', f.Path s w t' ∧ h t' = t := by
  have hreturn : NoReturn f g h fun _ => False :=
    { leave := fun s hs l u he => Or.inl ((H.edge_iff s hs l u).1 he)
      stay := fun _ hu => hu.elim
      apart := fun _ _ => id }
  exact (hreturn.path_or_beyond hf.enclosed hs hp).resolve_right id

/-- A numbered state has a number under its new name. -/
theorem exists_number (H : Renaming f g h) (hf : f.InArena) (hg : g.InArena)
    (hs : (Table.ofNfa f).numberOf? s = some n) :
    ∃ m, (Table.ofNfa g).numberOf? (h s) = some m := by
  obtain ⟨w, hw⟩ := hf.exists_number_iff.1 ⟨n, hs⟩
  have hp := H.path_map hw
  rw [H.start] at hp
  exact hg.exists_number_iff.2 ⟨w, hp⟩

/-- A state that is reachable under its new name is reachable. -/
theorem reachable_iff (H : Renaming f g h) (hf : f.InArena) :
    g.Reachable t ↔ ∃ s, f.Reachable s ∧ h s = t := by
  refine ⟨?_, ?_⟩
  · rintro ⟨w, hp⟩
    rw [← H.start] at hp
    obtain ⟨s, hs, rfl⟩ := H.exists_path hf hf.start_lt hp
    exact ⟨s, ⟨w, hs⟩, rfl⟩
  · rintro ⟨s, ⟨w, hp⟩, rfl⟩
    have hp' := H.path_map hp
    rw [H.start] at hp'
    exact ⟨w, hp'⟩

/-- A state has entries for the same symbols under its new name. -/
theorem mem_edges_iff (H : Renaming f g h) (pf : f.ProperEdges) (pg : g.ProperEdges)
    (hs : s < f.size) : c ∈ (g.state (h s)).edges ↔ c ∈ (f.state s).edges := by
  have hproper : (f.state s).Proper := pf _ (mem_states_iff.2 ⟨s, hs, rfl⟩)
  have hproper' : (g.state (h s)).Proper := pg _ (mem_states_iff.2 ⟨h s, H.bijOn.mapsTo hs, rfl⟩)
  rw [hproper.mem_edges_iff, hproper'.mem_edges_iff]
  refine ⟨?_, ?_⟩
  · rintro ⟨t, ht⟩
    obtain ⟨t', he, -⟩ := (H.edge_iff s hs (some c) t).1 ht
    exact ⟨t', he⟩
  · rintro ⟨t, ht⟩
    exact ⟨h t, H.edge_map (e := some c) ht⟩

/-- **The alphabets are the same.** -/
theorem alphabet_eq (H : Renaming f g h) (hf : f.InArena) (hg : g.InArena) (pf : f.ProperEdges)
    (pg : g.ProperEdges) : f.alphabet = g.alphabet := by
  apply Std.ExtTreeSet.ext_mem
  intro c
  rw [hf.mem_alphabet_iff, hg.mem_alphabet_iff]
  refine ⟨?_, ?_⟩
  · rintro ⟨s, hs, hc⟩
    have hlt := hf.reachable_lt hs
    exact ⟨h s, (H.reachable_iff hf).2 ⟨s, hs, rfl⟩, (H.mem_edges_iff pf pg hlt).2 hc⟩
  · rintro ⟨t, ht, hc⟩
    obtain ⟨s, hs, rfl⟩ := (H.reachable_iff hf).1 ht
    exact ⟨s, hs, (H.mem_edges_iff pf pg (hf.reachable_lt hs)).1 hc⟩

/-! ### Numbers and labels -/

theorem sameNumber_right_unique (hf : f.InArena) (hm : f.SameNumber g h n m)
    (hk : f.SameNumber g h n k) : m = k := by
  obtain ⟨s, hs, hsm⟩ := hm
  obtain ⟨t, ht, htk⟩ := hk
  rw [hf.number_inj hs ht, htk] at hsm
  exact (Option.some.inj hsm).symm

theorem sameNumber_left_unique (H : Renaming f g h) (hf : f.InArena) (hg : g.InArena)
    (hn : f.SameNumber g h n m) (hk : f.SameNumber g h k m) : n = k := by
  obtain ⟨s, hs, hsm⟩ := hn
  obtain ⟨t, ht, htm⟩ := hk
  have hslt : s < f.size := hf.reachable_lt (hf.exists_number_iff.1 ⟨n, hs⟩)
  have htlt : t < f.size := hf.reachable_lt (hf.exists_number_iff.1 ⟨k, ht⟩)
  obtain rfl : s = t := H.bijOn.injOn hslt htlt (hg.number_inj hsm htm)
  rw [hs] at ht
  exact Option.some.inj ht

/-- **A label has one image and is the image of one label.** -/
theorem biUnique_sameLabel (H : Renaming f g h) (hf : f.InArena) (hg : g.InArena) :
    Relator.BiUnique (f.SameLabel g h) := by
  refine ⟨?_, ?_⟩
  · -- each member of one label comes with the member of the other that has the same image
    have hle : ∀ {a b c : Label}, f.SameLabel g h a c → f.SameLabel g h b c →
        ∀ n ∈ a.numbers, n ∈ b.numbers := by
      intro a b c hac hbc n hn
      obtain ⟨m, hm, hnm⟩ := hac.1 n hn
      obtain ⟨k, hk, hkm⟩ := hbc.2 m hm
      rwa [H.sameNumber_left_unique hf hg hnm hkm]
    intro a b c hac hbc
    exact Label.eq_of_mem_iff fun n => ⟨hle hac hbc n, hle hbc hac n⟩
  · have hle : ∀ {a b c : Label}, f.SameLabel g h a b → f.SameLabel g h a c →
        ∀ m ∈ b.numbers, m ∈ c.numbers := by
      intro a b c hab hac m hm
      obtain ⟨n, hn, hnm⟩ := hab.2 m hm
      obtain ⟨k, hk, hnk⟩ := hac.1 n hn
      rwa [sameNumber_right_unique hf hnm hnk]
    intro a b c hab hac
    exact Label.eq_of_mem_iff fun m => ⟨hle hab hac m, hle hac hab m⟩

theorem sameLabel_nil_iff (hl : f.SameLabel g h l l') : l.numbers = [] ↔ l'.numbers = [] := by
  rw [List.eq_nil_iff_forall_not_mem, List.eq_nil_iff_forall_not_mem]
  refine ⟨fun hno m hm => ?_, fun hno n hn => ?_⟩
  · obtain ⟨n, hn, -⟩ := hl.2 m hm
    exact hno n hn
  · obtain ⟨m, hm, -⟩ := hl.1 n hn
    exact hno m hm

/-- **The closures of a state and of its new name** are images of each other. -/
theorem sameLabel_label (H : Renaming f g h) (hf : f.InArena) (hg : g.InArena)
    (hnm : f.SameNumber g h n m) :
    f.SameLabel g h ((Table.ofNfa f).label n) ((Table.ofNfa g).label m) := by
  obtain ⟨s, hs, hsm⟩ := hnm
  have hlt : s < f.size := hf.reachable_lt (hf.exists_number_iff.1 ⟨n, hs⟩)
  refine ⟨fun k hk => ?_, fun k hk => ?_⟩
  · obtain ⟨t, hp, ht⟩ := (hf.mem_label_iff hs).1 hk
    obtain ⟨i, hi⟩ := H.exists_number hf hg ht
    exact ⟨i, (hg.mem_label_iff hsm).2 ⟨h t, H.path_map hp, hi⟩, t, ht, hi⟩
  · obtain ⟨t', hp, ht'⟩ := (hg.mem_label_iff hsm).1 hk
    obtain ⟨t, hpt, rfl⟩ := H.exists_path hf hlt hp
    obtain ⟨i, hi⟩ := hf.number_of_path_from hs hpt
    exact ⟨i, (hf.mem_label_iff hs).2 ⟨t, hpt, hi⟩, t, hi, ht'⟩

/-- **What images move to are images.** -/
theorem sameLabel_move (H : Renaming f g h) (hf : f.InArena) (hg : g.InArena)
    (hl : f.SameLabel g h l l') :
    f.SameLabel g h ((Table.ofNfa f).move l c) ((Table.ofNfa g).move l' c) := by
  refine ⟨fun k hk => ?_, fun k hk => ?_⟩
  · obtain ⟨n, hn, i, hi, hk⟩ := Table.mem_move_iff.1 hk
    obtain ⟨m, hm, s, hs, hsm⟩ := hl.1 n hn
    obtain ⟨t, ht, hti⟩ := (hf.mem_targets_iff hs).1 hi
    obtain ⟨j, hj⟩ := H.exists_number hf hg hti
    have htarget := (hg.mem_targets_iff hsm).2 ⟨h t, H.edge_map (e := some c) ht, hj⟩
    obtain ⟨k', hk', hsame⟩ := (H.sameLabel_label hf hg ⟨t, hti, hj⟩).1 k hk
    exact ⟨k', Table.mem_move_iff.2 ⟨m, hm, j, htarget, hk'⟩, hsame⟩
  · obtain ⟨m, hm, j, hj, hk⟩ := Table.mem_move_iff.1 hk
    obtain ⟨n, hn, s, hs, hsm⟩ := hl.2 m hm
    have hlt : s < f.size := hf.reachable_lt (hf.exists_number_iff.1 ⟨n, hs⟩)
    obtain ⟨t', ht', htj⟩ := (hg.mem_targets_iff hsm).1 hj
    obtain ⟨t, ht, rfl⟩ := (H.edge_iff s hlt (some c) t').1 ht'
    obtain ⟨i, hi⟩ := hf.number_of_path_from hs (Path.edge ht)
    have htarget := (hf.mem_targets_iff hs).2 ⟨t, ht, hi⟩
    obtain ⟨k', hk', hsame⟩ := (H.sameLabel_label hf hg ⟨t, hi, htj⟩).2 k hk
    exact ⟨k', Table.mem_move_iff.2 ⟨n, hn, i, htarget, hk'⟩, hsame⟩

/-- **Images have images as their successors**, in the same order. -/
theorem forall₂_successors (H : Renaming f g h) (hf : f.InArena) (hg : g.InArena)
    (pf : f.ProperEdges) (pg : g.ProperEdges) (hl : f.SameLabel g h l l') :
    List.Forall₂ (f.SameLabel g h) (((Table.ofNfa f).successors f.alphabet l).toList.map (·.2))
      (((Table.ofNfa g).successors g.alphabet l').toList.map (·.2)) := by
  rw [← H.alphabet_eq hf hg pf pg]
  refine forall₂_toList (fun c => ?_) fun c x x' hx hx' => ?_
  · rw [← Std.ExtTreeMap.isSome_getElem?_iff_mem, ← Std.ExtTreeMap.isSome_getElem?_iff_mem,
      Option.isSome_iff_exists, Option.isSome_iff_exists]
    simp only [Table.getElem?_successors, exists_eq_left]
    exact and_congr_right fun _ => not_congr (sameLabel_nil_iff (H.sameLabel_move hf hg hl))
  · obtain ⟨rfl, -, -⟩ := Table.getElem?_successors.1 hx
    obtain ⟨rfl, -, -⟩ := Table.getElem?_successors.1 hx'
    exact H.sameLabel_move hf hg hl

/-- Images have accepting members at the same time. -/
theorem accepts_eq (H : Renaming f g h) (hf : f.InArena) (hg : g.InArena)
    (af : f.AcceptsAtFinal) (ag : g.AcceptsAtFinal) (hl : f.SameLabel g h l l') :
    (Table.ofNfa f).accepts l = (Table.ofNfa g).accepts l' := by
  -- an accepting number is that of the final state, on either side
  have hfinal : ∀ n m, f.SameNumber g h n m →
      (n ∈ (Table.ofNfa f).accepting ↔ m ∈ (Table.ofNfa g).accepting) := by
    rintro n m ⟨s, hs, hsm⟩
    have hlt : s < f.size := hf.reachable_lt (hf.exists_number_iff.1 ⟨n, hs⟩)
    rw [hf.mem_accepting_iff hs, hg.mem_accepting_iff hsm, af, ag, ← H.final]
    exact ⟨fun hsf => by rw [hsf], fun hsf => H.bijOn.injOn hlt hf.final_lt hsf⟩
  unfold Table.accepts
  rw [Bool.eq_iff_iff, List.any_eq_true, List.any_eq_true]
  simp only [List.contains_iff_mem]
  refine ⟨?_, ?_⟩
  · rintro ⟨n, hn, hacc⟩
    obtain ⟨m, hm, hnm⟩ := hl.1 n hn
    exact ⟨m, hm, (hfinal n m hnm).1 hacc⟩
  · rintro ⟨m, hm, hacc⟩
    obtain ⟨n, hn, hnm⟩ := hl.2 m hm
    exact ⟨n, hn, (hfinal n m hnm).2 hacc⟩

/-! ### The two constructions -/

/-- **The constructions run in lockstep.** -/
theorem lockstep_subsets (H : Renaming f g h) (hf : f.InArena) (hg : g.InArena)
    (pf : f.ProperEdges) (pg : g.ProperEdges) :
    Lockstep (f.SameLabel g h) ((Table.ofNfa f).subsets f.alphabet none)
      ((Table.ofNfa g).subsets g.alphabet none) := by
  have hstart : f.SameNumber g h Table.start Table.start :=
    ⟨f.start, hf.number_start, by rw [H.start]; exact hg.number_start⟩
  exact lockstep_explore (H.biUnique_sameLabel hf hg)
    (fun _ _ hl => H.forall₂_successors hf hg pf pg hl) (H.sameLabel_label hf hg hstart)
    hf.overflow_subsets hg.overflow_subsets

theorem size_toDfa_eq (H : Renaming f g h) (hf : f.InArena) (hg : g.InArena) (pf : f.ProperEdges)
    (pg : g.ProperEdges) : f.toDfa.states.size = g.toDfa.states.size := by
  have hsf : f.toDfa.states.size = _ := Dfa.size_states_ofExploration
  have hsg : g.toDfa.states.size = _ := Dfa.size_states_ofExploration
  rw [hsf, hsg, (H.lockstep_subsets hf hg pf pg).size_eq]

/-- At every place, either the labels of the two constructions are images of each other, or neither
automaton has a state. -/
theorem labels_or_none (H : Renaming f g h) (hf : f.InArena) (hg : g.InArena) (pf : f.ProperEdges)
    (pg : g.ProperEdges) (q : Nat) :
    (∃ l l', ((Table.ofNfa f).subsets f.alphabet none).found[q]? = some l ∧
      ((Table.ofNfa g).subsets g.alphabet none).found[q]? = some l' ∧ f.SameLabel g h l l') ∨
    f.toDfa.states[q]? = none ∧ g.toDfa.states[q]? = none := by
  by_cases hq : q < f.toDfa.states.size
  · have hl := InArena.getElem?_found_subsets.2 ⟨hq, rfl⟩
    obtain ⟨l', hl', hsame⟩ := (H.lockstep_subsets hf hg pf pg).exists_found hl
    exact Or.inl ⟨_, l', hl, hl', hsame⟩
  · have hq' : ¬ q < g.toDfa.states.size := by rwa [← H.size_toDfa_eq hf hg pf pg]
    exact Or.inr ⟨Array.getElem?_eq_none (Nat.not_lt.1 hq),
      Array.getElem?_eq_none (Nat.not_lt.1 hq')⟩

/-- **Renamed automata have the same edges between subsets.** -/
theorem next?_toDfa_eq (H : Renaming f g h) (hf : f.InArena) (hg : g.InArena) (pf : f.ProperEdges)
    (pg : g.ProperEdges) (q : Nat) (c : Char) : f.toDfa.next? q c = g.toDfa.next? q c := by
  rcases H.labels_or_none hf hg pf pg q with ⟨l, l', hl, hl', hsame⟩ | ⟨hno, hno'⟩
  · have hmove : f.SameLabel g h ((Table.ofNfa f).move l c) ((Table.ofNfa g).move l' c) :=
      H.sameLabel_move hf hg hsame
    refine Option.ext fun r => ?_
    have hnf : f.toDfa.next? q c = some r ↔ _ := Dfa.next?_ofExploration hl
    have hng : g.toDfa.next? q c = some r ↔ _ := Dfa.next?_ofExploration hl'
    -- the labels moved are images, so they are found at the same place or are both empty
    rw [hnf, hng, (H.lockstep_subsets hf hg pf pg).index _ _ hmove, H.alphabet_eq hf hg pf pg]
    exact and_congr_right fun _ => and_congr_right fun _ => not_congr (sameLabel_nil_iff hmove)
  · unfold Dfa.next?
    rw [hno, hno']

theorem isAccepting_toDfa_eq (H : Renaming f g h) (hf : f.InArena) (hg : g.InArena)
    (pf : f.ProperEdges) (pg : g.ProperEdges) (af : f.AcceptsAtFinal) (ag : g.AcceptsAtFinal)
    (q : Nat) : f.toDfa.isAccepting q = g.toDfa.isAccepting q := by
  rcases H.labels_or_none hf hg pf pg q with ⟨l, l', hl, hl', hsame⟩ | ⟨hno, hno'⟩
  · have hnf : f.toDfa.isAccepting q = _ := Dfa.isAccepting_ofExploration hl
    have hng : g.toDfa.isAccepting q = _ := Dfa.isAccepting_ofExploration hl'
    rw [hnf, hng, H.accepts_eq hf hg af ag hsame]
  · unfold Dfa.isAccepting
    rw [hno, hno']

/-- The labels at one place are images of each other. -/
theorem sameLabel_toDfa (H : Renaming f g h) (hf : f.InArena) (hg : g.InArena)
    (pf : f.ProperEdges) (pg : g.ProperEdges) (q : Nat) :
    f.SameLabel g h (f.toDfa.label q) (g.toDfa.label q) := by
  rcases H.labels_or_none hf hg pf pg q with ⟨l, l', hl, hl', hsame⟩ | ⟨hno, hno'⟩
  · have hnf : f.toDfa.label q = l := Dfa.label_ofExploration hl
    have hng : g.toDfa.label q = l' := Dfa.label_ofExploration hl'
    rwa [hnf, hng]
  · unfold Dfa.label
    rw [hno, hno']
    exact ⟨fun n hn => absurd hn List.not_mem_nil, fun m hm => absurd hm List.not_mem_nil⟩

/-- **Renamed automata have the same deterministic automaton.** -/
theorem sameDfa (H : Renaming f g h) (hf : f.InArena) (hg : g.InArena) (pf : f.ProperEdges)
    (pg : g.ProperEdges) (af : f.AcceptsAtFinal) (ag : g.AcceptsAtFinal) : f.SameDfa g h where
  size_eq := H.size_toDfa_eq hf hg pf pg
  alphabet_eq := H.alphabet_eq hf hg pf pg
  next?_eq := H.next?_toDfa_eq hf hg pf pg
  isAccepting_eq := H.isAccepting_toDfa_eq hf hg pf pg af ag
  sameLabel := H.sameLabel_toDfa hf hg pf pg

end Renaming

/-- **The deterministic automaton does not depend on the names of the states.** Of two automata that
are alike, with their ids in their arenas, no symbol without a target and no accepting state but the
final one, the deterministic automata have as many states, the same edges and the same accepting
states, and labels that are images of each other. The automata of reordered expressions are alike in
this sense. -/
theorem toDfa_renaming :
    (∀ (f g : Nfa) (h : Nat → Nat), f.InArena → f.ProperEdges → f.AcceptsAtFinal →
      g.InArena → g.ProperEdges → g.AcceptsAtFinal → Renaming f g h → f.SameDfa g h) ∧
    ∀ d e : Expression, d.Reordered e →
      ∃ h, Renaming d.nfa e.nfa h ∧ d.nfa.SameDfa e.nfa h := by
  refine ⟨fun f g h hf pf af hg pg ag H => H.sameDfa hf hg pf pg af ag, fun d e hde => ?_⟩
  obtain ⟨h, k, hh, hk⟩ := hde.alike
  have wd := d.wellFormed_nfa
  have we := e.wellFormed_nfa
  have H : Renaming d.nfa e.nfa h := .of_embeds we.toInArena hh hk
  exact ⟨h, H, H.sameDfa wd.toInArena we.toInArena wd.properEdges we.properEdges
    wd.acceptsAtFinal we.acceptsAtFinal⟩

/-- The union of two symbols and the same union the other way round. -/
theorem toDfa_renaming_unionPair :
    (Renaming (Expression.unionPair (.char 'a') (.char 'b')).nfa
        (Expression.unionPair (.char 'b') (.char 'a')).nfa (extend 4 (exchange 2 2)) ∧
      (Expression.unionPair (.char 'a') (.char 'b')).nfa.SameDfa
        (Expression.unionPair (.char 'b') (.char 'a')).nfa (extend 4 (exchange 2 2))) ∧
    ∃ h, Renaming (Expression.unionPair (.char 'a') (.char 'b')).nfa
        (Expression.unionPair (.char 'b') (.char 'a')).nfa h ∧
      (Expression.unionPair (.char 'a') (.char 'b')).nfa.SameDfa
        (Expression.unionPair (.char 'b') (.char 'a')).nfa h := by
  have wab := (Expression.unionPair (.char 'a') (.char 'b')).wellFormed_nfa
  have wba := (Expression.unionPair (.char 'b') (.char 'a')).wellFormed_nfa
  have wa := (Expression.char 'a').wellFormed_nfa
  have wb := (Expression.char 'b').wellFormed_nfa
  have H : Renaming (Expression.unionPair (.char 'a') (.char 'b')).nfa
      (Expression.unionPair (.char 'b') (.char 'a')).nfa (extend 4 (exchange 2 2)) :=
    .of_embeds wba.toInArena (embeds_exchange wa wb) (embeds_exchange wb wa)
  exact ⟨⟨H, toDfa_renaming.1 _ _ _ wab.toInArena wab.properEdges wab.acceptsAtFinal
      wba.toInArena wba.properEdges wba.acceptsAtFinal H⟩,
    toDfa_renaming.2 _ _ (.swap (.char 'a') (.char 'b'))⟩

end Nfa

end Automata
