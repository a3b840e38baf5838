import Automata.Proofs.Dfa.Limit
import Automata.Proofs.Dfa.Termination
import Automata.Proofs.Dfa.Views
import Automata.Proofs.Fragment.Coherent
import Automata.Session.History

/-!
# What a fragment reports

A fragment reports what it builds: its table, unless that is known, and the labels that the subset
construction finds. All of it is said of the lines that the events are written as.

* `Table.events_ofNfa`: the lines of a table that is built.
* `InArena.discoveries_subsets_none`, `InArena.discoveries_subsets_some`: **the lines of the subset
  construction** without a limit, and under a limit that is exceeded.
* `isSome_table_table`, `isSome_table_dfa`: **what the two queries leave known.**
* `Coherent.events_table`, `Coherent.events_dfa`: **the lines that they report** of a fragment that
  knows nothing wrong.
-/

namespace Automata

open Search

/-- A table reports the states of its rows in the order of their numbers, and its size. -/
theorem Table.events_ofNfa (g : Nfa) : (Table.ofNfa g).events.map Event.text = g.tableReport := by
  unfold Table.events Nfa.tableReport
  rw [List.map_append]
  refine congrArg₂ (· ++ ·) (List.ext_getElem? fun i => ?_) rfl
  rw [List.getElem?_map, Array.getElem?_toList, Array.getElem?_mapIdx, List.getElem?_map,
    List.getElem?_zipIdx, Array.getElem?_toList, Option.map_map, Option.map_map]
  refine Option.map_congr fun row _ => ?_
  rw [Function.comp_apply, Function.comp_apply, Nat.add_comm]
  rfl

namespace Dfa

variable {d : Dfa} {e : Exploration Label} {count : Nat}

/-- The sizes are reported as they are counted. -/
theorem text_summary : d.summary.text = d.completion := by
  have hcount : (List.range d.states.size).countP d.isAccepting =
      d.states.toList.countP (·.accepting) := countP_range_any_getElem? d.states (·.accepting)
  unfold completion summary acceptingCount
  rw [hcount, Array.countP_toList]
  rfl

/-- **What is found is reported** as the first states, if it is their labels. -/
theorem discoveries_eq_additions (hsize : e.found.size = count)
    (hfound : ∀ id < count, e.found[id]? = some (d.label id)) :
    (discoveries e).map Event.text = d.additions count := by
  unfold discoveries additions
  refine List.ext_getElem (by simp [hsize]) fun id hid _ => ?_
  have hlt : id < count := by simpa [hsize] using hid
  obtain ⟨hid', hlabel⟩ := Array.getElem?_eq_some_iff.1 (hfound id hlt)
  rw [List.getElem_map, Array.getElem_toList, Array.getElem_mapIdx, hlabel, List.getElem_map,
    List.getElem_range]
  rfl

end Dfa

namespace Nfa.InArena

variable {g : Nfa}

/-- **Without a limit, all states are reported.** -/
theorem discoveries_subsets_none :
    (Dfa.discoveries ((Table.ofNfa g).subsets g.alphabet none)).map Event.text =
      g.toDfa.additions g.toDfa.states.size :=
  Dfa.discoveries_eq_additions Dfa.size_states_ofExploration.symm fun _ hid =>
    getElem?_found_subsets.2 ⟨hid, rfl⟩

/-- **Under a limit that is exceeded, the first states are reported**, as many as it allows. -/
theorem discoveries_subsets_some (hg : g.InArena) {limit : Nat}
    (hlt : limit < g.toDfa.states.size) :
    (Dfa.discoveries ((Table.ofNfa g).subsets g.alphabet (some limit))).map Event.text =
      g.toDfa.additions limit := by
  have htake : ((Table.ofNfa g).subsets g.alphabet (some limit)).found.toList =
      ((Table.ofNfa g).subsets g.alphabet none).found.toList.take limit :=
    toList_found_explore hg.overflow_subsets
  have hsize : ((Table.ofNfa g).subsets g.alphabet (some limit)).found.size = limit := by
    rw [← Array.length_toList, htake, toList_found_subsets, List.length_take, List.length_map,
      Array.length_toList]
    exact Nat.min_eq_left (Nat.le_of_lt hlt)
  refine Dfa.discoveries_eq_additions hsize fun id hid => ?_
  rw [← Array.getElem?_toList, htake, List.getElem?_take_of_lt hid, Array.getElem?_toList]
  exact getElem?_found_subsets.2 ⟨Nat.lt_trans hid hlt, rfl⟩

end Nfa.InArena

namespace Fragment

variable {f : Fragment}

/-- After a request for the table, it is known. -/
theorem isSome_table_table : f.table.fragment.memo.table.isSome = true := by
  unfold Fragment.table
  split
  · next ht => rw [ht]; rfl
  · rfl

/-- So it is after a construction, whatever becomes of that. -/
theorem isSome_table_dfa {limit : Option Nat} :
    (f.dfa limit).fragment.memo.table.isSome = true := isSome_table_table (f := f)

namespace Coherent

/-- **A table is reported when it is built**, which it is if it is not known. -/
theorem events_table (h : f.Coherent) :
    f.table.events.map Event.text = f.nfa.requestReport f.memo.table.isSome := by
  cases ht : f.memo.table with
  | some t =>
    unfold Fragment.table
    rw [ht]
    rfl
  | none =>
    have hvalue : f.table.events = f.table.value.events := by
      unfold Fragment.table
      rw [ht]
    rw [hvalue, h.isFresh_table.value, Table.events_ofNfa]
    rfl

theorem value_alphabet_table (h : f.Coherent) :
    f.table.fragment.alphabet.value = f.nfa.alphabet := by
  rw [h.isFresh_table.coherent.isFresh_alphabet.value, h.isFresh_table.nfa]

/-- What is reported of a deterministic automaton that is built. -/
theorem events_dfa_of_ok (h : f.Coherent) {limit : Option Nat} {d : Dfa}
    (hd : (f.dfa limit).value = .ok d) :
    (f.dfa limit).events.map Event.text = f.nfa.requestReport f.memo.table.isSome ++
      ((Dfa.discoveries ((Table.ofNfa f.nfa).subsets f.nfa.alphabet limit)).map Event.text ++
        [d.completion]) := by
  rw [(h.isFresh_dfa limit).value] at hd
  unfold Fragment.dfa
  simp only [h.isFresh_table.value, h.value_alphabet_table, hd, List.map_append, List.map_cons,
    List.map_nil, h.events_table, Dfa.text_summary, List.append_assoc]

/-- What is reported of one that is not. -/
theorem events_dfa_of_error (h : f.Coherent) {limit : Option Nat} {e : Error}
    (he : (f.dfa limit).value = .error e) :
    (f.dfa limit).events.map Event.text = f.nfa.requestReport f.memo.table.isSome ++
      (Dfa.discoveries ((Table.ofNfa f.nfa).subsets f.nfa.alphabet limit)).map Event.text := by
  rw [(h.isFresh_dfa limit).value] at he
  unfold Fragment.dfa
  simp only [h.isFresh_table.value, h.value_alphabet_table, he, List.append_nil, List.map_append,
    h.events_table]

/-- **A deterministic automaton is reported after its table**: all its states and its sizes, or the
first states, as many as the limit allows. -/
theorem events_dfa (h : f.Coherent) (hg : f.nfa.InArena) (limit : Option Nat) :
    (f.dfa limit).events.map Event.text =
      f.nfa.requestReport f.memo.table.isSome ++ f.nfa.dfaReport limit := by
  have hvalue := (h.isFresh_dfa limit).value
  cases limit with
  | none =>
    have hd : (f.dfa none).value = .ok f.nfa.toDfa := hvalue
    rw [h.events_dfa_of_ok hd, Nfa.InArena.discoveries_subsets_none]
    rfl
  | some limit =>
    have hwithin : (f.dfa (some limit)).value = f.nfa.toDfaWithin limit := hvalue
    rw [hg.toDfaWithin_eq limit] at hwithin
    simp only [Nfa.dfaReport]
    by_cases hle : f.nfa.toDfa.states.size ≤ limit
    · rw [if_pos hle] at hwithin ⊢
      rw [h.events_dfa_of_ok hwithin, hg.subsets_some_of_le hle,
        Nfa.InArena.discoveries_subsets_none]
    · rw [if_neg hle] at hwithin ⊢
      rw [h.events_dfa_of_error hwithin, hg.discoveries_subsets_some (Nat.not_le.1 hle)]

end Coherent

end Fragment

end Automata
