import Mathlib.Data.List.Forall2
import Automata.Checked.Dfa
import Automata.Proofs.Checked.Table
import Automata.Proofs.Dfa.Subset

/-!
# The subset construction stays inside its vectors

The construction over ids follows the exploration of labels. Where a label waits in one, its id
waits in the other, and an id that waits is that of a state.

* `Draft.Linked`: the edges of a state so far.
* `Draft.Follows`: what the draft and the exploration have in common. `Follows.add`,
  `Follows.link?` and `Follows.expand?` keep it, `Follows.run?` does so to the end.
* `InArena.dfa?_eq`: **the deterministic automaton is built without a look-up outside.**
* `Expression.stays_inside`: all operations together, for every constructible automaton.
-/

namespace Automata

open Search Exploration

namespace Draft

variable {t : Table} {alphabet : Alphabet} {bound id : Nat} {d d' : Draft} {e e' : Exploration Label}
variable {current : Option Nat} {part targets : List (Char × Label)} {m : SymbolMap Nat}
variable {p : Char × Label} {l : Label}

/-! ### Edges so far -/

/-- The edges `m` are those to the labels of a list, each on its symbol. -/
structure Linked (e : Exploration Label) (m : SymbolMap Nat) (part : List (Char × Label)) :
    Prop where
  edge : ∀ p ∈ part, ∃ r, m[p.1]? = some r ∧ e.index[p.2]? = some r
  mem : ∀ (c : Char) (r : Nat), m[c]? = some r → ∃ l, (c, l) ∈ part

theorem Linked.empty : Linked e ∅ [] where
  edge := fun _ hp => absurd hp List.not_mem_nil
  mem := fun c r h => by
    rw [Std.ExtTreeMap.getElem?_empty] at h
    exact absurd h (by simp)

/-- Edges stay where they are when further labels are found. -/
theorem Linked.mono (h : Linked e m part)
    (hindex : ∀ (l : Label) (r : Nat), e.index[l]? = some r → e'.index[l]? = some r) :
    Linked e' m part where
  edge := fun p hp => by
    obtain ⟨r, hm, hr⟩ := h.edge p hp
    exact ⟨r, hm, hindex _ _ hr⟩
  mem := h.mem

theorem Linked.insert {r : Nat} (h : Linked e m part) (hr : e.index[p.2]? = some r)
    (hnew : ∀ q ∈ part, q.1 ≠ p.1) : Linked e (m.insert p.1 r) (part ++ [p]) where
  edge := fun q hq => by
    rw [Std.ExtTreeMap.getElem?_insert]
    rcases List.mem_append.1 hq with hq | hq
    · rw [if_neg fun hc => hnew q hq (Std.LawfulEqCmp.eq_of_compare hc).symm]
      exact h.edge q hq
    · rw [List.mem_singleton.1 hq, if_pos Std.ReflCmp.compare_self]
      exact ⟨r, rfl, hr⟩
  mem := fun c s hs => by
    rw [Std.ExtTreeMap.getElem?_insert] at hs
    split at hs
    · next hc =>
      obtain rfl := Std.LawfulEqCmp.eq_of_compare hc
      exact ⟨p.2, List.mem_append.2 (Or.inr (List.mem_singleton.2 rfl))⟩
    · obtain ⟨l, hl⟩ := h.mem c s hs
      exact ⟨l, List.mem_append.2 (Or.inl hl)⟩

/-- **The edges to all labels of a map**, when each of them is found. -/
theorem Linked.eq_filterMap {labels : SymbolMap Label} (h : Linked e m labels.toList) :
    m = labels.filterMap fun _ l => e.index[l]? := by
  apply Std.ExtTreeMap.ext_getElem?
  intro c
  rw [Std.ExtTreeMap.getElem?_filterMap']
  cases hc : labels[c]? with
  | some l =>
    obtain ⟨r, hm, hr⟩ := h.edge (c, l) (Std.ExtTreeMap.mem_toList_iff_getElem?_eq_some.2 hc)
    rw [hm, Option.bind_some, hr]
  | none =>
    cases hm : m[c]? with
    | none => rfl
    | some r =>
      obtain ⟨l, hl⟩ := h.mem c r hm
      rw [Std.ExtTreeMap.mem_toList_iff_getElem?_eq_some.1 hl] at hc
      exact absurd hc (by simp)

/-! ### One state more -/

/-- What the edges of the state `i` with label `l` lead to so far: nothing while it waits, `part` if
it is the current one, and everything otherwise. -/
def progress (t : Table) (alphabet : Alphabet) (d : Draft) (current : Option Nat)
    (part : List (Char × Label)) (i : Nat) (l : Label) : List (Char × Label) :=
  if i ∈ d.work then [] else if current = some i then part else (t.successors alphabet l).toList

/-- **The draft follows the exploration**, while the edges of the current state are added. -/
structure Follows (t : Table) (alphabet : Alphabet) (d : Draft) (e : Exploration Label)
    (current : Option Nat) (part : List (Char × Label)) : Prop where
  labels : d.labels = e.found
  ids : d.ids = e.index
  overflow : d.overflow = false
  overflow' : e.overflow = false
  work : List.Forall₂ (fun i l => e.found[i]? = some l) d.work e.pending
  nodup : d.work.Nodup
  apart : ∀ i, current = some i → i < d.labels.size ∧ i ∉ d.work
  size : d.edges.size = d.labels.size
  linked : ∀ (i : Nat) (l : Label) (m : SymbolMap Nat), e.found[i]? = some l →
    d.edges[i]? = some m → Linked e m (progress t alphabet d current part i l)

theorem Follows.init (t : Table) (alphabet : Alphabet) : Follows t alphabet {} {} none [] where
  labels := rfl
  ids := rfl
  overflow := rfl
  overflow' := rfl
  work := .nil
  nodup := List.nodup_nil
  apart := fun _ h => absurd h (by simp)
  size := rfl
  linked := fun i l m hl _ => absurd hl (by simp)

/-- The ids that wait are ids of states. -/
theorem Follows.lt_of_mem_work (h : Follows t alphabet d e current part) {i : Nat}
    (hi : i ∈ d.work) : i < d.labels.size := by
  have hall : ∀ {w : List Nat} {q : List Label},
      List.Forall₂ (fun i l => e.found[i]? = some l) w q → ∀ i ∈ w, i < e.found.size := by
    intro w q hwq
    induction hwq with
    | nil => exact fun i hi => absurd hi List.not_mem_nil
    | cons hx _ ih =>
      intro i hi
      rcases List.mem_cons.1 hi with rfl | hi
      · exact (Array.getElem?_eq_some_iff.1 hx).1
      · exact ih i hi
  rw [h.labels]
  exact hall h.work i hi

/-- A known label keeps its id when a new one gets its own. -/
theorem index_insert {index : Std.HashMap Label Nat} {x : Label} {r i : Nat}
    (hl : index.contains l = false) (hx : index[x]? = some r) :
    (index.insert l i)[x]? = some r := by
  rw [Std.HashMap.getElem?_insert]
  split
  · next hlx =>
    rw [← beq_iff_eq.1 hlx, Std.HashMap.getElem?_eq_none (by
      rw [← Std.HashMap.contains_iff_mem, hl]; exact Bool.false_ne_true)] at hx
    exact absurd hx (by simp)
  · exact hx

/-- **A new state waits and has no edges yet.** -/
theorem Follows.push (h : Follows t alphabet d e current part)
    (hc : e.index.contains l = false) :
    Follows t alphabet
      { d with
        labels := d.labels.push l
        edges := d.edges.push ∅
        ids := d.ids.insert l d.labels.size
        work := d.labels.size :: d.work }
      { e with
        found := e.found.push l
        index := e.index.insert l e.found.size
        pending := l :: e.pending } current part where
  labels := by rw [h.labels]
  ids := by rw [h.ids, h.labels]
  overflow := h.overflow
  overflow' := h.overflow'
  work := by
    refine .cons ?_ (h.work.imp fun _ _ hx => getElem?_push_of_eq_some hx)
    rw [h.labels, Array.getElem?_push_size]
  nodup := List.nodup_cons.2 ⟨fun hm => Nat.lt_irrefl _ (h.lt_of_mem_work hm), h.nodup⟩
  apart := by
    intro i hi
    obtain ⟨hlt, hno⟩ := h.apart i hi
    refine ⟨by rw [Array.size_push]; omega, fun hm => ?_⟩
    rcases List.mem_cons.1 hm with rfl | hm
    · exact Nat.lt_irrefl _ hlt
    · exact hno hm
  size := by rw [Array.size_push, Array.size_push, h.size]
  linked := by
    intro i x m hx hm
    by_cases hi : i = d.labels.size
    · -- the new state
      have hwaits : i ∈ d.labels.size :: d.work := by rw [hi]; exact List.mem_cons_self
      rw [hi, ← h.size, Array.getElem?_push_size] at hm
      obtain rfl := Option.some.inj hm
      unfold progress
      rw [if_pos hwaits]
      exact Linked.empty
    · have hx' : e.found[i]? = some x := by
        rwa [Array.getElem?_push, if_neg (by rwa [← h.labels])] at hx
      have hm' : d.edges[i]? = some m := by
        rwa [Array.getElem?_push, if_neg (by rwa [h.size])] at hm
      have hwaits : i ∈ d.labels.size :: d.work ↔ i ∈ d.work := by
        rw [List.mem_cons, or_iff_right hi]
      have hlinked := h.linked i x m hx' hm'
      unfold progress at hlinked ⊢
      simp only [hwaits]
      exact hlinked.mono fun _ _ hr => index_insert hc hr

/-- **Adding a state follows a discovery**, or there is a state too many in both. -/
theorem Follows.add (h : Follows t alphabet d e current part) (bound : Nat) (l : Label) :
    ((e.discover bound l).overflow = true ∧ (d.add bound l).overflow = true) ∨
      Follows t alphabet (d.add bound l) (e.discover bound l) current part := by
  unfold Draft.add
  rw [h.ids, h.labels, h.overflow]
  by_cases hc : e.index.contains l = true
  · rw [discover_of_contains hc, hc, if_pos (by decide)]
    exact Or.inr h
  rw [Bool.not_eq_true] at hc
  rw [hc, if_neg (by decide)]
  by_cases hlt : e.found.size < bound
  · rw [discover_of_lt h.overflow' hc hlt, if_pos hlt]
    have hpush := h.push hc
    rw [h.ids, h.labels, h.overflow] at hpush
    exact Or.inr hpush
  · rw [discover_of_ge h.overflow' hc hlt, if_neg hlt]
    exact Or.inl ⟨rfl, rfl⟩

/-! ### One edge more -/

/-- **An edge of the current state** leads to a known label. -/
theorem Follows.connect? (h : Follows t alphabet d e (some id) part) {r : Nat}
    (hr : e.index[p.2]? = some r) (hnew : ∀ q ∈ part, q.1 ≠ p.1) :
    ∃ d', d.connect? id p = some d' ∧ Follows t alphabet d' e (some id) (part ++ [p]) := by
  obtain ⟨hlt, hno⟩ := h.apart id rfl
  have hd : d.connect? id p = some { d with edges := d.edges.modify id (·.insert p.1 r) } := by
    unfold Draft.connect?
    rw [h.ids, hr, Option.bind_eq_bind, Option.bind_some]
    exact checked_of_lt (by rwa [h.size])
  refine ⟨_, hd, h.labels, h.ids, h.overflow, h.overflow', h.work, h.nodup, h.apart, ?_, ?_⟩
  · rw [Array.size_modify, h.size]
  · intro i x m hx hm
    rw [Array.getElem?_modify] at hm
    by_cases hi : id = i
    · subst hi
      rw [if_pos rfl] at hm
      obtain ⟨m₀, hm₀, rfl⟩ := Option.map_eq_some_iff.1 hm
      have hlinked := h.linked id x m₀ hx hm₀
      unfold progress at hlinked ⊢
      rw [if_neg hno, if_pos rfl] at hlinked ⊢
      exact hlinked.insert hr hnew
    · rw [if_neg hi] at hm
      have hlinked := h.linked i x m hx hm
      have hcurrent : ¬ some id = some i := fun h => hi (Option.some.inj h)
      unfold progress at hlinked ⊢
      rwa [if_neg hcurrent] at hlinked ⊢

theorem link?_of_overflow (h : d.overflow = true) : d.link? bound id p = some d := by
  have hadd : d.add bound p.2 = d := by
    unfold Draft.add
    rw [h, Bool.true_or, if_pos rfl]
  unfold Draft.link?
  rw [hadd, if_pos h]

theorem foldlM_link?_of_overflow (h : d.overflow = true) :
    targets.foldlM (link? bound id) d = some d := by
  induction targets with
  | nil => rfl
  | cons p targets ih =>
    rw [List.foldlM_cons, link?_of_overflow h, Option.bind_eq_bind, Option.bind_some, ih]

/-- A label that has been discovered has an id. -/
theorem exists_index_discover (ho : (e.discover bound l).overflow = false) :
    ∃ r, (e.discover bound l).index[l]? = some r := by
  rcases discover_cases ho with ⟨hc, he⟩ | ⟨-, he⟩
  · rw [he]
    exact Option.isSome_iff_exists.1 (by rw [Std.HashMap.isSome_getElem?_eq_contains, hc])
  · rw [he]
    exact ⟨_, Std.HashMap.getElem?_insert_self⟩

/-- **One edge more follows one discovery.** -/
theorem Follows.link? (h : Follows t alphabet d e (some id) part) (bound : Nat)
    (hnew : ∀ q ∈ part, q.1 ≠ p.1) :
    ∃ d', d.link? bound id p = some d' ∧
      (((e.discover bound p.2).overflow = true ∧ d'.overflow = true) ∨
        Follows t alphabet d' (e.discover bound p.2) (some id) (part ++ [p])) := by
  unfold Draft.link?
  rcases h.add bound p.2 with ⟨ho, ho'⟩ | hadd
  · rw [if_pos ho']
    exact ⟨_, rfl, Or.inl ⟨ho, ho'⟩⟩
  · rw [hadd.overflow, if_neg Bool.false_ne_true]
    obtain ⟨r, hr⟩ := exists_index_discover hadd.overflow'
    obtain ⟨d', hd', hfollows⟩ := hadd.connect? hr hnew
    exact ⟨d', hd', Or.inr hfollows⟩

theorem overflow_foldl_discover {labels : List Label} (h : e.overflow = true) :
    (labels.foldl (discover bound) e).overflow = true := by
  by_contra ho
  rw [Bool.not_eq_true] at ho
  rw [overflow_of_foldl_discover ho] at h
  exact absurd h Bool.false_ne_true

/-- **All edges of a state follow its expansion**, on the induction that `part` are there. -/
theorem Follows.foldlM (h : Follows t alphabet d e (some id) part) (bound : Nat)
    (hdistinct : (part ++ targets).Pairwise fun p q => p.1 ≠ q.1) :
    ∃ d', targets.foldlM (Draft.link? bound id) d = some d' ∧
      ((((targets.map (·.2)).foldl (discover bound) e).overflow = true ∧ d'.overflow = true) ∨
        Follows t alphabet d' ((targets.map (·.2)).foldl (discover bound) e) (some id)
          (part ++ targets)) := by
  induction targets generalizing d e part with
  | nil => exact ⟨d, rfl, Or.inr (by rwa [List.append_nil])⟩
  | cons p targets ih =>
    have hnew : ∀ q ∈ part, q.1 ≠ p.1 := fun q hq =>
      (List.pairwise_append.1 hdistinct).2.2 q hq p List.mem_cons_self
    obtain ⟨d₁, hd₁, hcase⟩ := h.link? bound hnew
    rw [List.foldlM_cons, hd₁, Option.bind_eq_bind, Option.bind_some, List.map_cons,
      List.foldl_cons]
    rcases hcase with ⟨ho, ho'⟩ | hfollows
    · exact ⟨d₁, foldlM_link?_of_overflow ho', Or.inl ⟨overflow_foldl_discover ho, ho'⟩⟩
    · have hassoc : part ++ p :: targets = part ++ [p] ++ targets := by
        rw [List.append_assoc, List.singleton_append]
      rw [hassoc] at hdistinct ⊢
      exact ih hfollows hdistinct

/-! ### One expansion, and the loop -/

/-- **A state that is taken from the work list** becomes the current one, without edges yet. -/
theorem Follows.pop (h : Follows t alphabet d e none []) {work : List Nat} {x : Label}
    {pending : List Label} (expanded : Array Label) (hw : d.work = id :: work)
    (hp : e.pending = x :: pending) :
    e.found[id]? = some x ∧
      Follows t alphabet { d with work } { e with pending, expanded } (some id) [] := by
  have hboth := h.work
  rw [hw, hp] at hboth
  obtain ⟨hx, hrest⟩ := List.forall₂_cons.1 hboth
  have hnodup := h.nodup
  rw [hw] at hnodup
  obtain ⟨hno, hnodup⟩ := List.nodup_cons.1 hnodup
  have hlt : id < d.labels.size := h.lt_of_mem_work (by rw [hw]; exact List.mem_cons_self)
  refine ⟨hx, h.labels, h.ids, h.overflow, h.overflow', hrest, hnodup, ?_, h.size, ?_⟩
  · intro i hi
    obtain rfl := Option.some.inj hi
    exact ⟨hlt, hno⟩
  · intro i y m hy hm
    have hlinked := h.linked i y m hy hm
    unfold progress at hlinked ⊢
    rw [hw] at hlinked
    by_cases hi : i = id
    · subst hi
      rw [if_pos List.mem_cons_self] at hlinked
      rw [if_neg hno, if_pos rfl]
      exact hlinked.mono fun _ _ hr => hr
    · have hcurrent : ¬ some id = some i := fun h => hi (Option.some.inj h).symm
      have hmem : i ∈ id :: work ↔ i ∈ work := by rw [List.mem_cons, or_iff_right hi]
      rw [if_neg (by simp : ¬ (none : Option Nat) = some i)] at hlinked
      rw [if_neg hcurrent]
      simp only [hmem] at hlinked
      exact hlinked.mono fun _ _ hr => hr

/-- **When all its edges are there**, a state is no longer the current one. -/
theorem Follows.finish {x : Label}
    (h : Follows t alphabet d e (some id) (t.successors alphabet x).toList)
    (hx : e.found[id]? = some x) : Follows t alphabet d e none [] where
  labels := h.labels
  ids := h.ids
  overflow := h.overflow
  overflow' := h.overflow'
  work := h.work
  nodup := h.nodup
  apart := fun _ hi => absurd hi (by simp)
  size := h.size
  linked := by
    intro i y m hy hm
    have hlinked := h.linked i y m hy hm
    unfold progress at hlinked ⊢
    rw [if_neg (by simp : ¬ (none : Option Nat) = some i)]
    by_cases hi : id = i
    · subst hi
      rw [hx] at hy
      obtain rfl := Option.some.inj hy
      rwa [if_pos rfl] at hlinked
    · rwa [if_neg fun h => hi (Option.some.inj h)] at hlinked

/-- The labels that a label leads to, in the order of the symbols. -/
def next (t : Table) (alphabet : Alphabet) (l : Label) : List Label :=
  (t.successors alphabet l).toList.map (·.2)

/-- **The edges of a state that has waited follow the expansion of its label.** -/
theorem Follows.expand? (h : Follows t alphabet d e none []) (bound : Nat) {x : Label}
    {pending : List Label} (hp : e.pending = x :: pending) :
    ∃ id work d', d.work = id :: work ∧ d.expand? t alphabet bound id work = some d' ∧
      (((e.expand (next t alphabet) bound x pending).overflow = true ∧ d'.overflow = true) ∨
        Follows t alphabet d' (e.expand (next t alphabet) bound x pending) none []) := by
  have hboth := h.work
  rw [hp] at hboth
  obtain ⟨id, work, -, -, hw⟩ := List.forall₂_cons_right_iff.1 hboth
  obtain ⟨hx, hpop⟩ := h.pop (e.expanded.push x) hw hp
  have hdistinct : ([] ++ (t.successors alphabet x).toList).Pairwise
      fun (p q : Char × Label) => p.1 ≠ q.1 :=
    Std.ExtTreeMap.distinct_keys_toList.imp Std.ReflCmp.ne_of_cmp_ne_eq
  obtain ⟨d', hd', hcase⟩ := hpop.foldlM bound hdistinct
  refine ⟨id, work, d', hw, ?_, hcase.imp_right fun hfollows => ?_⟩
  · have hl : d.labels[id]? = some x := by rw [h.labels]; exact hx
    unfold Draft.expand?
    rw [hl, Option.bind_eq_bind, Option.bind_some, hd']
  · exact hfollows.finish (getElem?_found_foldl_discover hx)

theorem run?_of_overflow (h : d.overflow = true) : d.run? t alphabet bound = some d := by
  rw [run?, if_pos h]

theorem run?_of_nil (h : d.work = []) : d.run? t alphabet bound = some d := by
  rw [run?]
  split
  · rfl
  · split
    · rfl
    · next hw => rw [h] at hw; exact absurd hw (by simp)

theorem run?_of_cons {work : List Nat} (ho : d.overflow = false) (hw : d.work = id :: work)
    (hd : d.expand? t alphabet bound id work = some d') :
    d.run? t alphabet bound = d'.run? t alphabet bound := by
  rw [run?, if_neg (by rw [ho]; exact Bool.false_ne_true)]
  split
  · next hw' => rw [hw] at hw'; exact absurd hw' (by simp)
  · next hw' =>
    rw [hw] at hw'
    cases hw'
    split
    · next hno => rw [hd] at hno; exact absurd hno (by simp)
    · next hd' =>
      rw [hd] at hd'
      cases hd'
      rfl

/-- **The work list follows the exploration to its end.** -/
theorem Follows.run? (h : Follows t alphabet d e none []) :
    ∃ d', d.run? t alphabet bound = some d' ∧
      (((e.run (next t alphabet) bound).overflow = true ∧ d'.overflow = true) ∨
        Follows t alphabet d' (e.run (next t alphabet) bound) none [] ∧ d'.work = []) := by
  induction e using run_induction (next t alphabet) bound generalizing d with
  | stopped e ho =>
    rw [h.overflow'] at ho
    exact absurd ho Bool.false_ne_true
  | done e ho hp =>
    have hboth := h.work
    rw [hp] at hboth
    have hw := List.forall₂_nil_right_iff.1 hboth
    rw [run_of_nil hp]
    exact ⟨d, run?_of_nil hw, Or.inr ⟨h, hw⟩⟩
  | step e x pending ho hp ih =>
    obtain ⟨id, work, d₁, hw, hd₁, hcase⟩ := h.expand? bound hp
    rw [run_of_cons h.overflow' hp, run?_of_cons h.overflow hw hd₁]
    rcases hcase with ⟨hov, hov'⟩ | hfollows
    · rw [run_of_overflow hov]
      exact ⟨d₁, run?_of_overflow hov', Or.inl ⟨hov, hov'⟩⟩
    · exact ih hfollows

/-- **The automaton drafted** is that of the labels found. -/
theorem Follows.toDfa_eq (h : Follows t alphabet d e none []) (hw : d.work = []) :
    d.toDfa t alphabet = Dfa.ofExploration t alphabet e := by
  have hstates : (d.toDfa t alphabet).states = (Dfa.ofExploration t alphabet e).states := by
    apply Array.ext_getElem?
    intro i
    have hdraft : (d.toDfa t alphabet).states[i]? = (d.labels.zip d.edges)[i]?.map fun p =>
        { id := i, label := p.1, accepting := t.accepts p.1, edges := p.2 } :=
      Array.getElem?_mapIdx
    rw [hdraft, Dfa.getElem?_states_ofExploration, ← h.labels]
    by_cases hi : i < d.labels.size
    · have hl : d.labels[i]? = some d.labels[i] := Array.getElem?_eq_getElem hi
      have hi' : i < d.edges.size := by rwa [h.size]
      have hm : d.edges[i]? = some d.edges[i] := Array.getElem?_eq_getElem hi'
      have hlinked := h.linked i _ _ (by rw [← h.labels]; exact hl) hm
      unfold progress at hlinked
      rw [hw, if_neg List.not_mem_nil, if_neg (by simp)] at hlinked
      have hzip : (d.labels.zip d.edges)[i]? = some (d.labels[i], d.edges[i]) :=
        Array.getElem?_zip_eq_some.2 ⟨hl, hm⟩
      rw [hzip, hl, Option.map_some, Option.map_some, hlinked.eq_filterMap]
    · have hno : ¬ i < (d.labels.zip d.edges).size := by
        rw [Array.size_zip, h.size, Nat.min_self]
        exact hi
      rw [Array.getElem?_eq_none (Nat.not_lt.1 hno), Array.getElem?_eq_none (Nat.not_lt.1 hi)]
      rfl
  unfold toDfa Dfa.ofExploration at hstates ⊢
  rw [Dfa.mk.injEq]
  exact ⟨hstates, rfl, h.ids⟩

end Draft

/-- **The construction over ids makes no look-up outside.** -/
theorem Table.construct?_eq {t : Table} {alphabet : Alphabet} {limit : Option Nat}
    (ho : limit = none → (t.subsets alphabet none).overflow = false) :
    t.construct? alphabet limit =
      some (Dfa.ofSubsets t alphabet limit (t.subsets alphabet limit)) := by
  have hrun : ∃ d, (Draft.add (limit.getD (Nat.pow 2 t.size)) {} t.startLabel).run? t alphabet
      (limit.getD (Nat.pow 2 t.size)) = some d ∧
      (((t.subsets alphabet limit).overflow = true ∧ d.overflow = true) ∨
        Draft.Follows t alphabet d (t.subsets alphabet limit) none [] ∧ d.work = []) := by
    rcases (Draft.Follows.init t alphabet).add (limit.getD (Nat.pow 2 t.size)) t.startLabel with
      ⟨hov, hov'⟩ | hfollows
    · have hsubsets : t.subsets alphabet limit = Exploration.discover
          (limit.getD (Nat.pow 2 t.size)) {} t.startLabel := run_of_overflow hov
      rw [hsubsets]
      exact ⟨_, Draft.run?_of_overflow hov', Or.inl ⟨hov, hov'⟩⟩
    · exact hfollows.run?
  obtain ⟨d, hd, hcase⟩ := hrun
  unfold construct? Dfa.ofSubsets
  simp only [hd, Option.bind_eq_bind, Option.bind_some]
  rcases hcase with ⟨hov, hov'⟩ | ⟨hfollows, hw⟩
  · -- a state too many, which there is only with a limit
    cases limit with
    | none =>
      rw [ho rfl] at hov
      exact absurd hov Bool.false_ne_true
    | some limit =>
      rw [hov, hov']
      rfl
  · rw [hfollows.overflow, hfollows.overflow', hfollows.toDfa_eq hw]
    rfl

/-- **The deterministic automaton is built without a look-up outside**, from the table on. -/
theorem Nfa.InArena.dfa?_eq {g : Nfa} (hg : g.InArena) (limit : Option Nat) :
    g.dfa? limit = some (Dfa.ofSubsets (.ofNfa g) g.alphabet limit
      ((Table.ofNfa g).subsets g.alphabet limit)) := by
  unfold dfa?
  rw [hg.table?_eq, hg.alphabet?_eq]
  exact Table.construct?_eq fun _ => hg.overflow_subsets

/-- **Constructible automata are well-formed, and nothing is looked up outside a vector** while one
of them is built, whatever the operations, or while it is asked for a state of its arena, for the
closure of one, for its alphabet, its table, whether it accepts a word, or its deterministic
automaton: every checked operation has a result, which is that of the operation itself. -/
theorem Expression.stays_inside (e : Expression) :
    e.nfa.WellFormed ∧ e.nfa? = some e.nfa ∧
    (∀ id, id < e.nfa.size →
      e.nfa.state? id = some (e.nfa.state id) ∧ e.nfa.closure? id = some (e.nfa.closure id)) ∧
    e.nfa.alphabet? = some e.nfa.alphabet ∧ e.nfa.table? = some (.ofNfa e.nfa) ∧
    (∀ w, e.nfa.accepts? w = some (e.nfa.accepts w)) ∧
    e.nfa.dfa? none = some (.ok e.nfa.toDfa) ∧
    ∀ limit, e.nfa.dfa? (some limit) = some (e.nfa.toDfaWithin limit) := by
  have hw := e.wellFormed_nfa
  have hg := hw.toInArena
  refine ⟨hw, e.nfa?_eq, fun id hid => ⟨Nfa.state?_of_lt hid, hg.closure?_eq hid⟩, hg.alphabet?_eq,
    hg.table?_eq, hg.accepts?_eq, hg.dfa?_eq none, fun limit => hg.dfa?_eq (some limit)⟩

/-- The final state of a repetition leads back into it. -/
theorem Expression.stays_inside_star :
    3 < (star (char 'a')).nfa.size ∧
    (star (char 'a')).nfa.closure? 3 = some ((star (char 'a')).nfa.closure 3) := by
  have hlt : 3 < (star (char 'a')).nfa.size := by decide
  exact ⟨hlt, ((star (char 'a')).stays_inside.2.2.1 3 hlt).2⟩

end Automata
