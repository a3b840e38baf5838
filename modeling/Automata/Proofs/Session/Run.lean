import Automata.Proofs.Session.Query

/-!
# No session learns anything wrong

* `alike_step`, `answer_step`, `register_step`: **one step** of two sessions that differ in what they
  know.
* `alike_run`, `register_run`: **whole runs**, the second one with queries deleted.
* `run_coherent`: **whatever a session does, it knows nothing wrong**, and what it knows is never seen.
-/

namespace Automata.Session

variable {s s' : Session} {q : Query} {c : Command}

/-! ### Steps -/

/-- **A construction** answers the same and leaves the same automata, whatever is known. -/
theorem construct_congr (step : Construction) (h : s.Alike s') :
    (s.construct step).answer = (s'.construct step).answer ∧
      (s.construct step).session.Alike (s'.construct step).session := by
  have hr := Construction.related_apply Fragment.respected_alike h step
  unfold construct
  generalize step.apply s.stack = r at hr ⊢
  generalize step.apply s'.stack = r' at hr ⊢
  cases hr with
  | error r => exact ⟨rfl, h⟩
  | @ok built built' hbuilt =>
    obtain ⟨stack, events⟩ := built
    obtain ⟨stack', events'⟩ := built'
    cases hbuilt with
    | nil => exact ⟨rfl, h⟩
    | cons htop hrest =>
      simp only [htop.nfa, true_and]
      exact .cons htop hrest

theorem register_construct {step : Construction} :
    (s.construct step).session.register = s.register := by
  unfold construct
  split
  · split <;> rfl
  · rfl

/-- **Every step keeps two sessions alike.** -/
theorem alike_step (h : s.Alike s') (c : Command) :
    (s.step c).session.Alike (s'.step c).session := by
  cases c with
  | construct step => exact (construct_congr step h).2
  | query q =>
    cases hq : q.isDrop with
    | false => exact (alike_query (alike_query h hq).symm hq).symm
    | true =>
      cases q with
      | drop => exact alike_drop h
      | _ => exact absurd hq (by simp [Query.isDrop])

theorem answer_step (h : s.Alike s') (hc : c.readsRegister = false) :
    (s.step c).answer = (s'.step c).answer := by
  cases c with
  | construct step => exact (construct_congr step h).1
  | query q => exact answer_query h hc

/-- With the same register, every step answers the same. -/
theorem answer_step_of_register (h : s.Alike s') (hreg : s.register = s'.register) (c : Command) :
    (s.step c).answer = (s'.step c).answer := by
  cases c with
  | construct step => exact (construct_congr step h).1
  | query q =>
    cases hq : q.readsRegister with
    | false => exact answer_query h hq
    | true => exact answer_query_of_register hreg hq

/-- With the same register before a step, it is the same after it. -/
theorem register_step (h : s.Alike s') (hreg : s.register = s'.register) (c : Command) :
    (s.step c).session.register = (s'.step c).session.register := by
  cases c with
  | construct step => exact register_construct.trans (hreg.trans register_construct.symm)
  | query q =>
    cases hq : q.isBuild with
    | false => exact (register_query hq).trans (hreg.trans (register_query hq).symm)
    | true =>
      cases q with
      | build limit =>
        obtain hsame | ⟨-, hl, hr⟩ := (build_congr limit h).2
        · exact hsame
        · exact hl.trans (hreg.trans hr.symm)
      | _ => exact absurd hq (by simp [Query.isBuild])

/-! ### Runs -/

variable {deletable : Query → Bool} {commands fewer : List Command}

/-- **Deleted queries are not missed by the fragments.** -/
theorem alike_run (h : s.Alike s') (hd : ∀ q, deletable q = true → q.isDrop = false)
    (ht : Thinned deletable commands fewer) : (s.run commands).Alike (s'.run fewer) := by
  induction ht generalizing s s' with
  | nil => exact h
  | keep c _ ih => exact ih (alike_step h c)
  | delete hq _ ih => exact ih (alike_query h (hd _ hq))

/-- **Deleted queries are not missed by the register**, unless they write to it. -/
theorem register_run (h : s.Alike s') (hreg : s.register = s'.register)
    (hd : ∀ q, deletable q = true → q.isDrop = false ∧ q.isBuild = false)
    (ht : Thinned deletable commands fewer) :
    (s.run commands).register = (s'.run fewer).register := by
  induction ht generalizing s s' with
  | nil => exact hreg
  | keep c _ ih => exact ih (alike_step h c) (register_step h hreg c)
  | delete hq _ ih =>
    obtain ⟨hdrop, hbuild⟩ := hd _ hq
    exact ih (alike_query h hdrop) ((register_query hbuild).trans hreg)

/-- **Whatever a session does, it knows nothing wrong, and what it knows is never seen.** Each
fragment of a run is coherent. If queries are deleted from the run, which and how many does not
matter, the fragments of the shorter run have the same automata, and every further step that looks
at fragments is answered the same; so is a step that builds a deterministic automaton, and it
builds the same one. If the queries that write to the register are not deleted, neither the register
nor any answer is different. -/
theorem run_coherent (commands : List Command) :
    (∀ f ∈ (run {} commands).stack, f.Coherent) ∧
      (∀ fewer, Thinned (fun q => !q.isDrop) commands fewer →
        (run {} commands).stack.map (·.nfa) = (run {} fewer).stack.map (·.nfa) ∧
          (∀ c : Command, c.readsRegister = false →
            ((run {} commands).step c).answer = ((run {} fewer).step c).answer) ∧
          ∀ limit : Option Nat,
            ((run {} commands).build limit).session.register =
                ((run {} fewer).build limit).session.register ∨
              ∃ r, ((run {} commands).build limit).answer = .error r) ∧
      ∀ fewer, Thinned (fun q => !q.isDrop && !q.isBuild) commands fewer →
        (run {} commands).register = (run {} fewer).register ∧
          ∀ c : Command, ((run {} commands).step c).answer = ((run {} fewer).step c).answer := by
  have hstart : Alike {} {} := .nil
  refine ⟨?_, fun fewer ht => ?_, fun fewer ht => ?_⟩
  · have halike := alike_run hstart (fun q hq => by simpa using hq) (thinned_withoutQueries commands)
    exact Fragment.coherent_of_forall₂ halike
  · have halike := alike_run hstart (fun q hq => by simpa using hq) ht
    refine ⟨Fragment.map_nfa_of_forall₂ halike, fun c hc => answer_step halike hc, fun limit => ?_⟩
    obtain hsame | ⟨hrefused, -, -⟩ := (build_congr limit halike).2
    · exact .inl hsame
    · exact .inr hrefused
  · have hd : ∀ q : Query, (!q.isDrop && !q.isBuild) = true → q.isDrop = false ∧ q.isBuild = false :=
      fun q hq => by simpa using hq
    have halike := alike_run hstart (fun q hq => (hd q hq).1) ht
    have hreg := register_run hstart rfl hd ht
    exact ⟨hreg, answer_step_of_register halike hreg⟩

/-- What a table request leaves behind is forgotten by the loop; what the alphabet request leaves
behind is true. -/
theorem run_coherent_compactPlus :
    ∃ f, (run {} [.construct (.char 'a'), .query .table, .construct .compactPlus,
        .query .alphabet]).stack = [f] ∧
      f.memo.table.isNone = true ∧ f.memo.alphabet.isSome = true ∧ f.Coherent ∧
      [f.nfa] = (run {} [.construct (.char 'a'), .construct .compactPlus]).stack.map (·.nfa) ∧
      ((run {} [.construct (.char 'a'), .query .table, .construct .compactPlus,
          .query .alphabet]).step (.query .table)).answer =
        ((run {} [.construct (.char 'a'), .construct .compactPlus]).step (.query .table)).answer := by
  obtain ⟨hcoherent, hdeleted, -⟩ := run_coherent
    [.construct (.char 'a'), .query .table, .construct .compactPlus, .query .alphabet]
  obtain ⟨hautomata, hanswer, -⟩ := hdeleted [.construct (.char 'a'), .construct .compactPlus]
    (thinned_withoutQueries _)
  exact ⟨_, rfl, rfl, rfl, hcoherent _ List.mem_cons_self, hautomata, hanswer (.query .table) rfl⟩

end Automata.Session
