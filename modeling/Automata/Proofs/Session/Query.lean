import Automata.Proofs.Fragment.Coherent

/-!
# What a query leaves behind, and what its answer depends on

* `Session.Alike`: two sessions with the same automata, of which they know nothing wrong. What they
  know may differ.
* `QueryForm`: **what a query can do**, said once for all queries.
* `alike_query`: **a query that takes no fragment away** may be made in one of two such sessions alone.
* `answer_query`, `answer_query_of_register`: **what an answer depends on.**
* `build_congr`: two such sessions build the same deterministic automaton, or both are refused.
-/

namespace Automata.Session

variable {s s' : Session} {α : Type} {q : Query} {limit : Option Nat}
variable {query : Fragment → Reply α} {x : Nfa → α} {answer : α → Answer}

/-- **Two sessions with the same automata**, of which they know nothing wrong. -/
def Alike (s s' : Session) : Prop := List.Forall₂ Fragment.Alike s.stack s'.stack

theorem Alike.symm (h : s.Alike s') : s'.Alike s :=
  List.Forall₂.flip (h.imp fun _ _ hf => hf.symm)

/-! ### Queries of fragments -/

theorem alike_ask (hq : ∀ f, f.Coherent → (query f).IsFresh f (x f.nfa)) (h : s.Alike s') :
    (s.ask query answer).session.Alike s' := by
  obtain ⟨stack, register⟩ := s
  obtain ⟨stack', register'⟩ := s'
  cases h with
  | nil => exact .nil
  | cons htop hrest => exact .cons (.of_isFresh (hq _ htop.left) htop) hrest

theorem answer_ask (hq : ∀ f, f.Coherent → (query f).IsFresh f (x f.nfa)) (h : s.Alike s') :
    (s.ask query answer).answer = (s'.ask query answer).answer := by
  obtain ⟨stack, register⟩ := s
  obtain ⟨stack', register'⟩ := s'
  cases h with
  | nil => rfl
  | cons htop _ =>
    unfold ask
    simp only [(hq _ htop.left).value, (hq _ htop.right).value, htop.nfa]

theorem session_askState {answer : State → Answer} {id : Nat} :
    (s.askState id answer).session = s := by
  unfold askState
  split
  · split <;> rfl
  · rfl

theorem answer_askState {answer : State → Answer} {id : Nat} (h : s.Alike s') :
    (s.askState id answer).answer = (s'.askState id answer).answer := by
  obtain ⟨stack, register⟩ := s
  obtain ⟨stack', register'⟩ := s'
  cases h with
  | nil => rfl
  | cons htop _ =>
    unfold askState
    simp only [htop.nfa]
    split <;> rfl

theorem alike_askClosure (h : s.Alike s') {id : Nat} : (s.askClosure id).session.Alike s' := by
  unfold askClosure
  split
  · split
    · exact alike_ask (x := fun g => g.closure id) (fun f hf => hf.isFresh_closure id) h
    · exact h
  · exact h

theorem answer_askClosure (h : s.Alike s') {id : Nat} :
    (s.askClosure id).answer = (s'.askClosure id).answer := by
  have hask : (s.ask (·.closure id) .ids).answer = (s'.ask (·.closure id) .ids).answer :=
    answer_ask (x := fun g => g.closure id) (fun f hf => hf.isFresh_closure id) h
  obtain ⟨stack, register⟩ := s
  obtain ⟨stack', register'⟩ := s'
  cases h with
  | nil => rfl
  | cons htop _ =>
    unfold askClosure
    simp only [htop.nfa]
    split
    · exact hask
    · rfl

theorem alike_compareTables (h : s.Alike s') : s.compareTables.session.Alike s' := by
  obtain ⟨stack, register⟩ := s
  obtain ⟨stack', register'⟩ := s'
  cases h with
  | nil => exact .nil
  | cons hb h =>
    cases h with
    | nil => exact .cons hb .nil
    | cons ha h =>
      exact .cons (.of_isFresh hb.left.isFresh_table hb)
        (.cons (.of_isFresh ha.left.isFresh_table ha) h)

theorem answer_compareTables (h : s.Alike s') :
    s.compareTables.answer = s'.compareTables.answer := by
  obtain ⟨stack, register⟩ := s
  obtain ⟨stack', register'⟩ := s'
  cases h with
  | nil => rfl
  | cons hb h =>
    cases h with
    | nil => rfl
    | cons ha h =>
      unfold compareTables
      simp only [ha.left.isFresh_table.value, ha.right.isFresh_table.value,
        hb.left.isFresh_table.value, hb.right.isFresh_table.value, ha.nfa, hb.nfa]

theorem alike_drop (h : s.Alike s') :
    (s.query .drop).session.Alike (s'.query .drop).session := by
  obtain ⟨stack, register⟩ := s
  obtain ⟨stack', register'⟩ := s'
  cases h with
  | nil => exact .nil
  | cons _ hrest => exact hrest

theorem answer_drop (h : s.Alike s') : (s.query .drop).answer = (s'.query .drop).answer := by
  obtain ⟨stack, register⟩ := s
  obtain ⟨stack', register'⟩ := s'
  cases h with
  | nil => rfl
  | cons _ hrest =>
    unfold Session.query
    simp only [hrest.length_eq]

/-! ### The register -/

theorem session_askDfa {answer : Dfa → Answer} : (s.askDfa answer).session = s := by
  unfold askDfa
  split <;> rfl

theorem answer_askDfa {answer : Dfa → Answer} (h : s.register = s'.register) :
    (s.askDfa answer).answer = (s'.askDfa answer).answer := by
  unfold askDfa
  rw [h]
  split <;> rfl

theorem alike_build (h : s.Alike s') : (s.build limit).session.Alike s' := by
  obtain ⟨stack, register⟩ := s
  obtain ⟨stack', register'⟩ := s'
  cases h with
  | nil => exact .nil
  | cons htop hrest =>
    have hkept := Fragment.Alike.of_isFresh (htop.left.isFresh_dfa limit) htop
    unfold build
    -- what is kept does not depend on whether the limit is exceeded
    simp only
    split
    · exact .cons hkept hrest
    · exact .cons hkept hrest

/-- What is built for two sessions: the same answer, and the same register unless it is refused to
both. -/
theorem build_congr (limit : Option Nat) (h : s.Alike s') :
    (s.build limit).answer = (s'.build limit).answer ∧
      ((s.build limit).session.register = (s'.build limit).session.register ∨
        (∃ r, (s.build limit).answer = .error r) ∧
          (s.build limit).session.register = s.register ∧
          (s'.build limit).session.register = s'.register) := by
  obtain ⟨stack, register⟩ := s
  obtain ⟨stack', register'⟩ := s'
  cases h with
  | nil => exact ⟨rfl, .inr ⟨⟨_, rfl⟩, rfl, rfl⟩⟩
  | cons htop _ =>
    unfold build
    simp only [(htop.left.isFresh_dfa limit).value, (htop.right.isFresh_dfa limit).value, htop.nfa]
    split
    · exact ⟨rfl, .inl rfl⟩
    · exact ⟨rfl, .inr ⟨⟨_, rfl⟩, rfl, rfl⟩⟩

/-! ### Queries -/

/-- **What a query can do**: the queries that answer in a way of their own, and the three ways that
the others share. -/
inductive QueryForm : Query → Prop where
  | drop : QueryForm .drop
  | closure (id : Nat) : QueryForm (.closure id)
  | sameTable : QueryForm .sameTable
  | build (limit : Option Nat) : QueryForm (.build limit)
  | ask {q : Query} {α : Type} (query : Fragment → Reply α) (x : Nfa → α) (answer : α → Answer) :
    (∀ f, f.Coherent → (query f).IsFresh f (x f.nfa)) →
      (∀ s : Session, s.query q = s.ask query answer) → q.readsRegister = false → QueryForm q
  | askState {q : Query} (id : Nat) (answer : State → Answer) :
    (∀ s : Session, s.query q = s.askState id answer) → q.readsRegister = false → QueryForm q
  | askDfa {q : Query} (answer : Dfa → Answer) :
    (∀ s : Session, s.query q = s.askDfa answer) → q.readsRegister = true → QueryForm q

theorem queryForm_table (answer : Table → Answer)
    (h : ∀ s : Session, s.query q = s.ask (·.table) answer) (hq : q.readsRegister = false) :
    QueryForm q :=
  .ask _ Table.ofNfa answer (fun _ hf => hf.isFresh_table) h hq

/-- Every query has one of these forms. -/
theorem queryForm (q : Query) : QueryForm q := by
  cases q with
  | drop => exact .drop
  | states => exact .ask _ (·.states) _ (fun _ hf => ⟨rfl, rfl, hf⟩) (fun _ => rfl) rfl
  | state id => exact .askState id _ (fun _ => rfl) rfl
  | targetsOf id c => exact .askState id _ (fun _ => rfl) rfl
  | closure id => exact .closure id
  | alphabet => exact .ask _ (·.alphabet) _ (fun _ hf => hf.isFresh_alphabet) (fun _ => rfl) rfl
  | table => exact queryForm_table .table (fun _ => rfl) rfl
  | row number => exact queryForm_table (fun t => .row (t.row? number)) (fun _ => rfl) rfl
  | numberOf id => exact queryForm_table (fun t => .optionalCount (t.numberOf? id)) (fun _ => rfl) rfl
  | targets number c => exact queryForm_table (fun t => .ids (t.targets number c)) (fun _ => rfl) rfl
  | tableClosure number => exact queryForm_table (fun t => .ids (t.closure number)) (fun _ => rfl) rfl
  | sameTable => exact .sameTable
  | accepts word => exact .ask _ (·.accepts word) _ (fun _ hf => ⟨rfl, rfl, hf⟩) (fun _ => rfl) rfl
  | build limit => exact .build limit
  | sizes => exact .askDfa _ (fun _ => rfl) rfl
  | dfa => exact .askDfa _ (fun _ => rfl) rfl
  | labelTable => exact .askDfa _ (fun _ => rfl) rfl
  | next id c => exact .askDfa _ (fun _ => rfl) rfl
  | walk word => exact .askDfa _ (fun _ => rfl) rfl
  | isAccepting id => exact .askDfa _ (fun _ => rfl) rfl
  | idOf numbers => exact .askDfa _ (fun _ => rfl) rfl
  | dfaAccepts word => exact .askDfa _ (fun _ => rfl) rfl

/-- **A query that takes no fragment away** leaves all automata as they are, and what is known of
them true. -/
theorem alike_query (h : s.Alike s') (hq : q.isDrop = false) : (s.query q).session.Alike s' := by
  cases queryForm q with
  | drop => exact absurd hq (by simp [Query.isDrop])
  | closure id => exact alike_askClosure h
  | sameTable => exact alike_compareTables h
  | build limit => exact alike_build h
  | ask query x answer hfresh heq hreg =>
    rw [heq]
    exact alike_ask hfresh h
  | askState id answer heq hreg =>
    rw [heq, session_askState]
    exact h
  | askDfa answer heq hreg =>
    rw [heq, session_askDfa]
    exact h

/-- **The answer to a query of fragments** depends on their automata alone. -/
theorem answer_query (h : s.Alike s') (hq : q.readsRegister = false) :
    (s.query q).answer = (s'.query q).answer := by
  cases queryForm q with
  | drop => exact answer_drop h
  | closure id => exact answer_askClosure h
  | sameTable => exact answer_compareTables h
  | build limit => exact (build_congr limit h).1
  | ask query x answer hfresh heq hreg =>
    rw [heq, heq]
    exact answer_ask hfresh h
  | askState id answer heq hreg =>
    rw [heq, heq]
    exact answer_askState h
  | askDfa answer heq hreg => exact absurd (hq.symm.trans hreg) (by simp)

/-- **The answer to a query of the register** depends on the register alone. -/
theorem answer_query_of_register (h : s.register = s'.register) (hq : q.readsRegister = true) :
    (s.query q).answer = (s'.query q).answer := by
  cases queryForm q with
  | drop => exact absurd hq (by simp [Query.readsRegister])
  | closure id => exact absurd hq (by simp [Query.readsRegister])
  | sameTable => exact absurd hq (by simp [Query.readsRegister])
  | build limit => exact absurd hq (by simp [Query.readsRegister])
  | ask query x answer hfresh heq hreg => exact absurd (hq.symm.trans hreg) (by simp)
  | askState id answer heq hreg => exact absurd (hq.symm.trans hreg) (by simp)
  | askDfa answer heq hreg =>
    rw [heq, heq]
    exact answer_askDfa h

theorem register_ask : (s.ask query answer).session.register = s.register := by
  unfold ask
  split <;> rfl

/-- Only a build writes to the register. -/
theorem register_query (hq : q.isBuild = false) : (s.query q).session.register = s.register := by
  cases queryForm q with
  | drop =>
    unfold query
    cases s.stack <;> rfl
  | closure id =>
    show (s.askClosure id).session.register = s.register
    unfold askClosure
    split
    · split
      · exact register_ask
      · rfl
    · rfl
  | sameTable =>
    show s.compareTables.session.register = s.register
    unfold compareTables
    split <;> rfl
  | build limit => exact absurd hq (by simp [Query.isBuild])
  | ask query x answer hfresh heq hreg => exact heq s ▸ register_ask
  | askState id answer heq hreg => exact congrArg Session.register (heq s ▸ session_askState)
  | askDfa answer heq hreg => exact congrArg Session.register (heq s ▸ session_askDfa)

end Automata.Session
