import Automata.Proofs.Fragment.Report
import Automata.Proofs.Session.Constructible
import Automata.Proofs.Session.Run

/-!
# The log of a session tells what is built

What a fragment reports depends on whether its table is known, and that is told by its history: a
combination forgets the table and starts a new history, a copy keeps both, and a query of any kind
adds to both what it asks for.

* `Fragment.Recorded`: the table of a fragment is known if its history has a request for it.
* `Construction.recorded_apply`, `Session.recorded_query`: **one step keeps this.**
* `Session.Traced`: what every step of a session keeps, `Traced.step`, and every run, `Traced.run`.
* `Traced.events_query`: **the lines that a query reports** in such a session.
* `Session.log_faithful`: so it is at the end of every run.
-/

namespace Automata

/-- **The history tells whether the table is known.** -/
def Fragment.Recorded (f : Fragment) (h : History) : Prop := f.memo.table.isSome = h.requested

/-- What has just been combined has no history. -/
theorem Fragment.recorded_nil {f : Fragment} (hf : f.memo = {}) : f.Recorded [] := by
  unfold Fragment.Recorded
  rw [hf]
  rfl

/-- So it tells what is reported of a request for the table. -/
theorem Fragment.Coherent.events_table_of_recorded {f : Fragment} {h : History} (hf : f.Coherent)
    (hr : f.Recorded h) : f.table.events.map Event.text = f.nfa.requestReport h.requested :=
  hf.events_table.trans (congrArg f.nfa.requestReport hr)

namespace Construction

variable {stack : List Fragment} {past : List History} {built : Built} {step : Construction}

theorem recorded_push {g : Nfa} (h : List.Forall₂ Fragment.Recorded stack past) :
    List.Forall₂ Fragment.Recorded (push stack g).stack ([] :: past) :=
  .cons (Fragment.recorded_nil rfl) h

theorem recorded_push? {r : Except Error Nfa}
    (h : List.Forall₂ Fragment.Recorded stack past) (hb : push? stack r = .ok built) :
    List.Forall₂ Fragment.Recorded built.stack ([] :: past) := by
  cases r with
  | error e => exact absurd hb (by simp [push?])
  | ok g =>
    obtain rfl := Except.ok.inj hb
    exact recorded_push h

theorem recorded_mapTop {f : Fragment → Fragment} (hf : ∀ a, (f a).memo = {})
    (h : List.Forall₂ Fragment.Recorded stack past) (hb : mapTop f stack = .ok built) :
    List.Forall₂ Fragment.Recorded built.stack ([] :: past.drop 1) := by
  cases h with
  | nil => exact absurd hb (by simp [mapTop])
  | cons _ h =>
    obtain rfl := Except.ok.inj hb
    exact .cons (Fragment.recorded_nil (hf _)) h

theorem recorded_mapPair {f : Fragment → Fragment → Fragment} (hf : ∀ a b, (f a b).memo = {})
    (h : List.Forall₂ Fragment.Recorded stack past) (hb : mapPair f stack = .ok built) :
    List.Forall₂ Fragment.Recorded built.stack ([] :: past.drop 2) := by
  cases h with
  | nil => exact absurd hb (by simp [mapPair])
  | cons _ h =>
    cases h with
    | nil => exact absurd hb (by simp [mapPair])
    | cons _ h =>
      obtain rfl := Except.ok.inj hb
      exact .cons (Fragment.recorded_nil (hf _ _)) h

/-- One fragment alone keeps its history, and what is known of it. -/
theorem recorded_gather {f : List Fragment → Fragment} {count : Nat} (hone : ∀ a, f [a] = a)
    (hf : ∀ l, l.length ≠ 1 → (f l).memo = {})
    (h : List.Forall₂ Fragment.Recorded stack past) (hb : gather f count stack = .ok built) :
    List.Forall₂ Fragment.Recorded built.stack
      (if count = 1 then past else [] :: past.drop count) := by
  unfold gather at hb
  split at hb
  · next hle =>
    obtain rfl := Except.ok.inj hb
    by_cases hcount : count = 1
    · subst hcount
      obtain ⟨a, rest, rfl⟩ := List.exists_cons_of_length_pos hle
      rw [if_pos rfl]
      exact (hone a).symm ▸ h
    · rw [if_neg hcount]
      refine .cons (Fragment.recorded_nil (hf _ ?_)) (List.forall₂_drop count h)
      rwa [List.length_reverse, List.length_take, Nat.min_eq_left hle]
  · exact absurd hb (by simp)

/-- What is reported has no part in the stack. -/
theorem recorded_reporting {event : Event} {r : Except Refusal Built}
    (hr : ∀ b, r = .ok b → List.Forall₂ Fragment.Recorded b.stack past)
    (hb : r.map (reporting event stack) = .ok built) :
    List.Forall₂ Fragment.Recorded built.stack past := by
  cases r with
  | error e => exact absurd hb (by simp [Except.map])
  | ok b =>
    obtain rfl := Except.ok.inj hb
    exact hr b rfl

/-- **A construction forgets the tables that it takes from the histories**, and no others. -/
theorem recorded_apply (h : List.Forall₂ Fragment.Recorded stack past)
    (hb : apply stack step = .ok built) :
    List.Forall₂ Fragment.Recorded built.stack (step.record past) := by
  cases step with
  | char c => obtain rfl := Except.ok.inj hb; exact recorded_push h
  | epsilon => obtain rfl := Except.ok.inj hb; exact recorded_push h
  | emptyLanguage => obtain rfl := Except.ok.inj hb; exact recorded_push h
  | digits => obtain rfl := Except.ok.inj hb; exact recorded_push h
  | anyOf symbols => obtain rfl := Except.ok.inj hb; exact recorded_push h
  | charRange lo hi => exact recorded_push? h hb
  | digitRange lo hi => exact recorded_push? h hb
  | compactDigitRange lo hi => exact recorded_push? h hb
  | parseDigitRange lo hi => exact recorded_push? h hb
  | concat count => exact recorded_gather (fun _ => rfl) (fun _ => Fragment.memo_concat) h hb
  | union count => exact recorded_gather (fun _ => rfl) (fun _ => Fragment.memo_union) h hb
  | concatPair => exact recorded_mapPair (fun _ _ => rfl) h hb
  | unionPair => exact recorded_mapPair (fun _ _ => rfl) h hb
  | star => exact recorded_mapTop (fun _ => rfl) h hb
  | plus => exact recorded_mapTop (fun _ => rfl) h hb
  | optional => exact recorded_mapTop (fun _ => rfl) h hb
  | compactStar =>
    have hmemo : ∀ a : Fragment, a.compactStar.memo = {} := fun _ => Fragment.memo_compactStar
    exact recorded_reporting (fun _ => recorded_mapTop hmemo h) hb
  | compactPlus => exact recorded_mapTop (fun _ => rfl) h hb
  | compactOptional =>
    have hmemo : ∀ a : Fragment, a.compactOptional.memo = {} := fun _ => Fragment.memo_compactOptional
    exact recorded_reporting (fun _ => recorded_mapTop hmemo h) hb
  | duplicate =>
    cases h with
    | nil => exact absurd hb (by simp [apply])
    | cons ha h =>
      obtain rfl := Except.ok.inj hb
      exact .cons ha (.cons ha h)
  | exchange =>
    cases h with
    | nil => exact absurd hb (by simp [apply])
    | cons hb' h =>
      cases h with
      | nil => exact absurd hb (by simp [apply])
      | cons ha h =>
        obtain rfl := Except.ok.inj hb
        exact .cons ha (.cons hb' h)

end Construction

namespace Session

variable {s : Session} {past : List History} {q : Query} {α : Type}
variable {reply : Fragment → Reply α} {answer : α → Answer}

/-! ### Queries -/

theorem recorded_ask (hq : ∀ f h, f.Recorded h → (reply f).fragment.Recorded (q :: h))
    (h : List.Forall₂ Fragment.Recorded s.stack past) :
    List.Forall₂ Fragment.Recorded (s.ask reply answer).session.stack
      (past.modifyHead (q :: ·)) := by
  obtain ⟨stack, register⟩ := s
  cases h with
  | nil => exact .nil
  | cons htop hrest => exact .cons (hq _ _ htop) hrest

/-- A query that asks for no table may be forgotten. -/
theorem recorded_modifyHead {stack : List Fragment} (hq : q.requestsTable = false)
    (h : List.Forall₂ Fragment.Recorded stack past) :
    List.Forall₂ Fragment.Recorded stack (past.modifyHead (q :: ·)) := by
  cases h with
  | nil => exact .nil
  | cons htop hrest =>
    refine .cons ?_ hrest
    unfold Fragment.Recorded History.requested
    rw [List.any_cons, hq, Bool.false_or]
    exact htop

theorem recorded_askState {id : Nat} {answer : State → Answer} (hq : q.requestsTable = false)
    (h : List.Forall₂ Fragment.Recorded s.stack past) :
    List.Forall₂ Fragment.Recorded (s.askState id answer).session.stack
      (past.modifyHead (q :: ·)) := by
  rw [session_askState]
  exact recorded_modifyHead hq h

theorem recorded_askDfa {answer : Dfa → Answer}
    (h : List.Forall₂ Fragment.Recorded s.stack past) :
    List.Forall₂ Fragment.Recorded (s.askDfa answer).session.stack past := by
  rw [session_askDfa]
  exact h

theorem recorded_askClosure {id : Nat} (h : List.Forall₂ Fragment.Recorded s.stack past) :
    List.Forall₂ Fragment.Recorded (s.askClosure id).session.stack
      (past.modifyHead (Query.closure id :: ·)) := by
  have hrefused : List.Forall₂ Fragment.Recorded s.stack
      (past.modifyHead (Query.closure id :: ·)) := recorded_modifyHead rfl h
  unfold askClosure
  split
  · split
    · exact recorded_ask (fun _ _ hf => hf) h
    · exact hrefused
  · exact hrefused

theorem recorded_compareTables (h : List.Forall₂ Fragment.Recorded s.stack past) :
    List.Forall₂ Fragment.Recorded s.compareTables.session.stack
      (Query.sameTable.record past) := by
  obtain ⟨stack, register⟩ := s
  cases h with
  | nil => exact .nil
  | cons hb h =>
    cases h with
    | nil => exact .cons hb .nil
    | cons _ hrest =>
      exact .cons Fragment.isSome_table_table (.cons Fragment.isSome_table_table hrest)

/-- The table is known after a construction, whatever becomes of that. -/
theorem recorded_build {limit : Option Nat}
    (h : List.Forall₂ Fragment.Recorded s.stack past) :
    List.Forall₂ Fragment.Recorded (s.build limit).session.stack
      (past.modifyHead (Query.build limit :: ·)) := by
  obtain ⟨stack, register⟩ := s
  cases h with
  | nil => exact .nil
  | cons _ hrest =>
    unfold build
    simp only
    split
    · exact .cons Fragment.isSome_table_dfa hrest
    · exact .cons Fragment.isSome_table_dfa hrest

/-- **A query adds to the histories what it makes known.** -/
theorem recorded_query (h : List.Forall₂ Fragment.Recorded s.stack past) (q : Query) :
    List.Forall₂ Fragment.Recorded (s.query q).session.stack (q.record past) := by
  have htable : ∀ (f : Fragment) (k : History), f.Recorded k →
      f.table.fragment.memo.table.isSome = true := fun _ _ _ => Fragment.isSome_table_table
  cases q with
  | drop =>
    obtain ⟨stack, register⟩ := s
    cases h with
    | nil => exact .nil
    | cons _ hrest => exact hrest
  | states => exact recorded_ask (fun _ _ hf => hf) h
  | state id => exact recorded_askState rfl h
  | targetsOf id c => exact recorded_askState rfl h
  | closure id => exact recorded_askClosure h
  | alphabet => exact recorded_ask (fun _ _ hf => hf) h
  | table => exact recorded_ask htable h
  | row number => exact recorded_ask htable h
  | numberOf id => exact recorded_ask htable h
  | targets number c => exact recorded_ask htable h
  | tableClosure number => exact recorded_ask htable h
  | sameTable => exact recorded_compareTables h
  | accepts word => exact recorded_ask (fun _ _ hf => hf) h
  | build limit => exact recorded_build h
  | sizes => exact recorded_askDfa h
  | dfa => exact recorded_askDfa h
  | labelTable => exact recorded_askDfa h
  | next id c => exact recorded_askDfa h
  | walk word => exact recorded_askDfa h
  | isAccepting id => exact recorded_askDfa h
  | idOf numbers => exact recorded_askDfa h
  | dfaAccepts word => exact recorded_askDfa h

/-! ### Queries that report nothing -/

theorem events_drop : (s.query .drop).events = [] := by
  obtain ⟨stack, register⟩ := s
  cases stack <;> rfl

theorem events_ask (hq : ∀ f, (reply f).events = []) : (s.ask reply answer).events = [] := by
  unfold ask
  split
  · exact hq _
  · rfl

theorem events_askState {id : Nat} {answer : State → Answer} :
    (s.askState id answer).events = [] := by
  unfold askState
  split
  · split <;> rfl
  · rfl

theorem events_askClosure {id : Nat} : (s.askClosure id).events = [] := by
  unfold askClosure
  split
  · split
    · exact events_ask fun _ => rfl
    · rfl
  · rfl

theorem events_askDfa {answer : Dfa → Answer} : (s.askDfa answer).events = [] := by
  unfold askDfa
  split <;> rfl

/-! ### Runs -/

/-- **What a construction leaves**: nothing has changed if it is refused, and otherwise its stack is
the one built. -/
theorem construct_cases (s : Session) (step : Construction) :
    (∃ r, (s.construct step).answer = .error r ∧ (s.construct step).session = s) ∨
    ∃ a built, (s.construct step).answer = .ok a ∧ step.apply s.stack = .ok built ∧
      (s.construct step).session.stack = built.stack := by
  unfold construct
  split
  · next built hbuilt =>
    split
    · next top rest hstack => exact .inr ⟨_, built, rfl, hbuilt, rfl⟩
    · exact .inl ⟨_, rfl, rfl⟩
  · exact .inl ⟨_, rfl, rfl⟩

/-- A query changes no automaton on the stack, and adds none. -/
theorem map_nfa_query_suffix (h : s.Alike s) (q : Query) :
    (s.query q).session.stack.map (·.nfa) <:+ s.stack.map (·.nfa) := by
  cases hq : q.isDrop with
  | false => exact Fragment.map_nfa_of_forall₂ (alike_query h hq) ▸ List.suffix_rfl
  | true =>
    cases q with
    | drop =>
      unfold Session.query
      cases hs : s.stack with
      | nil => simp [refuse, hs]
      | cons top rest => exact List.suffix_cons _ _
    | _ => exact absurd hq (by simp [Query.isDrop])

/-- **What every step keeps** of a session and the histories of its fragments: nothing known is
wrong, all automata are those of expressions, and the histories tell which tables are known. -/
structure Traced (s : Session) (past : List History) : Prop where
  alike : s.Alike s
  constructible : Construction.AllConstructible s.stack
  recorded : List.Forall₂ Fragment.Recorded s.stack past

namespace Traced

theorem start : Traced {} [] := ⟨.nil, fun _ hf => absurd hf List.not_mem_nil, .nil⟩

theorem construct (h : s.Traced past) (step : Construction) :
    (s.construct step).session.Traced ((Command.construct step).record s past) := by
  have halike := alike_step h.alike (.construct step)
  simp only [Command.record]
  obtain ⟨r, hanswer, hsession⟩ | ⟨a, built, hanswer, hbuilt, hstack⟩ := construct_cases s step
  · rw [hanswer, hsession]
    exact h
  · rw [hanswer]
    refine ⟨halike, ?_, ?_⟩
    · rw [hstack]
      exact Construction.constructible_apply h.constructible hbuilt
    · rw [hstack]
      exact Construction.recorded_apply h.recorded hbuilt

theorem query (h : s.Traced past) (q : Query) :
    (s.query q).session.Traced (q.record past) := by
  refine ⟨alike_step h.alike (.query q), fun f hf => ?_, recorded_query h.recorded q⟩
  have hmem := (map_nfa_query_suffix h.alike q).subset (List.mem_map_of_mem hf)
  obtain ⟨f', hf', hnfa⟩ := List.mem_map.1 hmem
  rw [← hnfa]
  exact h.constructible f' hf'

/-- **Every step keeps a session traced.** -/
theorem step (h : s.Traced past) (c : Command) :
    (s.step c).session.Traced (c.record s past) := by
  cases c with
  | construct step => exact h.construct step
  | query q => exact h.query q

/-- **Every run keeps a session traced.** -/
theorem run (h : s.Traced past) (commands : List Command) :
    (s.run commands).Traced (s.histories past commands) := by
  induction commands generalizing s past with
  | nil => exact h
  | cons c commands ih => exact ih (h.step c)

/-! ### Reports -/

theorem coherent (h : s.Traced past) : ∀ f ∈ s.stack, f.Coherent :=
  Fragment.coherent_of_forall₂ h.alike

theorem inArena (h : s.Traced past) : ∀ f ∈ s.stack, f.nfa.InArena := by
  intro f hf
  obtain ⟨e, he⟩ := h.constructible f hf
  rw [← he]
  exact e.wellFormed_nfa.toInArena

theorem events_ask_table {answer : Table → Answer} (h : s.Traced past)
    (hreport : ∀ g k rest, q.report ((g, k) :: rest) = g.requestReport k.requested)
    (hnil : q.report [] = []) :
    (s.ask (·.table) answer).events.map Event.text =
      q.report ((s.stack.map (·.nfa)).zip past) := by
  have hcoherent := h.coherent
  have hrecorded := h.recorded
  obtain ⟨stack, register⟩ := s
  cases hrecorded with
  | nil => exact hnil.symm
  | cons htop _ =>
    have hevents := (hcoherent _ List.mem_cons_self).events_table_of_recorded htop
    exact hevents.trans (hreport _ _ _).symm

/-- The deeper fragment is asked first, so its table is reported first. -/
theorem events_compareTables (h : s.Traced past) :
    s.compareTables.events.map Event.text =
      Query.sameTable.report ((s.stack.map (·.nfa)).zip past) := by
  have hcoherent := h.coherent
  have hrecorded := h.recorded
  obtain ⟨stack, register⟩ := s
  cases hrecorded with
  | nil => rfl
  | cons hb hrest =>
    cases hrest with
    | nil => rfl
    | cons ha _ =>
      obtain ⟨hcb, hca⟩ := List.forall_mem_cons.1 hcoherent
      have hfirst := (hca _ List.mem_cons_self).events_table_of_recorded ha
      have hsecond := hcb.events_table_of_recorded hb
      unfold compareTables
      simp only [List.map_append, hfirst, hsecond]
      rfl

theorem events_build (h : s.Traced past) (limit : Option Nat) :
    (s.build limit).events.map Event.text =
      (Query.build limit).report ((s.stack.map (·.nfa)).zip past) := by
  have hcoherent := h.coherent
  have hinArena := h.inArena
  have hrecorded := h.recorded
  obtain ⟨stack, register⟩ := s
  cases hrecorded with
  | nil => rfl
  | @cons f k stack past htop _ =>
    have hevents : (f.dfa limit).events.map Event.text =
        f.nfa.requestReport k.requested ++ f.nfa.dfaReport limit := by
      rw [(hcoherent f List.mem_cons_self).events_dfa (hinArena f List.mem_cons_self) limit, htop]
    unfold build
    simp only
    split
    · exact hevents
    · exact hevents

/-- **The lines that a query reports** are told by the automata and their histories. -/
theorem events_query (h : s.Traced past) (q : Query) :
    (s.query q).events.map Event.text = q.report ((s.stack.map (·.nfa)).zip past) := by
  have hsilent : ∀ {events : List Event}, events = [] → events.map Event.text = [] :=
    List.map_eq_nil_iff.2
  cases q with
  | drop => exact hsilent events_drop
  | states => exact hsilent (events_ask fun _ => rfl)
  | state id => exact hsilent events_askState
  | targetsOf id c => exact hsilent events_askState
  | closure id => exact hsilent events_askClosure
  | alphabet => exact hsilent (events_ask fun _ => rfl)
  | table => exact h.events_ask_table (fun _ _ _ => rfl) rfl
  | row number => exact h.events_ask_table (fun _ _ _ => rfl) rfl
  | numberOf id => exact h.events_ask_table (fun _ _ _ => rfl) rfl
  | targets number c => exact h.events_ask_table (fun _ _ _ => rfl) rfl
  | tableClosure number => exact h.events_ask_table (fun _ _ _ => rfl) rfl
  | sameTable => exact h.events_compareTables
  | accepts word => exact hsilent (events_ask fun _ => rfl)
  | build limit => exact h.events_build limit
  | sizes => exact hsilent events_askDfa
  | dfa => exact hsilent events_askDfa
  | labelTable => exact hsilent events_askDfa
  | next id c => exact hsilent events_askDfa
  | walk word => exact hsilent events_askDfa
  | isAccepting id => exact hsilent events_askDfa
  | idOf numbers => exact hsilent events_askDfa
  | dfaAccepts word => exact hsilent events_askDfa

end Traced

/-- There is always something to report of a table. -/
theorem requestReport_ne_nil {g : Nfa} {requested : Bool} :
    g.requestReport requested ≠ [] ↔ requested = false := by
  cases requested with
  | true => simp [Nfa.requestReport]
  | false => simp [Nfa.requestReport, Nfa.tableReport]

/-- **The log tells what is built.** After any run, a request for the table of the top of the stack
is reported if and only if its history has none. The lines of every query are told by the automata
on the stack and their histories: of a first request for a table, the state of each row with its
number and the size; after it, of a deterministic automaton, every state with its label and the
sizes, or the first states alone, as many as a limit allows if there are more. -/
theorem log_faithful (commands : List Command) :
    (histories {} [] commands).length = (run {} commands).stack.length ∧
      (((run {} commands).query .table).events ≠ [] ↔
        ∃ h : History, (histories {} [] commands).head? = some h ∧ h.requested = false) ∧
      ∀ q : Query, ((run {} commands).query q).events.map Event.text =
        q.report (((run {} commands).stack.map (·.nfa)).zip (histories {} [] commands)) := by
  have htraced : Traced (run {} commands) (histories {} [] commands) := Traced.start.run commands
  have hrecorded := htraced.recorded
  refine ⟨hrecorded.length_eq.symm, ?_, htraced.events_query⟩
  rw [ne_eq, ← List.map_eq_nil_iff (f := Event.text), htraced.events_query .table]
  generalize (run {} commands).stack = stack at hrecorded ⊢
  generalize histories {} [] commands = past at hrecorded ⊢
  cases hrecorded with
  | nil => exact ⟨fun h => absurd rfl h, fun ⟨_, h, _⟩ => absurd h (by simp)⟩
  | @cons f k stack past _ _ =>
    have hreport : Query.table.report (((f :: stack).map (·.nfa)).zip (k :: past)) =
        f.nfa.requestReport k.requested := rfl
    rw [hreport, ← ne_eq, requestReport_ne_nil, List.head?_cons]
    exact ⟨fun h => ⟨k, rfl, h⟩, fun ⟨_, hk, h⟩ => Option.some.inj hk ▸ h⟩

/-- The copy has taken over the request for the table, and a concatenation of it alone keeps that.
The repetition of the fragment that it was copied from has no history. -/
example : histories {} [] [.construct (.char 'a'), .query .table, .construct .duplicate,
    .query .alphabet, .construct (.concat 1), .construct .exchange, .construct .star] =
    [[], [.alphabet, .table]] := rfl

end Session

end Automata
