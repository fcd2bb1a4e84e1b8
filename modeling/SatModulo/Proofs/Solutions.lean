import SatModulo.Proofs.Alerts
import SatModulo.Proofs.Cardinality
import SatModulo.Proofs.Connectivity
import SatModulo.Proofs.Entailment
import SatModulo.Proofs.Registration

/-!
# Solutions

What a run has taken stays with the context: accepted clauses stay stored, as registered theories stay
members. When a search answers that there is a solution, every atom has a value, no stored clause is
false, and every theory agreed when it had been told of the whole trail. A theory that observes all of its
atoms then knows all of their values, so the values satisfy everything that the run has taken
(`PublicRun.solves_of_satisfiable`).
-/
namespace SatModulo

open Constraint

variable {σ : Type} [Theory σ] {c c' : Context σ} {taking : Intake σ}

theorem Move.get?_clauses (move : Move taking c c') {key : ClauseKey} {clause : Clause}
    (found : c.clauses.get? key = some clause) : c'.clauses.get? key = some clause := by
  cases move with
  | draw move => rw [move.frame.1, found]
  | jump move =>
    cases move with
    | retreat => exact found
    | learn key l lower level clauses retracted theories atoms distinct falsified current low below tight
        entailed stored undecided taken made => exact ClauseStore.get?_store stored found
  | decide allowed move =>
    cases move
    exact found
  | build move =>
    cases move with
    | give clause key clauses given base distinct known stored state =>
      exact ClauseStore.get?_store stored found
    | giveUnit clause key clauses l atoms given base distinct known stored state made =>
      exact ClauseStore.get?_store stored found
    | _ => exact found
  | settle phase before after => exact found
  | configure settings given => exact found

theorem Moves.get?_clauses (moves : Moves taking c c') {key : ClauseKey} {clause : Clause}
    (found : c.clauses.get? key = some clause) : c'.clauses.get? key = some clause := by
  induction moves with
  | refl => exact found
  | tail _ move ih => exact move.get?_clauses ih

omit [Theory σ] in
theorem Context.Alerts.initial (settings : Settings) : (Context.ofSettings settings : Context σ).Alerts :=
  ClauseStore.Alerts.initial

/-! ### What stays along a run -/

namespace PublicRun

variable {settings : Settings} {events : List (Event σ)} {e : Event σ} {s : Session σ}

/-- While it does not turn out that there is no solution, the commands of a run are nothing but moves. -/
theorem moves (run : PublicRun settings events s)
    (never : ∀ e ∈ events, e.after.context.phase ≠ .unsatisfiable) :
    Moves .any (.ofSettings settings) s.context ∧
      ∀ e ∈ events, Moves .any (.ofSettings settings) e.before.context ∧
        Moves .any e.after.context s.context := by
  induction run with
  | start => exact ⟨.refl, by simp⟩
  | @step events s earlier command allowed result s' taken ih =>
    have last : ⟨s, command, result, s'⟩ ∈ events ++ [(⟨s, command, result, s'⟩ : Event σ)] :=
      List.mem_append_right _ (.head _)
    obtain ⟨reached, others⟩ := ih fun e member => never e (List.mem_append_left _ member)
    have moved : Moves .any s.context s'.context :=
      (Intake.le_any _).moves ((earlier.ran_step allowed taken).moves_of_ne (never _ last))
    refine ⟨reached.trans moved, fun e member => ?_⟩
    rcases List.mem_append.mp member with old | new
    · exact ⟨(others e old).1, (others e old).2.trans moved⟩
    · obtain rfl := List.mem_singleton.mp new
      exact ⟨reached, .refl⟩

/-- An accepted clause stays stored, unless it is a tautology. -/
theorem stored_of_accepts (run : PublicRun settings events s)
    (never : ∀ e ∈ events, e.after.context.phase ≠ .unsatisfiable) (member : e ∈ events)
    {clause : Clause} (accepts : e.Accepts clause) :
    (∃ l ∈ clause, l.negate ∈ clause) ∨
      ∃ key d, s.context.clauses.get? key = some d ∧ ∀ l, l ∈ d ↔ l ∈ clause := by
  obtain ⟨given, outcome, accepted⟩ := accepts
  obtain ⟨_, taken, _⟩ := run.ran e member
  have executed := (Session.step_eq_ok taken).1
  rw [given, accepted] at executed
  have answered := Command.ensures_answer (f := .clause)
    (q := fun result after => ∀ outcome, result = .ok (.clause outcome) →
      Procedure.ClauseAnswered clause e.before.context (.ok outcome) after)
    ((Procedure.addClause_course clause).mono fun result after answered outcome same => by
      cases result with
      | error cause => cases same
      | ok found =>
        cases same
        exact answered) _ _ executed outcome rfl
  cases outcome with
  | unsatisfiable =>
    obtain ⟨mid, _, refuted⟩ := answered
    exact absurd refuted.phase_eq (never e member)
  | tautology => exact .inl answered.2
  | added key =>
    obtain ⟨_, d, found, same⟩ := answered
    exact .inr ⟨key, d, Moves.get?_clauses ((run.moves never).2 e member).2 found, same⟩

end PublicRun

/-! ### What a full valuation satisfies -/

section Full

variable {v : Atom → Bool} {mid : Context σ}

omit [Theory σ] in
/-- Where every atom has a value, what is on the trail holds in the valuation. -/
theorem Atoms.Coherent.holds_of_mem {s : Atoms} (h : s.Coherent)
    (values : ∀ a < s.count, s.value a = some (v a)) {l : Literal} (member : l ∈ s.trail.literals) :
    l.Holds v := by
  have isTrue := Literal.valueOn_eq_true.mp (h.valueOf_of_mem member)
  rw [values _ (h.lt_count_of_mem member)] at isTrue
  exact Option.some.inj isTrue

omit [Theory σ] in
/-- A theory that has been told of the whole trail has heard of the literals that it observes. -/
theorem Context.Told.mem_heard_of_head (told : c.Told) {i : Nat} {m : Member σ}
    (found : c.theories.members[i]? = some m) (whole : m.head = c.atoms.trail.length) {l : Literal} :
    l ∈ (c.theories.heard i).entries ↔ l ∈ c.atoms.trail.literals ∧ m.observes l.atom := by
  rw [(told.delivered i m found).mem_entries, whole]
  change l ∈ c.atoms.trail.literals.take c.atoms.trail.length ∧ _ ↔ _
  rw [Trail.length, List.take_length]

omit [Theory σ] in
theorem Context.Told.mem_heard (told : c.Told) (delivered : c.AllDelivered) {i : Nat} {m : Member σ}
    (found : c.theories.members[i]? = some m) {l : Literal} :
    l ∈ (c.theories.heard i).entries ↔ l ∈ c.atoms.trail.literals ∧ m.observes l.atom :=
  told.mem_heard_of_head found (delivered m (List.mem_of_getElem? found))

omit [Theory σ] in
/-- A theory that observes its atoms and has been told of the whole trail has heard of all values that they
have. -/
theorem Context.Told.complete_of_head (told : c.Told) (h : c.Coherent) {i : Nat} {m : Member σ}
    (found : c.theories.members[i]? = some m) (whole : m.head = c.atoms.trail.length) {observed : List Atom}
    (observes : ∀ a ∈ observed, m.observes a) (proper : ∀ a ∈ observed, a ≠ topAtom) :
    ∀ a ∈ observed, (c.atoms.value a).isSome → ∃ l ∈ (c.theories.heard i).entries, l.atom = a := by
  intro a member valued
  obtain ⟨value, given⟩ := Option.isSome_iff_exists.mp valued
  refine ⟨.on a value, (told.mem_heard_of_head found whole).mpr ⟨?_, ?_⟩, Literal.atom_on a value⟩
  · rwa [← h.supports.atoms.valueOf_eq_true (by rw [Literal.atom_on]; exact proper a member), Atoms.valueOf,
      Literal.valueOn_eq_true, Literal.atom_on, Literal.polarity_on (proper a member)]
  · rw [Literal.atom_on]
    exact observes a member

omit [Theory σ] in
/-- A theory that observes its atoms has heard of all values that they have, where all are delivered. -/
theorem Context.Told.complete (told : c.Told) (h : c.Coherent) (delivered : c.AllDelivered) {i : Nat}
    {m : Member σ} (found : c.theories.members[i]? = some m) {observed : List Atom}
    (observes : ∀ a ∈ observed, m.observes a) (proper : ∀ a ∈ observed, a ≠ topAtom) :
    ∀ a ∈ observed, (c.atoms.value a).isSome → ∃ l ∈ (c.theories.heard i).entries, l.atom = a :=
  told.complete_of_head h found (delivered m (List.mem_of_getElem? found)) observes proper

/-- A theory that has been told of a full valuation on its atoms, and agrees, is satisfied by it. -/
theorem Context.Settles.models [Constraint σ] [LawfulConstraint σ] (h : c.Coherent) (told : c.Told)
    (delivered : c.AllDelivered) (values : ∀ a < c.atoms.count, c.atoms.value a = some (v a)) {i : Nat}
    {root : σ} {m : Member σ} (isBuilt : IsBuilt root) (stems : c.theories.Stems i root m)
    (observes : ∀ a ∈ Constraint.atoms root, m.observes a) (settles : c.Settles i) : Models v root := by
  obtain ⟨m', found, agrees⟩ := settles
  obtain rfl : m = m' := Option.some.inj (stems.1.symm.trans found)
  have complete : ∀ a ∈ Constraint.atoms root, ∃ l ∈ (c.theories.heard i).entries, l.atom = a := by
    intro a inRoot
    have known := told.known m (List.mem_of_getElem? found) a (of_decide_eq_true (observes a inRoot))
    exact told.complete h delivered found observes (LawfulConstraint.proper isBuilt) a inRoot
      (by rw [values a known]; rfl)
  have holds : ∀ l ∈ (c.theories.heard i).entries, l.Holds v := fun l inHeard =>
    h.supports.atoms.holds_of_mem values ((told.mem_heard delivered found).mp inHeard).1
  have facts := (told.delivered i m found).areFacts h.supports.atoms
  rcases agrees with hint | ⟨flushed, theory, origin, ran⟩
  · exact LawfulConstraint.settled (i := i) (s := c.atoms) isBuilt (stems.recalls isBuilt) facts complete
      (.inl hint) holds
  · exact LawfulConstraint.settled isBuilt (stems.recalls_flushed isBuilt origin) facts complete
      (.inr ⟨theory, ran⟩) holds

end Full

namespace PublicRun

variable {settings : Settings} {events : List (Event σ)} {e : Event σ} {s : Session σ}

/-- A search that ends with the answer that there is a solution has found one on its way. -/
theorem solvedFrom_of_satisfiable (run : PublicRun settings (events ++ [e]) s)
    (searched : e.command = .solve) (found : e.result = .ok (.report .satisfiable)) :
    e.before.context.SolvedFrom s.context := by
  obtain ⟨_, _, rfl⟩ := run.of_concat
  obtain ⟨h, taken, _⟩ := run.ran e (List.mem_append_right _ (.head _))
  have executed := (Session.step_eq_ok taken).1
  rw [searched, found] at executed
  refine Command.ensures_answer (f := .report) (q := fun result after =>
    result = .ok (.report .satisfiable) → e.before.context.SolvedFrom after)
    ((Procedure.solve_course h).mono fun result after solved same => ?_) _ _ executed rfl
  cases result with
  | error cause => cases same
  | ok report =>
    cases same
    split at solved
    · exact absurd solved.1 (by simp)
    · exact solved.2.2

/-- Where a search has found every atom valued, the values satisfy the theories that were registered before. -/
theorem models_of_solvedFrom [Constraint σ] [LawfulConstraint σ] {v : Atom → Bool} {after : Context σ}
    (run : PublicRun settings events s) (observed : AllObserved events) (solved : s.context.SolvedFrom after)
    (values : ∀ a < after.atoms.count, after.atoms.value a = some (v a)) (member : e ∈ events) {theory : σ}
    (isBuilt : IsBuilt theory) (registers : e.Registers theory) : Models v theory := by
  obtain ⟨full, further, _, _, sameAtoms, _, settled⟩ := solved
  rw [sameAtoms] at values
  have h := Moves.coherent further run.coherent.1
  have told := Moves.told further run.coherent.1 run.told
  obtain ⟨given, i, registered⟩ := registers
  obtain ⟨m, stems⟩ := run.stems_of_registers member given registered
  have observes : ∀ a ∈ Constraint.atoms theory, m.observes a :=
    run.observes_all stems.1 fun a inTheory => observed e member theory i given registered a inTheory
  obtain ⟨m₁, stems₁, more₁⟩ := Moves.stems further stems
  obtain ⟨mid, draws, same, delivered, settles⟩ := settled i (List.getElem?_eq_some_iff.mp stems₁.1).1
  obtain ⟨m₂, stems₂, more₂⟩ := Moves.stems (Draws.moves draws : Moves .any _ _) stems₁
  refine settles.models (Draws.coherent draws h) (Moves.told (Draws.moves draws : Moves .any _ _) h told)
    delivered ?_ isBuilt stems₂ fun a inTheory => more₂ a (more₁ a (observes a inTheory))
  rw [same]
  exact values

/-- Where a search has found every atom valued, the values satisfy all that the run has taken before. -/
theorem solves_of_solvedFrom [Constraint σ] [LawfulConstraint σ] {v : Atom → Bool} {after : Context σ}
    (run : PublicRun settings events s)
    (never : ∀ e ∈ events, e.after.context.phase ≠ .unsatisfiable)
    (proper : ∀ e ∈ events, ∀ clause, e.Accepts clause → ∀ l ∈ clause, l.atom ≠ topAtom)
    (built : ∀ e ∈ events, ∀ theory, e.Registers theory → IsBuilt theory) (observed : AllObserved events)
    (solved : s.context.SolvedFrom after)
    (values : ∀ a < after.atoms.count, after.atoms.value a = some (v a)) : Solves v events := by
  refine ⟨fun e member clause accepts => ?_, fun e member theory registers =>
    run.models_of_solvedFrom observed solved values member (built e member theory registers) registers⟩
  obtain ⟨full, further, atEnd, _, sameAtoms, _, _⟩ := solved
  rw [sameAtoms] at values
  have reached : Moves .any (.ofSettings settings) full :=
    (run.moves never).1.trans ((Intake.le_any _).moves further)
  have initial := Context.Coherent.initial (σ := σ) settings
  have h := Moves.coherent reached initial
  have alerts := Moves.alerts reached initial (.initial settings)
  rcases run.stored_of_accepts never member accepts with ⟨l, inClause, opposite⟩ | ⟨key, d, found, same⟩
  · by_cases holds : l.Holds v
    · exact ⟨l, inClause, holds⟩
    · exact ⟨l.negate, opposite, (Literal.holds_negate (proper e member clause accepts l inClause)).mpr holds⟩
  · exact (alerts.holds h atEnd values (Moves.get?_clauses further found)).of_mem_iff
      fun l => (same l).symm

end PublicRun

section Reference

variable {settings : Settings} {events : List (Event (AtMost ⊕ Reachability))}
  {e : Event (AtMost ⊕ Reachability)} {s : Session (AtMost ⊕ Reachability)}

/-- When a search answers that there is a solution, on a run on which it never turned out that there is
none, every atom has a value, and the values satisfy all clauses that were accepted and all theories that
were registered. -/
theorem PublicRun.solves_of_satisfiable (run : PublicRun settings (events ++ [e]) s)
    (proper : ∀ e ∈ events, ∀ clause, e.Accepts clause → ∀ l ∈ clause, l.atom ≠ topAtom)
    (built : ∀ e ∈ events, ∀ theory, e.Registers theory → IsBuilt theory) (observed : AllObserved events)
    (never : ∀ e ∈ events, e.after.context.phase ≠ .unsatisfiable)
    (searched : e.command = .solve) (found : e.result = .ok (.report .satisfiable)) :
    (∀ a < s.context.atoms.count, (s.context.atoms.value a).isSome) ∧
      ∀ v : Atom → Bool, (∀ a < s.context.atoms.count, s.context.atoms.value a = some (v a)) →
        Solves v events := by
  have solved := run.solvedFrom_of_satisfiable searched found
  obtain ⟨earlier, _, _⟩ := run.of_concat
  refine ⟨?_, fun v values => earlier.solves_of_solvedFrom never proper built observed solved values⟩
  obtain ⟨full, _, _, none', same, _⟩ := solved
  intro a known
  rw [same] at known ⊢
  by_contra unset
  have unvalued := Atoms.mem_unvalued.mpr ⟨known, Option.not_isSome_iff_eq_none.mp unset⟩
  rw [none'] at unvalued
  cases unvalued

/-- One of two atoms may be true at most, and the first is and needs an edge on the third. -/
theorem solves_bound_and_edge :
    ∃ (events : List (Event (AtMost ⊕ Reachability))) (e : Event (AtMost ⊕ Reachability))
      (s : Session (AtMost ⊕ Reachability)), PublicRun {} (events ++ [e]) s ∧
      events.map (·.command) = [.freshLiterals 3, .addClause [⟨1⟩],
        .addTheory (.inl (.ofMembers [⟨1⟩, ⟨2⟩] 1)),
        .addTheory (.inr (Reachability.addEdge (.ofNodes 2 0 1 1) ⟨0, 1, 3⟩)), .observe 0 1, .observe 0 2,
        .observe 1 1, .observe 1 3] ∧
      e.command = .solve ∧ e.result = .ok (.report .satisfiable) ∧
      Solves (fun a => (s.context.atoms.value a).getD false) events := by
  obtain ⟨_, between, ran, checked⟩ := Session.of_run_any
    (Session.ofSettings {} : Session (AtMost ⊕ Reachability))
    [.freshLiterals 3, .addClause [⟨1⟩], .addTheory (.inl (.ofMembers [⟨1⟩, ⟨2⟩] 1)),
      .addTheory (.inr (Reachability.addEdge (.ofNodes 2 0 1 1) ⟨0, 1, 3⟩)), .observe 0 1, .observe 0 2,
      .observe 1 1, .observe 1 3]
    (fun (results, s) =>
      decide (results = [.ok (.literals [⟨1⟩, ⟨2⟩, ⟨3⟩]), .ok (.clause (.added (.given 0))),
        .ok (.theory 0), .ok (.theory 1), .ok .done, .ok .done, .ok .done, .ok .done]) &&
      (s.run [.solve]).toOption.any fun (results, _) =>
        decide (results = [.ok (.report .satisfiable)]))
    (by decide +kernel)
  rw [Bool.and_eq_true, decide_eq_true_eq] at checked
  obtain ⟨rfl, more⟩ := checked
  obtain ⟨_, s, ranMore, checked⟩ := Session.of_run_any _ _ _ more
  obtain rfl := of_decide_eq_true checked
  obtain ⟨events, run, commands, results⟩ := PublicRun.of_run (by simp [Command.IsPublic]) ran
  obtain ⟨last, whole, lastCommand, lastResult⟩ := run.extend (by simp [Command.IsPublic]) ranMore
  obtain ⟨e, rfl⟩ : ∃ e, last = [e] := List.length_eq_one_iff.mp (by
    rw [← List.length_map (f := (·.command)), lastCommand]
    rfl)
  rw [List.map_singleton, List.singleton_inj] at lastCommand lastResult
  have pairs := Event.pairs_eq_zip commands results
  have answer : ∀ e' ∈ events, (e'.command, e'.result) ∈ events.map fun e => (e.command, e.result) :=
    fun e' member => List.mem_map_of_mem member
  have observes : ∀ i a, (.observe i a, .ok .done) ∈ events.map (fun e => (e.command, e.result)) →
      ∃ o ∈ events, o.Observes i a := by
    intro i a member
    obtain ⟨o, inside, same⟩ := List.mem_map.mp member
    exact ⟨o, inside, congrArg Prod.fst same, congrArg Prod.snd same⟩
  rw [pairs] at answer observes
  have proper : ∀ e' ∈ events, ∀ clause, e'.Accepts clause → ∀ l ∈ clause, l.atom ≠ topAtom := by
    rintro e' member clause ⟨given, _⟩
    have answered := answer e' member
    simp only [List.zip_cons_cons, List.zip_nil_right, given, List.mem_cons, Prod.mk.injEq, reduceCtorEq,
      Command.addClause.injEq, List.not_mem_nil, false_and, false_or, or_false] at answered
    rw [answered.1]
    decide
  have built : ∀ e' ∈ events, ∀ theory, e'.Registers theory → IsBuilt theory := by
    rintro e' member theory ⟨given, _⟩
    have answered := answer e' member
    simp only [List.zip_cons_cons, List.zip_nil_right, given, List.mem_cons, Prod.mk.injEq, reduceCtorEq,
      Command.addTheory.injEq, List.not_mem_nil, false_and, false_or, or_false] at answered
    rcases answered with ⟨rfl, _⟩ | ⟨rfl, _⟩
    · exact ⟨[⟨1⟩, ⟨2⟩], 1, rfl, by decide⟩
    · exact ⟨⟨2, 0, 1, 1, .latestFirst, [⟨0, 1, 3⟩], rfl, by decide⟩, by decide⟩
  have observed : AllObserved events := by
    intro e' member theory i given registered a inTheory
    have answered := answer e' member
    simp only [List.zip_cons_cons, List.zip_nil_right, given, registered, List.mem_cons, Prod.mk.injEq,
      reduceCtorEq, Command.addTheory.injEq, Except.ok.injEq, Answer.theory.injEq, List.not_mem_nil,
      false_and, false_or, or_false] at answered
    rcases answered with ⟨rfl, rfl⟩ | ⟨rfl, rfl⟩
    · have either : a = 1 ∨ a = 2 := List.mem_pair.mp inTheory
      rcases either with rfl | rfl
      all_goals exact observes _ _ (by simp)
    · have either : a = 1 ∨ a = 3 := List.mem_pair.mp inTheory
      rcases either with rfl | rfl
      all_goals exact observes _ _ (by simp)
  have never : ∀ e' ∈ events, e'.after.context.phase ≠ .unsatisfiable := by
    refine run.phase_ne fun e' member => ?_
    have quiet : ∀ result ∈ events.map (·.result), ¬Command.Refuting result := by
      rw [results]
      decide
    exact quiet _ (List.mem_map_of_mem member)
  obtain ⟨full, solves⟩ := PublicRun.solves_of_satisfiable whole proper built observed never lastCommand
    lastResult
  refine ⟨events, e, s, whole, commands, lastCommand, lastResult, solves _ fun a known => ?_⟩
  obtain ⟨value, valued⟩ := Option.isSome_iff_exists.mp (full a known)
  rw [valued, Option.getD_some]

end Reference

end SatModulo
