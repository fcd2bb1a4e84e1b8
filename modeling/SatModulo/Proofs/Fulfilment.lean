import SatModulo.Proofs.FirstUip
import SatModulo.Proofs.Solutions
import SatModulo.Proofs.Timeline

/-!
# What is so in a satisfiable context

A context is satisfiable only since a search that answered so (`Procedure.solve_found`, `Command.keeps`). That
search leaves every atom with a value, and every stored clause with a true literal, unless a clause had been
stored that is false at the base level. Later commands keep the phase, though a return takes values away and
new atoms have none. So what the phase says is so for as long as every command maintains it
(`PublicRun.fulfilled_of_satisfiable`).
-/
namespace SatModulo

variable {σ : Type} {c c' : Context σ}

/-- Every atom has a value, and every stored clause a literal that is true. -/
structure Context.Fulfilled (c : Context σ) : Prop where
  valued : ∀ a < c.atoms.count, (c.atoms.value a).isSome
  holds : ∀ key clause, c.clauses.get? key = some clause → ∃ l ∈ clause, c.valueOf l = some true

/-- A stored clause is false at the base level. -/
def Context.Refuted (c : Context σ) : Prop :=
  ∃ key clause, c.clauses.get? key = some clause ∧
    ∀ l ∈ clause, c.valueOf l = some false ∧ c.atoms.levelOf l.atom = some 0

theorem Context.Refuted.not_fulfilled (refuted : c.Refuted) : ¬c.Fulfilled := by
  obtain ⟨key, clause, stored, falsified⟩ := refuted
  intro fulfilled
  obtain ⟨l, member, isTrue⟩ := fulfilled.holds key clause stored
  rw [(falsified l member).1] at isTrue
  cases isTrue

namespace Event

/-- A clause with literals was given, and it was answered that there is no solution. -/
def Contradicts (e : Event σ) : Prop :=
  ∃ clause, clause ≠ [] ∧ e.command = .addClause clause ∧ e.result = .ok (.clause .unsatisfiable)

/-- The level is not lowered, and the atoms that are added have a value afterwards. -/
structure Maintains (e : Event σ) : Prop where
  level : e.before.context.level ≤ e.after.context.level
  added : ∀ a < e.after.context.atoms.count, e.before.context.atoms.count ≤ a →
    (e.after.context.atoms.value a).isSome

end Event

/-! ### Being found satisfiable -/

namespace Context

/-- A context comes to another without a new clause, without going back, and without being found
satisfiable. -/
structure Stays (c c' : Context σ) : Prop where
  atoms : c.atoms.Extends c'.atoms
  clauses : c'.clauses = c.clauses
  level : c'.level = c.level
  phase : c'.phase = .satisfiable → c.phase = .satisfiable

namespace Stays

theorem refl (c : Context σ) : c.Stays c := ⟨.refl _, rfl, rfl, id⟩

theorem trans {c'' : Context σ} (first : c.Stays c') (second : c'.Stays c'') : c.Stays c'' where
  atoms := first.atoms.trans second.atoms
  clauses := second.clauses.trans first.clauses
  level := second.level.trans first.level
  phase := first.phase ∘ second.phase

instance : Std.Refl (Stays : Context σ → Context σ → Prop) := ⟨refl⟩

instance : IsTrans _ (Stays : Context σ → Context σ → Prop) := ⟨fun _ _ _ => trans⟩

theorem begun (c : Context σ) : c.Stays { c with phase := c.phase.begun } := by
  refine ⟨.refl _, rfl, rfl, fun found => ?_⟩
  cases phase : c.phase <;> simp_all [Phase.begun]

variable [Theory σ]

theorem of_draws (draws : Draws c c') : c.Stays c' where
  atoms := draws.extends
  clauses := draws.frame.2.2.2.1
  level := draws.frame.2.1
  phase found := draws.frame.2.2.2.2.1 ▸ found

theorem builds : Builds (Stays : Context σ → Context σ → Prop) where
  adjust c _ _ _ _ := ⟨.refl c.atoms, rfl, rfl, id⟩
  build {c c'} build := by
    cases build with
    | fresh previous a atoms success =>
      exact ⟨.fresh success, rfl, congrArg Trail.level (Atoms.fresh_eq_ok success).2.2.1, id⟩
    | give clause key clauses given => exact given.elim
    | giveUnit clause key clauses l atoms given => exact given.elim
    | register => exact ⟨.refl _, rfl, rfl, id⟩
    | observe => exact ⟨.refl _, rfl, rfl, id⟩
  begun c := .single (begun c)

end Stays

/-- Nothing is taken back, and a clause that is new is not false. -/
structure Enlarges (c c' : Context σ) : Prop where
  atoms : c.atoms.Extends c'.atoms
  stored : ∀ key d, c'.clauses.get? key = some d →
    c.clauses.get? key = some d ∨ ∃ l ∈ d, c'.valueOf l ≠ some false

theorem Stays.enlarges (stays : c.Stays c') : c.Enlarges c' :=
  ⟨stays.atoms, fun _ _ stored => .inl (stays.clauses ▸ stored)⟩

/-- A clause is stored that is not false afterwards. -/
theorem Stays.enlarges_of_store {mid : Context σ} (stays : c.Stays mid) {clause : Clause} {learnt : Bool}
    {key : ClauseKey} (stored : mid.clauses.store clause learnt = .ok (key, c'.clauses))
    (ext : mid.atoms.Extends c'.atoms) (open' : ∃ l ∈ clause, c'.valueOf l ≠ some false) : c.Enlarges c' := by
  refine ⟨stays.atoms.trans ext, fun other d found => ?_⟩
  rcases (ClauseStore.get?_store_iff stored other d).mp found with old | ⟨_, rfl⟩
  · exact .inl (stays.clauses ▸ old)
  · exact .inr open'

end Context

variable [Theory σ]

namespace Procedure

/-- What an answer to a clause means for what is so in a context. -/
def AnswersClause (clause : Clause) (c : Context σ) (result : Except Error ClauseOutcome)
    (after : Context σ) : Prop :=
  match result with
  | .ok .unsatisfiable => after.phase = .unsatisfiable ∧ (clause ≠ [] → after.level = 0 ∧
      ∃ key d, after.clauses.get? key = some d ∧ ∀ l ∈ d, after.valueOf l = some false)
  | _ => (after.phase = .satisfiable → c.phase = .satisfiable) ∧ after.level = c.level ∧ c.Enlarges after

omit [Theory σ] in
theorem AnswersClause.of_stays {clause : Clause} {result : Except Error ClauseOutcome} (stays : c.Stays c')
    (open' : result ≠ .ok .unsatisfiable) : AnswersClause clause c result c' := by
  unfold AnswersClause
  split
  · exact absurd rfl open'
  · exact ⟨stays.phase, stays.level, stays.enlarges⟩

theorem addClause_answers (clause : Clause) : (addClause clause).Ensures c (AnswersClause clause c) := by
  unfold addClause
  refine .get_bind ?_
  dsimp only
  split
  · exact .throw_bind (.of_stays (.refl c) nofun)
  · rename_i base
    have ensured := ensureAtoms_leads (c := c) Context.Stays.builds clause
    rw [Leads, Relation.reflTransGen_eq_self] at ensured
    refine .bind ensured (fun e after failed => .of_stays failed.1 nofun) ?_
    rintro ⟨⟩ mid ⟨stays, level, _, known⟩
    replace base : mid.level = 0 := level.trans (Decidable.not_not.mp base)
    refine .ofFaulty_bind fun normal normalised => ?_
    have sameLiterals := Clause.normalise_eq_ok normalised
    split
    · exact .pure (.of_stays stays nofun)
    · refine .modify_bind (.pure ⟨rfl, fun literals => ?_⟩)
      obtain ⟨l, member⟩ := List.exists_mem_of_ne_nil _ literals
      cases (sameLiterals.2 l).mpr member
    · rename_i d _
      obtain ⟨_, same⟩ := sameLiterals
      refine .get_bind (.get_bind (.ofExcept_bind (fun e _ => .of_stays stays nofun) ?_))
      rintro ⟨key, clauses⟩ stored
      have begun := stays.trans (.begun mid)
      refine .modify_bind (.modify_bind ?_)
      dsimp only
      split
      · rename_i l unit
        obtain ⟨member, unset, _⟩ := Clause.stateOn_eq_unit unit
        refine .bind (m := fun result after => ∃ atoms,
            mid.atoms.assign l (.clause key) = .ok (.unset, atoms) ∧ result = .ok .unset ∧
              after = { mid with clauses, atoms, phase := mid.phase.begun })
          (assign_unset (known l ((same l).mp member)) unset fun atoms made => ⟨atoms, made, rfl, rfl⟩) ?_ ?_
        · rintro e after ⟨_, _, failed, _⟩
          cases failed
        · rintro status after ⟨atoms, made, _, rfl⟩
          refine .pure ⟨begun.phase, (Atoms.level_assign made).trans stays.level,
            stays.enlarges_of_store stored (.assign made) ⟨l, member, ?_⟩⟩
          rw [Context.valueOf, Atoms.valueOf_assign_self made]
          decide
      · rename_i falsified
        exact .modify_bind (.pure ⟨rfl, fun _ => ⟨base, key, d, (ClauseStore.store_eq_ok stored).2.2.1,
          Clause.stateOn_eq_falsified.mp falsified⟩⟩)
      · rename_i unforced
        refine .pure ⟨begun.phase, begun.level, stays.enlarges_of_store stored (.refl _) ?_⟩
        by_contra falsified
        push Not at falsified
        rw [Clause.stateOn_eq_falsified.mpr falsified] at unforced
        cases unforced

theorem addTheory_stays (theory : σ) : (addTheory theory).Ensures c fun _ after => c.Stays after := by
  refine .get_bind ?_
  dsimp only
  split
  · exact .throw_bind (.refl c)
  · refine .modify_bind (.ofExcept_bind (fun _ _ => ⟨.refl _, rfl, rfl, id⟩) fun index _ => ?_)
    have begun := Context.Stays.begun { c with theories := (c.theories.register theory).2 }
    exact .modify_bind (.pure ⟨begun.atoms, begun.clauses, begun.level, begun.phase⟩)

theorem Retreated.phase_eq {level : Nat} (retreated : Retreated level c c') : c'.phase = c.phase := by
  unfold Retreated at retreated
  split at retreated
  · obtain ⟨retracted, theories, _, _, rfl⟩ := retreated
    rfl
  · rw [retreated]

omit [Theory σ] in
theorem assign_phase (l : Literal) (reason : Reason) :
    (assign l reason : Procedure σ Status).Ensures c fun _ after => after.phase = c.phase :=
  .get_bind (.ofExcept_bind (fun _ _ => rfl) fun _ _ => .modify_bind (.pure rfl))

theorem assertLearnt_phase (key : ClauseKey) (l : Literal) (level : Nat) :
    (assertLearnt key l level : Procedure σ Recovery).Ensures c fun _ after => after.phase = c.phase := by
  refine .bind (backjump_course level) (fun e _ failed => by cases failed.1) ?_
  rintro ⟨⟩ back ⟨_, retreated⟩
  refine .bind (assign_phase l _) (fun _ _ kept => kept.trans retreated.phase_eq) fun status after kept => ?_
  split
  · exact .pure (kept.trans retreated.phase_eq)
  · exact .throw (kept.trans retreated.phase_eq)

/-- Recovery from a clause keeps what a context is at, or finds out that there is no solution. -/
theorem recoverClause_phase (clause : Clause) : (recoverClause clause).Ensures c fun _ after =>
    after.phase = c.phase ∨ after.phase = .unsatisfiable := by
  refine .bind (conflictLevel_still clause) (fun _ _ held => .inl held.2) ?_
  rintro level mid ⟨_, same⟩
  dsimp only
  split
  · exact .modify_bind (.pure (.inr rfl))
  · refine .bind (backjump_course level) (fun e _ failed => by cases failed.1) ?_
    rintro ⟨⟩ back ⟨_, retreated⟩
    replace same := retreated.phase_eq.trans same
    refine .bind (analyse_still clause) (fun _ _ held => .inl (held.2.trans same)) ?_
    rintro learnt last ⟨_, still⟩
    replace same := still.trans same
    cases learnt with
    | unit key l => exact (assertLearnt_phase key l 0).mono fun _ _ kept => .inl (kept.trans same)
    | asserting key l level => exact (assertLearnt_phase key l level).mono fun _ _ kept => .inl (kept.trans same)

theorem recover_phase (conflict : Conflict) : (recover conflict : Procedure σ Recovery).Ensures c
    fun _ after => after.phase = c.phase ∨ after.phase = .unsatisfiable := by
  refine .modify_bind ?_
  cases conflict with
  | clause key =>
    exact .get_bind (.ofExcept_bind (fun _ _ => .inl rfl) fun clause _ => recoverClause_phase clause)
  | theory i clause => exact recoverClause_phase clause

/-- An iteration finds a solution only if it says so. -/
theorem iterate_found (h : c.Coherent) (open' : c.phase ≠ .unsatisfiable) :
    (iterate : Procedure σ (Option Report)).Ensures c fun result after => after.phase = .satisfiable →
      c.phase = .satisfiable ∨ result = .ok (some .satisfiable) := by
  rw [iterate_eq]
  refine .bind (explore_course h open') (fun e mid explored found => ?_) fun outcome mid explored => ?_
  · exact .inl ((explored.found found).resolve_right nofun)
  · cases outcome with
    | ok report =>
      refine .pure fun found => (explored.found found).imp_right fun same => ?_
      cases same
      rfl
    | error conflict =>
      have before : mid.phase = .satisfiable → c.phase = .satisfiable := fun found =>
        (explored.found found).resolve_right nofun
      have kept : ∀ {after : Context σ}, after.phase = mid.phase ∨ after.phase = .unsatisfiable →
          after.phase = .satisfiable → c.phase = .satisfiable := by
        rintro after (same | same) found
        · exact before (same ▸ found)
        · rw [same] at found
          cases found
      refine .bind (recover_phase conflict) (fun _ _ same found => .inl (kept same found)) ?_
      intro recovery after same
      cases recovery with
      | unsatisfiable => exact .pure fun found => .inl (kept same found)
      | asserted => exact .pure fun found => .inl (kept same found)

theorem iterateWithin_found (h : c.Coherent) (open' : c.phase ≠ .unsatisfiable) (fuel : Nat) :
    (iterateWithin fuel : Procedure σ Report).Ensures c fun result after => after.phase = .satisfiable →
      c.phase = .satisfiable ∨ result = .ok .satisfiable := by
  induction fuel generalizing c with
  | zero => exact .pure .inl
  | succ fuel ih =>
    refine .bind ((iterate_course h open').both (iterate_found h open')) ?_ ?_
    · rintro e after ⟨_, found⟩ satisfiable
      exact .inl ((found satisfiable).resolve_right nofun)
    · rintro (_ | report) after ⟨searched, found⟩
      · have moves : Moves decidesAtEnd c after := searched
        refine (ih (moves.coherent h) (moves.phase_ne open')).mono fun result last more satisfiable => ?_
        exact (more satisfiable).imp_left fun before => (found before).resolve_right nofun
      · refine .pure fun satisfiable => (found satisfiable).imp_right fun same => ?_
        cases same
        rfl

/-- A search leaves a context satisfiable only with the answer that it is. -/
theorem solve_found (h : c.Coherent) : (solve : Procedure σ Report).Ensures c fun result after =>
    after.phase = .satisfiable → result = .ok .satisfiable := by
  by_cases refuted : c.phase = .unsatisfiable
  · refine (solve_course h).mono fun result after searched found => ?_
    rw [if_pos refuted] at searched
    rw [searched.2, refuted] at found
    cases found
  · suffices searches : (beginSearch >>= fun _ => do iterateWithin (iterationBound (← get).atoms.count) :
        Procedure σ Report).Ensures c fun result after => after.phase = .satisfiable →
          result = .ok .satisfiable by
      intro result after ran
      rw [run_solve refuted] at ran
      exact searches result after ran
    have begins : (beginSearch : Procedure σ Unit).Ensures c fun result after => result = .ok () ∧
        c.Passes (fun _ => True) after ∧ after.Coherent ∧ after.phase = .solving :=
      beginSearch_passes h refuted
    refine .bind begins (fun e _ failed => by cases failed.1) ?_
    rintro ⟨⟩ begun ⟨_, _, coherent, solving⟩
    have iterates := iterateWithin_found coherent (by simp [solving]) (iterationBound begun.atoms.count)
    exact .get_bind (iterates.mono fun _ _ found satisfiable =>
      (found satisfiable).resolve_left (by simp [solving]))

end Procedure

/-- Without going back, clauses are stored only if they are given. -/
theorem Move.clauses_eq {taking : Intake σ} (move : Move taking c c') (ungiven : ∀ d, ¬taking.clause d)
    (onward : ¬Jump c c') : c'.clauses = c.clauses := by
  cases move with
  | draw draw => exact (Draws.frame (.single draw)).2.2.2.1
  | jump jump => exact absurd jump onward
  | decide allowed decide => cases decide; rfl
  | build build =>
    cases build with
    | give clause key clauses given => exact absurd given (ungiven _)
    | giveUnit clause key clauses l atoms given => exact absurd given (ungiven _)
    | _ => rfl
  | settle => rfl
  | configure => rfl

theorem Moves.enlarges {taking : Intake σ} (moves : Moves taking c c')
    (undecided : ∀ mid, ¬taking.decides mid) (ungiven : ∀ d, ¬taking.clause d) (high : c.level ≤ c'.level) :
    c.Enlarges c' := by
  suffices same : c'.clauses = c.clauses from
    ⟨moves.extends_of_level_le undecided high, fun _ _ stored => .inl (same ▸ stored)⟩
  have onward := moves.onward undecided high
  clear moves high
  induction onward with
  | refl => rfl
  | tail _ step ih => exact (step.1.clauses_eq ungiven step.2).trans ih

namespace Command

open Procedure

/-- What a command that is no search does to a context that is satisfiable afterwards: it was so before, and
what is not a return only adds to it. -/
structure Keeps (command : Command σ) (c after : Context σ) : Prop where
  phase : c.phase = .satisfiable
  back : after.level < c.level →
    command = .recover ∨ ∃ level, command = .backjump level ∧ Retreated level c after
  onward : c.level ≤ after.level → c.Enlarges after

theorem Keeps.of_stays {command : Command σ} (stays : c.Stays c') (found : c'.phase = .satisfiable) :
    command.Keeps c c' where
  phase := stays.phase found
  back low := absurd stays.level (Nat.ne_of_lt low)
  onward _ := stays.enlarges

theorem keeps (h : c.Coherent) (command : Command σ) {told : Bool} (allowed : command.IsPublic told)
    (kept : Option Conflict)
    (recovers : command = .recover → ∀ conflict, kept = some conflict → c.Conflicting conflict)
    (other : command ≠ .solve) :
    (command.procedure kept).Ensures c fun _ after => after.phase = .satisfiable → command.Keeps c after := by
  cases command with
  | addClause clause =>
    refine ensures_answer ((addClause_answers clause).mono fun result after answered found => ?_)
    unfold AnswersClause at answered
    split at answered
    · rw [answered.1] at found
      cases found
    · exact ⟨answered.1 found, fun low => absurd answered.2.1 (Nat.ne_of_lt low), fun _ => answered.2.2⟩
  | addTheory theory => exact ensures_answer ((addTheory_stays theory).mono fun _ _ => .of_stays)
  | changeSetting change =>
    refine .get_bind (.ofExcept_bind (fun _ _ => .of_stays (.refl c)) fun settings _ => ?_)
    rintro result after ⟨⟩
    exact .of_stays ⟨.refl _, rfl, rfl, id⟩
  | decideLiteral l =>
    refine ensures_answer ((decideLiteral_course l).mono fun result after made found => ?_)
    cases result with
    | error e => exact .of_stays (.of_draws made.1) found
    | ok _ =>
      rw [made.2] at found
      cases found
  | makeDecision =>
    refine ensures_answer ((makeDecision_course h).mono fun result after made found => ?_)
    rcases result with e | l | _
    · exact .of_stays (.of_draws made.1) found
    · rw [made.2] at found
      cases found
    · exact .of_stays (.of_draws made.1) found
  | backjump level =>
    refine ensures_answer ((backjump_course level).mono fun result after ⟨_, returned⟩ found => ?_)
    refine ⟨returned.phase_eq ▸ found, fun _ => .inr ⟨level, rfl, returned⟩, fun high => ?_⟩
    exact Moves.enlarges (returned.moves : Moves {} c after) (fun _ => id) (fun _ => id) high
  | clearDecisions =>
    refine ensures_answer (.bind (backjump_course 0) (fun e _ failed => by cases failed.1) ?_)
    rintro ⟨⟩ back ⟨_, returned⟩
    refine .get_bind ?_
    split
    · exact .modify nofun
    · rename_i refuted
      refine .pure fun found => ?_
      rw [found] at refuted
      exact absurd (by decide) refuted
  | recover =>
    cases kept with
    | none => exact .pure (.of_stays (.refl c))
    | some conflict =>
      have course := recover_course h (recovers rfl conflict rfl)
      refine ensures_answer ((course.both (recover_phase conflict)).mono ?_)
      rintro result after ⟨recovered, same⟩ found
      have same := same.resolve_right fun refuted => by rw [refuted] at found; cases found
      have moves : Moves {} c after := by
        rcases result with e | _ | _
        · exact recovered.1
        · obtain ⟨mid, _, refuted⟩ := recovered
          rw [refuted.phase_eq] at found
          cases found
        · exact recovered.moves
      exact ⟨same ▸ found, fun _ => .inl rfl, moves.enlarges (fun _ => id) fun _ => id⟩
  | recoverFrom conflict => exact allowed.elim
  | analyse clause => exact allowed.elim
  | solve => exact absurd rfl other
  | _ =>
    -- What is left is plain.
    refine (plain_relates (fun draw => .of_draws (.single draw)) Context.Stays.builds h ?_ kept).mono
      fun _ _ => .of_stays
    exact trivial

end Command

/-! ### What is fulfilled -/

omit [Theory σ] in
theorem Context.Fulfilled.of_enlarges (fulfilled : c.Fulfilled) (h' : c'.Coherent) (enlarges : c.Enlarges c')
    (added : ∀ a < c'.atoms.count, c.atoms.count ≤ a → (c'.atoms.value a).isSome) : c'.Fulfilled := by
  have kept : ∀ a v, c.atoms.value a = some v → c'.atoms.value a = some v := by
    intro a v value
    obtain ⟨given, assigned, same⟩ := Atoms.value_eq_some.mp value
    exact Atoms.value_eq_some.mpr ⟨given, enlarges.atoms.assignment a given assigned, same⟩
  have valued : ∀ a < c'.atoms.count, (c'.atoms.value a).isSome := by
    intro a known
    rcases Nat.lt_or_ge a c.atoms.count with old | new
    · obtain ⟨v, value⟩ := Option.isSome_iff_exists.mp (fulfilled.valued a old)
      rw [kept a v value]
      rfl
    · exact added a known new
  refine ⟨valued, fun key clause stored => ?_⟩
  rcases enlarges.stored key clause stored with old | ⟨l, member, open'⟩
  · obtain ⟨l, member, isTrue⟩ := fulfilled.holds key clause old
    exact ⟨l, member, Literal.valueOn_eq_true.mpr (kept _ _ (Literal.valueOn_eq_true.mp isTrue))⟩
  · have known := valued l.atom (h'.supports.known key clause stored l member)
    refine ⟨l, member, ?_⟩
    match value : c'.valueOf l with
    | none =>
      rw [Literal.valueOn_eq_none.mp value] at known
      cases known
    | some false => exact absurd value open'
    | some true => rfl

/-- A return takes the value of an atom away. -/
theorem Procedure.Retreated.exists_unvalued {level : Nat} (returned : Retreated level c c') (h : c.Coherent)
    (opened : c.Opened) (low : c'.level < c.level) : ∃ a < c'.atoms.count, c'.atoms.value a = none := by
  have below : level < c.level := by
    by_contra high
    rw [Retreated, if_neg high] at returned
    exact absurd low (returned ▸ Nat.lt_irrefl _)
  obtain ⟨l, entered⟩ := List.exists_mem_of_ne_nil _
    (opened.atoms.inhabited c.level (Nat.lt_of_le_of_lt (Nat.zero_le _) low) (Nat.le_refl _))
  refine ⟨l.atom, ?_, ?_⟩
  · rw [returned.stack_eq.2]
    exact Atoms.lt_count_of_assignment ((h.supports.atoms.mem_entriesAt_iff l c.level).mp entered).choose_spec
  · rw [Atoms.value_eq_none, returned.atoms_eq]
    have above := h.supports.atoms.levelOf_of_mem entered
    exact ClauseStore.Supports.assignment_of_high h.supports.atoms above below

/-- What a return takes back was not given at the base level. -/
theorem Move.assignment_of_base {taking : Intake σ} (move : Move taking c c') (h : c.Coherent) {a : Atom}
    (base : c.atoms.levelOf a = some 0) : c'.atoms.assignment a = c.atoms.assignment a := by
  obtain ⟨given, assigned, _⟩ := Atoms.levelOf_eq_some.mp base
  have kept : ∀ level, (c.atoms.forgetAbove level).2.assignment a = some given := fun level =>
    (ClauseStore.Supports.assignment_of_low h.supports.atoms base (Nat.zero_le level)).trans assigned
  rw [assigned]
  rcases move.extends_or_jump with ext | jump
  · exact ext.assignment a given assigned
  · cases jump with
    | retreat level low => exact kept level
    | learn key l lower level clauses retracted theories atoms distinct falsified current low below tight
        entailed stored undecided taken made =>
      exact (Atoms.Extends.assign made).assignment a given (kept level)

namespace Context.Refuted

omit [Theory σ] in
theorem of_assignments (refuted : c.Refuted)
    (stored : ∀ key clause, c.clauses.get? key = some clause → c'.clauses.get? key = some clause)
    (kept : ∀ a, c.atoms.levelOf a = some 0 → c'.atoms.assignment a = c.atoms.assignment a) : c'.Refuted := by
  obtain ⟨key, clause, found, falsified⟩ := refuted
  refine ⟨key, clause, stored key clause found, fun l member => ?_⟩
  obtain ⟨isFalse, base⟩ := falsified l member
  constructor
  · rw [Context.valueOf, Atoms.valueOf, Literal.valueOn_eq_false, Atoms.value] at isFalse ⊢
    rwa [kept l.atom base]
  · rw [Atoms.levelOf, kept l.atom base]
    exact base

theorem moves {taking : Intake σ} (moves : Moves taking c c') (h : c.Coherent) (refuted : c.Refuted) :
    c'.Refuted := by
  induction moves with
  | refl => exact refuted
  | tail moves move ih =>
    have coherent := Moves.coherent moves h
    exact ih.of_assignments (fun _ _ => move.get?_clauses) fun _ => move.assignment_of_base coherent

theorem course {taking : Intake σ} (course : Course taking c c') (h : c.Coherent) (refuted : c.Refuted) :
    c'.Refuted := by
  rcases course with onward | ⟨mid, onward, refutes⟩
  · exact refuted.moves onward h
  · refine (refuted.moves onward h).of_assignments (fun _ _ stored => ?_) fun _ _ => ?_
    · cases refutes with
      | base clause known falsified => exact stored
      | contradict clause key clauses given base distinct known new state =>
        exact ClauseStore.get?_store new stored
      | empty given base => exact stored
    · rw [refutes.frame.1]

end Context.Refuted

/-! ### Runs -/

namespace PublicRun

variable {settings : Settings} {events earlier later : List (Event σ)} {e : Event σ} {s : Session σ}

theorem keeps (run : PublicRun settings (events ++ [e]) s) (other : e.command ≠ .solve)
    (found : s.context.phase = .satisfiable) : e.command.Keeps e.before.context s.context :=
  run.ensured (fun _ allowed recovers =>
    Command.keeps run.of_concat.1.coherent.1 e.command allowed e.before.kept recovers other) found

/-- A command that keeps a context satisfiable, and maintains what is so, keeps it fulfilled. -/
theorem fulfilled_of_maintains (run : PublicRun settings (events ++ [e]) s) (other : e.command ≠ .solve)
    (found : s.context.phase = .satisfiable) (fulfilled : e.before.context.Fulfilled)
    (maintains : e.Maintains) : s.context.Fulfilled := by
  have keeps := run.keeps other found
  obtain ⟨_, _, rfl⟩ := run.of_concat
  exact fulfilled.of_enlarges run.coherent.1 (keeps.onward maintains.level) maintains.added

/-- No command but recovery keeps a context satisfiable and fulfilled without maintaining what is so. -/
theorem maintains_of_fulfilled (run : PublicRun settings (events ++ [e]) s) (other : e.command ≠ .solve)
    (forward : e.command ≠ .recover) (found : s.context.phase = .satisfiable)
    (fulfilled : s.context.Fulfilled) : e.Maintains := by
  have keeps := run.keeps other found
  obtain ⟨before, _, rfl⟩ := run.of_concat
  refine ⟨?_, fun a known _ => fulfilled.valued a known⟩
  by_contra low
  obtain ⟨level, _, returned⟩ := (keeps.back (Nat.not_le.mp low)).resolve_left forward
  obtain ⟨a, known, unvalued⟩ := returned.exists_unvalued before.coherent.1 before.opened (Nat.not_le.mp low)
  have valued := fulfilled.valued a known
  rw [unvalued] at valued
  cases valued

/-- While no clause that is given contradicts what is so, clauses that are false are still to be led to. -/
theorem alerts (run : PublicRun settings events s) (quiet : ∀ e ∈ events, ¬e.Contradicts) :
    s.context.Alerts := by
  induction run with
  | start => exact .initial settings
  | @step events s earlier command allowed result s' taken ih =>
    have h := earlier.coherent.1
    have before := ih fun e member => quiet e (List.mem_append_left _ member)
    rcases (earlier.ran_step allowed taken).moves with moves | ⟨refuting, mid, moves, refuted⟩
    · exact Moves.alerts moves h before
    · have reached := Moves.alerts moves h before
      generalize s'.context = after at refuted ⊢
      cases refuted with
      | base clause known falsified => exact reached
      | contradict d key clauses given base distinct known stored state =>
        obtain ⟨clause, outcome, given, answered, same⟩ := given
        have last := quiet ⟨s, command, result, s'⟩ (List.mem_append_right _ (.head _))
        refine absurd ⟨clause, ?_, given, ?_⟩ last
        · rintro rfl
          obtain ⟨l, member⟩ := List.exists_mem_of_ne_nil _ (ClauseStore.store_eq_ok stored).1
          cases (same l).mp member
        · rcases refuting with said | said | said
          · exact said
          · rw [answered] at said
            cases said
          · rw [answered] at said
            cases said
      | empty given base => exact reached

/-- The clause of which it was answered that there is no solution is stored, and false at the base level. -/
theorem refuted_of_contradicts (run : PublicRun settings (events ++ [e]) s) (contradicts : e.Contradicts) :
    s.context.Refuted := by
  obtain ⟨clause, literals, given, answered⟩ := contradicts
  obtain ⟨_, taken, _⟩ := run.ran e (List.mem_append_right _ (.head _))
  have executed := (Session.step_eq_ok taken).1
  obtain ⟨_, _, rfl⟩ := run.of_concat
  rw [given, answered] at executed
  have answers := Command.ensures_answer (f := .clause)
    (q := fun result after => result = .ok (.clause .unsatisfiable) →
      Procedure.AnswersClause clause e.before.context (.ok .unsatisfiable) after)
    ((Procedure.addClause_answers clause).mono fun result after answers same => by
      cases result with
      | error cause => cases same
      | ok outcome =>
        cases same
        exact answers) _ _ executed rfl
  obtain ⟨base, key, d, stored, falsified⟩ := answers.2 literals
  refine ⟨key, d, stored, fun l member => ⟨falsified l member, ?_⟩⟩
  have valued := Literal.valueOn_eq_false.mp (falsified l member)
  obtain ⟨assigned, found, _⟩ := Atoms.value_eq_some.mp valued
  have atoms := run.coherent.1.supports.atoms
  have low := atoms.levelOf_le_level (Atoms.levelOf_eq_some.mpr ⟨assigned, found, rfl⟩)
  exact Atoms.levelOf_eq_some.mpr ⟨assigned, found, Nat.le_zero.mp (low.trans (Nat.le_of_eq base))⟩

/-- A clause that was stored false at the base level is so for the rest of a run. -/
theorem refuted_of_mem (run : PublicRun settings events s) (member : e ∈ events)
    (contradicts : e.Contradicts) : s.context.Refuted := by
  induction run with
  | start => cases member
  | @step events s earlier command allowed result s' taken ih =>
    rcases List.mem_append.mp member with old | new
    · exact (ih old).course (earlier.ran_step allowed taken).course earlier.coherent.1
    · rw [List.mem_singleton.mp new] at contradicts
      exact refuted_of_contradicts (earlier.step command allowed result s' taken) contradicts

/-- A search that answers that there is a solution leaves every atom with a value. Every stored clause has a
true literal then, unless a clause was given before that was false at the base level. -/
theorem fulfilled_iff_of_solved (run : PublicRun settings (events ++ [e]) s) (searched : e.command = .solve)
    (found : e.result = .ok (.report .satisfiable)) :
    (∀ a < s.context.atoms.count, (s.context.atoms.value a).isSome) ∧
      (s.context.Fulfilled ↔ ∀ o ∈ events, ¬o.Contradicts) := by
  obtain ⟨full, moves, atEnd, unvalued, sameAtoms, sameClauses, _⟩ :=
    run.solvedFrom_of_satisfiable searched found
  have valued : ∀ a < s.context.atoms.count, (s.context.atoms.value a).isSome := by
    rw [sameAtoms]
    intro a known
    by_contra unset
    have listed := Atoms.mem_unvalued.mpr ⟨known, Option.not_isSome_iff_eq_none.mp unset⟩
    rw [unvalued] at listed
    cases listed
  refine ⟨valued, fun fulfilled o member contradicts => ?_, fun quiet => ⟨valued, ?_⟩⟩
  · exact (run.refuted_of_mem (List.mem_append_left _ member) contradicts).not_fulfilled fulfilled
  · obtain ⟨before, _, _⟩ := run.of_concat
    have h := before.coherent.1
    have alerts := Moves.alerts moves h (before.alerts quiet)
    intro key clause stored
    rw [sameClauses] at stored
    rw [sameAtoms] at valued
    have values : ∀ a < full.atoms.count, full.atoms.value a = some ((full.atoms.value a).getD false) := by
      intro a known
      obtain ⟨v, value⟩ := Option.isSome_iff_exists.mp (valued a known)
      rw [value, Option.getD_some]
    have coherent := Moves.coherent moves h
    obtain ⟨l, member, holds⟩ := alerts.holds coherent atEnd values stored
    refine ⟨l, member, ?_⟩
    rw [Context.valueOf, sameAtoms, Atoms.valueOf, Literal.valueOn_eq_true,
      values l.atom (coherent.supports.known key clause stored l member)]
    exact congrArg some holds

/-- A satisfiable context has been so since a search that answered so. -/
theorem exists_solve_of_satisfiable (run : PublicRun settings events s)
    (found : s.context.phase = .satisfiable) :
    ∃ earlier e later, events = earlier ++ e :: later ∧ e.command = .solve ∧
      e.result = .ok (.report .satisfiable) ∧
      ∀ o ∈ later, o.command ≠ .solve ∧ o.after.context.phase = .satisfiable := by
  induction events using List.reverseRecOn generalizing s with
  | nil =>
    rw [run.session_eq .start] at found
    cases found
  | append_singleton events e ih =>
    by_cases searched : e.command = .solve
    · refine ⟨events, e, [], rfl, searched, ?_, by simp⟩
      obtain ⟨_, taken, _⟩ := run.ran e (List.mem_append_right _ (.head _))
      obtain ⟨before, _, rfl⟩ := run.of_concat
      have executed := (Session.step_eq_ok taken).1
      rw [searched] at executed
      exact Command.ensures_answer (f := .report) (q := fun result after =>
        after.phase = .satisfiable → result = .ok (.report .satisfiable))
        ((Procedure.solve_found before.coherent.1).mono fun result after solved satisfiable => by
          rw [solved satisfiable]
          rfl) _ _ executed found
    · have keeps := run.keeps searched found
      obtain ⟨before, _, rfl⟩ := run.of_concat
      obtain ⟨first, solved, others, rfl, search, answer, since⟩ := ih before keeps.phase
      refine ⟨first, solved, others ++ [e], by simp, search, answer, ?_⟩
      simp only [List.forall_mem_append, List.forall_mem_singleton]
      exact ⟨since, searched, found⟩

/-- What is fulfilled stays so while every command keeps a context satisfiable and maintains it. -/
theorem fulfilled_of_forall_maintains (run : PublicRun settings (earlier ++ e :: later) s)
    (fulfilled : e.after.context.Fulfilled)
    (since : ∀ o ∈ later, o.command ≠ .solve ∧ o.after.context.phase = .satisfiable)
    (maintain : ∀ o ∈ later, o.Maintains) : s.context.Fulfilled := by
  induction later using List.reverseRecOn generalizing s with
  | nil =>
    obtain ⟨_, _, rfl⟩ := run.of_concat
    exact fulfilled
  | append_singleton others o ih =>
    rw [← List.cons_append, ← List.append_assoc] at run
    simp only [List.forall_mem_append, List.forall_mem_singleton] at since maintain
    obtain ⟨before, _, rfl⟩ := run.of_concat
    exact run.fulfilled_of_maintains since.2.1 since.2.2 (ih before since.1 maintain.1) maintain.2

/-- A context that is satisfiable has been so since a search that answered so. The search left every atom with
a value, and every stored clause with a true literal exactly if no clause had been given that contradicts what
is so. A command since then keeps that if it maintains it, and only recovery can keep it otherwise; so it is
so still if every command has maintained it. -/
theorem fulfilled_of_satisfiable (run : PublicRun settings events s)
    (found : s.context.phase = .satisfiable) :
    ∃ earlier e later, events = earlier ++ e :: later ∧ e.command = .solve ∧
      e.result = .ok (.report .satisfiable) ∧
      (∀ a < e.after.context.atoms.count, (e.after.context.atoms.value a).isSome) ∧
      (e.after.context.Fulfilled ↔ ∀ o ∈ earlier, ¬o.Contradicts) ∧
      (∀ o ∈ later, o.command ≠ .solve ∧ o.after.context.phase = .satisfiable ∧
        (o.before.context.Fulfilled → o.Maintains → o.after.context.Fulfilled) ∧
        (o.command ≠ .recover → o.after.context.Fulfilled → o.Maintains)) ∧
      ((∀ o ∈ earlier, ¬o.Contradicts) → (∀ o ∈ later, o.Maintains) → s.context.Fulfilled) := by
  obtain ⟨earlier, e, later, rfl, searched, answered, since⟩ := run.exists_solve_of_satisfiable found
  obtain ⟨valued, fulfilled⟩ := run.through.fulfilled_iff_of_solved searched answered
  refine ⟨earlier, e, later, rfl, searched, answered, valued, fulfilled, fun o member => ?_, fun quiet => ?_⟩
  · obtain ⟨other, satisfiable⟩ := since o member
    obtain ⟨_, last⟩ := run.upTo (List.mem_append_right _ (.tail _ member))
    exact ⟨other, satisfiable, last.fulfilled_of_maintains other satisfiable, fun forward =>
      last.maintains_of_fulfilled other forward satisfiable⟩
  · exact run.fulfilled_of_forall_maintains (fulfilled.mpr quiet) since

/-- After a search over one atom a return to the base level keeps the context satisfiable, and takes the value
of the atom away. -/
theorem unfulfilled_after_return :
    ∃ (events : List (Event (AtMost ⊕ Reachability))) (s : Session (AtMost ⊕ Reachability)),
      PublicRun {} events s ∧ events.map (·.command) = [.freshLiterals 1, .solve, .backjump 0] ∧
        s.context.phase = .satisfiable ∧ s.context.atoms.value 1 = none ∧ ¬s.context.Fulfilled ∧
        ∃ o ∈ events, o.after.context.phase = .satisfiable ∧ ¬o.Maintains := by
  obtain ⟨events, s, run, commands, checked⟩ :=
    of_run_any (σ := AtMost ⊕ Reachability) {} [.freshLiterals 1, .solve, .backjump 0]
      (by simp [Command.IsPublic])
      (fun _ s => decide (s.context.phase = .satisfiable ∧ s.context.atoms.value 1 = none ∧
        s.context.atoms.count = 2))
      (by decide +kernel)
  obtain ⟨found, unvalued, counted⟩ := of_decide_eq_true checked
  have unfulfilled : ¬s.context.Fulfilled := by
    intro fulfilled
    have valued := fulfilled.valued 1 (by omega)
    rw [unvalued] at valued
    cases valued
  obtain ⟨earlier, e, later, rfl, _, _, _, _, since, maintained⟩ := fulfilled_of_satisfiable run found
  have quiet : ∀ o ∈ earlier, ¬o.Contradicts := by
    rintro o member ⟨clause, _, given, _⟩
    have listed := List.mem_map_of_mem (f := (·.command)) (List.mem_append_left (e :: later) member)
    rw [commands, given] at listed
    simp at listed
  refine ⟨_, s, run, commands, found, unvalued, unfulfilled, ?_⟩
  by_contra none'
  push Not at none'
  refine unfulfilled (maintained quiet fun o member => ?_)
  exact none' o (List.mem_append_right _ (.tail _ member)) (since o member).2.1

end PublicRun

end SatModulo
