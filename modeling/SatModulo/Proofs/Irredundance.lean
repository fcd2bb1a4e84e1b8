import SatModulo.Proofs.Fixpoints
import SatModulo.Proofs.Permanence
import SatModulo.Proofs.Timeline

/-!
# No redundant clause is learnt

As long as searches are not guided from outside, every stored clause is attended to on every level, or it
is known that there is no solution (`PublicRun.isAttended`). A clause that is learnt is false, and only one
of its literals is of the current level. So a stored clause that is part of it would have been due at the
end of the level below, where nothing was due (`Context.Learns.not_subset`). Hence from moment to moment of
a run nothing is learnt, or one clause that no stored clause is part of (`PublicRun.learns_anew`).
-/
namespace SatModulo

variable {σ : Type}

namespace ClauseStore

variable {store store' : ClauseStore}

/-- Nothing is learnt, or one clause that no stored clause is part of. -/
def LearnsAnew (store store' : ClauseStore) : Prop :=
  store'.learnt = store.learnt ∨ ∃ clause key, store.store clause true = .ok (key, store') ∧
    ∀ other d, store.get? other = some d → ¬d ⊆ clause

/-- No clause that was learnt is part of one that was learnt later. -/
def Irredundant (store : ClauseStore) : Prop := store.learnt.toList.Pairwise fun c d => ¬c ⊆ d

instance (store : ClauseStore) : Decidable store.Irredundant :=
  inferInstanceAs (Decidable (List.Pairwise _ _))

theorem learnt_store {clause : Clause} {learnt : Bool} {key : ClauseKey}
    (stored : store.store clause learnt = .ok (key, store')) :
    store'.learnt = if learnt then store.learnt.push clause else store.learnt := by
  rw [ClauseStore.store_eq] at stored
  cases learnt
  all_goals
    simp only [Bool.false_eq_true, if_false, if_true] at stored ⊢
    split at stored
    · cases stored
    · split at stored <;> cases stored
      rfl

theorem LearnsAnew.irredundant (anew : store.LearnsAnew store') (h : store.Irredundant) :
    store'.Irredundant := by
  unfold Irredundant at h ⊢
  obtain same | ⟨clause, key, stored, others⟩ := anew
  · rwa [same]
  · rw [learnt_store stored, if_pos rfl, Array.toList_push, List.pairwise_append]
    refine ⟨h, List.pairwise_singleton .., fun c earlier d last => ?_⟩
    obtain ⟨n, found⟩ := List.mem_iff_getElem?.mp earlier
    rw [List.mem_singleton.mp last]
    exact others (.learnt n) c (by rwa [get?, ← Array.getElem?_toList])

end ClauseStore

variable [Theory σ] {c c' : Context σ}

/-! ### Learning -/

namespace Context

abbrev LearnsAnew (c c' : Context σ) : Prop := c.clauses.LearnsAnew c'.clauses

omit [Theory σ] in
/-- At the end of the level below the current one, a clause that is part of what is learnt would have been
false, or all but the literal that is forced would have been. -/
theorem Learns.not_subset {key other : ClauseKey} {l : Literal} {lower : List Literal} {d : Clause} {level : Nat}
    {clauses : ClauseStore} (learns : c.Learns key l lower level clauses) (h : c.Coherent)
    (attends : c.Attends) (found : c.clauses.get? other = some d) : ¬d ⊆ l :: lower := by
  intro part
  have low := learns.low
  have earlier : c.level - 1 < c.level := by omega
  have unset : l.valueOn (c.atoms.valueUpTo (c.level - 1)) = none :=
    Atoms.valueUpTo_eq_none learns.current earlier
  have falsified : ∀ m ∈ lower, m.valueOn (c.atoms.valueUpTo (c.level - 1)) = some false := by
    intro m member
    obtain ⟨i, given, inside⟩ := learns.below m member
    obtain ⟨assigned, is, rfl⟩ := Atoms.levelOf_eq_some.mp given
    have isFalse := learns.falsified m (.tail _ member)
    rw [Context.valueOf, Atoms.valueOf, Literal.valueOn_eq_false, Atoms.value, is] at isFalse
    have inside' : assigned.level ≤ c.level - 1 := by omega
    rw [Literal.valueOn_eq_false, Atoms.valueUpTo, is, Option.filter_some_pos (by simpa using inside')]
    exact isFalse
  have due : d.IsDue (c.atoms.valueUpTo (c.level - 1)) := by
    have others : ∀ m ∈ d, m ≠ l → m.valueOn (c.atoms.valueUpTo (c.level - 1)) = some false :=
      fun m member other => falsified m ((List.mem_cons.mp (part member)).resolve_left other)
    by_cases forced : l ∈ d
    · exact .inr ⟨l, forced, unset, others⟩
    · exact .inl fun m member => others m member fun same => forced (same ▸ member)
  exact (Clause.isDue_iff (h.supports.nodup found)).mp due (attends.below _ earlier other d found)

end Context

namespace Procedure

theorem assertLearnt_clauses (key : ClauseKey) (l : Literal) (level : Nat) :
    (assertLearnt key l level : Procedure σ Recovery).Ensures c fun _ after => after.clauses = c.clauses := by
  refine .bind (backjump_course level) (fun e _ failed => by cases failed.1) ?_
  rintro ⟨⟩ back ⟨_, retreated⟩
  have kept := retreated.clauses_eq
  refine .bind (m := fun _ last => last.clauses = c.clauses) ?_ (fun _ _ => id) ?_
  · exact .get_bind (.ofExcept_bind (fun _ _ => kept) fun _ _ => .modify_bind (.pure kept))
  · intro status last kept
    split
    · exact .pure kept
    · exact .throw kept

/-- What is learnt is unit at a lower level, where a stored clause that is part of it would have been attended to. -/
theorem recoverClause_learnsAnew (h : c.Coherent) (attends : c.Attends) {clause : Clause}
    (known : c.Known clause) (falsified : ∀ l ∈ clause, c.valueOf l = some false) :
    (recoverClause clause).Ensures c fun _ after => c.LearnsAnew after := by
  have still : ∀ {after : Context σ}, after.clauses = c.clauses → c.LearnsAnew after := fun same =>
    .inl (congrArg _ same)
  refine .bind conflictLevel_leads
    (fun _ _ held => still (Draws.frame held.1).2.2.2.1) ?_
  rintro level after ⟨_, rfl, levels, top⟩
  dsimp only
  split
  · exact .modify_bind (.pure (still rfl))
  · rename_i positive
    have low : level ≤ after.level := by
      rcases top with zero | ⟨l, _, given⟩
      · exact absurd zero positive
      · exact h.supports.atoms.levelOf_le_level given
    refine .bind (backjump_course level) (fun e _ failed => by cases failed.1) ?_
    rintro ⟨⟩ back ⟨_, retreated⟩
    have returned : Moves {} after back := retreated.moves
    have coherent := Moves.coherent returned h
    obtain ⟨known', falsified'⟩ := retreated.conflict h known falsified levels
    have above : 0 < back.level := by
      rw [retreated.level_eq low]
      exact Nat.pos_of_ne_zero positive
    refine .bind (analyse_course coherent above known' falsified') ?_ ?_
    · rintro e last ⟨draws, _⟩
      exact still ((Draws.frame draws).2.2.2.1.trans retreated.clauses_eq)
    · rintro learnt last ⟨mid, key, l, lower, level', clauses, draws, _, learns, rfl, reports⟩
      have onward : Moves {} after mid := returned.trans (Draws.moves draws)
      have same : mid.clauses = after.clauses := (Draws.frame draws).2.2.2.1.trans retreated.clauses_eq
      have anew : ∀ other d, after.clauses.get? other = some d → ¬d ⊆ l :: lower := by
        intro other d found
        exact learns.not_subset (Moves.coherent onward h) (Moves.attends onward h attends fun _ => False.elim)
          (same ▸ found)
      have asserts : (assertLearnt key l level' : Procedure σ Recovery).Ensures { mid with clauses }
          fun _ last => after.LearnsAnew last :=
        (assertLearnt_clauses key l level').mono fun _ last kept =>
          .inr ⟨l :: lower, key, by rw [kept, ← same]; exact learns.stored, anew⟩
      rcases reports with ⟨rfl, rfl⟩ | rfl
      · exact asserts
      · exact asserts

/-- Recovery learns nothing, or one clause that no stored clause is part of. -/
theorem recover_learnsAnew (h : c.Coherent) (attends : c.Attends) {conflict : Conflict}
    (conflicting : c.Conflicting conflict) :
    (recover conflict : Procedure σ Recovery).Ensures c fun _ after => c.LearnsAnew after := by
  obtain ⟨clause, falsified, given⟩ := conflicting
  have counted : Draw c { c with counters.conflicts := c.counters.conflicts + 1 } :=
    .adjust c c.random _ c.theories.schedule rfl
  have anew (known : c.Known clause) := recoverClause_learnsAnew (counted.coherent h) attends
    (Draws.known (.single counted) known) falsified
  refine .modify_bind ?_
  cases conflict with
  | clause key =>
    refine .get_bind (.ofExcept_bind (fun _ _ => .inl rfl) fun d found => ?_)
    rw [ClauseStore.get, given] at found
    cases found
    exact anew (.inl ⟨key, given⟩)
  | theory i d =>
    obtain ⟨rfl, told⟩ := given
    exact anew (.inr ⟨i, told⟩)

/-! ### Searches -/

theorem Decides.clauses_eq (decided : Decides c c') : c'.clauses = c.clauses := by
  obtain ⟨mid, opened, draws, _, decide, last⟩ := decided
  have kept : opened.clauses = mid.clauses := by
    cases decide
    rfl
  exact (Draws.frame (.single last)).2.2.2.1.trans (kept.trans (Draws.frame draws).2.2.2.1)

/-- Exploring decides only where nothing is left to be drawn from clauses, and stores none. -/
theorem explore_atEnd (h : c.Coherent) (open' : c.phase ≠ .unsatisfiable) :
    (explore : Procedure σ (Except Conflict (Option Report))).Ensures c fun _ after =>
      Moves decidesAtEnd c after ∧ after.clauses = c.clauses := by
  have drawn : ∀ {after : Context σ}, Draws c after → Moves decidesAtEnd c after ∧ after.clauses = c.clauses :=
    fun draws => ⟨Draws.moves draws, (Draws.frame draws).2.2.2.1⟩
  have counted : Draw c { c with counters.iterations := c.counters.iterations + 1 } :=
    .adjust c c.random _ c.theories.schedule rfl
  have first : Draws c _ := .single counted
  refine .modify_bind (.get_bind ?_)
  split
  · exact .pure (drawn first)
  refine .bind (propagate_leads (counted.coherent h)) (fun _ _ held => ?_) ?_
  · exact drawn (first.trans held.1)
  rintro outcome propagated ⟨further, found⟩
  replace further := first.trans further
  cases outcome with
  | some conflict => exact .pure (drawn further)
  | none =>
    refine .get_bind (.ofFaulty_bind fun (isNew, theories) cleared => .modify_bind ?_)
    have further' := further.tail (.clearSatisfied propagated isNew theories cleared)
    refine .bind (makeDecision_course (Draws.coherent further' h))
      (fun _ _ held => drawn (further'.trans held.1)) ?_
    rintro decision decided made
    cases decision with
    | decided l =>
      have atEnd : Intake.Le (decidesAt { propagated with theories }) decidesAtEnd := by
        refine ⟨fun _ => id, fun _ => id, fun mid same => ?_, fun _ => id⟩
        change mid.atoms.trail.head = mid.atoms.trail.length
        rw [show mid.atoms = propagated.atoms from same]
        exact found.1
      exact .pure ⟨(Draws.moves further').trans (atEnd.moves (Decides.moves made.1)),
        (Decides.clauses_eq made.1).trans (drawn further').2⟩
    | exhausted =>
      have toFull := further'.trans made.1
      refine .bind (finalCheck_leads (Draws.coherent toFull h))
        (fun _ _ held => drawn (toFull.trans held.1)) ?_
      rintro checked after ⟨final, _⟩
      have whole := toFull.trans final
      obtain ⟨moves, kept⟩ := drawn whole
      cases checked with
      | satisfied =>
        exact .modify_bind (.pure ⟨moves.tail (.settle after .satisfiable (moves.phase_ne open') (by decide)), kept⟩)
      | assigned => exact .pure ⟨moves, kept⟩
      | conflict conflict => exact .pure ⟨moves, kept⟩

/-- From moment to moment of a search nothing is learnt, or a clause that no stored clause is part of. -/
theorem isChain_explorations_learnsAnew (h : c.Coherent) (open' : c.phase ≠ .unsatisfiable)
    (attends : c.Attends) (fuel : Nat) : (c :: explorations fuel c).IsChain Context.LearnsAnew := by
  induction fuel generalizing c with
  | zero => exact .singleton _
  | succ fuel ih =>
    unfold explorations
    cases explores : c.run explore with
    | error cause => exact .singleton _
    | ok outcome =>
      obtain ⟨answer, explored⟩ := outcome
      obtain ⟨moves, kept⟩ := explore_atEnd h open' _ _ explores
      have conflicting := (explore_course h open' _ _ explores).conflicting
      have coherent := Moves.coherent moves h
      have stillOpen := moves.phase_ne open'
      have attends' := Moves.attends moves h attends fun _ => id
      have learns : c.LearnsAnew explored := .inl (congrArg _ kept)
      rcases answer with e | conflict | _ | report
      · exact .cons_cons learns (.singleton _)
      · have learning : (iterate.recoverFrom conflict : Procedure σ (Option Report)).Ensures explored
            fun _ after => explored.LearnsAnew after := by
          refine .bind (recover_learnsAnew coherent attends' (conflicting conflict rfl)) (fun _ _ => id) ?_
          intro recovery after learnt
          cases recovery <;> exact .pure learnt
        have moving : (iterate.recoverFrom conflict : Procedure σ (Option Report)).Ensures explored
            fun result after => explored.Passes (fun _ => True) after ∧
              (result = .ok none → Moves {} explored after) :=
          recoverFrom_passes coherent (conflicting conflict rfl)
        dsimp only
        cases recovers : explored.run (iterate.recoverFrom conflict) with
        | error cause => exact .cons_cons learns (.singleton _)
        | ok outcome =>
          obtain ⟨answer, recovered⟩ := outcome
          have learnt := learning _ _ recovers
          have moved := (moving _ _ recovers).2
          rcases answer with e | _ | report
          · exact .cons_cons learns (.cons_cons learnt (.singleton _))
          · have onward := moved rfl
            exact .cons_cons learns (.cons_cons learnt (ih (Moves.coherent onward coherent)
              (onward.phase_ne stillOpen) (Moves.attends onward coherent attends' fun _ => False.elim)))
          · exact .cons_cons learns (.cons_cons learnt (.singleton _))
      · exact .cons_cons learns (ih coherent stillOpen attends')
      · exact .cons_cons learns (.singleton _)

end Procedure

/-! ### Commands -/

theorem Build.learnt_eq {taking : Intake σ} (build : Build taking c c') :
    c'.clauses.learnt = c.clauses.learnt := by
  cases build with
  | give clause key clauses given base distinct known stored state => exact ClauseStore.learnt_store stored
  | giveUnit clause key clauses l atoms given base distinct known stored state made =>
    exact ClauseStore.learnt_store stored
  | _ => rfl

theorem Builds.learnt : Builds fun c c' : Context σ => c'.clauses.learnt = c.clauses.learnt where
  adjust _ _ _ _ _ := rfl
  build := Build.learnt_eq
  begun _ := .single rfl

theorem Draw.learnt_eq (draw : Draw c c') : c'.clauses.learnt = c.clauses.learnt := by
  rw [(Draws.frame (.single draw)).2.2.2.1]

/-- What does not go back learns nothing. -/
theorem Move.learnt_eq {taking : Intake σ} (move : Move taking c c') (onward : ¬Jump c c') :
    c'.clauses.learnt = c.clauses.learnt := by
  cases move with
  | draw draw => exact draw.learnt_eq
  | jump jump => exact absurd jump onward
  | decide allowed decide => cases decide; rfl
  | build build => exact build.learnt_eq
  | settle => rfl
  | configure => rfl

omit [Theory σ] in
theorem Refute.learnt_eq {taking : Intake σ} (refuted : Refute taking c c') :
    c'.clauses.learnt = c.clauses.learnt := by
  cases refuted with
  | contradict clause key clauses given base distinct known stored state =>
    exact ClauseStore.learnt_store stored
  | _ => rfl

/-- At the base level nothing is learnt without a decision. -/
theorem Course.learnt_eq {taking : Intake σ} (course : Course taking c c')
    (undecided : ∀ mid, ¬taking.decides mid) (base : c.level = 0) :
    c'.clauses.learnt = c.clauses.learnt := by
  have moved : ∀ {mid : Context σ}, Moves taking c mid → mid.clauses.learnt = c.clauses.learnt := by
    intro mid moves
    have onward := moves.onward undecided (by omega)
    clear moves
    induction onward with
    | refl => rfl
    | tail _ step ih => exact (step.1.learnt_eq step.2).trans ih
  rcases course with moves | ⟨mid, moves, refuted⟩
  · exact moved moves
  · exact refuted.learnt_eq.trans (moved moves)

namespace Command

/-- A command that does not guide a search: it builds, goes back to the base level, or searches. -/
def IsUnguided : Command σ → Prop
  | .freshAtom | .freshLiterals _ | .ensureAtom _ | .addClause _ | .addTheory _ | .observe _ _
  | .setPriority _ _ | .setActivity _ _ | .changeSetting _ | .clearDecisions | .solve => True
  | _ => False

open Procedure in
/-- Of the commands that do not guide a search only the search itself learns. -/
theorem learns_nothing (h : c.Coherent) {command : Command σ} (unguided : command.IsUnguided)
    (other : command ≠ .solve) (kept : Option Conflict) :
    (command.procedure kept).Ensures c fun _ after => after.clauses.learnt = c.clauses.learnt := by
  have same : Std.Refl fun c c' : Context σ => c'.clauses.learnt = c.clauses.learnt := ⟨fun _ => rfl⟩
  have chained : IsTrans _ fun c c' : Context σ => c'.clauses.learnt = c.clauses.learnt :=
    ⟨fun _ _ _ first second => second.trans first⟩
  have adding : ∀ {result : Except Error Answer} {after : Context σ}, command.Ran c result after →
      (∀ mid, ¬(command.taking c result).decides mid) → c.level = 0 →
        after.clauses.learnt = c.clauses.learnt := fun ran undecided base => ran.course.learnt_eq undecided base
  cases command with
  | addClause clause =>
    by_cases base : c.level = 0
    · have told : (Command.addClause clause : Command σ).IsPublic false := trivial
      exact (Command.course h _ told kept nofun).mono fun _ _ ran => adding ran (fun _ => id) base
    · refine ensures_answer (.get_bind ?_)
      dsimp only
      rw [if_pos base]
      exact .throw_bind rfl
  | addTheory theory =>
    by_cases base : c.level = 0
    · have told : (Command.addTheory theory).IsPublic false := trivial
      exact (Command.course h _ told kept nofun).mono fun _ _ ran => adding ran (fun _ => id) base
    · refine ensures_answer (.get_bind ?_)
      dsimp only
      rw [if_pos base]
      exact .throw_bind rfl
  | changeSetting change =>
    refine .get_bind (.ofExcept_bind (fun _ _ => rfl) fun settings _ => ?_)
    rintro result after ⟨⟩
    rfl
  | clearDecisions =>
    refine ensures_answer (.bind (backjump_course 0) (fun e _ failed => by cases failed.1) ?_)
    rintro ⟨⟩ back ⟨_, retreated⟩
    have returned : back.clauses.learnt = c.clauses.learnt := by rw [retreated.clauses_eq]
    refine .get_bind ?_
    split
    · exact .modify returned
    · exact .pure returned
  | solve => exact absurd rfl other
  | freshAtom | freshLiterals | ensureAtom | observe | setPriority | setActivity =>
    refine plain_relates Draw.learnt_eq .learnt h ?_ kept
    exact trivial
  | _ => exact unguided.elim

end Command

/-! ### Runs -/

/-- The clauses are attended to, or there is known to be no solution. -/
def Context.IsAttended (c : Context σ) : Prop := c.phase = .unsatisfiable ∨ c.Attends

/-- A command that does not guide a search decides, if at all, where nothing is left to be drawn from
clauses. -/
theorem Command.Ran.isAttended {command : Command σ} {result : Except Error Answer}
    (ran : command.Ran c result c') (unguided : command.IsUnguided) (h : c.Coherent) (attended : c.IsAttended)
    (searches : command = .solve → c.phase = .unsatisfiable → c' = c) : c'.IsAttended := by
  have atEnd : ∀ mid, (command.taking c result).decides mid →
      mid.atoms.trail.head = mid.atoms.trail.length := by
    intro mid decides
    cases command with
    | decideLiteral | makeDecision => exact unguided.elim
    | solve => exact decides
    | _ => exact decides.elim
  have undecided : command ≠ .solve → ∀ mid, ¬(command.taking c result).decides mid := by
    intro other mid decides
    cases command with
    | decideLiteral | makeDecision => exact unguided.elim
    | solve => exact other rfl
    | _ => exact decides.elim
  rcases attended with known | attends
  · by_cases search : command = .solve
    · exact .inl (searches search known ▸ known)
    · exact .inl (ran.course.unsatisfiable (undecided search) known)
  · rcases ran.moves with moves | ⟨_, mid, _, refuted⟩
    · exact .inr (Moves.attends moves h attends atEnd)
    · exact .inl refuted.phase_eq

namespace PublicRun

variable {settings : Settings} {events : List (Event σ)} {s : Session σ}

/-- A search does nothing once there is known to be no solution. -/
theorem search_of_unsatisfiable {e : Event σ} (run : PublicRun settings (events ++ [e]) s)
    (search : e.command = .solve) (known : e.before.context.phase = .unsatisfiable) :
    e.after.context = e.before.context := by
  obtain ⟨h, taken, _⟩ := run.ran e (by simp)
  have executed := (Session.step_eq_ok taken).1
  rw [search] at executed
  refine Command.ensures_answer (f := .report) (q := fun _ after => after = e.before.context)
    ((Procedure.solve_course h).mono fun result after searched => ?_) _ _ executed
  rw [if_pos known] at searched
  exact searched.2

theorem isAttended (run : PublicRun settings events s) (unguided : ∀ e ∈ events, e.command.IsUnguided) :
    s.context.IsAttended := by
  induction events using List.reverseRecOn generalizing s with
  | nil => exact run.session_eq .start ▸ .inr .initial
  | append_singleton events e ih =>
    obtain ⟨earlier, _, rfl⟩ := run.of_concat
    obtain ⟨h, _, ran⟩ := run.ran e (by simp)
    refine ran.isAttended (unguided e (by simp)) h
      (ih earlier fun e member => unguided e (List.mem_append_left _ member)) ?_
    exact run.search_of_unsatisfiable

/-- From moment to moment of a command that does not guide a search nothing is learnt, or a clause that no
stored clause is part of. -/
theorem isChain_event_learnsAnew {e : Event σ} (run : PublicRun settings (events ++ [e]) s)
    (unguided : ∀ e' ∈ events ++ [e], e'.command.IsUnguided) :
    (e.before.context :: e.moments).IsChain Context.LearnsAnew := by
  obtain ⟨earlier, _, rfl⟩ := run.of_concat
  obtain ⟨h, taken, _⟩ := run.ran e (by simp)
  by_cases search : e.command = .solve
  · unfold Event.moments
    rw [search]
    dsimp only
    split
    · rename_i known
      rw [run.search_of_unsatisfiable search known]
      exact .cons_cons (.inl rfl) (.singleton _)
    · rename_i open'
      have attends := (earlier.isAttended fun e member =>
        unguided e (List.mem_append_left _ member)).resolve_left open'
      have begins : (Procedure.beginSearch : Procedure σ Unit).Ensures e.before.context fun _ after =>
          after.clauses = e.before.context.clauses ∧ after.atoms = e.before.context.atoms :=
        .bind (m := fun _ after =>
          after.clauses = e.before.context.clauses ∧ after.atoms = e.before.context.atoms)
          (.get_bind (.ofFaulty_bind fun _ _ => .modify ⟨rfl, rfl⟩)) (fun _ _ => id) fun _ _ held =>
            .modify held
      cases begun : e.before.context.run Procedure.beginSearch with
      | error cause => exact .singleton _
      | ok outcome =>
        obtain ⟨_, after⟩ := outcome
        obtain ⟨kept, same⟩ := begins _ _ begun
        obtain ⟨_, _, coherent, solving⟩ : _ ∧ e.before.context.Passes (fun _ => True) after ∧ _ :=
          Procedure.beginSearch_passes h open' _ _ begun
        have attends' : after.Attends := by
          rw [Context.Attends, kept, same]
          exact attends
        exact .cons_cons (.inl (congrArg _ kept))
          (Procedure.isChain_explorations_learnsAnew coherent (by simp [solving]) attends' _)
  · rw [Event.moments_of_ne search]
    have executed := (Session.step_eq_ok taken).1
    exact .cons_cons (.inl (Command.learns_nothing h (unguided e (by simp)) search _ _ _ executed))
      (.singleton _)

theorem isChain_learnsAnew (run : PublicRun settings events s)
    (unguided : ∀ e ∈ events, e.command.IsUnguided) :
    (moments settings events).IsChain Context.LearnsAnew := by
  induction events using List.reverseRecOn generalizing s with
  | nil => exact .singleton _
  | append_singleton events e ih =>
    obtain ⟨earlier, _, rfl⟩ := run.of_concat
    have chain := ih earlier fun e member => unguided e (List.mem_append_left _ member)
    obtain ⟨next, others⟩ := List.isChain_cons.mp (run.isChain_event_learnsAnew unguided)
    have any : ∀ e ∈ events, ∀ theory, e.Registers theory → True := fun _ _ _ _ => trivial
    have last := (earlier.isChain_moments any).2
    rw [moments_append, List.flatMap_singleton]
    refine chain.append others ?_
    rw [last]
    rintro _ ⟨⟩
    exact next

/-- As long as a context is only built, returned to its base level and searched, from each of its moments to
the next nothing is learnt, or one clause that no clause stored before is part of. In particular no clause
is learnt twice, at any moment. -/
theorem learns_anew (run : PublicRun settings events s) (unguided : ∀ e ∈ events, e.command.IsUnguided) :
    (moments settings events).IsChain Context.LearnsAnew ∧
      ∀ c ∈ moments settings events, c.clauses.Irredundant := by
  have chain := run.isChain_learnsAnew unguided
  refine ⟨chain, fun c member => ?_⟩
  exact chain.induction (fun c => c.clauses.Irredundant) _ (fun _ _ anew => anew.irredundant)
    (fun _ => List.Pairwise.nil) c member

/-- A second search, after more clauses were given, learns part of what the first one learnt. -/
theorem learns_anew_in_second_search :
    ∃ (events : List (Event (AtMost ⊕ Reachability))) (s : Session (AtMost ⊕ Reachability)),
      PublicRun {} events s ∧ (∀ e ∈ events, e.command.IsUnguided) ∧
        events.map (·.command) = [.addClause [⟨1⟩, ⟨2⟩, ⟨3⟩], .addClause [⟨1⟩, ⟨2⟩, ⟨-3⟩], .solve,
          .clearDecisions, .addClause [⟨1⟩, ⟨-2⟩, ⟨3⟩], .addClause [⟨1⟩, ⟨-2⟩, ⟨-3⟩], .solve] ∧
        s.context.clauses.learnt = #[[⟨2⟩, ⟨1⟩], [⟨1⟩]] ∧
        (moments {} events).IsChain Context.LearnsAnew ∧
        ∀ c ∈ moments {} events, c.clauses.Irredundant := by
  obtain ⟨_, s, ran, learnt⟩ := Session.of_run_any
    (Session.ofSettings {} : Session (AtMost ⊕ Reachability))
    [.addClause [⟨1⟩, ⟨2⟩, ⟨3⟩], .addClause [⟨1⟩, ⟨2⟩, ⟨-3⟩], .solve, .clearDecisions,
      .addClause [⟨1⟩, ⟨-2⟩, ⟨3⟩], .addClause [⟨1⟩, ⟨-2⟩, ⟨-3⟩], .solve]
    (fun (_, s) => decide (s.context.clauses.learnt = #[[⟨2⟩, ⟨1⟩], [⟨1⟩]]))
    (by decide +kernel)
  obtain ⟨events, run, commands, _⟩ := PublicRun.of_run (by simp [Command.IsPublic]) ran
  have unguided : ∀ e ∈ events, e.command.IsUnguided := by
    have all : ∀ command ∈ events.map (·.command), command.IsUnguided := by
      rw [commands]
      simp [Command.IsUnguided]
    exact fun e member => all _ (List.mem_map_of_mem member)
  exact ⟨events, s, run, unguided, commands, of_decide_eq_true learnt, run.learns_anew unguided⟩

end PublicRun

end SatModulo
