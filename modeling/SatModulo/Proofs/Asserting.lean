import SatModulo.Proofs.Failures
import SatModulo.Theories.RuleTable

/-!
# Recovery asserts

What recovery from a conflict comes to. If every literal of the conflict got its value at the base level,
there is no solution. Otherwise the context returns to the highest level of the conflict, and unless a
theory breaks its part there, exactly one clause is learnt, and the context returns to a level at which
the clause forces its first literal: the others are false, and one of them at that level
(`Context.Asserted`). Two returns, an analysis and an assignment are composed here; that each ends, and
how, is known of each by itself.
-/
namespace SatModulo

variable {σ : Type}

namespace Context

def clauseOf? (c : Context σ) : Conflict → Option Clause
  | .clause key => c.clauses.get? key
  | .theory _ clause => some clause

def counted (c : Context σ) : Context σ := { c with counters.conflicts := c.counters.conflicts + 1 }

/-- The highest level at which a literal of a clause got its value. -/
structure Highest (c : Context σ) (clause : Clause) (level : Nat) : Prop where
  bounds : ∀ l ∈ clause, ∃ i, c.atoms.levelOf l.atom = some i ∧ i ≤ level
  reached : ∃ l ∈ clause, c.atoms.levelOf l.atom = some level

/-- The literals of the trail up to a level, and those after them, which are of higher levels. -/
structure SplitsAt (c : Context σ) (level : Nat) (kept dropped : List Literal) : Prop where
  split : c.atoms.trail.literals = kept ++ dropped
  low : ∀ m ∈ kept, ∃ i, c.atoms.levelOf m.atom = some i ∧ i ≤ level
  high : ∀ m ∈ dropped, ∃ i, c.atoms.levelOf m.atom = some i ∧ level < i

/-- From a false clause one clause is learnt, and its first literal is asserted at a level below. -/
structure Asserted (c : Context σ) (conflict : Clause) (key : ClauseKey) (l : Literal)
    (lower : List Literal) (level : Nat) (after : Context σ) : Prop where
  /-- One clause is stored, under a new key. -/
  stored : key = .learnt c.clauses.learnt.size ∧ ∃ index, after.clauses =
    { c.clauses with learnt := c.clauses.learnt.push (l :: lower), index }
  found : after.clauses.get? key = some (l :: lower)
  below : ∃ highest, c.Highest conflict highest ∧ level < highest
  current : after.level = level
  /-- What was assigned above the level is taken back, and the literal is true after the rest. -/
  trail : ∃ kept dropped, c.SplitsAt level kept dropped ∧ after.atoms.trail.literals = kept ++ [l]
  stack : after.atoms.trail.stack = (c.atoms.trail.stack.cutTo level).push l
  reason : after.atoms.reasonOf l.atom = some (.clause key)
  distinct : ((l :: lower).map Literal.atom).Nodup
  falsified : ∀ m ∈ lower, after.valueOf m = some false
  tight : level = 0 ∨ ∃ m ∈ lower, after.atoms.levelOf m.atom = some level

/-- A trail splits where a cut to a level splits it. -/
theorem splitsAt_cutTo {c : Context σ} (h : c.Coherent) (level : Nat) :
    c.SplitsAt level (c.atoms.trail.stack.cutTo level).entries (c.atoms.trail.stack.above level) where
  split := (c.atoms.trail.stack.entries_cutTo_append_above level).symm
  low m member := by
    obtain ⟨i, low, entered⟩ := (LevelStack.mem_cutTo_entries_iff level m).mp member
    exact ⟨i, h.supports.atoms.levelOf_of_mem entered, low⟩
  high m member := by
    have split := c.atoms.trail.stack.entries_cutTo_append_above level
    have onTrail : m ∈ c.atoms.trail.stack.entries := by
      rw [← split]
      exact List.mem_append_right _ member
    obtain ⟨i, entered⟩ := (LevelStack.mem_entries_iff m).mp onTrail
    refine ⟨i, h.supports.atoms.levelOf_of_mem entered, ?_⟩
    by_contra low
    have kept := (LevelStack.mem_cutTo_entries_iff level m).mpr ⟨i, Nat.not_lt.mp low, entered⟩
    have distinct : c.atoms.trail.stack.entries.Nodup := h.supports.atoms.nodup
    rw [← split, List.nodup_append] at distinct
    exact distinct.2.2 m kept m member rfl

/-- The clause that is learnt forces its literal at the level that is returned to. -/
theorem Learns.forced {c : Context σ} {key : ClauseKey} {l : Literal} {lower : List Literal} {level : Nat}
    {clauses : ClauseStore} (learns : c.Learns key l lower level clauses) (h : c.Coherent) {atoms : Atoms}
    (made : (c.atoms.forgetAbove level).2.assign l (.clause key) = .ok (.unset, atoms)) :
    atoms.level = level ∧ atoms.trail.stack = (c.atoms.trail.stack.cutTo level).push l ∧
      atoms.reasonOf l.atom = some (.clause key) ∧ (∀ m ∈ lower, atoms.valueOf m = some false) ∧
      (level = 0 ∨ ∃ m ∈ lower, atoms.levelOf m.atom = some level) := by
  have kept : ∀ m ∈ lower, atoms.assignment m.atom = c.atoms.assignment m.atom := by
    intro m member
    obtain ⟨i, given, low⟩ := learns.below m member
    have other : m.atom ≠ l.atom := by
      intro same
      refine (List.nodup_cons.mp learns.distinct).1 (List.mem_map.mpr ⟨m, member, same⟩)
    rw [(Atoms.assign_eq_unset made).2.2.2.2, if_neg other]
    exact ClauseStore.Supports.assignment_of_low h.supports.atoms given low
  refine ⟨?_, ?_, ?_, fun m member => ?_, learns.tight.imp_right ?_⟩
  · rw [Atoms.level_assign made, Atoms.level, Atoms.trail_forgetAbove, Trail.level_cutTo]
    exact Nat.min_eq_left (Nat.le_of_lt learns.low)
  · rw [Atoms.stack_assign made, Atoms.trail_forgetAbove, Trail.stack_cutTo]
  · rw [Atoms.reasonOf_assign made, if_pos rfl]
  · have value := learns.falsified m (List.mem_cons_of_mem l member)
    rw [Context.valueOf, Atoms.valueOf, Literal.valueOn_eq_false, Atoms.value] at value
    rw [Atoms.valueOf, Literal.valueOn_eq_false, Atoms.value, kept m member]
    exact value
  · rintro ⟨m, member, given⟩
    exact ⟨m, member, by rw [Atoms.levelOf, kept m member]; exact given⟩

end Context

variable [Theory σ] {c : Context σ}

namespace Context

/-- A context returns to the highest level of a conflict, where the conflict is analysed. -/
def ReturnsTo (c : Context σ) (conflict : Clause) (back : Context σ) : Prop :=
  ∃ highest, c.Highest conflict highest ∧ Procedure.Retreated highest c back

/-- What recovery from a clause comes to that is false, and not at the base level. An error is that of a
theory that gives as a reason what explains nothing, or there is no room for another clause. -/
def RecoversAbove (c : Context σ) (conflict : Clause) (result : Except Error Recovery)
    (after : Context σ) : Prop :=
  match result with
  | .ok .unsatisfiable => False
  | .ok (.asserted key l level) => ∃ lower, c.Asserted conflict key l lower level after
  | .error e => ∃ back, c.ReturnsTo conflict back ∧
    ((∃ i, e = .theory (.malformedReason i) ∧ back.Misled conflict.toFinset i after) ∨
      e = .clause .storageExhausted ∧ UInt32.size ≤ c.clauses.learnt.size)

/-- What is learnt at the highest level of a conflict is asserted from where the conflict was found. -/
theorem Learns.asserted {back mid after : Context σ} {conflict : Clause} {highest : Nat} {key : ClauseKey}
    {l : Literal} {lower : List Literal} {level : Nat} {clauses : ClauseStore}
    (learns : mid.Learns key l lower level clauses) (h : c.Coherent)
    (isHighest : c.Highest conflict highest) (retreated : Procedure.Retreated highest c back)
    (draws : Draws back mid) (same : mid.atoms = back.atoms) (stored : after.clauses = clauses)
    (made : (mid.atoms.forgetAbove level).2.assign l (.clause key) = .ok (.unset, after.atoms)) :
    c.Asserted conflict key l lower level after := by
  have coherent : mid.Coherent :=
    Draws.coherent draws (Moves.coherent (retreated.moves : Moves {} c back) h)
  have low : highest ≤ c.level := by
    obtain ⟨m, _, given⟩ := isHighest.reached
    exact h.supports.atoms.levelOf_le_level given
  have below : level < highest := by
    have below := learns.low
    rwa [Context.level, same, ← Context.level, retreated.level_eq low] at below
  have kept : mid.clauses = c.clauses := draws.frame.2.2.2.1.trans retreated.clauses_eq
  have push := learns.stored
  rw [ClauseStore.store_learnt, kept] at push
  split at push
  · cases push
  obtain ⟨rfl, rfl⟩ := Prod.mk.inj (Except.ok.inj push)
  obtain ⟨current, stack, reason, falsified, tight⟩ := learns.forced coherent made
  have stack' : after.atoms.trail.stack = (c.atoms.trail.stack.cutTo level).push l := by
    rw [stack, same, retreated.stack_eq.1, LevelStack.cutTo_cutTo, Nat.min_eq_left (Nat.le_of_lt below)]
  exact
    { stored := ⟨rfl, _, stored⟩
      found := by rw [stored]; exact (ClauseStore.store_eq_ok learns.stored).2.2.1
      below := ⟨highest, isHighest, below⟩
      current := current
      trail := ⟨_, _, splitsAt_cutTo h level, by
        rw [Trail.literals, stack', LevelStack.entries_push]⟩
      stack := stack'
      reason := reason
      distinct := learns.distinct
      falsified := falsified
      tight := tight }

end Context

namespace Procedure

/-- What is learnt is stored, and its literal made true at the level that is returned to. -/
theorem learn_ends (h : c.Coherent) {key : ClauseKey} {l : Literal} {lower : List Literal} {level : Nat}
    {clauses : ClauseStore} (learns : c.Learns key l lower level clauses) :
    (do
      backjump level
      match ← assign l (.clause key) with
      | .unset => return .asserted key l level
      | _ => throw .valuationConflict : Procedure σ Recovery).Ends { c with clauses } (fun _ => False)
        fun result after => result = .ok (.asserted key l level) ∧ after.clauses = clauses ∧
          (c.atoms.forgetAbove level).2.assign l (.clause key) = .ok (.unset, after.atoms) := by
  refine .bind (backjump_ends level) (fun e after failed => by cases failed.1) ?_
  rintro ⟨⟩ after ⟨_, retreated⟩
  obtain ⟨retracted, theories, -, -, rfl⟩ := retreated.of_lt learns.low
  obtain ⟨known, unset⟩ := learns.unset h
  refine .bind (assign_ends known unset) ?_ ?_
  · rintro e after ⟨_, _, same, _⟩
    cases same
  · rintro status after ⟨atoms, made, same, rfl⟩
    cases same
    exact .pure ⟨rfl, rfl, made⟩

/-- At the base level there is nothing to return to. -/
theorem recoverClause_ends_base {clause : Clause} (falsified : ∀ l ∈ clause, c.valueOf l = some false)
    (base : ∀ l ∈ clause, c.atoms.levelOf l.atom = some 0) :
    (recoverClause clause).Ends c (fun _ => False) fun result after =>
      result = .ok .unsatisfiable ∧ after = { c with phase := .unsatisfiable } := by
  refine .bind (conflictLevel_ends falsified) (fun e _ ⟨_, _, failed, _⟩ => by cases failed) ?_
  rintro level _ ⟨rfl, _, same, _, reached⟩
  cases same
  have zero : level = 0 := by
    rcases reached with zero | ⟨l, member, given⟩
    · exact zero
    · rw [base l member] at given
      exact (Option.some.inj given).symm
  dsimp only
  rw [if_pos zero]
  exact .modify_bind (.pure ⟨rfl, rfl⟩)

/-- Above the base level a clause is learnt and its literal asserted, unless a theory breaks its part or
there is no room for the clause. -/
theorem recoverClause_ends_above (h : c.Coherent) (opened : c.Opened) {clause : Clause}
    (known : c.Known clause) (falsified : ∀ l ∈ clause, c.valueOf l = some false)
    (above : ∃ l ∈ clause, c.atoms.levelOf l.atom ≠ some 0) :
    (recoverClause clause).Ends c
      (fun cause => ∃ back, c.ReturnsTo clause back ∧ back.Broken clause.toFinset cause)
      (c.RecoversAbove clause) := by
  refine .bind ((conflictLevel_ends falsified).imp_broken fun _ => False.elim)
    (fun e _ ⟨_, _, failed, _⟩ => by cases failed) ?_
  rintro highest c ⟨rfl, _, same, bounds, reached⟩
  cases same
  have positive : highest ≠ 0 := by
    rintro rfl
    obtain ⟨l, member, other⟩ := above
    obtain ⟨i, given, low⟩ := bounds l member
    exact other (by rw [given, Nat.le_zero.mp low])
  have isHighest : c.Highest clause highest := ⟨bounds, reached.resolve_left positive⟩
  dsimp only
  rw [if_neg positive]
  refine .bind ((backjump_ends highest).imp_broken fun _ => False.elim)
    (fun e _ failed => by cases failed.1) ?_
  rintro ⟨⟩ back ⟨_, retreated⟩
  have returns : c.ReturnsTo clause back := ⟨highest, isHighest, retreated⟩
  have moved : Moves {} c back := retreated.moves
  have coherent := Moves.coherent moved h
  obtain ⟨l, member, given⟩ := isHighest.reached
  have atHighest : back.level = highest := retreated.level_eq (h.supports.atoms.levelOf_le_level given)
  obtain ⟨known', falsified'⟩ := retreated.conflict h known falsified bounds
  have above' : 0 < back.level := by omega
  have current : ∃ l ∈ clause, back.atoms.levelOf l.atom = some back.level := by
    refine ⟨l, member, ?_⟩
    rw [atHighest, Atoms.levelOf, retreated.assignment h given (Nat.le_refl _)]
    exact given
  have analysed := (analyse_ends coherent (Moves.opened moved h opened) above' falsified' current).ensuring
    (analyse_course coherent above' known' falsified')
  refine .bind (analysed.imp_broken fun cause broken => ⟨back, returns, broken⟩) ?_ ?_
  · rintro e after ⟨⟨_, _, malformed | ⟨full, room, _⟩⟩, _⟩
    · exact ⟨back, returns, .inl malformed⟩
    · exact ⟨back, returns, .inr ⟨full, by rwa [retreated.clauses_eq] at room⟩⟩
  · rintro learnt final ⟨-, mid, key, l, lower, level, clauses, draws, same, learns, rfl, reports⟩
    have asserted : Procedure.Ends _ _ _ (c.RecoversAbove clause) :=
      (learn_ends (Draws.coherent draws coherent) learns).mono fun result after outcome => by
        obtain ⟨rfl, stored, made⟩ := outcome
        exact ⟨lower, learns.asserted h isHighest retreated draws same stored made⟩
    rcases reports with ⟨rfl, rfl⟩ | rfl
    · exact asserted.imp_broken fun _ => False.elim
    · exact asserted.imp_broken fun _ => False.elim

/-- Recovery counts the conflict, looks up its clause, and goes on with that. -/
theorem recover_eq {conflict : Conflict} {clause : Clause} (isOf : c.clauseOf? conflict = some clause) :
    c.run (recover conflict) = c.counted.run (recoverClause clause) := by
  cases conflict with
  | clause key =>
    have found : c.counted.clauses.get key = .ok clause := by
      change c.clauses.get key = .ok clause
      rw [ClauseStore.get, show c.clauses.get? key = some clause from isOf]
    have counted : c.run (recover (.clause key)) =
        c.counted.run (ofExcept .clause (c.counted.clauses.get key) >>= recoverClause) := rfl
    rw [counted, found]
    rfl
  | theory i given =>
    cases isOf
    rfl

/-- From a conflict of its own a context recovers. -/
theorem recover_ends (h : c.Coherent) (opened : c.Opened) {conflict : Conflict}
    (conflicting : c.Conflicting conflict) :
    ∃ clause, c.clauseOf? conflict = some clause ∧ (∀ l ∈ clause, c.valueOf l = some false) ∧
      ((∀ l ∈ clause, c.atoms.levelOf l.atom = some 0) →
        c.run (recover conflict) = .ok (.ok .unsatisfiable, { c.counted with phase := .unsatisfiable })) ∧
      ((∃ l ∈ clause, c.atoms.levelOf l.atom ≠ some 0) →
        (recover conflict).Ends c
          (fun cause => ∃ back, c.counted.ReturnsTo clause back ∧ back.Broken clause.toFinset cause)
          (c.counted.RecoversAbove clause)) := by
  obtain ⟨clause, falsified, given⟩ := conflicting
  have isOf : c.clauseOf? conflict = some clause := by
    cases conflict with
    | clause key => exact given
    | theory i d => exact congrArg some given.1
  have known : c.counted.Known clause := by
    cases conflict with
    | clause key => exact .inl ⟨key, given⟩
    | theory i d => exact .inr ⟨i, given.2⟩
  have one : Draw c c.counted := .adjust c c.random _ c.theories.schedule rfl
  refine ⟨clause, isOf, falsified, fun base => ?_, fun above => ?_⟩
  · obtain ⟨result, after, ran, rfl, rfl⟩ :=
      (recoverClause_ends_base (c := c.counted) falsified base).returns
    rw [recover_eq isOf, ran]
  · have ends := recoverClause_ends_above (one.coherent h) (one.opened h opened) known falsified above
    unfold Ends at ends ⊢
    rwa [recover_eq isOf]

end Procedure

namespace PublicRun

variable {settings : Settings} {events : List (Event σ)} {s : Session σ}

/-- Recovery from a conflict that the last command of a run told of. That there is no solution is found
exactly if every literal of the conflict got its value at the base level; then nothing but the phase
changes. Otherwise recovery ends with a clause that is learnt and asserted, unless a theory gives as a
reason what explains nothing or faults, at the highest level of the conflict, or there is no room for the
clause. -/
theorem recovers_from_told {e : Event σ} (run : PublicRun settings (events ++ [e]) s)
    {conflict : Conflict} (told : conflictOf e.result = some conflict) :
    ∃ clause, s.context.clauseOf? conflict = some clause ∧
      (∀ l ∈ clause, s.context.valueOf l = some false) ∧
      ((∀ l ∈ clause, s.context.atoms.levelOf l.atom = some 0) →
        s.context.run (Procedure.recover conflict) =
          .ok (.ok .unsatisfiable, { s.context.counted with phase := .unsatisfiable })) ∧
      ((∃ l ∈ clause, s.context.atoms.levelOf l.atom ≠ some 0) →
        (Procedure.recover conflict).Ends s.context
          (fun cause => ∃ back, s.context.counted.ReturnsTo clause back ∧
            back.Broken clause.toFinset cause)
          (s.context.counted.RecoversAbove clause)) := by
  obtain ⟨_, _, took⟩ := run.ran e (by simp)
  have conflicting : s.context.Conflicting conflict := run.of_concat.2.2 ▸ took.told conflict told
  exact Procedure.recover_ends run.coherent.1 run.opened conflicting

/-- The conflict of a theory is below the current level and holds a literal of the base level. -/
theorem recovers_from_told_below :
    ∃ (events : List (Event RuleTable)) (e : Event RuleTable) (s : Session RuleTable) (clause : Clause),
      PublicRun {} (events ++ [e]) s ∧ clause = [⟨-5⟩, ⟨-1⟩, ⟨-4⟩] ∧
      (events ++ [e]).map (·.command) = [.freshLiterals 5,
        .addTheory { rules := [{ premises := [⟨5⟩, ⟨1⟩, ⟨4⟩], conflict := some clause }] }, .observe 0 1,
        .observe 0 4, .observe 0 5, .addClause [⟨5⟩], .decideLiteral ⟨1⟩, .decideLiteral ⟨4⟩,
        .decideLiteral ⟨3⟩, .propagate] ∧
      conflictOf e.result = some (.theory 0 clause) ∧ s.context.level = 3 ∧
      ∃ lower after, s.context.counted.Asserted clause (.learnt 0) ⟨-4⟩ lower 1 after ∧
        after.atoms.trail.literals = [⟨5⟩, ⟨1⟩, ⟨-4⟩] := by
  let clause : Clause := [⟨-5⟩, ⟨-1⟩, ⟨-4⟩]
  obtain ⟨results, s, ran, checked⟩ := Session.of_run_any (Session.ofSettings {} : Session RuleTable)
    [.freshLiterals 5, .addTheory { rules := [{ premises := [⟨5⟩, ⟨1⟩, ⟨4⟩], conflict := some clause }] },
      .observe 0 1, .observe 0 4, .observe 0 5, .addClause [⟨5⟩], .decideLiteral ⟨1⟩, .decideLiteral ⟨4⟩,
      .decideLiteral ⟨3⟩, .propagate]
    (fun (results, s) => decide (results.getLast?.bind conflictOf = some (.theory 0 clause) ∧
        s.context.level = 3 ∧ ∃ l ∈ clause, s.context.atoms.levelOf l.atom ≠ some 0) &&
      (s.context.run (Procedure.recover (.theory 0 clause))).toOption.any fun (result, after) =>
        result.toOption == some (.asserted (.learnt 0) ⟨-4⟩ 1) &&
          decide (after.atoms.trail.literals = [⟨5⟩, ⟨1⟩, ⟨-4⟩]))
    (by decide +kernel)
  simp only [Bool.and_eq_true, decide_eq_true_eq] at checked
  obtain ⟨⟨told, level, above⟩, asserted⟩ := checked
  obtain ⟨all, run, commands, answered⟩ := PublicRun.of_run (by simp [Command.IsPublic]) ran
  obtain rfl | ⟨events, e, rfl⟩ := List.eq_nil_or_concat' all
  · cases commands
  have told : conflictOf e.result = some (.theory 0 clause) := by
    rw [← answered] at told
    simpa using told
  refine ⟨events, e, s, clause, run, rfl, commands, told, level, ?_⟩
  obtain ⟨_, isOf, _, _, ends⟩ := run.recovers_from_told told
  cases isOf
  have ends := ends above
  unfold Procedure.Ends at ends
  split at ends
  · rename_i result after ran
    rw [ran] at asserted
    obtain ⟨same, literals⟩ := Bool.and_eq_true_iff.mp asserted
    cases result with
    | error e => cases same
    | ok recovery =>
      have same : recovery = .asserted (.learnt 0) ⟨-4⟩ 1 := by simpa [Except.toOption] using same
      subst same
      obtain ⟨lower, holds⟩ := ends
      exact ⟨lower, after, holds, of_decide_eq_true literals⟩
  · rename_i cause ran
    rw [ran] at asserted
    cases asserted

end PublicRun

end SatModulo
