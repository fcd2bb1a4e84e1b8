import SatModulo.Proofs.Resolution

/-!
# Recovery from a conflict

From a conflict that is known and false a context recovers by going back to the level of the conflict,
analysing it there, and learning what the analysis gives; at the base level it has found out that there
is no solution (`Procedure.recover_course`).
-/
namespace SatModulo

theorem le_foldl_max (levels : List Nat) (start : Nat) :
    start ≤ levels.foldl max start ∧ ∀ level ∈ levels, level ≤ levels.foldl max start := by
  induction levels generalizing start with
  | nil => exact ⟨Nat.le_refl _, by simp⟩
  | cons first rest ih =>
    obtain ⟨above, others⟩ := ih (max start first)
    refine ⟨by rw [List.foldl_cons]; omega, List.forall_mem_cons.mpr ⟨?_, others⟩⟩
    rw [List.foldl_cons]
    omega

theorem foldl_max_mem (levels : List Nat) (start : Nat) :
    levels.foldl max start = start ∨ levels.foldl max start ∈ levels := by
  induction levels generalizing start with
  | nil => exact .inl rfl
  | cons first rest ih =>
    rw [List.foldl_cons]
    rcases ih (max start first) with same | later
    · rw [same]
      rcases Nat.le_total first start with low | high
      · exact .inl (Nat.max_eq_left low)
      · exact .inr (by rw [Nat.max_eq_right high]; exact .head _)
    · exact .inr (.tail _ later)

/-- Where one number exceeds all others, the second largest is the largest of the others. -/
theorem twoLargest_of_lt {first : Nat} {rest : List Nat} (less : ∀ level ∈ rest, level < first) :
    (twoLargest (first :: rest)).2 = rest.foldl max 0 := by
  have run : ∀ second, rest.foldl
      (fun largest level => (max largest.1 level, max largest.2 (min largest.1 level))) (first, second) =
        (first, rest.foldl max second) := by
    induction rest with
    | nil => exact fun _ => rfl
    | cons level rest ih =>
      intro second
      have low := less level (.head _)
      rw [List.foldl_cons, List.foldl_cons]
      simp only [Nat.max_eq_left (Nat.le_of_lt low), Nat.min_eq_right (Nat.le_of_lt low)]
      exact ih (fun other member => less other (.tail _ member)) _
  rw [twoLargest, List.foldl_cons]
  simp only [Nat.zero_max, Nat.zero_min]
  exact congrArg Prod.snd (run 0)

namespace Atoms

variable {s : Atoms} {clause : Clause} {level : Nat}

/-- The levels of the literals of a clause, each of which must have one. -/
theorem levels_of_mapM {e : Error} {levels : List Nat}
    (success : (clause.mapM fun l =>
      match s.levelOf l.atom with
      | some level => Except.ok level
      | none => .error e) = .ok levels) :
    List.Forall₂ (fun l level => s.levelOf l.atom = some level) clause levels := by
  refine (Except.mapM_eq_ok success).imp fun l level same => ?_
  cases given : s.levelOf l.atom <;> rw [given] at same <;> cases same
  rfl

theorem forall_mem_of_levels {levels : List Nat} {p : Nat → Prop}
    (given : List.Forall₂ (fun l level => s.levelOf l.atom = some level) clause levels)
    (holds : ∀ level ∈ levels, p level) :
    ∀ l ∈ clause, ∃ level, s.levelOf l.atom = some level ∧ p level := by
  induction given with
  | nil => simp
  | cons first _ ih =>
    refine List.forall_mem_cons.mpr ⟨⟨_, first, holds _ (.head _)⟩, ?_⟩
    exact ih fun level member => holds level (.tail _ member)

theorem exists_mem_of_levels {levels : List Nat}
    (given : List.Forall₂ (fun l level => s.levelOf l.atom = some level) clause levels)
    (member : level ∈ levels) : ∃ l ∈ clause, s.levelOf l.atom = some level := by
  induction given with
  | nil => cases member
  | cons first _ ih =>
    rcases List.mem_cons.mp member with rfl | later
    · exact ⟨_, .head _, first⟩
    · obtain ⟨l, inClause, same⟩ := ih later
      exact ⟨l, .tail _ inClause, same⟩

/-- The level to return to from a clause whose first literal alone is of the highest level. -/
theorem backjumpLevel_eq_ok {l : Literal} {lower : List Literal} {current : Nat}
    (atCurrent : s.levelOf l.atom = some current)
    (below : ∀ m ∈ lower, ∃ i, s.levelOf m.atom = some i ∧ i < current) (positive : 0 < current)
    (success : s.backjumpLevel (l :: lower) = .ok level) :
    level < current ∧ (∀ m ∈ lower, ∃ i, s.levelOf m.atom = some i ∧ i ≤ level) ∧
      (level = 0 ∨ ∃ m ∈ lower, s.levelOf m.atom = some level) ∧ (lower = [] → level = 0) := by
  obtain ⟨levels, mapped, success⟩ := Except.bind_eq_ok success
  cases success
  cases levels_of_mapM mapped with
  | @cons _ first _ rest here others =>
    rw [atCurrent] at here
    cases here
    have less : ∀ i ∈ rest, i < current := by
      intro i member
      obtain ⟨m, inLower, given⟩ := exists_mem_of_levels others member
      obtain ⟨j, given', low⟩ := below m inLower
      rw [given] at given'
      cases given'
      exact low
    rw [twoLargest_of_lt less]
    refine ⟨?_, forall_mem_of_levels others (le_foldl_max rest 0).2, ?_, ?_⟩
    · rcases foldl_max_mem rest 0 with zero | member
      · rw [zero]
        exact positive
      · exact less _ member
    · exact (foldl_max_mem rest 0).imp_right (exists_mem_of_levels others)
    · rintro rfl
      cases others
      rfl

theorem levels_quiet {e cause : Error} (quiet : cause.conflict? = none)
    (failed : (clause.mapM fun l =>
      match s.levelOf l.atom with
      | some level => Except.ok level
      | none => .error cause) = .error e) : e.conflict? = none := by
  obtain ⟨l, _, here⟩ := Except.mapM_eq_error failed
  cases given : s.levelOf l.atom <;> rw [given] at here <;> cases here
  exact quiet

theorem backjumpLevel_quiet {e : Error} (failed : s.backjumpLevel clause = .error e) :
    e.conflict? = none := by
  rcases Except.bind_eq_error failed with here | ⟨_, _, failed⟩
  · exact levels_quiet rfl here
  · cases failed

end Atoms

variable {σ : Type} [Theory σ] {c c' : Context σ}

/-- A clause is stored that is false, and of the current level in its first literal only. -/
structure Context.Learns (c : Context σ) (key : ClauseKey) (l : Literal) (lower : List Literal)
    (level : Nat) (clauses : ClauseStore) : Prop where
  distinct : ((l :: lower).map Literal.atom).Nodup
  falsified : ∀ m ∈ l :: lower, c.valueOf m = some false
  current : c.atoms.levelOf l.atom = some c.level
  low : level < c.level
  below : ∀ m ∈ lower, ∃ i, c.atoms.levelOf m.atom = some i ∧ i ≤ level
  tight : level = 0 ∨ ∃ m ∈ lower, c.atoms.levelOf m.atom = some level
  entailed : ∀ v, (∀ clause, c.Known clause → clause.Holds v) → Clause.Holds v (l :: lower)
  stored : c.clauses.store (l :: lower) true = .ok (key, clauses)

omit [Theory σ] in
/-- After the return the literal that is learnt can be made true. -/
theorem Context.Learns.unset {key : ClauseKey} {l : Literal} {lower : List Literal} {level : Nat}
    {clauses : ClauseStore} (learns : c.Learns key l lower level clauses) (h : c.Coherent) :
    l.atom < (c.atoms.forgetAbove level).2.count ∧ (c.atoms.forgetAbove level).2.valueOf l = none := by
  obtain ⟨given, assigned, _⟩ := Atoms.levelOf_eq_some.mp learns.current
  refine ⟨?_, Literal.valueOn_eq_none.mpr (Atoms.value_eq_none.mpr ?_)⟩
  · rw [Atoms.count_forgetAbove]
    exact Atoms.lt_count_of_assignment assigned
  · exact ClauseStore.Supports.assignment_of_high h.supports.atoms learns.current learns.low

omit [Theory σ] in
/-- A clause that a resolution has come to is learnt when it is stored. -/
theorem Context.Resolved.learns {last : Literal} {lower : List Literal} (resolved : c.Resolved last lower)
    (h : c.Coherent) (above : 0 < c.level) {level : Nat} {key : ClauseKey} {clauses : ClauseStore}
    (found : c.atoms.backjumpLevel (last.negate :: lower) = .ok level)
    (stored : c.clauses.store (last.negate :: lower) true = .ok (key, clauses)) :
    c.Learns key last.negate lower level clauses ∧ (lower = [] → level = 0) := by
  have atoms := h.supports.atoms
  have current : c.atoms.levelOf last.negate.atom = some c.level := by
    rw [Literal.atom_negate]
    exact resolved.current
  obtain ⟨low, below, tight, unit⟩ := Atoms.backjumpLevel_eq_ok current resolved.below above found
  refine ⟨⟨?_, ?_, current, low, below, tight, resolved.entailed, stored⟩, unit⟩
  · rw [List.map_cons, List.nodup_cons]
    refine ⟨fun member => ?_, resolved.distinct⟩
    obtain ⟨m, inLower, same⟩ := List.mem_map.mp member
    obtain ⟨i, given, less⟩ := resolved.below m inLower
    rw [same, current] at given
    cases given
    exact Nat.lt_irrefl _ less
  · refine List.forall_mem_cons.mpr ⟨?_, resolved.falsified⟩
    have proper := atoms.ne_top_of_mem resolved.onTrail
    rw [Context.valueOf, atoms.valueOf_eq_false (by rwa [Literal.atom_negate]), Literal.negate_negate]
    exact resolved.onTrail

/-- What analysis reports of a learnt clause. -/
def Learnt.Reports (learnt : Learnt) (key : ClauseKey) (l : Literal) (level : Nat) : Prop :=
  learnt = .unit key l ∧ level = 0 ∨ learnt = .asserting key l level

namespace Procedure

/-- What is learnt is false, and of the current level in its first literal only, and it is stored. The atoms stay as
they are. -/
theorem analyse_course (h : c.Coherent) (above : 0 < c.level) {conflict : Clause}
    (known : c.Known conflict) (falsified : ∀ l ∈ conflict, c.valueOf l = some false) :
    (analyse conflict).Ensures c fun result after =>
      match result with
      | .ok learnt => ∃ mid key l lower level clauses, Draws c mid ∧ mid.atoms = c.atoms ∧
        mid.Learns key l lower level clauses ∧ after = { mid with clauses } ∧
        learnt.Reports key l level
      | .error e => Draws c after ∧ e.conflict? = none := by
  have atoms := h.supports.atoms
  refine .get_bind (.ofExcept_bind (fun e failed => ⟨.refl, Resolvent.addAll_quiet failed⟩) ?_)
  intro r added
  obtain ⟨follows, covers⟩ := Resolvent.Follows.start atoms above falsified added
  dsimp only
  split
  · exact .throw_bind ⟨.refl, rfl⟩
  · rename_i some'
    rw [resolve_trail]
    refine .bind (descend_leads h above (by simp) follows (Nat.pos_of_ne_zero some') fun v models => ?_)
      (fun e after failed => failed) ?_
    · exact Resolvent.means_of_covers atoms (List.Sublist.refl _) covers
        (fun l member level =>
          List.mem_reverse.mpr (Atoms.negate_mem_of_current atoms above (falsified l member) level))
        (models conflict known)
    · rintro ⟨last, lower⟩ mid ⟨reached, same, resolved⟩
      have levelSame : mid.level = c.level := by rw [Context.level, same]; rfl
      refine .get_bind (.ofExcept_bind (fun e failed => ⟨reached, Atoms.backjumpLevel_quiet failed⟩) ?_)
      intro level found
      refine .get_bind (.ofExcept_bind (fun e failed => ⟨reached, rfl⟩) ?_)
      rintro ⟨key, clauses⟩ stored
      obtain ⟨learns, unit⟩ :=
        resolved.learns (Draws.coherent reached h) (by rw [levelSame]; exact above) found stored
      refine .modify_bind ?_
      split
      · rename_i isUnit
        exact .pure ⟨mid, key, last.negate, lower, level, clauses, reached, same, learns, rfl,
          .inl ⟨rfl, unit (List.isEmpty_iff.mp isUnit)⟩⟩
      · exact .pure ⟨mid, key, last.negate, lower, level, clauses, reached, same, learns, rfl, .inr rfl⟩

/-- A return to a lower level, or nothing. -/
def Retreated (level : Nat) (c after : Context σ) : Prop :=
  if level < c.level then
    ∃ retracted theories, c.theories.retractAbove level = .ok retracted ∧
      retracted.backtrack level (c.atoms.forgetAbove level).2.trail = .ok theories ∧
      after = { c with atoms := (c.atoms.forgetAbove level).2, theories }
  else after = c

/-- A return has no error: all that is above the level is taken back, if anything is. -/
theorem backjump_course (level : Nat) :
    (backjump level : Procedure σ Unit).Ensures c fun result after =>
      result = .ok () ∧ Retreated level c after := by
  refine .get_bind ?_
  dsimp only
  split
  · rename_i low
    refine .ofFaulty_bind fun retracted undecided => .ofFaulty_bind fun theories taken => ?_
    refine .modify_bind (.modify ⟨rfl, ?_⟩)
    rw [Retreated, if_pos low]
    exact ⟨retracted, theories, undecided, taken, rfl⟩
  · rename_i high
    exact .pure ⟨rfl, by rw [Retreated, if_neg high]⟩

theorem Retreated.of_lt {level : Nat} (retreated : Retreated level c c') (low : level < c.level) :
    ∃ retracted theories, c.theories.retractAbove level = .ok retracted ∧
      retracted.backtrack level (c.atoms.forgetAbove level).2.trail = .ok theories ∧
      c' = { c with atoms := (c.atoms.forgetAbove level).2, theories } := by
  rwa [Retreated, if_pos low] at retreated

theorem Retreated.moves {taking : Intake σ} {level : Nat} (retreated : Retreated level c c') :
    Moves taking c c' := by
  unfold Retreated at retreated
  split at retreated
  · rename_i low
    obtain ⟨retracted, theories, undecided, taken, rfl⟩ := retreated
    exact .single (.jump (.retreat c level low retracted theories undecided taken))
  · rw [retreated]

theorem backjump_leads {taking : Intake σ} (level : Nat) :
    (backjump level : Procedure σ Unit).Leads (Move taking) c c fun _ after =>
      Retreated level c after := by
  refine (backjump_course level).mono fun result after => ?_
  rintro ⟨rfl, retreated⟩
  exact ⟨retreated.moves, retreated⟩

theorem clearDecisions_leads {taking : Intake σ} :
    (clearDecisions : Procedure σ Unit).Leads (Move taking) c c fun _ _ => True := by
  refine .call (backjump_leads 0) .refl fun _ after reached _ => .get_bind ?_
  split
  · rename_i open'
    exact .modify (reached.tail (.settle after .input open' (by decide))) trivial
  · exact .pure reached trivial

/-- What has a level up to the one returned to keeps what was assigned to it. -/
theorem Retreated.assignment {level i : Nat} {a : Atom} (h : c.Coherent) (retreated : Retreated level c c')
    (given : c.atoms.levelOf a = some i) (low : i ≤ level) :
    c'.atoms.assignment a = c.atoms.assignment a := by
  unfold Retreated at retreated
  split at retreated
  · obtain ⟨retracted, theories, _, _, rfl⟩ := retreated
    exact ClauseStore.Supports.assignment_of_low h.supports.atoms given low
  · rw [retreated]

/-- A conflict whose literals have levels up to the one returned to is still one. -/
theorem Retreated.conflict {level : Nat} {clause : Clause} (h : c.Coherent)
    (retreated : Retreated level c c') (known : c.Known clause)
    (falsified : ∀ l ∈ clause, c.valueOf l = some false)
    (levels : ∀ l ∈ clause, ∃ i, c.atoms.levelOf l.atom = some i ∧ i ≤ level) :
    c'.Known clause ∧ ∀ l ∈ clause, c'.valueOf l = some false := by
  constructor
  · unfold Retreated at retreated
    split at retreated
    · obtain ⟨retracted, theories, undecided, taken, rfl⟩ := retreated
      refine known.imp_right ?_
      rintro ⟨i, call, member, given⟩
      exact ⟨i, call, (Registry.changes_retreat undecided taken).1.mem_account member, given⟩
    · rwa [retreated]
  · intro l member
    obtain ⟨i, given, low⟩ := levels l member
    have value := falsified l member
    rw [Context.valueOf, Atoms.valueOf, Literal.valueOn_eq_false, Atoms.value] at value ⊢
    rwa [retreated.assignment h given low]

theorem Retreated.level_eq {level : Nat} (retreated : Retreated level c c') (low : level ≤ c.level) :
    c'.level = level := by
  unfold Retreated at retreated
  split at retreated
  · obtain ⟨retracted, theories, _, _, rfl⟩ := retreated
    change (c.atoms.forgetAbove level).2.trail.level = level
    rw [Atoms.trail_forgetAbove, Trail.level_cutTo]
    exact Nat.min_eq_left low
  · rw [retreated]
    omega

theorem Retreated.stack_eq {level : Nat} (retreated : Retreated level c c') :
    c'.atoms.trail.stack = c.atoms.trail.stack.cutTo level ∧ c'.atoms.count = c.atoms.count := by
  unfold Retreated at retreated
  split at retreated
  · obtain ⟨retracted, theories, _, _, rfl⟩ := retreated
    exact ⟨by rw [Atoms.trail_forgetAbove, Trail.stack_cutTo], Atoms.count_forgetAbove _ _⟩
  · rename_i high
    rw [retreated]
    exact ⟨(LevelStack.cutTo_of_le _ _ (Nat.not_lt.mp high)).symm, rfl⟩

theorem Retreated.clauses_eq {level : Nat} (retreated : Retreated level c c') : c'.clauses = c.clauses := by
  unfold Retreated at retreated
  split at retreated
  · obtain ⟨retracted, theories, _, _, rfl⟩ := retreated
    rfl
  · rw [retreated]

theorem conflictLevel_leads {clause : Clause} :
    (conflictLevel clause : Procedure σ Nat).Leads Draw c c fun level after => after = c ∧
      (∀ l ∈ clause, ∃ i, c.atoms.levelOf l.atom = some i ∧ i ≤ level) ∧
      (level = 0 ∨ ∃ l ∈ clause, c.atoms.levelOf l.atom = some level) := by
  refine .get_bind (.ofExcept_bind .refl (fun e failed => Atoms.levels_quiet rfl failed) ?_)
  intro levels mapped
  have given := Atoms.levels_of_mapM mapped
  exact .pure .refl ⟨rfl, Atoms.forall_mem_of_levels given (le_foldl_max levels 0).2,
    (foldl_max_mem levels 0).imp_right (Atoms.exists_mem_of_levels given)⟩

/-- What is learnt is stored, and forces its literal at the level that is returned to. -/
theorem learn_course (h : c.Coherent) {key : ClauseKey} {l : Literal} {lower : List Literal}
    {level : Nat} {clauses : ClauseStore} (learns : c.Learns key l lower level clauses) :
    (do
      backjump level
      match ← assign l (.clause key) with
      | .unset => return .asserted key l level
      | _ => throw .valuationConflict : Procedure σ Recovery).Ensures { c with clauses } fun result after =>
        result = .ok (.asserted key l level) ∧ Jump c after ∧
          after.atoms.trail.stack = (c.atoms.trail.stack.cutTo level).push l ∧
          after.atoms.count = c.atoms.count := by
  refine .bind (backjump_course level) (fun e after failed => by cases failed.1) ?_
  rintro ⟨⟩ after ⟨_, retreated⟩
  obtain ⟨retracted, theories, undecided, taken, rfl⟩ := retreated.of_lt learns.low
  obtain ⟨known, unset⟩ := learns.unset h
  refine .bind (m := fun result after => result = .ok .unset ∧ Jump c after ∧
      after.atoms.trail.stack = (c.atoms.trail.stack.cutTo level).push l ∧
      after.atoms.count = c.atoms.count)
    (assign_unset known unset fun assigned made => ⟨rfl, ?_, ?_, ?_⟩)
    (fun e after failed => by cases failed.1) ?_
  · exact .learn c key l lower level clauses retracted theories assigned learns.distinct learns.falsified
      learns.current learns.low learns.below learns.tight learns.entailed learns.stored undecided taken
      made
  · rw [Atoms.stack_assign made, Atoms.trail_forgetAbove, Trail.stack_cutTo]
  · rw [Atoms.count_assign made, Atoms.count_forgetAbove]
  · rintro status after ⟨same, jump⟩
    cases same
    exact .pure ⟨rfl, jump⟩

/-- A literal is asserted: it is the last one of a level below, where what was above is taken back. -/
structure Asserts (c : Context σ) (l : Literal) (level : Nat) (after : Context σ) : Prop where
  moves : Moves {} c after
  low : level < c.level
  stack : after.atoms.trail.stack = (c.atoms.trail.stack.cutTo level).push l
  count : after.atoms.count = c.atoms.count

/-- What recovery comes to. -/
def Recovers (c : Context σ) (result : Except Error Recovery) (after : Context σ) : Prop :=
  match result with
  | .ok .unsatisfiable => ∃ mid, Moves {} c mid ∧ Refute {} mid after
  | .ok (.asserted _ l level) => Asserts c l level after
  | .error e => Moves {} c after ∧ e.conflict? = none

/-- What is done about a clause that is false. -/
def recoverClause (clause : Clause) : Procedure σ Recovery := do
  let level ← conflictLevel clause
  if level = 0 then
    setPhase .unsatisfiable
    return .unsatisfiable
  backjump level
  let (key, literal, level) ← match ← analyse clause with
    | .unit key literal => pure (key, literal, 0)
    | .asserting key literal level => pure (key, literal, level)
  backjump level
  match ← assign literal (.clause key) with
  | .unset => return .asserted key literal level
  | _ => throw .valuationConflict

/-- Recovery returns below the conflict and asserts what it learnt there, or finds at the base level that nothing can
be done. -/
theorem recoverClause_course {clause : Clause} (h : c.Coherent) (known : c.Known clause)
    (falsified : ∀ l ∈ clause, c.valueOf l = some false) :
    (recoverClause clause).Ensures c (Recovers c) := by
  refine .bind conflictLevel_leads (fun e after ⟨reached, quiet⟩ => ⟨Draws.moves reached, quiet⟩) ?_
  rintro level after ⟨_, rfl, levels, top⟩
  dsimp only
  split
  · rename_i zero
    refine .modify_bind (.pure ⟨after, .refl, .base after clause known fun l member => ?_⟩)
    obtain ⟨i, given, low⟩ := levels l member
    exact ⟨falsified l member, by rw [given, show i = 0 by omega]⟩
  · rename_i positive
    have low : level ≤ after.level := by
      rcases top with zero | ⟨l, _, given⟩
      · exact absurd zero positive
      · exact h.supports.atoms.levelOf_le_level given
    refine .bind (backjump_course level) (fun e _ failed => by cases failed.1) ?_
    rintro ⟨⟩ back ⟨_, retreated⟩
    obtain ⟨known', falsified'⟩ := retreated.conflict h known falsified levels
    have moved : Moves {} after back := retreated.moves
    have above : 0 < back.level := by
      rw [retreated.level_eq low]
      exact Nat.pos_of_ne_zero positive
    have coherent := Moves.coherent moved h
    refine .bind (analyse_course coherent above known' falsified') ?_ ?_
    · rintro e final ⟨reached, quiet⟩
      exact ⟨moved.trans (Draws.moves reached), quiet⟩
    · rintro learnt final ⟨mid, key, l, lower, level', clauses, reached, same, learns, rfl, reports⟩
      obtain ⟨cut, counted⟩ := retreated.stack_eq
      have lower' : level' < level := by
        have lower' := learns.low
        rwa [Context.level, same, ← Context.level, retreated.level_eq low] at lower'
      have learnt' := (learn_course (Draws.coherent reached coherent) learns).mono
        (q := Recovers after) fun result final outcome => by
          obtain ⟨rfl, jump, stack, counted'⟩ := outcome
          refine ⟨(moved.trans (Draws.moves reached)).tail (.jump jump), by omega, ?_, ?_⟩
          · rw [stack, same, cut, LevelStack.cutTo_cutTo, Nat.min_eq_left (by omega)]
          · rw [counted', same, counted]
      rcases reports with ⟨rfl, rfl⟩ | rfl
      · exact learnt'
      · exact learnt'

/-- A context recovers from a known conflict that is false, or finds out that there is no solution. -/
theorem recover_course (h : c.Coherent) {conflict : Conflict} (conflicting : c.Conflicting conflict) :
    (recover conflict).Ensures c (Recovers c) := by
  obtain ⟨clause, falsified, given⟩ := conflicting
  have counted : Draw c { c with counters.conflicts := c.counters.conflicts + 1 } :=
    .adjust c c.random _ c.theories.schedule rfl
  have known : c.Known clause := by
    cases conflict with
    | clause key => exact .inl ⟨key, given⟩
    | theory i d => exact .inr ⟨i, given.2⟩
  -- Only a count is changed before the clause is recovered from.
  have rest := (recoverClause_course (counted.coherent h) (Draws.known (.single counted) known)
    falsified).mono (q := Recovers c) fun result after outcome => by
      have one : Moves {} c _ := .single (.draw counted)
      rcases result with e | ⟨⟩ | _
      · exact ⟨one.trans outcome.1, outcome.2⟩
      · obtain ⟨mid, moves, refuted⟩ := outcome
        exact ⟨mid, one.trans moves, refuted⟩
      · exact ⟨one.trans outcome.moves, outcome.low, outcome.stack, outcome.count⟩
  refine .modify_bind ?_
  cases conflict with
  | clause key =>
    refine .get_bind (.ofExcept_bind (fun e _ => ⟨.single (.draw counted), rfl⟩) fun d found => ?_)
    rw [ClauseStore.get, given] at found
    cases found
    exact rest
  | theory i d =>
    obtain ⟨rfl, _⟩ := given
    exact rest

end Procedure

end SatModulo
