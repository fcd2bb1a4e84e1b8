import SatModulo.Proofs.Conformance
import SatModulo.Proofs.Grounding
import SatModulo.Proofs.Timeline
import SatModulo.Theories.AtMost
import SatModulo.Theories.Reachability
import SatModulo.Theory.Either
import Mathlib.Data.List.Perm.Subperm
import Mathlib.Data.List.TakeWhile

/-!
# Returns restore levels

What happens above a level is no matter up to it (`Context.AgreesTo`): neither the assignments there, nor the
decisions of theories, nor what theories heard of it change (`Context.Step.agreesTo`). So a return to the
level at which a literal was decided leaves the context as it was before the decision
(`PublicRun.backjump_restores`), but for the previous values of atoms and for facts that theories were told
before the decision (`Context.facts`).
-/
namespace SatModulo

/-! ### Up to a level -/

namespace LevelStack

variable {α : Type} {s : LevelStack α} {level : Nat}

theorem cutTo_openLevel (low : level ≤ s.level) : s.openLevel.cutTo level = s.cutTo level := by
  apply eq_of_levels
  rw [levels_cutTo, levels_cutTo, levels_openLevel, List.take_append_of_le_length]
  rw [length_levels]
  omega

end LevelStack

namespace Atoms

variable {s s' s'' : Atoms} {l : Literal} {reason : Reason} {level target : Nat} {a : Atom}

/-- The assignment of an atom, if it was given at no higher level than the given one. -/
def assignmentTo (s : Atoms) (level : Nat) (a : Atom) : Option Assignment :=
  (s.assignment a).filter fun given => given.level ≤ level

theorem Coherent.assignmentTo_level (h : s.Coherent) (high : s.level ≤ level) (a : Atom) :
    s.assignmentTo level a = s.assignment a := by
  unfold assignmentTo
  cases assigned : s.assignment a with
  | none => rfl
  | some given =>
    have low := h.levelOf_le_level (levelOf_eq_some.mpr ⟨given, assigned, rfl⟩)
    rw [Option.filter_some_pos (by simpa using Nat.le_trans low high)]

theorem assignmentTo_assign (made : s.assign l reason = .ok (.unset, s')) (low : level < s.level) :
    s'.assignmentTo level = s.assignmentTo level := by
  funext a
  obtain ⟨_, unset, _, _, assigned⟩ := assign_eq_unset made
  unfold assignmentTo
  rw [assigned]
  split
  · rename_i same
    rw [same, unset, Option.filter_some_neg (by simpa using low)]
    rfl
  · rfl

theorem Coherent.assignmentTo_forgetAbove (h : s.Coherent) (low : level ≤ target) :
    (s.forgetAbove target).2.assignmentTo level = s.assignmentTo level := by
  funext a
  unfold assignmentTo
  rw [h.assignment_forgetAbove, Option.filter_filter]
  congr 1
  funext given
  rw [← Bool.decide_and]
  exact decide_eq_decide.mpr ⟨And.right, fun below => ⟨Nat.le_trans below low, below⟩⟩

/-- What is drawn at a higher level is no matter below it. -/
theorem growsAll_below {store : ClauseStore} (steps : Relation.ReflTransGen store.Grows s s')
    (low : level < s.level) : s'.assignmentTo level = s.assignmentTo level ∧
      s'.trail.stack.cutTo level = s.trail.stack.cutTo level := by
  obtain ⟨more, stack⟩ := ClauseStore.growsAll_stack steps
  refine ⟨?_, LevelStack.cutTo_of_below_eq (by rw [stack]) low⟩
  clear stack
  induction steps with
  | refl => rfl
  | @tail mid _ earlier step ih =>
    have same : mid.level = s.level := (ClauseStore.growsAll_frame earlier).2.1
    refine Eq.trans ?_ ih
    cases step with
    | units step =>
      cases step with
      | force _ key clause l found forces made => exact assignmentTo_assign made (same ▸ low)
      | pass => rfl
    | conclude i step =>
      obtain ⟨l, marker, _, made⟩ := step
      exact assignmentTo_assign made (same ▸ low)

end Atoms

variable {σ : Type} [Theory σ] {c c' c'' : Context σ} {taking : Intake σ} {level : Nat}

/-- Two contexts agree up to a level: on what was assigned there and the decisions that were made there.
Theories observe the same, and have heard of the same there, if not of more. -/
structure Context.AgreesTo (level : Nat) (c c' : Context σ) : Prop where
  stack : c'.atoms.trail.stack.cutTo level = c.atoms.trail.stack.cutTo level
  assignment : c'.atoms.assignmentTo level = c.atoms.assignmentTo level
  decisions : c'.theories.decisions.filter (fun d => d.level ≤ level) =
    c.theories.decisions.filter fun d => d.level ≤ level
  observed : c'.theories.members.map (·.observed) = c.theories.members.map (·.observed)
  heard : ∀ i, (c.theories.heard i).KeepsTo level (c'.theories.heard i)

namespace Context.AgreesTo

omit [Theory σ] in
theorem refl (level : Nat) (c : Context σ) : c.AgreesTo level c := ⟨rfl, rfl, rfl, rfl, fun _ => .refl _ _⟩

omit [Theory σ] in
theorem trans (first : c.AgreesTo level c') (second : c'.AgreesTo level c'') : c.AgreesTo level c'' where
  stack := second.stack.trans first.stack
  assignment := second.assignment.trans first.assignment
  decisions := second.decisions.trans first.decisions
  observed := second.observed.trans first.observed
  heard i := (first.heard i).trans (second.heard i)

end Context.AgreesTo

omit [Theory σ] in
/-- Changes of members leave what they observe. -/
theorem Registry.Changes.observed {effect : Nat → Member σ → Member σ → List Call → Prop}
    {r r' : Registry σ} (changes : Changes effect r r')
    (keeps : ∀ i (m m' : Member σ) own, effect i m m' own → m'.observed = m.observed) :
    r'.members.map (·.observed) = r.members.map (·.observed) := by
  apply List.ext_getElem?
  intro i
  rw [List.getElem?_map, List.getElem?_map]
  cases found : r.members[i]? with
  | none =>
    rw [List.getElem?_eq_none_iff, ← changes.length, ← List.getElem?_eq_none_iff] at found
    rw [found]
  | some m =>
    obtain ⟨m', own, found', _, effected⟩ := changes.member i m found
    rw [found']
    exact congrArg some (keeps i m m' own effected)

theorem Draw.decisions_eq (draw : Draw c c') : c'.theories.decisions = c.theories.decisions := by
  cases draw with
  | deliver theories told => exact (Registry.changes_deliverAll told).2.2
  | turn i turn call kind conflict atoms theories taken =>
    obtain ⟨m, m', own, _, _, rfl⟩ := Registry.changeAt_eq_ok taken
    rfl
  | preprocess theories prepared => exact (Registry.changes_preprocess prepared).2.2
  | clearSatisfied isNew theories cleared => exact (Registry.changes_clearSatisfied cleared).2.2
  | _ => rfl

theorem Draw.observed_eq (draw : Draw c c') :
    c'.theories.members.map (·.observed) = c.theories.members.map (·.observed) := by
  rcases draw.silent_or_caught with silent | ⟨_, caught⟩
  · exact silent.observed fun i m m' own effect => by rw [effect.kept]
  · exact caught.observed fun i m m' own effect => by rw [effect.kept]

/-- The decisions above a level are taken back with it, and none at it or below. -/
theorem Registry.decisions_retreat {r retracted r' : Registry σ} {target : Nat} {t : Trail}
    (undecided : r.retractAbove target = .ok retracted) (taken : retracted.backtrack target t = .ok r')
    (low : level ≤ target) : r'.decisions.filter (fun d => d.level ≤ level) =
      r.decisions.filter fun d => d.level ≤ level := by
  obtain ⟨_, _, decisions', _⟩ := changeAll_eq_ok taken
  rw [decisions', (undecideAll_eq_ok undecided).2]
  dsimp only
  have above : (r.decisions.takeWhile fun d => target < d.level).filter (fun d => d.level ≤ level) = [] := by
    rw [List.filter_eq_nil_iff]
    intro d member
    have high := List.mem_takeWhile_imp member
    simp only [decide_eq_true_eq] at high ⊢
    omega
  conv_rhs => rw [← List.takeWhile_append_dropWhile (p := fun d : DecisionRecord => decide (target < d.level))
    (l := r.decisions), List.filter_append, above, List.nil_append]

/-- A return to a level agrees with what was before up to every level that is no higher. -/
theorem Context.AgreesTo.retreat (h : c.Coherent) (told : c.Told) {target : Nat} (low : target < c.level)
    {retracted theories : Registry σ} (undecided : c.theories.retractAbove target = .ok retracted)
    (taken : retracted.backtrack target (c.atoms.forgetAbove target).2.trail = .ok theories)
    (below : level ≤ target) :
    c.AgreesTo level { c with atoms := (c.atoms.forgetAbove target).2, theories } where
  stack := by
    rw [Atoms.trail_forgetAbove, Trail.stack_cutTo, LevelStack.cutTo_cutTo, Nat.min_eq_left below]
  assignment := h.supports.atoms.assignmentTo_forgetAbove below
  decisions := Registry.decisions_retreat undecided taken below
  observed := (Registry.changes_retreat undecided taken).1.observed fun i m m' own effect => by rw [effect.kept]
  heard i := by
    have move : Move {} c _ := .jump (.retreat c target low retracted theories undecided taken)
    refine move.keepsTo told i ?_
    rw [Context.level, Atoms.level, Atoms.trail_forgetAbove, Trail.level_cutTo]
    exact Nat.le_min.mpr ⟨below, Nat.le_trans below (Nat.le_of_lt low)⟩

omit [Theory σ] in
/-- Making a literal true above a level is no matter up to it. -/
theorem Context.AgreesTo.assign {l : Literal} {reason : Reason} {atoms : Atoms}
    (made : c.atoms.assign l reason = .ok (.unset, atoms)) (low : level < c.level) :
    c.AgreesTo level { c with atoms } where
  stack := by
    rw [Atoms.stack_assign made]
    exact LevelStack.cutTo_push l low
  assignment := Atoms.assignmentTo_assign made low
  decisions := rfl
  observed := rfl
  heard _ := .refl _ _

omit [Theory σ] in
/-- What changes neither assignments nor theories is no matter. -/
theorem Context.AgreesTo.of_eq (stack : c'.atoms.trail.stack = c.atoms.trail.stack)
    (assignment : c'.atoms.assignment = c.atoms.assignment) (theories : c'.theories = c.theories) :
    c.AgreesTo level c' where
  stack := by rw [stack]
  assignment := by
    funext a
    rw [Atoms.assignmentTo, assignment, Atoms.assignmentTo]
  decisions := by rw [theories]
  observed := by rw [theories]
  heard i := theories ▸ .refl _ _

/-! ### Steps above a level -/

theorem Draw.agreesTo (draw : Draw c c') (told : c.Told) (low : level < c.level) : c.AgreesTo level c' := by
  obtain ⟨assignment, stack⟩ := Atoms.growsAll_below draw.grows low
  refine ⟨stack, assignment, by rw [draw.decisions_eq], draw.observed_eq, fun i => ?_⟩
  have move : Move {} c c' := .draw draw
  refine move.keepsTo told i ?_
  rw [(Draws.frame (.single draw)).2.1]
  exact Nat.le_of_lt low

/-- A return to a higher level leaves everything up to a lower one as it was. -/
theorem Jump.agreesTo (jump : Jump c c') (h : c.Coherent) (told : c.Told) (low : level < c'.level) :
    c.AgreesTo level c' := by
  have landed : ∀ target, (c.atoms.forgetAbove target).2.level ≤ target := by
    intro target
    rw [Atoms.level, Atoms.trail_forgetAbove, Trail.level_cutTo]
    exact Nat.min_le_left ..
  cases jump with
  | retreat target lower retracted theories undecided taken =>
    exact .retreat h told lower undecided taken (Nat.le_of_lt (Nat.lt_of_lt_of_le low (landed target)))
  | learn key l others target clauses retracted theories atoms distinct falsified current lower below tight
      entailed stored undecided taken made =>
    have back : level < (c.atoms.forgetAbove target).2.level := Atoms.level_assign made ▸ low
    have returned := Context.AgreesTo.retreat h told lower undecided taken
      (Nat.le_of_lt (Nat.lt_of_lt_of_le back (landed target)))
    let returned' : Context σ := { c with atoms := (c.atoms.forgetAbove target).2, theories }
    have asserted : returned'.AgreesTo level { returned' with atoms } := .assign made back
    exact ⟨asserted.stack.trans returned.stack, asserted.assignment.trans returned.assignment,
      returned.decisions, returned.observed, returned.heard⟩

/-- A decision opens a level above. -/
theorem Decide.agreesTo (decide : Decide c c') (told : c.Told) (low : level ≤ c.level) :
    c.AgreesTo level c' := by
  have move : Move .any c c' := .decide trivial decide
  have heard : ∀ i, level ≤ c'.level → (c.theories.heard i).KeepsTo level (c'.theories.heard i) :=
    fun i => move.keepsTo told i
  cases decide with
  | decide l proposer theories atoms delivered opened made =>
    obtain ⟨changes, _, decisions⟩ := Registry.changes_openLevel opened
    have higher : level < c.atoms.openLevel.level := by
      change level < c.atoms.trail.stack.openLevel.level
      rw [LevelStack.level_openLevel]
      exact Nat.lt_succ_of_le low
    refine ⟨?_, ?_, ?_, ?_, fun i => heard i ?_⟩
    · rw [Atoms.stack_assign made, LevelStack.cutTo_push l higher]
      exact LevelStack.cutTo_openLevel low
    · have same : c.atoms.openLevel.assignmentTo level = c.atoms.assignmentTo level := rfl
      rw [← same]
      exact Atoms.assignmentTo_assign made higher
    · rw [← decisions]
      cases proposer with
      | none => rfl
      | some proposer => exact List.filter_cons_of_neg (by simpa using higher)
    · have kept := changes.observed fun i m m' own effect => by rw [effect.kept]
      cases proposer with
      | none => exact kept
      | some proposer => exact kept
    · rw [Context.level, Atoms.level_assign made]
      exact Nat.le_of_lt higher

/-- Above the base level atoms are all that is added. -/
theorem Build.agreesTo (build : Build taking c c') (low : level < c.level) : c.AgreesTo level c' := by
  have above : c.level ≠ 0 := by omega
  cases build with
  | fresh previous a atoms success =>
    obtain ⟨_, _, trail, assignment⟩ := Atoms.fresh_eq_ok success
    exact .of_eq (congrArg Trail.stack trail) assignment rfl
  | give clause key clauses given base => exact absurd base above
  | giveUnit clause key clauses l atoms given base => exact absurd base above
  | register theory outcome theories given base => exact absurd base above
  | observe i a base => exact absurd base above

/-- What happens above a level is no matter up to it. -/
theorem Context.Step.agreesTo (step : Step taking c c') (h : c.Coherent) (told : c.Told)
    (low : level < c.level) (low' : level < c'.level) : c.AgreesTo level c' := by
  rcases step with move | refuted
  · cases move with
    | draw draw => exact draw.agreesTo told low
    | jump jump => exact jump.agreesTo h told low'
    | decide _ decide => exact decide.agreesTo told (Nat.le_of_lt low)
    | build build => exact build.agreesTo low
    | settle => exact .of_eq rfl rfl rfl
    | configure => exact .of_eq rfl rfl rfl
  · obtain ⟨atoms, theories⟩ := refuted.frame
    exact .of_eq (by rw [atoms]) (by rw [atoms]) theories

theorem Context.Above.agreesTo (above : Above taking (level + 1) c c') (h : c.Coherent) (told : c.Told)
    (low : level < c.level) : c.AgreesTo level c' ∧ level < c'.level :=
  (above.keeps (fun mid => c.AgreesTo level mid ∧ level < mid.level) h told ⟨.refl _ _, low⟩
    fun step floor h told ⟨agrees, low⟩ => ⟨agrees.trans (step.agreesTo h told low floor), floor⟩).2.2

/-! ### Before a decision -/

/-- The facts of a theory: what it has heard, and what it observes of the trail and is still to be told. -/
def Context.facts (c : Context σ) (i : Nat) : List Literal :=
  (c.theories.heard i).entries ++
    ((c.theories.members[i]?).map (·.pending c.atoms.trail.literals)).getD []

/-- As long as the trail does not grow, theories are only told the facts that they have. -/
theorem Draw.facts_eq (draw : Draw c c') (same : c'.atoms.trail.literals = c.atoms.trail.literals)
    (i : Nat) : c'.facts i = c.facts i := by
  unfold Context.facts
  rw [same]
  have untouched : ∀ {effect : Nat → Member σ → Member σ → List Call → Prop},
      Registry.Changes effect c.theories c'.theories → (∀ m m' own, effect i m m' own →
        (Call.hearAll (c.theories.heard i) own).entries ++ m'.pending c.atoms.trail.literals =
          (c.theories.heard i).entries ++ m.pending c.atoms.trail.literals) →
      (c'.theories.heard i).entries ++
          ((c'.theories.members[i]?).map (·.pending c.atoms.trail.literals)).getD [] =
        (c.theories.heard i).entries ++
          ((c.theories.members[i]?).map (·.pending c.atoms.trail.literals)).getD [] := by
    intro effect changes keeps
    cases found : c.theories.members[i]? with
    | none =>
      have beyond := List.getElem?_eq_none_iff.mp found
      have beyond' : c'.theories.members[i]? = none := by
        rw [List.getElem?_eq_none_iff, changes.length]
        exact beyond
      rw [beyond', Registry.heard, changes.absent i beyond, Registry.heard]
    | some m =>
      obtain ⟨m', own, found', account, effected⟩ := changes.member i m found
      rw [found', Registry.heard_of_account account]
      exact keeps m m' own effected
  rcases draw.silent_or_caught with silent | ⟨_, caught⟩
  · refine untouched silent fun m m' own effect => ?_
    rw [Call.hearAll_silent effect.silent, effect.kept]
    rfl
  · refine untouched caught fun m m' own effect => ?_
    have none' : m'.pending c.atoms.trail.literals = [] := by
      rw [effect.kept]
      unfold Member.pending
      rw [List.drop_length]
      rfl
    rw [effect.own, Call.entries_hearAll_enqueue, none', List.append_nil]

theorem Draws.facts_eq (draws : Draws c c') (same : c'.atoms.trail.literals = c.atoms.trail.literals)
    (i : Nat) : c'.facts i = c.facts i := by
  induction draws with
  | refl => rfl
  | @tail mid _ draws last ih =>
    -- The trail only grows, so it is the same all along.
    have early := (Draws.frame draws).1
    have late := (Draws.frame (.single last)).1
    have between : mid.atoms.trail.literals = c.atoms.trail.literals :=
      (early.eq_of_length_le (same ▸ late.length_le)).symm
    exact (last.facts_eq (same.trans between.symm) i).trans (ih between)

omit [Theory σ] in
/-- What has been told are all facts. -/
theorem Context.AllDelivered.facts_eq (delivered : c.AllDelivered) (i : Nat) :
    c.facts i = (c.theories.heard i).entries := by
  unfold facts
  cases found : c.theories.members[i]? with
  | none => exact List.append_nil _
  | some m =>
    have all : m.pending c.atoms.trail.literals = [] := by
      unfold Member.pending
      rw [delivered m (List.mem_of_getElem? found)]
      change (List.drop c.atoms.trail.literals.length c.atoms.trail.literals).filter _ = []
      rw [List.drop_length]
      rfl
    rw [Option.map_some, Option.getD_some, all, List.append_nil]

theorem Draws.decisions_eq (draws : Draws c c') : c'.theories.decisions = c.theories.decisions := by
  induction draws with
  | refl => rfl
  | tail _ last ih => exact last.decisions_eq.trans ih

/-- A command that decided a literal did so. -/
theorem Command.decides (h : c.Coherent) (command : Command σ) (kept : Option Conflict) :
    (command.procedure kept).Ensures c fun result after =>
      command.Decided result → Procedure.Decides c after := by
  by_cases deciding : (∃ l, command = .decideLiteral l) ∨ command = .makeDecision
  · rcases deciding with ⟨l, rfl⟩ | rfl
    · refine ensures_answer ((Procedure.decideLiteral_course l).mono fun result after made decided => ?_)
      rcases decided with ⟨_, done⟩ | ⟨other, _⟩
      · cases result with
        | error e => cases done
        | ok _ => exact made.1
      · cases other
    · refine ensures_answer ((Procedure.makeDecision_course h).mono fun result after made decided => ?_)
      rcases decided with ⟨⟨l, other⟩, _⟩ | ⟨_, l, done⟩
      · cases other
      · rcases result with e | l | _
        · cases done
        · exact made.1
        · cases done
  · exact fun result after _ decided => absurd (decided.imp And.left And.left) deciding

/-! ### Returns -/

/-- A context is as another was: the trail, every atom that there was then, and the decisions of theories.
Theories have heard of their facts, all of them, and what atoms there are besides have no value. -/
structure Context.Restores (c' c : Context σ) : Prop where
  literals : c'.atoms.trail.literals = c.atoms.trail.literals
  starts : c'.atoms.trail.starts = c.atoms.trail.starts
  assignments : ∀ a < c.atoms.count, c'.atoms.assignment a = c.atoms.assignment a
  decisions : c'.theories.decisions = c.theories.decisions
  facts : ∀ i m, c.theories.members[i]? = some m →
    (c'.theories.heard i).entries = (c.theories.heard i).entries ++ m.pending c.atoms.trail.literals
  unvalued : ∀ a, c.atoms.count ≤ a → c'.atoms.value a = none

namespace Context.AgreesTo

/-! A context that is back at the level of one with which it agrees up to that level. -/

variable (agrees : c.AgreesTo c.level c') (back : c'.level = c.level)
include agrees back

omit [Theory σ] in
theorem stack_eq : c'.atoms.trail.stack = c.atoms.trail.stack := by
  have same := agrees.stack
  have low : c.atoms.trail.stack.level ≤ c.level := Nat.le_refl _
  have low' : c'.atoms.trail.stack.level ≤ c.level := Nat.le_of_eq back
  rwa [LevelStack.cutTo_of_le _ _ low, LevelStack.cutTo_of_le _ _ low'] at same

omit [Theory σ] in
theorem assignment_eq (h : c.Coherent) (h' : c'.Coherent) : c'.atoms.assignment = c.atoms.assignment := by
  funext a
  rw [← h'.supports.atoms.assignmentTo_level (Nat.le_of_eq back),
    ← h.supports.atoms.assignmentTo_level (Nat.le_refl _)]
  exact congrFun agrees.assignment a

omit [Theory σ] in
theorem decisions_eq (standing : ∀ d ∈ c.theories.decisions, d.level ≤ c.level)
    (standing' : ∀ d ∈ c'.theories.decisions, d.level ≤ c'.level) :
    c'.theories.decisions = c.theories.decisions := by
  have all : c.theories.decisions.filter (fun d => d.level ≤ c.level) = c.theories.decisions :=
    List.filter_eq_self.mpr fun d member => decide_eq_true (standing d member)
  have all' : c'.theories.decisions.filter (fun d => d.level ≤ c.level) = c'.theories.decisions :=
    List.filter_eq_self.mpr fun d member => decide_eq_true (back ▸ standing' d member)
  rw [← all', agrees.decisions, all]

omit [Theory σ] in
/-- What a theory had heard stays in place, and if it was told everything nothing can have been added. -/
theorem heard_eq (told : c.Told) (told' : c'.Told) (delivered : c.AllDelivered) {i : Nat} {m : Member σ}
    (found : c.theories.members[i]? = some m) :
    (c'.theories.heard i).entries = (c.theories.heard i).entries := by
  obtain ⟨m', found', observes⟩ :
      ∃ m', c'.theories.members[i]? = some m' ∧ m'.observed = m.observed := by
    have same := congrArg (·[i]?) agrees.observed
    simp only [List.getElem?_map, found, Option.map_some] at same
    exact Option.map_eq_some_iff.mp same
  have before := told.delivered i m found
  have after := told'.delivered i m' found'
  have keeps : (c.theories.heard i).entries <+: (c'.theories.heard i).entries := by
    have keeps := agrees.heard i
    unfold LevelStack.KeepsTo at keeps
    have low : (c.theories.heard i).level ≤ c.level := Nat.le_of_eq before.heardLevel
    have low' : (c'.theories.heard i).level ≤ c.level := Nat.le_of_eq (after.heardLevel.trans back)
    rwa [LevelStack.cutTo_of_le _ _ low, LevelStack.cutTo_of_le _ _ low'] at keeps
  refine (keeps.eq_of_length_le (List.Subperm.length_le (after.distinct.subperm ?_))).symm
  intro l heard
  obtain ⟨onTrail, observed⟩ := after.mem_entries.mp heard
  rw [agrees.stack_eq back] at onTrail
  refine before.mem_entries.mpr ⟨?_, ?_⟩
  · have all : m.head = c.atoms.trail.stack.entries.length := delivered m (List.mem_of_getElem? found)
    rw [all, List.take_length]
    exact List.mem_of_mem_take onTrail
  · unfold Member.observes at observed ⊢
    rwa [← observes]

end Context.AgreesTo

/-- Theories are told of their facts before a decision, which leaves everything below its level. -/
theorem Procedure.Decides.agreesTo (decided : Procedure.Decides c c') (h : c.Coherent) (told : c.Told) :
    ∃ mid, Draws c mid ∧ mid.atoms = c.atoms ∧ mid.AllDelivered ∧ mid.AgreesTo c.level c' ∧
      c.level < c'.level := by
  obtain ⟨mid, opened, draws, same, decide, last⟩ := decided
  have level : mid.level = c.level := congrArg Atoms.level same
  have coherent := Draws.coherent draws h
  have told' := Moves.told (Draws.moves draws : Moves {} c mid) h told
  have told'' := Moves.told (.single (.decide trivial decide) : Moves .any mid opened) coherent told'
  have higher : c.level < opened.level := by
    cases decide with
    | decide l proposer theories atoms delivered opened made =>
      rw [Context.level, Context.level, Atoms.level_assign made]
      change c.atoms.level < mid.atoms.trail.stack.openLevel.level
      rw [LevelStack.level_openLevel, ← same]
      exact Nat.lt_succ_self _
  refine ⟨mid, draws, same, ?_, ?_, ?_⟩
  · cases decide with
    | decide l proposer theories atoms delivered opened made => exact delivered
  · exact (decide.agreesTo told' (Nat.le_of_eq level.symm)).trans (last.agreesTo told'' higher)
  · rw [(Draws.frame (.single last)).2.1]
    exact higher

theorem Procedure.Retreated.agreesTo (retreated : Retreated level c c') (h : c.Coherent) (told : c.Told)
    (low : level < c.level) : c.AgreesTo level c' ∧ c'.level = level := by
  obtain ⟨retracted, theories, undecided, taken, rfl⟩ := retreated.of_lt low
  refine ⟨.retreat h told low undecided taken (Nat.le_refl _), ?_⟩
  rw [Context.level, Atoms.level, Atoms.trail_forgetAbove, Trail.level_cutTo]
  exact Nat.min_eq_left (Nat.le_of_lt low)

/-- A context that is back at the level of one that agrees with it, but for facts that theories were told
there, is as that was. -/
theorem Context.AgreesTo.restores {ready : Context σ} (agrees : ready.AgreesTo c.level c')
    (back : c'.level = c.level) (draws : Draws c ready) (same : ready.atoms = c.atoms)
    (delivered : ready.AllDelivered) (h : c.Coherent) (h' : c'.Coherent) (told : c.Told) (told' : c'.Told)
    (orderly : c.Orderly) (orderly' : c'.Orderly) : c'.Restores c := by
  have level : ready.level = c.level := congrArg Atoms.level same
  rw [← level] at agrees back
  have stack : c'.atoms.trail.stack = c.atoms.trail.stack := same ▸ agrees.stack_eq back
  have assignment : c'.atoms.assignment = c.atoms.assignment :=
    same ▸ agrees.assignment_eq back (Draws.coherent draws h) h'
  refine ⟨congrArg LevelStack.entries stack, congrArg LevelStack.starts stack,
    fun a _ => congrFun assignment a, ?_, fun i m found => ?_, fun a new => ?_⟩
  · rw [← draws.decisions_eq]
    refine agrees.decisions_eq back ?_ fun d member => (orderly'.standing d member).2.1
    rw [draws.decisions_eq, level]
    exact fun d member => (orderly.standing d member).2.1
  · have inside : i < ready.theories.members.length := by
      rw [(Draws.frame draws).2.2.2.2.2]
      exact (List.getElem?_eq_some_iff.mp found).1
    rw [agrees.heard_eq back (Moves.told (Draws.moves draws : Moves {} c ready) h told) told' delivered
      (List.getElem?_eq_getElem inside), ← delivered.facts_eq, draws.facts_eq (by rw [same]),
      Context.facts, found]
    rfl
  · rw [Atoms.value_eq_none, assignment]
    by_contra assigned
    obtain ⟨given, found⟩ := Option.ne_none_iff_exists'.mp assigned
    exact Nat.not_lt.mpr new (Atoms.lt_count_of_assignment found)

namespace PublicRun

variable {settings : Settings} {earlier between : List (Event σ)} {opening back : Event σ} {s : Session σ}

/-- What comes after a decision, above the level at which it was made, is no matter up to that. -/
theorem agreesTo_of_above (run : PublicRun settings (earlier ++ opening :: between) s)
    (opens : opening.command.Decided opening.result)
    (above : ∀ e ∈ between, ∀ c ∈ e.moments, opening.before.context.level < c.level) :
    ∃ mid, Draws opening.before.context mid ∧ mid.atoms = opening.before.context.atoms ∧
      mid.AllDelivered ∧ mid.AgreesTo opening.before.context.level s.context ∧
      opening.before.context.level < s.context.level := by
  have member : opening ∈ earlier ++ opening :: between := List.mem_append_right _ (.head _)
  obtain ⟨h, taken, ran⟩ := run.ran opening member
  obtain ⟨earlier', run'⟩ := run.upTo member
  have told := run'.of_concat.1.told
  have decided := Command.decides h _ _ _ _ (Session.step_eq_ok taken).1 opens
  obtain ⟨mid, draws, same, delivered, agrees, higher⟩ := decided.agreesTo h told
  -- From the decision on the moments of the run stay above the level.
  have other : opening.command ≠ .solve := by
    intro search
    rcases opens with ⟨⟨l, literal⟩, _⟩ | ⟨made, _⟩
    · rw [search] at literal
      cases literal
    · rw [search] at made
      cases made
  obtain ⟨chain, last⟩ : (moments settings _).IsChain (Context.Passes fun _ => True) ∧ _ :=
    run.isChain_moments fun _ _ _ _ => trivial
  have whole : moments settings (earlier ++ opening :: between) =
      moments settings earlier ++ opening.after.context :: between.flatMap Event.moments := by
    rw [moments_append, List.flatMap_cons, Event.moments_of_ne other]
    rfl
  rw [whole] at chain last
  rw [List.getLast?_append_of_ne_nil _ (List.cons_ne_nil _ _)] at last
  have high : ∀ c ∈ opening.after.context :: between.flatMap Event.moments,
      opening.before.context.level + 1 ≤ c.level := by
    intro c member
    rcases List.mem_cons.mp member with rfl | member
    · exact higher
    · obtain ⟨e, member, moment⟩ := List.mem_flatMap.mp member
      exact above e member c moment
  have along := Context.Passes.above_of_isChain chain.right_of_append last high
  obtain ⟨agrees', still⟩ := along.agreesTo (ran.course.coherent h) run'.told higher
  exact ⟨mid, draws, same, delivered, agrees.trans agrees', still⟩

/-- An atom without a value has as its previous value the last one that it had. -/
theorem previousValue_of_last {events : List (Event σ)} (run : PublicRun settings events s)
    {first later : List (Context σ)} {mid : Context σ} (split : moments settings events = first ++ mid :: later)
    {a : Atom} {value : Bool} (valued : mid.atoms.value a = some value)
    (unvalued : ∀ c ∈ later, c.atoms.value a = none) (left : s.context.atoms.value a = none) :
    s.context.atoms.previousValue a = value := by
  obtain ⟨chain, last⟩ : (moments settings events).IsChain (Context.Passes fun _ => True) ∧ _ :=
    run.isChain_moments fun _ _ _ _ => trivial
  rw [split] at chain last
  rw [List.getLast?_append_of_ne_nil _ (List.cons_ne_nil _ _)] at last
  obtain ⟨given, assigned, _⟩ := Atoms.value_eq_some.mp valued
  have kept := Context.Passes.lastValue_of_isChain chain.right_of_append last
    (Atoms.lt_count_of_assignment assigned) unvalued
  rw [Atoms.previousValue_of_unvalued left, kept, Atoms.lastValue, valued]
  rfl

/-- A return to the level at which a decision was made restores the context as it was before the decision,
whatever happened above that level in between: literals were decided, propagated and learnt, searches were
made and atoms added. An atom that had a value in between keeps the last one as its previous value. -/
theorem backjump_restores (run : PublicRun settings (earlier ++ opening :: (between ++ [back])) s)
    (opens : opening.command.Decided opening.result)
    (above : ∀ e ∈ between, ∀ c ∈ e.moments, opening.before.context.level < c.level)
    (returns : back.command = .backjump opening.before.context.level) :
    s.context.Restores opening.before.context ∧
      ∀ first mid later a value, (opening :: between).flatMap Event.moments = first ++ mid :: later →
        opening.before.context.atoms.value a = none → mid.atoms.value a = some value →
        (∀ c ∈ later, c.atoms.value a = none) → s.context.atoms.previousValue a = value := by
  have memberOpening : opening ∈ earlier ++ opening :: (between ++ [back]) :=
    List.mem_append_right _ (.head _)
  have memberBack : back ∈ earlier ++ opening :: (between ++ [back]) :=
    List.mem_append_right _ (.tail _ (List.mem_append_right _ (.head _)))
  have whole := run
  rw [← List.cons_append, ← List.append_assoc] at whole
  obtain ⟨run', _, rfl⟩ := whole.of_concat
  obtain ⟨ready, draws, same, delivered, agrees, higher⟩ := run'.agreesTo_of_above opens above
  obtain ⟨h, _, _⟩ := run.ran opening memberOpening
  obtain ⟨_, beforeOpening⟩ := run.upTo memberOpening
  have executed := (Session.step_eq_ok (run.ran back memberBack).2.1).1
  rw [returns] at executed
  have retreated := Command.ensures_answer (f := fun _ => .done)
    (q := fun _ after => Procedure.Retreated opening.before.context.level back.before.context after)
    ((Procedure.backjump_course _).mono fun _ _ returned => returned.2) _ _ executed
  obtain ⟨agrees', level⟩ := retreated.agreesTo run'.coherent.1 run'.told higher
  have restores : back.after.context.Restores opening.before.context :=
    (agrees.trans agrees').restores level draws same delivered h run.coherent.1
      beforeOpening.of_concat.1.told run.told (run.exchanges.2 opening memberOpening).1 run.exchanges.1
  refine ⟨restores, fun first mid later a value split before valued unvalued => ?_⟩
  have left : back.after.context.atoms.value a = none := by
    by_cases known : a < opening.before.context.atoms.count
    · rw [Atoms.value_eq_none, restores.assignments a known]
      exact Atoms.value_eq_none.mp before
    · exact restores.unvalued a (Nat.not_lt.mp known)
  have other : back.command ≠ .solve := returns ▸ nofun
  have whole : moments settings (earlier ++ opening :: (between ++ [back])) =
      (moments settings earlier ++ first) ++ mid :: (later ++ [back.after.context]) := by
    rw [moments_append, ← List.cons_append, List.flatMap_append, split, List.flatMap_singleton,
      Event.moments_of_ne other]
    simp only [List.append_assoc, List.cons_append]
  exact run.previousValue_of_last whole valued
    (List.forall_mem_append.mpr ⟨unvalued, List.forall_mem_singleton.mpr left⟩) left

/-- A literal is decided, its consequences are drawn, an atom is added, and a search gives another atom a
value, recovers and gives it the other. After the return the second value is the previous one. -/
theorem backjump_restores_after_search :
    ∃ (earlier between : List (Event (AtMost ⊕ Reachability)))
      (opening back : Event (AtMost ⊕ Reachability)) (s : Session (AtMost ⊕ Reachability)),
      PublicRun {} (earlier ++ opening :: (between ++ [back])) s ∧
      (earlier ++ opening :: (between ++ [back])).map (·.command) =
        [.freshLiterals 6, .addClause [⟨-2⟩, ⟨3⟩], .addClause [⟨-2⟩, ⟨5⟩, ⟨6⟩],
          .addClause [⟨-2⟩, ⟨5⟩, ⟨-6⟩], .addTheory (.inl (.ofMembers [⟨1⟩, ⟨2⟩, ⟨3⟩, ⟨4⟩] 3)),
          .observe 0 1, .observe 0 4, .decideLiteral ⟨1⟩, .decideLiteral ⟨2⟩, .propagate, .freshAtom,
          .solve, .backjump 1] ∧
      opening.command.Decided opening.result ∧
      (∀ e ∈ between, ∀ c ∈ e.moments, opening.before.context.level < c.level) ∧
      back.command = .backjump opening.before.context.level ∧
      s.context.Restores opening.before.context ∧ s.context.atoms.previousValue 5 = true := by
  obtain ⟨earlier, opening, later, s, run, first, opens, others, checked⟩ :=
    of_events_any (σ := AtMost ⊕ Reachability) {}
    [.freshLiterals 6, .addClause [⟨-2⟩, ⟨3⟩], .addClause [⟨-2⟩, ⟨5⟩, ⟨6⟩],
      .addClause [⟨-2⟩, ⟨5⟩, ⟨-6⟩], .addTheory (.inl (.ofMembers [⟨1⟩, ⟨2⟩, ⟨3⟩, ⟨4⟩] 3)),
      .observe 0 1, .observe 0 4, .decideLiteral ⟨1⟩]
    (.decideLiteral ⟨2⟩) [.propagate, .freshAtom, .solve, .backjump 1]
    (by simp [Command.IsPublic])
    (fun _ opening later _ => decide (opening.result = .ok .done) &&
      decide (opening.before.context.level = 1) &&
      decide (opening.before.context.atoms.value 5 = none) &&
      (later.dropLast.all fun e => e.moments.all fun c => decide (1 < c.level)) &&
      ((opening :: later.dropLast).flatMap Event.moments).getLast?.any
        fun c : Context (AtMost ⊕ Reachability) => decide (c.atoms.value 5 = some true))
    (by decide +kernel)
  have split : later.map (·.command) = [.propagate, .freshAtom, .solve] ++ [.backjump 1] := others
  obtain ⟨between, last, rfl, middle, ending⟩ := List.map_eq_append_iff.mp split
  obtain ⟨back, none', rfl, returns, rest⟩ := List.map_eq_cons_iff.mp ending
  obtain rfl := List.map_eq_nil_iff.mp rest
  simp only [List.dropLast_concat, Bool.and_eq_true, decide_eq_true_eq, List.all_eq_true] at checked
  obtain ⟨⟨⟨⟨done, level⟩, before⟩, above⟩, valued⟩ := checked
  obtain ⟨mid, final, valued⟩ := (Option.any_eq_true _ _).mp valued
  obtain ⟨first', whole⟩ := List.getLast?_eq_some_iff.mp final
  have decided : opening.command.Decided opening.result := .inl ⟨⟨_, opens⟩, done⟩
  have stays : ∀ e ∈ between, ∀ c ∈ e.moments, opening.before.context.level < c.level :=
    fun e member c moment => level ▸ above e member c moment
  have returns' : back.command = .backjump opening.before.context.level := level ▸ returns
  obtain ⟨restores, previous⟩ := run.backjump_restores decided stays returns'
  have last : s.context.atoms.previousValue 5 = true :=
    previous first' mid [] 5 true whole before (of_decide_eq_true valued) (List.forall_mem_nil _)
  refine ⟨earlier, between, opening, back, s, run, ?_, decided, stays, returns', restores, last⟩
  rw [List.map_append, first, List.map_cons, opens, others]
  simp only [List.cons_append, List.nil_append]

end PublicRun

end SatModulo
