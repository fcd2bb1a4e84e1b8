import SatModulo.Proofs.Runs
import SatModulo.Theories.AtMost
import SatModulo.Theories.Reachability
import SatModulo.Theory.Either

/-!
# What a fixpoint of propagation has left

A clause is due when it is false, or one literal of it has no value and all others are false. No step of
propagation leaves a clause behind: a clause that is due at a fixpoint was missed before, with every
false literal of it passed by the head (`Draws.missed`). Clauses come to be missed when a decision is
made while something is still to be propagated, since what is drawn then is lost with the level, and
when a clause is given that is false. Otherwise clauses are attended to on every level
(`ClauseStore.Attends`), and propagation ends without a clause that is due
(`PublicRun.due_at_fixpoint`).
-/
namespace SatModulo

/-- Every literal of a clause is false, or one has no value and all others are false. -/
def Clause.IsDue (value : Atom → Option Bool) (c : Clause) : Prop :=
  (∀ l ∈ c, l.valueOn value = some false) ∨
    ∃ l ∈ c, l.valueOn value = none ∧ ∀ m ∈ c, m ≠ l → m.valueOn value = some false

/-- For a clause without repeated literals, to be due is to be unit or false. -/
theorem Clause.isDue_iff {value : Atom → Option Bool} {c : Clause} (distinct : c.Nodup) :
    c.IsDue value ↔ c.stateOn value ≠ .unforced := by
  constructor
  · rintro (falsified | ⟨l, member, unset, others⟩)
    · rw [stateOn_eq_falsified.mpr falsified]
      exact ClauseState.noConfusion
    · rw [stateOn_of_unit distinct member unset others]
      exact ClauseState.noConfusion
  · intro decided
    cases state : c.stateOn value with
    | unforced => exact absurd state decided
    | falsified => exact .inl (stateOn_eq_falsified.mp state)
    | unit l =>
      obtain ⟨member, unset, others⟩ := stateOn_eq_unit state
      exact .inr ⟨l, member, unset, others⟩

namespace Atoms

variable {s s' : Atoms} {l : Literal} {reason : Reason} {clause : Clause} {level : Nat}

/-- The value of an atom that had one at the end of a level. -/
def valueUpTo (s : Atoms) (level : Nat) (a : Atom) : Option Bool :=
  ((s.assignment a).filter fun given => given.level ≤ level).map (·.value)

theorem valueUpTo_assign (made : s.assign l reason = .ok (.unset, s')) (low : level < s.level) :
    s'.valueUpTo level = s.valueUpTo level := by
  obtain ⟨_, unvalued, _, _, assignment⟩ := assign_eq_unset made
  funext a
  rw [valueUpTo, valueUpTo, assignment]
  split
  · rename_i same
    rw [same, unvalued, Option.filter_some_neg (by simpa using low)]
    rfl
  · rfl

theorem Coherent.valueUpTo_forgetAbove (h : s.Coherent) {target : Nat} (low : level ≤ target) :
    (s.forgetAbove target).2.valueUpTo level = s.valueUpTo level := by
  funext a
  rw [valueUpTo, valueUpTo, h.assignment_forgetAbove, Option.filter_filter]
  have lower : ∀ i, i ≤ level → i ≤ target := fun _ inside => Nat.le_trans inside low
  congr 2
  funext given
  by_cases inside : given.level ≤ level
  · simp [inside, lower _ inside]
  · simp [inside]

theorem Coherent.value_forgetAbove (h : s.Coherent) : (s.forgetAbove level).2.value = s.valueUpTo level := by
  funext a
  rw [value, valueUpTo, h.assignment_forgetAbove]

theorem Coherent.valueUpTo_level (h : s.Coherent) : s.valueUpTo s.level = s.value := by
  funext a
  rw [valueUpTo, value]
  cases assigned : s.assignment a with
  | none => rfl
  | some given =>
    have low := h.levelOf_le_level (levelOf_eq_some.mpr ⟨given, assigned, rfl⟩)
    rw [Option.filter_some_pos (by simpa using low)]

theorem valueUpTo_eq_none (high : s.levelOf l.atom = some level) {lower : Nat} (below : lower < level) :
    l.valueOn (s.valueUpTo lower) = none := by
  obtain ⟨given, assigned, rfl⟩ := levelOf_eq_some.mp high
  rw [Literal.valueOn_eq_none, valueUpTo, assigned, Option.filter_some_neg (by simpa using below)]
  rfl

/-- What is missed after the head has passed a literal whose clauses are not was missed before. -/
theorem Missed.of_pass (next : s.trail.next = some l) (missed : s.Missed (s.trail.head + 1) clause)
    (seen : l.negate ∈ clause → ¬s.Missed (s.trail.head + 1) clause) :
    s.Missed s.trail.head clause := by
  obtain ⟨inside, found⟩ := List.getElem?_eq_some_iff.mp next
  refine ⟨missed.1, fun m member waiting => ?_⟩
  rw [List.drop_eq_getElem_cons inside, found, List.mem_cons] at waiting
  rcases waiting with same | later
  · have opposite : l.negate = m := by rw [← same, Literal.negate_negate]
    exact seen (opposite ▸ member) missed
  · exact missed.2 m member later

end Atoms

namespace ClauseStore

variable {store store' : ClauseStore} {s s' : Atoms} {l : Literal} {reason : Reason}

theorem Grows.value (step : store.Grows s s') {a : Atom} {v : Bool} (given : s.value a = some v) :
    s'.value a = some v := by
  have made : ∀ l reason, s.assign l reason = .ok (.unset, s') → s'.value a = some v := by
    intro l reason made
    rw [Atoms.value_assign made, if_neg, given]
    rintro rfl
    rw [Atoms.value_eq_none.mpr (Atoms.assign_eq_unset made).2.1] at given
    cases given
  cases step with
  | units step =>
    cases step with
    | force _ key clause l found forces assigned => exact made l _ assigned
    | pass l next seen => exact given
  | conclude i step =>
    obtain ⟨l, marker, _, assigned⟩ := step
    exact made l _ assigned

theorem growsAll_value (steps : Relation.ReflTransGen store.Grows s s') {a : Atom} {v : Bool}
    (given : s.value a = some v) : s'.value a = some v := by
  induction steps with
  | refl => exact given
  | tail _ step ih => exact step.value ih

theorem Supports.ne_top_of_assign (h : store.Supports s)
    (made : s.assign l reason = .ok (.unset, s')) : l.atom ≠ topAtom := by
  intro top
  have unvalued := (Atoms.assign_eq_unset made).2.1
  rw [top, h.atoms.top] at unvalued
  cases unvalued

theorem Supports.missed_of_assign (h : store.Supports s) (made : s.assign l reason = .ok (.unset, s'))
    {clause : Clause} (distinct : clause.Nodup) (missed : s'.Missed s'.trail.head clause) :
    s.Missed s.trail.head clause := by
  rw [Atoms.head_assign made] at missed
  exact missed.of_assign made h.atoms.head_le (h.ne_top_of_assign made) distinct

/-- Growing misses no clause of the store. -/
theorem Supports.missed_of_grows (h : store.Supports s) (step : store.Grows s s') {key : ClauseKey}
    {clause : Clause} (found : store.get? key = some clause)
    (missed : s'.Missed s'.trail.head clause) : s.Missed s.trail.head clause := by
  cases step with
  | units step =>
    cases step with
    | force _ key' other l found' forces made => exact h.missed_of_assign made (h.nodup found) missed
    | pass l next seen => exact .of_pass next missed (seen key clause found)
  | conclude i step =>
    obtain ⟨l, marker, _, made⟩ := step
    exact h.missed_of_assign made (h.nodup found) missed

theorem Supports.missed_of_growsAll (h : store.Supports s)
    (steps : Relation.ReflTransGen store.Grows s s') {key : ClauseKey} {clause : Clause}
    (found : store.get? key = some clause) (missed : s'.Missed s'.trail.head clause) :
    s.Missed s.trail.head clause := by
  induction steps with
  | refl => exact missed
  | tail steps step ih => exact ih ((h.growsAll steps).missed_of_grows step found missed)

/-- Every clause is attended to, on the current level and on those below: none is missed, the head is not
below the current level, and at the end of each level below no clause was due. -/
structure Attends (store : ClauseStore) (s : Atoms) : Prop where
  current : ∀ key clause, store.get? key = some clause → ¬s.Missed s.trail.head clause
  passed : ∀ level < s.level, (s.trail.stack.cutTo level).entries.length ≤ s.trail.head
  below : ∀ level < s.level, ∀ key clause, store.get? key = some clause →
    clause.stateOn (s.valueUpTo level) = .unforced

namespace Attends

theorem initial : Attends {} {} where
  current := by intro key clause found; cases key <;> simp [get?] at found
  passed := by intro level low; cases low
  below := by intro level low; cases low

theorem assign (h : store.Attends s) (supports : store.Supports s)
    (made : s.assign l reason = .ok (.unset, s')) : store.Attends s' where
  current := fun key clause found missed =>
    h.current key clause found (supports.missed_of_assign made (supports.nodup found) missed)
  passed := by
    intro level low
    rw [Atoms.level_assign made] at low
    obtain ⟨_, _, _, trail, _⟩ := Atoms.assign_eq_unset made
    rw [Atoms.head_assign made, trail, Trail.store, LevelStack.cutTo_push _ low]
    exact h.passed level low
  below := by
    intro level low
    rw [Atoms.level_assign made] at low
    rw [Atoms.valueUpTo_assign made low]
    exact h.below level low

/-- A consequence leaves no clause unattended: a clause that it decides is led to by its literal. -/
theorem grows (h : store.Attends s) (supports : store.Supports s) (step : store.Grows s s') :
    store.Attends s' := by
  cases step with
  | units step =>
    cases step with
    | force _ key clause l found forces made => exact h.assign supports made
    | pass l next seen =>
      refine ⟨fun key clause found missed => ?_, fun level low => ?_, h.below⟩
      · exact h.current key clause found (missed.of_pass next (seen key clause found))
      · exact Nat.le_succ_of_le (h.passed level low)
  | conclude i step =>
    obtain ⟨l, marker, _, made⟩ := step
    exact h.assign supports made

theorem growsAll (h : store.Attends s) (supports : store.Supports s)
    (steps : Relation.ReflTransGen store.Grows s s') : store.Attends s' := by
  induction steps with
  | refl => exact h
  | tail steps step ih => exact ih.grows (supports.growsAll steps) step

/-- A return leaves nothing to be propagated, and no clause that is due. -/
theorem forgetAbove (h : store.Attends s) (coherent : s.Coherent) {target : Nat}
    (low : target < s.level) : store.Attends (s.forgetAbove target).2 := by
  have level : (s.forgetAbove target).2.level = target := by
    rw [Atoms.level, Atoms.trail_forgetAbove, Trail.level_cutTo]
    exact Nat.min_eq_left (Nat.le_of_lt low)
  have trail : (s.forgetAbove target).2.trail =
      ⟨s.trail.stack.cutTo target, (s.trail.stack.cutTo target).entries.length⟩ := by
    have cut : s.trail.cutTo target = (s.trail.stack.above target, _) := if_pos low
    rw [Atoms.trail_forgetAbove, cut, Nat.min_eq_right (h.passed target low)]
  refine ⟨fun key clause found missed => missed.1 ?_, fun lower inside => ?_, fun lower inside => ?_⟩
  · rw [coherent.value_forgetAbove]
    exact h.below target low key clause found
  · rw [level] at inside
    rw [trail]
    have shorter := (s.trail.stack.cutTo target).entries_cutTo_isPrefix lower
    exact shorter.length_le
  · rw [level] at inside
    rw [coherent.valueUpTo_forgetAbove (Nat.le_of_lt inside)]
    exact h.below lower (Nat.lt_trans inside low)

/-- Where nothing is left to be propagated, no clause is due. -/
theorem settled (h : store.Attends s) (atEnd : s.trail.head = s.trail.length) :
    ∀ key clause, store.get? key = some clause → clause.stateOn s.value = .unforced := by
  intro key clause found
  by_contra due
  refine h.current key clause found ⟨due, fun l _ waiting => ?_⟩
  rw [atEnd, Trail.length, List.drop_length] at waiting
  cases waiting

/-- A level may be opened when nothing is left to be propagated. -/
theorem openLevel (h : store.Attends s) (coherent : s.Coherent)
    (atEnd : s.trail.head = s.trail.length) : store.Attends s.openLevel := by
  have values : ∀ lower, s.openLevel.valueUpTo lower = s.valueUpTo lower := fun _ => rfl
  refine ⟨fun key clause found missed => ?_, fun lower inside => ?_, fun lower inside => ?_⟩
  · refine h.current key clause found ⟨missed.1, fun l member waiting => missed.2 l member ?_⟩
    rw [Atoms.openLevel, Trail.literals_openLevel]
    exact waiting
  · have shorter := (s.openLevel.trail.stack.entries_cutTo_isPrefix lower).length_le
    have entries : s.openLevel.trail.stack.entries = s.trail.literals := s.trail.literals_openLevel
    rw [entries] at shorter
    exact Nat.le_trans shorter (Nat.le_of_eq atEnd.symm)
  · rw [values]
    have inside : lower < s.level + 1 := by simpa [Atoms.openLevel, Atoms.level] using inside
    rcases Nat.lt_succ_iff_lt_or_eq.mp inside with under | rfl
    · exact h.below lower under
    · rw [coherent.valueUpTo_level]
      exact h.settled atEnd

theorem fresh (h : store.Attends s) {previous : Bool} {a : Atom}
    (success : s.fresh previous = .ok (a, s')) : store.Attends s' := by
  obtain ⟨_, _, trail, assignment⟩ := Atoms.fresh_eq_ok success
  have value : s'.value = s.value := funext fun a => by rw [Atoms.value, assignment, Atoms.value]
  refine ⟨fun key clause found missed => ?_, ?_, fun lower inside => ?_⟩
  · refine h.current key clause found ?_
    rwa [Atoms.Missed, trail, value] at missed
  · rw [Atoms.level, trail]
    exact h.passed
  · have same : s'.valueUpTo lower = s.valueUpTo lower :=
      funext fun a => by rw [Atoms.valueUpTo, assignment, Atoms.valueUpTo]
    rw [same]
    rw [Atoms.level, trail] at inside
    exact h.below lower inside

/-- A clause may be added where it was not decided at the end of any lower level. -/
theorem add (h : store.Attends s) {clause : Clause} {learnt : Bool} {key : ClauseKey}
    (stored : store.store clause learnt = .ok (key, store'))
    (current : ¬s.Missed s.trail.head clause)
    (below : ∀ level < s.level, clause.stateOn (s.valueUpTo level) = .unforced) :
    store'.Attends s := by
  refine ⟨fun other d found => ?_, h.passed, fun level low other d found => ?_⟩
  · rcases (get?_store_iff stored other d).mp found with old | ⟨_, rfl⟩
    · exact h.current other d old
    · exact current
  · rcases (get?_store_iff stored other d).mp found with old | ⟨_, rfl⟩
    · exact h.below level low other d old
    · exact below level low

end Attends

end ClauseStore

variable {σ : Type} [Theory σ] {c c' : Context σ} {taking : Intake σ}

theorem Draws.growsAll (draws : Draws c c') : Relation.ReflTransGen c.clauses.Grows c.atoms c'.atoms := by
  induction draws with
  | refl => exact .refl
  | tail draws draw ih =>
    have same := (Draws.frame draws).2.2.2.1
    exact ih.trans (same ▸ draw.grows)

/-- What is missed after consequences were drawn was missed before. -/
theorem Draws.missed (draws : Draws c c') (h : c.Coherent) {key : ClauseKey} {clause : Clause}
    (found : c.clauses.get? key = some clause)
    (missed : c'.atoms.Missed c'.atoms.trail.head clause) :
    c.atoms.Missed c.atoms.trail.head clause :=
  h.supports.missed_of_growsAll draws.growsAll found missed

/-- A clause that was due still is, unless a literal of it has become true. -/
theorem Draws.isDue (draws : Draws c c') {clause : Clause} (due : clause.IsDue c.atoms.value)
    (noneTrue : ∀ l ∈ clause, c'.valueOf l ≠ some true) : clause.IsDue c'.atoms.value := by
  have stays : ∀ l : Literal, l.valueOn c.atoms.value = some false →
      l.valueOn c'.atoms.value = some false := by
    intro l value
    rw [Literal.valueOn_eq_false] at value ⊢
    exact ClauseStore.growsAll_value draws.growsAll value
  rcases due with falsified | ⟨l, member, _, others⟩
  · exact .inl fun l member => stays l (falsified l member)
  · cases value : l.valueOn c'.atoms.value with
    | none => exact .inr ⟨l, member, value, fun m inClause other => stays m (others m inClause other)⟩
    | some b =>
      cases b with
      | true => exact absurd value (noneTrue l member)
      | false =>
        refine .inl fun m inClause => ?_
        by_cases same : m = l
        · rw [same, value]
        · exact stays m (others m inClause same)

/-- At the end of the trail the clauses that are due are those that were missed before and have no true
literal. -/
theorem Draws.isDue_iff (draws : Draws c c') (h : c.Coherent)
    (atEnd : c'.atoms.trail.head = c'.atoms.trail.length) {k : ClauseKey} {clause : Clause}
    (found : c.clauses.get? k = some clause) :
    clause.IsDue c'.atoms.value ↔
      c.atoms.Missed c.atoms.trail.head clause ∧ ∀ l ∈ clause, c'.valueOf l ≠ some true := by
  have distinct := h.supports.nodup found
  constructor
  · intro due
    have decided := (Clause.isDue_iff distinct).mp due
    refine ⟨draws.missed h found ⟨decided, fun l member waiting => ?_⟩, fun l member value => ?_⟩
    · rw [atEnd, Trail.length, List.drop_length] at waiting
      cases waiting
    · exact decided (Clause.stateOn_of_true member value)
  · rintro ⟨missed, noneTrue⟩
    exact draws.isDue ((Clause.isDue_iff distinct).mpr missed.1) noneTrue

def Context.Attends (c : Context σ) : Prop := c.clauses.Attends c.atoms

/-- A clause that was attended to at the end of a lower level is attended to after the return there. -/
theorem Jump.attends (jump : Jump c c') (h : c.Coherent) (attends : c.Attends) : c'.Attends := by
  cases jump with
  | retreat level low retracted theories undecided taken =>
    exact ClauseStore.Attends.forgetAbove attends h.supports.atoms low
  | learn key l lower level clauses retracted theories atoms distinct falsified current low below tight
      entailed stored undecided taken made =>
    have returned := ClauseStore.Attends.forgetAbove attends h.supports.atoms low
    have kept := returned.assign (h.supports.forgetAbove level) made
    have levelAfter : atoms.level = level := by
      rw [Atoms.level_assign made, Atoms.level, Atoms.trail_forgetAbove, Trail.level_cutTo]
      exact Nat.min_eq_left (Nat.le_of_lt low)
    refine kept.add stored (fun missed => missed.1 ?_) fun under inside => ?_
    · exact Clause.stateOn_of_true (.head _) (Atoms.valueOf_assign_self made)
    · -- Below its level neither the literal that is forced nor the latest of the others has a value.
      rw [levelAfter] at inside
      obtain base | ⟨m, member, latest⟩ := tight
      · omega
      · have apart : m.atom ≠ l.atom := by
          rw [List.map_cons, List.nodup_cons] at distinct
          intro same
          exact distinct.1 (List.mem_map.mpr ⟨m, member, same⟩)
        have levelM : atoms.levelOf m.atom = some level := by
          rw [Atoms.levelOf_assign made, if_neg apart, Atoms.levelOf,
            ClauseStore.Supports.assignment_of_low h.supports.atoms latest (Nat.le_refl level)]
          exact latest
        have levelL : atoms.levelOf l.atom = some level := by
          rw [Atoms.levelOf_assign made, if_pos rfl, ← Atoms.level_assign made, levelAfter]
        exact Clause.stateOn_of_two_unset (.head _) (.tail _ member) (fun same => apart (by rw [same]))
          (Atoms.valueUpTo_eq_none levelL inside) (Atoms.valueUpTo_eq_none levelM inside)

theorem Decide.attends (decide : Decide c c') (h : c.Coherent) (attends : c.Attends)
    (atEnd : c.atoms.trail.head = c.atoms.trail.length) : c'.Attends := by
  cases decide with
  | decide l proposer theories atoms delivered opened made =>
    have open' := ClauseStore.Attends.openLevel attends h.supports.atoms atEnd
    exact open'.assign h.supports.openLevel made

theorem Build.attends (build : Build taking c c') (h : c.Coherent) (attends : c.Attends) :
    c'.Attends := by
  cases build with
  | fresh previous a atoms success => exact ClauseStore.Attends.fresh attends success
  | give clause key clauses given base distinct known stored state =>
    refine ClauseStore.Attends.add attends stored (fun missed => missed.1 state) fun level low => ?_
    have base : c.atoms.level = 0 := base
    have low : level < c.atoms.level := low
    omega
  | giveUnit clause key clauses l atoms given base distinct known stored state made =>
    have kept := ClauseStore.Attends.assign attends h.supports made
    refine kept.add stored (fun missed => missed.1 ?_) fun level low => ?_
    · have member := (Clause.stateOn_eq_unit state).1
      exact Clause.stateOn_of_true member (Atoms.valueOf_assign_self made)
    · have base : c.atoms.level = 0 := base
      rw [Atoms.level_assign made] at low
      omega
  | register theory outcome theories given base registered => exact attends
  | observe i a base known m found new theory own inside late told => exact attends

theorem Moves.attends (moves : Moves taking c c') (h : c.Coherent) (attends : c.Attends)
    (atEnd : ∀ mid, taking.decides mid → mid.atoms.trail.head = mid.atoms.trail.length) :
    c'.Attends := by
  induction moves with
  | refl => exact attends
  | @tail mid last moves move ih =>
    have coherent := Moves.coherent moves h
    cases move with
    | draw move =>
      rw [Context.Attends, move.frame.1]
      exact ClauseStore.Attends.growsAll ih coherent.supports move.grows
    | jump move => exact move.attends coherent ih
    | decide allowed move => exact move.attends coherent ih (atEnd mid allowed)
    | build move => exact move.attends coherent ih
    | settle phase before after => exact ih
    | configure settings given => exact ih

/-- A command decides only when nothing is left to be propagated, and gives no clause that is false. -/
structure Event.IsAttentive (e : Event σ) : Prop where
  decides : e.command.Decided e.result →
    e.before.context.atoms.trail.head = e.before.context.atoms.trail.length
  gives : e.result ≠ .ok (.clause .unsatisfiable)

theorem Command.Ran.attends {command : Command σ} {result : Except Error Answer}
    (ran : command.Ran c result c') (h : c.Coherent) (attends : c.Attends)
    (decides : command.Decided result → c.atoms.trail.head = c.atoms.trail.length)
    (gives : result ≠ .ok (.clause .unsatisfiable)) : c'.Attends := by
  have atEnd : ∀ mid, (command.taking c result).decides mid →
      mid.atoms.trail.head = mid.atoms.trail.length := by
    intro mid allowed
    cases command with
    | decideLiteral l => rw [allowed.1, decides allowed.2]
    | makeDecision => rw [allowed.1, decides allowed.2]
    | solve => exact allowed
    | _ => exact allowed.elim
  rcases ran.moves with moves | ⟨refuting, mid, moves, refuted⟩
  · exact Moves.attends moves h attends atEnd
  · have reached := Moves.attends moves h attends atEnd
    cases refuted with
    | base clause known falsified => exact reached
    | contradict clause key clauses given base distinct known stored state =>
      obtain ⟨clause, outcome, _, answered, _⟩ := given
      rcases refuting with said | said | said
      · exact absurd said gives
      · rw [answered] at said
        cases said
      · rw [answered] at said
        cases said
    | empty given base => exact reached

theorem PublicRun.attends {settings : Settings} {events : List (Event σ)} {s : Session σ}
    (run : PublicRun settings events s) (attentive : ∀ e ∈ events, e.IsAttentive) :
    s.context.Attends := by
  induction run with
  | start => exact ClauseStore.Attends.initial
  | @step events s earlier command allowed result s' taken ih =>
    have run := earlier.step command allowed result s' taken
    obtain ⟨h, _, ran⟩ := run.ran ⟨s, command, result, s'⟩ (by simp)
    obtain ⟨decides, gives⟩ := attentive ⟨s, command, result, s'⟩ (by simp)
    exact ran.attends h (ih fun e member => attentive e (by simp [member])) decides gives

/-- A run that ends with propagation to a fixpoint. The clauses that are due then are those that were
missed before and have no true literal. There are none if every command before decided only when nothing
was left to be propagated, and gave no clause that is false. -/
theorem PublicRun.due_at_fixpoint {settings : Settings} {events : List (Event σ)} {e : Event σ}
    {s : Session σ} (run : PublicRun settings (events ++ [e]) s) (propagated : e.command = .propagate)
    (fixpoint : e.result = .ok .fixpoint) :
    (∀ key clause, s.context.clauses.get? key = some clause →
      (clause.IsDue s.context.atoms.value ↔
        e.before.context.atoms.Missed e.before.context.atoms.trail.head clause ∧
          ∀ l ∈ clause, s.context.valueOf l ≠ some true)) ∧
      ((∀ earlier ∈ events, earlier.IsAttentive) → ∀ key clause,
        s.context.clauses.get? key = some clause → ¬clause.IsDue s.context.atoms.value) := by
  obtain ⟨before, _, rfl⟩ := run.of_concat
  obtain ⟨h, taken, _⟩ := run.ran e (by simp)
  have executed := (Session.step_eq_ok taken).1
  rw [propagated, fixpoint] at executed
  have ended : (Procedure.propagate >>= fun outcome =>
      pure ((outcome.map Answer.conflict).getD .fixpoint) : Procedure σ Answer).Ensures
        e.before.context fun result after => result = .ok .fixpoint →
          Draws e.before.context after ∧ after.atoms.trail.head = after.atoms.trail.length := by
    refine Command.ensures_answer (Procedure.Ensures.mono (Procedure.propagate_leads h) ?_)
    rintro result after ⟨draws, outcome⟩ same
    cases result with
    | error cause => cases same
    | ok found =>
      cases found with
      | some conflict => cases same
      | none => exact ⟨draws, outcome.1⟩
  obtain ⟨draws, atEnd⟩ := ended _ _ executed rfl
  have clauses := (Draws.frame draws).2.2.2.1
  have exact' : ∀ key clause, e.after.context.clauses.get? key = some clause → (_ ↔ _) :=
    fun key clause found => draws.isDue_iff h atEnd (k := key) (clauses ▸ found)
  refine ⟨exact', fun attentive key clause found due => ?_⟩
  have missed := ((exact' key clause found).mp due).1
  exact (before.attends attentive).current key clause (clauses ▸ found) missed

/-- A clause forces a literal while a second decision is made. After a return to the first it is due, and
propagation to a fixpoint does not come back to it. -/
theorem due_after_hasty_decision :
    ∃ (events : List (Event (AtMost ⊕ Reachability))) (e : Event (AtMost ⊕ Reachability))
      (s : Session (AtMost ⊕ Reachability)), PublicRun {} (events ++ [e]) s ∧
        e.command = .propagate ∧ e.result = .ok .fixpoint ∧
        events.map (·.command) = [.freshLiterals 3, .addClause [⟨-1⟩, ⟨2⟩], .decideLiteral ⟨1⟩,
          .decideLiteral ⟨3⟩, .propagate, .backjump 1] ∧
        s.context.clauses.get? (.given 0) = some [⟨-1⟩, ⟨2⟩] ∧
        Clause.IsDue s.context.atoms.value [⟨-1⟩, ⟨2⟩] := by
  obtain ⟨_, between, ran, checked⟩ := Session.of_run_any
    (Session.ofSettings {} : Session (AtMost ⊕ Reachability))
    [.freshLiterals 3, .addClause [⟨-1⟩, ⟨2⟩], .decideLiteral ⟨1⟩, .decideLiteral ⟨3⟩, .propagate,
      .backjump 1]
    (fun (_, s) =>
      decide (s.context.atoms.Missed s.context.atoms.trail.head [⟨-1⟩, ⟨2⟩]) &&
        (s.run [.propagate]).toOption.any fun (results, s) =>
          decide (results = [.ok .fixpoint]) &&
            decide (s.context.clauses.get? (.given 0) = some [⟨-1⟩, ⟨2⟩]) &&
              ([⟨-1⟩, ⟨2⟩] : Clause).all fun l => decide (s.context.valueOf l ≠ some true))
    (by decide +kernel)
  rw [Bool.and_eq_true, decide_eq_true_eq] at checked
  obtain ⟨missed, more⟩ := checked
  obtain ⟨_, s, ranMore, checked⟩ := Session.of_run_any _ _ _ more
  simp only [Bool.and_eq_true, decide_eq_true_eq, List.all_eq_true] at checked
  obtain ⟨⟨rfl, stored⟩, noneTrue⟩ := checked
  obtain ⟨events, run, commands, _⟩ := PublicRun.of_run (by simp [Command.IsPublic]) ran
  obtain ⟨last, whole, lastCommand, lastResult⟩ := run.extend (by simp [Command.IsPublic]) ranMore
  obtain ⟨e, rfl⟩ : ∃ e, last = [e] := List.length_eq_one_iff.mp (by
    rw [← List.length_map (f := (·.command)), lastCommand]
    rfl)
  rw [List.map_singleton, List.singleton_inj] at lastCommand lastResult
  obtain rfl := run.session_eq whole.of_concat.1
  refine ⟨events, e, s, whole, lastCommand, lastResult, commands, stored, ?_⟩
  exact ((PublicRun.due_at_fixpoint whole lastCommand lastResult).1 _ _ stored).mpr ⟨missed, noneTrue⟩

end SatModulo
