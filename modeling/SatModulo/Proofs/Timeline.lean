import SatModulo.Proofs.Alerts
import SatModulo.Proofs.Moments
import SatModulo.Proofs.Progress
import Mathlib.Data.List.Chain

/-!
# Timelines

The moments that a run comes through (`moments`): where each command ends, and within a search where an
iteration has explored (`Procedure.explore`) and where it has recovered. A command other than a search takes
no value back, or takes values back and then gives at most one (`Command.extends_or_falls`), and the same
holds from moment to moment of a search. So the moments of a run pass to each other
(`PublicRun.isChain_moments`), and what is so at all of them for a while is so in between.
-/
namespace SatModulo

variable {σ : Type} [Theory σ] {c c' : Context σ}

/-! ### What operations do to atoms -/

theorem Atoms.forgetAbove_of_le {s : Atoms} {level : Nat} (high : s.level ≤ level) :
    (s.forgetAbove level).2 = s := by
  have none' : s.trail.cutTo level = ([], s.trail) := if_neg (Nat.not_lt.mpr high)
  rw [forgetAbove, none']
  rfl

/-- Two returns are a fall. -/
theorem Atoms.Falls.of_returns (s : Atoms) (first second : Nat) :
    s.Falls ((s.forgetAbove first).2.forgetAbove second).2 := ⟨first, second, .inl rfl⟩

theorem Atoms.Falls.of_return (s : Atoms) (level : Nat) : s.Falls (s.forgetAbove level).2 :=
  ⟨level, _, .inl (forgetAbove_of_le (Nat.le_refl _)).symm⟩

theorem Atoms.Falls.refl (s : Atoms) : s.Falls s := by
  have return' := Falls.of_return s s.level
  rwa [forgetAbove_of_le (Nat.le_refl _)] at return'

theorem Draws.extends (draws : Draws c c') : c.atoms.Extends c'.atoms := by
  induction draws with
  | refl => exact .refl _
  | tail _ draw ih => exact ih.trans (.growsAll draw.grows)

theorem Build.extends {taking : Intake σ} (build : Build taking c c') : c.atoms.Extends c'.atoms := by
  cases build with
  | fresh previous a atoms success => exact .fresh success
  | giveUnit clause key clauses l atoms given base distinct known stored state made => exact .assign made
  | _ => exact .refl _

theorem Decide.extends (decide : Decide c c') : c.atoms.Extends c'.atoms := by
  cases decide with
  | decide l proposer theories atoms delivered opened made =>
    have level : c.atoms.Extends c.atoms.openLevel := .of_cells rfl
    exact level.trans (.assign made)

/-- Only going back takes values back. -/
theorem Move.extends_or_jump {taking : Intake σ} (move : Move taking c c') :
    c.atoms.Extends c'.atoms ∨ Jump c c' := by
  cases move with
  | draw draw => exact .inl (Draws.extends (.single draw))
  | jump jump => exact .inr jump
  | decide allowed decide => exact .inl decide.extends
  | build build => exact .inl build.extends
  | settle => exact .inl (.refl _)
  | configure => exact .inl (.refl _)

/-- What is made of moves without a decision and does not lower the level never goes back. -/
theorem Moves.onward {taking : Intake σ} (moves : Moves taking c c')
    (undecided : ∀ mid, ¬taking.decides mid) (high : c.level ≤ c'.level) :
    Relation.ReflTransGen (fun c c' => Move taking c c' ∧ ¬Jump c c') c c' := by
  induction moves with
  | refl => exact .refl
  | tail moves move ih =>
    have before := Moves.level_le moves (fun mid decided => absurd decided (undecided mid))
      (Nat.lt_succ_self _)
    have last := move.level_le (undecided _)
    exact .tail (ih (by omega)) ⟨move, fun jump => absurd jump.level_lt (by omega)⟩

/-- What is made of moves without a decision and does not lower the level takes nothing back. -/
theorem Moves.extends_of_level_le {taking : Intake σ} (moves : Moves taking c c')
    (undecided : ∀ mid, ¬taking.decides mid) (high : c.level ≤ c'.level) : c.atoms.Extends c'.atoms := by
  have onward := moves.onward undecided high
  clear moves high
  induction onward with
  | refl => exact .refl _
  | tail _ step ih => exact ih.trans (step.1.extends_or_jump.resolve_right step.2)

namespace Procedure

theorem Retreated.atoms_eq {level : Nat} (retreated : Retreated level c c') :
    c'.atoms = (c.atoms.forgetAbove level).2 := by
  unfold Retreated at retreated
  split at retreated
  · obtain ⟨retracted, theories, _, _, rfl⟩ := retreated
    rfl
  · rename_i high
    rw [retreated, Atoms.forgetAbove_of_le (Nat.not_lt.mp high)]

/-- An operation touches neither the atoms nor what the context is at. -/
abbrev Still {α : Type} (p : Procedure σ α) (c : Context σ) : Prop :=
  p.Ensures c fun _ after => after.atoms = c.atoms ∧ after.phase = c.phase

theorem reasonFor_still (l : Literal) : (reasonFor l : Procedure σ Clause).Still c := by
  refine .get_bind ?_
  split
  · exact .ofExcept (fun _ _ => ⟨rfl, rfl⟩) fun _ _ => ⟨rfl, rfl⟩
  · refine .ofFaulty_bind fun (reason, theories) _ => ?_
    cases reason with
    | none =>
      refine .throw ?_
      exact ⟨rfl, rfl⟩
    | some reason =>
      refine .modify_bind (.modify_bind ?_)
      dsimp only
      split
      · exact .pure ⟨rfl, rfl⟩
      · exact .throw ⟨rfl, rfl⟩
  · exact .throw ⟨rfl, rfl⟩
  · exact .throw ⟨rfl, rfl⟩

theorem resolve_still (trail : List Literal) (position : Nat) (r : Resolvent) :
    (resolve trail position r : Procedure σ (Literal × List Literal)).Still c := by
  induction position generalizing r c with
  | zero => exact .throw ⟨rfl, rfl⟩
  | succ position ih =>
    unfold resolve
    refine .ofFaulty_bind fun l _ => .get_bind (.ofFaulty_bind fun met _ => ?_)
    split
    · split
      · exact .pure ⟨rfl, rfl⟩
      · refine .bind (reasonFor_still l) (fun _ _ => id) fun reason mid same => .get_bind ?_
        refine .ofExcept_bind (fun _ _ => same) fun r _ => (ih r).mono fun _ after same' => ?_
        exact ⟨same'.1.trans same.1, same'.2.trans same.2⟩
    · exact ih r

theorem analyse_still (conflict : Clause) : (analyse conflict : Procedure σ Learnt).Still c := by
  refine .get_bind (.ofExcept_bind (fun _ _ => ⟨rfl, rfl⟩) fun r _ => ?_)
  split
  · exact .throw_bind ⟨rfl, rfl⟩
  · refine .bind (resolve_still _ _ r) (fun _ _ => id) fun (last, lower) mid same => .get_bind ?_
    refine .ofExcept_bind (fun _ _ => same) fun level _ => .get_bind ?_
    refine .ofExcept_bind (fun _ _ => same) fun (key, clauses) _ => .modify_bind ?_
    split
    · exact .pure same
    · exact .pure same

omit [Theory σ] in
theorem conflictLevel_still (clause : Clause) : (conflictLevel clause : Procedure σ Nat).Still c :=
  .get_bind (.ofExcept_bind (fun _ _ => ⟨rfl, rfl⟩) fun _ _ => .pure ⟨rfl, rfl⟩)

/-- What was learnt is asserted at the level that is returned to. -/
def assertLearnt (key : ClauseKey) (l : Literal) (level : Nat) : Procedure σ Recovery := do
  backjump level
  match ← assign l (.clause key) with
  | .unset => return .asserted key l level
  | _ => throw .valuationConflict

/-- Two returns, and an assertion of what was false, are a fall. -/
theorem assertLearnt_falls {mid : Context σ} {s : Atoms} {first : Nat} {l : Literal}
    (returned : mid.atoms = (s.forgetAbove first).2) (isFalse : s.valueOf l = some false) (key : ClauseKey)
    (level : Nat) : (assertLearnt key l level : Procedure σ Recovery).Ensures mid fun _ after =>
      s.Falls after.atoms := by
  refine .bind (backjump_course level) (fun e _ failed => by cases failed.1) ?_
  rintro ⟨⟩ last ⟨_, retreated⟩
  have twice := retreated.atoms_eq
  rw [returned] at twice
  have fallen : s.Falls last.atoms := twice ▸ .of_returns _ first level
  refine .bind (m := fun _ last => s.Falls last.atoms) ?_ (fun _ _ => id) ?_
  · refine .get_bind (.ofExcept_bind (fun _ _ => fallen) fun (status, atoms) made => ?_)
    refine .modify_bind (.pure ?_)
    rw [twice] at made
    by_cases unset : status = .unset
    · subst unset
      exact ⟨first, level, .inr ⟨l, _, isFalse, made⟩⟩
    · rw [show atoms = _ from (Atoms.assign_eq_ok made).2.2 unset]
      exact .of_returns _ first level
  · intro status after falls
    split
    · exact .pure falls
    · exact .throw falls

/-- Recovery goes back twice, to the level of the conflict and to that of the assertion. -/
theorem recoverClause_falls (h : c.Coherent) {clause : Clause} (known : c.Known clause)
    (falsified : ∀ l ∈ clause, c.valueOf l = some false) :
    (recoverClause clause).Ensures c fun _ after => c.atoms.Falls after.atoms := by
  have still : ∀ {after : Context σ}, after.atoms = c.atoms → c.atoms.Falls after.atoms := by
    intro after same
    exact same ▸ .refl _
  refine .bind ((conflictLevel_still clause).both conflictLevel_leads) (fun _ _ held => still held.1.1) ?_
  rintro level after ⟨_, _, rfl, levels, top⟩
  dsimp only
  split
  · exact .modify_bind (.pure (.refl _))
  · rename_i positive
    have low : level ≤ after.level := by
      rcases top with zero | ⟨l, _, given⟩
      · exact absurd zero positive
      · exact h.supports.atoms.levelOf_le_level given
    refine .bind (backjump_course level) (fun e after failed => by cases failed.1) ?_
    rintro ⟨⟩ back ⟨_, retreated⟩
    have returned := retreated.atoms_eq
    obtain ⟨known', falsified'⟩ := retreated.conflict h known falsified levels
    have above : 0 < back.level := by
      rw [retreated.level_eq low]
      exact Nat.pos_of_ne_zero positive
    have coherent := Moves.coherent (retreated.moves : Moves {} _ _) h
    refine .bind ((analyse_still clause).both (analyse_course coherent above known' falsified'))
      (fun e last held => ?_) ?_
    · rw [held.1.1, returned]
      exact .of_return _ level
    rintro learnt last ⟨⟨same', _⟩, mid, key, l, lower, level', clauses, _, kept, learns, rfl, reports⟩
    -- A literal that is false after a return was false before it.
    have isFalse : after.atoms.valueOf l = some false := by
      have low' := learns.falsified l (.head _)
      rw [Context.valueOf, kept, returned] at low'
      exact h.supports.atoms.valueOf_of_forgetAbove low'
    have asserts : (assertLearnt key l level' : Procedure σ Recovery).Ensures { mid with clauses }
        fun _ last => after.atoms.Falls last.atoms :=
      assertLearnt_falls (same'.trans returned) isFalse key level'
    rcases reports with ⟨rfl, rfl⟩ | rfl
    · exact asserts
    · exact asserts

theorem recover_falls (h : c.Coherent) {conflict : Conflict} (conflicting : c.Conflicting conflict) :
    (recover conflict : Procedure σ Recovery).Ensures c fun _ after => c.atoms.Falls after.atoms := by
  obtain ⟨clause, falsified, given⟩ := conflicting
  have counted : Draw c { c with counters.conflicts := c.counters.conflicts + 1 } :=
    .adjust c c.random _ c.theories.schedule rfl
  have falls (known : c.Known clause) := recoverClause_falls (counted.coherent h)
    (Draws.known (.single counted) known) falsified
  refine .modify_bind ?_
  cases conflict with
  | clause key =>
    refine .get_bind (.ofExcept_bind (fun _ _ => .refl _) fun d found => ?_)
    rw [ClauseStore.get, given] at found
    cases found
    exact falls (.inl ⟨key, given⟩)
  | theory i d =>
    obtain ⟨rfl, told⟩ := given
    exact falls (.inr ⟨i, told⟩)

/-! ### Searches -/

/-- An iteration of the search up to the conflict that it finds, if it finds one. -/
def explore : Procedure σ (Except Conflict (Option Report)) := do
  count fun n => { n with iterations := n.iterations + 1 }
  let c ← get
  if c.settings.expires (c.settings.host.clock c.counters.iterations) then return .ok (some .unknown)
  else
    match ← propagate with
    | some conflict => return .error conflict
    | none =>
      let c ← get
      let (_, theories) ← ofFaulty (c.theories.clearSatisfied c.atoms.trail)
      setTheories theories
      match ← makeDecision with
      | .decided _ => return .ok none
      | .exhausted =>
        match ← finalCheck with
        | .satisfied =>
          setPhase .satisfiable
          return .ok (some .satisfiable)
        | .assigned => return .ok none
        | .conflict conflict => return .error conflict

/-- An iteration explores, and recovers from the conflict that it found. -/
theorem iterate_eq : (iterate : Procedure σ (Option Report)) = explore >>= fun
    | .error conflict => iterate.recoverFrom conflict
    | .ok report => return report := by
  unfold iterate explore
  simp only [bind_assoc]
  congr 1
  funext _
  congr 1
  funext counted
  split
  · rfl
  simp only [bind_assoc]
  congr 1
  funext outcome
  cases outcome with
  | some conflict => rfl
  | none =>
    simp only [bind_assoc]
    congr 1
    funext c
    congr 1
    funext cleared
    obtain ⟨_, theories⟩ := cleared
    congr 1
    funext _
    congr 1
    funext decision
    cases decision with
    | decided l => rfl
    | exhausted =>
      simp only [bind_assoc]
      congr 1
      funext checked
      cases checked with
      | satisfied => simp only [bind_assoc, pure_bind]
      | assigned => rfl
      | conflict conflict => rfl

/-- Decisions are made at no lower level than that of a context. -/
def decidesFrom (c : Context σ) : Intake σ := { decides := fun mid => c.level ≤ mid.level }

/-- Exploring takes nothing back. A conflict that it finds is one, and it finds a context satisfiable only if
it says so. -/
structure Explored (c : Context σ) (result : Except Error (Except Conflict (Option Report)))
    (after : Context σ) : Prop where
  moves : Moves (decidesFrom c) c after
  extends' : c.atoms.Extends after.atoms
  conflicting : ∀ conflict, result = .ok (.error conflict) → after.Conflicting conflict
  found : after.phase = .satisfiable → c.phase = .satisfiable ∨ result = .ok (.ok (some .satisfiable))

theorem Explored.of_draws (draws : Draws c c') {result : Except Error (Except Conflict (Option Report))}
    (conflicting : ∀ conflict, result = .ok (.error conflict) → c'.Conflicting conflict) :
    Explored c result c' :=
  ⟨Draws.moves draws, draws.extends, conflicting, fun found => .inl (draws.frame.2.2.2.2.1 ▸ found)⟩

theorem Decides.extends (decided : Decides c c') : c.atoms.Extends c'.atoms := by
  obtain ⟨mid, opened, draws, _, decide, last⟩ := decided
  exact draws.extends.trans (decide.extends.trans (Draws.extends (.single last)))

/-- Up to a conflict an iteration takes nothing back. -/
theorem explore_course (h : c.Coherent) (open' : c.phase ≠ .unsatisfiable) :
    (explore : Procedure σ (Except Conflict (Option Report))).Ensures c (Explored c) := by
  have counted : Draw c { c with counters.iterations := c.counters.iterations + 1 } :=
    .adjust c c.random _ c.theories.schedule rfl
  have first : Draws c _ := .single counted
  refine .modify_bind (.get_bind ?_)
  split
  · exact .pure (.of_draws first nofun)
  refine .bind (propagate_leads (counted.coherent h)) ?_ ?_
  · rintro e after ⟨further, _⟩
    exact .of_draws (first.trans further) nofun
  rintro outcome propagated ⟨further, found⟩
  replace further := first.trans further
  cases outcome with
  | some conflict =>
    refine .pure (.of_draws further ?_)
    rintro _ ⟨⟩
    exact found
  | none =>
    refine .get_bind (.ofFaulty_bind fun (isNew, theories) cleared => .modify_bind ?_)
    have further' := further.tail (.clearSatisfied propagated isNew theories cleared)
    refine .bind (makeDecision_course (Draws.coherent further' h)) ?_ ?_
    · rintro e after ⟨last, _⟩
      exact .of_draws (further'.trans last) nofun
    intro decision decided made
    cases decision with
    | decided l =>
      refine .pure ⟨?_, (Draws.extends further').trans (Decides.extends made.1), nofun, fun found => ?_⟩
      swap
      · rw [made.2] at found
        cases found
      refine (Draws.moves further').trans (Intake.Le.moves ?_ (Decides.moves made.1))
      refine ⟨fun _ => False.elim, fun _ => False.elim, fun mid same => ?_, fun _ => False.elim⟩
      have level : mid.level = c.level := (congrArg Atoms.level same).trans (Draws.frame further').2.1
      exact Nat.le_of_eq level.symm
    | exhausted =>
      obtain ⟨last, _, _⟩ := made
      have toFull := further'.trans last
      refine .bind (finalCheck_leads (Draws.coherent toFull h)) ?_ ?_
      · rintro e after ⟨final, _⟩
        exact .of_draws (toFull.trans final) nofun
      rintro checked after ⟨final, held⟩
      have whole := toFull.trans final
      cases checked with
      | assigned => exact .pure (.of_draws whole nofun)
      | conflict conflict =>
        refine .pure (.of_draws whole ?_)
        rintro _ ⟨⟩
        exact held
      | satisfied =>
        refine .modify_bind (.pure ⟨(Draws.moves whole).tail (.settle after .satisfiable ?_ (by decide)),
          (show c.atoms.Extends after.atoms from Draws.extends whole), nofun, fun _ => .inr rfl⟩)
        rw [(Draws.frame whole).2.2.2.2.1]
        exact open'

end Procedure

/-! ### Commands -/

/-- Building takes nothing back. -/
theorem Builds.extends : Builds fun c c' : Context σ => c.atoms.Extends c'.atoms where
  adjust c _ _ _ _ := .refl c.atoms
  build := Build.extends
  begun c := .single (.refl c.atoms)

namespace Procedure

theorem addClause_extends (clause : Clause) :
    (addClause clause : Procedure σ ClauseOutcome).Ensures c fun _ after => c.atoms.Extends after.atoms := by
  by_cases base : c.level = 0
  · have onward : ∀ {taking : Intake σ} {mid : Context σ}, Moves taking c mid →
        (∀ mid, ¬taking.decides mid) → c.atoms.Extends mid.atoms := fun moves undecided =>
      Moves.extends_of_level_le moves undecided (by omega)
    refine (addClause_course clause).mono fun result after answered => ?_
    rcases result with e | key | _ | _
    · exact onward answered.1 fun _ => id
    · exact onward answered.1 fun _ => id
    · exact onward answered.1 fun _ => id
    · obtain ⟨mid, moves, refuted⟩ := answered
      exact refuted.frame.1 ▸ onward moves fun _ => id
  · refine .get_bind ?_
    dsimp only
    rw [if_pos base]
    exact .throw_bind (.refl _)

theorem addTheory_extends (theory : σ) :
    (addTheory theory).Ensures c fun _ after => c.atoms.Extends after.atoms := by
  by_cases base : c.level = 0
  · refine (addTheory_course theory).mono fun result after answered => ?_
    cases result with
    | error e => exact Moves.extends_of_level_le answered.1 (fun _ => id) (by omega)
    | ok i => exact Moves.extends_of_level_le answered.1 (fun _ => id) (by omega)
  · refine .get_bind ?_
    dsimp only
    rw [if_pos base]
    exact .throw_bind (.refl _)

end Procedure

namespace Command

open Procedure

/-- A command that only draws consequences, asks theories, or adds atoms and observations. -/
def IsPlain : Command σ → Prop
  | .addClause _ | .addTheory _ | .changeSetting _ | .decideLiteral _ | .makeDecision | .recover
  | .recoverFrom _ | .analyse _ | .backjump _ | .clearDecisions | .solve => False
  | _ => True

/-- A plain command is made of draws and of what builds. -/
theorem plain_course {r : Context σ → Context σ → Prop} (draws : ∀ {c c' : Context σ}, Draw c c' → r c c')
    (builds : Builds r) (h : c.Coherent) {command : Command σ} (plain : command.IsPlain)
    (kept : Option Conflict) :
    (command.procedure kept).Ensures c fun _ after => Relation.ReflTransGen r c after := by
  have leading : ∀ {α : Type} {p : Procedure σ α} {f : α → Answer} {mid : α → Context σ → Prop},
      p.Leads r c c mid →
        (p >>= fun a => pure (f a)).Ensures c fun _ after => Relation.ReflTransGen r c after := fun leads =>
    ensures_answer (Procedure.Ensures.mono leads fun _ _ => And.left)
  have drawing : ∀ {α : Type} {p : Procedure σ α} {f : α → Answer} {mid : α → Context σ → Prop},
      p.Leads Draw c c mid →
        (p >>= fun a => pure (f a)).Ensures c fun _ after => Relation.ReflTransGen r c after := fun leads =>
    leading (leads.mono (fun _ _ => draws) fun _ _ => id)
  cases command with
  | freshAtom => exact leading (freshAtom_leads builds)
  | freshLiterals count => exact leading (freshLiterals_leads builds count)
  | ensureAtom a => exact leading (ensureAtom_leads builds a)
  | observe i a => exact leading (observe_leads builds i a)
  | setPriority i priority => exact leading (setPriority_leads builds.adjust i priority)
  | setActivity i activity => exact leading (setActivity_leads builds.adjust i activity)
  | preprocess => exact drawing preprocess_leads
  | checkPropagated => exact drawing checkPropagated_leads
  | checkSolved => exact drawing checkSolved_leads
  | propagate => exact drawing (propagate_leads h)
  | propagateTheory i => exact drawing (takeTurn_leads .propagate i)
  | finalCheck => exact drawing (finalCheck_leads h)
  | propagateUnits =>
    exact ensures_answer ((propagateUnits_course h).mono fun _ _ held => held.1.lift id fun _ _ => draws)
  | _ => exact plain.elim

/-- A plain command keeps what each of its steps does. -/
theorem plain_relates {r : Context σ → Context σ → Prop} [Std.Refl r] [IsTrans _ r]
    (draws : ∀ {c c' : Context σ}, Draw c c' → r c c') (builds : Builds r) (h : c.Coherent)
    {command : Command σ} (plain : command.IsPlain) (kept : Option Conflict) :
    (command.procedure kept).Ensures c fun _ after => r c after := by
  have course := plain_course draws builds h plain kept
  rwa [Relation.reflTransGen_eq_self] at course

/-- What a command that is no search does to atoms. -/
theorem extends_or_falls (h : c.Coherent) (command : Command σ) {told : Bool}
    (allowed : command.IsPublic told) (kept : Option Conflict)
    (recovers : command = .recover → ∀ conflict, kept = some conflict → c.Conflicting conflict)
    (other : command ≠ .solve) :
    (command.procedure kept).Ensures c fun _ after =>
      c.atoms.Extends after.atoms ∨ c.atoms.Falls after.atoms := by
  have extending : ∀ {α : Type} {p : Procedure σ α} {f : α → Answer},
      (p.Ensures c fun _ after => c.atoms.Extends after.atoms) →
        (p >>= fun a => pure (f a)).Ensures c fun _ after =>
          c.atoms.Extends after.atoms ∨ c.atoms.Falls after.atoms := fun holds =>
    ensures_answer (holds.mono fun _ _ => .inl)
  cases command with
  | addClause clause => exact extending (addClause_extends clause)
  | addTheory theory => exact extending (addTheory_extends theory)
  | changeSetting change =>
    refine .get_bind (.ofExcept_bind (fun _ _ => .inl (.refl _)) fun settings _ => ?_)
    rintro result after ⟨⟩
    exact .inl (.refl _)
  | decideLiteral l =>
    refine extending ((decideLiteral_course l).mono fun result after made => ?_)
    cases result with
    | error e => exact Draws.extends made.1
    | ok _ => exact Decides.extends made.1
  | makeDecision =>
    refine extending ((makeDecision_course h).mono fun result after made => ?_)
    rcases result with e | l | _
    · exact Draws.extends made.1
    · exact Decides.extends made.1
    · exact Draws.extends made.1
  | backjump level =>
    exact ensures_answer ((backjump_course level).mono fun _ _ returned =>
      .inr (returned.2.atoms_eq ▸ .of_return _ level))
  | clearDecisions =>
    refine ensures_answer (.bind (backjump_course 0) (fun e _ failed => by cases failed.1) ?_)
    rintro ⟨⟩ back ⟨_, returned⟩
    have falls : c.atoms.Falls back.atoms := returned.atoms_eq ▸ .of_return _ 0
    refine .get_bind ?_
    split
    · exact .modify (.inr falls)
    · exact .pure (.inr falls)
  | recover =>
    cases kept with
    | none => exact .pure (.inl (.refl _))
    | some conflict =>
      exact ensures_answer ((recover_falls h (recovers rfl conflict rfl)).mono fun _ _ => .inr)
  | recoverFrom conflict => exact allowed.elim
  | analyse clause => exact allowed.elim
  | solve => exact absurd rfl other
  | _ =>
    -- What is left is plain.
    have : Std.Refl fun c c' : Context σ => c.atoms.Extends c'.atoms := ⟨fun c => .refl c.atoms⟩
    have : IsTrans _ fun c c' : Context σ => c.atoms.Extends c'.atoms := ⟨fun _ _ _ => Atoms.Extends.trans⟩
    refine (plain_relates (fun draw => Draws.extends (.single draw)) .extends h ?_ kept).mono fun _ _ => .inl
    exact trivial

end Command

/-! ### Timelines -/

namespace Procedure

/-- The contexts that iterations of a search come through: one after each exploration, and one after each
recovery. -/
def explorations : Nat → Context σ → List (Context σ)
  | 0, _ => []
  | fuel + 1, c =>
    match c.run explore with
    | .error _ => []
    | .ok (.error _, explored) => [explored]
    | .ok (.ok (.ok (some _)), explored) => [explored]
    | .ok (.ok (.ok none), explored) => explored :: explorations fuel explored
    | .ok (.ok (.error conflict), explored) =>
      explored ::
        match explored.run (iterate.recoverFrom conflict) with
        | .ok (.ok none, recovered) => recovered :: explorations fuel recovered
        | .ok (_, recovered) => [recovered]
        | .error _ => []

def beginSearch : Procedure σ Unit := do
  preprocess
  setPhase .solving

end Procedure

/-- While there is not known to be no solution, a search begins and iterates. -/
theorem Procedure.run_solve (open' : c.phase ≠ .unsatisfiable) :
    c.run solve = c.run (beginSearch >>= fun _ => do
      iterateWithin (iterationBound (← get).atoms.count)) := by
  change c.run (if c.phase = .unsatisfiable then _ else _) = _
  rw [if_neg open', beginSearch, bind_assoc]

/-- The contexts that a command came through, the one that it led to last: those of a search, if the command
began one. -/
def Event.moments (e : Event σ) : List (Context σ) :=
  match e.command with
  | .solve =>
    if e.before.context.phase = .unsatisfiable then [e.after.context]
    else
      match e.before.context.run Procedure.beginSearch with
      | .ok (_, begun) => begun :: Procedure.explorations (Procedure.iterationBound begun.atoms.count) begun
      | .error _ => []
  | _ => [e.after.context]

theorem Event.moments_of_ne {e : Event σ} (other : e.command ≠ .solve) : e.moments = [e.after.context] := by
  unfold moments
  split
  · exact absurd ‹_› other
  · rfl

/-- The contexts that a run came through, from the one without atoms, clauses and theories on. -/
def moments (settings : Settings) (events : List (Event σ)) : List (Context σ) :=
  .ofSettings settings :: events.flatMap Event.moments

theorem moments_append (settings : Settings) (events more : List (Event σ)) :
    moments settings (events ++ more) = moments settings events ++ more.flatMap Event.moments := by
  rw [moments, List.flatMap_append]
  rfl

def Session.events (s : Session σ) : List (Command σ) → Except Fault (List (Event σ) × Session σ)
  | [] => .ok ([], s)
  | command :: rest => do
    let (result, after) ← s.step command
    let (later, last) ← after.events rest
    return (⟨s, command, result, after⟩ :: later, last)

namespace PublicRun

variable {settings : Settings} {events : List (Event σ)} {s : Session σ} {commands : List (Command σ)}

/-- A run goes on with commands that are public without regard to conflicts. -/
theorem extend_events (run : PublicRun settings events s)
    (allowed : ∀ command ∈ commands, command.IsPublic false) {later : List (Event σ)} {last : Session σ}
    (taken : s.events commands = .ok (later, last)) :
    PublicRun settings (events ++ later) last ∧ later.map (·.command) = commands := by
  induction commands generalizing events s later with
  | nil =>
    cases taken
    exact ⟨by rwa [List.append_nil], rfl⟩
  | cons command rest ih =>
    obtain ⟨⟨result, after⟩, first, taken⟩ := Except.bind_eq_ok taken
    obtain ⟨⟨others, _⟩, taken, same⟩ := Except.bind_eq_ok taken
    cases same
    have public' := Command.isPublic_of_untold (allowed command (.head _)) (lastTold events)
    obtain ⟨whole, commands⟩ := ih (run.step command public' result after first)
      (fun other member => allowed other (.tail _ member)) taken
    exact ⟨by rwa [List.append_assoc] at whole, congrArg (command :: ·) commands⟩

variable (settings) in
/-- What is checked of a command, of the commands before it and of those after it holds of a run. -/
theorem of_events_any (first : List (Command σ)) (command : Command σ) (others : List (Command σ))
    (allowed : ∀ one ∈ first ++ command :: others, one.IsPublic false)
    (check : List (Event σ) → Event σ → List (Event σ) → Session σ → Bool)
    (checked : ((Session.ofSettings settings).events (first ++ command :: others)).toOption.any
      (fun (events, s) => events[first.length]?.any fun e =>
        check (events.take first.length) e (events.drop (first.length + 1)) s) = true) :
    ∃ earlier e later s, PublicRun settings (earlier ++ e :: later) s ∧ earlier.map (·.command) = first ∧
      e.command = command ∧ later.map (·.command) = others ∧ check earlier e later s = true := by
  cases taken : (Session.ofSettings settings).events (first ++ command :: others) with
  | error cause =>
    rw [taken] at checked
    cases checked
  | ok outcome =>
    obtain ⟨events, s⟩ := outcome
    obtain ⟨run, commands⟩ := start.extend_events allowed taken
    obtain ⟨earlier, rest, rfl, rfl, remain⟩ := List.map_eq_append_iff.mp commands
    obtain ⟨e, later, rfl, rfl, rfl⟩ := List.map_eq_cons_iff.mp remain
    refine ⟨earlier, e, later, s, run, rfl, rfl, rfl, ?_⟩
    rw [taken] at checked
    have none' : earlier.drop (earlier.length + 1) = [] := List.drop_eq_nil_of_le (Nat.le_succ _)
    simpa [Except.toOption, List.drop_append, none'] using checked

end PublicRun

section Passing

variable {kind : σ → Prop}

theorem Procedure.Explored.passes {result : Except Error (Except Conflict (Option Report))}
    (explored : Procedure.Explored c result c') : c.Passes kind c' :=
  Course.passes (.inl explored.moves) (fun _ => False.elim) (fun _ => id) (.inl explored.extends')

theorem Procedure.recoverFrom_passes (h : c.Coherent) {conflict : Conflict}
    (conflicting : c.Conflicting conflict) :
    (iterate.recoverFrom conflict : Procedure σ (Option Report)).Ensures c fun result after =>
      c.Passes kind after ∧ (result = .ok none → Moves {} c after) := by
  refine .bind ((recover_course h conflicting).both (recover_falls h conflicting)) ?_ ?_
  · rintro e after ⟨⟨moves, _⟩, falls⟩
    exact ⟨Course.passes (.inl moves) (fun _ => False.elim) (fun _ => False.elim) (.inr falls), nofun⟩
  rintro recovery after ⟨recovers, falls⟩
  cases recovery with
  | unsatisfiable => 
    exact .pure ⟨Course.passes (.inr recovers) (fun _ => False.elim) (fun _ => False.elim) (.inr falls),
      nofun⟩
  | asserted key literal level =>
    have moves : Moves {} c after := recovers.moves
    exact .pure ⟨Course.passes (.inl moves) (fun _ => False.elim) (fun _ => False.elim) (.inr falls),
      fun _ => moves⟩

/-- From moment to moment of a search contexts pass to each other, and the last is where it ends. -/
theorem Procedure.isChain_explorations (h : c.Coherent) (open' : c.phase ≠ .unsatisfiable) {fuel : Nat}
    {result : Except Error Report} {after : Context σ}
    (ran : c.run (iterateWithin fuel) = .ok (result, after)) :
    (c :: explorations fuel c).IsChain (Context.Passes kind) ∧
      (c :: explorations fuel c).getLast? = some after := by
  induction fuel generalizing c with
  | zero =>
    cases ran
    exact ⟨.singleton _, rfl⟩
  | succ fuel ih =>
    rw [iterateWithin, iterate_eq, bind_assoc, Ensures.run_bind] at ran
    unfold explorations
    cases explores : c.run explore with
    | error cause =>
      rw [explores] at ran
      cases ran
    | ok outcome =>
      obtain ⟨answer, explored⟩ := outcome
      have course := explore_course h open' _ _ explores
      have passes : c.Passes kind explored := course.passes
      have coherent := Moves.coherent course.moves h
      have stillOpen := course.moves.phase_ne open'
      rw [explores] at ran
      rcases answer with e | conflict | _ | report
      · cases ran
        exact ⟨.cons_cons passes (.singleton _), rfl⟩
      · -- The conflict that was found is recovered from.
        change explored.run (iterate.recoverFrom conflict >>= _) = _ at ran
        rw [Ensures.run_bind] at ran
        dsimp only
        cases recovers : explored.run (iterate.recoverFrom conflict) with
        | error cause =>
          rw [recovers] at ran
          cases ran
        | ok outcome =>
          obtain ⟨answer, recovered⟩ := outcome
          obtain ⟨onwards, moved⟩ : explored.Passes kind recovered ∧
              (answer = .ok none → Moves {} explored recovered) :=
            recoverFrom_passes coherent (course.conflicting conflict rfl) _ _ recovers
          rw [recovers] at ran
          rcases answer with e | _ | report
          · cases ran
            exact ⟨.cons_cons passes (.cons_cons onwards (.singleton _)), rfl⟩
          · obtain ⟨chain, last⟩ := ih (Moves.coherent (moved rfl) coherent)
              ((moved rfl).phase_ne stillOpen) ran
            exact ⟨.cons_cons passes (.cons_cons onwards chain), last⟩
          · cases ran
            exact ⟨.cons_cons passes (.cons_cons onwards (.singleton _)), rfl⟩
      · obtain ⟨chain, last⟩ := ih coherent stillOpen ran
        exact ⟨.cons_cons passes chain, last⟩
      · cases ran
        exact ⟨.cons_cons passes (.singleton _), rfl⟩

/-- What a search begins with prepares theories. -/
theorem Procedure.beginSearch_passes (h : c.Coherent) (open' : c.phase ≠ .unsatisfiable) :
    (beginSearch : Procedure σ Unit).Ensures c fun result after => result = .ok () ∧ c.Passes kind after ∧
      after.Coherent ∧ after.phase = .solving := by
  refine .bind (m := fun result after => result = .ok () ∧ ∃ theories,
      c.theories.preprocess c.clauses.occurs = .ok theories ∧ after = { c with theories })
    (.get_bind (.ofFaulty_bind fun theories prepared => .modify ⟨rfl, theories, prepared, rfl⟩))
    (fun e _ failed => by cases failed.1) ?_
  rintro ⟨⟩ _ ⟨_, theories, prepared, rfl⟩
  refine .modify ⟨rfl, ?_, ?_, rfl⟩
  · have moves : Moves {} c { c with theories } := .single (.draw (.preprocess c theories prepared))
    exact Course.passes (.inl (moves.tail (.settle _ .solving open' (by decide)))) (fun _ => False.elim)
      (fun _ => False.elim) (.inl (.refl _))
  · have coherent := Draw.coherent (.preprocess c theories prepared) h
    exact ⟨coherent.supports, coherent.standings⟩

/-- From moment to moment of a search contexts pass to each other, and the last is where it leads. -/
theorem Procedure.isChain_solve (h : c.Coherent) (open' : c.phase ≠ .unsatisfiable)
    {result : Except Error Answer} {after : Context σ}
    (ran : c.run ((Command.solve : Command σ).procedure none) = .ok (result, after)) :
    (c :: match c.run beginSearch with
      | .ok (_, begun) => begun :: explorations (iterationBound begun.atoms.count) begun
      | .error _ => []).IsChain (Context.Passes kind) ∧
    (c :: match c.run beginSearch with
      | .ok (_, begun) => begun :: explorations (iterationBound begun.atoms.count) begun
      | .error _ => []).getLast? = some after := by
  change c.run (solve >>= fun report => pure (Answer.report report)) = _ at ran
  rw [Ensures.run_bind, run_solve open', Ensures.run_bind] at ran
  cases begins : c.run beginSearch with
  | error cause =>
    rw [begins] at ran
    cases ran
  | ok outcome =>
    obtain ⟨answer, begun⟩ := outcome
    obtain ⟨rfl, passes, coherent, solving⟩ := beginSearch_passes h open' _ _ begins
    rw [begins] at ran
    change (begun.run (iterateWithin (iterationBound begun.atoms.count))).bind _ = _ at ran
    dsimp only
    cases iterates : begun.run (iterateWithin (iterationBound begun.atoms.count)) with
    | error cause =>
      rw [iterates] at ran
      cases ran
    | ok outcome =>
      obtain ⟨report, last⟩ := outcome
      obtain ⟨chain, final⟩ : (begun :: explorations (iterationBound begun.atoms.count) begun).IsChain
          (Context.Passes kind) ∧ _ := isChain_explorations coherent (by simp [solving]) iterates
      have same : last = after := by
        rw [iterates] at ran
        cases report with
        | error e => cases ran; rfl
        | ok report => cases ran; rfl
      exact ⟨.cons_cons passes chain, same ▸ final⟩

/-- From moment to moment of a command contexts pass to each other, and the last is where it leads. -/
theorem PublicRun.isChain_event {settings : Settings} {events : List (Event σ)} {e : Event σ} {s : Session σ}
    (run : PublicRun settings (events ++ [e]) s) (kinds : ∀ theory, e.Registers theory → kind theory) :
    (e.before.context :: e.moments).IsChain (Context.Passes kind) ∧
      (e.before.context :: e.moments).getLast? = some e.after.context := by
  obtain ⟨_, _, rfl⟩ := run.of_concat
  obtain ⟨h, taken, ran⟩ := run.ran e (List.mem_append_right _ (.head _))
  have executed := (Session.step_eq_ok taken).1
  by_cases search : e.command = .solve
  · rw [search] at executed
    unfold Event.moments
    rw [search]
    dsimp only
    split
    · rename_i refuted
      have answered := Command.ensures_answer (f := .report) (q := fun _ after => after = e.before.context)
        ((Procedure.solve_course h).mono fun result after searched => by
          rw [if_pos refuted] at searched
          exact searched.2) _ _ executed
      rw [answered]
      exact ⟨.cons_cons (.refl _) (.singleton _), rfl⟩
    · rename_i open'
      exact Procedure.isChain_solve h open' executed
  · have atoms := run.ensured fun _ allowed recovers =>
      Command.extends_or_falls h e.command allowed e.before.kept recovers search
    rw [Event.moments_of_ne search]
    refine ⟨.cons_cons (ran.course.passes ?_ ?_ atoms) (.singleton _), rfl⟩
    · rintro theory ⟨i, given, registered⟩
      exact kinds theory ⟨given, i, registered⟩
    · intro mid decides
      have same : mid.atoms = e.before.context.atoms := by
        unfold Command.taking at decides
        dsimp only at decides
        split at decides
        · exact decides.1
        · exact decides.1
        · exact absurd ‹_› search
        · exact decides.elim
      exact Nat.le_of_eq (congrArg Atoms.level same.symm)

/-- From moment to moment of a run contexts pass to each other, and the last is where the run leads. -/
theorem PublicRun.isChain_moments {settings : Settings} {events : List (Event σ)} {s : Session σ}
    (run : PublicRun settings events s) (kinds : ∀ e ∈ events, ∀ theory, e.Registers theory → kind theory) :
    (moments settings events).IsChain (Context.Passes kind) ∧
      (moments settings events).getLast? = some s.context := by
  induction events using List.reverseRecOn generalizing s with
  | nil =>
    refine ⟨.singleton _, ?_⟩
    rw [run.session_eq .start]
    rfl
  | append_singleton events e ih =>
    obtain ⟨earlier, _, rfl⟩ := run.of_concat
    obtain ⟨chain, last⟩ := ih earlier fun e member => kinds e (List.mem_append_left _ member)
    obtain ⟨passes, final⟩ := run.isChain_event (kinds e (List.mem_append_right _ (.head _)))
    obtain ⟨next, others⟩ := List.isChain_cons.mp passes
    rw [moments_append, List.flatMap_singleton]
    refine ⟨chain.append others ?_, ?_⟩
    · rw [last]
      rintro _ ⟨⟩
      exact next
    · rw [List.getLast?_append, last]
      rw [List.getLast?_cons] at final
      cases later : e.moments.getLast? with
      | none => rwa [later] at final
      | some _ => rwa [later] at final

namespace Context.Passes

variable {floor : Nat} {rest : List (Context σ)}

/-- Between moments that go at no lower level than the given one nothing else does. -/
theorem above_of_isChain (chain : (c :: rest).IsChain (Passes kind)) (last : (c :: rest).getLast? = some c')
    (high : ∀ mid ∈ c :: rest, floor ≤ mid.level) : Above (.ofKind kind) floor c c' := by
  induction rest generalizing c with
  | nil =>
    cases last
    exact .refl
  | cons mid rest ih =>
    obtain ⟨passes, others⟩ := List.isChain_cons_cons.mp chain
    rw [List.getLast?_cons_cons] at last
    have later := ih others last fun mid member => high mid (.tail _ member)
    exact (passes.above floor (high _ (.head _)) (high _ (.tail _ (.head _)))).trans later

/-- An atom that has no value any more keeps the last one that it had. -/
theorem lastValue_of_isChain {a : Atom} (chain : (c :: rest).IsChain (Passes kind))
    (last : (c :: rest).getLast? = some c') (known : a < c.atoms.count)
    (unvalued : ∀ mid ∈ rest, mid.atoms.value a = none) : c'.atoms.lastValue a = c.atoms.lastValue a := by
  induction rest generalizing c with
  | nil =>
    cases last
    rfl
  | cons mid rest ih =>
    obtain ⟨passes, others⟩ := List.isChain_cons_cons.mp chain
    rw [List.getLast?_cons_cons] at last
    have later := ih others last (Nat.lt_of_lt_of_le known passes.count_le) fun mid member =>
      unvalued mid (.tail _ member)
    exact later.trans (passes.remembers a known (unvalued _ (.head _)))

end Context.Passes

end Passing

end SatModulo
