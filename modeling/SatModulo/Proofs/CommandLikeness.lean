import SatModulo.Proofs.SearchLikeness
import SatModulo.Proofs.Runs

/-!
# Commands to sessions with renumbered theories

A command that names no theory comes to the same where theories have other indices, and so does the conflict
that is kept after it (`Session.Renumbered.step`). Checks of theories are made in the order of indices, so the
theory that an error names depends on them; a command that checks is compared where no theory denies anything.
-/
namespace SatModulo

variable {σ : Type} {π : Equiv.Perm Nat} {spared : TheoryError → Prop}

def Answer.renumber (π : Equiv.Perm Nat) : Answer → Answer
  | .theory i => .theory (π i)
  | .conflict c => .conflict (c.renumber π)
  | .finalCheck outcome => .finalCheck (outcome.renumber π)
  | answer => answer

theorem Answer.conflict?_renumber (answer : Answer) :
    (answer.renumber π).conflict? = answer.conflict?.map (Conflict.renumber π) := by
  cases answer with
  | finalCheck outcome => cases outcome <;> rfl
  | _ => rfl

theorem Error.conflict?_renumber (e : Error) :
    (e.renumber π).conflict? = e.conflict?.map (Conflict.renumber π) := by
  cases e with
  | propagation cause => cases cause <;> rfl
  | _ => rfl

theorem conflictOf_renumber (result : Except Error Answer) :
    conflictOf (renumberResult π (Answer.renumber π) result) = (conflictOf result).map (Conflict.renumber π) := by
  cases result with
  | ok answer => exact answer.conflict?_renumber
  | error e => exact e.conflict?_renumber

namespace Command

/-- Commands that add atoms and clauses. -/
def IsBuilding : Command σ → Prop
  | .freshAtom | .freshLiterals _ | .ensureAtom _ | .addClause _ => True
  | _ => False

/-- Commands that neither name a theory nor ask for a check outside of a search. -/
def IsImpartial : Command σ → Prop
  | .addTheory _ | .observe _ _ | .setPriority _ _ | .setActivity _ _ | .propagateTheory _ => False
  | .finalCheck | .checkPropagated | .checkSolved => False
  | .recoverFrom _ | .analyse _ => False
  | _ => True

theorem keptAfter_renumber (command : Command σ) (kept : Option Conflict) (result : Except Error Answer) :
    command.keptAfter (kept.map (Conflict.renumber π)) (renumberResult π (Answer.renumber π) result) =
      (command.keptAfter kept result).map (Conflict.renumber π) := by
  have found := conflictOf_renumber (π := π) result
  have others : (conflictOf (renumberResult π (Answer.renumber π) result)).or
      (kept.map (Conflict.renumber π)) = ((conflictOf result).or kept).map (Conflict.renumber π) := by
    rw [found]
    cases conflictOf result <;> rfl
  cases command with
  | recover => rfl
  | _ => exact others

variable [Theory σ] {c c' : Context σ} {command : Command σ}

/-- What adds atoms and clauses comes to the same whatever theories there are. -/
theorem building_follows {k : Likeness σ} (alike : k.Alike c c') (building : command.IsBuilding)
    (kept kept' : Option Conflict) :
    k.Follows (Answer.renumber k.π) (command.procedure kept) (command.procedure kept') c c' := by
  cases command with
  | freshAtom => exact .bind (Procedure.freshAtom_follows alike) fun _ _ _ alike => .pure alike
  | freshLiterals n => exact .bind (Procedure.freshLiterals_follows alike n) fun _ _ _ alike => .pure alike
  | ensureAtom a => exact .bind (Procedure.ensureAtom_follows alike a) fun _ _ _ alike => .pure alike
  | addClause clause => exact .bind (Procedure.addClause_follows alike clause) fun _ _ _ alike => .pure alike
  | _ => exact building.elim

theorem changeSetting_follows (alike : (Likeness.renumbering π spared).Alike c c') (change : SettingChange)
    (kept kept' : Option Conflict) :
    (Likeness.renumbering π spared).Follows (Answer.renumber π)
      ((changeSetting change : Command σ).procedure kept) ((changeSetting change : Command σ).procedure kept')
      c c' := by
  obtain ⟨theories, renumbered, rfl⟩ := Likeness.alike_renumbering.mp alike
  refine .get_bind (.ofExcept_same_bind alike (fun _ _ => rfl) fun settings _ => ?_)
  rintro result after ⟨⟩ _
  exact ⟨_, rfl, .of_renumbered renumbered⟩

variable [Theory.Nameless σ]

/-- An impartial command that checks nothing comes to the same where theories have other indices. -/
theorem unchecked_follows (alike : (Likeness.renumbering π spared).Alike c c') (impartial : command.IsImpartial)
    (unchecked : command ≠ .propagate ∧ command ≠ .solve) (kept : Option Conflict) :
    (Likeness.renumbering π spared).Follows (Answer.renumber π) (command.procedure kept)
      (command.procedure (kept.map (Conflict.renumber π))) c c' := by
  cases command with
  | freshAtom | freshLiterals | ensureAtom | addClause => exact building_follows alike (by trivial) _ _
  | changeSetting change => exact changeSetting_follows alike change _ _
  | preprocess => exact .bind (Procedure.preprocess_follows alike) fun _ _ _ alike => .pure alike
  | decideLiteral l => exact .bind (Procedure.decideLiteral_follows alike l) fun _ _ _ alike => .pure alike
  | makeDecision => exact .bind (Procedure.makeDecision_follows alike) fun _ _ _ alike => .pure alike
  | propagateUnits => exact .bind (Procedure.propagateUnits_follows alike) fun _ _ _ alike => .pure alike
  | backjump level => exact .bind (Procedure.backjump_follows alike level) fun _ _ _ alike => .pure alike
  | clearDecisions => exact .bind (Procedure.clearDecisions_follows alike) fun _ _ _ alike => .pure alike
  | recover =>
    cases kept with
    | none => exact .pure alike
    | some conflict => exact .bind (Procedure.recover_follows alike conflict) fun _ _ _ alike => .pure alike
  | propagate => exact absurd rfl unchecked.1
  | solve => exact absurd rfl unchecked.2
  | _ => exact impartial.elim

/-- An impartial command comes to the same where theories have other indices and none denies anything. -/
theorem impartial_follows (alike : (Likeness.renumbering π TheoryError.IsDenial).Alike c c')
    (impartial : command.IsImpartial) (kept : Option Conflict) :
    (Likeness.renumbering π TheoryError.IsDenial).Follows (Answer.renumber π) (command.procedure kept)
      (command.procedure (kept.map (Conflict.renumber π))) c c' := by
  by_cases propagates : command = .propagate
  · subst propagates
    refine .bind (Procedure.propagate_follows alike) fun conflict _ _ alike => ?_
    cases conflict <;> exact .pure alike
  · by_cases solves : command = .solve
    · subst solves
      exact .bind (Procedure.solve_follows alike) fun _ _ _ alike => .pure alike
    · exact unchecked_follows alike impartial ⟨propagates, solves⟩ kept

end Command

/-! ### Sessions -/

variable [Theory σ]

/-- The same session up to its theories, which have other indices. -/
def Session.Renumbered (π : Equiv.Perm Nat) (s s' : Session σ) : Prop :=
  ∃ theories, s.context.theories.Renumbered π theories ∧
    s' = ⟨{ s.context with atoms := s.context.atoms.renumber π, theories }, s.kept.map (Conflict.renumber π)⟩

/-- The same command, with the same result up to the indices of theories, in the same session up to them. -/
structure Event.Renumbered (π : Equiv.Perm Nat) (e e' : Event σ) : Prop where
  before : e.before.Renumbered π e'.before
  command : e'.command = e.command
  result : e'.result = renumberResult π (Answer.renumber π) e.result
  after : e.after.Renumbered π e'.after

namespace Session.Renumbered

variable {s s' after : Session σ} {command : Command σ} {result : Except Error Answer}

variable [Theory.Nameless σ]

/-- An impartial command comes to the same up to the indices of theories, unless some theory denies what it
is asked. -/
theorem step (renumbered : s.Renumbered π s') (impartial : command.IsImpartial)
    (taken : s.step command = .ok (result, after))
    (undenied : ∀ cause, result = .error (.theory cause) →
      command = .propagate ∨ command = .solve → ¬cause.IsDenial) :
    ∃ after', s'.step command = .ok (renumberResult π (Answer.renumber π) result, after') ∧
      after.Renumbered π after' := by
  obtain ⟨theories, held, rfl⟩ := renumbered
  obtain ⟨ran, kept⟩ := Session.step_eq_ok taken
  have followed : ∃ context', Context.run { s.context with atoms := s.context.atoms.renumber π, theories }
      (command.procedure (s.kept.map (Conflict.renumber π))) =
        .ok (renumberResult π (Answer.renumber π) result, context') ∧
      (Likeness.renumbering π TheoryError.IsDenial).Alike after.context context' := by
    by_cases checks : command = .propagate ∨ command = .solve
    · exact Command.impartial_follows (.of_renumbered held) impartial s.kept result after.context ran
        fun cause same => undenied cause same checks
    · have alike : (Likeness.renumbering π fun _ => False).Alike s.context _ := .of_renumbered held
      obtain ⟨context', ran', alike⟩ := Command.unchecked_follows alike impartial (not_or.mp checks) s.kept result
        after.context ran fun _ _ => id
      exact ⟨context', ran', Likeness.alike_renumbering.mpr (Likeness.alike_renumbering.mp alike)⟩
  obtain ⟨context', ran', alike⟩ := followed
  obtain ⟨theories', held', rfl⟩ := Likeness.alike_renumbering.mp alike
  refine ⟨_, ?_, theories', held', rfl⟩
  unfold Session.step
  rw [ran']
  change Except.ok (_, Session.mk _ (command.keptAfter _ _)) = _
  rw [Command.keptAfter_renumber, kept]

end Session.Renumbered

end SatModulo
