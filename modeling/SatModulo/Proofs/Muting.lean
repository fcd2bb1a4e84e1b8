import SatModulo.Proofs.Accounts
import SatModulo.Session

/-!
# Muted theories

A theory is muted when it never proposes a decision, and does otherwise what it does. Only a search, and a
decision that is left to the theories, can tell: every other command does the same on muted theories
(`Command.procedure_mute`), so what is shown of all theories holds there as though none was ever asked for
a proposal (`Theory.Answers.of_mute`).
-/
namespace SatModulo

variable {σ : Type} (T : Theory σ)

/-- The theories of a type, none of which proposes a decision. -/
@[reducible]
def Theory.mute : Theory σ := { T with decide := fun _ t => (none, t) }

variable {T} in
/-- A muted theory that is not asked for a proposal becomes what it becomes when it is not muted. -/
theorem Theory.Answers.of_mute {i : Nat} {t t' : σ} {call : Call}
    (answered : @Theory.Answers σ T.mute i t call t') :
    (∃ proposal, call = .decide proposal) ∧ t' = t ∨
      (∀ proposal, call ≠ .decide proposal) ∧ Theory.Answers i t call t' := by
  cases answered with
  | decide _ s proposal answered =>
    cases answered
    exact .inl ⟨⟨none, rfl⟩, rfl⟩
  | setIndex j => exact .inr ⟨nofun, .setIndex t j⟩
  | preprocess => exact .inr ⟨nofun, .preprocess t⟩
  | noteOccurs l occurs => exact .inr ⟨nofun, .noteOccurs t l occurs⟩
  | openLevel => exact .inr ⟨nofun, .openLevel t⟩
  | backtrack level => exact .inr ⟨nofun, .backtrack t level⟩
  | enqueue _ l success => exact .inr ⟨nofun, .enqueue t t' l success⟩
  | clearSatisfied _ success => exact .inr ⟨nofun, .clearSatisfied t t' success⟩
  | undecide l => exact .inr ⟨nofun, .undecide t l⟩
  | flush s => exact .inr ⟨nofun, .flush t s⟩
  | propagate _ s s' conflict ran => exact .inr ⟨nofun, .propagate t t' s s' conflict ran⟩
  | solve _ s s' conflict ran => exact .inr ⟨nofun, .solve t t' s s' conflict ran⟩
  | isSatisfied answer answered => exact .inr ⟨nofun, .isSatisfied t answer answered⟩
  | buildReason _ l marker reason answered =>
    exact .inr ⟨nofun, .buildReason t t' l marker reason answered⟩
  | checkPropagated s answer answered => exact .inr ⟨nofun, .checkPropagated t s answer answered⟩
  | checkSolved s => exact .inr ⟨nofun, .checkSolved t s⟩

theorem Registry.undecideAll_mute (records : List DecisionRecord) (r : Registry σ) :
    @undecideAll σ T.mute records r = undecideAll records r := by
  induction records generalizing r with
  | nil => rfl
  | cons d rest ih =>
    simp only [undecideAll, ih]
    rfl

namespace Procedure

theorem backjump_mute (level : Nat) : @backjump σ T.mute level = backjump level := by
  unfold backjump Registry.retractAbove
  simp only [Registry.undecideAll_mute]
  rfl

theorem takeTurns_mute (indices : List Nat) (assigned : Bool) :
    @takeTurns σ T.mute indices assigned = takeTurns indices assigned := by
  induction indices generalizing assigned with
  | nil => rfl
  | cons i rest ih =>
    simp only [takeTurns, ih]
    rfl

theorem roundsWithin_mute (fuel : Nat) : @roundsWithin σ T.mute fuel = roundsWithin fuel := by
  induction fuel with
  | zero => rfl
  | succ fuel ih =>
    simp only [roundsWithin, ih, takeTurns_mute]
    rfl

theorem propagate_mute : @propagate σ T.mute = propagate := by
  unfold propagate
  simp only [roundsWithin_mute]
  rfl

theorem applyDecision_mute (l : Literal) (proposer : Option (Nat × Option Marker)) :
    @applyDecision σ T.mute l proposer = applyDecision l proposer := rfl

theorem solveEach_mute (start : Nat) (indices : List Nat) :
    @solveEach σ T.mute start indices = solveEach start indices := by
  induction indices with
  | nil => rfl
  | cons i rest ih =>
    simp only [solveEach, ih]
    rfl

theorem finalCheck_mute : @finalCheck σ T.mute = finalCheck := by
  unfold finalCheck
  simp only [solveEach_mute]
  rfl

theorem resolve_mute (trail : List Literal) (position : Nat) (r : Resolvent) :
    @resolve σ T.mute trail position r = resolve trail position r := by
  induction position generalizing r with
  | zero => rfl
  | succ position ih =>
    simp only [resolve, ih]
    rfl

theorem analyse_mute (clause : Clause) : @analyse σ T.mute clause = analyse clause := by
  unfold analyse
  simp only [resolve_mute]

theorem recover_mute (conflict : Conflict) : @recover σ T.mute conflict = recover conflict := by
  unfold recover
  simp only [backjump_mute, analyse_mute]

end Procedure

/-- Only decisions that are left to the theories, and a search, depend on what theories propose. -/
theorem Command.procedure_mute {command : Command σ} (kept : Option Conflict)
    (chosen : command ≠ .makeDecision) (stepwise : command ≠ .solve) :
    @Command.procedure σ T.mute kept command = command.procedure kept := by
  cases command with
  | makeDecision => exact absurd rfl chosen
  | solve => exact absurd rfl stepwise
  | propagate => simp only [procedure, Procedure.propagate_mute]
  | finalCheck => simp only [procedure, Procedure.finalCheck_mute]
  | recover => simp only [procedure, Procedure.recover_mute]
  | recoverFrom => simp only [procedure, Procedure.recover_mute]
  | analyse => simp only [procedure, Procedure.analyse_mute]
  | backjump => simp only [procedure, Procedure.backjump_mute]
  | clearDecisions =>
    unfold procedure Procedure.clearDecisions
    simp only [Procedure.backjump_mute]
  | _ => rfl

end SatModulo
