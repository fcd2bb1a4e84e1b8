import SatModulo.Proofs.Runs
import SatModulo.Theories.AtMost
import SatModulo.Theories.Reachability
import SatModulo.Theory.Either
import Mathlib.Data.List.Induction

/-!
# Whether unsatisfiability is permanent

A context that is known to have no solution stays so under every operation but a decision: moves that
decide nothing keep the phase, and a search ends before its first move. A decision that is made puts
the context back to solving, so along a run the verdict stands exactly as long as nothing is decided
(`PublicRun.unsatisfiable_stays_iff`).
-/
namespace SatModulo

variable {σ : Type}

variable [Theory σ] {c c' : Context σ} {taking : Intake σ}

/-- Only a decision sets a context to solving, so without one it stays known that there is no solution. -/
theorem Moves.unsatisfiable (moves : Moves taking c c') (never : ∀ mid, ¬taking.decides mid)
    (known : c.phase = .unsatisfiable) : c'.phase = .unsatisfiable := by
  induction moves with
  | refl => exact known
  | tail _ move ih =>
    cases move with
    | draw move => rw [move.frame.2.1, ih]
    | jump move => cases move <;> exact ih
    | decide allowed move => exact absurd allowed (never _)
    | build move => cases move <;> exact ih
    | settle phase before after => exact absurd ih before
    | configure settings given => exact ih

theorem Course.unsatisfiable (course : Course taking c c') (never : ∀ mid, ¬taking.decides mid)
    (known : c.phase = .unsatisfiable) : c'.phase = .unsatisfiable := by
  rcases course with moves | ⟨mid, moves, refuted⟩
  · exact Moves.unsatisfiable moves never known
  · exact refuted.phase_eq

/-- What a command comes to while there is known to be no solution. -/
structure Command.Stands (command : Command σ) (result : Except Error Answer) (after : Context σ) :
    Prop where
  kept : ¬command.Decided result → after.phase = .unsatisfiable
  lost : command.Decided result → after.phase = .solving
  answered : command = .solve → result = .ok (.report .unsatisfiable)

omit [Theory σ] in
private theorem stands_of_kept {command : Command σ} {result : Except Error Answer}
    {after : Context σ} (kept : after.phase = .unsatisfiable) (quiet : ¬command.Decided result)
    (other : command ≠ .solve) : command.Stands result after :=
  ⟨fun _ => kept, fun decided => absurd decided quiet, fun same => absurd same other⟩

/-- A command that is no search and is not about a decision keeps the verdict. -/
private theorem stands_of_ran {command : Command σ} {result : Except Error Answer}
    {after : Context σ} (known : c.phase = .unsatisfiable) (ran : command.Ran c result after)
    (never : ∀ mid, ¬(command.taking c result).decides mid) (quiet : ¬command.Decided result)
    (other : command ≠ .solve) : command.Stands result after :=
  stands_of_kept (Course.unsatisfiable ran.course never known) quiet other

/-- No command calls off that there is no solution. -/
theorem Command.stands (h : c.Coherent) (known : c.phase = .unsatisfiable) (command : Command σ)
    {told : Bool} (allowed : command.IsPublic told) (kept : Option Conflict)
    (recovers : command = .recover → ∀ conflict, kept = some conflict → c.Conflicting conflict) :
    (command.procedure kept).Ensures c command.Stands := by
  cases command with
  | decideLiteral l =>
    refine ensures_answer ((Procedure.decideLiteral_course l).mono fun result after made => ?_)
    cases result with
    | error e =>
      refine stands_of_kept ?_ ?_ nofun
      · rw [(Draws.frame made.1).2.2.2.2.1, known]
      · rintro (⟨_, failed⟩ | ⟨other, _⟩)
        · cases failed
        · cases other
    | ok _ => exact ⟨fun quiet => absurd (.inl ⟨⟨l, rfl⟩, rfl⟩) quiet, fun _ => made.2, nofun⟩
  | makeDecision =>
    refine ensures_answer ((Procedure.makeDecision_course h).mono fun result after made => ?_)
    have failing : ∀ result : Except Error Answer, (∀ l, result ≠ .ok (.decision (.decided l))) →
        Draws c after → (Command.makeDecision : Command σ).Stands result after := by
      intro result none' draws
      refine stands_of_kept ?_ ?_ nofun
      · rw [(Draws.frame draws).2.2.2.2.1, known]
      · rintro (⟨⟨l, other⟩, _⟩ | ⟨_, l, decided⟩)
        · cases other
        · exact none' l decided
    cases result with
    | error e => exact failing _ (fun _ => nofun) made.1
    | ok decision =>
      cases decision with
      | exhausted => exact failing _ (fun _ => nofun) made.1
      | decided l => exact ⟨fun quiet => absurd (.inr ⟨rfl, l, rfl⟩) quiet, fun _ => made.2, nofun⟩
  | solve =>
    refine ensures_answer ((Procedure.solve_course h).mono fun result after searched => ?_)
    rw [if_pos known] at searched
    obtain ⟨rfl, rfl⟩ := searched
    refine ⟨fun _ => known, fun decided => ?_, fun _ => rfl⟩
    rcases decided with ⟨⟨l, other⟩, _⟩ | ⟨other, _⟩ <;> cases other
  | _ =>
    refine (Command.course h _ allowed kept recovers).mono fun result after ran => ?_
    refine stands_of_ran known ran (fun _ => not_false) ?_ nofun
    rintro (⟨⟨l, other⟩, _⟩ | ⟨other, _⟩) <;> cases other

namespace PublicRun

variable {settings : Settings} {earlier later : List (Event σ)} {settled : Event σ} {s : Session σ}

/-- While there is known to be no solution, a command keeps that and a search says so, unless the
command decides a literal. -/
theorem stands_iff {events : List (Event σ)} {e : Event σ}
    (run : PublicRun settings (events ++ [e]) s) (known : e.before.context.phase = .unsatisfiable) :
    (e.after.context.phase = .unsatisfiable ∧
        (e.command = .solve → e.result = .ok (.report .unsatisfiable))) ↔
      ¬e.command.Decided e.result := by
  obtain ⟨before, allowed, _⟩ := run.of_concat
  obtain ⟨h, conflicting⟩ := before.coherent
  obtain ⟨_, taken, _⟩ := run.ran e (by simp)
  have recovers : e.command = .recover → ∀ conflict, e.before.kept = some conflict →
      e.before.context.Conflicting conflict := by
    intro same
    rw [same] at allowed
    exact conflicting allowed
  have stands := Command.stands h known e.command allowed e.before.kept recovers _ _
    (Session.step_eq_ok taken).1
  constructor
  · rintro ⟨kept, _⟩ decided
    rw [stands.lost decided] at kept
    cases kept
  · exact fun quiet => ⟨stands.kept quiet, stands.answered⟩

/-- Once there is known to be no solution, that stands for the rest of a run, and every search says so,
exactly if no command of the rest decides a literal. -/
theorem unsatisfiable_stays_iff (run : PublicRun settings (earlier ++ settled :: later) s)
    (known : settled.after.context.phase = .unsatisfiable) :
    (∀ e ∈ later, e.after.context.phase = .unsatisfiable ∧
        (e.command = .solve → e.result = .ok (.report .unsatisfiable))) ↔
      ∀ e ∈ later, ¬e.command.Decided e.result := by
  suffices (_ ↔ _) ∧ ((∀ e ∈ later, ¬e.command.Decided e.result) →
      s.context.phase = .unsatisfiable) from this.1
  induction later using List.reverseRecOn generalizing s with
  | nil =>
    obtain ⟨_, _, rfl⟩ := run.of_concat
    exact ⟨by simp, fun _ => known⟩
  | append_singleton others e ih =>
    rw [← List.cons_append, ← List.append_assoc] at run
    obtain ⟨before, _, rfl⟩ := run.of_concat
    obtain ⟨same, reached⟩ := ih before
    have last : (∀ e ∈ others, ¬e.command.Decided e.result) → (_ ↔ _) := fun quiet =>
      run.stands_iff (reached quiet)
    simp only [List.forall_mem_append, List.forall_mem_singleton]
    rw [same, and_congr_right_iff.mpr last]
    exact ⟨Iff.rfl, fun ⟨quiet, quietLast⟩ => ((last quiet).mpr quietLast).1⟩

/-- After the empty clause was given, a decision and a search make the context satisfiable. -/
theorem satisfiable_after_empty_clause :
    ∃ (earlier later : List (Event (AtMost ⊕ Reachability))) (settled : Event (AtMost ⊕ Reachability))
      (s : Session (AtMost ⊕ Reachability)), PublicRun {} (earlier ++ settled :: later) s ∧
        settled.after.context.phase = .unsatisfiable ∧ s.context.phase = .satisfiable ∧
        ¬∀ e ∈ later, e.after.context.phase = .unsatisfiable ∧
          (e.command = .solve → e.result = .ok (.report .unsatisfiable)) := by
  obtain ⟨given, refuted, ran, checked⟩ := Session.of_run_any
    (Session.ofSettings {} : Session (AtMost ⊕ Reachability)) [.freshAtom, .addClause []]
    (fun (_, s) => decide (s.context.phase = .unsatisfiable) &&
      (s.run [.decideLiteral ⟨1⟩, .solve]).toOption.any fun (results, s) =>
        decide (results = [.ok .done, .ok (.report .satisfiable)]) &&
          decide (s.context.phase = .satisfiable))
    (by decide +kernel)
  rw [Bool.and_eq_true, decide_eq_true_eq] at checked
  obtain ⟨known, more⟩ := checked
  obtain ⟨results, s, ranMore, checked⟩ := Session.of_run_any _ _ _ more
  rw [Bool.and_eq_true, decide_eq_true_eq, decide_eq_true_eq] at checked
  obtain ⟨rfl, satisfiable⟩ := checked
  obtain ⟨events, run, commands, _⟩ := PublicRun.of_run (by simp [Command.IsPublic]) ran
  obtain ⟨later, whole, laterCommands, laterResults⟩ :=
    run.extend (by simp [Command.IsPublic]) ranMore
  obtain ⟨earlier, settled, rfl⟩ : ∃ earlier settled, events = earlier ++ [settled] := by
    rcases List.eq_nil_or_concat events with rfl | ⟨earlier, settled, rfl⟩
    · cases commands
    · exact ⟨earlier, settled, List.concat_eq_append⟩
  obtain ⟨_, _, rfl⟩ := run.of_concat
  rw [List.append_assoc, List.singleton_append] at whole
  refine ⟨earlier, later, settled, s, whole, known, satisfiable, ?_⟩
  rw [unsatisfiable_stays_iff whole known]
  intro quiet
  cases later with
  | nil => cases laterCommands
  | cons e rest =>
    rw [List.map_cons, List.cons.injEq] at laterCommands laterResults
    exact quiet e (.head _) (.inl ⟨⟨_, laterCommands.1⟩, laterResults.1⟩)

end PublicRun

end SatModulo
