import SatModulo.Proofs.Failures
import SatModulo.Proofs.Mirroring
import SatModulo.Proofs.Progress
import SatModulo.Theories.AtMost
import SatModulo.Theories.Reachability
import SatModulo.Theory.Either

/-!
# A search ends

Whatever theories answer, a search that is begun anywhere along a run of the public interface is a finite
number of iterations, and a propagation a finite number of rounds (`PublicRun.solve_ends`). What goes on
in between raises the counts of literals by level, which are bounded where no atom is added. That a method
of a theory ends is taken for granted: it is a function here. It may end in a fault, and the search then
does.
-/
namespace SatModulo

variable {σ : Type} [Theory σ] {c c' : Context σ}

namespace Procedure

/-- A search prepares the theories, and is then a loop without a bound that comes to an end. -/
theorem solve_loop (h : c.Coherent) (opened : c.Opened) (told : c.Told)
    (open' : c.phase ≠ .unsatisfiable) :
    ∃ prepared, c.run preprocess = .ok (.ok (), prepared) ∧ Moves {} c { prepared with phase := .solving } ∧
      ∃ count ≤ iterationBound c.atoms.count,
        Loops iterate count { prepared with phase := .solving } (c.run solve) := by
  obtain ⟨theories, prepares⟩ : ∃ theories, c.theories.preprocess c.clauses.occurs = .ok theories := by
    cases prepares : c.theories.preprocess c.clauses.occurs with
    | error cause => exact absurd prepares (preprocess_ne_error h told cause)
    | ok theories => exact ⟨theories, rfl⟩
  have ran : c.run preprocess = .ok (.ok (), { c with theories }) := by
    change c.run (ofFaulty (c.theories.preprocess c.clauses.occurs) >>= setTheories) = _
    rw [prepares]
    rfl
  have prepared : Moves {} c { c with theories } := .single (.draw (.preprocess c theories prepares))
  have started := prepared.tail (.settle _ .solving open' (by decide))
  obtain ⟨count, short, loops⟩ :=
    iterations_loop (Moves.coherent started h) (Moves.opened started h opened) Phase.noConfusion
  refine ⟨_, ran, started, count, short, ?_⟩
  have whole : c.run solve = Context.run { c with theories, phase := .solving }
      (iterateWithin (iterationBound c.atoms.count)) := by
    change c.run (if c.phase = .unsatisfiable then _ else _) = _
    rw [if_neg open', Ensures.run_bind, ran]
    rfl
  rwa [whole]

end Procedure

/-- What a search that comes through a context does there raises the counts of literals by level. -/
structure Context.Progresses (c : Context σ) : Prop where
  recovery : ∀ conflict, c.Conflicting conflict → ∀ key l level after,
    c.run (Procedure.recover conflict) = .ok (.ok (.asserted key l level), after) → c.Rises after
  decision : ∀ l after, c.run Procedure.makeDecision = .ok (.ok (.decided l), after) → c.Rises after
  literal : ∀ l after, c.run (Procedure.decideLiteral l) = .ok (.ok (), after) → c.Rises after
  round : ∀ result after, c.run Procedure.round = .ok (result, after) →
    c.atoms.trail.length < after.atoms.trail.length → c.Rises after
  /-- An iteration that is followed by another. -/
  iteration : c.phase ≠ .unsatisfiable → ∀ after, c.run Procedure.iterate = .ok (.ok none, after) →
    Moves .any c after ∧ c.Rises after
  /-- A propagation is a finite number of rounds. -/
  rounds : ∃ count ≤ c.atoms.unvalued.length + 1, Procedure.Loops Procedure.round count c
    (c.run (Procedure.roundsWithin (c.atoms.unvalued.length + 1)))
  bounded : c.atoms.trail.stack.counts.length ≤ c.atoms.count ∧
    ∀ x ∈ c.atoms.trail.stack.counts, x < c.atoms.count

theorem Context.Coherent.progresses (h : c.Coherent) (opened : c.Opened) : c.Progresses where
  recovery _ conflicting _ _ _ _ ran := Procedure.Asserts.rises (Procedure.recover_course h conflicting _ _ ran)
  decision _ _ ran := Procedure.Decides.rises (Procedure.makeDecision_course h _ _ ran).1
  literal l _ ran := Procedure.Decides.rises (Procedure.decideLiteral_course l _ _ ran).1
  round := by
    intro result after ran longer
    have leads := Procedure.round_leads h _ _ ran
    cases result with
    | error e => exact Draws.rises leads.1 longer
    | ok outcome => exact Draws.rises leads.1 longer
  iteration open' after ran :=
    ⟨(Intake.le_any _).moves (Procedure.iterate_course h open' _ _ ran), Procedure.iterate_rises h _ _ ran rfl⟩
  rounds := Procedure.rounds_loop h
  bounded := opened.atoms.counts_bounded h.supports.atoms

/-- The search that a context begins. -/
structure Context.SearchEnds (c : Context σ) : Prop where
  refuted : c.phase = .unsatisfiable → c.run Procedure.solve = .ok (.ok .unsatisfiable, c)
  /-- It is a finite number of iterations, once theories are prepared. -/
  loops : c.phase ≠ .unsatisfiable → ∃ prepared, c.run Procedure.preprocess = .ok (.ok (), prepared) ∧
    Moves .any c { prepared with phase := .solving } ∧
    ∃ count ≤ Procedure.iterationBound c.atoms.count,
      Procedure.Loops Procedure.iterate count { prepared with phase := .solving } (c.run Procedure.solve)
  /-- It returns, unless a method of a theory that it calls ends in a fault, or a likelihood is none. -/
  returns : (∃ result after, c.run Procedure.solve = .ok (result, after)) ∨
    ∃ cause, c.run Procedure.solve = .error cause ∧ c.Crashes cause

/-- Counts of literals by level rise along a search and are bounded, so it ends. -/
theorem Context.Coherent.searchEnds (h : c.Coherent) (opened : c.Opened) (told : c.Told) :
    c.SearchEnds where
  refuted closed := by
    change c.run (if c.phase = .unsatisfiable then _ else _) = _
    rw [if_pos closed]
    rfl
  loops open' := by
    obtain ⟨prepared, ran, moves, loops⟩ := Procedure.solve_loop h opened told open'
    exact ⟨prepared, ran, (Intake.le_any _).moves moves, loops⟩
  returns := by
    have ends := Procedure.solve_excused h opened told
    unfold Procedure.Excused Procedure.Ends at ends
    split at ends
    · rename_i result after ran
      exact .inl ⟨result, after, ran⟩
    · rename_i cause ran
      exact .inr ⟨cause, ran, ends⟩

/-- Wherever a run has led, a search ends, and what goes on in it, or between later commands, raises the
counts of literals by level. -/
theorem PublicRun.solve_ends {settings : Settings} {events : List (Event σ)} {s : Session σ}
    (run : PublicRun settings events s) :
    s.context.SearchEnds ∧ ∀ c : Context σ, Moves .any s.context c → c.Progresses := by
  obtain ⟨h, _⟩ := run.coherent
  exact ⟨h.searchEnds run.opened run.told,
    fun c moves => (Moves.coherent moves h).progresses (Moves.opened moves h run.opened)⟩

/-- A search that is begun after two decisions, one of which contradicts a theory. -/
theorem solve_ends_after_decisions :
    ∃ (events : List (Event (AtMost ⊕ Reachability))) (s : Session (AtMost ⊕ Reachability)),
      PublicRun {} events s ∧ events.map (·.command) = [.freshLiterals 5,
        .addTheory (.inl (.ofMembers [⟨1⟩, ⟨2⟩, ⟨3⟩] 1)), .observe 0 1, .observe 0 2, .observe 0 3,
        .addClause [⟨-4⟩, ⟨1⟩], .addClause [⟨-4⟩, ⟨2⟩], .decideLiteral ⟨4⟩, .decideLiteral ⟨5⟩] ∧
      s.context.SearchEnds ∧ (∀ c, Moves .any s.context c → c.Progresses) ∧
      (s.step .solve).toOption.map Prod.fst = some (.ok (.report .satisfiable)) := by
  obtain ⟨_, s, ran, checked⟩ := Session.of_run_any
    (Session.ofSettings {} : Session (AtMost ⊕ Reachability))
    [.freshLiterals 5, .addTheory (.inl (.ofMembers [⟨1⟩, ⟨2⟩, ⟨3⟩] 1)), .observe 0 1, .observe 0 2,
      .observe 0 3, .addClause [⟨-4⟩, ⟨1⟩], .addClause [⟨-4⟩, ⟨2⟩], .decideLiteral ⟨4⟩,
      .decideLiteral ⟨5⟩]
    (fun (_, s) => decide ((s.step .solve).toOption.map Prod.fst = some (.ok (.report .satisfiable))))
    (by decide +kernel)
  obtain ⟨events, run, commands, _⟩ := PublicRun.of_run (by simp [Command.IsPublic]) ran
  exact ⟨events, s, run, commands, run.solve_ends.1, run.solve_ends.2, of_decide_eq_true checked⟩

end SatModulo
