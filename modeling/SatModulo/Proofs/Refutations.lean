import SatModulo.Proofs.Cardinality
import SatModulo.Proofs.Connectivity
import SatModulo.Proofs.Entailment

/-!
# Refutations

Once a context is unsatisfiable, no valuation satisfies all clauses that were accepted together with the
bounds and the reachability of all theories that were registered, on any run. The atom of reachability
has to be one that can be known: the literals of any other atom are read as those of another.
-/
namespace SatModulo

open Constraint

namespace PublicRun

variable {settings : Settings} {events : List (Event (AtMost ⊕ Reachability))}
  {s : Session (AtMost ⊕ Reachability)}

/-- What was taken has no solution when the context is unsatisfiable. -/
theorem not_solves_of_unsatisfiable (run : PublicRun settings events s)
    (proper : ∀ e ∈ events, ∀ clause, e.Accepts clause → ∀ l ∈ clause, l.atom ≠ topAtom)
    (built : ∀ e ∈ events, ∀ theory, e.Registers theory → IsBuilt theory)
    (refuted : s.context.phase = .unsatisfiable) (v : Atom → Bool) : ¬Solves v events := by
  intro solves
  exact (run.agrees (if_pos rfl) built (solves.with_top proper built)).2.phase refuted

/-- One of two atoms may be true at most, and the first is and needs the second. -/
theorem not_solves_of_bound_and_edge :
    ∃ (events : List (Event (AtMost ⊕ Reachability))) (s : Session (AtMost ⊕ Reachability)),
      PublicRun {} events s ∧ events.map (·.command) = [.freshLiterals 2, .addClause [⟨1⟩],
        .addTheory (.inl (.ofMembers [⟨1⟩, ⟨2⟩] 1)),
        .addTheory (.inr (Reachability.addEdge (.ofNodes 2 0 1 1) ⟨0, 1, 2⟩)), .observe 0 1, .observe 0 2,
        .observe 1 1, .observe 1 2, .solve] ∧
      s.context.phase = .unsatisfiable ∧ ∀ v, ¬Solves v events := by
  obtain ⟨_, s, ran, checked⟩ := Session.of_run_any
    (Session.ofSettings {} : Session (AtMost ⊕ Reachability)) [.freshLiterals 2, .addClause [⟨1⟩],
      .addTheory (.inl (.ofMembers [⟨1⟩, ⟨2⟩] 1)),
      .addTheory (.inr (Reachability.addEdge (.ofNodes 2 0 1 1) ⟨0, 1, 2⟩)), .observe 0 1, .observe 0 2,
      .observe 1 1, .observe 1 2, .solve]
    (fun (_, s) => decide (s.context.phase = .unsatisfiable)) (by decide +kernel)
  obtain ⟨events, run, commands, _⟩ := PublicRun.of_run (by simp [Command.IsPublic]) ran
  have refuted := of_decide_eq_true checked
  refine ⟨events, s, run, commands, refuted, not_solves_of_unsatisfiable run ?_ ?_ refuted⟩
  · intro e member clause accepts
    have given := accepts.mem member commands
    simp only [List.mem_cons, reduceCtorEq, Command.addClause.injEq, List.not_mem_nil, or_false,
      false_or] at given
    subst given
    decide
  · intro e member theory registers
    have given := registers.mem member commands
    simp only [List.mem_cons, reduceCtorEq, Command.addTheory.injEq, List.not_mem_nil, or_false,
      false_or] at given
    rcases given with rfl | rfl
    · exact ⟨[⟨1⟩, ⟨2⟩], 1, rfl, by decide⟩
    · exact ⟨⟨2, 0, 1, 1, .latestFirst, [⟨0, 1, 2⟩], rfl, by decide⟩, by decide⟩

/-- Without a bound on the atom of reachability there are runs with a solution that end in an unsatisfiable
context. The positive literal of the atom `2 ^ 32 - 1` is read as the negative one of the atom `1`. -/
theorem solves_of_unsatisfiable_beyond_range :
    ¬∀ (settings : Settings) (events : List (Event (AtMost ⊕ Reachability)))
      (s : Session (AtMost ⊕ Reachability)), PublicRun settings events s →
      (∀ e ∈ events, ∀ clause, e.Accepts clause → ∀ l ∈ clause, l.atom ≠ topAtom) →
      (∀ e ∈ events, ∀ theory, e.Registers theory →
        Sum.elim AtMost.IsBuilt Reachability.IsBuilt theory) →
      s.context.phase = .unsatisfiable → ∀ v, ¬Solves v events := by
  intro claimed
  obtain ⟨_, s, ran, checked⟩ := Session.of_run_any
    (Session.ofSettings {} : Session (AtMost ⊕ Reachability))
    [.addClause [⟨1⟩], .addTheory (.inr (.ofNodes 1 0 0 4294967295)), .solve]
    (fun (_, s) => decide (s.context.phase = .unsatisfiable)) (by decide +kernel)
  obtain ⟨events, run, commands, _⟩ := PublicRun.of_run (by simp [Command.IsPublic]) ran
  have clauses : ∀ e ∈ events, ∀ clause, e.Accepts clause → clause = [⟨1⟩] := by
    intro e member clause accepts
    have given := accepts.mem member commands
    simpa using given
  have theories : ∀ e ∈ events, ∀ theory, e.Registers theory →
      theory = .inr (.ofNodes 1 0 0 4294967295) := by
    intro e member theory registers
    have given := registers.mem member commands
    simpa using given
  refine claimed {} events s run ?_ ?_ (of_decide_eq_true checked) (fun _ => true) ⟨?_, ?_⟩
  · rintro e member clause accepts
    rw [clauses e member clause accepts]
    decide
  · rintro e member theory registers
    rw [theories e member theory registers]
    exact ⟨1, 0, 0, 4294967295, .latestFirst, [], rfl, by decide⟩
  · rintro e member clause accepts
    rw [clauses e member clause accepts]
    decide
  · rintro e member theory registers
    rw [theories e member theory registers]
    exact iff_of_true rfl .refl

end PublicRun

end SatModulo
