import SatModulo.Proofs.Endings
import SatModulo.Proofs.Registration

/-!
# Theories of a family

A theory that was registered among theories of another type stays one of its type, and recalls what it heard
(`PublicRun.recalls_of_registers`). Its turns are its own: what they come to for the core is what they come to
for the theory alone (`Procedure.run_takeTurn`).
-/
namespace SatModulo

open Constraint

variable {τ σ : Type} [Theory τ] [Theory σ]

/-- What has become of a theory of the second type is one of that type, and recalls what it heard. -/
theorem Registry.Stems.recalls_inr [Constraint σ] [LawfulConstraint σ] {r : Registry (τ ⊕ σ)} {i : Nat}
    {root : σ} {m : Member (τ ⊕ σ)} (stems : r.Stems i (.inr root) m) (isBuilt : IsBuilt root) :
    ∃ t, m.theory = .inr t ∧ Recalls root (r.heard i) t := by
  let _ : Constraint τ := Constraint.unspoken τ
  have : LawfulConstraint τ := .unspoken
  have recalls : Recalls (.inr root : τ ⊕ σ) (r.heard i) m.theory := stems.recalls isBuilt
  rcases same : m.theory with t | t
  · rw [same] at recalls
    exact recalls.elim
  · rw [same] at recalls
    exact ⟨t, rfl, recalls⟩

/-- What a run has made of a theory of the second type is one of that type, and recalls what it heard. -/
theorem PublicRun.recalls_of_registers [Constraint σ] [LawfulConstraint σ] {settings : Settings}
    {events : List (Event (τ ⊕ σ))} {s : Session (τ ⊕ σ)} {e : Event (τ ⊕ σ)} {root : σ} {i : Nat}
    (run : PublicRun settings events s) (member : e ∈ events) (given : e.command = .addTheory (.inr root))
    (registered : e.result = .ok (.theory i)) (isBuilt : IsBuilt root) {taking : Intake (τ ⊕ σ)}
    {c : Context (τ ⊕ σ)} (reached : Moves taking s.context c) :
    ∃ m t, c.theories.members[i]? = some m ∧ m.theory = .inr t ∧ Recalls root (c.theories.heard i) t := by
  obtain ⟨_, stems⟩ := run.stems_of_registers member given registered
  obtain ⟨m, stems, _⟩ := Moves.stems reached stems
  obtain ⟨t, isTheory, recalls⟩ := stems.recalls_inr isBuilt
  exact ⟨m, t, stems.1, isTheory, recalls⟩

namespace Procedure

variable {turn : τ ⊕ σ → Turn (Option Clause × (τ ⊕ σ))}
  {call : Nat → List Literal → Option Clause → Call} {i : Nat} {t : σ}

/-- A member takes the turn of its theory, if that puts nothing off. -/
theorem memberTurn_of_own {own : σ → Turn (Option Clause × σ)}
    (same : ∀ t, turn (.inr t) = (own t).andThen fun (conflict, u) => .done (conflict, .inr u))
    {s after : Atoms} {m : Member (τ ⊕ σ)} {t t' : σ} {conflict : Option Clause} (isTheory : m.theory = .inr t)
    (idle : Theory.flush s t = t) (ran : (own t).run i s = .ok ((conflict, t'), after)) :
    ∃ calls, memberTurn i turn call s m = .ok ((conflict, after), { m with theory := .inr t' }, calls) := by
  have flushed : (if m.capabilities.deferredEnqueue then Theory.flush s m.theory else m.theory) = .inr t := by
    rw [isTheory]
    exact (if_congr Iff.rfl (congrArg Sum.inr idle) rfl).trans (ite_self _)
  unfold memberTurn
  simp only [flushed, same, Turn.run_andThen, ran]
  exact ⟨_, rfl⟩

/-- A turn of a kind is that of the theories of the second type. -/
theorem memberTurn_inr (kind : TurnKind turn call) :
    ∃ own : σ → Turn (Option Clause × σ), TurnKind own call ∧
      ∀ {s after : Atoms} {m : Member (τ ⊕ σ)} {t t' : σ} {conflict : Option Clause},
        m.theory = .inr t → Theory.flush s t = t → (own t).run i s = .ok ((conflict, t'), after) →
        ∃ calls, memberTurn i turn call s m =
          .ok ((conflict, after), { m with theory := .inr t' }, calls) := by
  obtain ⟨own, kind, same⟩ := Theory.Embedding.inr.turn kind
  exact ⟨own, kind, memberTurn_of_own same⟩

omit [Theory τ] in
/-- A turn that a member takes is one of the context. Where its conflict is false, it is accepted. -/
theorem run_takeTurn {c : Context σ} {turn : σ → Turn (Option Clause × σ)} {m m' : Member σ}
    (found : c.theories.members[i]? = some m) {conflict : Option Clause} {after : Atoms} {calls : List Call}
    (taken : memberTurn i turn call c.atoms m = .ok ((conflict, after), m', calls))
    (falsified : ∀ clause, conflict = some clause → ∀ l ∈ clause, after.valueOf l = some false) :
    ∃ c', c.run (takeTurn i turn call) = .ok (.ok (conflict.map (.theory i)), c') ∧ c'.atoms = after ∧
      c'.theories.members = c.theories.members.set i m' := by
  have changed : c.theories.changeAt i (memberTurn i turn call c.atoms) = .ok (some (conflict, after),
      { c.theories with
        members := c.theories.members.set i m'
        calls := c.theories.calls ++ calls.map (i, ·) }) := Registry.changeAt_of_ok found taken
  have ends : (takeTurn i turn call).Ends c (fun _ => False) fun result c' =>
      result = .ok (conflict.map (.theory i)) ∧ c'.atoms = after ∧
        c'.theories.members = c.theories.members.set i m' := by
    refine .get_bind (.ofFaulty_bind (fun cause failed => ?_) fun answer same => ?_)
    · rw [changed] at failed
      cases failed
    rw [changed] at same
    cases same
    refine .modify_bind (.modify_bind ?_)
    cases conflict with
    | none => exact .pure ⟨rfl, rfl, rfl⟩
    | some clause =>
      have isFalse : clause.falsifiedOn after.value = true := List.all_eq_true.mpr fun l member =>
        beq_iff_eq.mpr (Literal.statusOn_eq_different.mpr (falsified clause rfl l member))
      refine .bind (m := fun result c' => result = .ok (.theory i clause) ∧ c'.atoms = after ∧
        c'.theories.members = c.theories.members.set i m') (.get_bind ?_) ?_ ?_
      · dsimp only
        rw [if_pos isFalse]
        exact .modify_bind (.modify_bind (.pure ⟨rfl, rfl, rfl⟩))
      · rintro e c' ⟨no, _⟩
        cases no
      · rintro _ c' ⟨same, held⟩
        cases same
        exact .pure ⟨rfl, held⟩
  obtain ⟨result, c', ran, rfl, held⟩ := ends.returns
  exact ⟨c', ran, held⟩

end Procedure

end SatModulo
