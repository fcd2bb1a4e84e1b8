import SatModulo.Building
import SatModulo.Proofs.Counterparts
import SatModulo.Proofs.Outcome

/-!
# Contexts that are alike

Two contexts that differ only in their theories, and in the indices that reasons name (`Likeness.Alike`). A
procedure follows another one where it comes to the same in a context like that of the other, up to the indices
of theories, and leaves contexts that are alike (`Likeness.Follows`). The rules follow the parts of which
procedures are made. What adds atoms and clauses does not look at theories, so it follows itself whatever is
asked of them.
-/
namespace SatModulo

variable {σ α β γ δ ε : Type}

def TheoryError.renumber (π : Equiv.Perm Nat) : TheoryError → TheoryError
  | .indexAlreadySet i => .indexAlreadySet (π i)
  | .indexNotKept i => .indexNotKept (π i)
  | .unknownTheory i => .unknownTheory (π i)
  | .registrationAfterDecision => .registrationAfterDecision
  | .unfalsifiedConflict i => .unfalsifiedConflict (π i)
  | .malformedReason i => .malformedReason (π i)
  | .checkPropagated i => .checkPropagated (π i)
  | .checkSolved i => .checkSolved (π i)

def Error.renumber (π : Equiv.Perm Nat) : Error → Error
  | .theory cause => .theory (cause.renumber π)
  | e => e

def renumberResult (π : Equiv.Perm Nat) (f : α → β) : Except Error α → Except Error β
  | .ok a => .ok (f a)
  | .error e => .error (e.renumber π)

/-- How contexts are compared. -/
structure Likeness (σ : Type) where
  /-- The indices of theories in the other context. -/
  π : Equiv.Perm Nat
  /-- What is asked of the theories. -/
  theories : Registry σ → Registry σ → Prop
  /-- What is asked of the phases, which both change when something is added or found. -/
  phases : Phase → Phase → Prop
  begun {phase phase' : Phase} (held : phases phase phase') : phases phase.begun phase'.begun
  found (phase : Phase) (left : phase ≠ .configuration) : phases phase phase
  /-- What of theories ends a procedure, and is left out of the comparison. -/
  spared : TheoryError → Prop

namespace Likeness

/-- A context that differs only in its theories and in the indices that reasons name. -/
inductive Alike (k : Likeness σ) (c : Context σ) : Context σ → Prop
  | mk (theories : Registry σ) (phase : Phase) (held : k.theories c.theories theories)
    (phases : k.phases c.phase phase) : Alike k c { c with atoms := c.atoms.renumber k.π, theories, phase }

theorem Alike.begin {k : Likeness σ} {c c' : Context σ} (alike : k.Alike c c') :
    k.Alike { c with phase := c.phase.begun } { c' with phase := c'.phase.begun } := by
  cases alike with
  | mk theories phase held phases => exact .mk theories phase.begun held (k.begun phases)

theorem Alike.setPhase {k : Likeness σ} {c c' : Context σ} (alike : k.Alike c c') (phase : Phase)
    (left : phase ≠ .configuration) : k.Alike { c with phase } { c' with phase } := by
  cases alike with
  | mk theories _ held _ => exact .mk theories phase held (k.found phase left)

/-- What a procedure comes to in a context, another one comes to in another context, unless it is left out. -/
def Follows (k : Likeness σ) (f : α → β) (p : Procedure σ α) (q : Procedure σ β) (c c' : Context σ) : Prop :=
  ∀ result after, c.run p = .ok (result, after) → (∀ cause, result = .error (.theory cause) → ¬k.spared cause) →
    ∃ after', c'.run q = .ok (renumberResult k.π f result, after') ∧ k.Alike after after'

namespace Follows

variable {k : Likeness σ} {f : α → β} {g : γ → δ} {p : Procedure σ α} {q : Procedure σ β} {c c' : Context σ}
  {next : α → Procedure σ γ} {next' : β → Procedure σ δ}

theorem pure {a : α} (alike : k.Alike c c') : k.Follows f (Pure.pure a) (Pure.pure (f a)) c c' := by
  rintro result after ⟨⟩ _
  exact ⟨c', rfl, alike⟩

theorem throw {e : Error} (alike : k.Alike c c') :
    k.Follows f (MonadExcept.throw e : Procedure σ α) (MonadExcept.throw (e.renumber k.π)) c c' := by
  rintro result after ⟨⟩ _
  exact ⟨c', rfl, alike⟩

theorem fault {cause : Fault} {q : Procedure σ β} :
    k.Follows f (Procedure.ofFaulty (.error cause) : Procedure σ α) q c c' :=
  fun _ _ => nofun

/-- What follows is alike if it is from alike contexts and with corresponding values. -/
theorem bind (first : k.Follows f p q c c')
    (rest : ∀ a after after', k.Alike after after' → k.Follows g (next a) (next' (f a)) after after') :
    k.Follows g (p >>= next) (q >>= next') c c' := by
  intro result after ran unspared
  rw [Procedure.Ensures.run_bind] at ran
  rw [Procedure.Ensures.run_bind]
  cases begun : c.run p with
  | error cause =>
    rw [begun] at ran
    cases ran
  | ok outcome =>
    rw [begun] at ran
    obtain ⟨e | a, between⟩ := outcome
    · cases ran
      obtain ⟨after', followed, alike⟩ := first _ _ begun fun cause same => by cases same; exact unspared cause rfl
      rw [followed]
      exact ⟨after', rfl, alike⟩
    · obtain ⟨between', followed, alike⟩ := first _ _ begun (by rintro _ ⟨⟩)
      rw [followed]
      exact rest a between between' alike result after ran unspared

theorem throw_bind {e : Error} (alike : k.Alike c c') :
    k.Follows g ((MonadExcept.throw e : Procedure σ α) >>= next)
      ((MonadExcept.throw (e.renumber k.π) : Procedure σ β) >>= next') c c' := by
  rintro result after ⟨⟩ _
  exact ⟨c', rfl, alike⟩

theorem get_bind {next : Context σ → Procedure σ γ} {next' : Context σ → Procedure σ δ}
    (rest : k.Follows g (next c) (next' c') c c') :
    k.Follows g ((get : Procedure σ (Context σ)) >>= next) ((get : Procedure σ (Context σ)) >>= next') c c' :=
  rest

theorem modify {u u' : Context σ → Context σ} (alike : k.Alike (u c) (u' c')) :
    k.Follows id (modify u : Procedure σ Unit) (modify u' : Procedure σ Unit) c c' := by
  rintro result after ⟨⟩ _
  exact ⟨_, rfl, alike⟩

theorem modify_bind {u u' : Context σ → Context σ} {next : Unit → Procedure σ γ} {next' : Unit → Procedure σ δ}
    (rest : k.Follows g (next ()) (next' ()) (u c) (u' c')) :
    k.Follows g ((MonadState.modifyGet fun s => ((), u s) : Procedure σ Unit) >>= next)
      ((MonadState.modifyGet fun s => ((), u' s) : Procedure σ Unit) >>= next') c c' :=
  rest

theorem ofFaulty_bind {x : Except Fault α} {y : Except Fault β}
    (rest : ∀ a, x = .ok a → ∃ b, y = .ok b ∧ k.Follows g (next a) (next' b) c c') :
    k.Follows g (Procedure.ofFaulty x >>= next) (Procedure.ofFaulty y >>= next') c c' := by
  intro result after ran unspared
  cases x with
  | error cause => cases ran
  | ok a =>
    obtain ⟨b, rfl, follows⟩ := rest a rfl
    exact follows result after ran unspared

theorem ofExcept_bind {x : Except ε α} {y : Except ε β} {wrap : ε → Error} (alike : k.Alike c c')
    (failed : ∀ e, x = .error e → ∃ e', y = .error e' ∧ wrap e' = (wrap e).renumber k.π)
    (rest : ∀ a, x = .ok a → ∃ b, y = .ok b ∧ k.Follows g (next a) (next' b) c c') :
    k.Follows g (Procedure.ofExcept wrap x >>= next) (Procedure.ofExcept wrap y >>= next') c c' := by
  cases x with
  | error e =>
    obtain ⟨e', rfl, same⟩ := failed e rfl
    change k.Follows g ((MonadExcept.throw (wrap e) : Procedure σ α) >>= next)
      ((MonadExcept.throw (wrap e') : Procedure σ β) >>= next') c c'
    rw [same]
    exact throw_bind alike
  | ok a =>
    obtain ⟨b, rfl, follows⟩ := rest a rfl
    exact follows

/-- A part that has errors without indices, and whose values are the same up to a change. -/
theorem ofExcept_map_bind {x : Except ε α} {wrap : ε → Error} (alike : k.Alike c c')
    (plain : ∀ e, (wrap e).renumber k.π = wrap e)
    (rest : ∀ a, x = .ok a → k.Follows g (next a) (next' (f a)) c c') :
    k.Follows g (Procedure.ofExcept wrap x >>= next) (Procedure.ofExcept wrap (x.map f) >>= next') c c' := by
  refine ofExcept_bind alike (fun e failed => ⟨e, ?_, (plain e).symm⟩) fun a found => ⟨f a, ?_, rest a found⟩
  · rw [failed]
    rfl
  · rw [found]
    rfl

theorem ofExcept_same_bind {x : Except ε α} {wrap : ε → Error} {next : α → Procedure σ γ} {next' : α → Procedure σ δ}
    (alike : k.Alike c c') (plain : ∀ e, x = .error e → (wrap e).renumber k.π = wrap e)
    (rest : ∀ a, x = .ok a → k.Follows g (next a) (next' a) c c') :
    k.Follows g (Procedure.ofExcept wrap x >>= next) (Procedure.ofExcept wrap x >>= next') c c' :=
  ofExcept_bind alike (fun e failed => ⟨e, failed, (plain e failed).symm⟩) fun a found => ⟨a, found, rest a found⟩

theorem ofExcept_same {x : Except ε α} {wrap : ε → Error} (alike : k.Alike c c')
    (plain : ∀ e, (wrap e).renumber k.π = wrap e) :
    k.Follows id (Procedure.ofExcept wrap x) (Procedure.ofExcept wrap x) c c' := by
  cases x with
  | error e =>
    rintro result after ⟨⟩ _
    exact ⟨c', congrArg (fun e => Except.ok (Except.error e, c')) (plain e).symm, alike⟩
  | ok a => exact pure alike

theorem tryCatch {p q : Procedure σ α} {f : α → α} {handler handler' : Error → Procedure σ α}
    (first : k.Follows f p q c c') (quiet : p.Ensures c fun result _ => ∀ cause, result ≠ .error (.theory cause))
    (handled : ∀ e after after', k.Alike after after' →
      k.Follows f (handler e) (handler' (e.renumber k.π)) after after') :
    k.Follows f (MonadExcept.tryCatch p handler) (MonadExcept.tryCatch q handler') c c' := by
  intro result after ran others
  rw [Procedure.Ensures.run_tryCatch] at ran
  rw [Procedure.Ensures.run_tryCatch]
  cases begun : c.run p with
  | error cause =>
    rw [begun] at ran
    cases ran
  | ok outcome =>
    rw [begun] at ran
    obtain ⟨after', followed, alike⟩ := first _ _ begun fun cause same => absurd same (quiet _ _ begun cause)
    rw [followed]
    obtain ⟨e | a, between⟩ := outcome
    · exact handled e between after' alike result after ran others
    · cases ran
      exact ⟨after', rfl, alike⟩

end Follows

end Likeness

/-! ### Adding atoms and clauses -/

namespace Procedure

open Likeness

variable {k : Likeness σ} {c c' : Context σ}

theorem chance_follows (alike : k.Alike c c') (p : Float) : k.Follows id (chance p) (chance p) c c' := by
  cases alike with
  | mk theories phase held phases =>
  refine .get_bind (.ofFaulty_bind fun outcome drawn => ⟨outcome, drawn, .modify_bind (.pure ?_)⟩)
  exact .mk theories phase held phases

theorem assign_follows (alike : k.Alike c c') (l : Literal) (reason : Reason) :
    k.Follows id (assign l reason) (assign l (reason.renumber k.π)) c c' := by
  cases alike with
  | mk theories phase held phases =>
  refine .get_bind ?_
  dsimp only
  rw [Atoms.assign_renumber]
  refine .ofExcept_map_bind (.mk theories phase held phases) (fun _ => rfl) fun outcome _ => ?_
  exact .modify_bind (.pure (.mk theories phase held phases))

theorem freshAtom_follows (alike : k.Alike c c') : k.Follows id freshAtom freshAtom c c' := by
  have settings : c'.settings = c.settings := by
    cases alike
    rfl
  refine .get_bind ?_
  rw [settings]
  refine .bind (chance_follows alike _) fun previous after after' alike => ?_
  cases alike with
  | mk theories phase held phases =>
  refine .get_bind ?_
  dsimp only
  rw [Atoms.fresh_renumber]
  refine .ofExcept_map_bind (.mk theories phase held phases) (fun _ => rfl) fun outcome _ => ?_
  refine .modify_bind (.modify_bind (.pure ?_))
  have alike : k.Alike { after with atoms := outcome.2 } _ := .mk theories phase held phases
  exact alike.begin

/-- No theory is the cause that an atom is not added. -/
theorem freshAtom_quiet : (freshAtom : Procedure σ Atom).Ensures c fun result _ =>
    ∀ cause, result ≠ .error (.theory cause) := by
  have drawn : ∀ (p : Float) (c : Context σ), (chance p).Ensures c fun result _ => ∃ a, result = .ok a :=
    fun p c => .get_bind (.ofFaulty_bind fun outcome _ => .modify_bind (.pure ⟨_, rfl⟩))
  refine .get_bind (.bind (drawn _ c) ?_ fun previous after _ => ?_)
  · rintro _ _ ⟨_, ⟨⟩⟩
  · refine .get_bind (.ofExcept_bind (fun e _ => nofun) fun outcome _ => .modify_bind (.modify_bind (.pure ?_)))
    exact fun _ => nofun

theorem freshOrMaxAtom_follows (alike : k.Alike c c') : k.Follows id freshOrMaxAtom freshOrMaxAtom c c' :=
  .tryCatch (freshAtom_follows alike) freshAtom_quiet fun _ _ _ alike => .pure alike

theorem freshLiterals_follows (alike : k.Alike c c') (n : Nat) :
    k.Follows id (freshLiterals n) (freshLiterals n) c c' := by
  induction n generalizing c c' with
  | zero => exact .pure alike
  | succ n ih =>
    refine .bind (freshOrMaxAtom_follows alike) fun atom _ _ alike => ?_
    exact .bind (ih alike) fun rest _ _ alike => .pure alike

theorem freshAtoms_follows (alike : k.Alike c c') (n : Nat) : k.Follows id (freshAtoms n) (freshAtoms n) c c' := by
  induction n generalizing c c' with
  | zero => exact .pure alike
  | succ n ih => exact .bind (freshAtom_follows alike) fun _ _ _ alike => ih alike

theorem ensureAtom_follows (alike : k.Alike c c') (a : Atom) :
    k.Follows id (ensureAtom a) (ensureAtom a) c c' := by
  have count : c'.atoms.count = c.atoms.count := by
    cases alike
    exact Atoms.count_renumber
  refine .get_bind ?_
  rw [count]
  exact freshAtoms_follows alike _

theorem ensureAtoms_follows (alike : k.Alike c c') (clause : Clause) :
    k.Follows id (ensureAtoms clause) (ensureAtoms clause) c c' := by
  induction clause generalizing c c' with
  | nil => exact .pure alike
  | cons l rest ih => exact .bind (ensureAtom_follows alike l.atom) fun _ _ _ alike => ih alike

/-- A clause is added without looking at theories. -/
theorem addClause_follows (alike : k.Alike c c') (clause : Clause) :
    k.Follows id (addClause clause) (addClause clause) c c' := by
  have level : c'.level = c.level := by
    cases alike
    rfl
  unfold addClause
  refine .get_bind ?_
  rw [level]
  split
  · exact .throw_bind alike
  · refine .bind (ensureAtoms_follows alike clause) fun _ mid mid' alike => ?_
    refine .ofFaulty_bind fun normal normalised => ⟨normal, normalised, ?_⟩
    rcases normal with _ | (_ | ⟨l, rest⟩)
    · exact .pure alike
    · exact .modify_bind (.pure (alike.setPhase _ (by decide)))
    · cases alike with
      | mk theories phase held phases =>
      refine .get_bind (.get_bind ?_)
      dsimp only
      rw [Atoms.value_renumber]
      refine .ofExcept_same_bind (.mk theories phase held phases) (fun _ _ => rfl) fun outcome _ => ?_
      have alike : k.Alike { mid with clauses := outcome.2 } _ := .mk theories phase held phases
      refine .modify_bind (.modify_bind ?_)
      dsimp only
      cases Clause.stateOn mid.atoms.value (l :: rest) with
      | unit unset =>
        exact .bind (assign_follows alike.begin unset (.clause outcome.1)) fun _ _ _ alike => .pure alike
      | falsified => exact .modify_bind (.pure (alike.begin.setPhase _ (by decide)))
      | unforced => exact .pure alike.begin

end Procedure

end SatModulo
