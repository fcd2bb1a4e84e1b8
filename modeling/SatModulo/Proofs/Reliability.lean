import SatModulo.Proofs.Grounding

/-!
# Theories that do not fail

What a theory does when the core keeps to its part: the atoms that the theory is about are known, and what
it heard is true (`Constraint.Informed`). A reliable theory then ends no call in a fault, gives only
conflicts that are false, reasons that were false before, and agrees with what it said before when it is
checked (`Reliable`). A theory of either of two reliable types is reliable.
-/
namespace SatModulo

open Constraint

/-- A theory that was built has become another. The atoms that it is about are known, and all that it has
heard of is true. -/
structure Constraint.Informed {σ : Type} [Constraint σ] (root : σ) (heard : LevelStack Literal) (t : σ)
    (s : Atoms) : Prop where
  isBuilt : IsBuilt root
  recalls : Recalls root heard t
  facts : AreFacts heard.entries
  coherent : s.Coherent
  known : ∀ a ∈ atoms root, a < s.count
  onTrail : ∀ l ∈ heard.entries, l ∈ s.trail.literals

namespace Constraint.Informed

variable {σ : Type} [Constraint σ] {root t : σ} {heard : LevelStack Literal} {s : Atoms}

/-- The atoms of a theory have literals. -/
theorem inRange (informed : Informed root heard t s) : ∀ a ∈ atoms root, a ≤ maxAtom := fun a member =>
  Nat.lt_succ_iff.mp (Nat.lt_of_lt_of_le (informed.known a member) informed.coherent.room)

/-- A literal whose opposite was heard of is false. -/
theorem falsified (informed : Informed root heard t s) {l : Literal} (opposite : l.negate ∈ heard.entries) :
    s.valueOf l = some false := by
  refine (informed.coherent.valueOf_eq_false ?_).mpr (informed.onTrail _ opposite)
  rw [← Literal.atom_negate]
  exact informed.facts.proper _ opposite

end Constraint.Informed

/-- Theories that do their part. Here `root` is a theory as it was built, and `t` what has become of it. -/
class Reliable (σ : Type) [Theory σ] [Constraint σ] where
  /-- A theory was never unable to do what it meant to. -/
  Sound : σ → Prop
  built {root : σ} (isBuilt : IsBuilt root) : Sound root
  answers {t t' : σ} {i : Nat} {call : Call} (sound : Sound t) (answered : Theory.Answers i t call t')
    (noTurn : ¬call.IsTurn) : Sound t'
  enqueues (t : σ) {l : Literal} (inRange : l.atom ≤ maxAtom) : ∃ t', Theory.enqueue l t = .ok t'
  clears {root t : σ} {heard : LevelStack Literal} {s : Atoms} (informed : Informed root heard t s) :
    ∃ t', Theory.clearSatisfied t = .ok t'
  hints {root t : σ} {heard : LevelStack Literal} {s : Atoms} (informed : Informed root heard t s) :
    ∃ answer, Theory.isSatisfied t = .ok answer
  /-- A turn ends, and with a conflict only if that is false. -/
  turns {root t : σ} {heard : LevelStack Literal} {s : Atoms} (informed : Informed root heard t s)
    (sound : Sound t) {turn : σ → Turn (Option Clause × σ)}
    {call : Nat → List Literal → Option Clause → Call} (kind : TurnKind turn call) (i : Nat) :
    (turn t).Returns i s fun outcome s' => Sound outcome.2 ∧
      ∀ clause, outcome.1 = some clause → ∀ l ∈ clause, s'.valueOf l = some false
  /-- What was justified by the facts up to a marker has a reason, of facts from among these. -/
  reasons {root t : σ} {heard : LevelStack Literal} {s : Atoms} (informed : Informed root heard t s)
    {l : Literal} {marker : Marker}
    (justified : Justifies root ((recalled root heard).entries.take marker) l) :
    ∃ clause t', Theory.buildReason l marker t = .ok (clause, t') ∧ l ∈ clause ∧
      ∀ m ∈ clause, m ≠ l → m.negate ∈ (recalled root heard).entries.take marker
  checks {root t : σ} {heard : LevelStack Literal} {s : Atoms} (informed : Informed root heard t s)
    (sound : Sound t) : ∃ answer, Theory.checkPropagated s t = .ok answer
  /-- A theory that has heard of all values of its atoms and drew nothing says that nothing is left to be
  drawn. -/
  propagated {root t t' : σ} {heard : LevelStack Literal} {s : Atoms}
    (informed : Informed root heard t s) (sound : Sound t)
    (complete : ∀ a ∈ atoms root, (s.value a).isSome → ∃ l ∈ heard.entries, l.atom = a) {i : Nat}
    (ran : (Theory.propagate t).run i s = .ok ((none, t'), s)) : Theory.checkPropagated s t' = .ok true
  /-- Values that satisfy a theory are a solution in its eyes. -/
  solved {root t : σ} {heard : LevelStack Literal} (isBuilt : IsBuilt root) (recalls : Recalls root heard t)
    {s : Atoms} {v : Atom → Bool} (values : ∀ a ∈ atoms root, s.value a = some (v a))
    (models : Models v root) : Theory.checkSolved s t = true

/-! ### Families -/

section Either

variable {σ τ : Type}

/-- What is sound stays so along calls that are no turns. -/
theorem Theory.Trace.sound [Theory σ] [Constraint σ] [Reliable σ] {i : Nat} {t t' : σ} {calls : List Call}
    (trace : Trace i t calls t') (noTurn : ∀ call ∈ calls, ¬call.IsTurn) (sound : Reliable.Sound t) :
    Reliable.Sound t' := by
  induction trace with
  | nil t => exact sound
  | cons answered _ ih =>
    rw [List.forall_mem_cons] at noTurn
    exact ih noTurn.2 (Reliable.answers sound answered noTurn.1)

theorem Except.exists_map {ε α β : Type} {x : Except ε α} {f : α → β} (success : ∃ a, x = .ok a) :
    ∃ b, x.map f = .ok b := by
  obtain ⟨a, rfl⟩ := success
  exact ⟨f a, rfl⟩

/-- A turn of a theory is one of the family. -/
theorem Theory.Embedding.returns {f : σ → τ} {turn : Turn (Option Clause × σ)} {i : Nat} {s : Atoms}
    {final : Option Clause × σ → Atoms → Prop} {final' : Option Clause × τ → Atoms → Prop}
    (returns : turn.Returns i s final)
    (ends : ∀ conflict t s', final (conflict, t) s' → final' (conflict, f t) s') :
    (turn.andThen fun (conflict, u) => .done (conflict, f u)).Returns i s final' :=
  returns.andThen fun (conflict, t) s' held => .done (ends conflict t s' held)

variable [Constraint σ] [Constraint τ]

theorem Constraint.Informed.inl {root t : σ} {heard : LevelStack Literal} {s : Atoms}
    (informed : Informed (σ := σ ⊕ τ) (.inl root) heard (.inl t) s) : Informed root heard t s :=
  ⟨informed.isBuilt, informed.recalls, informed.facts, informed.coherent, informed.known, informed.onTrail⟩

theorem Constraint.Informed.inr {root t : τ} {heard : LevelStack Literal} {s : Atoms}
    (informed : Informed (σ := σ ⊕ τ) (.inr root) heard (.inr t) s) : Informed root heard t s :=
  ⟨informed.isBuilt, informed.recalls, informed.facts, informed.coherent, informed.known, informed.onTrail⟩

variable [Theory σ] [Theory τ] [Reliable σ] [Reliable τ]

instance : Reliable (σ ⊕ τ) where
  Sound := Sum.elim Reliable.Sound Reliable.Sound
  built := by
    rintro (root | root) isBuilt
    · have own : Reliable.Sound root := Reliable.built isBuilt
      exact own
    · have own : Reliable.Sound root := Reliable.built isBuilt
      exact own
  answers := by
    rintro (t | t) u i call sound answered noTurn
    · obtain ⟨t', rfl, answers⟩ := Theory.Embedding.inl.answers answered
      have own : Reliable.Sound t' := Reliable.answers sound answers noTurn
      exact own
    · obtain ⟨t', rfl, answers⟩ := Theory.Embedding.inr.answers answered
      have own : Reliable.Sound t' := Reliable.answers sound answers noTurn
      exact own
  enqueues := by
    rintro (t | t) l inRange
    · exact Except.exists_map (Reliable.enqueues t inRange)
    · exact Except.exists_map (Reliable.enqueues t inRange)
  clears := by
    rintro (root | root) (t | t) heard s informed
    · exact Except.exists_map (Reliable.clears informed.inl)
    · exact informed.recalls.elim
    · exact informed.recalls.elim
    · exact Except.exists_map (Reliable.clears informed.inr)
  hints := by
    rintro (root | root) (t | t) heard s informed
    · have own : ∃ answer, Theory.isSatisfied t = .ok answer := Reliable.hints informed.inl
      exact own
    · exact informed.recalls.elim
    · exact informed.recalls.elim
    · have own : ∃ answer, Theory.isSatisfied t = .ok answer := Reliable.hints informed.inr
      exact own
  turns := by
    rintro (root | root) (t | t) heard s informed sound turn call kind i
    · obtain ⟨turn', kind, same⟩ := Theory.Embedding.inl.turn kind
      rw [same]
      exact Theory.Embedding.returns (Reliable.turns informed.inl sound kind i) fun _ _ _ ends => ends
    · exact informed.recalls.elim
    · exact informed.recalls.elim
    · obtain ⟨turn', kind, same⟩ := Theory.Embedding.inr.turn kind
      rw [same]
      exact Theory.Embedding.returns (Reliable.turns informed.inr sound kind i) fun _ _ _ ends => ends
  reasons := by
    rintro (root | root) (t | t) heard s informed l marker justified
    · obtain ⟨clause, t', built, inside, others⟩ := Reliable.reasons informed.inl justified
      exact ⟨clause, .inl t', by rw [Theory.Embedding.inl.buildReason, built]; rfl, inside, others⟩
    · exact informed.recalls.elim
    · exact informed.recalls.elim
    · obtain ⟨clause, t', built, inside, others⟩ := Reliable.reasons informed.inr justified
      exact ⟨clause, .inr t', by rw [Theory.Embedding.inr.buildReason, built]; rfl, inside, others⟩
  checks := by
    rintro (root | root) (t | t) heard s informed sound
    · have own : ∃ answer, Theory.checkPropagated s t = .ok answer := Reliable.checks informed.inl sound
      exact own
    · exact informed.recalls.elim
    · exact informed.recalls.elim
    · have own : ∃ answer, Theory.checkPropagated s t = .ok answer := Reliable.checks informed.inr sound
      exact own
  propagated := by
    rintro (root | root) (t | t) u heard s informed sound complete i ran
    · obtain ⟨t', rfl, own⟩ := Theory.Embedding.run_eq_ok ran
      have agrees : Theory.checkPropagated s t' = .ok true :=
        Reliable.propagated informed.inl sound complete own
      exact agrees
    · exact informed.recalls.elim
    · exact informed.recalls.elim
    · obtain ⟨t', rfl, own⟩ := Theory.Embedding.run_eq_ok ran
      have agrees : Theory.checkPropagated s t' = .ok true :=
        Reliable.propagated informed.inr sound complete own
      exact agrees
  solved := by
    rintro (root | root) (t | t) heard isBuilt recalls s v values models
    · have own : Theory.checkSolved s t = true :=
        Reliable.solved (show IsBuilt root from isBuilt) recalls values models
      exact own
    · exact recalls.elim
    · exact recalls.elim
    · have own : Theory.checkSolved s t = true :=
        Reliable.solved (show IsBuilt root from isBuilt) recalls values models
      exact own

end Either

end SatModulo
