import SatModulo.Proofs.ReliableCardinality
import SatModulo.Proofs.ReliableConnectivity

/-!
# What theories can account for

The reason that a theory gives for a literal depends on nothing but the facts that justified the literal: it
is one clause, and the facts and the theory alone make it a reason (`Constraint.IsReason`). A conflict that it
gives is false. Both hold whatever is known of the atoms that the theory is about (`Accountable`), so also where
a theory could not do all that it meant to.
-/
namespace SatModulo

open Constraint

/-- A clause is a reason that facts and a theory give for a literal: it contains the literal, otherwise only
opposites of facts, and holds wherever the theory is satisfied. -/
structure Constraint.IsReason {σ : Type} [Constraint σ] (root : σ) (facts : List Literal) (l : Literal)
    (clause : Clause) : Prop where
  member : l ∈ clause
  others : ∀ m ∈ clause, m ≠ l → m.negate ∈ facts
  holds : ∀ v, Models v root → clause.Holds v

/-- Theories that can account for what they do. Here `root` is a theory as it was built, and `t` what has
become of it. -/
class Accountable (σ : Type) [Theory σ] [Constraint σ] : Prop where
  /-- What facts justify has one reason, which is given whenever they are the first that a theory recalls. -/
  reasons {root : σ} (isBuilt : IsBuilt root) {facts : List Literal} (areFacts : AreFacts facts) {l : Literal}
    (justified : Justifies root facts l) : ∃ clause, IsReason root facts l clause ∧
      ∀ {t : σ} {heard : LevelStack Literal} {marker : Marker}, Recalls root heard t →
        (recalled root heard).entries.take marker = facts →
        ∃ t', Theory.buildReason l marker t = .ok (clause, t')
  /-- A conflict that a theory gives at its turn is false. -/
  conflicts {root t : σ} (isBuilt : IsBuilt root) {heard : LevelStack Literal} (recalls : Recalls root heard t)
    (areFacts : AreFacts heard.entries) {s : Atoms} (coherent : s.Coherent)
    (onTrail : ∀ l ∈ heard.entries, l ∈ s.trail.literals) {turn : σ → Turn (Option Clause × σ)}
    {call : Nat → List Literal → Option Clause → Call} (kind : TurnKind turn call) (i : Nat) :
    (turn t).Yields i s fun outcome s' =>
      ∀ clause, outcome.1 = some clause → ∀ l ∈ clause, s'.valueOf l = some false

/-- The clause of a bound is a reason. -/
theorem AtMost.isReason_reasonClause {root : AtMost} (h : root.IsBuilt) {facts : List Literal}
    (distinct : facts.Nodup) {l : Literal} (justified : root.Justifies facts l) :
    IsReason root facts l (root.reasonClause facts l) where
  member := .head _
  others := by
    intro m member other
    obtain ⟨cause, taken, rfl⟩ := List.mem_map.mp ((List.mem_cons.mp member).resolve_left other)
    rw [Literal.negate_negate]
    exact (mem_trueMembers.mp (List.mem_of_mem_take taken)).1
  holds _ models := holds_reasonClause h distinct justified models

instance : Accountable AtMost where
  reasons {root} isBuilt {facts} areFacts {l} justified := by
    refine ⟨_, AtMost.isReason_reasonClause isBuilt areFacts.nodup justified, ?_⟩
    rintro t heard marker recalls rfl
    have recalls : AtMost.Recalls root (heard.filter root.keeps) t := recalls
    have inRange : ∀ m ∈ (root.trueMembers (t.log.firstEntries marker)).take root.bound, m.atom ≤ maxAtom := by
      intro m taken
      rw [recalls.firstEntries] at taken
      exact areFacts.inRange m (AtMost.mem_trueMembers.mp (List.mem_of_mem_take taken)).1
    have reason : t.reason l marker = .ok (root.reasonClause (t.log.firstEntries marker) l) := by
      rw [AtMost.reason, recalls.trueMembers, recalls.bound, Literal.negateAll?_of_le inRange]
      rfl
    rw [recalls.firstEntries] at reason
    exact ⟨_, by simp only [Theory.buildReason, reason]; rfl⟩
  conflicts {root t} isBuilt {heard} recalls areFacts {s} coherent onTrail {turn call} kind i := by
    have recalls : AtMost.Recalls root (heard.filter root.keeps) t := recalls
    have examined := AtMost.examine_yields coherent (t := t) (i := i) fun l fact => onTrail l <| by
      rw [LevelLog.entries, recalls.log, LevelStack.entries_filter] at fact
      exact List.mem_of_mem_filter fact
    cases kind with
    | propagate =>
      change Turn.Yields (if t.satisfiedAtBase then _ else _) i s _
      split
      · exact .done nofun
      · exact examined
    | solve => exact examined

/-- The clause by which facts force a literal is a reason. -/
theorem Reachability.Forces.isReason {root : Reachability} (isBuilt : Constraint.IsBuilt root)
    {facts : List Literal}
    (areFacts : AreFacts facts) {l : Literal} {clause : Clause} (forces : root.Forces facts l clause) :
    IsReason root facts l clause where
  member := by
    obtain ⟨rest, rfl⟩ := forces.exists_cons
    exact .head _
  others := forces.falsified isBuilt.1 areFacts
  holds _ models := forces.holds isBuilt.1 areFacts models

instance : Accountable Reachability where
  reasons {root} isBuilt {facts} areFacts {l} := by
    rintro ⟨clause, forces⟩
    refine ⟨clause, forces.isReason isBuilt areFacts, ?_⟩
    rintro t heard marker recalls rfl
    rw [root.recalled_entries] at areFacts forces
    have reason := Reachability.reason_of_forces isBuilt.1 isBuilt.2 recalls areFacts forces
    exact ⟨_, by simp only [Theory.buildReason, reason]; rfl⟩
  conflicts isBuilt _ recalls areFacts _ coherent onTrail _ _ kind _ := by
    cases kind <;>
      exact Reachability.examine_yields isBuilt.1 isBuilt.2 recalls areFacts coherent onTrail

section Either

variable {σ τ : Type} [Theory σ] [Theory τ] [Constraint σ] [Constraint τ] [Accountable σ] [Accountable τ]

instance : Accountable (σ ⊕ τ) where
  reasons := by
    rintro (root | root) isBuilt facts areFacts l justified
    · obtain ⟨clause, isReason, given⟩ :=
        Accountable.reasons (show IsBuilt root from isBuilt) areFacts justified
      refine ⟨clause, ⟨isReason.member, isReason.others, isReason.holds⟩, ?_⟩
      rintro (t | t) heard marker recalls first
      · obtain ⟨t', built⟩ := given recalls first
        exact ⟨.inl t', by rw [Theory.Embedding.inl.buildReason, built]; rfl⟩
      · exact recalls.elim
    · obtain ⟨clause, isReason, given⟩ :=
        Accountable.reasons (show IsBuilt root from isBuilt) areFacts justified
      refine ⟨clause, ⟨isReason.member, isReason.others, isReason.holds⟩, ?_⟩
      rintro (t | t) heard marker recalls first
      · exact recalls.elim
      · obtain ⟨t', built⟩ := given recalls first
        exact ⟨.inr t', by rw [Theory.Embedding.inr.buildReason, built]; rfl⟩
  conflicts := by
    rintro (root | root) (t | t) isBuilt heard recalls areFacts s coherent onTrail turn call kind i
    · obtain ⟨turn', kind, same⟩ := Theory.Embedding.inl.turn kind
      have own := Accountable.conflicts (show IsBuilt root from isBuilt) recalls areFacts coherent onTrail kind i
      rintro ⟨clause, u⟩ s' ran
      rw [same] at ran
      obtain ⟨t', _, ran'⟩ := Theory.Embedding.run_eq_ok ran
      exact own _ _ ran'
    · exact recalls.elim
    · exact recalls.elim
    · obtain ⟨turn', kind, same⟩ := Theory.Embedding.inr.turn kind
      have own := Accountable.conflicts (show IsBuilt root from isBuilt) recalls areFacts coherent onTrail kind i
      rintro ⟨clause, u⟩ s' ran
      rw [same] at ran
      obtain ⟨t', _, ran'⟩ := Theory.Embedding.run_eq_ok ran
      exact own _ _ ran'

end Either

/-- Nothing is said of the theories of a type. -/
theorem Accountable.unspoken {τ : Type} [Theory τ] : @Accountable τ _ (Constraint.unspoken τ) := by
  let _ : Constraint τ := Constraint.unspoken τ
  exact { reasons := False.elim, conflicts := False.elim }

end SatModulo
