import SatModulo.Proofs.Constraints

/-!
# Grounds of assignments

Every value on the trail has a ground, said of its literal, its level and its reason (`Atoms.Grounded`).
Values are given one by one and taken back by level, so grounds are checked where a value is given. The
ground of a theory is in the facts that it had heard of: these stay the first ones up to the level of the
value (`LevelStack.KeepsTo`), so the theory can justify the value for as long as it stands
(`Registry.Backs.mono`).
-/
namespace SatModulo

namespace Atoms

variable {s s' : Atoms} {grounds grounds' : Literal → Nat → Reason → Prop} {l : Literal} {reason : Reason}

/-- Every value that was given for a reason has a ground. -/
def Grounded (grounds : Literal → Nat → Reason → Prop) (s : Atoms) : Prop :=
  ∀ l level reason, s.assignment l.atom = some ⟨l.polarity, level, some reason⟩ → grounds l level reason

theorem Grounded.assign (grounded : s.Grounded grounds) (made : s.assign l reason = .ok (.unset, s'))
    (ground : grounds l s.level reason) : s'.Grounded grounds := by
  intro m level other assigned
  obtain ⟨_, _, _, _, assignment⟩ := assign_eq_unset made
  rw [assignment] at assigned
  split at assigned
  · rename_i sameAtom
    simp only [Option.some.injEq, Assignment.mk.injEq] at assigned
    obtain ⟨polarity, rfl, rfl⟩ := assigned
    rwa [Literal.eq_of_atom_of_polarity sameAtom polarity.symm]
  · exact grounded m level other assigned

theorem Grounded.forgetAbove (grounded : s.Grounded grounds) (h : s.Coherent) {target : Nat}
    (weaker : ∀ l level reason, level ≤ target → grounds l level reason → grounds' l level reason) :
    (s.forgetAbove target).2.Grounded grounds' := by
  intro l level reason assigned
  rw [h.assignment_forgetAbove, Option.filter_eq_some_iff] at assigned
  exact weaker l level reason (of_decide_eq_true assigned.2) (grounded l level reason assigned.1)

theorem Grounded.mono (grounded : s.Grounded grounds)
    (weaker : ∀ l level reason, grounds l level reason → grounds' l level reason) : s.Grounded grounds' :=
  fun l level reason assigned => weaker l level reason (grounded l level reason assigned)

/-- The consequences of a theory have grounds if what it asked for has. -/
theorem Grounded.concludes (grounded : s.Grounded grounds) {i : Nat} {asks : Literal → Marker → Prop}
    (chain : Relation.ReflTransGen (Atoms.Concludes i asks) s s')
    (ground : ∀ l marker, asks l marker → grounds l s.level (.theory i marker)) :
    s'.Grounded grounds ∧ s'.level = s.level := by
  induction chain with
  | refl => exact ⟨grounded, rfl⟩
  | tail _ step ih =>
    obtain ⟨grounded, level⟩ := ih
    obtain ⟨l, marker, asked, made⟩ := step
    refine ⟨grounded.assign made ?_, (level_assign made).trans level⟩
    rw [level]
    exact ground l marker asked

end Atoms

/-- What was heard of the trail are facts. -/
theorem Member.Delivered.areFacts {σ : Type} {m : Member σ} {s : Atoms} {heard : LevelStack Literal}
    (delivered : m.Delivered s.trail.stack heard) (h : s.Coherent) : AreFacts heard.entries where
  distinct := by
    refine delivered.distinct.map_on fun l inL k inK same => ?_
    exact List.inj_on_of_nodup_map h.distinct (delivered.subset inL) (delivered.subset inK) same
  proper l member := h.ne_top_of_mem (delivered.subset member)
  inRange l member := by
    have known := h.lt_count_of_mem (delivered.subset member)
    have room := h.room
    simp only [Atom] at *
    omega

variable {σ : Type} [Theory σ]

/-- Members keep what they had heard up to the level after the changes. -/
theorem Registry.Changes.keepsTo {r r' : Registry σ} {top : Nat} {stack : LevelStack Literal}
    (changes : Changes (Member.Called top) r r')
    (delivered : ∀ i (m : Member σ), r.members[i]? = some m → m.Delivered stack (r.heard i)) (i : Nat)
    {level : Nat} (low : level ≤ top) : (r.heard i).KeepsTo level (r'.heard i) := by
  cases found : r.members[i]? with
  | none =>
    rw [heard, heard, changes.absent i (List.getElem?_eq_none_iff.mp found)]
    exact .refl _ _
  | some m =>
    obtain ⟨m', own, _, account, called⟩ := changes.member i m found
    have same := (delivered i m found).heardLevel.trans (delivered i m found).level.symm
    rw [heard_of_account account]
    exact called.keeps _ same level low

theorem Move.keepsTo {c c' : Context σ} {taking : Intake σ} (move : Move taking c c') (told : c.Told)
    (i : Nat) {level : Nat} (low : level ≤ c'.level) :
    (c.theories.heard i).KeepsTo level (c'.theories.heard i) := by
  rcases move.called_or_registered with changes | ⟨theory, outcome, registered, _⟩
  · exact changes.keepsTo told.delivered i low
  · rw [Registry.heard_register registered i]
    exact .refl _ _

variable [Constraint σ]

open Constraint

/-- A theory as it was built, which a valuation satisfies. -/
def Constraint.Satisfied (v : Atom → Bool) (root : σ) : Prop := IsBuilt root ∧ Models v root

/-- A theory has backing for what it made true in facts that it had heard of by a level. -/
def Registry.Backs (r : Registry σ) (backs : σ → List Literal → Prop) (level : Nat) : Reason → Prop
  | .theory i marker => ∃ root m, r.Stems i root m ∧
      marker ≤ ((recalled root (r.heard i)).cutTo level).entries.length ∧
      backs root ((recalled root (r.heard i)).entries.take marker)
  | _ => True

/-- A theory that a valuation satisfies can justify that it made a literal true, from facts that it had
heard of by the level of the literal. -/
def Registry.Founds (v : Atom → Bool) (r : Registry σ) (l : Literal) (level : Nat) (reason : Reason) :
    Prop := r.Backs (fun root facts => Satisfied v root ∧ Justifies root facts l) level reason

namespace Registry.Backs

variable {r r' : Registry σ} {backs backs' : σ → List Literal → Prop} {level : Nat} {reason : Reason}

/-- The backing is in all facts that the theory has heard of. -/
theorem of_recalled {i : Nat} {root : σ} {m : Member σ} {marker : Marker}
    (stems : r.Stems i root m) (heardLevel : (r.heard i).level = level)
    (exactly : marker = (recalled root (r.heard i)).entries.length)
    (backed : backs root (recalled root (r.heard i)).entries) :
    r.Backs backs level (.theory i marker) := by
  have recalledLevel : (recalled root (r.heard i)).level = level := by
    rw [recalled, LevelStack.level_filter, heardLevel]
  refine ⟨root, m, stems, ?_, ?_⟩
  · exact Nat.le_of_eq (by rw [LevelStack.cutTo_of_le _ _ (Nat.le_of_eq recalledLevel), exactly])
  · rwa [exactly, List.take_length]

theorem imp (backed : r.Backs backs level reason)
    (weaker : ∀ root facts, backs root facts → backs' root facts) : r.Backs backs' level reason := by
  cases reason with
  | theory i marker =>
    obtain ⟨root, m, stems, inside, holds⟩ := backed
    exact ⟨root, m, stems, inside, weaker _ _ holds⟩
  | _ => exact trivial

theorem mono (backed : r.Backs backs level reason)
    (stems : ∀ i root m, r.Stems i root m → ∃ m', r'.Stems i root m')
    (keeps : ∀ i, (r.heard i).KeepsTo level (r'.heard i)) : r'.Backs backs level reason := by
  cases reason with
  | theory i marker =>
    obtain ⟨root, m, stemsM, inside, holds⟩ := backed
    obtain ⟨m', stemsM'⟩ := stems i root m stemsM
    have kept := (keeps i).filter (Constraint.keeps root)
    refine ⟨root, m', stemsM', Nat.le_trans inside (List.IsPrefix.length_le kept), ?_⟩
    rwa [recalled, kept.take_eq inside]
  | _ => exact trivial

end Registry.Backs

end SatModulo
