import SatModulo.Proofs.Registration
import SatModulo.Proofs.Reliability

/-!
# What reliable theories keep

Where theories are reliable, each stays sound, and vouches for what it made true: it can justify it by facts
that come before it on the trail (`Context.Served`). Every move keeps this. A turn is taken on true facts
only, and what was drawn from facts is taken back before they are (`Move.served`).
-/
namespace SatModulo

open Constraint

variable {σ : Type}

/-! ### Order -/

namespace Atoms

variable {s s' : Atoms} {facts : List Literal} {l : Literal} {clause : Clause} {reason : Reason}

/-- A literal of the trail comes after facts: the clause of their opposites explains it. -/
def ComesAfter (s : Atoms) (facts : List Literal) (l : Literal) : Prop :=
  s.Explains (l :: facts.map Literal.negate) l

theorem ComesAfter.explains (after : s.ComesAfter facts l) (member : l ∈ clause)
    (others : ∀ m ∈ clause, m ≠ l → m.negate ∈ facts) : s.Explains clause l := by
  obtain ⟨earlier, order, _, opposites⟩ := after
  refine ⟨earlier, order, member, fun m inClause other => opposites m (.tail _ ?_) other⟩
  have fact := List.mem_map_of_mem (f := Literal.negate) (others m inClause other)
  rwa [Literal.negate_negate] at fact

theorem ComesAfter.of_assign (made : s.assign l reason = .ok (.unset, s'))
    (onTrail : ∀ fact ∈ facts, fact ∈ s.trail.literals) : s'.ComesAfter facts l := by
  have order : s.trail.literals ++ [l] <+: s'.trail.literals := literals_assign made ▸ List.prefix_refl _
  refine ⟨s.trail.literals, order, .head _, fun m member other => .inl ?_⟩
  obtain ⟨fact, given, rfl⟩ := List.mem_map.mp ((List.mem_cons.mp member).resolve_left other)
  rw [Literal.negate_negate]
  exact onTrail fact given

end Atoms

variable [Theory σ] [Constraint σ]

/-- A theory that was built, about known atoms. -/
def Constraint.BuiltBelow (count : Nat) (root : σ) : Prop := IsBuilt root ∧ ∀ a ∈ atoms root, a < count

omit [Theory σ] in
theorem Constraint.BuiltBelow.mono {count count' : Nat} {root : σ} (built : BuiltBelow count root)
    (more : count ≤ count') : BuiltBelow count' root :=
  ⟨built.1, fun a member => Nat.lt_of_lt_of_le (built.2 a member) more⟩

/-- A theory vouches for what it made true: it can justify it by facts that come before it. -/
def Registry.Vouches (r : Registry σ) (s : Atoms) (l : Literal) (level : Nat) (reason : Reason) : Prop :=
  r.Backs (fun root facts => BuiltBelow s.count root ∧ Justifies root facts l ∧ s.ComesAfter facts l) level
    reason

/-- Theories vouch for all that they made true. -/
def Registry.VouchesAll (r : Registry σ) (s : Atoms) : Prop := s.Grounded (r.Vouches s)

namespace Registry.VouchesAll

variable {r : Registry σ} {s s' : Atoms} {l : Literal} {reason : Reason}

/-- The trail grows, and nothing is assigned. -/
theorem mono (vouches : r.VouchesAll s) (assignment : s'.assignment = s.assignment)
    (more : s.count ≤ s'.count) (longer : s.trail.literals <+: s'.trail.literals) : r.VouchesAll s' := by
  intro l level reason assigned
  rw [assignment] at assigned
  exact (vouches l level reason assigned).imp fun root facts held =>
    ⟨held.1.mono more, held.2.1, held.2.2.mono longer⟩

theorem assign (vouches : r.VouchesAll s) (made : s.assign l reason = .ok (.unset, s'))
    (vouched : r.Vouches s' l s.level reason) : r.VouchesAll s' := by
  have longer : s.trail.literals <+: s'.trail.literals := by
    rw [Atoms.literals_assign made]
    exact List.prefix_append _ _
  refine Atoms.Grounded.assign (s := s) (fun m level other assigned => ?_) made vouched
  exact (vouches m level other assigned).imp fun root facts held =>
    ⟨held.1.mono (Nat.le_of_eq (Atoms.count_assign made).symm), held.2.1, held.2.2.mono longer⟩

theorem forgetAbove (vouches : r.VouchesAll s) (h : s.Coherent) (target : Nat) :
    r.VouchesAll (s.forgetAbove target).2 := by
  have h' := h.forgetAbove target
  have shorter : (s.forgetAbove target).2.trail.literals <+: s.trail.literals := by
    rw [Atoms.trail_forgetAbove]
    exact Trail.literals_cutTo_isPrefix _ _
  intro l level reason assigned
  have kept := h'.mem_literals_iff.mpr ⟨level, reason, assigned⟩
  rw [h.assignment_forgetAbove, Option.filter_eq_some_iff] at assigned
  exact (vouches l level reason assigned.1).imp fun root facts held =>
    ⟨held.1.mono (Nat.le_of_eq (Atoms.count_forgetAbove _ _).symm), held.2.1, held.2.2.cut h.nodup shorter kept⟩

/-- A theory vouches for what it draws from all facts that it was told of. It is told of nothing during its
turn, so these stand before all that it draws. -/
theorem concludes (vouches : r.VouchesAll s) {i : Nat} {root : σ} {m : Member σ}
    (built : BuiltBelow s.count root) (stems : r.Stems i root m) (heardLevel : (r.heard i).level = s.level)
    (onTrail : ∀ fact ∈ (recalled root (r.heard i)).entries, fact ∈ s.trail.literals)
    (chain : Relation.ReflTransGen (Atoms.Concludes i fun l marker =>
      marker = (recalled root (r.heard i)).entries.length ∧
        Justifies root (recalled root (r.heard i)).entries l) s s') : r.VouchesAll s' := by
  suffices held : r.VouchesAll s' ∧ s'.level = s.level ∧ s'.count = s.count ∧
      s.trail.literals <+: s'.trail.literals from held.1
  induction chain with
  | refl => exact ⟨vouches, rfl, rfl, List.prefix_refl _⟩
  | tail _ step ih =>
    obtain ⟨vouches, level, count, longer⟩ := ih
    obtain ⟨l, marker, ⟨exactly, justified⟩, made⟩ := step
    have counted := (Atoms.count_assign made).trans count
    refine ⟨vouches.assign made ?_, (Atoms.level_assign made).trans level, counted, ?_⟩
    · refine .of_recalled stems (heardLevel.trans level.symm) exactly
        ⟨built.mono (Nat.le_of_eq counted.symm), justified, ?_⟩
      exact .of_assign made fun fact given => longer.subset (onTrail fact given)
    · rw [Atoms.literals_assign made]
      exact longer.trans (List.prefix_append _ _)

end Registry.VouchesAll

variable [Reliable σ]

/-- Theories do their part. -/
structure Context.Served (c : Context σ) : Prop where
  rooted : c.Rooted (BuiltBelow c.atoms.count)
  sound : ∀ m ∈ c.theories.members, Reliable.Sound m.theory
  vouches : c.theories.VouchesAll c.atoms

variable {c c' : Context σ} {taking : Intake σ} {i : Nat} {m m' : Member σ} {own : List Call}

omit [Reliable σ] in
/-- What has become of a theory that was built about known atoms is informed. -/
theorem Context.Told.informed [LawfulConstraint σ] (told : c.Told) (h : c.Coherent) {root flushed : σ}
    (built : BuiltBelow c.atoms.count root) (stems : c.theories.Stems i root m)
    (origin : flushed = m.theory ∨ flushed = Theory.flush c.atoms m.theory) :
    Informed root (c.theories.heard i) flushed c.atoms where
  isBuilt := built.1
  recalls := stems.recalls_flushed built.1 origin
  facts := (told.delivered i m stems.1).areFacts h.supports.atoms
  coherent := h.supports.atoms
  known := built.2
  onTrail _ fact := (told.delivered i m stems.1).subset fact

/-! ### Soundness -/

theorem Context.Served.sound_flushed (served : c.Served) (member : m ∈ c.theories.members) {flushed : σ}
    (origin : flushed = m.theory ∨ flushed = Theory.flush c.atoms m.theory) : Reliable.Sound flushed := by
  have sound := served.sound m member
  rcases origin with rfl | rfl
  · exact sound
  · exact Reliable.answers (i := 0) sound (.flush m.theory c.atoms) id

variable [LawfulConstraint σ]

/-- A turn in a context where theories do their part. -/
theorem Context.Served.turn (served : c.Served) (h : c.Coherent) (told : c.Told)
    {turn : σ → Turn (Option Clause × σ)} {call : Nat → List Literal → Option Clause → Call}
    (kind : TurnKind turn call) (found : c.theories.members[i]? = some m) {flushed : σ}
    (origin : flushed = m.theory ∨ flushed = Theory.flush c.atoms m.theory) :
    (turn flushed).Returns i c.atoms fun outcome s' => Reliable.Sound outcome.2 ∧
      (∀ clause, outcome.1 = some clause → ∀ l ∈ clause, s'.valueOf l = some false) ∧
      c.theories.VouchesAll s' := by
  obtain ⟨root, built, stems⟩ := served.rooted i m found
  have informed := told.informed h built stems origin
  have sound := served.sound_flushed (List.mem_of_getElem? found) origin
  obtain ⟨outcome, s', ran, sound', falsified⟩ := Reliable.turns informed sound kind i
  have allowed := LawfulConstraint.turns informed.isBuilt informed.recalls informed.facts kind
  have heardLevel := (told.delivered i m found).heardLevel
  refine ⟨outcome, s', ran, sound', falsified, ?_⟩
  refine served.vouches.concludes built stems heardLevel (fun fact given => ?_) (allowed.run ran).2
  rw [recalled, LevelStack.entries_filter] at given
  exact informed.onTrail fact (List.mem_of_mem_filter given)

/-- After a move all theories are sound, if those that are taken in were built. -/
theorem Move.sound (move : Move taking c c') (h : c.Coherent) (told : c.Told)
    (kinds : ∀ theory, taking.theory theory → IsBuilt theory) (served : c.Served) :
    ∀ m ∈ c'.theories.members, Reliable.Sound m.theory := by
  intro m' member
  obtain ⟨i, found'⟩ := List.mem_iff_getElem?.mp member
  rcases move.acted_or_registered found' with ⟨m, found, acts⟩ | ⟨theory, given, same⟩
  · cases acts with
    | idle own trace idle => exact trace.sound idle (served.sound m (List.mem_of_getElem? found))
    | turn turn call kind flushed origin conflict s' ran =>
      obtain ⟨_, _, ran', sound, _⟩ := served.turn h told kind found origin
      rw [ran] at ran'
      cases ran'
      exact sound
  · rw [same]
    exact Reliable.answers (i := i) (Reliable.built (kinds theory given)) (.setIndex theory i) id

/-! ### Moves -/

omit [LawfulConstraint σ] in
theorem Jump.vouches (jump : Jump c c') (h : c.Coherent) (served : c.Served) :
    c.theories.VouchesAll c'.atoms := by
  cases jump with
  | retreat level low retracted theories undecided taken => exact served.vouches.forgetAbove h.supports.atoms level
  | learn key l lower level clauses retracted theories atoms distinct falsified current low below tight
      entailed keyed undecided taken made =>
    exact (served.vouches.forgetAbove h.supports.atoms level).assign made trivial

omit [LawfulConstraint σ] in
theorem Decide.vouches (decide : Decide c c') (served : c.Served) : c.theories.VouchesAll c'.atoms := by
  cases decide with
  | decide l proposer theories atoms delivered opened made =>
    have same : c.atoms.openLevel.trail.literals = c.atoms.trail.literals := c.atoms.trail.literals_openLevel
    have levelled : c.theories.VouchesAll c.atoms.openLevel :=
      served.vouches.mono rfl (Nat.le_refl _) (same ▸ List.prefix_refl _)
    exact levelled.assign made trivial

omit [LawfulConstraint σ] in
theorem Build.vouches (build : Build taking c c') (served : c.Served) : c.theories.VouchesAll c'.atoms := by
  cases build with
  | fresh previous a atoms success =>
    obtain ⟨_, count, trail, assignment⟩ := Atoms.fresh_eq_ok success
    have more : c.atoms.count ≤ atoms.count := by omega
    exact served.vouches.mono assignment more (trail ▸ List.prefix_refl _)
  | giveUnit clause key clauses l atoms given base distinct known keyed state made =>
    exact served.vouches.assign made trivial
  | _ => exact served.vouches

theorem Draw.vouches (draw : Draw c c') (h : c.Coherent) (told : c.Told) (served : c.Served) :
    c.theories.VouchesAll c'.atoms := by
  cases draw with
  | units atoms step =>
    cases step with
    | force _ key clause l found forces made => exact served.vouches.assign made trivial
    | pass l next seen => exact served.vouches
  | turn i turn call kind conflict atoms theories taken =>
    obtain ⟨m, m', own, found, took, rfl⟩ := Registry.changeAt_eq_ok taken
    obtain ⟨flushed, origin, ran, -⟩ := Member.memberTurn_eq_ok took
    obtain ⟨outcome, s', ran', _, _, vouches⟩ := served.turn h told kind found origin
    rw [ran] at ran'
    cases ran'
    exact vouches
  | _ => exact served.vouches

omit [LawfulConstraint σ] in
theorem Refute.served (refute : Refute taking c c') (served : c.Served) : c'.Served := by
  cases refute <;> exact ⟨served.rooted, served.sound, served.vouches⟩

omit [LawfulConstraint σ] in
theorem Context.Served.initial (settings : Settings) : (Context.ofSettings settings : Context σ).Served where
  rooted i m found := by simp [Context.ofSettings, Registry.ofSettings] at found
  sound m member := by simp [Context.ofSettings, Registry.ofSettings] at member
  vouches l level reason assigned := by
    have coherent := (Context.Coherent.initial settings : (Context.ofSettings settings : Context σ).Coherent)
    have member := coherent.supports.atoms.mem_literals_iff.mpr ⟨level, reason, assigned⟩
    cases member

/-- Every move keeps that theories do their part, if those that are taken in were built about known
atoms. -/
theorem Move.served (move : Move taking c c') (h : c.Coherent) (told : c.Told)
    (kinds : ∀ theory, taking.theory theory → BuiltBelow c.atoms.count theory) (served : c.Served) :
    c'.Served := by
  have vouches : c.theories.VouchesAll c'.atoms := by
    cases move with
    | draw move => exact move.vouches h told served
    | jump move => exact move.vouches h served
    | decide allowed move => exact move.vouches served
    | build move => exact move.vouches served
    | settle phase before after => exact served.vouches
    | configure settings given => exact served.vouches
  refine ⟨move.rooted told (fun theory given => (kinds theory given).mono move.count_le) fun i m found => ?_,
    move.sound h told (fun theory given => (kinds theory given).1) served, fun l level reason assigned => ?_⟩
  · obtain ⟨root, built, stems⟩ := served.rooted i m found
    exact ⟨root, built.mono move.count_le, stems⟩
  · -- Of what was heard by the level of a value that stands, nothing was taken back.
    have low := (move.coherent h).supports.atoms.levelOf_le_level (Atoms.levelOf_eq_some.mpr ⟨_, assigned, rfl⟩)
    refine (vouches l level reason assigned).mono (fun i root m stems => ?_) fun i => move.keepsTo told i low
    obtain ⟨m', stems, _⟩ := move.stems stems
    exact ⟨m', stems⟩

theorem Moves.served (moves : Moves taking c c') (h : c.Coherent) (told : c.Told)
    (kinds : ∀ theory, taking.theory theory → BuiltBelow c.atoms.count theory) (served : c.Served) :
    c'.Served := by
  induction moves with
  | refl => exact served
  | tail moves move ih =>
    exact move.served (Moves.coherent moves h) (Moves.told moves h told)
      (fun theory given => (kinds theory given).mono (Moves.count_le moves)) ih

/-- Along a run theories do their part, if each was about known atoms when it was registered. -/
theorem PublicRun.served {settings : Settings} {events : List (Event σ)} {s : Session σ}
    (run : PublicRun settings events s)
    (built : ∀ e ∈ events, ∀ theory, e.Registers theory →
      BuiltBelow e.before.context.atoms.count theory) : s.context.Served := by
  induction run with
  | start => exact .initial settings
  | @step events s earlier command allowed result s' taken ih =>
    have served := ih fun e member => built e (List.mem_append_left _ member)
    have last : ⟨s, command, result, s'⟩ ∈ events ++ [(⟨s, command, result, s'⟩ : Event σ)] :=
      List.mem_append_right _ (.head _)
    have h := earlier.coherent.1
    have kinds : ∀ theory, (command.taking s.context result).theory theory →
        BuiltBelow s.context.atoms.count theory := by
      rintro theory ⟨i, given, registered⟩
      exact built _ last theory ⟨given, i, registered⟩
    rcases (earlier.ran_step allowed taken).course with moves | ⟨mid, moves, refuted⟩
    · exact Moves.served moves h earlier.told kinds served
    · exact refuted.served (Moves.served moves h earlier.told kinds served)

end SatModulo
