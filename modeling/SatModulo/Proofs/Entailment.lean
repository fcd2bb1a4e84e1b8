import SatModulo.Proofs.Grounding
import SatModulo.Proofs.Runs

/-!
# What a valuation keeps

A valuation that satisfies the clauses and theories that are taken in agrees with the context after every
move (`Context.Agrees`): it satisfies what is learnt and what theories give as conflicts and reasons, and
makes true what is true at the base level. A known clause that is false at the base level would be false
in it, so where there is such a valuation it never turns out that there is no solution
(`Refute.not_agrees`).
-/
namespace SatModulo

open Constraint

section Clauses

variable {v : Atom → Bool} {clause : Clause} {l : Literal}

theorem Literal.not_holds_of_negate (proper : l.atom ≠ topAtom) (holds : l.negate.Holds v) : ¬l.Holds v :=
  (holds_negate proper).mp holds

/-- The literal of a clause none of whose others holds. -/
theorem Clause.Holds.of_others (holds : clause.Holds v) (others : ∀ m ∈ clause, m ≠ l → ¬m.Holds v) :
    l.Holds v := by
  obtain ⟨m, member, isTrue⟩ := holds
  by_cases same : m = l
  · rwa [← same]
  · exact absurd isTrue (others m member same)

theorem Clause.Holds.of_mem_iff {other : Clause} (holds : clause.Holds v)
    (same : ∀ l, l ∈ other ↔ l ∈ clause) : other.Holds v := by
  obtain ⟨l, member, isTrue⟩ := holds
  exact ⟨l, (same l).mpr member, isTrue⟩

end Clauses

variable {σ : Type} {v : Atom → Bool}

/-- What a theory is called with where it gives no clause is not what makes a clause known. -/
theorem Registry.Changes.mem_of_mute {effect : Nat → Member σ → Member σ → List Call → Prop}
    {r r' : Registry σ} (changes : Changes effect r r')
    (mute : ∀ i m m' own, effect i m m' own → ∀ call ∈ own, call.clause? = none) {i : Nat} {call : Call}
    {clause : Clause} (member : call ∈ r'.account i) (gives : call.clause? = some clause) :
    call ∈ r.account i := by
  cases found : r.members[i]? with
  | none => rwa [changes.absent i (List.getElem?_eq_none_iff.mp found)] at member
  | some m =>
    obtain ⟨m', own, _, account, effected⟩ := changes.member i m found
    rw [account] at member
    rcases List.mem_append.mp member with old | new
    · exact old
    · rw [mute i m m' own effected call new] at gives
      cases gives

variable [Theory σ] [Constraint σ]

/-- The ground of a value: at the base level the valuation agrees, and what a theory made true it can
justify. -/
def Registry.Grounds (v : Atom → Bool) (r : Registry σ) (l : Literal) (level : Nat) (reason : Reason) :
    Prop := (level = 0 → l.Holds v) ∧ r.Founds v l level reason

/-- A valuation satisfies what is known, and makes true what is true at the base level. -/
structure Context.Agrees (v : Atom → Bool) (c : Context σ) : Prop where
  known : ∀ clause, c.Known clause → clause.Holds v
  grounded : c.atoms.Grounded (c.theories.Grounds v)
  rooted : c.Rooted (Satisfied v)
  phase : c.phase ≠ .unsatisfiable

variable {c c' : Context σ} {taking : Intake σ} {l : Literal}

/-- What is false at the base level does not hold. -/
theorem Atoms.Grounded.not_holds {s : Atoms} {r : Registry σ} (grounded : s.Grounded (r.Grounds v))
    (h : s.Coherent) (top : v topAtom = true) (value : s.valueOf l = some false)
    (given : s.levelOf l.atom = some 0) : ¬l.Holds v := by
  by_cases proper : l.atom = topAtom
  · intro holds
    rw [Literal.Holds, proper, top] at holds
    simp only [Literal.polarity, Literal.atom, topAtom] at holds proper
    have positive := of_decide_eq_true holds.symm
    lia
  · have member := (h.valueOf_eq_false proper).mp value
    obtain ⟨level, reason, assigned⟩ := h.mem_literals_iff.mp member
    rw [← Literal.atom_negate, Atoms.levelOf, assigned] at given
    cases given
    exact Literal.not_holds_of_negate proper ((grounded l.negate 0 reason assigned).1 rfl)

/-- While the context is at the base level, what is false does not hold. -/
theorem Atoms.Grounded.not_holds_of_base {s : Atoms} {r : Registry σ} (grounded : s.Grounded (r.Grounds v))
    (h : s.Coherent) (top : v topAtom = true) (base : s.level = 0) (value : s.valueOf l = some false) :
    ¬l.Holds v := by
  rw [Atoms.valueOf, Literal.valueOn_eq_false, Atoms.value_eq_some] at value
  obtain ⟨assigned, found, isFalse⟩ := value
  have given : s.levelOf l.atom = some assigned.level := Atoms.levelOf_eq_some.mpr ⟨_, found, rfl⟩
  have zero : assigned.level = 0 := Nat.le_zero.mp (base ▸ h.levelOf_le_level given)
  refine grounded.not_holds h top ?_ (zero ▸ given)
  rw [Atoms.valueOf, Literal.valueOn_eq_false, Atoms.value_eq_some]
  exact ⟨assigned, found, isFalse⟩

namespace Context.Agrees

/-- A clause that is known and forces a literal at the base level makes it hold. -/
theorem forced (agrees : c.Agrees v) (h : c.Coherent) (top : v topAtom = true) {clause : Clause}
    (holds : clause.Holds v) (forces : clause.stateOn c.atoms.value = .unit l) (base : c.level = 0) :
    l.Holds v := by
  obtain ⟨_, _, others⟩ := Clause.stateOn_eq_unit forces
  refine holds.of_others fun m member other => ?_
  exact agrees.grounded.not_holds_of_base h.supports.atoms top base (others m member other)

end Context.Agrees

section Lawful

variable [LawfulConstraint σ]

namespace Context.Agrees

/-- What a theory justifies by facts that it was told of has a ground. -/
theorem founded (agrees : c.Agrees v) (h : c.Coherent) (told : c.Told) {i : Nat} {root : σ}
    {m : Member σ} (satisfied : Satisfied v root) (stems : c.theories.Stems i root m) {marker : Marker}
    (exactly : marker = (recalled root (c.theories.heard i)).entries.length)
    (justified : Justifies root (recalled root (c.theories.heard i)).entries l) :
    c.theories.Grounds v l c.level (.theory i marker) := by
  have delivered := told.delivered i m stems.1
  have kept : (recalled root (c.theories.heard i)).entries.Sublist (c.theories.heard i).entries := by
    rw [recalled, LevelStack.entries_filter]
    exact List.filter_sublist
  have areFacts := (delivered.areFacts h.supports.atoms).sublist kept
  refine ⟨fun base => ?_, .of_recalled stems delivered.heardLevel exactly ⟨satisfied, justified⟩⟩
  obtain ⟨clause, holds, _, others⟩ := LawfulConstraint.explained satisfied.1 areFacts justified
  refine (holds v satisfied.2).of_others fun k member other => ?_
  have fact := others k member other
  have proper : k.atom ≠ topAtom := by
    rw [← Literal.atom_negate]
    exact areFacts.proper _ fact
  have onTrail := delivered.subset (kept.subset fact)
  obtain ⟨level, reason, assigned⟩ := h.supports.atoms.mem_literals_iff.mp onTrail
  have given := h.supports.atoms.levelOf_le_level (Atoms.levelOf_eq_some.mpr ⟨_, assigned, rfl⟩)
  have zero : level = 0 := Nat.le_zero.mp (base ▸ given)
  exact Literal.not_holds_of_negate proper ((agrees.grounded k.negate level reason assigned).1 zero)

/-- A turn of a theory draws what has grounds, and gives a conflict that holds. -/
theorem turn (agrees : c.Agrees v) (h : c.Coherent) (told : c.Told) {i : Nat}
    {turn : σ → Turn (Option Clause × σ)} {call : Nat → List Literal → Option Clause → Call}
    (kind : TurnKind turn call) {m m' : Member σ} {own : List Call} {conflict : Option Clause}
    {atoms : Atoms} (found : c.theories.members[i]? = some m)
    (took : Procedure.memberTurn i turn call c.atoms m = .ok ((conflict, atoms), m', own)) :
    (∀ clause, conflict = some clause → clause.Holds v) ∧ atoms.Grounded (c.theories.Grounds v) := by
  obtain ⟨flushed, origin, ran, _⟩ := Member.memberTurn_eq_ok took
  obtain ⟨root, satisfied, stems⟩ := agrees.rooted i m found
  have recalls := stems.recalls_flushed satisfied.1 origin
  have areFacts := (told.delivered i m found).areFacts h.supports.atoms
  obtain ⟨ends, chain⟩ := (LawfulConstraint.turns satisfied.1 recalls areFacts kind).run ran
  refine ⟨fun clause given => ends clause given v satisfied.2, ?_⟩
  exact (agrees.grounded.concludes chain fun l marker asked =>
    agrees.founded h told satisfied stems asked.1 asked.2).1

/-- The reason that a theory gives for a literal holds. -/
theorem reason (agrees : c.Agrees v) (h : c.Coherent) (told : c.Told) {i : Nat} {m : Member σ}
    (found : c.theories.members[i]? = some m) {marker : Marker}
    (onTrail : l ∈ c.atoms.trail.literals)
    (reasoned : c.atoms.reasonOf l.atom = some (.theory i marker)) {reason : Clause} {theory : σ}
    (answered : Theory.buildReason l marker m.theory = .ok (reason, theory)) : reason.Holds v := by
  obtain ⟨level, given, assigned⟩ := h.supports.atoms.mem_literals_iff.mp onTrail
  rw [Atoms.reasonOf, assigned] at reasoned
  cases reasoned
  obtain ⟨_, root, n, stems, _, satisfied, justified⟩ := agrees.grounded l level _ assigned
  have same := stems.1
  rw [found] at same
  cases same
  have areFacts := (told.delivered i m found).areFacts h.supports.atoms
  exact LawfulConstraint.reasons satisfied.1 (stems.recalls satisfied.1) areFacts answered justified
    satisfied.2

end Context.Agrees

end Lawful

namespace Context.Agrees

/-- While theories give no clauses, what is known holds if what is stored does. -/
theorem known_of_mute (agrees : c.Agrees v)
    {effect : Nat → Member σ → Member σ → List Call → Prop}
    (changes : Registry.Changes effect c.theories c'.theories)
    (mute : ∀ i m m' own, effect i m m' own → ∀ call ∈ own, call.clause? = none)
    (stored : ∀ key clause, c'.clauses.get? key = some clause → clause.Holds v) :
    ∀ clause, c'.Known clause → clause.Holds v := by
  intro clause known
  rcases known with ⟨key, found⟩ | ⟨i, call, member, gives⟩
  · exact stored key clause found
  · exact agrees.known clause (.inr ⟨i, call, changes.mem_of_mute mute member gives, gives⟩)

/-- Where one theory is called, what is known holds if the clauses that it gives do. -/
theorem known_of_calls (agrees : c.Agrees v) {members : List (Member σ)} {i : Nat} {own : List Call}
    (clauses : c'.clauses = c.clauses)
    (theories : c'.theories =
      { c.theories with members, calls := c.theories.calls ++ own.map (i, ·) })
    (gives : ∀ call ∈ own, ∀ clause, call.clause? = some clause → clause.Holds v) :
    ∀ clause, c'.Known clause → clause.Holds v := by
  intro clause known
  rcases known with ⟨key, found⟩ | ⟨j, call, member, same⟩
  · exact agrees.known clause (.inl ⟨key, clauses ▸ found⟩)
  · rw [theories, Registry.account_append_own] at member
    rcases List.mem_append.mp member with old | new
    · exact agrees.known clause (.inr ⟨j, call, old, same⟩)
    · split at new
      · exact gives call new clause same
      · cases new

theorem stored (agrees : c.Agrees v) :
    ∀ key clause, c.clauses.get? key = some clause → clause.Holds v :=
  fun key clause found => agrees.known clause (.inl ⟨key, found⟩)

/-- A clause that holds may be stored. -/
theorem store (agrees : c.Agrees v) {clause : Clause} {learnt : Bool} {key : ClauseKey}
    {clauses : ClauseStore} (keyed : c.clauses.store clause learnt = .ok (key, clauses))
    (holds : clause.Holds v) : ∀ other d, clauses.get? other = some d → d.Holds v := by
  intro other d found
  rcases (ClauseStore.get?_store_iff keyed other d).mp found with old | ⟨_, rfl⟩
  · exact agrees.stored other d old
  · exact holds

end Context.Agrees

/-- What is taken in is satisfied. -/
structure Intake.SatisfiedBy (taking : Intake σ) (v : Atom → Bool) : Prop where
  clause : ∀ clause, taking.clause clause → clause.Holds v
  theory : ∀ theory, taking.theory theory → Satisfied v theory

/-- What is known after a move holds, and values have grounds in what theories had heard of before. -/
def Move.Keeps (v : Atom → Bool) (c c' : Context σ) : Prop :=
  (∀ clause, c'.Known clause → clause.Holds v) ∧ c'.atoms.Grounded (c.theories.Grounds v)

/-- Consequences hold in every valuation that satisfies what is known, and what a theory makes true it can justify. -/
theorem Draw.keeps [LawfulConstraint σ] (draw : Draw c c') (h : c.Coherent) (told : c.Told)
    (top : v topAtom = true) (agrees : c.Agrees v) : Move.Keeps v c c' := by
  cases draw with
  | adjust random counters schedule standings => exact ⟨agrees.known, agrees.grounded⟩
  | units atoms step =>
    refine ⟨agrees.known, ?_⟩
    cases step with
    | force _ key clause l found forces made =>
      exact agrees.grounded.assign made
        ⟨agrees.forced h top (agrees.stored key clause found) forces, trivial⟩
    | pass l next seen => exact agrees.grounded
  | deliver theories delivered =>
    refine ⟨agrees.known_of_mute (Registry.changes_deliverAll delivered).1 ?_ agrees.stored,
      agrees.grounded⟩
    intro i m m' own caught
    rw [caught.own]
    exact List.forall_mem_map.mpr fun _ _ => rfl
  | turn i turn call kind conflict atoms theories taken =>
    obtain ⟨m, m', own, found, took, rfl⟩ := Registry.changeAt_eq_ok taken
    obtain ⟨gives, grounded⟩ := agrees.turn h told kind found took
    refine ⟨agrees.known_of_calls rfl rfl fun given member clause same => gives clause ?_, grounded⟩
    obtain ⟨_, _, _, _, calls, _⟩ := Member.memberTurn_eq_ok took
    rw [calls] at member
    rcases List.mem_append.mp member with flushes | turns
    · split at flushes
      · cases List.mem_singleton.mp flushes
        cases same
      · cases flushes
    · cases List.mem_singleton.mp turns
      cases kind <;> exact same
  | preprocess theories prepared =>
    exact ⟨agrees.known_of_mute (Registry.changes_preprocess prepared).1
      (fun i m m' own => Member.Quiet.mute) agrees.stored, agrees.grounded⟩
  | clearSatisfied isNew theories cleared =>
    exact ⟨agrees.known_of_mute (Registry.changes_clearSatisfied cleared).1
      (fun i m m' own => Member.Quiet.mute) agrees.stored, agrees.grounded⟩
  | ask i m found call question theory answered =>
    refine ⟨agrees.known_of_calls rfl rfl fun given member clause same => ?_, agrees.grounded⟩
    cases List.mem_singleton.mp member
    cases call <;> first | exact question.elim | cases same
  | explain i m found l marker onTrail reasoned reason theory answered =>
    refine ⟨agrees.known_of_calls rfl rfl fun given member clause same => ?_, agrees.grounded⟩
    cases List.mem_singleton.mp member
    cases same
    exact agrees.reason h told found onTrail reasoned answered

/-- What is learnt on the way back holds as well. -/
theorem Jump.keeps (jump : Jump c c') (h : c.Coherent) (top : v topAtom = true) (agrees : c.Agrees v) :
    Move.Keeps v c c' := by
  have returned : ∀ level, (c.atoms.forgetAbove level).2.Grounded (c.theories.Grounds v) := fun level =>
    agrees.grounded.forgetAbove h.supports.atoms fun _ _ _ _ ground => ground
  cases jump with
  | retreat level low retracted theories undecided taken =>
    exact ⟨agrees.known_of_mute (Registry.changes_retreat undecided taken).1
      (fun i m m' own => Member.Returned.mute) agrees.stored, returned level⟩
  | learn key l lower level clauses retracted theories atoms distinct falsified current low below tight
      entailed keyed undecided taken made =>
    have holds := entailed v agrees.known
    refine ⟨agrees.known_of_mute (Registry.changes_retreat undecided taken).1
      (fun i m m' own => Member.Returned.mute) (agrees.store keyed holds), ?_⟩
    refine (returned level).assign made ⟨fun base => holds.of_others fun m member other => ?_, trivial⟩
    obtain ⟨i, given, le⟩ := below m ((List.mem_cons.mp member).resolve_left other)
    have zero : i = 0 := by
      rw [Atoms.level, Atoms.trail_forgetAbove, Trail.level_cutTo] at base
      change level < c.atoms.trail.level at low
      omega
    exact agrees.grounded.not_holds h.supports.atoms top (falsified m member) (zero ▸ given)

theorem Decide.keeps (decide : Decide c c') (agrees : c.Agrees v) : Move.Keeps v c c' := by
  cases decide with
  | decide l proposer theories atoms delivered opened made =>
    have changes := (Registry.changes_openLevel opened).1
    have mute : ∀ (i : Nat) (m m' : Member σ) own, Member.Raised i m m' own →
        ∀ call ∈ own, call.clause? = none := by
      intro i m m' own raised call member
      rw [raised.own] at member
      cases List.mem_singleton.mp member
      rfl
    have grounded : c.atoms.openLevel.Grounded (c.theories.Grounds v) := agrees.grounded
    refine ⟨?_, grounded.assign made ⟨fun base => ?_, trivial⟩⟩
    · cases proposer <;> exact agrees.known_of_mute ⟨changes.length, changes.member, changes.absent⟩ mute
        agrees.stored
    · rw [Atoms.level, Atoms.openLevel, Trail.level_openLevel] at base
      cases base

/-- A valuation that satisfies what is taken in satisfies what is known afterwards. -/
theorem Build.keeps (build : Build taking c c') (h : c.Coherent) (top : v topAtom = true)
    (taken : taking.SatisfiedBy v) (agrees : c.Agrees v) : Move.Keeps v c c' := by
  have unchanged := Registry.Changes.refl Member.Quiet.none c.theories
  have mute : ∀ (i : Nat) (m m' : Member σ) own, Member.Quiet i m m' own →
      ∀ call ∈ own, call.clause? = none := fun i m m' own => Member.Quiet.mute
  cases build with
  | fresh previous a atoms success =>
    obtain ⟨_, _, _, assignment⟩ := Atoms.fresh_eq_ok success
    refine ⟨agrees.known, fun l level reason assigned => agrees.grounded l level reason ?_⟩
    rwa [assignment] at assigned
  | give clause key clauses given base distinct known keyed state =>
    exact ⟨agrees.known_of_mute unchanged mute (agrees.store keyed (taken.clause _ given)),
      agrees.grounded⟩
  | giveUnit clause key clauses l atoms given base distinct known keyed state made =>
    have holds := taken.clause clause given
    exact ⟨agrees.known_of_mute unchanged mute (agrees.store keyed holds),
      agrees.grounded.assign made ⟨agrees.forced h top holds state, trivial⟩⟩
  | register theory outcome theories given base registered =>
    refine ⟨fun clause known => ?_, agrees.grounded⟩
    rcases known with ⟨key, found⟩ | ⟨i, call, member, gives⟩
    · exact agrees.stored key clause found
    · refine agrees.known clause (.inr ⟨i, call, ?_, gives⟩)
      rcases Registry.account_register registered i with same | ⟨_, same⟩
      · exact same ▸ member
      · rw [same] at member
        rcases List.mem_append.mp member with old | new
        · exact old
        · cases List.mem_singleton.mp new
          cases gives
  | observe i a base known m found new theory own inside late told =>
    refine ⟨agrees.known_of_calls rfl rfl fun call member clause same => ?_, agrees.grounded⟩
    obtain ⟨_, _, rfl⟩ := List.mem_map.mp member
    cases same

section Lawful

variable [LawfulConstraint σ]

/-- Every move keeps agreement with a valuation that satisfies what it takes in. -/
theorem Move.agrees (move : Move taking c c') (h : c.Coherent) (told : c.Told) (top : v topAtom = true)
    (taken : taking.SatisfiedBy v) (agrees : c.Agrees v) : c'.Agrees v := by
  have keeps : Move.Keeps v c c' ∧ c'.phase ≠ .unsatisfiable := by
    cases move with
    | draw move => exact ⟨move.keeps h told top agrees, move.frame.2.1 ▸ agrees.phase⟩
    | jump move => exact ⟨move.keeps h top agrees, by cases move <;> exact agrees.phase⟩
    | decide allowed move => exact ⟨move.keeps agrees, by cases move; exact Phase.noConfusion⟩
    | build move => exact ⟨move.keeps h top taken agrees, by cases move <;> exact agrees.phase⟩
    | settle phase before after => exact ⟨⟨agrees.known, agrees.grounded⟩, after⟩
    | configure settings given => exact ⟨⟨agrees.known, agrees.grounded⟩, agrees.phase⟩
  refine ⟨keeps.1.1, fun l level reason assigned => ?_, move.rooted told taken.theory agrees.rooted, keeps.2⟩
  have low := (move.coherent h).supports.atoms.levelOf_le_level (Atoms.levelOf_eq_some.mpr ⟨_, assigned, rfl⟩)
  obtain ⟨base, founds⟩ := keeps.1.2 l level reason assigned
  refine ⟨base, founds.mono (fun i root m stems => ?_) fun i => move.keepsTo told i low⟩
  obtain ⟨m', stems, _⟩ := move.stems stems
  exact ⟨m', stems⟩

theorem Moves.agrees (moves : Moves taking c c') (h : c.Coherent) (told : c.Told) (top : v topAtom = true)
    (taken : taking.SatisfiedBy v) (agrees : c.Agrees v) : c'.Agrees v := by
  induction moves with
  | refl => exact agrees
  | tail moves move ih => exact move.agrees (Moves.coherent moves h) (Moves.told moves h told) top taken ih

end Lawful

/-- It does not turn out that there is no solution while a valuation agrees. -/
theorem Refute.not_agrees (refute : Refute taking c c') (h : c.Coherent) (top : v topAtom = true)
    (taken : taking.SatisfiedBy v) : ¬c.Agrees v := by
  intro agrees
  cases refute with
  | base clause known falsified =>
    obtain ⟨l, member, holds⟩ := agrees.known clause known
    obtain ⟨value, given⟩ := falsified l member
    exact agrees.grounded.not_holds h.supports.atoms top value given holds
  | contradict clause key clauses given base distinct known stored state =>
    obtain ⟨l, member, holds⟩ := taken.clause clause given
    exact agrees.grounded.not_holds_of_base h.supports.atoms top base
      (Clause.stateOn_eq_falsified.mp state l member) holds
  | empty given base =>
    obtain ⟨l, member, _⟩ := taken.clause [] given
    cases member

theorem Context.Agrees.initial (settings : Settings) : (Context.ofSettings settings : Context σ).Agrees v where
  known := by
    rintro clause (⟨key, found⟩ | ⟨i, call, member, _⟩)
    · cases key <;> simp [Context.ofSettings, ClauseStore.get?] at found
    · simp [Context.ofSettings, Registry.ofSettings, Registry.account, Registry.callsOf] at member
  grounded := by
    intro l level reason assigned
    have coherent := (Context.Coherent.initial settings : (Context.ofSettings settings : Context σ).Coherent)
    have member := coherent.supports.atoms.mem_literals_iff.mpr ⟨level, reason, assigned⟩
    cases member
  rooted := by
    intro i m found
    simp [Context.ofSettings, Registry.ofSettings] at found
  phase := Phase.noConfusion

/-! ### Runs -/

/-- A valuation satisfies the clauses and the theories that a run has taken. -/
structure Solves (v : Atom → Bool) (events : List (Event σ)) : Prop where
  clauses : ∀ e ∈ events, ∀ clause, e.Accepts clause → clause.Holds v
  theories : ∀ e ∈ events, ∀ theory, e.Registers theory → Models v theory

variable [LawfulConstraint σ] {settings : Settings} {events : List (Event σ)} {s : Session σ}

/-- A valuation that satisfies what a run has taken agrees with the context. -/
theorem PublicRun.agrees (run : PublicRun settings events s) (top : v topAtom = true)
    (built : ∀ e ∈ events, ∀ theory, e.Registers theory → IsBuilt theory) (solves : Solves v events) :
    s.context.Told ∧ s.context.Agrees v := by
  induction run with
  | start => exact ⟨.initial settings, .initial settings⟩
  | @step events s earlier command allowed result s' taken ih =>
    obtain ⟨told, agrees⟩ := ih (fun e member => built e (List.mem_append_left _ member))
      ⟨fun e member => solves.clauses e (List.mem_append_left _ member),
        fun e member => solves.theories e (List.mem_append_left _ member)⟩
    have last : ⟨s, command, result, s'⟩ ∈ events ++ [(⟨s, command, result, s'⟩ : Event σ)] :=
      List.mem_append_right _ (.head _)
    have h := earlier.coherent.1
    have satisfied : (command.taking s.context result).SatisfiedBy v := by
      constructor
      · rintro d ⟨clause, outcome, same, accepted, members⟩
        exact (solves.clauses _ last clause ⟨same, outcome, accepted⟩).of_mem_iff members
      · rintro theory ⟨i, same, registered⟩
        have registers : (⟨s, command, result, s'⟩ : Event σ).Registers theory := ⟨same, i, registered⟩
        exact ⟨built _ last theory registers, solves.theories _ last theory registers⟩
    rcases (earlier.ran_step allowed taken).moves with moves | ⟨_, mid, moves, refuted⟩
    · exact ⟨moves.told h told, moves.agrees h told top satisfied agrees⟩
    · refine absurd (moves.agrees h told top satisfied agrees) ?_
      exact refuted.not_agrees (Moves.coherent moves h) top satisfied

/-- What the true atom is given in a valuation does not matter to clauses and theories on other atoms. -/
theorem Solves.with_top (solves : Solves v events)
    (proper : ∀ e ∈ events, ∀ clause, e.Accepts clause → ∀ l ∈ clause, l.atom ≠ topAtom)
    (built : ∀ e ∈ events, ∀ theory, e.Registers theory → IsBuilt theory) :
    Solves (fun a => if a = topAtom then true else v a) events where
  clauses e member clause accepts := by
    obtain ⟨l, inClause, holds⟩ := solves.clauses e member clause accepts
    refine ⟨l, inClause, ?_⟩
    rwa [Literal.Holds, if_neg (proper e member clause accepts l inClause)]
  theories e member theory registers := by
    refine LawfulConstraint.agree (fun a inTheory => ?_) (solves.theories e member theory registers)
    rw [if_neg (LawfulConstraint.proper (built e member theory registers) a inTheory)]

end SatModulo
