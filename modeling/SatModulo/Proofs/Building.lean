import SatModulo.Proofs.Courses

/-!
# The course of building operations

Atoms and observations are added by steps of any kind that has them (`Builds`), as moves do. Clauses and
theories are added by moves that take in nothing but what the operation was given.
A clause is answered for: it is a tautology, or stored with the same literals, or it shows that there is
no solution (`addClause_course`).
-/
namespace SatModulo

variable {σ : Type} [Theory σ] {c : Context σ} {taking : Intake σ}

theorem Move.begun (c : Context σ) :
    Relation.ReflTransGen (Move taking) c { c with phase := c.phase.begun } := by
  cases phase : c.phase with
  | configuration =>
    exact .single (.settle c .input (by rw [phase]; decide) (by decide))
  | _ =>
    have same : c = { c with phase := c.phase.begun } := by
      obtain ⟨_, _, _, _, _, _, _⟩ := c
      cases phase
      rfl
    rw [phase] at same
    exact same ▸ .refl

/-- Steps of a kind change the standings of theories, counts and the random generator. -/
def Adjusts (r : Context σ → Context σ → Prop) : Prop :=
  ∀ (c : Context σ) (random : Generator) (counters : Counters) (schedule : Schedule Activity),
    schedule.standings.length = c.theories.schedule.standings.length →
      r c { c with random, counters, theories := { c.theories with schedule } }

/-- Steps of a kind add atoms and observations. -/
structure Builds (r : Context σ → Context σ → Prop) : Prop where
  adjust : Adjusts r
  build : ∀ {c c' : Context σ}, Build {} c c' → r c c'
  begun : ∀ c : Context σ, Relation.ReflTransGen r c { c with phase := c.phase.begun }

theorem Builds.move : Builds (Move taking : Context σ → Context σ → Prop) where
  adjust c random counters schedule standings := .draw (.adjust c random counters schedule standings)
  build step := .build ((Intake.empty_le taking).build step)
  begun := Move.begun

theorem Schedule.length_modify {α : Type} {s s' : Schedule α} {i : Nat} {f : Standing α → Standing α}
    (success : s.modify i f = .ok s') : s'.standings.length = s.standings.length := by
  unfold Schedule.modify at success
  split at success
  · cases success
    exact List.length_modify ..
  · cases success

theorem Schedule.length_bump {α : Type} [Reckoning α] (s : Schedule α) (i : Nat) :
    (s.bump i).standings.length = s.standings.length := by
  unfold Schedule.bump
  split
  · rfl
  · split
    · simp [Schedule.rescale]
    · simp

theorem Schedule.length_bumpBy (conventions : Conventions) (s : Schedule Activity) (i : Nat) :
    (s.bumpBy conventions i).standings.length = s.standings.length := s.length_bump i

namespace Procedure

variable {r : Context σ → Context σ → Prop}

omit [Theory σ] in
theorem chance_leads (adjust : Adjusts r) (p : Float) :
    (chance p).Leads r c c fun _ after => ∃ random, after = { c with random } := by
  unfold chance
  refine .get_bind (.ofFaulty_bind fun (answer, random) _ => ?_)
  refine .modify_bind (.pure ?_ ⟨random, rfl⟩)
  exact .single (adjust c random c.counters c.theories.schedule rfl)

theorem freshAtom_leads (builds : Builds r) : (freshAtom : Procedure σ Atom).Leads r c c fun _ after =>
    after.level = c.level ∧ after.atoms.count = c.atoms.count + 1 := by
  unfold freshAtom
  refine .get_bind (.call (chance_leads builds.adjust _) .refl ?_)
  rintro previous after reached ⟨random, rfl⟩
  refine .get_bind (.ofExcept_bind reached (fun _ _ => rfl) fun (atom, atoms) success => ?_)
  have made := reached.tail (builds.build (.fresh _ previous atom atoms success))
  obtain ⟨_, counted, trail, _⟩ := Atoms.fresh_eq_ok success
  refine .modify_bind (.modify_bind (.pure (made.trans (builds.begun _)) ⟨?_, counted⟩))
  exact congrArg Trail.level trail

theorem freshOrMaxAtom_leads (builds : Builds r) :
    (freshOrMaxAtom : Procedure σ Atom).Leads r c c fun _ _ => True := by
  refine Ensures.tryCatch (freshAtom_leads builds) ?_ ?_
  · rintro a after ⟨reached, _⟩
    exact ⟨reached, trivial⟩
  · rintro e after ⟨reached, _⟩
    exact Leads.pure reached trivial

theorem freshLiterals_leads (builds : Builds r) (n : Nat) :
    (freshLiterals n : Procedure σ (List Literal)).Leads r c c fun _ _ => True := by
  induction n generalizing c with
  | zero => exact .pure .refl trivial
  | succ n ih =>
    refine .call (freshOrMaxAtom_leads builds) .refl fun a after reached _ => ?_
    exact .call ih reached fun rest final reached _ => .pure reached trivial

theorem freshAtoms_leads (builds : Builds r) (n : Nat) :
    (freshAtoms n : Procedure σ Unit).Leads r c c fun _ after =>
      after.level = c.level ∧ after.atoms.count = c.atoms.count + n := by
  induction n generalizing c with
  | zero => exact .pure .refl ⟨rfl, rfl⟩
  | succ n ih =>
    refine .call (freshAtom_leads builds) .refl fun a between reached ⟨level, counted⟩ => ?_
    refine (ih.from_start reached).mono (fun _ _ => id) fun _ after ⟨level', counted'⟩ => ?_
    exact ⟨level'.trans level, by omega⟩

theorem ensureAtom_leads (builds : Builds r) (a : Atom) :
    (ensureAtom a : Procedure σ Unit).Leads r c c fun _ after =>
      after.level = c.level ∧ c.atoms.count ≤ after.atoms.count ∧ a < after.atoms.count := by
  refine .get_bind ((freshAtoms_leads builds _).mono (fun _ _ => id) fun _ after ⟨level, counted⟩ => ?_)
  exact ⟨level, by lia, by lia⟩

theorem ensureAtoms_leads (builds : Builds r) (clause : Clause) :
    (ensureAtoms clause : Procedure σ Unit).Leads r c c fun _ after =>
      after.level = c.level ∧ c.atoms.count ≤ after.atoms.count ∧
        ∀ l ∈ clause, l.atom < after.atoms.count := by
  induction clause generalizing c with
  | nil => exact .pure .refl ⟨rfl, Nat.le_refl _, by simp⟩
  | cons l rest ih =>
    refine .call (ensureAtom_leads builds l.atom) .refl fun _ between reached ⟨level, more, known⟩ => ?_
    refine (ih.from_start reached).mono (fun _ _ => id) fun _ after ⟨level', more', others⟩ => ?_
    refine ⟨level'.trans level, Nat.le_trans more more', List.forall_mem_cons.mpr ⟨?_, others⟩⟩
    exact Nat.lt_of_lt_of_le known more'

omit [Theory σ] in
/-- A literal without a value whose atom is known can be made true. -/
theorem assign_unset {l : Literal} {reason : Reason} {post : Except Error Status → Context σ → Prop}
    (known : l.atom < c.atoms.count) (unset : c.valueOf l = none)
    (holds : ∀ atoms, c.atoms.assign l reason = .ok (.unset, atoms) →
      post (.ok .unset) { c with atoms }) : (assign l reason).Ensures c post := by
  have made : ∃ atoms, c.atoms.assign l reason = .ok (.unset, atoms) :=
    Atoms.assign_of_unvalued reason known (Atoms.value_eq_none.mp (Literal.valueOn_eq_none.mp unset))
  obtain ⟨atoms, made⟩ := made
  refine .get_bind (.ofExcept_bind (fun e failed => ?_) fun (status, atoms') success => ?_)
  · rw [made] at failed
    cases failed
  · rw [made] at success
    cases success
    exact .modify_bind (.pure (holds atoms made))

def givenOnly (clause : Clause) : Intake σ := { clause := fun d => ∀ l, l ∈ d ↔ l ∈ clause }

/-- What an answer to a clause means: where it was stored, or why not. -/
def ClauseAnswered (clause : Clause) (c : Context σ) (result : Except Error ClauseOutcome)
    (after : Context σ) : Prop :=
  match result with
  | .ok .unsatisfiable =>
    ∃ mid, Moves (givenOnly clause) c mid ∧ Refute (givenOnly clause) mid after
  | .ok .tautology => Moves {} c after ∧ ∃ l ∈ clause, l.negate ∈ clause
  | .ok (.added key) => Moves (givenOnly clause) c after ∧
    ∃ d, after.clauses.get? key = some d ∧ ∀ l, l ∈ d ↔ l ∈ clause
  | .error e => Moves {} c after ∧ e.conflict? = none

/-- What a clause comes to when it is added: its normal form is stored, and more is done only where that is a unit or
false. -/
theorem addClause_course (clause : Clause) :
    (addClause clause).Ensures c (ClauseAnswered clause c) := by
  unfold addClause
  refine .get_bind ?_
  dsimp only
  split
  · exact .throw_bind ⟨.refl, rfl⟩
  · rename_i base
    replace base : c.level = 0 := Decidable.not_not.mp base
    have ensured : (ensureAtoms clause : Procedure σ Unit).Leads (Move {}) c c fun _ after =>
        after.level = c.level ∧ c.atoms.count ≤ after.atoms.count ∧
          ∀ l ∈ clause, l.atom < after.atoms.count := ensureAtoms_leads .move clause
    refine .bind ensured (fun e after failed => failed) ?_
    rintro ⟨⟩ mid ⟨begun, level, _, known⟩
    replace base : mid.level = 0 := level.trans base
    have begunGiven : Moves (givenOnly clause) c mid := (Intake.empty_le _).moves begun
    refine .ofFaulty_bind fun normal normalised => ?_
    have sameLiterals := Clause.normalise_eq_ok normalised
    split
    · exact .pure ⟨begun, sameLiterals⟩
    · refine .modify_bind (.pure ⟨mid, begunGiven, ?_⟩)
      exact .empty mid sameLiterals.2 base
    · rename_i d _
      obtain ⟨distinct, same⟩ := sameLiterals
      have knownD : ∀ l ∈ d, l.atom < mid.atoms.count := fun l member =>
        known l ((same l).mp member)
      refine .get_bind (.get_bind (.ofExcept_bind (fun e _ => ⟨begun, rfl⟩) ?_))
      rintro ⟨key, clauses⟩ stored
      refine .modify_bind (.modify_bind ?_)
      dsimp only
      split
      · rename_i l unit
        obtain ⟨member, unset, _⟩ := Clause.stateOn_eq_unit unit
        refine .bind (m := fun result after => ∃ atoms,
            mid.atoms.assign l (.clause key) = .ok (.unset, atoms) ∧ result = .ok .unset ∧
              after = { mid with clauses, atoms, phase := mid.phase.begun })
          (assign_unset (knownD l member) unset fun atoms made => ⟨atoms, made, rfl, rfl⟩) ?_ ?_
        · rintro e after ⟨_, _, failed, _⟩
          cases failed
        · rintro status after ⟨atoms, made, _, rfl⟩
          have given := begunGiven.tail (.build (.giveUnit mid d key clauses l atoms same base distinct
            knownD stored unit made))
          exact .pure ⟨given.trans (Move.begun _), d, (ClauseStore.store_eq_ok stored).2.2.1, same⟩
      · rename_i falsified
        refine .modify_bind (.pure ⟨mid, begunGiven, ?_⟩)
        exact .contradict mid d key clauses same base distinct knownD stored falsified
      · rename_i unforced
        have given := begunGiven.tail (.build (.give mid d key clauses same base distinct knownD stored
          unforced))
        exact .pure ⟨given.trans (Move.begun _), d, (ClauseStore.store_eq_ok stored).2.2.1, same⟩

def registeredOnly (theory : σ) : Intake σ := { theory := fun t => t = theory }

theorem addTheory_course (theory : σ) :
    (addTheory theory).Ensures c fun result after =>
      match result with
      | .ok i => Moves (registeredOnly theory) c after ∧
        ∃ theories, c.theories.register theory = (.ok i, theories) ∧
          after = { c with theories, phase := c.phase.begun }
      | .error e => Moves {} c after ∧ e.conflict? = none := by
  unfold addTheory
  refine .get_bind ?_
  dsimp only
  split
  · exact .throw_bind ⟨.refl, rfl⟩
  · rename_i base
    replace base : c.level = 0 := Decidable.not_not.mp base
    rcases registered : c.theories.register theory with ⟨outcome, theories⟩
    refine .modify_bind (.ofExcept_bind ?_ ?_)
    · rintro e rfl
      exact ⟨.single (.build (.register c theory _ theories (fun _ no => by cases no) base registered)),
        rfl⟩
    · rintro index rfl
      have moved : Moves (registeredOnly theory) c { c with theories } :=
        .single (.build (.register c theory _ theories (fun _ _ => rfl) base registered))
      exact .modify_bind (.pure ⟨moved.trans (Move.begun _), theories, rfl, rfl⟩)

/-- A theory that is known observes the atom afterwards. -/
theorem observe_leads (builds : Builds r) (i : Nat) (a : Atom) :
    (observe i a : Procedure σ Unit).Leads r c c fun _ after =>
      ∃ m, after.theories.members[i]? = some m ∧ m.observes a := by
  unfold observe
  refine .get_bind ?_
  dsimp only
  split
  · exact .throw_bind .refl rfl
  · rename_i base
    replace base : c.level = 0 := Decidable.not_not.mp base
    split
    · exact .throw_bind .refl rfl
    · rename_i known
      refine .ofExcept_bind .refl (fun _ _ => rfl) fun (isNew, theories) success => ?_
      unfold Registry.observe at success
      split at success
      · cases success
      · rename_i m found
        split at success
        · rename_i observed
          cases success
          exact .modify_bind (.pure .refl ⟨m, found, observed⟩)
        · rename_i new
          cases success
          have observes : ∀ theory : σ,
              Member.observes { m with theory, observed := insertAtom a m.observed } a := fun _ =>
            decide_eq_true (mem_insertAtom.mpr (.inl rfl))
          refine .modify_bind ?_
          rw [if_pos rfl]
          refine .ofFaulty_bind fun (answer, theories) changed => ?_
          cases answer with
          | none =>
            obtain ⟨absent, _⟩ := Registry.changeAt_eq_none changed
            simp [(List.getElem?_eq_some_iff.mp found).1] at absent
          | some answer =>
            obtain ⟨m₁, m₂, own, found₁, told, rfl⟩ := Registry.changeAt_eq_ok changed
            obtain rfl : m₁ = { m with observed := insertAtom a m.observed } := by
              simpa [List.getElem?_set_self (List.getElem?_eq_some_iff.mp found).1] using found₁.symm
            simp only at told
            split at told
            · cases told
            · rename_i inside
              have last := (List.getElem?_eq_some_iff.mp found).1
              dsimp only
              rw [List.set_set]
              split at told
              · rename_i absent
                cases told
                refine .modify (.single (builds.build ?_))
                  ⟨_, List.getElem?_set_self last, observes m.theory⟩
                exact .observe c i a base (Nat.not_le.mp known) m found new m.theory []
                  (Nat.not_lt.mp inside) (by rw [absent]; rfl) rfl
              · rename_i l late
                obtain ⟨theory, enqueued, told⟩ := Except.bind_eq_ok told
                cases told
                refine .modify (.single (builds.build ?_))
                  ⟨_, List.getElem?_set_self last, observes theory⟩
                refine .observe c i a base (Nat.not_le.mp known) m found new theory [l]
                  (Nat.not_lt.mp inside) (by rw [late]; rfl) ?_
                rw [List.foldlM_cons, enqueued]
                rfl

omit [Theory σ] in
theorem setPriority_leads (adjust : Adjusts r) (i : Nat) (priority : Int) :
    (setPriority i priority : Procedure σ Unit).Leads r c c fun _ _ => True := by
  refine .get_bind (.ofExcept_bind .refl (fun _ _ => rfl) fun schedule changed => ?_)
  refine .modify (.single (adjust c c.random c.counters schedule ?_)) trivial
  exact Schedule.length_modify changed

omit [Theory σ] in
theorem setActivity_leads (adjust : Adjusts r) (i : Nat) (activity : Activity) :
    (setActivity i activity : Procedure σ Unit).Leads r c c fun _ _ => True := by
  refine .get_bind (.ofExcept_bind .refl (fun _ _ => rfl) fun schedule changed => ?_)
  refine .modify (.single (adjust c c.random c.counters schedule ?_)) trivial
  exact Schedule.length_modify changed

end Procedure

end SatModulo
