import SatModulo.Proofs.Hearing

/-!
# Coherence of a context

The invariant of all moves: atoms and clauses support each other, and every theory has a standing.
-/
namespace SatModulo

variable {σ : Type}

/-- Atoms and clauses support each other, and every theory has a standing. -/
structure Context.Coherent (c : Context σ) : Prop where
  supports : c.clauses.Supports c.atoms
  standings : c.theories.schedule.standings.length = c.theories.members.length

theorem Context.Coherent.initial (settings : Settings) :
    (Context.ofSettings settings : Context σ).Coherent where
  supports := .initial
  standings := rfl

variable [Theory σ] {c c' : Context σ} {taking : Intake σ}

theorem Draw.coherent (draw : Draw c c') (h : c.Coherent) : c'.Coherent where
  supports := by
    rw [draw.frame.1]
    exact h.supports.growsAll draw.grows
  standings := by
    have length : c'.theories.members.length = c.theories.members.length := by
      rcases draw.silent_or_caught with silent | ⟨_, caught⟩
      · exact silent.length
      · exact caught.length
    rw [draw.frame.2.2, length]
    exact h.standings

/-- The learnt clause explains the literal that it forces after the return. -/
private theorem explains_learnt {s atoms : Atoms} {l : Literal} {lower : List Literal} {key : ClauseKey}
    {level : Nat} (h : s.Coherent) (falsified : ∀ m ∈ l :: lower, s.valueOf m = some false)
    (below : ∀ m ∈ lower, ∃ i, s.levelOf m.atom = some i ∧ i ≤ level)
    (made : (s.forgetAbove level).2.assign l (.clause key) = .ok (.unset, atoms)) :
    atoms.Explains (l :: lower) l := by
  refine ⟨(s.forgetAbove level).2.trail.literals, ?_, .head _, fun m member other => ?_⟩
  · exact Atoms.literals_assign made ▸ List.prefix_refl _
  · have inLower : m ∈ lower := (List.mem_cons.mp member).resolve_left other
    obtain ⟨i, given, low⟩ := below m inLower
    refine Atoms.negate_mem_of_false (h.forgetAbove level) ?_
    have value := falsified m member
    rw [Atoms.valueOf, Literal.valueOn_eq_false, Atoms.value] at value ⊢
    rwa [ClauseStore.Supports.assignment_of_low h given low]

/-- Going back takes from the trail, from atoms and from theories what was above the level. -/
theorem Jump.coherent (jump : Jump c c') (h : c.Coherent) : c'.Coherent := by
  cases jump with
  | retreat level low retracted theories undecided taken =>
    obtain ⟨changes, schedule⟩ := Registry.changes_retreat undecided taken
    refine ⟨h.supports.forgetAbove level, ?_⟩
    rw [schedule, changes.length]
    exact h.standings
  | learn key l lower level clauses retracted theories atoms distinct falsified current low below tight
      entailed stored undecided taken made =>
    obtain ⟨changes, schedule⟩ := Registry.changes_retreat undecided taken
    have known : ∀ m ∈ l :: lower, m.atom < c.atoms.count := by
      intro m member
      have value := falsified m member
      rw [Context.valueOf, Atoms.valueOf, Literal.valueOn_eq_false, Atoms.value_eq_some] at value
      obtain ⟨given, assigned, _⟩ := value
      exact Atoms.lt_count_of_assignment assigned
    have added := (h.supports.add stored distinct known).forgetAbove level
    refine ⟨added.assign made fun key' same => ?_, ?_⟩
    · cases same
      exact ⟨l :: lower, (ClauseStore.store_eq_ok stored).2.2.1,
        explains_learnt h.supports.atoms falsified below made⟩
    · rw [schedule, changes.length]
      exact h.standings

theorem Decide.coherent (decide : Decide c c') (h : c.Coherent) : c'.Coherent := by
  cases decide with
  | decide l proposer theories atoms delivered opened made =>
    obtain ⟨changes, schedule, _⟩ := Registry.changes_openLevel opened
    refine ⟨h.supports.openLevel.assign made fun key same => (by cases same), ?_⟩
    cases proposer <;> simpa only [Registry.recordDecision, schedule, changes.length] using h.standings

/-- What registering a theory comes to: it is refused, or becomes the last member. -/
theorem Registry.register_eq {r r' : Registry σ} {theory : σ} {outcome : Except TheoryError Nat}
    (registered : r.register theory = (outcome, r')) :
    (∃ e, ∃ calls : List (Nat × Call), outcome = .error e ∧
        r' = { r with calls := r.calls ++ calls } ∧
        (calls = [] ∨ calls = [(r.count, .setIndex r.count)])) ∨
      outcome = .ok r.count ∧ Theory.index? theory = none ∧
        r' = { r with
          calls := r.calls ++ [(r.count, Call.setIndex r.count)]
          members := r.members ++
            [{ theory := Theory.setIndex r.count theory,
               capabilities := Theory.capabilities (Theory.setIndex r.count theory) }]
          schedule := r.schedule.register.2 } := by
  unfold Registry.register at registered
  split at registered
  · cases registered
    exact .inl ⟨_, [], rfl, by simp, .inl rfl⟩
  · rename_i noIndex
    simp only at registered
    split at registered
    · cases registered
      exact .inr ⟨rfl, noIndex, by simp⟩
    · cases registered
      exact .inl ⟨_, [_], rfl, by simp, .inr rfl⟩

theorem Build.coherent (build : Build taking c c') (h : c.Coherent) : c'.Coherent := by
  cases build with
  | fresh previous a atoms success => exact ⟨h.supports.fresh success, h.standings⟩
  | give clause key clauses given base distinct known stored state =>
    exact ⟨h.supports.add stored distinct known, h.standings⟩
  | giveUnit clause key clauses l atoms given base distinct known stored state made =>
    have added := h.supports.add stored distinct known
    exact ⟨added.force (ClauseStore.store_eq_ok stored).2.2.1 state made, h.standings⟩
  | register theory outcome theories given base registered =>
    refine ⟨h.supports, ?_⟩
    rcases Registry.register_eq registered with ⟨e, calls, _, rfl, _⟩ | ⟨_, _, rfl⟩
    · exact h.standings
    · simp [Schedule.register, h.standings]
  | observe i a base known m found new theory own inside late told =>
    exact ⟨h.supports, by simpa using h.standings⟩

theorem Move.coherent (move : Move taking c c') (h : c.Coherent) : c'.Coherent := by
  cases move with
  | draw move => exact move.coherent h
  | jump move => exact move.coherent h
  | decide allowed move => exact move.coherent h
  | build move => exact move.coherent h
  | settle phase before after => exact ⟨h.supports, h.standings⟩
  | configure settings given => exact ⟨h.supports, h.standings⟩

omit [Theory σ] in
theorem Refute.coherent (refute : Refute taking c c') (h : c.Coherent) : c'.Coherent := by
  cases refute with
  | base clause known falsified => exact ⟨h.supports, h.standings⟩
  | contradict clause key clauses given base distinct known stored state =>
    exact ⟨h.supports.add stored distinct known, h.standings⟩
  | empty given base => exact ⟨h.supports, h.standings⟩

theorem Moves.coherent (moves : Moves taking c c') (h : c.Coherent) : c'.Coherent := by
  induction moves with
  | refl => exact h
  | tail _ move ih => exact move.coherent ih

theorem Draws.coherent (draws : Draws c c') (h : c.Coherent) : c'.Coherent :=
  Moves.coherent (draws.moves : Moves {} c c') h

theorem Course.coherent (course : Course taking c c') (h : c.Coherent) : c'.Coherent := by
  rcases course with moves | ⟨mid, moves, refuted⟩
  · exact Moves.coherent moves h
  · exact refuted.coherent (Moves.coherent moves h)

end SatModulo
