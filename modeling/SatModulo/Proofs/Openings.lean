import SatModulo.Proofs.Consulting

/-!
# Decisions open levels

Every level above the base holds a literal, and a decision is the first literal of its level: nothing that
stands before it on the trail is of its level (`Atoms.Opened`). A theory that is named as a reason is
registered. Every move keeps this (`Moves.opened`): a level is opened by the decision that is made on it,
and what else is made true has a clause or a theory as its reason.
-/
namespace SatModulo

namespace Atoms

/-- No decision has a literal of its level before it. -/
def DecisionsFirst (s : Atoms) : Prop :=
  ∀ earlier l, earlier ++ [l] <+: s.trail.literals → s.reasonOf l.atom = some .decision →
    ∀ t ∈ earlier, s.levelOf t.atom ≠ s.levelOf l.atom

/-- Every level above the base holds a literal, and decisions come first. -/
structure Opened (s : Atoms) : Prop where
  inhabited : ∀ level, 0 < level → level ≤ s.level → s.trail.stack.entriesAt level ≠ []
  first : s.DecisionsFirst

variable {s s' : Atoms} {l : Literal} {reason : Reason}

/-- A literal that is made true keeps decisions first, if it is none or nothing is of its level. -/
private theorem DecisionsFirst.assign (first : s.DecisionsFirst) (h : s.Coherent)
    (made : s.assign l reason = .ok (.unset, s'))
    (alone : reason = .decision → ∀ t ∈ s.trail.literals, s.levelOf t.atom ≠ some s.level) :
    s'.DecisionsFirst := by
  have kept : ∀ t ∈ s.trail.literals, t.atom ≠ l.atom := by
    intro t member same
    obtain ⟨level, given, assigned⟩ := h.mem_literals_iff.mp member
    rw [same, (assign_eq_unset made).2.1] at assigned
    cases assigned
  intro earlier m order decided t before
  rw [literals_assign made, List.prefix_concat_iff] at order
  rw [reasonOf_assign made] at decided
  rcases order with whole | order
  · obtain ⟨rfl, last⟩ := List.append_inj' whole rfl
    obtain rfl := List.singleton_inj.mp last
    rw [if_pos rfl, Option.some.injEq] at decided
    rw [levelOf_assign made, levelOf_assign made, if_pos rfl, if_neg (kept t before)]
    exact alone decided t before
  · have memM := kept m (order.subset (by simp))
    have memT := kept t (order.subset (by simp [before]))
    rw [if_neg memM] at decided
    rw [levelOf_assign made, levelOf_assign made, if_neg memM, if_neg memT]
    exact first earlier m order decided t before

namespace Opened

theorem initial : Opened {} where
  inhabited level above low := absurd low (Nat.not_le.mpr above)
  first earlier l order := by simpa [Trail.literals, LevelStack.entries] using order.length_le

/-- A consequence goes to the end of the current level. -/
theorem assign (opened : s.Opened) (h : s.Coherent) (made : s.assign l reason = .ok (.unset, s'))
    (drawn : reason ≠ .decision) : s'.Opened where
  inhabited level above low := by
    rw [level_assign made] at low
    have before := opened.inhabited level above low
    rw [stack_assign made, LevelStack.entriesAt_push]
    split
    · simp
    · exact before
  first := opened.first.assign h made fun decided => absurd decided drawn

/-- A decision is made on a level of its own. -/
theorem decide (opened : s.Opened) (h : s.Coherent)
    (made : s.openLevel.assign l .decision = .ok (.unset, s')) : s'.Opened where
  inhabited level above low := by
    rw [level_assign made] at low
    rw [stack_assign made, LevelStack.entriesAt_push]
    split
    · simp
    · rename_i other
      change level ≤ s.trail.openLevel.level at low
      change level ≠ s.trail.openLevel.level at other
      rw [Trail.level_openLevel] at low other
      change s.trail.stack.openLevel.entriesAt level ≠ []
      rw [LevelStack.entriesAt_openLevel]
      refine opened.inhabited level above ?_
      rw [Atoms.level]
      omega
  first := by
    have first : s.openLevel.DecisionsFirst := by
      intro earlier l order
      rw [openLevel, Trail.literals_openLevel] at order
      exact opened.first earlier l order
    refine first.assign h.openLevel made fun _ t _ given => ?_
    have low := h.levelOf_le_level (a := t.atom) given
    change s.trail.openLevel.level ≤ s.trail.level at low
    rw [Trail.level_openLevel] at low
    omega

theorem setHead (opened : s.Opened) (head : Nat) : Opened { s with trail := { s.trail with head } } :=
  ⟨opened.inhabited, opened.first⟩

/-- The levels that stay keep the literals that lead them. -/
theorem forgetAbove (opened : s.Opened) (h : s.Coherent) (level : Nat) :
    (s.forgetAbove level).2.Opened where
  inhabited i above low := by
    rw [Atoms.level, trail_forgetAbove, Trail.level_cutTo] at low
    rw [trail_forgetAbove, Trail.stack_cutTo, LevelStack.entriesAt_cutTo, if_pos (by omega)]
    exact opened.inhabited i above (by rw [Atoms.level]; omega)
  first earlier l order decided t before := by
    have kept : ∀ m ∈ (s.forgetAbove level).2.trail.literals,
        (s.forgetAbove level).2.assignment m.atom = s.assignment m.atom := fun m member =>
      ClauseStore.Supports.assignment_of_kept h member
    have shorter : (s.forgetAbove level).2.trail.literals <+: s.trail.literals := by
      rw [trail_forgetAbove]
      exact s.trail.literals_cutTo_isPrefix level
    have sameL := kept l (order.subset (by simp))
    have sameT := kept t (order.subset (by simp [before]))
    rw [reasonOf, sameL] at decided
    rw [levelOf, levelOf, sameL, sameT]
    exact opened.first earlier l (order.trans shorter) decided t before

theorem fresh (opened : s.Opened) {previous : Bool} {a : Atom}
    (success : s.fresh previous = .ok (a, s')) : s'.Opened := by
  obtain ⟨_, _, trail, assignment⟩ := fresh_eq_ok success
  refine ⟨fun level above low => ?_, fun earlier l order decided t before => ?_⟩
  · rw [Atoms.level, trail] at low
    rw [trail]
    exact opened.inhabited level above low
  · rw [trail] at order
    rw [reasonOf, assignment] at decided
    rw [levelOf, levelOf, assignment]
    exact opened.first earlier l order decided t before

theorem grows {store : ClauseStore} (opened : s.Opened) (h : s.Coherent) (step : store.Grows s s') :
    s'.Opened := by
  cases step with
  | units step =>
    cases step with
    | force _ key clause l found forces made => exact opened.assign h made (by simp)
    | pass l next seen => exact opened.setHead _
  | conclude i step =>
    obtain ⟨l, marker, _, made⟩ := step
    exact opened.assign h made (by simp)

theorem growsAll {store : ClauseStore} (opened : s.Opened) (h : store.Supports s)
    (steps : Relation.ReflTransGen store.Grows s s') : s'.Opened := by
  induction steps with
  | refl => exact opened
  | tail steps step ih => exact ih.grows (h.growsAll steps).atoms step

end Opened

end Atoms

variable {σ : Type}

/-- Decisions open levels, and theories that are named as reasons are registered. -/
structure Context.Opened (c : Context σ) : Prop where
  atoms : c.atoms.Opened
  registered : ∀ a i marker, c.atoms.reasonOf a = some (.theory i marker) →
    i < c.theories.members.length

theorem Context.Opened.initial (settings : Settings) : (Context.ofSettings settings : Context σ).Opened where
  atoms := .initial
  registered a i marker reasoned := by
    obtain ⟨given, assigned, named⟩ := Atoms.reasonOf_eq_some.mp reasoned
    obtain rfl : a = topAtom := Nat.lt_one_iff.mp (Atoms.lt_count_of_assignment assigned)
    cases Atoms.Coherent.initial.top.symm.trans assigned
    cases named

theorem Context.Opened.assigned {c : Context σ} (opened : c.Opened) {s' : Atoms} {l : Literal}
    {reason : Reason} (made : c.atoms.assign l reason = .ok (.unset, s'))
    (named : ∀ i marker, reason = .theory i marker → i < c.theories.members.length) :
    ∀ a i marker, s'.reasonOf a = some (.theory i marker) → i < c.theories.members.length := by
  intro a i marker reasoned
  rw [Atoms.reasonOf_assign made] at reasoned
  split at reasoned
  · exact named i marker (Option.some.inj reasoned)
  · exact opened.registered a i marker reasoned

/-- A return gives no reason that was not there before. -/
theorem Atoms.reasonOf_forgetAbove {s : Atoms} (h : s.Coherent) {level : Nat} {a : Atom}
    {reason : Reason} (reasoned : (s.forgetAbove level).2.reasonOf a = some reason) :
    s.reasonOf a = some reason := by
  obtain ⟨given, assigned, named⟩ := reasonOf_eq_some.mp reasoned
  rw [h.assignment_forgetAbove, Option.filter_eq_some_iff] at assigned
  exact reasonOf_eq_some.mpr ⟨given, assigned.1, named⟩

variable [Theory σ] {c c' : Context σ} {taking : Intake σ}

theorem Draw.opened (draw : Draw c c') (h : c.Coherent) (opened : c.Opened) : c'.Opened where
  atoms := opened.atoms.growsAll h.supports draw.grows
  registered := by
    rw [draw.length_members]
    cases draw with
    | units atoms step =>
      cases step with
      | force _ key clause l found forces made => exact opened.assigned made fun _ _ same => by cases same
      | pass l next seen => exact opened.registered
    | turn i turn call kind conflict atoms theories taken =>
      obtain ⟨m, m', own, found, took, rfl⟩ := Registry.changeAt_eq_ok taken
      obtain ⟨flushed, -, ran, -⟩ := Member.memberTurn_eq_ok took
      have steps := ((turn flushed).allows_any.run ran).2
      have known := (List.getElem?_eq_some_iff.mp found).1
      -- The theory whose turn it is is the only one that is newly named.
      clear ran took taken
      induction steps with
      | refl => exact opened.registered
      | tail steps step ih =>
        obtain ⟨l, marker, _, made⟩ := step
        intro a j marker' reasoned
        rw [Atoms.reasonOf_assign made] at reasoned
        split at reasoned
        · cases reasoned
          exact known
        · exact ih a j marker' reasoned
    | _ => exact opened.registered

/-- No level is left empty by a return. -/
theorem Jump.opened (jump : Jump c c') (h : c.Coherent) (opened : c.Opened) : c'.Opened := by
  have back : ∀ level {a i marker}, (c.atoms.forgetAbove level).2.reasonOf a = some (.theory i marker) →
      i < c.theories.members.length := fun level _ _ _ reasoned =>
    opened.registered _ _ _ (Atoms.reasonOf_forgetAbove h.supports.atoms reasoned)
  cases jump with
  | retreat level low retracted theories undecided taken =>
    obtain ⟨changes, _⟩ := Registry.changes_retreat undecided taken
    refine ⟨opened.atoms.forgetAbove h.supports.atoms level, fun a i marker reasoned => ?_⟩
    rw [changes.length]
    exact back level reasoned
  | learn key l lower level clauses retracted theories atoms distinct falsified current low below tight
      entailed stored undecided taken made =>
    obtain ⟨changes, _⟩ := Registry.changes_retreat undecided taken
    have returned := opened.atoms.forgetAbove h.supports.atoms level
    refine ⟨returned.assign (h.supports.atoms.forgetAbove level) made (by simp),
      fun a i marker reasoned => ?_⟩
    rw [changes.length]
    rw [Atoms.reasonOf_assign made] at reasoned
    split at reasoned
    · cases reasoned
    · exact back level reasoned

theorem Decide.opened (decide : Decide c c') (h : c.Coherent) (opened : c.Opened) : c'.Opened := by
  cases decide with
  | decide l proposer theories atoms delivered opened' made =>
    obtain ⟨changes, _⟩ := Registry.changes_openLevel opened'
    refine ⟨opened.atoms.decide h.supports.atoms made, fun a i marker reasoned => ?_⟩
    have same : i < theories.members.length := by
      rw [changes.length]
      rw [Atoms.reasonOf_assign made] at reasoned
      split at reasoned
      · cases reasoned
      · exact opened.registered a i marker reasoned
    cases proposer <;> exact same

theorem Build.opened (build : Build taking c c') (h : c.Coherent) (opened : c.Opened) : c'.Opened := by
  cases build with
  | fresh previous a atoms success =>
    refine ⟨opened.atoms.fresh success, fun b i marker reasoned => ?_⟩
    rw [Atoms.reasonOf, (Atoms.fresh_eq_ok success).2.2.2] at reasoned
    exact opened.registered b i marker reasoned
  | give clause key clauses given base distinct known stored state =>
    exact ⟨opened.atoms, opened.registered⟩
  | giveUnit clause key clauses l atoms given base distinct known stored state made =>
    exact ⟨opened.atoms.assign h.supports.atoms made (by simp),
      opened.assigned made fun _ _ same => by cases same⟩
  | register theory outcome theories given base registered =>
    refine ⟨opened.atoms, fun a i marker reasoned => ?_⟩
    have before := opened.registered a i marker reasoned
    rcases Registry.register_eq registered with ⟨_, _, _, rfl, _⟩ | ⟨_, _, rfl⟩
    · exact before
    · rw [List.length_append]
      exact Nat.lt_add_right _ before
  | observe i a base known m found new theory own inside late told =>
    exact ⟨opened.atoms, by simpa using opened.registered⟩

theorem Move.opened (move : Move taking c c') (h : c.Coherent) (opened : c.Opened) : c'.Opened := by
  cases move with
  | draw move => exact move.opened h opened
  | jump move => exact move.opened h opened
  | decide allowed move => exact move.opened h opened
  | build move => exact move.opened h opened
  | settle phase before after => exact ⟨opened.atoms, opened.registered⟩
  | configure settings given => exact ⟨opened.atoms, opened.registered⟩

theorem Moves.opened (moves : Moves taking c c') (h : c.Coherent) (opened : c.Opened) : c'.Opened := by
  induction moves with
  | refl => exact opened
  | tail moves move ih => exact move.opened (Moves.coherent moves h) ih

theorem Draws.opened (draws : Draws c c') (h : c.Coherent) (opened : c.Opened) : c'.Opened :=
  Moves.opened (draws.moves : Moves {} c c') h opened

end SatModulo
