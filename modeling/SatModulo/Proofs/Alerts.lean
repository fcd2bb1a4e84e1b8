import SatModulo.Proofs.Delivery
import SatModulo.Proofs.Runs

/-!
# What leads to a false clause

A stored clause that is false has a literal whose opposite is still to be propagated
(`ClauseStore.Alerts`). Unlike clauses that force a literal, false ones are never lost: the head passes
the opposite of a literal of a false clause only if there is another one behind it, and what a return
keeps of them is behind the head again. So where nothing is left to be propagated no stored clause is
false, and where every atom has a value too, each has a true literal (`Context.Alerts.holds`).
-/
namespace SatModulo

theorem Atoms.Coherent.valueOf_of_forgetAbove {s : Atoms} (h : s.Coherent) {target : Nat} {l : Literal}
    {b : Bool} (value : (s.forgetAbove target).2.valueOf l = some b) : s.valueOf l = some b := by
  have given : ∀ v, (s.forgetAbove target).2.value l.atom = some v → s.value l.atom = some v := by
    intro v value
    rw [Atoms.value_eq_some] at value ⊢
    obtain ⟨assigned, found, same⟩ := value
    rw [h.assignment_forgetAbove, Option.filter_eq_some_iff] at found
    exact ⟨assigned, found.1, same⟩
  cases b with
  | true =>
    rw [Atoms.valueOf, Literal.valueOn_eq_true] at value ⊢
    exact given _ value
  | false =>
    rw [Atoms.valueOf, Literal.valueOn_eq_false] at value ⊢
    exact given _ value

namespace ClauseStore

variable {store store' : ClauseStore} {s s' : Atoms} {l : Literal} {reason : Reason}

/-- Every stored clause that is false has a literal whose opposite is still to be propagated. -/
def Alerts (store : ClauseStore) (s : Atoms) : Prop :=
  ∀ key clause, store.get? key = some clause → (∀ l ∈ clause, s.valueOf l = some false) →
    ∃ l ∈ clause, l.negate ∈ s.trail.literals.drop s.trail.head

namespace Alerts

theorem initial : Alerts {} {} := by
  intro key clause found
  cases key <;> simp [get?] at found

/-- A clause that becomes false by an assignment is led to by the literal that was assigned. -/
theorem assign (alerts : store.Alerts s) (h : s.Coherent) (made : s.assign l reason = .ok (.unset, s')) :
    store.Alerts s' := by
  intro key clause found falsified
  rw [Atoms.head_assign made, Atoms.literals_assign made, List.drop_append_of_le_length h.head_le]
  by_cases opposed : l.negate ∈ clause
  · refine ⟨l.negate, opposed, List.mem_append_right _ ?_⟩
    rw [Literal.negate_negate]
    exact .head _
  · obtain ⟨m, member, pending⟩ := alerts key clause found fun m member => by
      rw [← Atoms.valueOf_assign_of_ne made]
      · exact falsified m member
      · intro same
        rcases Literal.eq_or_eq_negate same with rfl | rfl
        · have isFalse := falsified m member
          rw [Atoms.valueOf_assign_self made] at isFalse
          cases isFalse
        · exact opposed member
    exact ⟨m, member, List.mem_append_left _ pending⟩

/-- The head may pass a literal once no clause with its opposite is missed. -/
theorem pass (alerts : store.Alerts s) (next : s.trail.next = some l)
    (seen : ∀ key clause, store.get? key = some clause → l.negate ∈ clause →
      ¬s.Missed (s.trail.head + 1) clause) :
    store.Alerts { s with trail.head := s.trail.head + 1 } := by
  intro key clause found falsified
  have falsified : ∀ m ∈ clause, s.valueOf m = some false := falsified
  obtain ⟨m, member, pending⟩ := alerts key clause found falsified
  obtain ⟨inside, isNext⟩ := List.getElem?_eq_some_iff.mp next
  rw [List.drop_eq_getElem_cons inside, isNext, List.mem_cons] at pending
  rcases pending with same | later
  · have opposed : l.negate ∈ clause := by
      rw [← same, Literal.negate_negate]
      exact member
    by_contra none'
    push Not at none'
    refine seen key clause found opposed ⟨?_, none'⟩
    rw [Clause.stateOn_eq_falsified.mpr falsified]
    exact ClauseState.noConfusion
  · exact ⟨m, member, later⟩

theorem grows (alerts : store.Alerts s) (h : s.Coherent) (step : store.Grows s s') : store.Alerts s' := by
  cases step with
  | units step =>
    cases step with
    | force _ key clause l found forces made => exact alerts.assign h made
    | pass l next seen => exact alerts.pass next seen
  | conclude i step =>
    obtain ⟨l, marker, _, made⟩ := step
    exact alerts.assign h made

theorem growsAll (alerts : store.Alerts s) (supports : store.Supports s)
    (steps : Relation.ReflTransGen store.Grows s s') : store.Alerts s' := by
  induction steps with
  | refl => exact alerts
  | tail steps step ih => exact ih.grows (supports.growsAll steps).atoms step

theorem openLevel (alerts : store.Alerts s) : store.Alerts s.openLevel := by
  intro key clause found falsified
  obtain ⟨l, member, pending⟩ := alerts key clause found falsified
  refine ⟨l, member, ?_⟩
  rw [Atoms.openLevel, Trail.literals_openLevel]
  exact pending

/-- A return puts the head behind what it keeps of the literals that were to be propagated. -/
theorem forgetAbove (alerts : store.Alerts s) (h : s.Coherent) (target : Nat) :
    store.Alerts (s.forgetAbove target).2 := by
  intro key clause found falsified
  have before : ∀ l ∈ clause, s.valueOf l = some false := fun l member =>
    h.valueOf_of_forgetAbove (falsified l member)
  obtain ⟨l, member, pending⟩ := alerts key clause found before
  have proper : l.atom ≠ topAtom := by
    rw [← Literal.atom_negate]
    exact h.ne_top_of_mem (List.mem_of_mem_drop pending)
  have kept := ((h.forgetAbove target).valueOf_eq_false proper).mp (falsified l member)
  refine ⟨l, member, ?_⟩
  rw [Atoms.trail_forgetAbove] at kept ⊢
  have behind := List.mem_drop_of_prefix h.nodup (s.trail.literals_cutTo_isPrefix target) pending kept
  refine List.drop_subset_drop_left _ ?_ behind
  rw [Trail.head_cutTo _ _ h.head_le]
  exact Nat.min_le_left _ _

theorem fresh (alerts : store.Alerts s) {previous : Bool} {a : Atom}
    (success : s.fresh previous = .ok (a, s')) : store.Alerts s' := by
  obtain ⟨_, _, trail, assignment⟩ := Atoms.fresh_eq_ok success
  have value : s'.value = s.value := funext fun a => by rw [Atoms.value, assignment, Atoms.value]
  intro key clause found falsified
  rw [trail]
  refine alerts key clause found fun l member => ?_
  rw [Atoms.valueOf, ← value]
  exact falsified l member

/-- A clause may be stored while it is not false. -/
theorem add (alerts : store.Alerts s) {clause : Clause} {learnt : Bool} {key : ClauseKey}
    (stored : store.store clause learnt = .ok (key, store'))
    (open' : clause.stateOn s.value ≠ .falsified) : store'.Alerts s := by
  intro other d found falsified
  rcases (get?_store_iff stored other d).mp found with old | ⟨_, rfl⟩
  · exact alerts other d old falsified
  · exact absurd (Clause.stateOn_eq_falsified.mpr falsified) open'

/-- A clause may be stored with a true literal. -/
theorem add_of_true (alerts : store.Alerts s) {clause : Clause} {learnt : Bool} {key : ClauseKey}
    (stored : store.store clause learnt = .ok (key, store')) (member : l ∈ clause)
    (isTrue : s.valueOf l = some true) : store'.Alerts s := by
  refine alerts.add stored ?_
  rw [Clause.stateOn_of_true member isTrue]
  exact ClauseState.noConfusion

end Alerts

end ClauseStore

variable {σ : Type} {c c' : Context σ} {taking : Intake σ}

def Context.Alerts (c : Context σ) : Prop := c.clauses.Alerts c.atoms

/-- Where nothing is left to be propagated and every atom has a value, each stored clause has a true
literal. -/
theorem Context.Alerts.holds (alerts : c.Alerts) (h : c.Coherent)
    (atEnd : c.atoms.trail.head = c.atoms.trail.length) {v : Atom → Bool}
    (full : ∀ a < c.atoms.count, c.atoms.value a = some (v a)) {key : ClauseKey} {clause : Clause}
    (found : c.clauses.get? key = some clause) : clause.Holds v := by
  by_contra none'
  have falsified : ∀ l ∈ clause, c.atoms.valueOf l = some false := by
    intro l member
    rw [Atoms.valueOf, Literal.valueOn_eq_false, full _ (h.supports.known key clause found l member)]
    refine congrArg some (Bool.eq_not_of_ne fun holds => none' ⟨l, member, holds⟩)
  obtain ⟨l, _, pending⟩ := alerts key clause found falsified
  rw [atEnd, Trail.length, List.drop_length] at pending
  cases pending

variable [Theory σ]

theorem Jump.alerts (jump : Jump c c') (h : c.Coherent) (alerts : c.Alerts) : c'.Alerts := by
  have coherent := h.supports.atoms
  cases jump with
  | retreat level low retracted theories undecided taken =>
    exact ClauseStore.Alerts.forgetAbove alerts coherent level
  | learn key l lower level clauses retracted theories atoms distinct falsified current low below tight
      entailed stored undecided taken made =>
    have returned := ClauseStore.Alerts.forgetAbove alerts coherent level
    exact (returned.assign (coherent.forgetAbove level) made).add_of_true stored (.head _)
      (Atoms.valueOf_assign_self made)

/-- A clause that is added is undecided, or a unit that is made true at once. -/
theorem Build.alerts (build : Build taking c c') (h : c.Coherent) (alerts : c.Alerts) : c'.Alerts := by
  cases build with
  | fresh previous a atoms success => exact ClauseStore.Alerts.fresh alerts success
  | give clause key clauses given base distinct known stored state =>
    refine ClauseStore.Alerts.add alerts stored ?_
    rw [state]
    exact ClauseState.noConfusion
  | giveUnit clause key clauses l atoms given base distinct known stored state made =>
    exact (ClauseStore.Alerts.assign alerts h.supports.atoms made).add_of_true stored
      (Clause.stateOn_eq_unit state).1 (Atoms.valueOf_assign_self made)
  | register theory outcome theories given base registered => exact alerts
  | observe i a base known m found new theory own inside late told => exact alerts

theorem Move.alerts (move : Move taking c c') (h : c.Coherent) (alerts : c.Alerts) : c'.Alerts := by
  cases move with
  | draw move =>
    rw [Context.Alerts, move.frame.1]
    exact ClauseStore.Alerts.growsAll alerts h.supports move.grows
  | jump move => exact move.alerts h alerts
  | decide allowed move =>
    cases move with
    | decide l proposer theories atoms delivered opened made =>
      exact (ClauseStore.Alerts.openLevel alerts).assign h.supports.openLevel.atoms made
  | build move => exact move.alerts h alerts
  | settle phase before after => exact alerts
  | configure settings given => exact alerts

theorem Moves.alerts (moves : Moves taking c c') (h : c.Coherent) (alerts : c.Alerts) : c'.Alerts := by
  induction moves with
  | refl => exact alerts
  | tail moves move ih => exact move.alerts (Moves.coherent moves h) ih

end SatModulo
