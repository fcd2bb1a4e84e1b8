import SatModulo.Proofs.Moves
import SatModulo.Proofs.Turns

/-!
# Support of atoms by clauses

What atoms and a store of clauses keep of each other: values and trail say the same, the index names the
clauses of every literal, stored clauses are on distinct known atoms, and a literal that a stored clause
forced comes after the opposites of all others of the clause. Each operation on either keeps this.
-/
namespace SatModulo

/-- A clause explains a literal of the trail: it contains the literal, and every other literal of it was
false before. -/
def Atoms.Explains (s : Atoms) (clause : Clause) (l : Literal) : Prop :=
  ∃ earlier, earlier ++ [l] <+: s.trail.literals ∧ l ∈ clause ∧
    ∀ m ∈ clause, m ≠ l → m.negate ∈ earlier ∨ m.atom = topAtom

/-- Atoms and a store of clauses agree. -/
structure ClauseStore.Supports (store : ClauseStore) (s : Atoms) : Prop where
  atoms : s.Coherent
  indexed : store.Indexed
  distinct : ∀ key clause, store.get? key = some clause → (clause.map Literal.atom).Nodup
  known : ∀ key clause, store.get? key = some clause → ∀ l ∈ clause, l.atom < s.count
  because : ∀ l ∈ s.trail.literals, ∀ key, s.reasonOf l.atom = some (.clause key) →
    ∃ clause, store.get? key = some clause ∧ s.Explains clause l

/-- The trail grows by a consequence of a clause or of a theory, or its head moves on. -/
inductive ClauseStore.Grows (store : ClauseStore) : Atoms → Atoms → Prop
  | units {s s' : Atoms} (step : store.Propagates s s') : Grows store s s'
  | conclude {s s' : Atoms} (i : Nat) (step : s.Concludes i (fun _ _ => True) s') : Grows store s s'

/-- What stands before an element of a list without repetition is determined. -/
theorem eq_of_prefix_concat {α : Type} {xs first second : List α} {x : α} (distinct : xs.Nodup)
    (one : first ++ [x] <+: xs) (two : second ++ [x] <+: xs) : first = second := by
  have shorter : ∀ {a b : List α}, a ++ [x] <+: b ++ [x] → b ++ [x] <+: xs → a = b := by
    intro a b inside whole
    rcases List.prefix_concat_iff.mp inside with same | before
    · exact List.append_cancel_right same
    · have apart := distinct.sublist whole.sublist
      rw [List.nodup_append] at apart
      exact absurd rfl (apart.2.2 x (before.subset (by simp)) x (by simp))
  rcases List.prefix_or_prefix_of_prefix one two with inside | outside
  · exact shorter inside two
  · exact (shorter outside one).symm

/-- What stands before an element of a list stands before it on each beginning that still has the element. -/
theorem concat_isPrefix_of_mem {α : Type} {xs ys earlier : List α} {x : α} (distinct : xs.Nodup)
    (order : earlier ++ [x] <+: xs) (shorter : ys <+: xs) (kept : x ∈ ys) : earlier ++ [x] <+: ys := by
  rcases List.prefix_or_prefix_of_prefix order shorter with inside | outside
  · exact inside
  · -- A shorter list with the element in it would have the element twice.
    rcases List.prefix_concat_iff.mp outside with same | before
    · exact same ▸ List.prefix_refl _
    · have twice := distinct.sublist order.sublist
      rw [List.nodup_append] at twice
      exact absurd rfl (twice.2.2 x (before.subset kept) x (by simp))

namespace Atoms

variable {s s' : Atoms} {l : Literal} {clause : Clause} {reason : Reason}

theorem Explains.mono (explains : s.Explains clause l)
    (longer : s.trail.literals <+: s'.trail.literals) : s'.Explains clause l := by
  obtain ⟨earlier, order, member, others⟩ := explains
  exact ⟨earlier, order.trans longer, member, others⟩

/-- What explains a literal still does on any trail that begins in the same way up to the literal. -/
theorem Explains.of_common (explains : s.Explains clause l) (distinct : s.trail.literals.Nodup)
    {common : List Literal} (here : common <+: s.trail.literals) (there : common <+: s'.trail.literals)
    (kept : l ∈ common) : s'.Explains clause l := by
  obtain ⟨earlier, order, member, others⟩ := explains
  exact ⟨earlier, (concat_isPrefix_of_mem distinct order here kept).trans there, member, others⟩

/-- What explains a literal of the trail still does after a return that kept the literal. -/
theorem Explains.cut (explains : s.Explains clause l) (distinct : s.trail.literals.Nodup)
    (shorter : s'.trail.literals <+: s.trail.literals) (kept : l ∈ s'.trail.literals) :
    s'.Explains clause l :=
  explains.of_common distinct shorter (List.prefix_refl _) kept

theorem valueOf_falsum (h : s.Coherent) (top : l.atom = topAtom) : s.valueOf l = some false := by
  have code : l = .falsum := by
    obtain ⟨code⟩ := l
    simp only [Literal.atom, topAtom] at top
    simp only [Literal.falsum, Literal.mk.injEq]
    lia
  subst code
  rw [valueOf, Literal.valueOn_eq_false]
  exact value_eq_some.mpr ⟨_, h.top, rfl⟩

/-- A false literal has its opposite on the trail, but for the one that is always false. -/
theorem negate_mem_of_false (h : s.Coherent) (value : s.valueOf l = some false) :
    l.negate ∈ s.trail.literals ∨ l.atom = topAtom := by
  by_cases top : l.atom = topAtom
  · exact .inr top
  · exact .inl ((h.valueOf_eq_false top).mp value)

/-- The opposite of what is on the trail is false. -/
theorem Coherent.valueOf_negate (h : s.Coherent) (member : l ∈ s.trail.literals) :
    s.valueOf l.negate = some false := by
  rwa [h.valueOf_eq_false (by rw [Literal.atom_negate]; exact h.ne_top_of_mem member), Literal.negate_negate]

theorem reasonOf_assign (made : s.assign l reason = .ok (.unset, s')) (a : Atom) :
    s'.reasonOf a = if a = l.atom then some reason else s.reasonOf a := by
  obtain ⟨_, _, _, _, assignment⟩ := assign_eq_unset made
  rw [reasonOf, assignment]
  split
  · rfl
  · rfl

theorem levelOf_assign (made : s.assign l reason = .ok (.unset, s')) (a : Atom) :
    s'.levelOf a = if a = l.atom then some s.level else s.levelOf a := by
  obtain ⟨_, _, _, _, assignment⟩ := assign_eq_unset made
  rw [levelOf, assignment]
  split
  · rfl
  · rfl

theorem level_assign (made : s.assign l reason = .ok (.unset, s')) : s'.level = s.level := by
  obtain ⟨_, _, _, trail, _⟩ := assign_eq_unset made
  rw [level, trail, Trail.level_store]
  rfl

theorem stack_assign (made : s.assign l reason = .ok (.unset, s')) :
    s'.trail.stack = s.trail.stack.push l := by
  obtain ⟨_, _, _, trail, _⟩ := assign_eq_unset made
  rw [trail]
  rfl

theorem literals_assign (made : s.assign l reason = .ok (.unset, s')) :
    s'.trail.literals = s.trail.literals ++ [l] := by
  obtain ⟨_, _, _, trail, _⟩ := assign_eq_unset made
  rw [trail, Trail.literals_store]

theorem count_assign (made : s.assign l reason = .ok (.unset, s')) : s'.count = s.count :=
  (assign_eq_unset made).2.2.1

/-- A clause that forces a literal explains it once the literal is true. -/
theorem explains_of_unit (h : s.Coherent) (forces : clause.stateOn s.value = .unit l)
    (made : s.assign l reason = .ok (.unset, s')) : s'.Explains clause l := by
  obtain ⟨member, _, others⟩ := Clause.stateOn_eq_unit forces
  refine ⟨s.trail.literals, literals_assign made ▸ List.prefix_refl _, member, fun m inClause other => ?_⟩
  exact negate_mem_of_false h (others m inClause other)

end Atoms

namespace ClauseStore.Supports

variable {store store' : ClauseStore} {s s' : Atoms} {l : Literal} {reason : Reason}

theorem initial : Supports {} {} where
  atoms := .initial
  indexed := .initial
  distinct := by intro key clause found; cases key <;> simp [get?] at found
  known := by intro key clause found; cases key <;> simp [get?] at found
  because := by intro l member; cases member

/-- A literal may be made true for any reason that is no clause, or for a clause that explains it. -/
theorem assign (h : store.Supports s) (made : s.assign l reason = .ok (.unset, s'))
    (explained : ∀ key, reason = .clause key →
      ∃ clause, store.get? key = some clause ∧ s'.Explains clause l) : store.Supports s' where
  atoms := h.atoms.assign made
  indexed := h.indexed
  distinct := h.distinct
  known := by
    intro key clause found m member
    rw [Atoms.count_assign made]
    exact h.known key clause found m member
  because := by
    intro m member key reasoned
    rw [Atoms.reasonOf_assign made] at reasoned
    rw [Atoms.literals_assign made, List.mem_append, List.mem_singleton] at member
    rcases member with old | rfl
    · split at reasoned
      · -- The atom of the new literal had no value, so no literal of it was on the trail.
        rename_i same
        obtain ⟨level, given, assigned⟩ := h.atoms.mem_literals_iff.mp old
        rw [same, (Atoms.assign_eq_unset made).2.1] at assigned
        cases assigned
      · obtain ⟨clause, found, explains⟩ := h.because m old key reasoned
        exact ⟨clause, found, explains.mono (by rw [Atoms.literals_assign made]; simp)⟩
    · rw [if_pos rfl] at reasoned
      exact explained key (Option.some.inj reasoned)

theorem force (h : store.Supports s) {key : ClauseKey} {clause : Clause}
    (found : store.get? key = some clause) (forces : clause.stateOn s.value = .unit l)
    (made : s.assign l (.clause key) = .ok (.unset, s')) : store.Supports s' := by
  refine h.assign made fun key' same => ?_
  cases same
  exact ⟨clause, found, Atoms.explains_of_unit h.atoms forces made⟩

theorem grows (h : store.Supports s) (step : store.Grows s s') : store.Supports s' := by
  cases step with
  | units step =>
    cases step with
    | force _ key clause l found forces made => exact h.force found forces made
    | pass l next seen =>
      have inside : s.trail.head < s.trail.length := by
        rw [Trail.next] at next
        exact (List.getElem?_eq_some_iff.mp next).1
      exact ⟨h.atoms.setHead inside, h.indexed, h.distinct, h.known, h.because⟩
  | conclude i step =>
    obtain ⟨l, marker, _, made⟩ := step
    exact h.assign made fun key same => by cases same

theorem growsAll (h : store.Supports s) (steps : Relation.ReflTransGen store.Grows s s') :
    store.Supports s' := by
  induction steps with
  | refl => exact h
  | tail _ step ih => exact ih.grows step

theorem openLevel (h : store.Supports s) : store.Supports s.openLevel where
  atoms := h.atoms.openLevel
  indexed := h.indexed
  distinct := h.distinct
  known := h.known
  because := by
    intro l member key reasoned
    rw [Atoms.openLevel, Trail.literals_openLevel] at member
    obtain ⟨clause, found, explains⟩ := h.because l member key reasoned
    exact ⟨clause, found, explains.mono (s.trail.literals_openLevel.symm ▸ List.prefix_refl _)⟩

theorem fresh (h : store.Supports s) {previous : Bool} {a : Atom}
    (success : s.fresh previous = .ok (a, s')) : store.Supports s' := by
  obtain ⟨_, counted, trail, assignment⟩ := Atoms.fresh_eq_ok success
  refine ⟨h.atoms.fresh success, h.indexed, h.distinct, ?_, ?_⟩
  · intro key clause found l member
    exact Nat.lt_of_lt_of_le (h.known key clause found l member) (by omega)
  · intro l member key reasoned
    rw [trail] at member
    have reasoned : s.reasonOf l.atom = some (.clause key) := by
      rwa [Atoms.reasonOf, assignment] at reasoned
    obtain ⟨clause, found, explains⟩ := h.because l member key reasoned
    exact ⟨clause, found, explains.mono (trail.symm ▸ List.prefix_refl _)⟩

/-- What was assigned up to the level of a return is as it was. -/
theorem assignment_of_low (h : s.Coherent) {level i : Nat} {a : Atom} (given : s.levelOf a = some i)
    (low : i ≤ level) : (s.forgetAbove level).2.assignment a = s.assignment a := by
  obtain ⟨assigned, found, rfl⟩ := Atoms.levelOf_eq_some.mp given
  rw [h.assignment_forgetAbove, found, Option.filter_some_pos (by simpa using low)]

theorem assignment_of_high (h : s.Coherent) {level i : Nat} {a : Atom} (given : s.levelOf a = some i)
    (high : level < i) : (s.forgetAbove level).2.assignment a = none := by
  obtain ⟨assigned, found, rfl⟩ := Atoms.levelOf_eq_some.mp given
  rw [h.assignment_forgetAbove, found, Option.filter_some_neg (by simpa using high)]

/-- What was assigned to an atom of a literal that a return kept is as it was. -/
theorem assignment_of_kept (h : s.Coherent) {level : Nat}
    (kept : l ∈ (s.forgetAbove level).2.trail.literals) :
    (s.forgetAbove level).2.assignment l.atom = s.assignment l.atom := by
  obtain ⟨i, reason, assigned⟩ := (h.forgetAbove level).mem_literals_iff.mp kept
  rw [assigned]
  rw [h.assignment_forgetAbove, Option.filter_eq_some_iff] at assigned
  exact assigned.1.symm

/-- Reasons are earlier on the trail than what they explain, so a cut does not separate them. -/
theorem forgetAbove (h : store.Supports s) (level : Nat) :
    store.Supports (s.forgetAbove level).2 where
  atoms := h.atoms.forgetAbove level
  indexed := h.indexed
  distinct := h.distinct
  known := by
    intro key clause found l member
    rw [Atoms.count_forgetAbove]
    exact h.known key clause found l member
  because := by
    intro l member key reasoned
    have shorter : (s.forgetAbove level).2.trail.literals <+: s.trail.literals := by
      rw [Atoms.trail_forgetAbove]
      exact s.trail.literals_cutTo_isPrefix level
    rw [Atoms.reasonOf, assignment_of_kept h.atoms member] at reasoned
    obtain ⟨clause, found, explains⟩ := h.because l (shorter.subset member) key reasoned
    exact ⟨clause, found, explains.cut h.atoms.nodup shorter member⟩

theorem add (h : store.Supports s) {clause : Clause} {learnt : Bool} {key : ClauseKey}
    (stored : store.store clause learnt = .ok (key, store'))
    (distinct : (clause.map Literal.atom).Nodup) (known : ∀ l ∈ clause, l.atom < s.count) :
    store'.Supports s where
  atoms := h.atoms
  indexed := h.indexed.store stored
  distinct := by
    intro other d found
    rcases (get?_store_iff stored other d).mp found with old | ⟨_, rfl⟩
    · exact h.distinct other d old
    · exact distinct
  known := by
    intro other d found
    rcases (get?_store_iff stored other d).mp found with old | ⟨_, rfl⟩
    · exact h.known other d old
    · exact known
  because := by
    intro l member other reasoned
    obtain ⟨d, found, explains⟩ := h.because l member other reasoned
    exact ⟨d, get?_store stored found, explains⟩

end ClauseStore.Supports

end SatModulo
