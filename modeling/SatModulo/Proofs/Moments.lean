import SatModulo.Proofs.Registration

/-!
# From moment to moment

What is so between two moments of a context. Values are only added (`Atoms.Extends`), or taken back and then
one is given (`Atoms.Falls`); either way an atom without a value remembers the last one. Only a decision
raises the level, so steps that decide at no lower level than where they begin go at no lower level than they
have at one of their ends (`Moves.above`). Both together is a passage (`Context.Passes`).
-/
namespace SatModulo

variable {σ : Type}

/-! ### Atoms from moment to moment -/

namespace Atoms

variable {s s' s'' : Atoms} {a : Atom} {l : Literal} {reason : Reason} {level : Nat}

/-- The value that an atom has, or else the one that it last had. -/
def lastValue (s : Atoms) (a : Atom) : Bool := (s.value a).getD (s.previousValue a)

theorem previousValue_of_unvalued (unvalued : s.value a = none) : s.previousValue a = s.lastValue a := by
  rw [lastValue, unvalued, Option.getD_none]

/-- What is taken back stays the last value. -/
@[simp] theorem lastValue_drop (s : Atoms) (a b : Atom) : (s.drop a).lastValue b = s.lastValue b := by
  unfold lastValue value assignment previousValue drop
  by_cases same : a = b
  · subst same
    simp only [Array.getElem?_modify, if_true]
    cases s.cells[a]? with
    | none => rfl
    | some cell => obtain ⟨_, _ | _⟩ := cell <;> rfl
  · simp [Array.getElem?_modify, same]

@[simp] theorem lastValue_forgetAbove (s : Atoms) (level : Nat) (a : Atom) :
    (s.forgetAbove level).2.lastValue a = s.lastValue a := by
  have dropped : ∀ (literals : List Literal) (t : Atoms),
      (literals.foldl (fun s l => s.drop l.atom) t).lastValue a = t.lastValue a := by
    intro literals
    induction literals with
    | nil => exact fun _ => rfl
    | cons l rest ih => exact fun t => (ih _).trans (lastValue_drop ..)
  exact dropped _ _

/-- Nothing is taken back. -/
structure Extends (s s' : Atoms) : Prop where
  count : s.count ≤ s'.count
  assignment : ∀ a given, s.assignment a = some given → s'.assignment a = some given
  previous : ∀ a < s.count, s'.previousValue a = s.previousValue a

/-- Values are taken back down to two levels in turn, and then one literal at most is made true, which was
false. -/
def Falls (s s' : Atoms) : Prop :=
  ∃ first second, s' = ((s.forgetAbove first).2.forgetAbove second).2 ∨
    ∃ l reason, s.valueOf l = some false ∧
      ((s.forgetAbove first).2.forgetAbove second).2.assign l reason = .ok (.unset, s')

/-- An atom without a value last had the value that it last had before. -/
def Remembers (s s' : Atoms) : Prop := ∀ a < s.count, s'.value a = none → s'.lastValue a = s.lastValue a

namespace Extends

theorem refl (s : Atoms) : s.Extends s := ⟨Nat.le_refl _, fun _ _ => id, fun _ _ => rfl⟩

theorem trans (first : s.Extends s') (second : s'.Extends s'') : s.Extends s'' where
  count := Nat.le_trans first.count second.count
  assignment a given assigned := second.assignment a given (first.assignment a given assigned)
  previous a known :=
    (second.previous a (Nat.lt_of_lt_of_le known first.count)).trans (first.previous a known)

theorem of_cells (same : s'.cells = s.cells) : s.Extends s' where
  count := Nat.le_of_eq (congrArg Array.size same.symm)
  assignment a given assigned := by
    rw [Atoms.assignment, same]
    exact assigned
  previous a _ := by rw [previousValue, same, previousValue]

theorem assign (made : s.assign l reason = .ok (.unset, s')) : s.Extends s' := by
  obtain ⟨_, unset, counted, _, assigned⟩ := assign_eq_unset made
  refine ⟨Nat.le_of_eq counted.symm, fun a given found => ?_, fun a _ => ?_⟩
  · rw [assigned, if_neg, found]
    rintro rfl
    rw [unset] at found
    cases found
  · obtain ⟨known, status, _⟩ := assign_eq_ok made
    unfold Atoms.assign at made
    rw [if_pos known, status] at made
    cases made
    unfold previousValue
    rw [Array.getElem?_modify]
    split <;> cases s.cells[a]? <;> rfl

theorem fresh {previous : Bool} (success : s.fresh previous = .ok (a, s')) : s.Extends s' := by
  obtain ⟨room, counted, _, assigned⟩ := fresh_eq_ok success
  refine ⟨by omega, fun a given found => by rwa [assigned], fun b known => ?_⟩
  rw [Atoms.fresh, if_pos room] at success
  cases success
  unfold previousValue
  rw [Array.getElem?_push_lt known, Array.getElem?_eq_getElem known]

theorem growsAll {store : ClauseStore} (steps : Relation.ReflTransGen store.Grows s s') :
    s.Extends s' := by
  induction steps with
  | refl => exact .refl s
  | tail _ step ih =>
    refine ih.trans ?_
    cases step with
    | units step =>
      cases step with
      | force _ key clause l found forces made => exact .assign made
      | pass => exact .of_cells rfl
    | conclude i step =>
      obtain ⟨l, marker, _, made⟩ := step
      exact .assign made

/-- What has no value had none before. -/
theorem value_eq_none (ext : s.Extends s') (unvalued : s'.value a = none) : s.value a = none := by
  rw [Atoms.value_eq_none] at unvalued ⊢
  cases assigned : s.assignment a with
  | none => rfl
  | some given => rw [ext.assignment a given assigned] at unvalued; cases unvalued

theorem remembers (ext : s.Extends s') : s.Remembers s' := fun a known unvalued => by
  rw [← previousValue_of_unvalued unvalued, ← previousValue_of_unvalued (ext.value_eq_none unvalued)]
  exact ext.previous a known

end Extends

theorem Falls.count_eq (falls : s.Falls s') : s'.count = s.count := by
  obtain ⟨first, second, rfl | ⟨l, reason, _, made⟩⟩ := falls
  · simp
  · rw [(assign_eq_unset made).2.2.1]
    simp

theorem Falls.remembers (falls : s.Falls s') : s.Remembers s' := by
  obtain ⟨first, second, rfl | ⟨l, reason, _, made⟩⟩ := falls
  · intro a _ _
    simp
  · intro a known unvalued
    rw [(Extends.assign made).remembers a (by simpa using known) unvalued]
    simp

/-- What is not taken back is as it was: the literal that was made true is another. -/
theorem Falls.assignment_eq (falls : s.Falls s') (h : s.Coherent) (before : l ∈ s.trail.literals)
    (after : l ∈ s'.trail.literals) : s'.assignment l.atom = s.assignment l.atom := by
  obtain ⟨first, second, outcome⟩ := falls
  have h' := (h.forgetAbove first).forgetAbove second
  have kept : ∀ given, ((s.forgetAbove first).2.forgetAbove second).2.assignment l.atom = some given →
      s.assignment l.atom = some given := by
    intro given assigned
    rw [(h.forgetAbove first).assignment_forgetAbove, Option.filter_eq_some_iff, h.assignment_forgetAbove,
      Option.filter_eq_some_iff] at assigned
    exact assigned.1.1
  rcases outcome with rfl | ⟨k, reason, isFalse, made⟩
  · obtain ⟨level, reason, assigned⟩ := h'.mem_literals_iff.mp after
    rw [assigned, kept _ assigned]
  · rw [literals_assign made, List.mem_append, List.mem_singleton] at after
    have other : l ≠ k := by
      rintro rfl
      rw [h.valueOf_of_mem before] at isFalse
      cases isFalse
    obtain ⟨level, reason, assigned⟩ := h'.mem_literals_iff.mp (after.resolve_right other)
    rw [(Extends.assign made).assignment _ _ assigned, kept _ assigned]

end Atoms

/-! ### Contexts from moment to moment -/

variable [Theory σ] {c c' : Context σ} {taking : Intake σ} {floor : Nat}

namespace Context

/-- A move, or that it turns out that there is no solution. -/
def Step (taking : Intake σ) (c c' : Context σ) : Prop := Move taking c c' ∨ Refute taking c c'

namespace Step

theorem coherent (step : Step taking c c') (h : c.Coherent) : c'.Coherent :=
  step.elim (·.coherent h) (·.coherent h)

theorem told (step : Step taking c c') (h : c.Coherent) (told : c.Told) : c'.Told :=
  step.elim (fun move => Moves.told (.single move) h told) fun refuted => refuted.told told

end Step

/-- Steps, all to contexts of no lower level than the given one. -/
abbrev Above (taking : Intake σ) (floor : Nat) : Context σ → Context σ → Prop :=
  Relation.ReflTransGen fun c c' => Step taking c c' ∧ floor ≤ c'.level

/-- What steps keep is kept along steps. -/
theorem Above.keeps (keeps : Context σ → Prop) (above : Above taking floor c c') (h : c.Coherent)
    (told : c.Told) (kept : keeps c)
    (step : ∀ {c c' : Context σ}, Step taking c c' → floor ≤ c'.level → c.Coherent → c.Told → keeps c →
      keeps c') : c'.Coherent ∧ c'.Told ∧ keeps c' := by
  induction above with
  | refl => exact ⟨h, told, kept⟩
  | tail _ last ih =>
    obtain ⟨h, told, kept⟩ := ih
    exact ⟨last.1.coherent h, last.1.told h told, step last.1 last.2 h told kept⟩

end Context

theorem Jump.level_lt (jump : Jump c c') : c'.level < c.level := by
  have returned : ∀ level < c.level, (c.atoms.forgetAbove level).2.level < c.level := by
    intro level low
    rw [Atoms.level, Atoms.trail_forgetAbove, Trail.level_cutTo]
    exact Nat.lt_of_le_of_lt (Nat.min_le_left ..) low
  cases jump with
  | retreat level low => exact returned level low
  | learn key l lower level clauses retracted theories atoms distinct falsified current low below tight
      entailed stored undecided taken made =>
    exact Nat.lt_of_le_of_lt (Nat.le_of_eq (Atoms.level_assign made)) (returned level low)

/-- Only a decision raises the level. -/
theorem Move.level_le (move : Move taking c c') (undecided : ¬taking.decides c) : c'.level ≤ c.level := by
  cases move with
  | draw move => exact Nat.le_of_eq (Draws.frame (.single move)).2.1
  | jump move => exact Nat.le_of_lt move.level_lt
  | decide allowed => exact absurd allowed undecided
  | build move =>
    cases move with
    | fresh previous a atoms success =>
      exact Nat.le_of_eq (congrArg Trail.level (Atoms.fresh_eq_ok success).2.2.1)
    | giveUnit clause key clauses l atoms given base distinct known stored state made =>
      exact Nat.le_of_eq (Atoms.level_assign made)
    | _ => exact Nat.le_refl _
  | settle => exact Nat.le_refl _
  | configure => exact Nat.le_refl _

/-- Below the level from which decisions are made the level only falls. -/
theorem Moves.level_le {low : Nat} (moves : Moves taking c c')
    (decides : ∀ mid, taking.decides mid → low ≤ mid.level) (below : c.level < low) :
    c'.level ≤ c.level := by
  induction moves with
  | refl => exact Nat.le_refl _
  | @tail between _ _ move ih =>
    refine Nat.le_trans (move.level_le fun decided => ?_) ih
    exact absurd (decides _ decided) (Nat.not_le.mpr (Nat.lt_of_le_of_lt ih below))

/-- Moves that decide from no lower level than the first go at no lower level than the first or the last. -/
theorem Moves.above (moves : Moves taking c c') (decides : ∀ mid, taking.decides mid → c.level ≤ mid.level)
    (first : floor ≤ c.level) (last : floor ≤ c'.level) : Context.Above taking floor c c' := by
  have high : ∀ mid, Moves taking mid c' → floor ≤ mid.level := by
    intro mid rest
    by_contra low
    exact low (Nat.le_trans last (Moves.level_le rest decides (by omega)))
  suffices ∀ mid, Moves taking mid c' → Context.Above taking floor mid c' from this c moves
  intro mid rest
  induction rest using Relation.ReflTransGen.head_induction_on with
  | refl => exact .refl
  | head move rest ih => exact .head ⟨.inl move, high _ rest⟩ ih

theorem Course.above (course : Course taking c c') (decides : ∀ mid, taking.decides mid → c.level ≤ mid.level)
    (first : floor ≤ c.level) (last : floor ≤ c'.level) : Context.Above taking floor c c' := by
  rcases course with moves | ⟨mid, moves, refuted⟩
  · exact moves.above decides first last
  · have same : c'.level = mid.level := congrArg Atoms.level refuted.frame.1
    exact (moves.above decides first (same ▸ last)).tail ⟨.inr refuted, last⟩

/-- Anything is taken in, but only theories of a kind. -/
def Intake.ofKind (kind : σ → Prop) : Intake σ := ⟨fun _ => True, kind, fun _ => True, fun _ => True⟩

omit [Theory σ] in
theorem Intake.le_ofKind {kind : σ → Prop} (kinds : ∀ theory, taking.theory theory → kind theory) :
    taking.Le (.ofKind kind) :=
  ⟨fun _ _ => trivial, kinds, fun _ _ => trivial, fun _ _ => trivial⟩

theorem Intake.Le.above {less more : Intake σ} (le : less.Le more) (above : Context.Above less floor c c') :
    Context.Above more floor c c' :=
  above.lift id fun _ _ ⟨step, high⟩ => ⟨step.imp le.move le.refute, high⟩

/-- A context comes to another at no lower level than that of one of the two, taking in theories of a kind.
No value is taken back, or values are and then at most one is given. -/
structure Context.Passes (kind : σ → Prop) (c c' : Context σ) : Prop where
  above : ∀ floor ≤ c.level, floor ≤ c'.level → Above (.ofKind kind) floor c c'
  atoms : c.atoms.Extends c'.atoms ∨ c.atoms.Falls c'.atoms

namespace Context.Passes

variable {kind : σ → Prop}

theorem refl (c : Context σ) : c.Passes kind c := ⟨fun _ _ _ => .refl, .inl (.refl _)⟩

theorem remembers (passes : c.Passes kind c') : c.atoms.Remembers c'.atoms :=
  passes.atoms.elim Atoms.Extends.remembers Atoms.Falls.remembers

theorem count_le (passes : c.Passes kind c') : c.atoms.count ≤ c'.atoms.count :=
  passes.atoms.elim Atoms.Extends.count fun falls => Nat.le_of_eq falls.count_eq.symm

/-- What the steps between moments keep is kept from moment to moment. -/
theorem keeps (passes : c.Passes kind c') (keeps : Context σ → Prop) (h : c.Coherent)
    (told : c.Told) (kept : keeps c)
    (step : ∀ {c c' : Context σ}, Step (.ofKind kind) c c' → c.Coherent → c.Told → keeps c → keeps c') :
    c'.Coherent ∧ c'.Told ∧ keeps c' :=
  (passes.above 0 (Nat.zero_le _) (Nat.zero_le _)).keeps keeps h told kept fun taken _ => step taken

end Context.Passes

theorem Course.passes {kind : σ → Prop} (course : Course taking c c')
    (kinds : ∀ theory, taking.theory theory → kind theory)
    (decides : ∀ mid, taking.decides mid → c.level ≤ mid.level)
    (atoms : c.atoms.Extends c'.atoms ∨ c.atoms.Falls c'.atoms) : c.Passes kind c' where
  above _ first last := (Intake.le_ofKind kinds).above (course.above decides first last)
  atoms

end SatModulo
