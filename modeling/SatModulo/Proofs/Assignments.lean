import SatModulo.Atoms
import SatModulo.Proofs.Levels
import Mathlib.Data.List.Nodup

/-!
# Assignments and the trail

The values of atoms and the trail say the same: an atom other than the true one has a value exactly if
one of its literals is on the trail, and the level of the value is the level of the literal
(`Coherent`). Every operation on atoms keeps this, and each has one equation that says what becomes of
an assignment.
-/
namespace SatModulo

namespace Literal

theorem eq_of_atom_of_polarity {l m : Literal} (sameAtom : l.atom = m.atom)
    (samePolarity : l.polarity = m.polarity) : l = m := by
  obtain ⟨code⟩ := l
  obtain ⟨code'⟩ := m
  simp only [atom, polarity, decide_eq_decide, mk.injEq] at *
  lia

/-- The literal of an atom and a polarity, in the range where it exists. -/
def on (a : Atom) (value : Bool) : Literal := ⟨if value then a else -a⟩

@[simp] theorem atom_on (a : Atom) (value : Bool) : (on a value).atom = a := by
  cases value <;> simp [on, atom]

theorem polarity_on {a : Atom} (proper : a ≠ topAtom) (value : Bool) : (on a value).polarity = value := by
  simp only [topAtom] at proper
  cases value
  · simp [on, polarity]
  · simp only [on, polarity, if_true, decide_eq_true_eq]
    lia

/-- In the range of atoms the positive literal of an atom is on the atom. -/
theorem positive_of_le {a : Atom} (inRange : a ≤ maxAtom) : positive a = on a true := by
  have top : maxAtom = 2147483647 := by decide
  rw [top] at inRange
  have same : Int.bmod (a : Int) 4294967296 = a :=
    Int.bmod_eq_of_le_mul_two (by simp only [Atom] at *; omega) (by simp only [Atom] at *; omega)
  exact congrArg mk same

/-- Only the least literal has no negation, and its atom is out of range. -/
theorem negate?_of_le {l : Literal} (inRange : l.atom ≤ maxAtom) : l.negate? = .ok l.negate := by
  refine if_neg ?_
  rintro rfl
  exact absurd inRange (by decide)

theorem ofAtom_of_le {a : Atom} (inRange : a ≤ maxAtom) (value : Bool) :
    ofAtom a value = .ok (on a value) := by
  unfold ofAtom
  rw [positive_of_le inRange]
  cases value with
  | true => rfl
  | false =>
    rw [if_neg Bool.false_ne_true, negate?_of_le (by rwa [atom_on])]
    rfl

theorem ofAtom_eq_ok {a : Atom} {value : Bool} {l : Literal} (inRange : a ≤ maxAtom)
    (success : ofAtom a value = .ok l) : l = on a value := by
  rw [ofAtom_of_le inRange] at success
  cases success
  rfl

theorem polarity_negate {l : Literal} (proper : l.atom ≠ topAtom) : l.negate.polarity = !l.polarity := by
  obtain ⟨code⟩ := l
  simp only [atom, topAtom] at proper
  rcases Int.lt_or_gt_of_ne (show code ≠ 0 by lia) with negative | positive
  · simp [polarity, negate, negative, Int.le_of_lt negative]
  · simp [polarity, negate, positive, Int.le_of_lt positive]

theorem negate_ne {l : Literal} (proper : l.atom ≠ topAtom) : l.negate ≠ l := by
  intro same
  have flipped := polarity_negate proper
  rw [same] at flipped
  cases value : l.polarity <;> simp [value] at flipped

theorem eq_or_eq_negate {l m : Literal} (same : l.atom = m.atom) : l = m ∨ l = m.negate := by
  obtain ⟨code⟩ := l
  obtain ⟨code'⟩ := m
  simp only [atom, negate, mk.injEq] at *
  lia

variable {value : Atom → Option Bool} {l : Literal}

theorem valueOn_eq_true : l.valueOn value = some true ↔ value l.atom = some l.polarity := by
  cases given : value l.atom <;> simp [valueOn, given]

theorem valueOn_eq_false : l.valueOn value = some false ↔ value l.atom = some !l.polarity := by
  cases given : value l.atom with
  | none => simp [valueOn, given]
  | some v => cases v <;> cases polarity : l.polarity <;> simp [valueOn, given, polarity]

theorem valueOn_eq_none : l.valueOn value = none ↔ value l.atom = none := by
  simp [valueOn]

theorem statusOn_eq_same : l.statusOn value = .same ↔ l.valueOn value = some true := by
  unfold statusOn
  split <;> simp_all

theorem statusOn_eq_different : l.statusOn value = .different ↔ l.valueOn value = some false := by
  unfold statusOn
  split <;> simp_all

theorem statusOn_eq_unset : l.statusOn value = .unset ↔ l.valueOn value = none := by
  unfold statusOn
  split <;> simp_all

end Literal

namespace Trail

@[simp] theorem head_store (t : Trail) (l : Literal) : (t.store l).head = t.head := rfl

theorem stack_cutTo (t : Trail) (target : Nat) : (t.cutTo target).2.stack = t.stack.cutTo target := by
  unfold cutTo
  split
  · rfl
  · exact (t.stack.cutTo_of_le target (by rename_i high; exact Nat.not_lt.mp high)).symm

theorem literals_cutTo_isPrefix (t : Trail) (target : Nat) : (t.cutTo target).2.literals <+: t.literals :=
  ⟨_, t.literals_cutTo_append target⟩

/-- The head after a cut, where it was within the trail. -/
theorem head_cutTo (t : Trail) (target : Nat) (inside : t.head ≤ t.length) :
    (t.cutTo target).2.head = min t.head (t.cutTo target).2.length := by
  unfold cutTo
  split
  · rfl
  · exact (Nat.min_eq_left inside).symm

end Trail

namespace Atoms

theorem value_eq_none {s : Atoms} {a : Atom} : s.value a = none ↔ s.assignment a = none := by
  simp [value]

theorem value_eq_some {s : Atoms} {a : Atom} {v : Bool} :
    s.value a = some v ↔ ∃ given, s.assignment a = some given ∧ given.value = v := by
  simp [value]

theorem levelOf_eq_some {s : Atoms} {a : Atom} {level : Nat} :
    s.levelOf a = some level ↔ ∃ given, s.assignment a = some given ∧ given.level = level := by
  simp [levelOf]

theorem reasonOf_eq_some {s : Atoms} {a : Atom} {reason : Reason} :
    s.reasonOf a = some reason ↔ ∃ given, s.assignment a = some given ∧ given.reason = some reason := by
  simp [reasonOf, Option.bind_eq_some_iff]

theorem lt_count_of_assignment {s : Atoms} {a : Atom} {given : Assignment}
    (assigned : s.assignment a = some given) : a < s.count := by
  by_contra beyond
  rw [assignment, Array.getElem?_eq_none (Nat.not_lt.mp beyond)] at assigned
  cases assigned

/-- Values and trail say the same. -/
structure Coherent (s : Atoms) : Prop where
  room : s.count ≤ maxAtom + 1
  top : s.assignment topAtom = some ⟨true, 0, none⟩
  mem_entriesAt_iff : ∀ l level, l ∈ s.trail.stack.entriesAt level ↔
    ∃ reason, s.assignment l.atom = some ⟨l.polarity, level, some reason⟩
  reasoned : ∀ a given, s.assignment a = some given → a ≠ topAtom → given.reason.isSome
  distinct : (s.trail.literals.map Literal.atom).Nodup
  head_le : s.trail.head ≤ s.trail.length

namespace Coherent

variable {s : Atoms} {l m : Literal}

theorem initial : Coherent {} where
  room := by simp [count, maxAtom]
  top := rfl
  mem_entriesAt_iff := by
    intro l level
    have empty : ({} : Atoms).trail.stack.entriesAt level = [] := by
      cases level <;> rfl
    rw [empty]
    constructor
    · intro member
      cases member
    · rintro ⟨reason, assigned⟩
      cases at0 : l.atom with
      | zero =>
        rw [at0, show ({} : Atoms).assignment 0 = some ⟨true, 0, none⟩ from rfl] at assigned
        simp at assigned
      | succ n =>
        have known := lt_count_of_assignment assigned
        simp [at0, count] at known
  reasoned := by
    intro a given assigned proper
    have known := lt_count_of_assignment assigned
    simp only [count, List.size_toArray, List.length_cons, List.length_nil, topAtom] at known proper
    lia
  distinct := List.nodup_nil
  head_le := Nat.le_refl 0

theorem mem_literals_iff (h : s.Coherent) :
    l ∈ s.trail.literals ↔ ∃ level reason, s.assignment l.atom = some ⟨l.polarity, level, some reason⟩ := by
  rw [Trail.literals, LevelStack.mem_entries_iff]
  simp only [h.mem_entriesAt_iff]

theorem ne_top_of_mem (h : s.Coherent) (member : l ∈ s.trail.literals) : l.atom ≠ topAtom := by
  obtain ⟨level, reason, assigned⟩ := h.mem_literals_iff.mp member
  intro same
  rw [same, h.top] at assigned
  simp at assigned

theorem levelOf_of_mem (h : s.Coherent) {level : Nat} (member : l ∈ s.trail.stack.entriesAt level) :
    s.levelOf l.atom = some level := by
  obtain ⟨reason, assigned⟩ := (h.mem_entriesAt_iff l level).mp member
  exact levelOf_eq_some.mpr ⟨_, assigned, rfl⟩

/-- A literal on the trail is true, and no other is but on the true atom. -/
theorem valueOf_eq_true (h : s.Coherent) (proper : l.atom ≠ topAtom) :
    s.valueOf l = some true ↔ l ∈ s.trail.literals := by
  rw [valueOf, Literal.valueOn_eq_true, value_eq_some, h.mem_literals_iff]
  constructor
  · rintro ⟨⟨value, level, reason⟩, assigned, rfl⟩
    obtain ⟨reason', rfl⟩ := Option.isSome_iff_exists.mp (h.reasoned _ _ assigned proper)
    exact ⟨level, reason', assigned⟩
  · rintro ⟨level, reason, assigned⟩
    exact ⟨_, assigned, rfl⟩

theorem valueOf_eq_false (h : s.Coherent) (proper : l.atom ≠ topAtom) :
    s.valueOf l = some false ↔ l.negate ∈ s.trail.literals := by
  rw [← h.valueOf_eq_true (by rwa [Literal.atom_negate]), valueOf, valueOf, Literal.valueOn_eq_false,
    Literal.valueOn_eq_true, Literal.atom_negate, Literal.polarity_negate proper]

theorem valueOf_of_mem (h : s.Coherent) (member : l ∈ s.trail.literals) : s.valueOf l = some true :=
  (h.valueOf_eq_true (h.ne_top_of_mem member)).mpr member

/-- A level of an atom is that of the literal of the atom on the trail, but for the true atom. -/
theorem mem_entriesAt_of_levelOf (h : s.Coherent) {level : Nat} (proper : l.atom ≠ topAtom)
    (known : s.levelOf l.atom = some level) (value : s.valueOf l = some true) :
    l ∈ s.trail.stack.entriesAt level := by
  obtain ⟨given, assigned, rfl⟩ := levelOf_eq_some.mp known
  obtain ⟨level, reason, assigned'⟩ := h.mem_literals_iff.mp ((h.valueOf_eq_true proper).mp value)
  rw [assigned, Option.some.injEq] at assigned'
  subst given
  exact (h.mem_entriesAt_iff _ _).mpr ⟨reason, assigned⟩

theorem levelOf_le_level (h : s.Coherent) {a : Atom} {level : Nat} (known : s.levelOf a = some level) :
    level ≤ s.level := by
  obtain ⟨given, assigned, rfl⟩ := levelOf_eq_some.mp known
  by_cases proper : a = topAtom
  · rw [proper, h.top] at assigned
    cases assigned
    exact Nat.zero_le _
  · obtain ⟨value, level, reason⟩ := given
    obtain ⟨reason, rfl⟩ := Option.isSome_iff_exists.mp (h.reasoned _ _ assigned proper)
    have member := (h.mem_entriesAt_iff (.on a value) level).mpr
      ⟨reason, by rw [Literal.atom_on, Literal.polarity_on proper]; exact assigned⟩
    exact LevelStack.level_le_of_mem member

theorem lt_count_of_mem (h : s.Coherent) (member : l ∈ s.trail.literals) : l.atom < s.count := by
  obtain ⟨level, reason, assigned⟩ := h.mem_literals_iff.mp member
  exact lt_count_of_assignment assigned

theorem nodup (h : s.Coherent) : s.trail.literals.Nodup := List.Nodup.of_map _ h.distinct

/-- What stands before a literal on the trail got its value at no higher level. -/
theorem levelOf_le_of_before (h : s.Coherent) {earlier : List Literal} {i j : Nat}
    (order : earlier ++ [l] <+: s.trail.literals) (before : m ∈ earlier)
    (levelL : s.levelOf l.atom = some i) (levelM : s.levelOf m.atom = some j) : j ≤ i := by
  have memL : l ∈ s.trail.literals := order.subset (by simp)
  have memM : m ∈ s.trail.literals := order.subset (by simp [before])
  exact LevelStack.level_le_of_before h.nodup order before
    (h.mem_entriesAt_of_levelOf (h.ne_top_of_mem memL) levelL (h.valueOf_of_mem memL))
    (h.mem_entriesAt_of_levelOf (h.ne_top_of_mem memM) levelM (h.valueOf_of_mem memM))

end Coherent

/-! ### The operations -/

variable {s s' : Atoms} {l : Literal} {reason : Reason}

/-- A new atom has no value and stands on no trail. -/
theorem fresh_eq_ok {previous : Bool} {a : Atom} (success : s.fresh previous = .ok (a, s')) :
    s.count ≤ maxAtom ∧ s'.count = s.count + 1 ∧ s'.trail = s.trail ∧ s'.assignment = s.assignment := by
  unfold fresh at success
  split at success
  · rename_i room
    cases success
    refine ⟨room, by simp [count], rfl, ?_⟩
    funext b
    simp only [assignment, Array.getElem?_push]
    split
    · subst b
      simp
    · rfl
  · cases success

theorem Coherent.fresh (h : s.Coherent) {previous : Bool} {a : Atom}
    (success : s.fresh previous = .ok (a, s')) : s'.Coherent := by
  obtain ⟨room, counted, trail, assignment⟩ := fresh_eq_ok success
  exact
    { room := by omega
      top := by rw [assignment]; exact h.top
      mem_entriesAt_iff := by rw [trail, assignment]; exact h.mem_entriesAt_iff
      reasoned := by rw [assignment]; exact h.reasoned
      distinct := by rw [trail]; exact h.distinct
      head_le := by rw [trail]; exact h.head_le }

/-- What is made true had no value, and everything else is as it was. -/
theorem assign_eq_unset (success : s.assign l reason = .ok (.unset, s')) :
    l.atom < s.count ∧ s.assignment l.atom = none ∧ s'.count = s.count ∧
      s'.trail = s.trail.store l ∧
      ∀ a, s'.assignment a =
        if a = l.atom then some ⟨l.polarity, s.level, some reason⟩ else s.assignment a := by
  obtain ⟨known, unset, _⟩ := assign_eq_ok success
  have unvalued : s.assignment l.atom = none := by
    rw [← value_eq_none, ← Literal.valueOn_eq_none, ← Literal.statusOn_eq_unset]
    exact unset
  unfold assign at success
  rw [if_pos known, unset] at success
  cases success
  refine ⟨known, unvalued, by simp [count], rfl, fun a => ?_⟩
  simp only [assignment, Array.getElem?_modify]
  split
  · rename_i same
    obtain rfl := same
    rw [if_pos rfl]
    have bound : l.atom < s.cells.size := known
    simp [Array.getElem?_eq_getElem bound]
  · rename_i other
    rw [if_neg (Ne.symm other)]

/-- An assignment is entered on the trail and at its atom, and so the two still say the same. -/
theorem Coherent.assign (h : s.Coherent) (success : s.assign l reason = .ok (.unset, s')) :
    s'.Coherent := by
  obtain ⟨known, unvalued, counted, trail, assignment⟩ := assign_eq_unset success
  have proper : l.atom ≠ topAtom := by
    intro same
    rw [same, h.top] at unvalued
    cases unvalued
  refine
    { room := by rw [counted]; exact h.room
      top := by rw [assignment, if_neg (Ne.symm proper)]; exact h.top
      mem_entriesAt_iff := ?_
      reasoned := ?_
      distinct := ?_
      head_le := ?_ }
  · intro m level
    rw [trail, Trail.store, LevelStack.entriesAt_push, assignment]
    by_cases same : m.atom = l.atom
    · rw [if_pos same]
      have absent : m ∉ s.trail.stack.entriesAt level := by
        rw [h.mem_entriesAt_iff, same, unvalued]
        simp
      constructor
      · intro member
        split at member
        · rename_i current
          rcases List.mem_append.mp member with old | new
          · exact absurd old absent
          · obtain rfl := List.mem_singleton.mp new
            exact ⟨reason, by rw [current]; rfl⟩
        · exact absurd member absent
      · rintro ⟨reason', assigned⟩
        simp only [Option.some.injEq, Assignment.mk.injEq] at assigned
        obtain rfl := Literal.eq_of_atom_of_polarity same.symm assigned.1
        rw [if_pos (show level = s.trail.stack.level from assigned.2.1.symm)]
        simp
    · rw [if_neg same, ← h.mem_entriesAt_iff]
      split
      · rw [List.mem_append, List.mem_singleton]
        exact or_iff_left (fun equal => same (by rw [equal]))
      · rfl
  · intro a given assigned other
    rw [assignment] at assigned
    split at assigned
    · cases assigned
      rfl
    · exact h.reasoned a given assigned other
  · rw [trail, Trail.literals_store, List.map_append, List.nodup_append]
    refine ⟨h.distinct, by simp, ?_⟩
    intro a onTrail b new same
    obtain ⟨m, member, rfl⟩ := List.mem_map.mp onTrail
    obtain rfl : b = l.atom := by simpa using new
    obtain ⟨level, reason, assigned⟩ := h.mem_literals_iff.mp member
    rw [same, unvalued] at assigned
    cases assigned
  · have inside := h.head_le
    rw [trail, Trail.length, Trail.literals_store, List.length_append]
    simp only [Trail.length] at inside
    simp only [Trail.head_store]
    omega

/-- A literal of a known atom without a value can be made true. -/
theorem assign_of_unvalued (reason : Reason) (known : l.atom < s.count)
    (unvalued : s.assignment l.atom = none) : ∃ s', s.assign l reason = .ok (.unset, s') := by
  have unset : s.status l = .unset := by
    rw [status, Literal.statusOn_eq_unset, Literal.valueOn_eq_none, value_eq_none]
    exact unvalued
  rw [assign, if_pos known, unset]
  exact ⟨_, rfl⟩

theorem Coherent.openLevel (h : s.Coherent) : s.openLevel.Coherent where
  room := h.room
  top := h.top
  mem_entriesAt_iff := by
    intro l level
    rw [Atoms.openLevel, Trail.openLevel, LevelStack.entriesAt_openLevel]
    exact h.mem_entriesAt_iff l level
  reasoned := h.reasoned
  distinct := by
    rw [Atoms.openLevel, Trail.literals_openLevel]
    exact h.distinct
  head_le := by
    rw [Atoms.openLevel, Trail.length, Trail.literals_openLevel]
    exact h.head_le

theorem Coherent.setHead (h : s.Coherent) {head : Nat} (inside : head ≤ s.trail.length) :
    Coherent { s with trail := { s.trail with head } } where
  room := h.room
  top := h.top
  mem_entriesAt_iff := h.mem_entriesAt_iff
  reasoned := h.reasoned
  distinct := h.distinct
  head_le := inside

private theorem foldl_drop (literals : List Literal) (s : Atoms) :
    (literals.foldl (fun s l => s.drop l.atom) s).count = s.count ∧
      (literals.foldl (fun s l => s.drop l.atom) s).trail = s.trail ∧
      ∀ a, (literals.foldl (fun s l => s.drop l.atom) s).assignment a =
        if a ∈ literals.map Literal.atom then none else s.assignment a := by
  induction literals generalizing s with
  | nil => simp
  | cons l rest ih =>
    obtain ⟨counted, trail, assignment⟩ := ih (s.drop l.atom)
    refine ⟨by rw [List.foldl_cons, counted, count_drop],
      by rw [List.foldl_cons, trail, trail_drop], fun a => ?_⟩
    rw [List.foldl_cons, assignment, assignment_drop]
    by_cases here : a = l.atom <;> by_cases later : a ∈ rest.map Literal.atom <;>
      simp [here, later]

@[simp] theorem trail_forgetAbove (s : Atoms) (level : Nat) :
    (s.forgetAbove level).2.trail = (s.trail.cutTo level).2 := (foldl_drop _ _).2.1

@[simp] theorem count_forgetAbove (s : Atoms) (level : Nat) : (s.forgetAbove level).2.count = s.count :=
  (foldl_drop _ _).1

/-- A return to a level keeps exactly the assignments up to it. -/
theorem Coherent.assignment_forgetAbove (h : s.Coherent) (level : Nat) (a : Atom) :
    (s.forgetAbove level).2.assignment a = (s.assignment a).filter fun given => given.level ≤ level := by
  have dropped : (s.forgetAbove level).2.assignment a =
      if a ∈ (s.trail.cutTo level).1.map Literal.atom then none else s.assignment a :=
    (foldl_drop _ _).2.2 a
  rw [dropped]
  -- A literal that was taken back stood above the level, and a literal that was kept did not.
  have apart := h.distinct
  rw [← s.trail.literals_cutTo_append level, List.map_append, List.nodup_append] at apart
  have kept_iff : ∀ l : Literal, l ∈ (s.trail.cutTo level).2.literals ↔
      ∃ i, i ≤ level ∧ l ∈ s.trail.stack.entriesAt i := by
    intro l
    rw [Trail.literals, Trail.stack_cutTo, LevelStack.mem_cutTo_entries_iff]
  cases assigned : s.assignment a with
  | none => split <;> rfl
  | some given =>
    by_cases proper : a = topAtom
    · subst proper
      rw [h.top] at assigned
      cases assigned
      rw [if_neg, Option.filter_some_pos (by simp)]
      intro member
      obtain ⟨l, taken, same⟩ := List.mem_map.mp member
      refine h.ne_top_of_mem (l := l) ?_ same
      rw [← s.trail.literals_cutTo_append level]
      exact List.mem_append_right _ taken
    · obtain ⟨value, i, reason⟩ := given
      obtain ⟨reason, rfl⟩ := Option.isSome_iff_exists.mp (h.reasoned _ _ assigned proper)
      have entered : Literal.on a value ∈ s.trail.stack.entriesAt i :=
        (h.mem_entriesAt_iff _ _).mpr
          ⟨reason, by rw [Literal.atom_on, Literal.polarity_on proper]; exact assigned⟩
      by_cases low : i ≤ level
      · rw [Option.filter_some_pos (by simpa using low), if_neg]
        intro member
        refine apart.2.2 a (List.mem_map.mpr ⟨.on a value, ?_, Literal.atom_on a value⟩) a member rfl
        exact (kept_iff _).mpr ⟨i, low, entered⟩
      · rw [Option.filter_some_neg (by simpa using low), if_pos]
        have onTrail : Literal.on a value ∈ s.trail.literals :=
          (LevelStack.mem_entries_iff _).mpr ⟨i, entered⟩
        rw [← s.trail.literals_cutTo_append level] at onTrail
        rcases List.mem_append.mp onTrail with kept | taken
        · obtain ⟨j, low', member⟩ := (kept_iff _).mp kept
          have levels := h.levelOf_of_mem member
          rw [h.levelOf_of_mem entered] at levels
          cases levels
          exact absurd low' low
        · exact List.mem_map.mpr ⟨_, taken, Literal.atom_on a value⟩

/-- What is taken back from the trail is taken back from its atoms. -/
theorem Coherent.forgetAbove (h : s.Coherent) (level : Nat) : (s.forgetAbove level).2.Coherent where
  room := by rw [count_forgetAbove]; exact h.room
  top := by rw [h.assignment_forgetAbove, h.top]; rfl
  mem_entriesAt_iff := by
    intro l i
    rw [trail_forgetAbove, Trail.stack_cutTo, LevelStack.entriesAt_cutTo, h.assignment_forgetAbove]
    simp only [Option.filter_eq_some_iff]
    split
    · rename_i low
      rw [h.mem_entriesAt_iff]
      simp [low]
    · rename_i high
      simp [high]
  reasoned := by
    intro a given assigned
    rw [h.assignment_forgetAbove, Option.filter_eq_some_iff] at assigned
    exact h.reasoned a given assigned.1
  distinct := by
    rw [trail_forgetAbove]
    exact h.distinct.sublist ((s.trail.literals_cutTo_isPrefix level).sublist.map _)
  head_le := by
    rw [trail_forgetAbove, Trail.head_cutTo _ _ h.head_le]
    exact Nat.min_le_right _ _

end Atoms

end SatModulo
