import SatModulo.Proofs.Consulting
import SatModulo.Proofs.Descents

/-!
# Analysis of a conflict resolves

What is left of a clause on the way down the trail: the literals below the current level, and those of
the level that were met and are still to come (`Resolvent.open`). One literal of the level at a time is
replaced by the literals of its reason, so what is left follows from the known clauses at every step
(`Resolvent.Means`), and at the end it is the clause that is learnt (`Procedure.analyse_course`).
-/
namespace SatModulo

namespace Atoms

variable {s : Atoms} {l m : Literal} {clause : Clause}

theorem Coherent.eq_of_atom (h : s.Coherent) (memL : l ∈ s.trail.literals)
    (memM : m ∈ s.trail.literals) (same : l.atom = m.atom) : l = m :=
  List.inj_on_of_nodup_map h.distinct memL memM same

/-- Only one literal of an atom is false. -/
theorem eq_of_false (same : l.atom = m.atom) (falseL : s.valueOf l = some false)
    (falseM : s.valueOf m = some false) : l = m := by
  rw [valueOf, Literal.valueOn_eq_false] at falseL falseM
  rw [same, falseM] at falseL
  exact Literal.eq_of_atom_of_polarity same (by simpa using falseL.symm)

theorem levelOf_isSome_of_false (falsified : s.valueOf l = some false) :
    ∃ level, s.levelOf l.atom = some level := by
  rw [valueOf, Literal.valueOn_eq_false, value_eq_some] at falsified
  obtain ⟨given, assigned, _⟩ := falsified
  exact ⟨given.level, levelOf_eq_some.mpr ⟨given, assigned, rfl⟩⟩

/-- What was false before a literal has its opposite before it on the trail. -/
theorem negate_mem_of_falseBefore (h : s.Coherent) {earlier later : List Literal} {level : Nat}
    (split : s.trail.literals = earlier ++ l :: later) (given : s.levelOf l.atom = some level)
    (before : s.falseBefore l level m) : m.negate ∈ earlier ∨ m.atom = topAtom := by
  have memL : l ∈ s.trail.literals := by simp [split]
  simp only [falseBefore, Bool.and_eq_true, beq_iff_eq] at before
  obtain ⟨falsified, order⟩ := before
  rcases negate_mem_of_false h falsified with onTrail | top
  · left
    split at order
    · cases order
    · rename_i other givenM
      simp only [Bool.or_eq_true, Bool.and_eq_true, decide_eq_true_eq, beq_iff_eq] at order
      rcases order with lower | ⟨same, assignedBefore⟩
      · -- A literal at or after `l` would have no lower level.
        rw [split, List.mem_append, List.mem_cons] at onTrail
        rcases onTrail with inEarlier | rfl | inLater
        · exact inEarlier
        · rw [Literal.atom_negate, givenM] at given
          cases given
          exact absurd lower (Nat.lt_irrefl _)
        · obtain ⟨first, second, rfl⟩ := List.append_of_mem inLater
          have memM : m.negate ∈ s.trail.literals := by simp [split]
          have order : (earlier ++ l :: first) ++ [m.negate] <+: s.trail.literals := by
            rw [split]
            exact ⟨second, by simp⟩
          have le := h.levelOf_le_of_before order (m := l) (by simp)
            (by rw [Literal.atom_negate]; exact givenM) given
          exact absurd lower (Nat.not_lt.mpr le)
      · unfold Atoms.assignedBefore positionOf at assignedBefore
        split at assignedBefore
        · rename_i i j atM atL
          have less : i < j := of_decide_eq_true assignedBefore
          obtain ⟨boundM, foundM, _⟩ := List.findIdx?_eq_some_iff_getElem.mp atM
          obtain ⟨boundL, _, firstL⟩ := List.findIdx?_eq_some_iff_getElem.mp atL
          have jLe : j ≤ earlier.length := by
            by_contra beyond
            have here := firstL earlier.length (by omega)
            simp [split] at here
          have inside : i < earlier.length := by omega
          have isM : s.trail.literals[i] = m.negate :=
            h.eq_of_atom (List.getElem_mem boundM) onTrail (by
              rw [Literal.atom_negate]
              simpa using foundM)
          rw [← isM]
          simp only [split, List.getElem_append_left inside]
          exact List.getElem_mem inside
        · cases assignedBefore
  · exact .inr top

/-- The opposite of a false literal of the current level is on the trail. -/
theorem negate_mem_of_current (h : s.Coherent) (above : 0 < s.level) (falsified : s.valueOf l = some false)
    (current : s.levelOf l.atom = some s.level) : l.negate ∈ s.trail.literals := by
  refine (negate_mem_of_false h falsified).resolve_right fun top => ?_
  rw [top, levelOf, h.top] at current
  exact absurd (Option.some.inj current) (Nat.ne_of_lt above)

/-- What passes as a reason for a literal of the trail explains it. -/
theorem explains_of_isReason (h : s.Coherent) (onTrail : l ∈ s.trail.literals)
    (isReason : s.isReason l clause) : s.Explains clause l := by
  unfold Atoms.isReason at isReason
  split at isReason
  · cases isReason
  · rename_i level given
    simp only [Bool.and_eq_true, List.contains_iff_mem, List.all_eq_true, Bool.or_eq_true,
      beq_iff_eq] at isReason
    obtain ⟨member, others⟩ := isReason
    obtain ⟨earlier, later, split⟩ := List.append_of_mem onTrail
    refine ⟨earlier, ⟨later, by rw [split]; simp⟩, member, fun m inClause other => ?_⟩
    exact negate_mem_of_falseBefore h split given ((others m inClause).resolve_left other)

/-- The other literals of what explains a literal are false, and those of the current level have their
opposites before the literal. -/
theorem Explains.others (explains : s.Explains clause l) (h : s.Coherent) (above : 0 < s.level)
    {earlier : List Literal} (order : earlier ++ [l] <+: s.trail.literals) :
    (∀ m ∈ clause.filter (· ≠ l), s.valueOf m = some false) ∧
      ∀ m ∈ clause.filter (· ≠ l), s.levelOf m.atom = some s.level → m.negate ∈ earlier := by
  obtain ⟨before, orderL, _, others⟩ := explains
  obtain rfl : before = earlier := eq_of_prefix_concat h.nodup orderL order
  have opposite : ∀ m ∈ clause.filter (· ≠ l), m.negate ∈ before ∨ m.atom = topAtom := by
    intro m inFilter
    obtain ⟨inClause, other⟩ := List.mem_filter.mp inFilter
    exact others m inClause (by simpa using other)
  refine ⟨fun m inFilter => ?_, fun m inFilter level => ?_⟩
  · rcases opposite m inFilter with before | top
    · have onTrail : m.negate ∈ s.trail.literals := order.subset (by simp [before])
      have proper := h.ne_top_of_mem onTrail
      rw [Literal.atom_negate] at proper
      exact (h.valueOf_eq_false proper).mpr onTrail
    · exact valueOf_falsum h top
  · refine (opposite m inFilter).resolve_right fun top => ?_
    rw [top, levelOf, h.top] at level
    exact absurd (Option.some.inj level) (Nat.ne_of_lt above)

end Atoms

namespace Resolvent

variable {s : Atoms} {r r' : Resolvent} {l m : Literal} {rest : List Literal}

/-- The literals of the current level that were met and are still to come on the way down the trail. -/
def unresolved (s : Atoms) (r : Resolvent) (rest : List Literal) : List Literal :=
  rest.filter fun t => decide (t.atom ∈ r.seen) && (s.levelOf t.atom == some s.level)

theorem mem_unresolved {t : Literal} : t ∈ r.unresolved s rest ↔
    t ∈ rest ∧ t.atom ∈ r.seen ∧ s.levelOf t.atom = some s.level := by
  simp [unresolved]

/-- The parts of a resolvent agree with each other and with what is still to come of the trail. -/
structure Follows (s : Atoms) (r : Resolvent) (rest : List Literal) : Prop where
  falsified : ∀ m ∈ r.lower, s.valueOf m = some false
  below : ∀ m ∈ r.lower, ∃ level, s.levelOf m.atom = some level ∧ level < s.level
  distinct : (r.lower.map Literal.atom).Nodup
  lower_seen : ∀ m ∈ r.lower, m.atom ∈ r.seen
  seen_lower : ∀ a ∈ r.seen, s.levelOf a ≠ some s.level → ∃ m ∈ r.lower, m.atom = a
  pending : r.pending = (r.unresolved s rest).length

theorem unresolved_unmet (unmet : l.atom ∉ r.seen) :
    r.unresolved s (l :: rest) = r.unresolved s rest := by
  rw [unresolved, List.filter_cons_of_neg (by simp [unmet])]
  rfl

theorem unresolved_met (rest : List Literal) (met : l.atom ∈ r.seen)
    (current : s.levelOf l.atom = some s.level) : r.unresolved s (l :: rest) = l :: r.unresolved s rest := by
  rw [unresolved, List.filter_cons_of_pos (by simp [met, current])]
  rfl

theorem Follows.empty (s : Atoms) (rest : List Literal) : Follows s {} rest where
  falsified := by simp
  below := by simp
  distinct := by simp
  lower_seen := by simp
  seen_lower := by simp
  pending := by simp [unresolved]

/-- A literal that was not met is passed over. -/
theorem Follows.pass (follows : r.Follows s (l :: rest)) (unmet : l.atom ∉ r.seen) :
    r.Follows s rest :=
  { follows with pending := by rw [follows.pending, unresolved_unmet unmet] }

/-- A literal that was met is resolved on. -/
theorem Follows.resolve (follows : r.Follows s (l :: rest)) (met : l.atom ∈ r.seen)
    (current : s.levelOf l.atom = some s.level) :
    Follows s { r with pending := r.pending - 1 } rest :=
  { follows with
    pending := by
      rw [follows.pending, unresolved_met rest met current, List.length_cons]
      rfl }

/-- The last literal that was met is of the current level, as long as one of the level is unresolved. -/
theorem Follows.current (follows : r.Follows s (l :: rest)) (h : s.Coherent)
    (order : rest.reverse ++ [l] <+: s.trail.literals) (pending : 0 < r.pending) :
    s.levelOf l.atom = some s.level := by
  rw [follows.pending] at pending
  obtain ⟨t, member⟩ := List.exists_mem_of_length_pos pending
  obtain ⟨inRest, _, current⟩ := mem_unresolved.mp member
  rcases List.mem_cons.mp inRest with rfl | before
  · exact current
  · have onTrail : l ∈ s.trail.literals := order.subset (by simp)
    obtain ⟨level, reason, assigned⟩ := h.mem_literals_iff.mp onTrail
    have given : s.levelOf l.atom = some level := Atoms.levelOf_eq_some.mpr ⟨_, assigned, rfl⟩
    have low := h.levelOf_le_of_before order (List.mem_reverse.mpr before) given current
    rw [given, Nat.le_antisymm (h.levelOf_le_level given) low]

/-- A literal has been taken in: it is kept, or its atom is met at the current level. -/
def Covers (s : Atoms) (r : Resolvent) (l : Literal) : Prop :=
  l ∈ r.lower ∨ l.atom ∈ r.seen ∧ s.levelOf l.atom = some s.level

/-- Nothing that a resolvent has taken in is given up. -/
structure Le (r r' : Resolvent) : Prop where
  lower : ∀ m ∈ r.lower, m ∈ r'.lower
  seen : ∀ a ∈ r.seen, a ∈ r'.seen
  pending : r.pending ≤ r'.pending

theorem Le.covers (le : Le r r') (covers : r.Covers s l) : r'.Covers s l :=
  covers.imp (le.lower l) fun ⟨seen, level⟩ => ⟨le.seen _ seen, level⟩

private theorem length_filter_of_new {xs : List Literal} {x : Literal} {p q : Literal → Bool}
    (distinct : xs.Nodup) (member : x ∈ xs) (new : p x = false)
    (more : ∀ y ∈ xs, q y = (p y || y == x)) : (xs.filter q).length = (xs.filter p).length + 1 := by
  have perm : (xs.filter q).Perm (x :: xs.filter p) := by
    refine (List.perm_ext_iff_of_nodup (distinct.filter q) ?_).mpr fun y => ?_
    · refine List.nodup_cons.mpr ⟨fun inside => ?_, distinct.filter p⟩
      rw [List.mem_filter, new] at inside
      exact Bool.false_ne_true inside.2
    · rw [List.mem_filter, List.mem_cons, List.mem_filter]
      constructor
      · rintro ⟨inside, holds⟩
        rw [more y inside, Bool.or_eq_true, beq_iff_eq] at holds
        exact holds.elim (fun old => .inr ⟨inside, old⟩) .inl
      · rintro (rfl | ⟨inside, old⟩)
        · exact ⟨member, by rw [more y member]; simp⟩
        · exact ⟨inside, by rw [more y inside, old]; rfl⟩
  rw [perm.length_eq, List.length_cons]

/-- A false literal of the current level is met, and its opposite is still to come. -/
theorem Follows.meet (follows : r.Follows s rest) (h : s.Coherent)
    (sub : rest.Sublist s.trail.literals.reverse) (unseen : l.atom ∉ r.seen)
    (given : s.levelOf l.atom = some s.level) (coming : l.negate ∈ rest) :
    Follows s { r with seen := l.atom :: r.seen, pending := r.pending + 1 } rest where
  falsified := follows.falsified
  below := follows.below
  distinct := follows.distinct
  lower_seen m member := .tail _ (follows.lower_seen m member)
  seen_lower a member notCurrent := by
    rcases List.mem_cons.mp member with rfl | old
    · exact absurd given notCurrent
    · exact follows.seen_lower a old notCurrent
  pending := by
    have onTrail : ∀ t ∈ rest, t ∈ s.trail.literals := fun t member => List.mem_reverse.mp (sub.subset member)
    have distinct : rest.Nodup := (List.nodup_reverse.mpr h.nodup).sublist sub
    rw [follows.pending]
    refine (length_filter_of_new (x := l.negate) distinct coming ?_ fun t member => ?_).symm
    · simp [unseen]
    · by_cases same : t.atom = l.atom
      · -- The literals of one atom on the trail are the same.
        have opposite : t = l.negate :=
          h.eq_of_atom (onTrail t member) (onTrail _ coming) (same.trans l.atom_negate.symm)
        subst opposite
        simp [given]
      · have other : t ≠ l.negate := by
          rintro rfl
          exact same l.atom_negate
        simp [same, other]

/-- A false literal below the current level is kept. -/
theorem Follows.keep (follows : r.Follows s rest) (unseen : l.atom ∉ r.seen)
    (falsified : s.valueOf l = some false) {level : Nat} (given : s.levelOf l.atom = some level)
    (below : level < s.level) :
    Follows s { r with seen := l.atom :: r.seen, lower := r.lower ++ [l] } rest where
  falsified := List.forall_mem_append.mpr ⟨follows.falsified, List.forall_mem_singleton.mpr falsified⟩
  below := List.forall_mem_append.mpr
    ⟨follows.below, List.forall_mem_singleton.mpr ⟨level, given, below⟩⟩
  distinct := by
    rw [List.map_append, List.nodup_append]
    refine ⟨follows.distinct, by simp, ?_⟩
    rintro a old b new rfl
    obtain ⟨m, member, rfl⟩ := List.mem_map.mp old
    rw [List.map_cons, List.map_nil, List.mem_singleton] at new
    exact unseen (new ▸ follows.lower_seen m member)
  lower_seen := List.forall_mem_append.mpr
    ⟨fun m old => .tail _ (follows.lower_seen m old), List.forall_mem_singleton.mpr (.head _)⟩
  seen_lower a member notCurrent := by
    rcases List.mem_cons.mp member with rfl | old
    · exact ⟨l, by simp, rfl⟩
    · obtain ⟨m, inLower, same⟩ := follows.seen_lower a old notCurrent
      exact ⟨m, List.mem_append_left _ inLower, same⟩
  pending := by
    rw [follows.pending, unresolved, unresolved]
    congr 1
    refine List.filter_congr fun t _ => ?_
    by_cases same : t.atom = l.atom
    · simp [same, given, Nat.ne_of_lt below]
    · simp [same]

/-- A literal that has a level is met already, or is met now at the current level, or is kept. -/
theorem add_eq_ok_iff {level : Nat} (given : s.levelOf l.atom = some level) : add s r l = .ok r' ↔
    l.atom ∈ r.seen ∧ r' = r ∨
      l.atom ∉ r.seen ∧ level = s.level ∧
        r' = { r with seen := l.atom :: r.seen, pending := r.pending + 1 } ∨
      l.atom ∉ r.seen ∧ level ≠ s.level ∧
        r' = { r with seen := l.atom :: r.seen, lower := r.lower ++ [l] } := by
  obtain ⟨assigned, found, _⟩ := Atoms.levelOf_eq_some.mp given
  have known : ¬s.count ≤ l.atom := Nat.not_le.mpr (Atoms.lt_count_of_assignment found)
  by_cases seen : l.atom ∈ r.seen
  · simp [add, seen, eq_comm]
  · by_cases current : level = s.level <;> simp [add, seen, known, given, current, eq_comm]

/-- A false literal whose atom was met has been taken in. -/
theorem Follows.covers (follows : r.Follows s rest) (falsified : s.valueOf l = some false)
    (seen : l.atom ∈ r.seen) : r.Covers s l := by
  by_cases current : s.levelOf l.atom = some s.level
  · exact .inr ⟨seen, current⟩
  · obtain ⟨m, member, same⟩ := follows.seen_lower _ seen current
    exact .inl (Atoms.eq_of_false same (follows.falsified m member) falsified ▸ member)

/-- A false literal is taken in; at the current level it must be still to come. -/
theorem add_spec (h : s.Coherent) (follows : r.Follows s rest) (sub : rest.Sublist s.trail.literals.reverse)
    (falsified : s.valueOf l = some false)
    (coming : s.levelOf l.atom = some s.level → l.negate ∈ rest) (success : add s r l = .ok r') :
    r'.Follows s rest ∧ r.Le r' ∧ r'.Covers s l := by
  obtain ⟨level, given⟩ := Atoms.levelOf_isSome_of_false falsified
  rcases (add_eq_ok_iff given).mp success with ⟨seen, rfl⟩ | ⟨unseen, rfl, rfl⟩ | ⟨unseen, other, rfl⟩
  · exact ⟨follows, ⟨fun _ => id, fun _ => id, Nat.le_refl _⟩, follows.covers falsified seen⟩
  · exact ⟨follows.meet h sub unseen given (coming given),
      ⟨fun _ => id, fun _ => .tail _, Nat.le_succ _⟩, .inr ⟨.head _, given⟩⟩
  · have below : level < s.level := Nat.lt_of_le_of_ne (h.levelOf_le_level given) other
    exact ⟨follows.keep unseen falsified given below,
      ⟨fun _ => List.mem_append_left _, fun _ => .tail _, Nat.le_refl _⟩, .inl (by simp)⟩

/-- After a clause is added every literal of it is covered, and what was covered before still is. -/
theorem addAll_spec (h : s.Coherent) (follows : r.Follows s rest)
    (sub : rest.Sublist s.trail.literals.reverse) {clause : Clause}
    (falsified : ∀ l ∈ clause, s.valueOf l = some false)
    (coming : ∀ l ∈ clause, s.levelOf l.atom = some s.level → l.negate ∈ rest)
    (success : addAll s r clause = .ok r') :
    r'.Follows s rest ∧ r.Le r' ∧ ∀ l ∈ clause, r'.Covers s l := by
  unfold addAll at success
  induction clause generalizing r with
  | nil =>
    cases success
    exact ⟨follows, ⟨fun _ => id, fun _ => id, Nat.le_refl _⟩, by simp⟩
  | cons l others ih =>
    rw [List.foldlM_cons] at success
    obtain ⟨between, first, success⟩ := Except.bind_eq_ok success
    obtain ⟨follows, le, covers⟩ :=
      add_spec h follows sub (falsified l (.head _)) (coming l (.head _)) first
    obtain ⟨follows', le', covers'⟩ := ih follows (fun m member => falsified m (.tail _ member))
      (fun m member => coming m (.tail _ member)) success
    refine ⟨follows', ⟨fun m => le'.lower m ∘ le.lower m, fun a => le'.seen a ∘ le.seen a,
      Nat.le_trans le.pending le'.pending⟩, List.forall_mem_cons.mpr ⟨le'.covers covers, covers'⟩⟩

/-- Taking in a false clause before any of the trail was met. -/
theorem Follows.start (h : s.Coherent) (above : 0 < s.level) {clause : Clause}
    (falsified : ∀ l ∈ clause, s.valueOf l = some false) (success : addAll s {} clause = .ok r) :
    r.Follows s s.trail.literals.reverse ∧ ∀ l ∈ clause, r.Covers s l := by
  obtain ⟨follows, _, covers⟩ := addAll_spec h (.empty s _) (List.Sublist.refl _) falsified
    (fun l member level =>
      List.mem_reverse.mpr (Atoms.negate_mem_of_current h above (falsified l member) level)) success
  exact ⟨follows, covers⟩

/-- What is still to come before a literal of the trail, latest first. -/
theorem sublist_of_order (order : rest.reverse ++ [l] <+: s.trail.literals) :
    rest.Sublist s.trail.literals.reverse := by
  have behind := ((List.prefix_append _ _).trans order).sublist.reverse
  rwa [List.reverse_reverse] at behind

/-- Taking in the other literals of what explains the literal resolved on. -/
theorem Follows.explained (follows : r.Follows s (l :: rest)) (h : s.Coherent) (above : 0 < s.level)
    (order : rest.reverse ++ [l] <+: s.trail.literals) (met : l.atom ∈ r.seen)
    (current : s.levelOf l.atom = some s.level) {reason : Clause} (explains : s.Explains reason l)
    (success : addAll s { r with pending := r.pending - 1 } (reason.filter (· ≠ l)) = .ok r') :
    r'.Follows s rest ∧ Le { r with pending := r.pending - 1 } r' ∧
      ∀ m ∈ reason.filter (· ≠ l), r'.Covers s m := by
  obtain ⟨falsified, coming⟩ := explains.others h above order
  exact addAll_spec h (follows.resolve met current) (sublist_of_order order) falsified
    (fun m member level => List.mem_reverse.mp (coming m member level)) success

theorem add_quiet {e : Error} (failed : add s r l = .error e) : e.conflict? = none := by
  unfold add at failed
  split at failed
  · cases failed
  · split at failed
    · cases failed
      rfl
    · split at failed
      · cases failed
        rfl
      · split at failed <;> cases failed

theorem addAll_quiet {clause : Clause} {e : Error} (failed : addAll s r clause = .error e) :
    e.conflict? = none := by
  unfold addAll at failed
  induction clause generalizing r with
  | nil => cases failed
  | cons l others ih =>
    rw [List.foldlM_cons] at failed
    cases first : add s r l with
    | error cause =>
      rw [first] at failed
      cases failed
      exact add_quiet first
    | ok between =>
      rw [first] at failed
      exact ih failed

/-- What is left of a clause under a total valuation: a literal that is kept, or the opposite of one
that is not resolved. -/
def Means (v : Atom → Bool) (s : Atoms) (r : Resolvent) (rest : List Literal) : Prop :=
  (∃ m ∈ r.lower, m.Holds v) ∨ ∃ t ∈ r.unresolved s rest, ¬t.Holds v

/-- A clause whose literals were taken in means what is left of it. -/
theorem means_of_covers (h : s.Coherent) {v : Atom → Bool} {clause : Clause}
    (sub : rest.Sublist s.trail.literals.reverse) (covers : ∀ l ∈ clause, r.Covers s l)
    (coming : ∀ l ∈ clause, s.levelOf l.atom = some s.level → l.negate ∈ rest)
    (holds : clause.Holds v) : r.Means v s rest := by
  obtain ⟨l, member, holdsL⟩ := holds
  rcases covers l member with kept | ⟨seen, level⟩
  · exact .inl ⟨l, kept, holdsL⟩
  · have toCome := coming l member level
    have proper : l.atom ≠ topAtom := by
      rw [← Literal.atom_negate]
      exact h.ne_top_of_mem (List.mem_reverse.mp (sub.subset toCome))
    refine .inr ⟨l.negate, mem_unresolved.mpr ⟨toCome, ?_, ?_⟩, ?_⟩
    · rwa [Literal.atom_negate]
    · rwa [Literal.atom_negate]
    · rw [Literal.holds_negate proper, not_not]
      exact holdsL

/-- Where the reason of the literal resolved on holds, what is left then means what was left before. -/
theorem Means.resolve {v : Atom → Bool} (means : r.Means v s (l :: rest)) (h : s.Coherent)
    (above : 0 < s.level) (order : rest.reverse ++ [l] <+: s.trail.literals) (met : l.atom ∈ r.seen)
    (current : s.levelOf l.atom = some s.level) {reason : Clause} (explains : s.Explains reason l)
    (le : Le { r with pending := r.pending - 1 } r') (covers : ∀ m ∈ reason.filter (· ≠ l), r'.Covers s m)
    (holds : reason.Holds v) : r'.Means v s rest := by
  rcases means with ⟨m, kept, holdsM⟩ | ⟨t, toCome, fails⟩
  · exact .inl ⟨m, le.lower m kept, holdsM⟩
  · rw [unresolved_met rest met current, List.mem_cons] at toCome
    rcases toCome with rfl | later
    · -- The literal resolved on fails, so its reason holds by another literal.
      obtain ⟨m, inReason, holdsM⟩ := holds
      have other : m ≠ t := by
        rintro rfl
        exact fails holdsM
      refine means_of_covers h (sublist_of_order order) covers
        (fun m member level => ?_) ⟨m, List.mem_filter.mpr ⟨inReason, by simpa using other⟩, holdsM⟩
      exact List.mem_reverse.mp ((explains.others h above order).2 m member level)
    · obtain ⟨inRest, seen, level⟩ := mem_unresolved.mp later
      exact .inr ⟨t, mem_unresolved.mpr ⟨inRest, le.seen _ seen, level⟩, fails⟩

end Resolvent

variable {σ : Type} [Theory σ] {c c' : Context σ}

/-- What is known stays known. -/
theorem Draws.known (draws : Draws c c') {clause : Clause} (known : c.Known clause) :
    c'.Known clause := by
  induction draws with
  | refl => exact known
  | tail _ draw ih =>
    rcases ih with ⟨key, stored⟩ | ⟨i, call, member, given⟩
    · exact .inl ⟨key, by rw [draw.frame.1]; exact stored⟩
    · refine .inr ⟨i, call, ?_, given⟩
      rcases draw.silent_or_caught with changes | ⟨_, changes⟩ <;> exact changes.mem_account member

/-- What a resolution has come to: the last literal of the level, true, with false literals of lower
levels; the clause of its opposite and of those follows from what is known. -/
structure Context.Resolved (c : Context σ) (last : Literal) (lower : List Literal) : Prop where
  onTrail : last ∈ c.atoms.trail.literals
  current : c.atoms.levelOf last.atom = some c.level
  falsified : ∀ m ∈ lower, c.valueOf m = some false
  below : ∀ m ∈ lower, ∃ level, c.atoms.levelOf m.atom = some level ∧ level < c.level
  distinct : (lower.map Literal.atom).Nodup
  entailed : ∀ v, (∀ clause, c.Known clause → clause.Holds v) → Clause.Holds v (last.negate :: lower)

omit [Theory σ] in
/-- Where one literal of the level is left, the clause of its opposite and of the literals kept follows. -/
theorem Context.Resolved.of_alone (h : c.Coherent) {l : Literal} {earlier : List Literal} {r : Resolvent}
    (order : earlier.reverse ++ [l] <+: c.atoms.trail.literals) (follows : r.Follows c.atoms (l :: earlier))
    (current : c.atoms.levelOf l.atom = some c.level) (alone : r.unresolved c.atoms (l :: earlier) = [l])
    (means : ∀ v, (∀ clause, c.Known clause → clause.Holds v) → r.Means v c.atoms (l :: earlier)) :
    c.Resolved l r.lower where
  onTrail := order.subset (by simp)
  current := current
  falsified := follows.falsified
  below := follows.below
  distinct := follows.distinct
  entailed v models := by
    rcases means v models with ⟨m, member, holds⟩ | ⟨t, member, fails⟩
    · exact ⟨m, .tail _ member, holds⟩
    · rw [alone, List.mem_singleton] at member
      have onTrail : l ∈ c.atoms.trail.literals := order.subset (by simp)
      have proper := h.supports.atoms.ne_top_of_mem onTrail
      exact ⟨l.negate, .head _, (Literal.holds_negate proper).mpr (member ▸ fails)⟩

namespace Procedure

/-- The reason for a literal of the trail is known and explains it. -/
theorem reasonFor_leads (h : c.Coherent) {l : Literal} (onTrail : l ∈ c.atoms.trail.literals) :
    (reasonFor l).Leads Draw c c fun reason after =>
      after.atoms = c.atoms ∧ after.Known reason ∧ c.atoms.Explains reason l := by
  refine .get_bind ?_
  dsimp only
  split
  · rename_i key reasoned
    refine .ofExcept .refl (fun _ _ => rfl) fun clause got => ?_
    obtain ⟨d, stored, explains⟩ := h.supports.because l onTrail key reasoned
    rw [ClauseStore.get, stored] at got
    cases got
    exact ⟨rfl, .inl ⟨key, stored⟩, explains⟩
  · rename_i i marker reasoned
    refine .ofFaulty_bind fun (reason, theories) asked => ?_
    dsimp only
    split
    · exact .throw .refl rfl
    · rename_i reason
      obtain ⟨m, m', own, found, answered, rfl⟩ := Registry.changeAt_eq_ok asked
      obtain ⟨⟨reason', theory⟩, built, same⟩ := Except.bind_eq_ok answered
      cases same
      have explained : Draw c _ := .explain c i m found l marker onTrail reasoned reason' theory built
      refine .modify_bind (.modify_bind ?_)
      have reached := (Relation.ReflTransGen.single explained).tail (.adjust _ c.random
        { c.counters with reasons := c.counters.reasons + 1 } (c.theories.schedule.bumpBy c.settings.host.conventions i)
        (Schedule.length_bumpBy _ _ i))
      split
      · rename_i isReason
        refine .pure reached ⟨rfl, .inr ⟨i, .buildReason l marker reason', ?_, rfl⟩,
          Atoms.explains_of_isReason h.supports.atoms onTrail isReason⟩
        simp only
        rw [Registry.mem_account]
        simp
      · exact .throw reached rfl
  · exact .throw .refl rfl
  · exact .throw .refl rfl

/-- Resolution ends with one literal of the level, and with a clause that follows from what is known. -/
theorem descend_leads (h : c.Coherent) (above : 0 < c.level) {rest : List Literal} {r : Resolvent}
    (order : rest.reverse <+: c.atoms.trail.literals) (follows : r.Follows c.atoms rest)
    (pending : 0 < r.pending)
    (means : ∀ v, (∀ clause, c.Known clause → clause.Holds v) → r.Means v c.atoms rest) :
    (descend rest r).Leads Draw c c fun result after =>
      after.atoms = c.atoms ∧ after.Resolved result.1 result.2 := by
  induction rest generalizing c r with
  | nil => exact .throw .refl rfl
  | cons l earlier ih =>
    have atoms := h.supports.atoms
    rw [List.reverse_cons] at order
    have orderEarlier : earlier.reverse <+: c.atoms.trail.literals :=
      (List.prefix_append _ _).trans order
    unfold descend
    refine .get_bind (.ofFaulty_bind fun marked found => ?_)
    have marks := Resolvent.isMarked_eq_ok found
    split
    · rename_i met
      replace met := marks.mp met
      have current := follows.current atoms order pending
      have counted := follows.pending
      rw [Resolvent.unresolved_met earlier met current, List.length_cons] at counted
      split
      · rename_i last
        refine .pure .refl ⟨rfl, Context.Resolved.of_alone h order follows current ?_ means⟩
        rw [Resolvent.unresolved_met earlier met current,
          List.eq_nil_of_length_eq_zero (by omega : (r.unresolved c.atoms earlier).length = 0)]
      · rename_i several
        refine .call (reasonFor_leads h (order.subset (by simp))) .refl ?_
        rintro reason asked reached ⟨same, known, explains⟩
        refine .get_bind ?_
        rw [same]
        refine .ofExcept_bind reached (fun e failed => Resolvent.addAll_quiet failed) fun r' added => ?_
        obtain ⟨follows', le, covers⟩ := follows.explained atoms above order met current explains added
        have levelSame : asked.level = c.level := by rw [Context.level, same]; rfl
        have pending' : 0 < r'.pending := Nat.lt_of_lt_of_le (by simp only; omega) le.pending
        have others := ih (c := asked) (r := r') (Draws.coherent reached h) (by rw [levelSame]; exact above)
          (by rw [same]; exact orderEarlier) (by rw [same]; exact follows') pending' fun v models => ?_
        · refine (others.from_start reached).mono (fun _ _ => id) ?_
          rintro result after ⟨sameAfter, resolved⟩
          exact ⟨sameAfter.trans same, resolved⟩
        · rw [same]
          have meant := means v fun clause knownBefore => models clause (Draws.known reached knownBefore)
          exact meant.resolve atoms above order met current explains le covers (models reason known)
    · rename_i unmet
      replace unmet := mt marks.mpr unmet
      refine ih h above orderEarlier (follows.pass unmet) pending fun v models => ?_
      have meant := means v models
      rwa [Resolvent.Means, Resolvent.unresolved_unmet unmet] at meant

end Procedure

end SatModulo
