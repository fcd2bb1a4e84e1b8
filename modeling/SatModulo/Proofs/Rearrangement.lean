import Mathlib.Data.List.Perm.Basic
import Mathlib.Order.Bounds.Basic
import SatModulo.Proofs.Fixpoints
import SatModulo.Proofs.GivenClauses

/-!
# Unit propagation does not depend on the order of clauses

What unit propagation draws from clauses is the least set of literals that is closed under the unit rule
(`Forced`, `isLeast_forced`). It does not matter when a literal is drawn, by giving a clause or by
propagation: every literal of the trail is forced (`Context.Derives`), and a fixpoint that leaves no clause
due is closed. Sets that are closed do not see the order of clauses or of the literals in them, so two
contexts that are given the same clauses in two orders come to the same valuation, or both find the clauses
inconsistent (`propagates_alike`).
-/
namespace SatModulo

/-! ### The unit rule -/

/-- A set of literals is closed under the unit rule: where the opposites of all other literals of a clause
are in the set, the last one is. -/
def ClosedUnderUnits (clauses : List Clause) (literals : Set Literal) : Prop :=
  ∀ c ∈ clauses, ∀ l ∈ c, (∀ m ∈ c, m ≠ l → m.negate ∈ literals) → l ∈ literals

/-- The literals that the unit rule derives. -/
inductive Forced (clauses : List Clause) : Literal → Prop
  | unit (c : Clause) (given : c ∈ clauses) (l : Literal) (member : l ∈ c)
    (others : ∀ m ∈ c, m ≠ l → Forced clauses m.negate) : Forced clauses l

/-- The unit rule makes every literal of a clause false. -/
def UnitsRefute (clauses : List Clause) : Prop := ∃ c ∈ clauses, ∀ l ∈ c, Forced clauses l.negate

/-- The clauses of one list are those of another in a different order, each with its literals in a different
order. -/
def Rearranged (clauses clauses' : List Clause) : Prop :=
  ∃ between, clauses.Perm between ∧ List.Forall₂ List.Perm between clauses'

section Rule

variable {clauses clauses' : List Clause} {l : Literal}

theorem isLeast_forced (clauses : List Clause) :
    IsLeast {literals | ClosedUnderUnits clauses literals} {l | Forced clauses l} := by
  refine ⟨fun c given l member others => .unit c given l member others, fun literals closed l forced => ?_⟩
  induction forced with
  | unit c given l member _ ih => exact closed c given l member ih

/-- Only the literals of clauses matter for what the unit rule derives. -/
theorem Forced.mono (same : ∀ c ∈ clauses, ∃ c' ∈ clauses', ∀ l, l ∈ c ↔ l ∈ c') (forced : Forced clauses l) :
    Forced clauses' l := by
  induction forced with
  | unit c given l member _ ih =>
    obtain ⟨c', given', literals⟩ := same c given
    exact .unit c' given' l ((literals l).mp member) fun m inClause => ih m ((literals m).mpr inClause)

theorem UnitsRefute.mono (same : ∀ c ∈ clauses, ∃ c' ∈ clauses', ∀ l, l ∈ c ↔ l ∈ c')
    (refuted : UnitsRefute clauses) : UnitsRefute clauses' := by
  obtain ⟨c, given, opposites⟩ := refuted
  obtain ⟨c', given', literals⟩ := same c given
  exact ⟨c', given', fun l member => (opposites l ((literals l).mpr member)).mono same⟩

namespace Rearranged

theorem symm (rearranged : Rearranged clauses clauses') : Rearranged clauses' clauses := by
  obtain ⟨between, order, literals⟩ := rearranged
  have back : List.Forall₂ List.Perm clauses' between := literals.flip.imp fun _ _ => List.Perm.symm
  have either := congrFun (congrFun (List.forall₂_comp_perm_eq_perm_comp_forall₂ (r := List.Perm)) clauses') clauses
  exact either.mp ⟨between, back, order.symm⟩

theorem exists_same (rearranged : Rearranged clauses clauses') :
    ∀ c ∈ clauses, ∃ c' ∈ clauses', ∀ l, l ∈ c ↔ l ∈ c' := by
  obtain ⟨between, order, literals⟩ := rearranged
  intro c given
  replace given := order.mem_iff.mp given
  clear order
  induction literals with
  | nil => cases given
  | cons same _ ih =>
    rcases List.mem_cons.mp given with rfl | later
    · exact ⟨_, .head _, fun l => same.mem_iff⟩
    · obtain ⟨c', given', same'⟩ := ih later
      exact ⟨c', .tail _ given', same'⟩

theorem length_eq (rearranged : Rearranged clauses clauses') : clauses.length = clauses'.length := by
  obtain ⟨between, order, literals⟩ := rearranged
  exact order.length_eq.trans literals.length_eq

theorem forced_iff (rearranged : Rearranged clauses clauses') : Forced clauses l ↔ Forced clauses' l :=
  ⟨.mono rearranged.exists_same, .mono rearranged.symm.exists_same⟩

theorem refuted_iff (rearranged : Rearranged clauses clauses') : UnitsRefute clauses ↔ UnitsRefute clauses' :=
  ⟨.mono rearranged.exists_same, .mono rearranged.symm.exists_same⟩

end Rearranged

end Rule

theorem Literal.valueOn_negate_eq_true {value : Atom → Option Bool} {l : Literal} (proper : l.atom ≠ topAtom) :
    l.negate.valueOn value = some true ↔ l.valueOn value = some false := by
  rw [valueOn_eq_true, valueOn_eq_false, atom_negate, polarity_negate proper]

/-! ### Contexts that derive from clauses -/

variable {σ : Type}

/-- A context without theories that was given some of the clauses at the base level, and has drawn nothing
that the unit rule does not derive from all of them. -/
structure Context.Derives (all given : List Clause) (c : Context σ) : Prop where
  base : c.level = 0
  bare : c.theories.members = []
  sound : ∀ l ∈ c.atoms.trail.literals, Forced all l
  stored : ∀ key d, c.clauses.get? key = some d → ∃ clause ∈ all, ∀ l, l ∈ d ↔ l ∈ clause
  complete : ∀ clause ∈ given, clause ≠ [] → clause.IsClashFree →
    ∃ key d, c.clauses.get? key = some d ∧ ∀ l, l ∈ d ↔ l ∈ clause

/-- The atoms of a context are those up to the greatest of some clauses. -/
def Context.Knows (given : List Clause) (c : Context σ) : Prop :=
  ∀ a, a < c.atoms.count ↔ a = topAtom ∨ ∃ clause ∈ given, ∃ l ∈ clause, a ≤ l.atom

theorem Context.Knows.initial (settings : Settings) : (Context.ofSettings settings : Context σ).Knows [] := by
  intro a
  simp [Context.ofSettings, Atoms.count, topAtom]

/-- Contexts have as many atoms if the clauses have the same literals. -/
theorem Context.Knows.count_eq {c c' : Context σ} {clauses clauses' : List Clause} (knows : c.Knows clauses)
    (knows' : c'.Knows clauses') (rearranged : Rearranged clauses clauses') :
    c.atoms.count = c'.atoms.count := by
  have inside : ∀ {clauses clauses' : List Clause}, Rearranged clauses clauses' → ∀ a : Atom,
      (∃ clause ∈ clauses, ∃ l ∈ clause, a ≤ l.atom) → ∃ clause ∈ clauses', ∃ l ∈ clause, a ≤ l.atom := by
    rintro clauses clauses' rearranged a ⟨clause, given, l, member, low⟩
    obtain ⟨clause', given', same⟩ := rearranged.exists_same clause given
    exact ⟨clause', given', l, (same l).mp member, low⟩
  refine Nat.le_antisymm (Nat.le_of_not_lt fun more => ?_) (Nat.le_of_not_lt fun more => ?_)
  · exact absurd ((knows' _).mpr (((knows _).mp more).imp_right (inside rearranged _))) (Nat.lt_irrefl _)
  · exact absurd ((knows _).mpr (((knows' _).mp more).imp_right (inside rearranged.symm _))) (Nat.lt_irrefl _)

/-- No clause has a literal on the true atom, and all are in range. -/
def AreProper (clauses : List Clause) : Prop := ∀ c ∈ clauses, ∀ l ∈ c, l.atom ≠ topAtom ∧ l.atom ≤ maxAtom

instance (clauses : List Clause) : Decidable (AreProper clauses) :=
  inferInstanceAs (Decidable (∀ c ∈ clauses, ∀ l ∈ c, l.atom ≠ topAtom ∧ l.atom ≤ maxAtom))

namespace Context.Derives

variable {all given : List Clause} {c mid : Context σ} {clause d : Clause}

theorem initial (all : List Clause) (settings : Settings) :
    (Context.ofSettings settings : Context σ).Derives all [] where
  base := rfl
  bare := rfl
  sound := by intro l member; cases member
  stored := by intro key d found; cases key <;> simp [Context.ofSettings, ClauseStore.get?] at found
  complete := by simp

/-- The opposite of a false literal was derived. -/
theorem forced_of_false (derives : c.Derives all given) (h : c.atoms.Coherent) {l : Literal}
    (proper : l.atom ≠ topAtom) (value : l.valueOn c.atoms.value = some false) : Forced all l.negate :=
  derives.sound _ ((h.valueOf_eq_false proper).mp value)

/-- A clause with every literal false refutes the clauses. -/
theorem refuted (derives : c.Derives all given) (h : c.atoms.Coherent) (proper : AreProper all)
    (member : clause ∈ all) (same : ∀ l, l ∈ d ↔ l ∈ clause)
    (falsified : ∀ l ∈ d, l.valueOn c.atoms.value = some false) : UnitsRefute all := by
  refine ⟨clause, member, fun l inClause => ?_⟩
  exact derives.forced_of_false h (proper clause member l inClause).1 (falsified l ((same l).mpr inClause))

/-- What a clause forces is derived. -/
theorem forced_of_unit (derives : c.Derives all given) (h : c.atoms.Coherent) (proper : AreProper all)
    (member : clause ∈ all) (same : ∀ l, l ∈ d ↔ l ∈ clause) {l : Literal}
    (state : d.stateOn c.atoms.value = .unit l) : Forced all l := by
  obtain ⟨inD, _, others⟩ := Clause.stateOn_eq_unit state
  refine .unit clause member l ((same l).mp inD) fun m inClause other => ?_
  exact derives.forced_of_false h (proper clause member m inClause).1 (others m ((same m).mpr inClause) other)

theorem widen (derives : c.Derives all given) (widens : c.Widens mid) : mid.Derives all given where
  base := widens.level.trans derives.base
  bare := widens.theories ▸ derives.bare
  sound := widens.trail ▸ derives.sound
  stored := widens.clauses ▸ derives.stored
  complete := widens.clauses ▸ derives.complete

theorem assign (derives : c.Derives all given) {l : Literal} (forced : Forced all l) {reason : Reason}
    {atoms : Atoms} (made : c.atoms.assign l reason = .ok (.unset, atoms)) :
    Derives all given { c with atoms } where
  base := (Atoms.level_assign made).trans derives.base
  bare := derives.bare
  sound := by
    rw [Atoms.literals_assign made]
    exact List.forall_mem_append.mpr ⟨derives.sound, List.forall_mem_singleton.mpr forced⟩
  stored := derives.stored
  complete := derives.complete

/-- A clause may go without being stored if it has no literals or some that clash. -/
theorem skip (derives : c.Derives all given) (needless : clause ≠ [] → ¬clause.IsClashFree) :
    c.Derives all (given ++ [clause]) where
  base := derives.base
  bare := derives.bare
  sound := derives.sound
  stored := derives.stored
  complete := List.forall_mem_append.mpr ⟨derives.complete, List.forall_mem_singleton.mpr fun some' free =>
    absurd free (needless some')⟩

theorem store (derives : c.Derives all given) (member : clause ∈ all) (same : ∀ l, l ∈ d ↔ l ∈ clause)
    {key : ClauseKey} {clauses : ClauseStore} (stored : c.clauses.store d false = .ok (key, clauses)) :
    Derives all (given ++ [clause]) { c with clauses } where
  base := derives.base
  bare := derives.bare
  sound := derives.sound
  stored := by
    intro other e found
    rcases (ClauseStore.get?_store_iff stored other e).mp found with old | ⟨_, rfl⟩
    · exact derives.stored other e old
    · exact ⟨clause, member, same⟩
  complete := by
    refine List.forall_mem_append.mpr ⟨fun other old some' free => ?_, List.forall_mem_singleton.mpr ?_⟩
    · obtain ⟨key', e, found, same'⟩ := derives.complete other old some' free
      exact ⟨key', e, ClauseStore.get?_store stored found, same'⟩
    · exact fun _ _ => ⟨key, d, (ClauseStore.store_eq_ok stored).2.2.1, same⟩

theorem phase (derives : c.Derives all given) (phase : Phase) : Derives all given { c with phase } :=
  ⟨derives.base, derives.bare, derives.sound, derives.stored, derives.complete⟩

/-- What a clause that is given comes to, other than an error: the context was given one clause more. That
there is no solution is the answer only if the clauses are refuted, and always for the empty clause. -/
theorem take (derives : c.Derives all given) (h : c.atoms.Coherent) (proper : AreProper all)
    (member : clause ∈ all) {outcome : ClauseOutcome} {after : Context σ}
    (takes : c.Takes clause (.ok outcome) after) :
    after.Derives all (given ++ [clause]) ∧ (outcome = .unsatisfiable → UnitsRefute all) ∧
      (outcome ≠ .unsatisfiable → clause ≠ []) := by
  cases takes with
  | leaveOut clash =>
    refine ⟨derives.skip fun _ => clash, nofun, fun _ => ?_⟩
    rintro rfl
    exact clash .nil
  | empty none' =>
    subst none'
    exact ⟨(derives.skip fun other => absurd rfl other).phase _, fun _ => ⟨[], member, by simp⟩,
      fun other => absurd rfl other⟩
  | force free _ distinct same key clauses stored l state atoms made =>
    have forced := derives.forced_of_unit h proper member same state
    refine ⟨((derives.store member same stored).assign forced made).phase _, nofun, fun _ => ?_⟩
    rintro rfl
    cases (same l).mp (Clause.stateOn_eq_unit state).1
  | refute free _ distinct same key clauses stored state =>
    refine ⟨(derives.store member same stored).phase _, fun _ => ?_, fun other => absurd rfl other⟩
    exact derives.refuted h proper member same (Clause.stateOn_eq_falsified.mp state)
  | keep free d distinct same key clauses stored state =>
    refine ⟨(derives.store member same stored).phase _, nofun, fun _ => ?_⟩
    rintro rfl
    exact (ClauseStore.store_eq_ok stored).1 (List.eq_nil_iff_forall_not_mem.mpr fun l inD =>
      absurd ((same l).mp inD) List.not_mem_nil)

/-- Unit propagation derives by the unit rule. -/
theorem propagates (derives : c.Derives all given) (h : c.clauses.Supports c.atoms) (proper : AreProper all)
    {atoms : Atoms} (steps : Relation.ReflTransGen c.clauses.Propagates c.atoms atoms) :
    Derives all given { c with atoms } := by
  induction steps with
  | refl => exact derives
  | tail steps step ih =>
    cases step with
    | force _ key d l found state made =>
      obtain ⟨clause, member, same⟩ := derives.stored key d found
      exact ih.assign (ih.forced_of_unit (h.propagates steps).atoms proper member same state) made
    | pass l next seen => exact ⟨ih.base, ih.bare, ih.sound, ih.stored, ih.complete⟩

/-- Where no stored clause is due, a clause that was given has both literals of an atom, a true literal or
two literals without a value. -/
theorem undecided (derives : c.Derives all all) (h : c.clauses.Supports c.atoms) (proper : AreProper all)
    (settled : ∀ key d, c.clauses.get? key = some d → d.stateOn c.atoms.value = .unforced)
    (member : clause ∈ all) (some' : clause ≠ []) :
    (∃ l ∈ clause, l.negate ∈ clause) ∨ (∃ l ∈ clause, l.valueOn c.atoms.value = some true) ∨
      ∃ l ∈ clause, ∃ m ∈ clause, l ≠ m ∧ l.valueOn c.atoms.value = none ∧ m.valueOn c.atoms.value = none := by
  by_cases free : clause.IsClashFree
  · obtain ⟨key, d, found, same⟩ := derives.complete clause member some' free
    rcases Clause.of_stateOn_unforced (h.nodup found) (settled key d found) with
      ⟨l, inD, value⟩ | ⟨l, inD, m, inD', other, unset, unset'⟩
    · exact .inr (.inl ⟨l, (same l).mp inD, value⟩)
    · exact .inr (.inr ⟨l, (same l).mp inD, m, (same m).mp inD', other, unset, unset'⟩)
  · have noFalsum : clause.count .falsum = 0 := List.count_eq_zero.mpr fun inClause =>
      (proper clause member _ inClause).1 rfl
    have valid : clause.IsValid := by
      by_contra invalid
      exact free (Clause.isClashFree_iff.mpr ⟨invalid, by omega⟩)
    obtain ⟨l, inClause, _, opposite⟩ := Clause.isValid_iff.mp valid
    exact .inl ⟨l, inClause, opposite⟩

/-- Where no stored clause is due, the true literals are closed under the unit rule. -/
theorem closed (derives : c.Derives all all) (h : c.clauses.Supports c.atoms) (proper : AreProper all)
    (settled : ∀ key d, c.clauses.get? key = some d → d.stateOn c.atoms.value = .unforced) :
    ClosedUnderUnits all {l | c.valueOf l = some true} := by
  intro clause member l inClause others
  have falsified : ∀ m ∈ clause, m ≠ l → m.valueOn c.atoms.value = some false := fun m inClause' other =>
    (Literal.valueOn_negate_eq_true (proper clause member m inClause').1).mp (others m inClause' other)
  rcases derives.undecided h proper settled member (List.ne_nil_of_mem inClause) with
    ⟨n, inClause', opposite⟩ | ⟨n, inClause', value⟩ | ⟨n, inClause', m, inClause'', other, unset, unset'⟩
  · have properN := (proper clause member n inClause').1
    by_cases same : n = l
    · subst same
      have value := falsified _ opposite (Literal.negate_ne properN)
      rw [← Literal.valueOn_negate_eq_true (by rwa [Literal.atom_negate]), Literal.negate_negate] at value
      exact value
    · have value := (Literal.valueOn_negate_eq_true properN).mpr (falsified n inClause' same)
      by_cases same' : n.negate = l
      · exact same' ▸ value
      · cases value.symm.trans (falsified _ opposite same')
  · by_cases same : n = l
    · exact same ▸ value
    · cases value.symm.trans (falsified n inClause' same)
  · by_cases same : n = l
    · cases unset'.symm.trans (falsified m inClause'' fun same' => other (same.trans same'.symm))
    · cases unset.symm.trans (falsified n inClause' same)

/-- Where no stored clause is due and no clause that was given is empty, the clauses are not refuted, and the
true literals are what the unit rule derives. -/
theorem exact (derives : c.Derives all all) (h : c.clauses.Supports c.atoms) (proper : AreProper all)
    (settled : ∀ key d, c.clauses.get? key = some d → d.stateOn c.atoms.value = .unforced)
    (nonempty : [] ∉ all) :
    ¬UnitsRefute all ∧ ∀ l, c.valueOf l = some true ↔ Forced all l := by
  have least := (isLeast_forced all).2 (derives.closed h proper settled)
  have exact' : ∀ l, c.valueOf l = some true ↔ Forced all l := by
    refine fun l => ⟨fun value => ?_, fun forced => least forced⟩
    refine derives.sound l ((h.atoms.valueOf_eq_true fun top => ?_).mp value)
    cases (Atoms.valueOf_falsum h.atoms top).symm.trans value
  refine ⟨?_, exact'⟩
  rintro ⟨clause, member, opposites⟩
  have falsified : ∀ l ∈ clause, l.valueOn c.atoms.value = some false := fun l inClause =>
    (Literal.valueOn_negate_eq_true (proper clause member l inClause).1).mp (least (opposites l inClause))
  rcases derives.undecided h proper settled member (fun none' => nonempty (none' ▸ member)) with
    ⟨l, inClause, opposite⟩ | ⟨l, inClause, value⟩ | ⟨l, inClause, _, _, _, unset, _⟩
  · have value := (Literal.valueOn_negate_eq_true (proper clause member l inClause).1).mpr
      (falsified l inClause)
    cases value.symm.trans (falsified _ opposite)
  · cases value.symm.trans (falsified l inClause)
  · cases unset.symm.trans (falsified l inClause)

end Context.Derives

/-! ### Propagation without theories -/

/-- What propagation comes to without theories: the head is at the end of the trail, or a stored clause is
false. It has no errors. -/
def Context.Exhausts (c : Context σ) (result : Except Error (Option Conflict)) (after : Context σ) : Prop :=
  ∃ atoms, Relation.ReflTransGen c.clauses.Propagates c.atoms atoms ∧ after = { c with atoms } ∧
    match result with
    | .ok none => atoms.trail.head = atoms.trail.length
    | .ok (some _) => ∃ key d, c.clauses.get? key = some d ∧ d.stateOn atoms.value = .falsified
    | .error _ => False

variable [Theory σ]

theorem Registry.deliverAll_of_bare {r : Registry σ} (bare : r.members = []) (t : Trail) :
    r.deliverAll t = .ok r := by
  obtain ⟨members, schedule, decisions, baseFacts, calls⟩ := r
  obtain rfl : members = [] := bare
  simp [deliverAll, changeAll, changeFrom, bind, Except.bind, pure, Except.pure]

omit [Theory σ] in
theorem Context.Coherent.order_of_bare {c : Context σ} (h : c.Coherent) (bare : c.theories.members = []) :
    c.theories.schedule.order = [] := by
  have perm := c.theories.schedule.order_perm
  rw [h.standings, bare] at perm
  exact perm.eq_nil

namespace Procedure

variable {c : Context σ}

omit [Theory σ] in
/-- Propagation of clauses has no error: it ends at the end of the trail, or with a stored clause that is false. -/
theorem propagateClauses_ends (h : c.Coherent) :
    (propagateClauses : Procedure σ (Option ClauseKey)).Ends c (fun _ => False) fun result after =>
      ∃ atoms, Relation.ReflTransGen c.clauses.Propagates c.atoms atoms ∧ after = { c with atoms } ∧
        match result with
        | .ok none => atoms.trail.head = atoms.trail.length
        | .ok (some key) => ∃ d, c.clauses.get? key = some d ∧ d.stateOn atoms.value = .falsified
        | .error _ => False := by
  refine .get_bind ?_
  rcases propagated : c.clauses.propagate c.atoms with ⟨outcome, atoms⟩
  obtain ⟨steps, ended⟩ := ClauseStore.propagate_spec h.supports propagated
  refine .modify_bind ?_
  rcases outcome with (key | key) | ⟨⟩
  · exact .pure ⟨atoms, steps, rfl, ended⟩
  · exact ended.elim
  · exact .pure ⟨atoms, steps, rfl, ended⟩

theorem deliverAll_ends_of_bare (bare : c.theories.members = []) :
    (deliverAll : Procedure σ Unit).Ends c (fun _ => False) fun result after => result = .ok () ∧ after = c := by
  refine .get_bind ?_
  rw [Registry.deliverAll_of_bare bare]
  exact .modify ⟨rfl, rfl⟩

theorem checkPropagated_ends_of_bare (bare : c.theories.members = []) :
    (checkPropagated : Procedure σ Unit).Ends c (fun _ => False) fun result after =>
      result = .ok () ∧ after = c := by
  refine .get_bind ?_
  rw [Registry.count, bare]
  exact .pure ⟨rfl, rfl⟩

/-- Without theories one round is enough. -/
theorem roundsWithin_ends_of_bare (h : c.Coherent) (bare : c.theories.members = []) (fuel : Nat) :
    (roundsWithin (fuel + 1) : Procedure σ (Option Conflict)).Ends c (fun _ => False) c.Exhausts := by
  refine .bind (propagateClauses_ends h) ?_ ?_
  · rintro e _ ⟨_, _, _, impossible⟩
    exact impossible.elim
  · rintro found _ ⟨atoms, steps, rfl, ended⟩
    cases found with
    | some key =>
      obtain ⟨d, found, falsified⟩ := ended
      exact .pure ⟨atoms, steps, rfl, key, d, found, falsified⟩
    | none =>
      refine .bind (deliverAll_ends_of_bare bare) ?_ ?_
      · rintro e _ ⟨⟨⟩, _⟩
      · rintro ⟨⟩ _ ⟨_, rfl⟩
        refine .get_bind ?_
        dsimp only
        rw [h.order_of_bare bare]
        exact .pure ⟨atoms, steps, rfl, ended⟩

theorem propagate_ends_of_bare (h : c.Coherent) (bare : c.theories.members = []) :
    (propagate : Procedure σ (Option Conflict)).Ends c (fun _ => False) c.Exhausts := by
  refine .get_bind (.bind (roundsWithin_ends_of_bare h bare _) (fun _ _ => id) fun outcome _ exhausts => ?_)
  obtain ⟨atoms, steps, rfl, ended⟩ := exhausts
  cases outcome with
  | some conflict => exact .pure ⟨atoms, steps, rfl, ended⟩
  | none =>
    refine .get_bind ?_
    split
    · refine .bind (checkPropagated_ends_of_bare bare) ?_ ?_
      · rintro e _ ⟨⟨⟩, _⟩
      · rintro ⟨⟩ _ ⟨_, rfl⟩
        exact .pure ⟨atoms, steps, rfl, ended⟩
    · exact .pure ⟨atoms, steps, rfl, ended⟩

end Procedure

omit [Theory σ] in
theorem ClauseStore.count_propagates {store : ClauseStore} {s s' : Atoms}
    (steps : Relation.ReflTransGen store.Propagates s s') : s'.count = s.count := by
  induction steps with
  | refl => rfl
  | tail _ step ih =>
    cases step with
    | force _ key clause l found forces made => exact (Atoms.count_assign made).trans ih
    | pass l next seen => exact ih

/-! ### Giving clauses in turn -/

/-- The commands that give clauses in turn and propagate once. -/
def Command.giving (clauses : List Clause) : List (Command σ) := clauses.map .addClause ++ [.propagate]

omit [Theory σ] in
theorem Command.isPublic_of_giving (clauses : List Clause) :
    ∀ command ∈ (Command.giving clauses : List (Command σ)), command.IsPublic false := by
  refine List.forall_mem_append.mpr ⟨List.forall_mem_map.mpr fun _ _ => trivial, ?_⟩
  exact List.forall_mem_singleton.mpr trivial

/-- Some result says that the clauses are inconsistent. -/
def ReportsInconsistency (results : List (Except Error Answer)) : Prop :=
  ∃ r ∈ results, r = .ok (.clause .unsatisfiable) ∨ ∃ conflict, r = .ok (.conflict conflict)

namespace Context

variable {clause : Clause} {c after : Context σ}

omit [Theory σ] in
/-- What a clause that is given leaves as it was. -/
theorem Takes.frame {result : Except Error ClauseOutcome} (takes : c.Takes clause result after) :
    after.level = c.level ∧ after.theories = c.theories ∧ after.settings = c.settings ∧
      after.atoms.count = c.atoms.count ∧ after.clauses.given.size ≤ c.clauses.given.size + 1 := by
  have longer : ∀ {d : Clause} {key : ClauseKey} {clauses : ClauseStore},
      c.clauses.store d false = .ok (key, clauses) → clauses.given.size ≤ c.clauses.given.size + 1 := by
    intro d key clauses stored
    rw [ClauseStore.store_given _ (ClauseStore.store_eq_ok stored).1] at stored
    split at stored
    · cases stored
    · cases stored
      simp
  cases takes with
  | leaveOut | empty | full => exact ⟨rfl, rfl, rfl, rfl, Nat.le_succ _⟩
  | force free d distinct same key clauses stored l state atoms made =>
    exact ⟨Atoms.level_assign made, rfl, rfl, Atoms.count_assign made, longer stored⟩
  | refute free d distinct same key clauses stored state => exact ⟨rfl, rfl, rfl, rfl, longer stored⟩
  | keep free d distinct same key clauses stored state => exact ⟨rfl, rfl, rfl, rfl, longer stored⟩

omit [Theory σ] in
theorem Answers.frame {result : Except Error Answer} (answers : c.Answers clause result after) :
    after.level = c.level ∧ after.theories = c.theories ∧ after.settings = c.settings ∧
      (∀ a, a < after.atoms.count ↔ a < c.atoms.count ∨ ∃ l ∈ clause, a ≤ l.atom) ∧
      after.clauses.given.size ≤ c.clauses.given.size + 1 := by
  obtain ⟨outcome, mid, _, widens, known, takes⟩ := answers
  obtain ⟨level, theories, settings, count, size⟩ := takes.frame
  exact ⟨level.trans widens.level, theories.trans widens.theories, settings.trans widens.settings,
    count ▸ known, widens.clauses ▸ size⟩

end Context

namespace PublicRun

variable {settings : Settings} {events : List (Event σ)} {s s' : Session σ} {clause : Clause}
  {clauses : List Clause} {results : List (Except Error Answer)}

/-- Giving clauses in turn begins with the first. -/
theorem of_giving_cons (run : PublicRun settings events s) (base : s.context.level = 0)
    (inRange : ∀ l ∈ clause, l.atom ≤ maxAtom)
    (ran : s.run (Command.giving (clause :: clauses)) = .ok (results, s')) :
    ∃ result between others, results = result :: others ∧ s.context.Answers clause result between.context ∧
      PublicRun settings (events ++ [⟨s, .addClause clause, result, between⟩]) between ∧
      between.run (Command.giving clauses) = .ok (others, s') := by
  obtain ⟨⟨result, between⟩, taken, ran⟩ := Except.bind_eq_ok ran
  obtain ⟨⟨others, _⟩, ran, same⟩ := Except.bind_eq_ok ran
  cases same
  have ends := Command.addClause_ends base inRange run.coherent.1.supports.atoms.room s.kept
  have run := run.step (.addClause clause) trivial _ _ taken
  exact ⟨result, between, others, rfl, Session.step_of_ends ends taken, run, ran⟩

theorem propagate_ends_of_bare (run : PublicRun settings events s) (bare : s.context.theories.members = []) :
    ((Command.propagate : Command σ).procedure s.kept).Ends s.context (fun _ => False) fun result after =>
      ∃ outcome, result = .ok ((outcome.map Answer.conflict).getD .fixpoint) ∧
        s.context.Exhausts (.ok outcome) after := by
  refine .bind (Procedure.propagate_ends_of_bare run.coherent.1 bare) ?_ ?_
  · rintro e _ ⟨_, _, _, impossible⟩
    exact impossible.elim
  · exact fun outcome after exhausts => .pure ⟨outcome, rfl, exhausts⟩

/-- It ends with propagation. -/
theorem of_giving_nil (run : PublicRun settings events s) (bare : s.context.theories.members = [])
    (ran : s.run (Command.giving []) = .ok (results, s')) :
    ∃ outcome, results = [.ok ((outcome.map Answer.conflict).getD .fixpoint)] ∧
      s.context.Exhausts (.ok outcome) s'.context := by
  obtain ⟨⟨result, between⟩, taken, ran⟩ := Except.bind_eq_ok ran
  cases ran
  obtain ⟨outcome, rfl, exhausts⟩ := Session.step_of_ends (run.propagate_ends_of_bare bare) taken
  exact ⟨outcome, rfl, exhausts⟩

/-- Clauses in range can be given, if values can be drawn for new atoms. -/
theorem exists_giving (run : PublicRun settings events s) (base : s.context.level = 0)
    (bare : s.context.theories.members = []) (can : s.context.CanDraw)
    (inRange : ∀ c ∈ clauses, ∀ l ∈ c, l.atom ≤ maxAtom) :
    ∃ results s', s.run (Command.giving clauses) = .ok (results, s') := by
  induction clauses generalizing events s with
  | nil =>
    obtain ⟨result, s', taken, _⟩ := Session.exists_step_of_ends (run.propagate_ends_of_bare bare) fun _ => id
    refine ⟨[result], s', ?_⟩
    change (s.step _ >>= _) = _
    rw [taken]
    rfl
  | cons clause rest ih =>
    rw [List.forall_mem_cons] at inRange
    have ends := Command.addClause_ends base inRange.1 run.coherent.1.supports.atoms.room s.kept
    obtain ⟨result, between, taken, answers⟩ :=
      Session.exists_step_of_ends ends fun _ ⟨_, unlikely⟩ => unlikely can
    obtain ⟨level, theories, settings', _⟩ := answers.frame
    obtain ⟨results, s', ran⟩ := ih (run.step (.addClause clause) trivial _ _ taken) (level.trans base)
      (theories ▸ bare) (by rwa [Context.CanDraw, settings']) inRange.2
    refine ⟨result :: results, s', ?_⟩
    change (s.step _ >>= _) = _
    rw [taken]
    change (between.run (Command.giving rest) >>= _) = _
    rw [ran]
    rfl

/-- Giving clauses fails only for want of room. -/
theorem lt_of_failed_giving (run : PublicRun settings events s) (base : s.context.level = 0)
    (bare : s.context.theories.members = []) (inRange : ∀ c ∈ clauses, ∀ l ∈ c, l.atom ≤ maxAtom)
    (ran : s.run (Command.giving clauses) = .ok (results, s')) {e : Error} (failed : .error e ∈ results) :
    UInt32.size < s.context.clauses.given.size + clauses.length := by
  induction clauses generalizing events s results with
  | nil =>
    obtain ⟨outcome, rfl, _⟩ := run.of_giving_nil bare ran
    simp at failed
  | cons clause rest ih =>
    rw [List.forall_mem_cons] at inRange
    obtain ⟨result, between, others, rfl, answers, run', ran'⟩ := run.of_giving_cons base inRange.1 ran
    obtain ⟨level, theories, _, _, size⟩ := answers.frame
    rw [List.length_cons]
    rcases List.mem_cons.mp failed with here | later
    · obtain ⟨outcome, mid, rfl, widens, _, takes⟩ := answers
      cases outcome with
      | ok outcome => cases here
      | error cause =>
        have full := takes.of_error.2
        rw [widens.clauses] at full
        omega
    · have more := ih run' (level.trans base) (theories ▸ bare) inRange.2 ran' later
      omega

/-- The atoms are those of the clauses in the end. -/
theorem knows_of_giving {given : List Clause} (run : PublicRun settings events s) (base : s.context.level = 0)
    (bare : s.context.theories.members = []) (inRange : ∀ c ∈ clauses, ∀ l ∈ c, l.atom ≤ maxAtom)
    (knows : s.context.Knows given) (ran : s.run (Command.giving clauses) = .ok (results, s')) :
    s'.context.Knows (given ++ clauses) := by
  induction clauses generalizing events s results given with
  | nil =>
    obtain ⟨outcome, _, atoms, steps, after, _⟩ := run.of_giving_nil bare ran
    have count : s'.context.atoms.count = s.context.atoms.count := by
      rw [after]
      exact ClauseStore.count_propagates steps
    rw [List.append_nil, Context.Knows, count]
    exact knows
  | cons clause rest ih =>
    rw [List.forall_mem_cons] at inRange
    obtain ⟨result, between, others, rfl, answers, run', ran'⟩ := run.of_giving_cons base inRange.1 ran
    obtain ⟨level, theories, _, known, _⟩ := answers.frame
    have more : between.context.Knows (given ++ [clause]) := by
      intro a
      rw [known, knows, or_assoc]
      simp [or_and_right, exists_or]
    rw [← List.singleton_append, ← List.append_assoc]
    exact ih run' (level.trans base) (theories ▸ bare) inRange.2 more ran'

/-- Propagation after all clauses were given reports an inconsistency exactly if the unit rule refutes them.
If it reports none, what is true is what the unit rule derives. -/
theorem follows_giving_nil {all : List Clause} (run : PublicRun settings events s)
    (derives : s.context.Derives all all) (attends : s.context.Attends) (nonempty : [] ∉ all)
    (proper : AreProper all) (ran : s.run (Command.giving []) = .ok (results, s')) :
    (ReportsInconsistency results ↔ UnitsRefute all) ∧
      (¬ReportsInconsistency results → ∀ l, s'.context.valueOf l = some true ↔ Forced all l) := by
  have h := run.coherent.1.supports
  obtain ⟨outcome, rfl, atoms, steps, after, ended⟩ := run.of_giving_nil derives.bare ran
  have reached := derives.propagates h proper steps
  have supports := h.propagates steps
  cases outcome with
  | some conflict =>
    obtain ⟨key, d, found, falsified⟩ := ended
    obtain ⟨clause, member, same⟩ := derives.stored key d found
    have refuted := reached.refuted supports.atoms proper member same
      (Clause.stateOn_eq_falsified.mp falsified)
    have reports : ReportsInconsistency [.ok (.conflict conflict)] :=
      ⟨_, .head _, .inr ⟨conflict, rfl⟩⟩
    exact ⟨iff_of_true reports refuted, fun silent => absurd reports silent⟩
  | none =>
    have attended : s.context.clauses.Attends atoms :=
      attends.growsAll h (steps.lift id fun _ _ => .units)
    obtain ⟨consistent, exact'⟩ := reached.exact supports proper (attended.settled ended) nonempty
    refine ⟨iff_of_false ?_ consistent, fun _ l => ?_⟩
    · rintro ⟨r, member, reported⟩
      obtain rfl := List.mem_singleton.mp member
      simp at reported
    · rw [after]
      exact exact' l

/-- Without failures, an inconsistency is reported exactly if the unit rule refutes the clauses. If none is,
what is true in the end is what the unit rule derives. -/
theorem follows_giving {all given : List Clause} (run : PublicRun settings events s)
    (derives : s.context.Derives all given) (attends : s.context.Attends) (nonempty : [] ∉ given)
    (split : given ++ clauses = all) (proper : AreProper all)
    (ran : s.run (Command.giving clauses) = .ok (results, s')) (succeeded : ∀ e, .error e ∉ results) :
    (ReportsInconsistency results ↔ UnitsRefute all) ∧
      (¬ReportsInconsistency results → ∀ l, s'.context.valueOf l = some true ↔ Forced all l) := by
  induction clauses generalizing events s results given with
  | nil =>
    rw [List.append_nil] at split
    subst split
    exact run.follows_giving_nil derives attends nonempty proper ran
  | cons clause rest ih =>
    have member : clause ∈ all := split ▸ List.mem_append_right _ (.head _)
    have h := run.coherent.1
    obtain ⟨result, between, others, rfl, answers, run', ran'⟩ :=
      run.of_giving_cons derives.base (fun l inClause => (proper clause member l inClause).2) ran
    obtain ⟨outcome, mid, answer, widens, known, takes⟩ := answers
    cases outcome with
    | error e =>
      subst answer
      exact absurd (.head _) (succeeded e)
    | ok outcome =>
      obtain rfl : result = .ok (.clause outcome) := answer
      have coherent := widens.coherent h.supports.atoms (Clause.room_of_known
        (fun l inClause => (proper clause member l inClause).2) known h.supports.atoms.room)
      obtain ⟨next, refutes, some'⟩ := (derives.widen widens).take coherent proper member takes
      by_cases unsatisfiable : outcome = .unsatisfiable
      · have reports : ReportsInconsistency (.ok (.clause outcome) :: others) :=
          ⟨_, .head _, .inl (by rw [unsatisfiable])⟩
        exact ⟨iff_of_true reports (refutes unsatisfiable), fun silent => absurd reports silent⟩
      · have quiet : (.ok (.clause outcome) : Except Error Answer) ≠ .ok (.clause .unsatisfiable) := by
          simpa using unsatisfiable
        have attends' : between.context.Attends := by
          obtain ⟨_, _, ran⟩ := run'.ran ⟨s, .addClause clause, .ok (.clause outcome), between⟩ (by simp)
          refine ran.attends h attends (fun decided => ?_) quiet
          rcases decided with ⟨⟨_, other⟩, _⟩ | ⟨other, _⟩ <;> cases other
        have nonempty' : [] ∉ given ++ [clause] := by
          simpa [nonempty] using (some' unsatisfiable).symm
        have same : ReportsInconsistency (.ok (.clause outcome) :: others) ↔ ReportsInconsistency others := by
          simp [ReportsInconsistency, unsatisfiable]
        rw [same]
        refine ih run' next attends' nonempty' ?_ ran' fun e failed => succeeded e (.tail _ failed)
        rw [List.append_assoc, List.singleton_append, split]

end PublicRun

omit [Theory σ] in
theorem Atoms.valuation_ext {s s' : Atoms} (count : s.count = s'.count) (value : s.value = s'.value) :
    s.valuation = s'.valuation := by
  have length : ∀ s : Atoms, s.valuation.length = s.count := fun s => by simp [valuation, Atoms.count]
  have getElem : ∀ (s : Atoms) (a : Nat) (inside : a < s.valuation.length), s.valuation[a] = s.value a := by
    intro s a inside
    rw [← value_valuation, Valuation.value, List.getElem?_eq_getElem inside]
    rfl
  refine List.ext_getElem (by rw [length, length, count]) fun a inside inside' => ?_
  rw [getElem, getElem, value]

omit [Theory σ] in
/-- Coherent atoms are told apart by how many they are and by the true literals. -/
theorem Atoms.Coherent.valuation_eq {s s' : Atoms} (h : s.Coherent) (h' : s'.Coherent)
    (count : s.count = s'.count) (same : ∀ l, s.valueOf l = some true ↔ s'.valueOf l = some true) :
    s.valuation = s'.valuation := by
  refine valuation_ext count (funext fun a => ?_)
  by_cases top : a = topAtom
  · rw [top, Atoms.value, Atoms.value, h.top, h'.top]
  · refine Option.ext fun v => ?_
    have told := same (.on a v)
    rwa [valueOf, valueOf, Literal.valueOn_eq_true, Literal.valueOn_eq_true, Literal.atom_on,
      Literal.polarity_on top] at told

/-- Clauses without `falsum` are given to two fresh contexts, in any two orders of the clauses and of the
literals of each, and propagated once. The runs come to an end if values can be drawn for atoms, and fail
only for want of room. Otherwise either both report an inconsistency, or neither does and the valuations
are equal, with the least set of true literals that is closed under the unit rule. -/
theorem propagates_alike {clauses clauses' : List Clause} (proper : AreProper clauses)
    (rearranged : Rearranged clauses clauses') :
    (∀ settings : Settings, Generator.IsLikelihood settings.polarityBias.value →
      (∃ results s, (Session.ofSettings settings : Session σ).run (Command.giving clauses) =
        .ok (results, s)) ∧
      ∃ results s, (Session.ofSettings settings : Session σ).run (Command.giving clauses') =
        .ok (results, s)) ∧
    ∀ settings settings' results s results' s',
      (Session.ofSettings settings : Session σ).run (Command.giving clauses) = .ok (results, s) →
      (Session.ofSettings settings' : Session σ).run (Command.giving clauses') = .ok (results', s') →
      (∀ e, .error e ∈ results ++ results' → UInt32.size < clauses.length) ∧
      ((∀ e, .error e ∉ results ++ results') →
        ReportsInconsistency results ∧ ReportsInconsistency results' ∨
        ¬ReportsInconsistency results ∧ ¬ReportsInconsistency results' ∧
          s.context.atoms.valuation = s'.context.atoms.valuation ∧
          IsLeast {literals | ClosedUnderUnits clauses literals} {l | s.context.valueOf l = some true}) := by
  have proper' : AreProper clauses' := by
    intro c' given' l member'
    obtain ⟨c, given, same⟩ := rearranged.symm.exists_same c' given'
    exact proper c given l ((same l).mp member')
  have inRange : ∀ {clauses : List Clause}, AreProper clauses → ∀ c ∈ clauses, ∀ l ∈ c, l.atom ≤ maxAtom :=
    fun proper c given l member => (proper c given l member).2
  have coherent : ∀ {clauses settings results s}, (Session.ofSettings settings : Session σ).run
      (Command.giving clauses) = .ok (results, s) → s.context.atoms.Coherent := by
    intro clauses settings results s ran
    obtain ⟨_, run, _⟩ := PublicRun.of_run (Command.isPublic_of_giving clauses) ran
    exact run.coherent.1.supports.atoms
  refine ⟨fun settings likely => ⟨PublicRun.start.exists_giving rfl rfl likely (inRange proper),
    PublicRun.start.exists_giving rfl rfl likely (inRange proper')⟩, ?_⟩
  intro settings settings' results s results' s' ran ran'
  refine ⟨fun e failed => ?_, fun succeeded => ?_⟩
  · rcases List.mem_append.mp failed with here | there
    · have more := PublicRun.start.lt_of_failed_giving rfl rfl (inRange proper) ran here
      simpa [Session.ofSettings, Context.ofSettings] using more
    · have more := PublicRun.start.lt_of_failed_giving rfl rfl (inRange proper') ran' there
      rw [rearranged.length_eq]
      simpa [Session.ofSettings, Context.ofSettings] using more
  · simp only [List.mem_append, not_or] at succeeded
    obtain ⟨reports, derived⟩ := PublicRun.start.follows_giving (.initial clauses settings) .initial
      List.not_mem_nil rfl proper ran fun e => (succeeded e).1
    obtain ⟨reports', derived'⟩ := PublicRun.start.follows_giving (.initial clauses' settings') .initial
      List.not_mem_nil rfl proper' ran' fun e => (succeeded e).2
    by_cases refuted : UnitsRefute clauses
    · exact .inl ⟨reports.mpr refuted, reports'.mpr (rearranged.refuted_iff.mp refuted)⟩
    · have silent := fun reported => refuted (reports.mp reported)
      have silent' := fun reported => refuted (rearranged.refuted_iff.mpr (reports'.mp reported))
      refine .inr ⟨silent, silent', (coherent ran).valuation_eq (coherent ran') ?_ fun l => ?_, ?_⟩
      · have knows := PublicRun.start.knows_of_giving rfl rfl (inRange proper) (.initial settings) ran
        have knows' := PublicRun.start.knows_of_giving rfl rfl (inRange proper') (.initial settings') ran'
        exact knows.count_eq knows' rearranged
      · exact ((derived silent l).trans rearranged.forced_iff).trans (derived' silent' l).symm
      · have same : {l | s.context.valueOf l = some true} = {l | Forced clauses l} := Set.ext (derived silent)
        exact same ▸ isLeast_forced clauses

/-- A chain is drawn as its clauses are given, or backwards by propagation. -/
theorem propagates_chain_alike :
    ∃ results s results' s',
      (Session.ofSettings {} : Session (AtMost ⊕ Reachability)).run
        (Command.giving [[⟨1⟩], [⟨-1⟩, ⟨2⟩], [⟨-2⟩, ⟨3⟩, ⟨-1⟩]]) = .ok (results, s) ∧
      (Session.ofSettings {} : Session (AtMost ⊕ Reachability)).run
        (Command.giving [[⟨3⟩, ⟨-1⟩, ⟨-2⟩], [⟨2⟩, ⟨-1⟩], [⟨1⟩]]) = .ok (results', s') ∧
      s.context.atoms.reasonOf 3 = some (.clause (.given 2)) ∧
      s'.context.atoms.reasonOf 3 = some (.clause (.given 0)) ∧
      s.context.atoms.valuation = s'.context.atoms.valuation ∧
      IsLeast {literals | ClosedUnderUnits [[⟨1⟩], [⟨-1⟩, ⟨2⟩], [⟨-2⟩, ⟨3⟩, ⟨-1⟩]] literals}
        {l | s.context.valueOf l = some true} := by
  have rearranged : Rearranged [[⟨1⟩], [⟨-1⟩, ⟨2⟩], [⟨-2⟩, ⟨3⟩, ⟨-1⟩]]
      [[⟨3⟩, ⟨-1⟩, ⟨-2⟩], [⟨2⟩, ⟨-1⟩], [⟨1⟩]] := by
    refine ⟨[[⟨-2⟩, ⟨3⟩, ⟨-1⟩], [⟨-1⟩, ⟨2⟩], [⟨1⟩]], by decide, ?_⟩
    exact .cons (by decide) (.cons (by decide) (.cons (by decide) .nil))
  obtain ⟨results, s, ran, checked⟩ := Session.of_run_any
    (Session.ofSettings {} : Session (AtMost ⊕ Reachability))
    (Command.giving [[⟨1⟩], [⟨-1⟩, ⟨2⟩], [⟨-2⟩, ⟨3⟩, ⟨-1⟩]])
    (fun (results, s) => decide (results = [.ok (.clause (.added (.given 0))),
        .ok (.clause (.added (.given 1))), .ok (.clause (.added (.given 2))), .ok .fixpoint]) &&
      decide (s.context.atoms.reasonOf 3 = some (.clause (.given 2)))) (by decide +kernel)
  obtain ⟨results', s', ran', checked'⟩ := Session.of_run_any
    (Session.ofSettings {} : Session (AtMost ⊕ Reachability))
    (Command.giving [[⟨3⟩, ⟨-1⟩, ⟨-2⟩], [⟨2⟩, ⟨-1⟩], [⟨1⟩]])
    (fun (results, s) => decide (results = [.ok (.clause (.added (.given 0))),
        .ok (.clause (.added (.given 1))), .ok (.clause (.added (.given 2))), .ok .fixpoint]) &&
      decide (s.context.atoms.reasonOf 3 = some (.clause (.given 0)))) (by decide +kernel)
  rw [Bool.and_eq_true, decide_eq_true_eq, decide_eq_true_eq] at checked checked'
  obtain ⟨rfl, drawn⟩ := checked
  obtain ⟨rfl, drawn'⟩ := checked'
  have alike := ((propagates_alike (by decide) rearranged).2 {} {} _ _ _ _ ran ran').2 (by simp)
  obtain ⟨reported, _⟩ | ⟨_, _, same, least⟩ := alike
  · simp [ReportsInconsistency] at reported
  · exact ⟨_, s, _, s', ran, ran', drawn, drawn', same, least⟩

end SatModulo
