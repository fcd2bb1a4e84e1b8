import SatModulo.Proofs.Courses
import Mathlib.Data.List.Induction

/-!
# Unit propagation draws every consequence

What is propagated is propagated by forced literals and by passed ones, and propagation that finds no
conflict ends with the head at the end of the trail. Making a literal true misses no clause
(`Atoms.Missed.of_assign`): a clause that becomes decided by it has its opposite, which is still to be
propagated. The atoms without a value and the literals of the trail together stay as many as they were,
which bounds the steps.
-/
namespace SatModulo

namespace Valuation

theorem unvalued_eq_filter (v : Valuation) :
    v.unvalued = (List.range v.length).filter fun a => (v.value a).isNone := by
  unfold unvalued
  induction v using List.reverseRecOn with
  | nil => rfl
  | append_singleton v value ih =>
    rw [List.zipIdx_append, List.filterMap_append, ih, List.length_append, List.length_singleton,
      List.range_succ, List.filter_append]
    congr 1
    · refine List.filter_congr fun a inside => ?_
      simp only [Valuation.value]
      rw [List.getElem?_append_left (List.mem_range.mp inside)]
    · cases value <;> simp [Valuation.value]

end Valuation

namespace Atoms

variable {s s' : Atoms} {l : Literal} {reason : Reason} {clause : Clause}

theorem value_valuation (s : Atoms) (a : Atom) : s.valuation.value a = s.value a := by
  simp only [valuation, Valuation.value, value, assignment, List.getElem?_map, Array.getElem?_toList]
  cases s.cells[a]? <;> rfl

/-- The atoms without a value are the known ones that have none. -/
theorem mem_unvalued {a : Atom} : a ∈ s.unvalued ↔ a < s.count ∧ s.value a = none := by
  rw [unvalued, Valuation.unvalued_eq_filter, List.mem_filter, List.mem_range, value_valuation,
    Option.isNone_iff_eq_none]
  simp [valuation, count]

theorem nodup_unvalued : s.unvalued.Nodup := by
  rw [unvalued, Valuation.unvalued_eq_filter]
  exact List.nodup_range.filter _

theorem value_assign (made : s.assign l reason = .ok (.unset, s')) (a : Atom) :
    s'.value a = if a = l.atom then some l.polarity else s.value a := by
  obtain ⟨_, _, _, _, assignment⟩ := assign_eq_unset made
  rw [value, assignment]
  split
  · rfl
  · rfl

theorem valueOf_assign_of_ne (made : s.assign l reason = .ok (.unset, s')) {m : Literal}
    (other : m.atom ≠ l.atom) : s'.valueOf m = s.valueOf m := by
  rw [valueOf, valueOf, Literal.valueOn, Literal.valueOn, value_assign made, if_neg other]

theorem valueOf_assign_self (made : s.assign l reason = .ok (.unset, s')) :
    s'.valueOf l = some true := by
  rw [valueOf, Literal.valueOn_eq_true, value_assign made, if_pos rfl]

theorem length_assign (made : s.assign l reason = .ok (.unset, s')) :
    s'.trail.length = s.trail.length + 1 := by
  rw [Trail.length, literals_assign made, List.length_append]
  rfl

theorem head_assign (made : s.assign l reason = .ok (.unset, s')) :
    s'.trail.head = s.trail.head := by
  obtain ⟨_, _, _, trail, _⟩ := assign_eq_unset made
  rw [trail, Trail.head_store]

/-- A literal that is made true takes its atom from those without a value. -/
theorem length_unvalued_assign (made : s.assign l reason = .ok (.unset, s')) :
    s'.unvalued.length + 1 = s.unvalued.length := by
  obtain ⟨known, unvalued, counted, _⟩ := assign_eq_unset made
  have member : l.atom ∈ s.unvalued := mem_unvalued.mpr ⟨known, value_eq_none.mpr unvalued⟩
  have fewer : s'.unvalued.Perm (s.unvalued.erase l.atom) := by
    refine (List.perm_ext_iff_of_nodup nodup_unvalued (nodup_unvalued.erase _)).mpr fun a => ?_
    rw [nodup_unvalued.mem_erase_iff, mem_unvalued, mem_unvalued, counted, value_assign made]
    split
    · rename_i same
      simp [same]
    · rename_i other
      simp [other]
  rw [fewer.length_eq, List.length_erase_of_mem member]
  have positive := List.length_pos_of_mem member
  omega

/-- What is missed after a literal was made true was missed before. -/
theorem Missed.of_assign {head : Nat} (made : s.assign l reason = .ok (.unset, s'))
    (inside : head ≤ s.trail.length) (proper : l.atom ≠ topAtom) (distinct : clause.Nodup)
    (missed : s'.Missed head clause) : s.Missed head clause := by
  obtain ⟨decided, settled⟩ := missed
  have pending : l ∈ s'.trail.literals.drop head := by
    rw [literals_assign made, List.drop_append_of_le_length inside]
    simp
  -- A literal that is false now and was not before is the opposite of the one made true.
  have before : ∀ m ∈ clause, s'.valueOf m = some false → s.valueOf m = some false := by
    intro m member value
    by_cases same : m.atom = l.atom
    · rcases Literal.eq_or_eq_negate same with rfl | rfl
      · rw [valueOf_assign_self made] at value
        cases value
      · exact absurd (by rwa [Literal.negate_negate]) (settled _ member)
    · rwa [valueOf_assign_of_ne made same] at value
  refine ⟨?_, fun m member waiting => settled m member ?_⟩
  · cases state : clause.stateOn s'.value with
    | unforced => exact absurd state decided
    | falsified =>
      rw [Clause.stateOn_eq_falsified.mpr fun m member =>
        before m member (Clause.stateOn_eq_falsified.mp state m member)]
      decide
    | unit m =>
      obtain ⟨member, unset, others⟩ := Clause.stateOn_eq_unit state
      have unsetBefore : m.valueOn s.value = none := by
        rw [Literal.valueOn_eq_none, value_assign made] at unset
        split at unset
        · cases unset
        · exact Literal.valueOn_eq_none.mpr unset
      rw [Clause.stateOn_of_unit distinct member unsetBefore fun n inClause other =>
        before n inClause (others n inClause other)]
      exact ClauseState.noConfusion
  · rw [literals_assign made, List.drop_append_of_le_length inside]
    exact List.mem_append_left _ waiting

end Atoms

namespace ClauseStore

variable {store : ClauseStore} {s s' : Atoms}

theorem Supports.nodup (h : store.Supports s) {key : ClauseKey} {clause : Clause}
    (found : store.get? key = some clause) : clause.Nodup :=
  List.Nodup.of_map _ (h.distinct key clause found)

theorem Supports.propagates (h : store.Supports s)
    (steps : Relation.ReflTransGen store.Propagates s s') : store.Supports s' :=
  h.growsAll (steps.lift id fun _ _ => .units)

/-- What became of the clauses that were looked at: none of them is missed behind the head, or one of
them is false. None is corrupt. -/
def Visited (store : ClauseStore) (keys : List ClauseKey) (head : Nat) (outcome : Propagated)
    (s : Atoms) : Prop :=
  match outcome with
  | .ok _ => ∀ key ∈ keys, ∀ clause, store.get? key = some clause → ¬s.Missed head clause
  | .error (.conflict key) => ∃ clause, store.get? key = some clause ∧
    clause.stateOn s.value = .falsified
  | .error (.corruptOccurrence _) => False

/-- One more clause was looked at, and is not missed in the end. -/
theorem Visited.cons {keys : List ClauseKey} {head : Nat} {outcome : Propagated} {key : ClauseKey}
    {clause : Clause} (visited : store.Visited keys head outcome s) (found : store.get? key = some clause)
    (caught : ¬s.Missed head clause) : store.Visited (key :: keys) head outcome s := by
  cases outcome with
  | error e => cases e <;> exact visited
  | ok _ =>
    refine List.forall_mem_cons.mpr ⟨fun d found' => ?_, visited⟩
    rw [found] at found'
    cases found'
    exact caught

/-- What a look at some clauses does: it only makes literals true, each by a clause, and misses no clause among those
that it looked at. -/
theorem visit_spec (h : store.Supports s) {head : Nat} (inside : head ≤ s.trail.length)
    {keys : List ClauseKey} (stored : ∀ key ∈ keys, ∃ clause, store.get? key = some clause)
    {outcome : Propagated} (visited : visit store keys s = (outcome, s')) :
    Relation.ReflTransGen store.Propagates s s' ∧ s'.trail.head = s.trail.head ∧
      s.trail.literals <+: s'.trail.literals ∧
      s'.unvalued.length + s'.trail.length = s.unvalued.length + s.trail.length ∧
      (∀ clause : Clause, clause.Nodup → s'.Missed head clause → s.Missed head clause) ∧
      store.Visited keys head outcome s' := by
  induction keys generalizing s with
  | nil =>
    cases visited
    exact ⟨.refl, rfl, List.prefix_refl _, rfl, fun _ _ => id, fun key member => by cases member⟩
  | cons key rest ih =>
    obtain ⟨here, others⟩ := List.forall_mem_cons.mp stored
    replace ih := fun {s} h inside => @ih s h inside others
    unfold visit at visited
    split at visited
    · rename_i missing
      obtain ⟨clause, found⟩ := here
      cases missing.symm.trans found
    · rename_i clause found
      split at visited
      · rename_i unforced
        obtain ⟨steps, kept, longer, balance, back, others⟩ := ih h inside visited
        refine ⟨steps, kept, longer, balance, back, others.cons found fun missed => ?_⟩
        exact (back clause (h.nodup found) missed).1 unforced
      · rename_i falsified
        cases visited
        exact ⟨.refl, rfl, List.prefix_refl _, rfl, fun _ _ => id, clause, found, falsified⟩
      · rename_i l unit
        obtain ⟨member, unset, _⟩ := Clause.stateOn_eq_unit unit
        split at visited
        · rename_i status between made
          have isUnset : status = .unset := by
            rw [← (Atoms.assign_eq_ok made).2.1]
            exact Literal.statusOn_eq_unset.mpr unset
          subst isUnset
          have supports := h.force found unit made
          have proper : l.atom ≠ topAtom := by
            refine supports.atoms.ne_top_of_mem ?_
            rw [Atoms.literals_assign made]
            simp
          have length := Atoms.length_assign made
          obtain ⟨steps, kept, longer, balance, back, others⟩ := ih supports (by omega) visited
          have one : store.Propagates s between := .force s between key clause l found unit made
          refine ⟨.head one steps, kept.trans (Atoms.head_assign made), ?_, ?_, ?_,
            others.cons found fun missed => ?_⟩
          · rw [Atoms.literals_assign made] at longer
            exact (List.prefix_append _ _).trans longer
          · have fewer := Atoms.length_unvalued_assign made
            omega
          · exact fun d distinct missed =>
              (back d distinct missed).of_assign made inside proper distinct
          · exact (back clause (h.nodup found) missed).1
              (Clause.stateOn_of_true member (Atoms.valueOf_assign_self made))
        · rename_i failed
          obtain ⟨between, made⟩ := Atoms.assign_of_unvalued (.clause key)
            (h.known key clause found l member) (Atoms.value_eq_none.mp (Literal.valueOn_eq_none.mp unset))
          cases failed.symm.trans made

/-- How propagation ended: with the head at the end of the trail, or at a clause that is false. No
occurrence is corrupt. -/
def Ended (store : ClauseStore) (outcome : Propagated) (s : Atoms) : Prop :=
  match outcome with
  | .ok _ => s.trail.head = s.trail.length
  | .error (.conflict key) => ∃ clause, store.get? key = some clause ∧
    clause.stateOn s.value = .falsified
  | .error (.corruptOccurrence _) => False

/-- With fuel for every atom without a value and every literal past the head, propagation ends by itself. -/
theorem propagateWithin_spec (h : store.Supports s) {fuel : Nat} {outcome : Propagated}
    (enough : s.unvalued.length + (s.trail.length - s.trail.head) < fuel)
    (propagated : propagateWithin store fuel s = (outcome, s')) :
    Relation.ReflTransGen store.Propagates s s' ∧ store.Ended outcome s' := by
  induction fuel generalizing s with
  | zero => omega
  | succ fuel ih =>
    unfold propagateWithin at propagated
    split at propagated
    · rename_i atEnd
      cases propagated
      refine ⟨.refl, Nat.le_antisymm h.atoms.head_le ?_⟩
      exact List.getElem?_eq_none_iff.mp atEnd
    · rename_i l next
      have inside : s.trail.head < s.trail.length := by
        rw [Trail.next] at next
        exact (List.getElem?_eq_some_iff.mp next).1
      have stored : ∀ key ∈ store.occurrences l.negate, ∃ clause, store.get? key = some clause :=
        fun key member => ((h.indexed _ key).mp member).imp fun _ => And.left
      rcases visited : visit store (store.occurrences l.negate) s with ⟨e | _, between⟩
      · rw [visited] at propagated
        cases propagated
        obtain ⟨steps, _, _, _, _, stopped⟩ := visit_spec h inside stored visited
        exact ⟨steps, by cases e <;> exact stopped⟩
      · rw [visited] at propagated
        obtain ⟨steps, kept, longer, balance, _, seen⟩ := visit_spec h inside stored visited
        have supports := h.propagates steps
        have nextAfter : between.trail.next = some l := by
          obtain ⟨more, extended⟩ := longer
          rw [Trail.next, kept, ← extended, List.getElem?_append_left inside]
          exact next
        have one : store.Propagates between
            { between with trail.head := between.trail.head + 1 } := by
          refine .pass between l nextAfter fun key clause found member => ?_
          rw [kept]
          exact seen key ((h.indexed _ key).mpr ⟨clause, found, member⟩) clause found
        have room : between.unvalued.length + (between.trail.length - (between.trail.head + 1)) < fuel := by
          have further : s.trail.length ≤ between.trail.length := longer.length_le
          rw [kept]
          omega
        obtain ⟨others, ended⟩ := ih (supports.propagates (.single one)) room propagated
        exact ⟨(steps.tail one).trans others, ended⟩

theorem propagate_spec (h : store.Supports s) {outcome : Propagated}
    (propagated : propagate store s = (outcome, s')) :
    Relation.ReflTransGen store.Propagates s s' ∧ store.Ended outcome s' :=
  propagateWithin_spec h (Nat.lt_succ_self _) propagated

end ClauseStore

variable {σ : Type}

/-- A conflict of a context: a clause that it stores or that a theory gave, with every literal false. -/
def Context.Conflicting (c : Context σ) (conflict : Conflict) : Prop :=
  ∃ clause, (∀ l ∈ clause, c.valueOf l = some false) ∧
    match conflict with
    | .clause key => c.clauses.get? key = some clause
    | .theory i given => given = clause ∧ ∃ call ∈ c.theories.account i, call.clause? = some clause

theorem Draws.units [Theory σ] {c : Context σ} {atoms : Atoms}
    (steps : Relation.ReflTransGen c.clauses.Propagates c.atoms atoms) : Draws c { c with atoms } :=
  steps.lift (fun atoms => { c with atoms }) fun s s' step => .units { c with atoms := s } s' step

namespace Procedure

variable [Theory σ] {c : Context σ}

theorem propagateUnits_course (h : c.Coherent) :
    (propagateUnits : Procedure σ Unit).Ensures c fun result after => Draws c after ∧
      match result with
      | .ok _ => after.atoms.trail.head = after.atoms.trail.length
      | .error e => ∀ conflict, e.conflict? = some conflict → after.Conflicting conflict := by
  refine .get_bind ?_
  rcases propagated : c.clauses.propagate c.atoms with ⟨outcome, atoms⟩
  obtain ⟨steps, ended⟩ := ClauseStore.propagate_spec h.supports propagated
  refine .modify_bind (.ofExcept ?_ ?_)
  · rintro e rfl
    refine ⟨Draws.units steps, fun conflict found => ?_⟩
    cases e with
    | corruptOccurrence key => exact ended.elim
    | conflict key =>
      cases found
      obtain ⟨clause, stored, falsified⟩ := ended
      exact ⟨clause, Clause.stateOn_eq_falsified.mp falsified, stored⟩
  · rintro ⟨⟩ rfl
    exact ⟨Draws.units steps, ended⟩

/-- Without a conflict the head is at the end of the trail. -/
theorem propagateClauses_leads (h : c.Coherent) :
    (propagateClauses : Procedure σ (Option ClauseKey)).Leads Draw c c fun outcome after =>
      match outcome with
      | none => after.atoms.trail.head = after.atoms.trail.length
      | some key => after.Conflicting (.clause key) := by
  refine .get_bind ?_
  rcases propagated : c.clauses.propagate c.atoms with ⟨outcome, atoms⟩
  obtain ⟨steps, ended⟩ := ClauseStore.propagate_spec h.supports propagated
  refine .modify_bind ?_
  split
  · exact .pure (Draws.units steps) ended
  · obtain ⟨clause, stored, falsified⟩ := ended
    exact .pure (Draws.units steps) ⟨clause, Clause.stateOn_eq_falsified.mp falsified, stored⟩
  · exact ended.elim

end Procedure

end SatModulo
