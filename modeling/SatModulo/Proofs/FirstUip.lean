import SatModulo.Proofs.Endings
import SatModulo.Proofs.Openings
import SatModulo.Proofs.Runs
import SatModulo.Theories.RuleTable
import Mathlib.Data.Finset.Card

/-!
# Analysis is naive resolution

Naive resolution works on a set of literals. As long as two literals of the set are of the current level,
the latest literal of the trail whose opposite is in the set is resolved on: the opposite is replaced by
the other literals of the reason (`Context.Resolves`). Analysis builds no such set. What it keeps stands
for one all the same: the literals of lower levels, and the opposites of those of the trail that were met
and are still to come (`Resolvent.literals`). So it resolves on the same literals, asks for the same
reasons, and ends as naive resolution does (`Procedure.analyse_ends`).
-/
namespace SatModulo

variable {σ : Type}

namespace Context

def ofLevel (c : Context σ) (set : Finset Literal) : Finset Literal :=
  set.filter fun m => c.atoms.levelOf m.atom = some c.level

/-- The literal of the trail that a set is resolved on next: the latest whose opposite is in the set,
while two literals of the set are of the current level. -/
structure Pivot (c : Context σ) (set : Finset Literal) (l : Literal) : Prop where
  several : 2 ≤ (c.ofLevel set).card
  opposite : l.negate ∈ set
  latest : ∃ earlier later, c.atoms.trail.literals = earlier ++ l :: later ∧
    ∀ t ∈ later, t.negate ∉ set

variable [Theory σ]

/-- The reason for a literal is looked up, or a theory is asked for it, which counts as activity. -/
inductive Asked (c : Context σ) (l : Literal) : Clause → Context σ → Prop
  | stored (key : ClauseKey) (reason : Clause) (reasoned : c.atoms.reasonOf l.atom = some (.clause key))
    (found : c.clauses.get? key = some reason) : Asked c l reason c
  | built (i : Nat) (marker : Marker) (m : Member σ) (reason : Clause) (theory : σ)
    (reasoned : c.atoms.reasonOf l.atom = some (.theory i marker))
    (found : c.theories.members[i]? = some m)
    (answered : Theory.buildReason l marker m.theory = .ok (reason, theory)) :
    Asked c l reason
      { c.withCall i { m with theory } (.buildReason l marker reason) with
        theories := { (c.withCall i { m with theory } (.buildReason l marker reason)).theories with
          schedule := c.theories.schedule.bumpBy c.settings.host.conventions i }
        counters := { c.counters with reasons := c.counters.reasons + 1 } }

/-- A theory that is asked for the reason for a literal faults. -/
def Faults (c : Context σ) (l : Literal) (cause : Fault) : Prop :=
  ∃ i marker m, c.atoms.reasonOf l.atom = some (.theory i marker) ∧
    c.theories.members[i]? = some m ∧ Theory.buildReason l marker m.theory = .error cause

/-- Naive resolution of a set of literals: some steps, each with a reason that explains its literal. -/
inductive Resolves : Context σ → Finset Literal → Context σ → Finset Literal → Prop
  | refl (c : Context σ) (set : Finset Literal) : Resolves c set c set
  | step {c mid after : Context σ} {set final : Finset Literal} {l : Literal} {reason : Clause}
    (pivot : c.Pivot set l) (asked : c.Asked l reason mid) (explains : c.atoms.Explains reason l)
    (rest : Resolves mid (set.erase l.negate ∪ reason.toFinset.erase l) after final) :
    Resolves c set after final

/-- Naive resolution comes to the set of a clause without repetition, and only the first literal of the
clause is of the current level. -/
def ResolvesTo (c : Context σ) (set : Finset Literal) (after : Context σ) (l : Literal)
    (lower : List Literal) : Prop :=
  c.Resolves set after (l :: lower).toFinset ∧ (l :: lower).Nodup ∧
    after.ofLevel (l :: lower).toFinset = {l}

/-- Naive resolution comes to a theory that gives as a reason what explains nothing. -/
def Misled (c : Context σ) (set : Finset Literal) (i : Nat) (after : Context σ) : Prop :=
  ∃ mid between l reason marker, c.Resolves set mid between ∧ mid.Pivot between l ∧
    mid.atoms.reasonOf l.atom = some (.theory i marker) ∧ mid.Asked l reason after ∧
    ¬mid.atoms.Explains reason l

/-- Naive resolution comes to a theory that faults. -/
def Broken (c : Context σ) (set : Finset Literal) (cause : Fault) : Prop :=
  ∃ mid between l, c.Resolves set mid between ∧ mid.Pivot between l ∧ mid.Faults l cause

end Context

/-! ### Reasons -/

namespace Atoms

variable {s : Atoms} {l m : Literal} {clause : Clause}

/-- The position of the atom of a literal of the trail. -/
theorem positionOf_eq (h : s.Coherent) {earlier : List Literal}
    (order : earlier ++ [l] <+: s.trail.literals) : s.positionOf l.atom = some earlier.length := by
  obtain ⟨later, whole⟩ := order
  have distinct := h.distinct
  rw [positionOf, ← whole]
  rw [← whole, List.append_assoc, List.map_append, List.nodup_append] at distinct
  refine List.findIdx?_eq_some_iff_getElem.mpr ⟨by simp, by simp, fun j before => ?_⟩
  have other : earlier[j].atom ≠ l.atom :=
    distinct.2.2 _ (List.mem_map_of_mem (List.getElem_mem before)) _ (by simp)
  simpa [List.getElem_append_left before] using other

/-- What explains a literal above the base level passes as a reason for it. -/
theorem isReason_of_explains (h : s.Coherent) {level : Nat} (given : s.levelOf l.atom = some level)
    (above : 0 < level) (explains : s.Explains clause l) : s.isReason l clause := by
  obtain ⟨earlier, order, member, others⟩ := explains
  rw [isReason, given]
  simp only [Bool.and_eq_true, List.contains_iff_mem, List.all_eq_true, Bool.or_eq_true, beq_iff_eq]
  refine ⟨member, fun m inClause => or_iff_not_imp_left.mpr fun other => ?_⟩
  rw [falseBefore, Bool.and_eq_true, beq_iff_eq]
  rcases others m inClause other with before | top
  · have onTrail : m.negate ∈ s.trail.literals := order.subset (by simp [before])
    have proper := h.ne_top_of_mem onTrail
    rw [Literal.atom_negate] at proper
    refine ⟨(h.valueOf_eq_false proper).mpr onTrail, ?_⟩
    obtain ⟨i, reason, assigned⟩ := h.mem_literals_iff.mp onTrail
    have givenM : s.levelOf m.atom = some i := by
      rw [← Literal.atom_negate]
      exact levelOf_eq_some.mpr ⟨_, assigned, rfl⟩
    have low := h.levelOf_le_of_before order before given (by rwa [Literal.atom_negate])
    simp only [givenM, Bool.or_eq_true, Bool.and_eq_true, decide_eq_true_eq, beq_iff_eq]
    refine or_iff_not_imp_left.mpr fun notLower => ⟨by omega, ?_⟩
    obtain ⟨first, second, rfl⟩ := List.append_of_mem before
    have orderM : first ++ [m.negate] <+: s.trail.literals :=
      List.IsPrefix.trans ⟨second ++ [l], by simp⟩ order
    rw [assignedBefore, positionOf_eq h order, ← Literal.atom_negate, positionOf_eq h orderM]
    simp
  · have zero : s.levelOf m.atom = some 0 := by
      rw [top]
      exact levelOf_eq_some.mpr ⟨_, h.top, rfl⟩
    exact ⟨valueOf_falsum h top, by simp [zero, above]⟩

end Atoms

theorem Context.Pivot.onTrail {c : Context σ} {set : Finset Literal} {l : Literal}
    (pivot : c.Pivot set l) : l ∈ c.atoms.trail.literals := by
  obtain ⟨earlier, later, split, _⟩ := pivot.latest
  simp [split]

section Reasons

variable [Theory σ] {c after : Context σ} {l : Literal} {reason : Clause} {set final : Finset Literal}

theorem Context.Asked.frame (asked : c.Asked l reason after) :
    after.atoms = c.atoms ∧ after.clauses = c.clauses := by
  cases asked <;> exact ⟨rfl, rfl⟩

theorem Context.Asked.draws (asked : c.Asked l reason after) (onTrail : l ∈ c.atoms.trail.literals) :
    Draws c after := by
  cases asked with
  | stored => exact .refl
  | built i marker m reason theory reasoned found answered =>
    have explained : Draw c _ := .explain c i m found l marker onTrail reasoned reason theory answered
    exact (Relation.ReflTransGen.single explained).tail (.adjust _ c.random
      { c.counters with reasons := c.counters.reasons + 1 } (c.theories.schedule.bumpBy c.settings.host.conventions i)
      (Schedule.length_bumpBy _ _ i))

theorem Context.Resolves.frame (resolves : c.Resolves set after final) :
    after.atoms = c.atoms ∧ after.clauses = c.clauses ∧ Draws c after := by
  induction resolves with
  | refl => exact ⟨rfl, rfl, .refl⟩
  | step pivot asked explains rest ih =>
    obtain ⟨atoms, clauses⟩ := asked.frame
    exact ⟨ih.1.trans atoms, ih.2.1.trans clauses, (asked.draws pivot.onTrail).trans ih.2.2⟩

omit [Theory σ] in
/-- There is one literal to be resolved on. -/
theorem Context.Pivot.unique {m : Literal} (first : c.Pivot set l) (second : c.Pivot set m) : l = m := by
  obtain ⟨earlier, later, split, latest⟩ := first.latest
  obtain ⟨earlier', later', split', latest'⟩ := second.latest
  rw [split, List.append_eq_append_iff] at split'
  rcases split' with ⟨_ | ⟨x, between⟩, _, same⟩ | ⟨_ | ⟨x, between⟩, _, same⟩ <;>
    simp only [List.nil_append, List.cons_append, List.cons.injEq] at same
  · exact same.1
  · exact absurd second.opposite (latest m (by rw [same.2]; simp))
  · exact same.1.symm
  · exact absurd first.opposite (latest' l (by rw [same.2]; simp))

/-- The reason for a literal is the same whenever it is asked for in the same context. -/
theorem Context.Asked.unique {reason' : Clause} {after' : Context σ} (first : c.Asked l reason after)
    (second : c.Asked l reason' after') : reason = reason' ∧ after = after' := by
  cases first with
  | stored key _ reasoned found =>
    cases second with
    | stored key' _ reasoned' found' =>
      cases reasoned.symm.trans reasoned'
      cases found.symm.trans found'
      exact ⟨rfl, rfl⟩
    | built i marker m _ theory reasoned' => cases reasoned.symm.trans reasoned'
  | built i marker m _ theory reasoned found answered =>
    cases second with
    | stored key' _ reasoned' => cases reasoned.symm.trans reasoned'
    | built j marker' m' _ theory' reasoned' found' answered' =>
      cases reasoned.symm.trans reasoned'
      cases found.symm.trans found'
      cases answered.symm.trans answered'
      exact ⟨rfl, rfl⟩

/-- Naive resolution can go one way only. -/
theorem Context.Resolves.linear {after' : Context σ} {final' : Finset Literal}
    (first : c.Resolves set after final) (second : c.Resolves set after' final') :
    after.Resolves final after' final' ∨ after'.Resolves final' after final := by
  induction first with
  | refl => exact .inl second
  | step pivot asked explains rest ih =>
    cases second with
    | refl => exact .inr (.step pivot asked explains rest)
    | step pivot' asked' explains' rest' =>
      obtain rfl := pivot.unique pivot'
      obtain ⟨rfl, rfl⟩ := asked.unique asked'
      exact ih rest'

/-- Where a reason that is no decision is asked for, it is a stored clause, or the theory gives what
explains the literal, or what does not, or a fault. -/
theorem Procedure.reasonFor_ends (h : c.Coherent) (opened : c.Opened)
    (onTrail : l ∈ c.atoms.trail.literals) {level : Nat} (given : c.atoms.levelOf l.atom = some level)
    (above : 0 < level) (drawn : c.atoms.reasonOf l.atom ≠ some .decision) :
    (reasonFor l).Ends c (c.Faults l) fun result after =>
      match result with
      | .ok reason => c.Asked l reason after ∧ c.atoms.Explains reason l
      | .error e => ∃ i marker reason, c.atoms.reasonOf l.atom = some (.theory i marker) ∧
        c.Asked l reason after ∧ ¬c.atoms.Explains reason l ∧ e = .theory (.malformedReason i) := by
  refine .get_bind ?_
  dsimp only
  split
  · rename_i key reasoned
    obtain ⟨clause, stored, explains⟩ := h.supports.because l onTrail key reasoned
    refine .ofExcept (fun e failed => ?_) fun found got => ?_
    · rw [ClauseStore.get, stored] at failed
      cases failed
    · rw [ClauseStore.get, stored] at got
      cases got
      exact ⟨.stored key clause reasoned stored, explains⟩
  · rename_i i marker reasoned
    have known := opened.registered _ i marker reasoned
    have found := List.getElem?_eq_getElem known
    generalize c.theories.members[i] = m at found
    refine .ofFaulty_bind (fun cause faulty => ⟨i, marker, m, reasoned, found, ?_⟩) ?_
    · rw [Registry.changeAt, found] at faulty
      rcases Except.bind_eq_error faulty with failed | ⟨_, _, done⟩
      · rcases Except.bind_eq_error failed with built | ⟨_, _, done⟩
        · exact built
        · cases done
      · cases done
    · rintro ⟨reason, theories⟩ asked
      cases reason with
      | none =>
        rw [(Registry.changeAt_eq_none asked).1] at found
        cases found
      | some reason =>
        obtain ⟨m', n, own, found', answered, rfl⟩ := Registry.changeAt_eq_ok asked
        rw [found] at found'
        cases found'
        obtain ⟨⟨reason', theory⟩, built, same⟩ := Except.bind_eq_ok answered
        cases same
        have asked : c.Asked l reason' _ := .built i marker m reason' theory reasoned found built
        refine .modify_bind (.modify_bind ?_)
        split
        · rename_i isReason
          exact .pure ⟨asked, Atoms.explains_of_isReason h.supports.atoms onTrail isReason⟩
        · rename_i notReason
          exact .throw ⟨i, marker, reason', reasoned, asked,
            fun explains => notReason (Atoms.isReason_of_explains h.supports.atoms given above explains),
            rfl⟩
  · rename_i decided
    exact absurd decided drawn
  · rename_i unreasoned
    obtain ⟨i, reason, assigned⟩ := h.supports.atoms.mem_literals_iff.mp onTrail
    rw [Atoms.reasonOf, assigned] at unreasoned
    cases unreasoned

end Reasons

/-! ### The set of a resolvent -/

namespace Resolvent

variable {s : Atoms} {r r' : Resolvent} {l : Literal} {rest : List Literal}

/-- The set that a resolvent stands for: the literals that are kept, and the opposites of those that are
not resolved. -/
def literals (s : Atoms) (r : Resolvent) (rest : List Literal) : Finset Literal :=
  r.lower.toFinset ∪ ((r.unresolved s rest).map Literal.negate).toFinset

theorem mem_literals {m : Literal} :
    m ∈ r.literals s rest ↔ m ∈ r.lower ∨ m.negate ∈ r.unresolved s rest := by
  rw [literals, Finset.mem_union, List.mem_toFinset, List.mem_toFinset, List.mem_map]
  refine or_congr_right ⟨?_, fun opposite => ⟨_, opposite, m.negate_negate⟩⟩
  rintro ⟨t, member, rfl⟩
  rwa [Literal.negate_negate]

/-- The literals of the current level are the opposites of those not resolved. -/
theorem ofLevel_literals (follows : r.Follows s rest) :
    (r.literals s rest).filter (fun m => s.levelOf m.atom = some s.level) =
      ((r.unresolved s rest).map Literal.negate).toFinset := by
  ext m
  rw [Finset.mem_filter, mem_literals, List.mem_toFinset, List.mem_map]
  constructor
  · rintro ⟨kept | opposite, current⟩
    · obtain ⟨level, given, low⟩ := follows.below m kept
      rw [given] at current
      exact absurd (Option.some.inj current) (Nat.ne_of_lt low)
    · exact ⟨_, opposite, m.negate_negate⟩
  · rintro ⟨t, member, rfl⟩
    rw [Literal.negate_negate, Literal.atom_negate]
    exact ⟨.inr member, (mem_unresolved.mp member).2.2⟩

theorem card_ofLevel (follows : r.Follows s rest) (distinct : rest.Nodup) :
    ((r.literals s rest).filter fun m => s.levelOf m.atom = some s.level).card = r.pending := by
  rw [ofLevel_literals follows, List.toFinset_card_of_nodup, List.length_map, follows.pending]
  exact (distinct.filter _).map (Function.Involutive.injective Literal.negate_negate)

/-- A literal of the current level is met by its opposite, the only literal of its atom on the trail. -/
theorem literals_meet (h : s.Coherent) (sub : rest.Sublist s.trail.literals.reverse)
    (given : s.levelOf l.atom = some s.level) (coming : l.negate ∈ rest) :
    Resolvent.literals s { r with seen := l.atom :: r.seen, pending := r.pending + 1 } rest =
      insert l (r.literals s rest) := by
  have onTrail : ∀ t ∈ rest, t ∈ s.trail.literals := fun t member => List.mem_reverse.mp (sub.subset member)
  ext m
  rw [Finset.mem_insert, mem_literals, mem_literals, mem_unresolved, mem_unresolved, List.mem_cons,
    Literal.atom_negate]
  constructor
  · rintro (kept | ⟨inRest, same | before, level⟩)
    · exact .inr (.inl kept)
    · have opposite := h.eq_of_atom (onTrail _ inRest) (onTrail _ coming) (by simpa using same)
      exact .inl (Function.Involutive.injective Literal.negate_negate opposite)
    · exact .inr (.inr ⟨inRest, before, level⟩)
  · rintro (rfl | kept | ⟨inRest, before, level⟩)
    · exact .inr ⟨coming, .inl rfl, given⟩
    · exact .inl kept
    · exact .inr ⟨inRest, .inr before, level⟩

/-- A literal of another level is kept. -/
theorem literals_keep (other : s.levelOf l.atom ≠ some s.level) :
    Resolvent.literals s { r with seen := l.atom :: r.seen, lower := r.lower ++ [l] } rest =
      insert l (r.literals s rest) := by
  ext m
  rw [Finset.mem_insert, mem_literals, mem_literals, mem_unresolved, mem_unresolved, List.mem_cons,
    List.mem_append, List.mem_singleton, Literal.atom_negate]
  constructor
  · rintro ((kept | rfl) | ⟨inRest, same | before, current⟩)
    · exact .inr (.inl kept)
    · exact .inl rfl
    · exact absurd (same ▸ current) other
    · exact .inr (.inr ⟨inRest, before, current⟩)
  · rintro (rfl | kept | ⟨inRest, before, current⟩)
    · exact .inl (.inr rfl)
    · exact .inl (.inl kept)
    · exact .inr ⟨inRest, .inr before, current⟩

/-- A false literal is taken in, whether it was there before or not. -/
theorem add_eq (h : s.Coherent) (follows : r.Follows s rest)
    (sub : rest.Sublist s.trail.literals.reverse) (falsified : s.valueOf l = some false)
    (coming : s.levelOf l.atom = some s.level → l.negate ∈ rest) :
    ∃ r', add s r l = .ok r' ∧ r'.literals s rest = insert l (r.literals s rest) := by
  obtain ⟨level, given⟩ := Atoms.levelOf_isSome_of_false falsified
  by_cases seen : l.atom ∈ r.seen
  · refine ⟨r, (add_eq_ok_iff given).mpr (.inl ⟨seen, rfl⟩), (Finset.insert_eq_of_mem ?_).symm⟩
    rcases follows.covers falsified seen with kept | ⟨_, current⟩
    · exact mem_literals.mpr (.inl kept)
    · exact mem_literals.mpr (.inr (mem_unresolved.mpr
        ⟨coming current, by simpa using seen, by simpa using current⟩))
  · by_cases current : level = s.level
    · subst current
      exact ⟨_, (add_eq_ok_iff given).mpr (.inr (.inl ⟨seen, rfl, rfl⟩)),
        literals_meet h sub given (coming given)⟩
    · refine ⟨_, (add_eq_ok_iff given).mpr (.inr (.inr ⟨seen, current, rfl⟩)), literals_keep ?_⟩
      rw [given]
      exact fun same => current (Option.some.inj same)

/-- Adding a false clause to a resolvent is the union of the sets that they stand for. -/
theorem addAll_eq (h : s.Coherent) (follows : r.Follows s rest)
    (sub : rest.Sublist s.trail.literals.reverse) {clause : Clause}
    (falsified : ∀ l ∈ clause, s.valueOf l = some false)
    (coming : ∀ l ∈ clause, s.levelOf l.atom = some s.level → l.negate ∈ rest) :
    ∃ r', addAll s r clause = .ok r' ∧
      r'.literals s rest = r.literals s rest ∪ clause.toFinset := by
  unfold addAll
  induction clause generalizing r with
  | nil => exact ⟨r, rfl, by simp⟩
  | cons l others ih =>
    obtain ⟨between, first, taken⟩ := add_eq h follows sub (falsified l (.head _)) (coming l (.head _))
    have follows' := (add_spec h follows sub (falsified l (.head _)) (coming l (.head _)) first).1
    obtain ⟨r', rest', literals⟩ := ih follows' (fun m member => falsified m (.tail _ member))
      fun m member => coming m (.tail _ member)
    refine ⟨r', by rw [List.foldlM_cons, first]; exact rest', ?_⟩
    rw [literals, taken, List.toFinset_cons, Finset.insert_union, Finset.union_insert]

/-- The literal resolved on is taken out. -/
theorem literals_resolved (follows : r.Follows s (l :: rest)) (distinct : (l :: rest).Nodup)
    (current : s.levelOf l.atom = some s.level) :
    Resolvent.literals s { r with pending := r.pending - 1 } rest =
      (r.literals s (l :: rest)).erase l.negate := by
  ext m
  rw [Finset.mem_erase, mem_literals, mem_literals, mem_unresolved, mem_unresolved, List.mem_cons]
  constructor
  · rintro (kept | ⟨inRest, before⟩)
    · refine ⟨?_, .inl kept⟩
      rintro rfl
      obtain ⟨level, given, low⟩ := follows.below _ kept
      rw [Literal.atom_negate, current] at given
      exact absurd (Option.some.inj given) (Nat.ne_of_gt low)
    · refine ⟨?_, .inr ⟨.inr inRest, before⟩⟩
      rintro rfl
      rw [Literal.negate_negate] at inRest
      exact (List.nodup_cons.mp distinct).1 inRest
  · rintro ⟨other, kept | ⟨same | inRest, before⟩⟩
    · exact .inl kept
    · exact absurd (by rw [← same, Literal.negate_negate]) other
    · exact .inr ⟨inRest, before⟩

/-- A literal that was not met is no part of the set. -/
theorem literals_unmet (unmet : l.atom ∉ r.seen) : r.literals s (l :: rest) = r.literals s rest := by
  rw [literals, unresolved_unmet unmet]
  rfl

/-- Where one literal of the level is left, the set is its opposite and the literals kept. -/
theorem literals_alone (alone : r.unresolved s (l :: rest) = [l]) :
    r.literals s (l :: rest) = (l.negate :: r.lower).toFinset := by
  rw [literals, alone, List.map_singleton, List.toFinset_cons, List.toFinset_cons, Finset.union_comm]
  rfl

/-- Taking in the other literals of what explains the literal resolved on is a step of naive resolution. -/
theorem Follows.explained_eq (follows : r.Follows s (l :: rest)) (h : s.Coherent) (above : 0 < s.level)
    (order : rest.reverse ++ [l] <+: s.trail.literals) (met : l.atom ∈ r.seen)
    (current : s.levelOf l.atom = some s.level) {reason : Clause} (explains : s.Explains reason l) :
    ∃ r', addAll s { r with pending := r.pending - 1 } (reason.filter (· ≠ l)) = .ok r' ∧
      r'.literals s rest = (r.literals s (l :: rest)).erase l.negate ∪ reason.toFinset.erase l := by
  obtain ⟨falsified, coming⟩ := explains.others h above order
  have sub := sublist_of_order order
  have distinct : (l :: rest).Nodup := by
    refine List.nodup_reverse.mp ?_
    rw [List.reverse_cons]
    exact h.nodup.sublist order.sublist
  obtain ⟨r', added, taken⟩ := addAll_eq h (follows.resolve met current) sub falsified
    fun m member level => List.mem_reverse.mp (coming m member level)
  refine ⟨r', added, ?_⟩
  rw [taken, literals_resolved follows distinct current]
  congr 1
  ext m
  simp [and_comm]

/-- Taking in a false clause before any of the trail was met gives the set of its literals. -/
theorem Follows.start_eq (h : s.Coherent) (above : 0 < s.level) {clause : Clause}
    (falsified : ∀ l ∈ clause, s.valueOf l = some false)
    (current : ∃ l ∈ clause, s.levelOf l.atom = some s.level) :
    ∃ r, addAll s {} clause = .ok r ∧ 0 < r.pending ∧ r.Follows s s.trail.literals.reverse ∧
      r.literals s s.trail.literals.reverse = clause.toFinset := by
  obtain ⟨r, added, taken⟩ := addAll_eq h (.empty s _) (List.Sublist.refl _) falsified
    fun l member level => List.mem_reverse.mpr (Atoms.negate_mem_of_current h above (falsified l member) level)
  have follows := (Follows.start h above falsified added).1
  have whole : r.literals s s.trail.literals.reverse = clause.toFinset := by
    rw [taken]
    simp [literals, unresolved]
  refine ⟨r, added, ?_, follows, whole⟩
  obtain ⟨l, member, level⟩ := current
  rw [← card_ofLevel follows (List.nodup_reverse.mpr h.nodup), whole]
  exact Finset.card_pos.mpr ⟨l, Finset.mem_filter.mpr ⟨List.mem_toFinset.mpr member, level⟩⟩

end Resolvent

/-! ### Analysis -/

variable [Theory σ] {c mid after : Context σ} {set final : Finset Literal}

/-- What is misled or breaks after a step does so before. -/
theorem Context.Misled.step {l : Literal} {reason : Clause} {i : Nat} (pivot : c.Pivot set l)
    (asked : c.Asked l reason mid) (explains : c.atoms.Explains reason l)
    (misled : mid.Misled (set.erase l.negate ∪ reason.toFinset.erase l) i after) :
    c.Misled set i after := by
  obtain ⟨last, between, t, other, marker, resolves, rest⟩ := misled
  exact ⟨last, between, t, other, marker, .step pivot asked explains resolves, rest⟩

theorem Context.Broken.step {l : Literal} {reason : Clause} {cause : Fault} (pivot : c.Pivot set l)
    (asked : c.Asked l reason mid) (explains : c.atoms.Explains reason l)
    (broken : mid.Broken (set.erase l.negate ∪ reason.toFinset.erase l) cause) :
    c.Broken set cause := by
  obtain ⟨last, between, t, resolves, rest⟩ := broken
  exact ⟨last, between, t, .step pivot asked explains resolves, rest⟩

omit [Theory σ] in
/-- The last literal that was met is the one to be resolved on. -/
private theorem pivot_of_met (h : c.Coherent) {l : Literal} {earlier : List Literal} {r : Resolvent}
    (order : (l :: earlier).reverse <+: c.atoms.trail.literals)
    (follows : r.Follows c.atoms (l :: earlier)) (current : c.atoms.levelOf l.atom = some c.level)
    (met : l.atom ∈ r.seen) (several : 2 ≤ r.pending) :
    c.Pivot (r.literals c.atoms (l :: earlier)) l := by
  have atoms := h.supports.atoms
  have distinct : (l :: earlier).Nodup := List.nodup_reverse.mp (atoms.nodup.sublist order.sublist)
  obtain ⟨later, whole⟩ := order
  rw [List.reverse_cons] at whole
  refine ⟨?_, Resolvent.mem_literals.mpr (.inr ?_), earlier.reverse, later, ?_, fun t behind inside => ?_⟩
  · have count := Resolvent.card_ofLevel follows distinct
    rw [Context.ofLevel]
    exact several.trans_eq count.symm
  · rw [Literal.negate_negate]
    exact Resolvent.mem_unresolved.mpr ⟨.head _, met, current⟩
  · rw [← whole, List.append_assoc, List.singleton_append]
  · -- What is behind the literal is of its level, and neither kept nor still to come.
    have onTrail : t ∈ c.atoms.trail.literals := by
      rw [← whole]
      exact List.mem_append_right _ behind
    obtain ⟨level, reason, assigned⟩ := atoms.mem_literals_iff.mp onTrail
    have given : c.atoms.levelOf t.atom = some level := Atoms.levelOf_eq_some.mpr ⟨_, assigned, rfl⟩
    rcases Resolvent.mem_literals.mp inside with kept | toCome
    · obtain ⟨low, given', below⟩ := follows.below _ kept
      rw [Literal.atom_negate, given] at given'
      cases given'
      obtain ⟨first, second, rfl⟩ := List.append_of_mem behind
      have order : (earlier.reverse ++ [l] ++ first) ++ [t] <+: c.atoms.trail.literals :=
        ⟨second, by rw [← whole]; simp⟩
      have le := atoms.levelOf_le_of_before order (m := l) (by simp) given current
      exact absurd below (Nat.not_lt.mpr le)
    · rw [Literal.negate_negate] at toCome
      have apart := atoms.nodup
      rw [← whole, ← List.reverse_cons, List.nodup_append] at apart
      exact apart.2.2 t (List.mem_reverse.mpr (Resolvent.mem_unresolved.mp toCome).1) t behind rfl

omit [Theory σ] in
/-- A literal that has another of the current level before it was drawn, not decided. -/
private theorem drawn_of_several (opened : c.Opened) {l : Literal} {earlier : List Literal}
    {r : Resolvent} (order : (l :: earlier).reverse <+: c.atoms.trail.literals)
    (current : c.atoms.levelOf l.atom = some c.level) (several : r.unresolved c.atoms earlier ≠ []) :
    c.atoms.reasonOf l.atom ≠ some .decision := by
  intro decided
  obtain ⟨t, member⟩ := List.exists_mem_of_ne_nil _ several
  obtain ⟨inEarlier, _, level⟩ := Resolvent.mem_unresolved.mp member
  rw [List.reverse_cons] at order
  exact opened.atoms.first _ l order decided t (List.mem_reverse.mpr inEarlier) (level.trans current.symm)

namespace Procedure

/-- Resolution along the trail ends as naive resolution does. -/
theorem descend_ends (h : c.Coherent) (opened : c.Opened) (above : 0 < c.level) {rest : List Literal}
    {r : Resolvent} (order : rest.reverse <+: c.atoms.trail.literals) (follows : r.Follows c.atoms rest)
    (pending : 0 < r.pending) :
    (descend rest r).Ends c (c.Broken (r.literals c.atoms rest)) fun result after =>
      match result with
      | .ok (last, lower) =>
        c.Resolves (r.literals c.atoms rest) after (last.negate :: lower).toFinset ∧
          (lower.map Literal.atom).Nodup ∧ c.atoms.levelOf last.atom = some c.level ∧
          ∀ m ∈ lower, ∃ level, c.atoms.levelOf m.atom = some level ∧ level < c.level
      | .error e => ∃ i, e = .theory (.malformedReason i) ∧
        c.Misled (r.literals c.atoms rest) i after := by
  induction rest generalizing c r with
  | nil =>
    rw [follows.pending] at pending
    cases pending
  | cons l earlier ih =>
    have atoms := h.supports.atoms
    have orderL : earlier.reverse ++ [l] <+: c.atoms.trail.literals := by rwa [← List.reverse_cons]
    have orderEarlier : earlier.reverse <+: c.atoms.trail.literals := (List.prefix_append _ _).trans orderL
    have onTrail : l ∈ c.atoms.trail.literals := order.subset (by simp)
    unfold descend
    refine .get_bind (.ofFaulty_bind (fun cause failed => ?_) fun marked found => ?_)
    · rw [Resolvent.isMarked_of_lt (atoms.lt_count_of_mem onTrail)] at failed
      cases failed
    have marks := Resolvent.isMarked_eq_ok found
    split
    · rename_i met
      replace met := marks.mp met
      have current := follows.current atoms orderL pending
      have first := Resolvent.unresolved_met earlier met current
      have counted := follows.pending
      rw [first, List.length_cons] at counted
      split
      · rename_i last
        have alone : r.unresolved c.atoms earlier = [] := List.eq_nil_of_length_eq_zero (by omega)
        refine .pure ⟨?_, follows.distinct, current, follows.below⟩
        rw [Resolvent.literals_alone (by rw [first, alone])]
        exact .refl _ _
      · rename_i several
        have pivot := pivot_of_met h order follows current met (by omega)
        have drawn := drawn_of_several opened order current (by
          intro none
          rw [none] at counted
          exact several (Nat.le_of_eq counted))
        refine .bind (reasonFor_ends h opened onTrail current above drawn |>.imp_broken ?_) ?_ ?_
        · exact fun cause faults => ⟨c, _, l, .refl _ _, pivot, faults⟩
        · rintro e after ⟨i, marker, reason, reasoned, asked, unexplained, rfl⟩
          exact ⟨i, rfl, c, _, l, reason, marker, .refl _ _, pivot, reasoned, asked, unexplained⟩
        · rintro reason mid ⟨asked, explains⟩
          obtain ⟨same, _⟩ := asked.frame
          have reached := asked.draws onTrail
          obtain ⟨r', added, set⟩ := follows.explained_eq atoms above orderL met current explains
          obtain ⟨follows', le, _⟩ := follows.explained atoms above orderL met current explains added
          refine .get_bind ?_
          rw [same]
          refine .ofExcept_bind (fun e failed => ?_) fun r'' added' => ?_
          · rw [added] at failed
            cases failed
          · rw [added] at added'
            cases added'
            have levelSame : mid.level = c.level := by rw [Context.level, same]; rfl
            have pending' : 0 < r'.pending := Nat.lt_of_lt_of_le (by simp only; omega) le.pending
            have others := ih (c := mid) (r := r') (Draws.coherent reached h)
              (Draws.opened reached h opened) (by rw [levelSame]; exact above)
              (by rw [same]; exact orderEarlier) (by rw [same]; exact follows') pending'
            rw [same, set, levelSame] at others
            refine (others.imp_broken fun cause broken => broken.step pivot asked explains).mono ?_
            rintro (e | ⟨last, lower⟩) after held
            · obtain ⟨i, said, misled⟩ := held
              exact ⟨i, said, misled.step pivot asked explains⟩
            · exact ⟨.step pivot asked explains held.1, held.2⟩
    · rename_i unmet
      replace unmet := mt marks.mpr unmet
      rw [Resolvent.literals_unmet unmet]
      exact ih h opened above orderEarlier (follows.pass unmet) pending

/-- The levels of literals that have one are found. -/
private theorem backjumpLevel_ok {s : Atoms} {c : Clause}
    (given : ∀ m ∈ c, ∃ level, s.levelOf m.atom = some level) :
    ∃ level, s.backjumpLevel c = .ok level := by
  cases found : s.backjumpLevel c with
  | ok level => exact ⟨level, rfl⟩
  | error e =>
    rcases Except.bind_eq_error found with failed | ⟨_, _, done⟩
    · obtain ⟨m, member, none⟩ := Except.mapM_eq_error failed
      obtain ⟨level, same⟩ := given m member
      rw [same] at none
      cases none
    · cases done

/-- Where one literal of the level is left with literals of lower levels, naive resolution is at its end. -/
private theorem resolvesTo_of_below {set : Finset Literal} {last : Literal} {lower : List Literal}
    (resolves : c.Resolves set mid (last.negate :: lower).toFinset) (distinct : (lower.map Literal.atom).Nodup)
    (ofLast : c.atoms.levelOf last.atom = some c.level)
    (below : ∀ m ∈ lower, ∃ level, c.atoms.levelOf m.atom = some level ∧ level < c.level) :
    c.ResolvesTo set mid last.negate lower := by
  have ofNegate : c.atoms.levelOf last.negate.atom = some c.level := by rwa [Literal.atom_negate]
  have notBelow : ∀ m ∈ lower, c.atoms.levelOf m.atom ≠ some c.level := by
    intro m member level
    obtain ⟨i, given, low⟩ := below m member
    rw [given] at level
    exact absurd (Option.some.inj level) (Nat.ne_of_lt low)
  have same := resolves.frame.1
  refine ⟨resolves, List.nodup_cons.mpr ⟨fun member => notBelow _ member ofNegate, distinct.of_map _⟩,
    Finset.ext fun m => ?_⟩
  rw [Context.ofLevel, same, Context.level, same, Finset.mem_filter, List.mem_toFinset, List.mem_cons,
    Finset.mem_singleton]
  refine ⟨fun found => found.1.resolve_right fun inLower => notBelow m inLower found.2, ?_⟩
  rintro rfl
  exact ⟨.inl rfl, ofNegate⟩

/-- Analysis of a clause that is false ends as naive resolution of its literals does: the clause that this
comes to is learnt, if there is room for it. -/
theorem analyse_ends (h : c.Coherent) (opened : c.Opened) (above : 0 < c.level) {conflict : Clause}
    (falsified : ∀ l ∈ conflict, c.valueOf l = some false)
    (current : ∃ l ∈ conflict, c.atoms.levelOf l.atom = some c.level) :
    (analyse conflict).Ends c (c.Broken conflict.toFinset) fun result after =>
      after.atoms = c.atoms ∧
      match result with
      | .ok learnt => ∃ mid l lower index level, c.ResolvesTo conflict.toFinset mid l lower ∧
        after = { mid with
          clauses := { c.clauses with learnt := c.clauses.learnt.push (l :: lower), index } } ∧
        learnt.Reports (.learnt c.clauses.learnt.size) l level
      | .error e => after.clauses = c.clauses ∧
        ((∃ i, e = .theory (.malformedReason i) ∧ c.Misled conflict.toFinset i after) ∨
          e = .clause .storageExhausted ∧ UInt32.size ≤ c.clauses.learnt.size ∧
            ∃ l lower, c.ResolvesTo conflict.toFinset after l lower) := by
  have atoms := h.supports.atoms
  obtain ⟨r, added, pending, follows, whole⟩ := Resolvent.Follows.start_eq atoms above falsified current
  refine .get_bind (.ofExcept_bind (fun e failed => ?_) fun r' added' => ?_)
  · rw [added] at failed
    cases failed
  rw [added] at added'
  cases added'
  rw [if_neg (Nat.ne_of_gt pending)]
  have resolved := descend_ends h opened above (by rw [List.reverse_reverse]) follows pending
  rw [whole] at resolved
  rw [resolve_trail]
  refine .bind resolved ?_ ?_
  · rintro e after ⟨i, rfl, misled⟩
    obtain ⟨mid, between, l, reason, marker, resolves, pivot, reasoned, asked, unexplained⟩ := misled
    obtain ⟨same, clauses, _⟩ := resolves.frame
    obtain ⟨same', clauses'⟩ := asked.frame
    exact ⟨same'.trans same, clauses'.trans clauses, .inl ⟨i, rfl, mid, between, l, reason, marker,
      resolves, pivot, reasoned, asked, unexplained⟩⟩
  · rintro ⟨last, lower⟩ mid ⟨resolves, distinct, ofLast, below⟩
    obtain ⟨same, clauses, _⟩ := resolves.frame
    have resolvesTo := resolvesTo_of_below resolves distinct ofLast below
    obtain ⟨level, found⟩ := backjumpLevel_ok (s := mid.atoms) (c := last.negate :: lower) (by
      rw [same]
      refine List.forall_mem_cons.mpr ⟨⟨c.level, ?_⟩, fun m member => (below m member).imp fun _ => And.left⟩
      rwa [Literal.atom_negate])
    refine .get_bind (.ofExcept_bind (fun e failed => ?_) fun level' found' => ?_)
    · rw [found] at failed
      cases failed
    rw [found] at found'
    cases found'
    refine .get_bind ?_
    rw [ClauseStore.store_learnt, clauses]
    split
    · rename_i full
      exact .throw_bind ⟨same, clauses, .inr ⟨rfl, full, _, _, resolvesTo⟩⟩
    · refine .ofExcept_bind (fun e failed => by cases failed) fun stored same' => ?_
      cases same'
      refine .modify_bind ?_
      split
      · exact .pure ⟨same, mid, _, lower, _, 0, resolvesTo, rfl, .inl ⟨rfl, rfl⟩⟩
      · exact .pure ⟨same, mid, _, lower, _, level, resolvesTo, rfl, .inr rfl⟩

end Procedure

namespace PublicRun

variable {settings : Settings} {events : List (Event σ)} {s : Session σ}

theorem opened (run : PublicRun settings events s) : s.context.Opened :=
  run.invariant (.initial settings) (fun move h opened => move.opened h opened) fun refuted opened => by
    obtain ⟨atoms, theories⟩ := refuted.frame
    exact ⟨by rw [atoms]; exact opened.atoms, by rw [atoms, theories]; exact opened.registered⟩

/-- In every context above the base level that a run leads to, and whatever theories answer, analysis of a
false clause with a literal of the current level ends as naive resolution of its literals does. If that
comes to its end, the clause that it comes to is stored, without repetition, and its first literal is
reported, as the only one of the current level; unless there is no room for it. If it comes to a theory
that gives as a reason what explains nothing, no clause is stored and the error names the theory. A fault
is one of a theory that is asked for a reason. The atoms stay as they are. -/
theorem analyses_as_naive (run : PublicRun settings events s) (above : 0 < s.context.level)
    {clause : Clause} (falsified : ∀ l ∈ clause, s.context.valueOf l = some false)
    (current : ∃ l ∈ clause, s.context.atoms.levelOf l.atom = some s.context.level) :
    (Procedure.analyse clause).Ends s.context (s.context.Broken clause.toFinset) fun result after =>
      after.atoms = s.context.atoms ∧
      match result with
      | .ok learnt => ∃ mid l lower index level, s.context.ResolvesTo clause.toFinset mid l lower ∧
        after = { mid with
          clauses := { s.context.clauses with
            learnt := s.context.clauses.learnt.push (l :: lower), index } } ∧
        learnt.Reports (.learnt s.context.clauses.learnt.size) l level
      | .error e => after.clauses = s.context.clauses ∧
        ((∃ i, e = .theory (.malformedReason i) ∧ s.context.Misled clause.toFinset i after) ∨
          e = .clause .storageExhausted ∧ UInt32.size ≤ s.context.clauses.learnt.size ∧
            ∃ l lower, s.context.ResolvesTo clause.toFinset after l lower) :=
  Procedure.analyse_ends run.coherent.1 run.opened above falsified current

/-- A literal of a clause is resolved on, then one of a theory, and the decision is left. -/
theorem analyses_as_naive_chain :
    ∃ (events : List (Event RuleTable)) (s : Session RuleTable) (clause : Clause),
      PublicRun {} events s ∧
      events.map (·.command) = [.freshLiterals 3,
        .addTheory { rules := [{ premises := [⟨1⟩], conclusion := some ⟨2⟩ }] }, .observe 0 1,
        .addClause [⟨-2⟩, ⟨3⟩], .decideLiteral ⟨1⟩, .propagate] ∧
      0 < s.context.level ∧ clause = [⟨-3⟩, ⟨-1⟩] ∧ (∀ l ∈ clause, s.context.valueOf l = some false) ∧
      (∃ l ∈ clause, s.context.atoms.levelOf l.atom = some s.context.level) ∧
      ∃ mid, s.context.ResolvesTo clause.toFinset mid ⟨-1⟩ [] := by
  let clause : Clause := [⟨-3⟩, ⟨-1⟩]
  obtain ⟨_, s, ran, checked⟩ := Session.of_run_any (Session.ofSettings {} : Session RuleTable)
    [.freshLiterals 3, .addTheory { rules := [{ premises := [⟨1⟩], conclusion := some ⟨2⟩ }] },
      .observe 0 1, .addClause [⟨-2⟩, ⟨3⟩], .decideLiteral ⟨1⟩, .propagate]
    (fun (_, s) => decide (0 < s.context.level ∧
        (∀ l ∈ clause, s.context.valueOf l = some false) ∧
        ∃ l ∈ clause, s.context.atoms.levelOf l.atom = some s.context.level) &&
      (s.context.run (Procedure.analyse clause)).toOption.any fun (result, after) =>
        result.toOption == some (.unit (.learnt 0) ⟨-1⟩) &&
          decide (after.clauses.learnt = #[[⟨-1⟩]]))
    (by decide +kernel)
  simp only [Bool.and_eq_true, decide_eq_true_eq] at checked
  obtain ⟨⟨above, falsified, current⟩, learnt⟩ := checked
  obtain ⟨events, run, commands, _⟩ := PublicRun.of_run (by simp [Command.IsPublic]) ran
  refine ⟨events, s, clause, run, commands, above, rfl, falsified, current, ?_⟩
  have ends := run.analyses_as_naive above falsified current
  unfold Procedure.Ends at ends
  split at ends
  · rename_i result after ran
    rw [ran] at learnt
    cases result with
    | error e => cases learnt
    | ok found =>
      obtain ⟨_, mid, l, lower, index, level, resolvesTo, rfl, _⟩ := ends
      have stored := of_decide_eq_true (Bool.and_eq_true_iff.mp learnt).2
      have stored : s.context.clauses.learnt.toList ++ [l :: lower] = [] ++ [[⟨-1⟩]] := by
        simpa using congrArg Array.toList stored
      cases (List.append_inj' stored rfl).2
      exact ⟨mid, resolvesTo⟩
  · rename_i cause ran
    rw [ran] at learnt
    cases learnt

end PublicRun

end SatModulo
