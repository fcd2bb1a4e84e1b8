import SatModulo.Proofs.Cardinality
import SatModulo.Proofs.Reliability
import SatModulo.Proofs.UnitPropagation

/-!
# At most so many, without failure

The theory of at most a number of true literals is reliable. Its members and the facts of its log have
negations, so no clause that it builds fails, and with all members known none that it makes false is
refused. When it draws nothing although as many members are true as may be, every member has a value: it
is one of the true ones, or it was found false, or the members that are false at the base level leave room
for no others.
-/
namespace SatModulo

theorem Literal.negateAll?_of_le {literals : List Literal} (inRange : ∀ l ∈ literals, l.atom ≤ maxAtom) :
    negateAll? literals = .ok (literals.map negate) :=
  Except.mapM_of_ok fun l member => negate?_of_le (inRange l member)

namespace AtMost

variable {root t t' : AtMost} {recalled : LevelStack Literal} {s : Atoms} {l : Literal}

/-- The facts of the log are on the trail, and the members are known. -/
structure Holds (t : AtMost) (s : Atoms) : Prop where
  coherent : s.Coherent
  onTrail : ∀ l ∈ t.log.entries, l ∈ s.trail.literals
  known : ∀ l ∈ t.members, l.atom < s.count
  proper : ∀ l ∈ t.members, l.atom ≠ topAtom

namespace Holds

theorem assign (holds : t.Holds s) {reason : Reason} {s' : Atoms}
    (made : s.assign l reason = .ok (.unset, s')) : t.Holds s' where
  coherent := holds.coherent.assign made
  onTrail m member := by
    rw [Atoms.literals_assign made]
    exact List.mem_append_left _ (holds.onTrail m member)
  known m member := by
    rw [Atoms.count_assign made]
    exact holds.known m member
  proper := holds.proper

theorem inRange (holds : t.Holds s) (member : l ∈ t.members) : l.atom ≤ maxAtom :=
  Nat.lt_succ_iff.mp (Nat.lt_of_lt_of_le (holds.known l member) holds.coherent.room)

theorem fact_inRange (holds : t.Holds s) (fact : l ∈ t.log.entries) : l.atom ≤ maxAtom :=
  Nat.lt_succ_iff.mp
    (Nat.lt_of_lt_of_le (holds.coherent.lt_count_of_mem (holds.onTrail l fact)) holds.coherent.room)

/-- The reason of facts, with its causes. -/
theorem reason_eq (holds : t.Holds s) (l : Literal) (marker : Marker) :
    t.reason l marker =
      .ok (l :: ((t.trueMembers (t.log.firstEntries marker)).take t.bound).map Literal.negate) := by
  unfold reason
  rw [Literal.negateAll?_of_le fun m member => ?_]
  · rfl
  · have fact := (mem_trueMembers.mp (List.mem_of_mem_take member)).1
    exact holds.fact_inRange (List.mem_of_mem_take fact)

end Holds

/-- The clause of facts of the trail is false. -/
theorem valueOf_of_negateAll? (coherent : s.Coherent) (onTrail : ∀ l ∈ t.log.entries, l ∈ s.trail.literals)
    {causes : List Literal} (inside : ∀ l ∈ causes, l ∈ t.log.entries) {clause : Clause}
    (negated : Literal.negateAll? causes = .ok clause) : ∀ l ∈ clause, s.valueOf l = some false := by
  rw [Literal.negateAll?_eq_ok negated]
  exact List.forall_mem_map.mpr fun l member => coherent.valueOf_negate (onTrail l (inside l member))

/-- A conflict that is found while members are made false is false, whatever is known of the members. -/
theorem falsify_yields (coherent : s.Coherent) (onTrail : ∀ l ∈ t.log.entries, l ∈ s.trail.literals) {i : Nat}
    (rest : List Literal) : (t.falsify rest).Yields i s fun outcome s' =>
      ∀ clause, outcome.1 = some clause → ∀ l ∈ clause, s'.valueOf l = some false := by
  induction rest generalizing t s with
  | nil => exact .done (by rintro _ ⟨⟩)
  | cons member rest ih =>
    unfold falsify
    refine .ofExcept_bind fun l negated => .assign (fun s' made => ?_) (ih coherent onTrail) (fun isFalse => ?_)
      fun _ => .done (by rintro _ ⟨⟩)
    · refine ih (t := { t with counters.propagations := t.counters.propagations + 1 })
        (coherent.assign made) fun fact inLog => ?_
      rw [Atoms.literals_assign made]
      exact List.mem_append_left _ (onTrail fact inLog)
    · refine .ofExcept_bind fun clause built => .done ?_
      rintro _ ⟨⟩
      obtain ⟨causes, negated, same⟩ := Except.bind_eq_ok built
      cases same
      refine List.forall_mem_cons.mpr ⟨isFalse, valueOf_of_negateAll? coherent onTrail (fun l taken => ?_) negated⟩
      exact List.mem_of_mem_take (mem_trueMembers.mp (List.mem_of_mem_take taken)).1

/-- A conflict that is found in a look at the facts is false. -/
theorem examine_yields (coherent : s.Coherent) (onTrail : ∀ l ∈ t.log.entries, l ∈ s.trail.literals) {i : Nat} :
    t.examine.Yields i s fun outcome s' =>
      ∀ clause, outcome.1 = some clause → ∀ l ∈ clause, s'.valueOf l = some false := by
  rw [examine_eq]
  split
  · refine .ofExcept_bind fun clause negated => .done ?_
    rintro _ ⟨⟩
    exact valueOf_of_negateAll? coherent onTrail
      (fun l taken => (mem_trueMembers.mp (List.mem_of_mem_take taken)).1) negated
  · split
    · exact .done nofun
    · exact falsify_yields coherent onTrail _

/-- How a turn ends on the atoms; where it found no conflict and made no literal true, the members to be
made false are. -/
structure Concludes (t : AtMost) (rest : List Literal) (s : Atoms) (outcome : Option Clause × AtMost) (s' : Atoms) :
    Prop where
  failed : outcome.2.failed = t.failed
  longer : s.trail.length ≤ s'.trail.length
  quiet : outcome.1 = none → s' = s → ∀ l ∈ rest, s.valueOf l = some false

/-- Members without a value can all be made false, and none of the calls fails. -/
theorem falsify_returns (holds : t.Holds s) (i : Nat) (rest : List Literal)
    (inside : ∀ l ∈ rest, l ∈ t.members) : (t.falsify rest).Returns i s (Concludes t rest s) := by
  induction rest generalizing t s with
  | nil => exact .done ⟨rfl, Nat.le_refl _, fun _ _ => List.forall_mem_nil _⟩
  | cons member rest ih =>
    rw [List.forall_mem_cons] at inside
    unfold falsify
    rw [Literal.negate?_of_le (holds.inRange inside.1)]
    -- The member is known; then it is made false, or is false already, or is true and makes a conflict.
    refine Turn.Returns.assign ?_ ?_ ?_ ?_
    · rw [Literal.atom_negate]
      exact holds.known member inside.1
    · intro s' made
      have longer := Atoms.length_assign made
      have after := holds.assign made
      have later := ih (t := { t with counters.propagations := t.counters.propagations + 1 })
        ⟨after.coherent, after.onTrail, after.known, after.proper⟩ inside.2
      refine Turn.Returns.mono later fun outcome s'' ends => ⟨ends.failed, ?_, ?_⟩
      · exact Nat.le_trans (by omega) ends.longer
      · rintro _ rfl
        have unchanged := ends.longer
        omega
    · intro isFalse
      refine Turn.Returns.mono (ih holds inside.2) fun outcome s'' ends => ?_
      refine ⟨ends.failed, ends.longer, fun none same => ?_⟩
      refine List.forall_mem_cons.mpr ⟨?_, ends.quiet none same⟩
      have proper := holds.proper member inside.1
      rw [holds.coherent.valueOf_eq_true (by rwa [Literal.atom_negate])] at isFalse
      exact (holds.coherent.valueOf_eq_false proper).mpr isFalse
    · intro _
      change Turn.Returns ((Turn.ofExcept (t.reason member.negate t.log.length)).andThen _) i s _
      rw [holds.reason_eq]
      exact ⟨_, s, rfl, rfl, Nat.le_refl _, fun none => by cases none⟩

/-- Members that are false already are made false by no change. -/
theorem falsify_of_false (coherent : s.Coherent) (i : Nat) (rest : List Literal)
    (isFalse : ∀ l ∈ rest, l.negate ∈ s.trail.literals) :
    (t.falsify rest).Returns i s fun outcome s' => outcome = (none, t) ∧ s' = s := by
  induction rest with
  | nil => exact .done ⟨rfl, rfl⟩
  | cons member rest ih =>
    rw [List.forall_mem_cons] at isFalse
    have value := coherent.valueOf_of_mem isFalse.1
    have known := coherent.lt_count_of_mem isFalse.1
    have inRange : member.atom ≤ maxAtom := by
      rw [Literal.atom_negate] at known
      exact Nat.lt_succ_iff.mp (Nat.lt_of_lt_of_le known coherent.room)
    unfold falsify
    rw [Literal.negate?_of_le inRange]
    refine Turn.Returns.assign known (fun s' made => ?_) (fun _ => ih isFalse.2) fun opposite => ?_
    · have unset := Literal.statusOn_eq_unset.mp (Atoms.assign_eq_ok made).2.1
      rw [Atoms.valueOf, unset] at value
      cases value
    · rw [value] at opposite
      cases opposite

/-- Whether nothing more follows from the facts: fewer members are true than may be, or all have values. -/
def IsExhausted (t : AtMost) (s : Atoms) : Prop :=
  (t.trueMembers t.log.entries).length ≤ t.bound ∧
    ((t.trueMembers t.log.entries).length < t.bound ∨ ∀ l ∈ t.members, (s.valueOf l).isSome)

/-- A look at the facts ends; where it found no conflict and made no literal true, nothing more follows. -/
theorem examine_returns (holds : t.Holds s) (i : Nat) :
    t.examine.Returns i s fun outcome s' => outcome.2.failed = t.failed ∧
      (outcome.1 = none → s' = s → t.IsExhausted s) := by
  rw [examine_eq]
  split
  · rw [Literal.negateAll?_of_le fun l member =>
      holds.fact_inRange (mem_trueMembers.mp (List.mem_of_mem_take member)).1]
    exact ⟨_, s, rfl, rfl, nofun⟩
  · rename_i notMore
    split
    · rename_i less
      exact .done ⟨rfl, fun _ _ => ⟨Nat.le_of_lt less, .inl less⟩⟩
    · refine Turn.Returns.mono (falsify_returns holds i _ fun l member => List.mem_of_mem_filter member)
        fun outcome s' ends => ⟨ends.failed, fun none same => ?_⟩
      refine ⟨Nat.not_lt.mp notMore, .inr fun l member => ?_⟩
      by_cases isTrue : l ∈ t.trueMembers t.log.entries
      · rw [holds.coherent.valueOf_of_mem (holds.onTrail l (mem_trueMembers.mp isTrue).1)]
        rfl
      · rw [ends.quiet none same l (List.mem_filter.mpr ⟨member, decide_eq_true isTrue⟩)]
        rfl

/-- The members whose values follow from facts. -/
def valuedMembers (t : AtMost) (facts : List Literal) : List Literal :=
  t.trueMembers facts ++ t.falseMembers facts

theorem valuedMembers_subset {facts : List Literal} : t.valuedMembers facts ⊆ t.members := by
  intro l member
  rcases List.mem_append.mp member with isTrue | isFalse
  · exact (mem_trueMembers.mp isTrue).2
  · exact (mem_falseMembers.mp isFalse).2

/-- No member is both true and false. -/
theorem nodup_valuedMembers (proper : ∀ l ∈ t.members, l.atom ≠ topAtom) (facts : AreFacts t.log.entries) :
    (t.valuedMembers t.log.entries).Nodup := by
  refine List.nodup_append'.mpr ⟨facts.nodup.filter _, nodup_falseMembers facts.nodup, ?_⟩
  intro l isTrue isFalse
  obtain ⟨fact, member⟩ := mem_trueMembers.mp isTrue
  have opposite := (mem_falseMembers.mp isFalse).1
  refine Literal.negate_ne (proper l member) ?_
  exact List.inj_on_of_nodup_map facts.distinct opposite fact (Literal.atom_negate l)

/-- Where false members leave room for no more than the bound, no more are true. If as many are, the members
that are true or false are as many as there are members, so they are all. -/
theorem valued_of_falseMembers (proper : ∀ l ∈ t.members, l.atom ≠ topAtom) (facts : AreFacts t.log.entries)
    (enough : t.members.length - t.bound ≤ (t.falseMembers t.log.entries).length) :
    (t.trueMembers t.log.entries).length ≤ t.bound ∧
      ((t.trueMembers t.log.entries).length < t.bound ∨ t.members ⊆ t.valuedMembers t.log.entries) := by
  have valued := (nodup_valuedMembers proper facts).subperm valuedMembers_subset
  have few := valued.length_le
  have counted : (t.valuedMembers t.log.entries).length =
      (t.trueMembers t.log.entries).length + (t.falseMembers t.log.entries).length := List.length_append
  refine ⟨by omega, ?_⟩
  rcases Nat.lt_or_ge (t.trueMembers t.log.entries).length t.bound with less | many
  · exact .inl less
  · exact .inr (valued.perm_of_length_le (by omega)).symm.subset

theorem Holds.isSome_valueOf (holds : t.Holds s) (valued : l ∈ t.valuedMembers t.log.entries) :
    (s.valueOf l).isSome := by
  rcases List.mem_append.mp valued with isTrue | isFalse
  · rw [holds.coherent.valueOf_of_mem (holds.onTrail l (mem_trueMembers.mp isTrue).1)]
    rfl
  · have value := holds.coherent.valueOf_negate (holds.onTrail _ (mem_falseMembers.mp isFalse).1)
    rw [Literal.negate_negate] at value
    rw [value]
    rfl

/-- Where false members leave room for no more than the bound, nothing more follows. -/
theorem isExhausted_of_falseMembers (holds : t.Holds s) (facts : AreFacts t.log.entries)
    (enough : t.members.length - t.bound ≤ (t.falseMembers t.log.entries).length) : t.IsExhausted s := by
  obtain ⟨notMore, valued⟩ := valued_of_falseMembers holds.proper facts enough
  exact ⟨notMore, valued.imp_right fun all l member => holds.isSome_valueOf (all member)⟩

/-- The check agrees exactly where nothing more follows. -/
theorem isPropagated_iff (holds : t.Holds s) (sound : t.failed = false) :
    t.isPropagated s = true ↔ t.IsExhausted s := by
  have onTrail : ∀ l ∈ t.log.entries, s.valueOf l = some true := fun l fact =>
    holds.coherent.valueOf_of_mem (holds.onTrail l fact)
  simp [isPropagated, sound, IsExhausted, and_iff_right onTrail]

/-- A valuation is a solution in the eyes of the theory exactly if it satisfies it. -/
theorem isSolved_iff_models (recalls : Recalls root recalled t) {v : Atom → Bool}
    (values : ∀ a ∈ root.atoms, s.value a = some (v a)) : t.isSolved s = true ↔ root.Models v := by
  have same : root.members.filter (fun l => s.valueOf l == some true) =
      root.members.filter fun l => l.Holds v := by
    refine List.filter_congr fun l member => ?_
    rw [Bool.eq_iff_iff, beq_iff_eq, decide_eq_true_eq, Atoms.valueOf, Literal.valueOn_eq_true,
      values _ (List.mem_map_of_mem member)]
    exact ⟨Option.some.inj, congrArg some⟩
  rw [isSolved, recalls.members, recalls.bound, same, decide_eq_true_eq]
  exact Iff.rfl

/-! ### The theory -/

variable {heard : LevelStack Literal}

section Informed

variable (informed : Constraint.Informed root heard t s)

include informed

theorem entries_of_informed : t.log.entries = (Constraint.recalled root heard).entries := by
  have recalls : Recalls root (heard.filter root.keeps) t := informed.recalls
  rw [LevelLog.entries, recalls.log]
  rfl

theorem sublist_of_informed : t.log.entries.Sublist heard.entries := by
  rw [entries_of_informed informed, Constraint.recalled, LevelStack.entries_filter]
  exact List.filter_sublist

theorem holds_of_informed : t.Holds s where
  coherent := informed.coherent
  onTrail l fact := informed.onTrail l ((sublist_of_informed informed).subset fact)
  known l member := by
    rw [informed.recalls.members] at member
    exact informed.known _ (List.mem_map_of_mem member)
  proper l member := by
    rw [informed.recalls.members] at member
    exact IsBuilt.proper informed.isBuilt member

theorem cannotExceed_of_informed : ∃ answer, t.cannotExceed = .ok answer := by
  have holds := holds_of_informed informed
  unfold cannotExceed falseCount
  rw [Literal.negateAll?_of_le fun l fact => holds.fact_inRange fact]
  exact ⟨_, rfl⟩

/-- What is known at the base level leaves nothing to follow. -/
theorem isExhausted_of_satisfied (satisfied : t.satisfiedAtBase = true) : t.IsExhausted s := by
  have recalls : Recalls root (heard.filter root.keeps) t := informed.recalls
  refine isExhausted_of_falseMembers (holds_of_informed informed)
    (informed.facts.sublist (sublist_of_informed informed)) ?_
  rw [entries_of_informed informed, falseMembers, recalls.trueMembers, recalls.members, recalls.bound]
  exact Nat.le_trans (recalls.satisfied satisfied)
    (length_falseMembers_le (LevelStack.entriesAt_sublist (heard.filter root.keeps) 0))

/-- A propagation that draws nothing leaves nothing to follow. -/
theorem isExhausted_of_propagate {i : Nat}
    (ran : (Theory.propagate t).run i s = .ok ((none, t'), s)) :
    t'.failed = t.failed ∧ t.IsExhausted s := by
  change (if t.satisfiedAtBase then _ else _ : Turn _).run i s = _ at ran
  split at ran
  · rename_i satisfied
    cases ran
    exact ⟨rfl, isExhausted_of_satisfied informed satisfied⟩
  · obtain ⟨outcome, s', ran', failed, ends⟩ := examine_returns (holds_of_informed informed) i
    rw [ran] at ran'
    cases ran'
    exact ⟨failed, ends rfl rfl⟩

/-- What a propagation leaves, with nothing drawn, the check agrees to. -/
theorem isPropagated_of_propagate (sound : t.failed = false) {i : Nat}
    (ran : (Theory.propagate t).run i s = .ok ((none, t'), s)) : t'.isPropagated s = true := by
  have holds := holds_of_informed informed
  have same : t.SameState t' := ((allows_turn .propagate).run ran).1.2
  obtain ⟨failed, exhausted⟩ := isExhausted_of_propagate informed ran
  replace failed : t'.failed = false := failed.trans sound
  have after : t'.Holds s ∧ t'.IsExhausted s := by
    rw [same]
    exact ⟨⟨holds.coherent, holds.onTrail, holds.known, holds.proper⟩, exhausted⟩
  exact (isPropagated_iff after.1 failed).mpr after.2

/-- A look at the facts ends, and with a conflict only if that is false. -/
theorem examine_reliable (sound : t.failed = false) (i : Nat) :
    t.examine.Returns i s fun outcome s' => outcome.2.failed = false ∧
      ∀ clause, outcome.1 = some clause → ∀ l ∈ clause, s'.valueOf l = some false := by
  have holds := holds_of_informed informed
  exact Turn.Returns.mono ((examine_returns holds i).both (examine_yields holds.coherent holds.onTrail))
    fun _ _ ends => ⟨ends.1.1.trans sound, ends.2⟩

/-- A reason is of members that were true before. -/
theorem exists_reason {marker : Marker} :
    ∃ clause t', Theory.buildReason l marker t = .ok (clause, t') ∧ l ∈ clause ∧
      ∀ m ∈ clause, m ≠ l → m.negate ∈ (Constraint.recalled root heard).entries.take marker := by
  refine ⟨_, _, by simp only [Theory.buildReason, (holds_of_informed informed).reason_eq l marker]; rfl,
    .head _, ?_⟩
  intro m member other
  obtain ⟨cause, taken, rfl⟩ := List.mem_map.mp ((List.mem_cons.mp member).resolve_left other)
  rw [Literal.negate_negate, ← entries_of_informed informed]
  exact (mem_trueMembers.mp (List.mem_of_mem_take taken)).1

end Informed

/-- A theory is unable to do what it meant to only at its turn. -/
theorem failed_of_answers {i : Nat} {call : Call} (sound : t.failed = false)
    (answered : Theory.Answers i t call t') (noTurn : ¬call.IsTurn) : t'.failed = false := by
  cases answered with
  | enqueue _ l told =>
    simp only [Theory.enqueue] at told
    split at told
    · cases told
      exact sound
    · obtain ⟨_, _, told⟩ := Except.bind_eq_ok told
      split at told <;> cases told <;> exact sound
  | clearSatisfied _ cleared =>
    simp only [Theory.clearSatisfied] at cleared
    split at cleared
    · obtain ⟨_, _, cleared⟩ := Except.bind_eq_ok cleared
      split at cleared <;> cases cleared <;> exact sound
    · cases cleared
      exact sound
  | propagate => exact absurd trivial noTurn
  | solve => exact absurd trivial noTurn
  | decide _ s proposal answered =>
    cases answered
    exact sound
  | buildReason _ l marker reason answered =>
    obtain ⟨_, _, same⟩ := Except.bind_eq_ok answered
    cases same
    exact sound
  | _ => exact sound

theorem exists_enqueue (inRange : l.atom ≤ maxAtom) : ∃ t', Theory.enqueue l t = .ok t' := by
  simp only [Theory.enqueue]
  split
  · exact ⟨_, rfl⟩
  · rw [Literal.negate?_of_le inRange]
    by_cases falsifies : l.negate ∈ t.members
    · exact ⟨_, if_pos falsifies⟩
    · exact ⟨_, if_neg falsifies⟩

end AtMost

instance : Reliable AtMost where
  Sound t := t.failed = false
  built := by
    rintro root ⟨members, bound, rfl, _⟩
    rfl
  answers sound answered noTurn := AtMost.failed_of_answers sound answered noTurn
  enqueues _ _ inRange := AtMost.exists_enqueue inRange
  clears {root t heard s} informed := by
    obtain ⟨answer, answered⟩ := AtMost.cannotExceed_of_informed informed
    simp only [Theory.clearSatisfied, answered]
    split
    · cases answer <;> exact ⟨_, rfl⟩
    · exact ⟨_, rfl⟩
  hints {root t heard s} informed := by
    simp only [Theory.isSatisfied]
    split
    · exact ⟨_, rfl⟩
    · exact AtMost.cannotExceed_of_informed informed
  turns {root t heard s} informed sound turn call kind i := by
    cases kind with
    | propagate =>
      change Turn.Returns (if t.satisfiedAtBase then _ else _) i s _
      split
      · exact .done ⟨sound, nofun⟩
      · exact AtMost.examine_reliable informed sound i
    | solve => exact AtMost.examine_reliable informed sound i
  reasons informed _ _ _ := AtMost.exists_reason informed
  checks _ _ := ⟨_, rfl⟩
  propagated informed sound _ _ ran :=
    congrArg Except.ok (AtMost.isPropagated_of_propagate informed sound ran)
  solved isBuilt recalls _ _ values models := (AtMost.isSolved_iff_models recalls values).mpr models

end SatModulo
