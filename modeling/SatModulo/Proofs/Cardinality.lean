import SatModulo.Proofs.Constraints
import SatModulo.Theories.AtMost
import Mathlib.Data.List.Perm.Subperm

/-!
# At most so many

The theory of at most a number of true literals is lawful. Its clauses count: of one more distinct
members than the bound allows, one is false. When so many members are false that the others cannot
exceed the bound, or the facts show no more true members than the bound allows, a valuation that agrees
with the facts satisfies the theory.
-/
namespace SatModulo

namespace Literal

theorem negate?_eq_ok {l m : Literal} (success : l.negate? = .ok m) : m = l.negate := by
  unfold negate? at success
  split at success <;> cases success
  rfl

theorem negateAll?_eq_ok {literals negations : List Literal}
    (success : negateAll? literals = .ok negations) : negations = literals.map negate := by
  have pairs := Except.mapM_eq_ok success
  clear success
  induction pairs with
  | nil => rfl
  | cons first _ ih => rw [List.map_cons, ← negate?_eq_ok first, ih]

end Literal

namespace AtMost

/-- A theory as it was built, of literals other than the one that is always false. -/
def IsBuilt (t : AtMost) : Prop :=
  ∃ members bound, t = ofMembers members bound ∧ ∀ l ∈ members, l.atom ≠ topAtom

/-- At most so many members are true. -/
def Models (v : Atom → Bool) (t : AtMost) : Prop :=
  (t.members.filter fun l => l.Holds v).length ≤ t.bound

def falseMembers (t : AtMost) (facts : List Literal) : List Literal :=
  t.trueMembers (facts.map Literal.negate)

variable {root t t' : AtMost} {v : Atom → Bool} {facts : List Literal} {l : Literal}

theorem mem_trueMembers : l ∈ t.trueMembers facts ↔ l ∈ facts ∧ l ∈ t.members := by
  rw [trueMembers, List.mem_filter, decide_eq_true_eq]

theorem mem_falseMembers : l ∈ t.falseMembers facts ↔ l.negate ∈ facts ∧ l ∈ t.members := by
  rw [falseMembers, mem_trueMembers, List.mem_map]
  refine and_congr_left fun _ => ⟨?_, fun member => ⟨_, member, l.negate_negate⟩⟩
  rintro ⟨m, member, rfl⟩
  rwa [Literal.negate_negate]

theorem nodup_falseMembers (distinct : facts.Nodup) : (t.falseMembers facts).Nodup := by
  refine List.Nodup.filter _ (distinct.map fun a b same => ?_)
  rw [← a.negate_negate, same, b.negate_negate]

namespace IsBuilt

theorem nodup (h : root.IsBuilt) : root.members.Nodup := by
  obtain ⟨members, bound, rfl, _⟩ := h
  exact Clause.nodup_addAllNew List.nodup_nil

theorem proper (h : root.IsBuilt) (member : l ∈ root.members) : l.atom ≠ topAtom := by
  obtain ⟨members, bound, rfl, proper⟩ := h
  rw [ofMembers, Clause.mem_addAllNew] at member
  exact proper l (member.resolve_left List.not_mem_nil)

end IsBuilt

/-- Distinct members that are all true are no more than the bound. -/
theorem Models.length_le (models : root.Models v) {members : List Literal} (distinct : members.Nodup)
    (inside : ∀ l ∈ members, l ∈ root.members) (holds : ∀ l ∈ members, l.Holds v) :
    members.length ≤ root.bound := by
  refine Nat.le_trans (List.Subperm.length_le (distinct.subperm fun l member => ?_)) models
  exact List.mem_filter.mpr ⟨inside l member, decide_eq_true (holds l member)⟩

/-- One of too many members is false. -/
theorem holds_of_exceeds (h : root.IsBuilt) (models : root.Models v) {members : List Literal}
    (distinct : members.Nodup) (inside : ∀ l ∈ members, l ∈ root.members)
    (exceeds : root.bound < members.length) : Clause.Holds v (members.map Literal.negate) := by
  by_contra none
  refine Nat.not_lt.mpr (models.length_le distinct inside fun l member => ?_) exceeds
  by_contra isFalse
  refine none ⟨l.negate, List.mem_map_of_mem member, ?_⟩
  exact (Literal.holds_negate (h.proper (inside l member))).mpr isFalse

/-- So many members are false that the bound cannot be exceeded. -/
theorem models_of_falseMembers (h : root.IsBuilt) (distinct : facts.Nodup)
    (holds : ∀ l ∈ facts, l.Holds v)
    (enough : root.members.length - root.bound ≤ (root.falseMembers facts).length) : root.Models v := by
  have isFalse : (root.falseMembers facts).length ≤
      (root.members.filter fun l => !decide (l.Holds v)).length := by
    refine List.Subperm.length_le ((nodup_falseMembers distinct).subperm fun l member => ?_)
    obtain ⟨negated, inside⟩ := mem_falseMembers.mp member
    refine List.mem_filter.mpr ⟨inside, ?_⟩
    simpa using (Literal.holds_negate (h.proper inside)).mp (holds _ negated)
  have split := List.length_eq_length_filter_add (fun l : Literal => decide (l.Holds v))
    (l := root.members)
  unfold Models
  omega

/-- The members that facts show to be true, where the facts are on the atoms of all members. -/
theorem models_of_trueMembers (h : root.IsBuilt) (holds : ∀ l ∈ facts, l.Holds v)
    (complete : ∀ l ∈ root.members, ∃ m ∈ facts, m.atom = l.atom)
    (few : (root.trueMembers facts).length ≤ root.bound) : root.Models v := by
  refine Nat.le_trans (List.Subperm.length_le ((h.nodup.filter _).subperm fun l member => ?_)) few
  obtain ⟨inside, isTrue⟩ := List.mem_filter.mp member
  obtain ⟨m, fact, same⟩ := complete l inside
  rcases Literal.eq_or_eq_negate same with rfl | rfl
  · exact mem_trueMembers.mpr ⟨fact, inside⟩
  · exact absurd (of_decide_eq_true isTrue) ((Literal.holds_negate (h.proper inside)).mp (holds _ fact))

/-! ### States -/

/-- A state of the theory: what it recalls is in its log, and it knows itself to be satisfied only where
the facts at the base level say so. -/
structure Recalls (root : AtMost) (recalled : LevelStack Literal) (t : AtMost) : Prop where
  members : t.members = root.members
  bound : t.bound = root.bound
  log : t.log.view = recalled
  satisfied : t.satisfiedAtBase = true →
    root.members.length - root.bound ≤ (root.falseMembers (recalled.entriesAt 0)).length

/-- As many members are true as the bound allows, and the literal falsifies another one. -/
structure Justifies (root : AtMost) (facts : List Literal) (l : Literal) : Prop where
  member : l.negate ∈ root.members
  other : l.negate ∉ facts
  full : root.bound ≤ (root.trueMembers facts).length

/-- Only what is counted and noted of a state changes at a turn. -/
def SameState (t t' : AtMost) : Prop :=
  t' = { t with counters := t'.counters, failed := t'.failed }

variable {recalled : LevelStack Literal}

theorem Recalls.same (recalls : Recalls root recalled t) (same : SameState t t') :
    Recalls root recalled t' := by
  rw [same]
  exact ⟨recalls.members, recalls.bound, recalls.log, recalls.satisfied⟩

theorem Recalls.trueMembers (recalls : Recalls root recalled t) :
    t.trueMembers facts = root.trueMembers facts := by
  rw [AtMost.trueMembers, AtMost.trueMembers, recalls.members]

theorem Recalls.firstEntries (recalls : Recalls root recalled t) (marker : Marker) :
    t.log.firstEntries marker = recalled.entries.take marker := by
  rw [LevelLog.firstEntries, LevelLog.entries, recalls.log]

def reasonClause (root : AtMost) (facts : List Literal) (l : Literal) : Clause :=
  l :: ((root.trueMembers facts).take root.bound).map Literal.negate

theorem Recalls.reason_eq_ok (recalls : Recalls root recalled t) {marker : Marker} {clause : Clause}
    (success : t.reason l marker = .ok clause) :
    clause = root.reasonClause (recalled.entries.take marker) l := by
  obtain ⟨causes, negated, same⟩ := Except.bind_eq_ok success
  cases same
  rw [Literal.negateAll?_eq_ok negated, recalls.firstEntries, recalls.trueMembers, recalls.bound]
  rfl

/-- The literal of a reason is true, or another member exceeds the bound. -/
theorem holds_reasonClause (h : root.IsBuilt) (distinct : facts.Nodup)
    (justified : root.Justifies facts l) (models : root.Models v) :
    Clause.Holds v (root.reasonClause facts l) := by
  have causes := List.take_sublist root.bound (root.trueMembers facts)
  let members := l.negate :: (root.trueMembers facts).take root.bound
  have same : root.reasonClause facts l = members.map Literal.negate := by
    rw [List.map_cons, Literal.negate_negate, reasonClause]
  rw [same]
  refine holds_of_exceeds h models ?_ ?_ ?_
  · refine List.nodup_cons.mpr ⟨fun member => ?_, (distinct.filter _).sublist causes⟩
    exact justified.other (mem_trueMembers.mp (causes.subset member)).1
  · refine List.forall_mem_cons.mpr ⟨justified.member, fun m member => ?_⟩
    exact (mem_trueMembers.mp (causes.subset member)).2
  · rw [List.length_cons, List.length_take, Nat.min_eq_left justified.full]
    exact Nat.lt_succ_self _

section Turns

variable {asks : Literal → Marker → Prop} (valid : Clause → Prop)

def Ends (valid : Clause → Prop) (t : AtMost) (outcome : Option Clause × AtMost) : Prop :=
  (∀ clause, outcome.1 = some clause → valid clause) ∧ SameState t outcome.2

/-- Members are made false one after the other, up to one that is true already. -/
theorem allows_falsify (rest : List Literal)
    (asked : ∀ member ∈ rest, asks member.negate t.log.length)
    (holds : ∀ member ∈ rest, ∀ clause, t.reason member.negate t.log.length = .ok clause → valid clause) :
    (t.falsify rest).Allows asks (Ends valid t) := by
  induction rest generalizing t with
  | nil => exact ⟨nofun, rfl⟩
  | cons member rest ih =>
    rw [List.forall_mem_cons] at asked holds
    unfold falsify
    refine (Turn.allows_ofExcept _).andThen fun l negated => ?_
    rw [Literal.negate?_eq_ok negated]
    refine ⟨asked.1, fun status => ?_⟩
    cases status with
    | error e => exact ⟨nofun, rfl⟩
    | ok status =>
      cases status with
      | unset =>
        have later := ih (t := { t with counters.propagations := t.counters.propagations + 1 })
          asked.2 holds.2
        exact later
      | same => exact ih asked.2 holds.2
      | different =>
        refine (Turn.allows_ofExcept _).andThen fun clause built => ⟨fun given same => ?_, rfl⟩
        cases same
        exact holds.1 clause built

/-- A look at the facts ends with a conflict where too many members are true, and makes members false only where as
many are as may be. -/
theorem allows_examine
    (asked : ∀ member ∈ t.members, member ∉ t.trueMembers t.log.entries →
      (t.trueMembers t.log.entries).length = t.bound → asks member.negate t.log.length)
    (holds : ∀ member ∈ t.members, member ∉ t.trueMembers t.log.entries →
      (t.trueMembers t.log.entries).length = t.bound →
        ∀ clause, t.reason member.negate t.log.length = .ok clause → valid clause)
    (exceeds : t.bound < (t.trueMembers t.log.entries).length → ∀ clause,
      Literal.negateAll? ((t.trueMembers t.log.entries).take (t.bound + 1)) = .ok clause →
        valid clause) :
    t.examine.Allows asks (Ends valid t) := by
  rw [examine_eq]
  split
  · rename_i more
    refine (Turn.allows_ofExcept _).andThen fun clause negated => ⟨fun given same => ?_, rfl⟩
    cases same
    exact exceeds more clause negated
  · rename_i notMore
    split
    · exact ⟨nofun, rfl⟩
    · rename_i notLess
      have exactly : (t.trueMembers t.log.entries).length = t.bound := by omega
      refine allows_falsify valid _ (fun member kept => ?_) fun member kept => ?_
      · obtain ⟨inside, other⟩ := List.mem_filter.mp kept
        exact asked member inside (of_decide_eq_true other) exactly
      · obtain ⟨inside, other⟩ := List.mem_filter.mp kept
        exact holds member inside (of_decide_eq_true other) exactly

/-- Too many true members are a conflict. -/
theorem length_le_of_silent {i : Nat} {s s' : Atoms}
    (ran : t.examine.run i s = .ok ((none, t'), s')) :
    (t.trueMembers t.log.entries).length ≤ t.bound := by
  by_contra few
  have conflict : t.examine.Allows (fun _ _ => True) fun outcome => outcome.1 ≠ none := by
    rw [examine_eq, if_pos (Nat.not_le.mp few)]
    exact (Turn.allows_ofExcept _).andThen fun clause _ => nofun
  exact (conflict.run ran).1 rfl

/-- Whatever the facts, a turn leaves the state as it was, but for what is counted and noted. -/
theorem allows_turn {turn : AtMost → Turn (Option Clause × AtMost)}
    {call : Nat → List Literal → Option Clause → Call} (kind : TurnKind turn call) :
    (turn t).Allows (fun _ _ => True) (Ends (fun _ => True) t) := by
  have examined : t.examine.Allows (fun _ _ => True) (Ends (fun _ => True) t) :=
    allows_examine _ (fun _ _ _ _ => trivial) (fun _ _ _ _ _ _ => trivial) fun _ _ _ => trivial
  cases kind with
  | propagate =>
    change Turn.Allows _ _ (if t.satisfiedAtBase then _ else _)
    split
    · exact ⟨nofun, rfl⟩
    · exact examined
  | solve => exact examined

end Turns

theorem Recalls.run (recalls : Recalls root recalled t)
    {turn : AtMost → Turn (Option Clause × AtMost)}
    {call : Nat → List Literal → Option Clause → Call} (kind : TurnKind turn call) {i : Nat}
    {s s' : Atoms} {conflict : Option Clause} (ran : (turn t).run i s = .ok ((conflict, t'), s')) :
    Recalls root recalled t' :=
  recalls.same ((allows_turn kind).run ran).1.2

/-- A fact is noted if it is on a member or on the negation of one. -/
def keeps (root : AtMost) (l : Literal) : Bool :=
  decide (l ∈ root.members) || decide (l.negate ∈ root.members)

theorem length_falseMembers_le {more : List Literal} (sub : facts.Sublist more) :
    (root.falseMembers facts).length ≤ (root.falseMembers more).length :=
  ((sub.map _).filter _).length_le

/-- What is known at the base level stays known when a fact is noted. -/
theorem Recalls.record (recalls : Recalls root recalled t) (l : Literal) :
    Recalls root (recalled.push l) { t with log := t.log.record l } where
  members := recalls.members
  bound := recalls.bound
  log := by rw [LevelLog.view_record, recalls.log]
  satisfied := by
    intro known
    refine Nat.le_trans (recalls.satisfied known) (length_falseMembers_le ?_)
    rw [LevelStack.entriesAt_push]
    split
    · exact List.sublist_append_left _ _
    · exact List.Sublist.refl _

/-- A fact is noted if it is on a member or its negation, and passed over otherwise. -/
theorem Recalls.enqueue {heard : LevelStack Literal}
    (recalls : Recalls root (heard.filter root.keeps) t) (told : Theory.enqueue l t = .ok t') :
    Recalls root ((heard.push l).filter root.keeps) t' := by
  have keeps : root.keeps l = true ↔ l ∈ t.members ∨ l.negate ∈ t.members := by
    rw [AtMost.keeps, recalls.members, Bool.or_eq_true, decide_eq_true_eq, decide_eq_true_eq]
  simp only [Theory.enqueue] at told
  rw [LevelStack.filter_push]
  split at told
  · rename_i isMember
    cases told
    rw [if_pos (keeps.mpr (.inl isMember))]
    exact recalls.record l
  · rename_i notMember
    obtain ⟨opposite, negated, told⟩ := Except.bind_eq_ok told
    rw [Literal.negate?_eq_ok negated] at told
    split at told
    · rename_i falsifies
      cases told
      rw [if_pos (keeps.mpr (.inr falsifies))]
      exact recalls.record l
    · rename_i notOpposite
      cases told
      rw [if_neg fun kept => (keeps.mp kept).elim notMember notOpposite]
      exact recalls

theorem Recalls.cannotExceed_eq_ok (recalls : Recalls root recalled t)
    (success : t.cannotExceed = .ok true) :
    root.members.length - root.bound ≤ (root.falseMembers recalled.entries).length := by
  obtain ⟨falsified, counted, same⟩ := Except.bind_eq_ok success
  obtain ⟨opposites, negated, same'⟩ := Except.bind_eq_ok counted
  cases same'
  have enough := of_decide_eq_true (Except.ok.inj same)
  rw [recalls.members, recalls.bound, recalls.trueMembers, Literal.negateAll?_eq_ok negated,
    LevelLog.entries, recalls.log] at enough
  exact enough

/-- A theory knows itself to be satisfied only from a count at the base level. -/
theorem Recalls.clearSatisfied (recalls : Recalls root recalled t)
    (cleared : Theory.clearSatisfied t = .ok t') : Recalls root recalled t' := by
  simp only [Theory.clearSatisfied] at cleared
  split at cleared
  · rename_i base
    obtain ⟨answer, asked, cleared⟩ := Except.bind_eq_ok cleared
    split at cleared
    · rename_i yes
      cases cleared
      refine ⟨recalls.members, recalls.bound, recalls.log, fun _ => ?_⟩
      have enough := recalls.cannotExceed_eq_ok (yes ▸ asked)
      rwa [LevelStack.entries_of_base (by rw [← recalls.log]; exact base)] at enough
    · cases cleared
      exact recalls
  · cases cleared
    exact recalls

/-! ### What is recalled and said -/

variable {heard : LevelStack Literal}

theorem Models.agree {w : Atom → Bool} (same : ∀ a ∈ root.atoms, v a = w a) (models : root.Models v) :
    root.Models w := by
  have each : ∀ l ∈ root.members, decide (l.Holds w) = decide (l.Holds v) := fun l member => by
    refine decide_eq_decide.mpr ?_
    rw [Literal.Holds, Literal.Holds, same l.atom (List.mem_map_of_mem member)]
  change (root.members.filter _).length ≤ root.bound
  rw [List.filter_congr each]
  exact models

/-- Called in any way, a theory recalls what it has heard with the call. -/
theorem Recalls.answers {i : Nat} {call : Call} (recalls : Recalls root (heard.filter root.keeps) t)
    (answered : Theory.Answers i t call t') : Recalls root ((call.hear heard).filter root.keeps) t' := by
  cases answered with
  | setIndex j => exact ⟨recalls.members, recalls.bound, recalls.log, recalls.satisfied⟩
  | openLevel =>
    refine ⟨recalls.members, recalls.bound, ?_, fun known => ?_⟩
    · rw [Call.hear, LevelStack.filter_openLevel, ← recalls.log]
      rfl
    · rw [Call.hear, LevelStack.filter_openLevel, LevelStack.entriesAt_openLevel]
      exact recalls.satisfied known
  | backtrack level =>
    refine ⟨recalls.members, recalls.bound, ?_, fun known => ?_⟩
    · rw [Call.hear, LevelStack.filter_cutTo, ← recalls.log]
      exact LevelLog.view_defer _ _
    · rw [Call.hear, LevelStack.filter_cutTo, LevelStack.entriesAt_cutTo, if_pos (Nat.zero_le _)]
      exact recalls.satisfied known
  | enqueue _ l told => exact recalls.enqueue told
  | clearSatisfied _ cleared => exact recalls.clearSatisfied cleared
  | propagate _ s s' conflict ran => exact recalls.run .propagate ran
  | solve _ s s' conflict ran => exact recalls.run .solve ran
  | decide _ s proposal answered =>
    cases answered
    exact recalls
  | buildReason _ l marker reason answered =>
    obtain ⟨clause, _, same⟩ := Except.bind_eq_ok answered
    cases same
    exact ⟨recalls.members, recalls.bound, recalls.log, recalls.satisfied⟩
  | _ => exact recalls

/-- Where as many members are true as the bound allows, each other one is justified to be false. -/
theorem Recalls.justifies (recalls : Recalls root recalled t) {member : Literal} (inside : member ∈ t.members)
    (other : member ∉ t.trueMembers t.log.entries)
    (exactly : (t.trueMembers t.log.entries).length = t.bound) :
    root.Justifies recalled.entries member.negate := by
  rw [recalls.trueMembers, LevelLog.entries, recalls.log] at other exactly
  rw [recalls.members] at inside
  refine ⟨by rwa [Literal.negate_negate], fun fact => other ?_, ?_⟩
  · rw [Literal.negate_negate] at fact
    exact mem_trueMembers.mpr ⟨fact, inside⟩
  · exact Nat.le_of_eq (by rw [exactly, recalls.bound])

/-- One more true member than the bound allows is a conflict that holds. -/
theorem Recalls.holds_conflict (h : root.IsBuilt) (recalls : Recalls root recalled t)
    (distinct : recalled.entries.Nodup) (more : t.bound < (t.trueMembers t.log.entries).length) {clause : Clause}
    (negated : Literal.negateAll? ((t.trueMembers t.log.entries).take (t.bound + 1)) = .ok clause)
    (models : root.Models v) : clause.Holds v := by
  rw [Literal.negateAll?_eq_ok negated]
  rw [recalls.bound, recalls.trueMembers, LevelLog.entries, recalls.log] at more ⊢
  have causes := List.take_sublist (root.bound + 1) (root.trueMembers recalled.entries)
  refine holds_of_exceeds h models ((distinct.filter _).sublist causes)
    (fun l member => (mem_trueMembers.mp (causes.subset member)).2) ?_
  rw [List.length_take, Nat.min_eq_left more]
  exact Nat.lt_succ_self _

/-- At its turn a theory makes true only what it can justify, and a conflict that it finds holds. -/
theorem Recalls.turns (h : root.IsBuilt) (recalls : Recalls root recalled t) (distinct : recalled.entries.Nodup)
    {turn : AtMost → Turn (Option Clause × AtMost)} {call : Nat → List Literal → Option Clause → Call}
    (kind : TurnKind turn call) :
    (turn t).Allows (fun l marker => marker = recalled.entries.length ∧ root.Justifies recalled.entries l)
      fun outcome => ∀ clause, outcome.1 = some clause → ∀ v, root.Models v → Clause.Holds v clause := by
  have entries : t.log.entries = recalled.entries := by rw [LevelLog.entries, recalls.log]
  have examined : t.examine.Allows
      (fun l marker => marker = recalled.entries.length ∧ root.Justifies recalled.entries l)
      fun outcome => ∀ clause, outcome.1 = some clause → ∀ v, root.Models v → Clause.Holds v clause := by
    refine Turn.Allows.mono (allows_examine
      (fun clause => ∀ v, root.Models v → Clause.Holds v clause) ?_ ?_ ?_) fun outcome ends => ends.1
    · intro member inside other exactly
      exact ⟨by rw [LevelLog.length, entries], recalls.justifies inside other exactly⟩
    · intro member inside other exactly clause built v models
      rw [recalls.reason_eq_ok built]
      refine holds_reasonClause h (distinct.sublist (List.take_sublist _ _)) ?_ models
      rw [LevelLog.length, entries, List.take_length]
      exact recalls.justifies inside other exactly
    · intro more clause negated v models
      exact recalls.holds_conflict h distinct more negated models
  cases kind with
  | propagate =>
    change Turn.Allows _ _ (if t.satisfiedAtBase then _ else _)
    split
    · exact nofun
    · exact examined
  | solve => exact examined

/-- What a theory gives as a reason for what it could justify holds. -/
theorem Recalls.reasons (h : root.IsBuilt) (recalls : Recalls root recalled t) (distinct : recalled.entries.Nodup)
    {marker : Marker} {clause : Clause} (answered : Theory.buildReason l marker t = .ok (clause, t'))
    (justified : root.Justifies (recalled.entries.take marker) l) (models : root.Models v) : clause.Holds v := by
  obtain ⟨_, built, same⟩ := Except.bind_eq_ok answered
  cases same
  rw [recalls.reason_eq_ok built]
  exact holds_reasonClause h (distinct.sublist (List.take_sublist _ _)) justified models

/-- The clause of a reason holds, and its other literals are false. -/
theorem Justifies.explained (h : root.IsBuilt) (distinct : facts.Nodup) (justified : root.Justifies facts l) :
    ∃ clause : Clause, (∀ v, root.Models v → clause.Holds v) ∧ l ∈ clause ∧
      ∀ m ∈ clause, m ≠ l → m.negate ∈ facts := by
  refine ⟨root.reasonClause facts l, fun v models => ?_, .head _, fun m member other => ?_⟩
  · exact holds_reasonClause h distinct justified models
  · obtain ⟨cause, taken, rfl⟩ := List.mem_map.mp ((List.mem_cons.mp member).resolve_left other)
    rw [Literal.negate_negate]
    exact (mem_trueMembers.mp (List.mem_of_mem_take taken)).1

/-- Where a theory hints that it is satisfied, it is. -/
theorem Recalls.models_of_isSatisfied (h : root.IsBuilt) (recalls : Recalls root recalled t)
    (distinct : recalled.entries.Nodup) (holds : ∀ l ∈ recalled.entries, l.Holds v)
    (hint : Theory.isSatisfied t = .ok true) : root.Models v := by
  simp only [Theory.isSatisfied] at hint
  split at hint
  · rename_i known
    have base := LevelStack.entriesAt_sublist recalled 0
    exact models_of_falseMembers h (distinct.sublist base) (fun l member => holds l (base.subset member))
      (recalls.satisfied known)
  · exact models_of_falseMembers h distinct holds (recalls.cannotExceed_eq_ok hint)

/-- Where a theory that has heard of all its atoms finds no conflict, it is satisfied. -/
theorem Recalls.models_of_silent (h : root.IsBuilt) (recalls : Recalls root (heard.filter root.keeps) t)
    (complete : ∀ a ∈ root.atoms, ∃ l ∈ heard.entries, l.atom = a)
    (holds : ∀ l ∈ (heard.filter root.keeps).entries, l.Holds v) {i : Nat} {s s' : Atoms}
    (ran : t.examine.run i s = .ok ((none, t'), s')) : root.Models v := by
  refine models_of_trueMembers h holds (fun l member => ?_) ?_
  · obtain ⟨m, fact, same⟩ := complete l.atom (List.mem_map_of_mem member)
    refine ⟨m, ?_, same⟩
    rw [LevelStack.entries_filter, List.mem_filter, keeps, Bool.or_eq_true, decide_eq_true_eq, decide_eq_true_eq]
    rcases Literal.eq_or_eq_negate same with rfl | rfl
    · exact ⟨fact, .inl member⟩
    · exact ⟨fact, .inr (by rwa [Literal.negate_negate])⟩
  · have few := length_le_of_silent ran
    rwa [recalls.trueMembers, recalls.bound, LevelLog.entries, recalls.log] at few

theorem nodup_filter (areFacts : AreFacts heard.entries) : (heard.filter root.keeps).entries.Nodup := by
  rw [LevelStack.entries_filter]
  exact areFacts.nodup.filter _

end AtMost

instance : Constraint AtMost where
  IsBuilt := AtMost.IsBuilt
  atoms := AtMost.atoms
  Models := AtMost.Models
  keeps := AtMost.keeps
  Recalls root heard t := AtMost.Recalls root (heard.filter root.keeps) t
  Justifies := AtMost.Justifies

instance : LawfulConstraint AtMost where
  proper isBuilt := List.forall_mem_map.mpr fun _ member => isBuilt.proper member
  agree same models := AtMost.Models.agree same models
  built := by
    rintro root ⟨members, bound, rfl, _⟩
    exact ⟨rfl, rfl, rfl, nofun⟩
  answers recalls answered := AtMost.Recalls.answers recalls answered
  turns isBuilt recalls facts _ _ kind := AtMost.Recalls.turns isBuilt recalls (AtMost.nodup_filter facts) kind
  reasons isBuilt recalls facts _ _ _ answered justified _ models :=
    AtMost.Recalls.reasons isBuilt recalls (AtMost.nodup_filter facts) answered justified models
  explained isBuilt _ areFacts _ justified := AtMost.Justifies.explained isBuilt areFacts.nodup justified
  settled {root t heard} isBuilt recalls facts complete i s agrees v holds := by
    have holds : ∀ l ∈ (heard.filter root.keeps).entries, l.Holds v := by
      intro l member
      rw [LevelStack.entries_filter] at member
      exact holds l (List.mem_of_mem_filter member)
    rcases agrees with hint | ⟨t', ran⟩
    · exact AtMost.Recalls.models_of_isSatisfied isBuilt recalls (AtMost.nodup_filter facts) holds hint
    · exact AtMost.Recalls.models_of_silent isBuilt recalls complete holds ran

end SatModulo
