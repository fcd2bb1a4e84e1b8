import Mathlib.Data.Finset.Card
import SatModulo.Proofs.Exactness
import SatModulo.Theories.RuleTable

/-!
# What a bound draws

A turn of the theory of at most a number of true literals is exact. Its conflicts are false, and hold in all
valuations that keep to the bound. What it makes true follows from the facts of its log in all of these. A
turn that ends without a conflict after the whole trail was handed over leaves no more members true than the
bound allows, and if it leaves as many all others are false. So it is in every context that a run comes
through in which the members are known and observed (`PublicRun.counts_exactly`).
-/
namespace SatModulo

/-- How many of some literals there are of a kind, each counted once. -/
def countTrue (members : List Literal) (holds : Literal → Prop) [DecidablePred holds] : Nat :=
  (members.toFinset.filter holds).card

section Count

variable {members others : List Literal} {holds : Literal → Prop} [DecidablePred holds]

/-- What is without repetition is counted in the list. -/
theorem countTrue_eq_length (distinct : others.Nodup)
    (same : ∀ l, l ∈ others ↔ l ∈ members ∧ holds l) : countTrue members holds = others.length := by
  rw [countTrue, ← List.toFinset_card_of_nodup distinct]
  congr 1
  ext l
  simp [same]

end Count

/-- A chain of consequences extends the trail by literals that were asked for. -/
theorem Atoms.Coherent.concludes {s s' : Atoms} (h : s.Coherent) {i : Nat} {asks : Literal → Marker → Prop}
    (chain : Relation.ReflTransGen (Atoms.Concludes i asks) s s') :
    s'.Coherent ∧ ∃ valued, s'.trail.literals = s.trail.literals ++ valued ∧
      ∀ l ∈ valued, ∃ marker, asks l marker := by
  induction chain with
  | refl => exact ⟨h, [], by simp, by simp⟩
  | tail _ step ih =>
    obtain ⟨coherent, valued, longer, asked⟩ := ih
    obtain ⟨l, marker, asks, made⟩ := step
    refine ⟨coherent.assign made, valued ++ [l], ?_, List.forall_mem_append.mpr ⟨asked, ?_⟩⟩
    · rw [literals_assign made, longer, List.append_assoc]
    · exact List.forall_mem_singleton.mpr ⟨marker, asks⟩

namespace AtMost

variable {root t : AtMost} {heard : LevelStack Literal} {s s' : Atoms} {l : Literal}

/-- A valuation satisfies a bound if it makes so many distinct members true. -/
theorem models_ofMembers {members : List Literal} {bound : Nat} {v : Atom → Bool} :
    (ofMembers members bound).Models v ↔ countTrue members (Literal.Holds v) ≤ bound := by
  have distinct : (ofMembers members bound).members.Nodup := Clause.nodup_addAllNew List.nodup_nil
  rw [countTrue_eq_length (distinct.filter fun l => decide (l.Holds v))]
  · rfl
  · intro l
    simp [ofMembers, Clause.mem_addAllNew]

/-- What facts justify is true where they are and the bound is kept. -/
theorem Justifies.holds (isBuilt : root.IsBuilt) {facts : List Literal} (distinct : facts.Nodup)
    (justified : root.Justifies facts l) {v : Atom → Bool} (models : root.Models v)
    (agrees : ∀ fact ∈ facts, fact.Holds v) : l.Holds v := by
  obtain ⟨m, member, holds⟩ := holds_reasonClause isBuilt distinct justified models
  rcases List.mem_cons.mp member with rfl | cause
  · exact holds
  · -- The other literals of the reason are against facts.
    obtain ⟨fact, taken, rfl⟩ := List.mem_map.mp cause
    obtain ⟨inFacts, inRoot⟩ := mem_trueMembers.mp (List.mem_of_mem_take taken)
    exact absurd (agrees fact inFacts) ((Literal.holds_negate (isBuilt.proper inRoot)).mp holds)

/-! ### Turns without a conflict -/

/-- Members that are to be made false are false if no conflict was found. -/
theorem falsify_settles (holds : t.Holds s) (i : Nat) (rest : List Literal)
    (inside : ∀ l ∈ rest, l ∈ t.members) : (t.falsify rest).Returns i s fun outcome s' =>
      s'.Coherent ∧ s.trail.literals <+: s'.trail.literals ∧
        (outcome.1 = none → ∀ l ∈ rest, s'.valueOf l = some false) := by
  induction rest generalizing t s with
  | nil => exact .done ⟨holds.coherent, List.prefix_refl _, fun _ => List.forall_mem_nil _⟩
  | cons member rest ih =>
    rw [List.forall_mem_cons] at inside
    -- Once the opposite of the member is on the trail, it stays there.
    have stays : ∀ {s₁ s₂ : Atoms}, member.negate ∈ s₁.trail.literals → s₂.Coherent →
        s₁.trail.literals <+: s₂.trail.literals → s₂.valueOf member = some false := by
      intro s₁ s₂ onTrail coherent longer
      have value := coherent.valueOf_negate (longer.subset onTrail)
      rwa [Literal.negate_negate] at value
    unfold falsify
    rw [Literal.negate?_of_le (holds.inRange inside.1)]
    refine Turn.Returns.assign ?_ (fun s' made => ?_) (fun isFalse => ?_) fun _ => ?_
    · rw [Literal.atom_negate]
      exact holds.known member inside.1
    · have after := holds.assign made
      have later := ih (t := { t with counters.propagations := t.counters.propagations + 1 })
        ⟨after.coherent, after.onTrail, after.known, after.proper⟩ inside.2
      refine Turn.Returns.mono later fun outcome s'' ends => ?_
      obtain ⟨coherent, longer, settled⟩ := ends
      have onTrail := Atoms.literals_assign made
      refine ⟨coherent, (onTrail ▸ List.prefix_append _ _).trans longer, fun none' => ?_⟩
      exact List.forall_mem_cons.mpr ⟨stays (by simp [onTrail]) coherent longer, settled none'⟩
    · refine Turn.Returns.mono (ih holds inside.2) fun outcome s'' ends => ?_
      obtain ⟨coherent, longer, settled⟩ := ends
      have proper := holds.proper member inside.1
      have onTrail := (holds.coherent.valueOf_eq_true (by rwa [Literal.atom_negate])).mp isFalse
      refine ⟨coherent, longer, fun none' => ?_⟩
      exact List.forall_mem_cons.mpr ⟨stays onTrail coherent longer, settled none'⟩
    · change Turn.Returns ((Turn.ofExcept (t.reason member.negate t.log.length)).andThen _) i s _
      rw [holds.reason_eq]
      exact ⟨_, s, rfl, holds.coherent, List.prefix_refl _, fun none' => by cases none'⟩

/-- How atoms are left where nothing more follows from the facts: no more members are true by them than the
bound allows, and then all others are false. -/
def IsSettled (t : AtMost) (s s' : Atoms) : Prop :=
  (t.trueMembers t.log.entries).length ≤ t.bound ∧
    (s' = s ∧ (t.trueMembers t.log.entries).length < t.bound ∨
      ∀ l ∈ t.members, l ∉ t.trueMembers t.log.entries → s'.valueOf l = some false)

/-- After a look at the facts without a conflict nothing more follows from them. -/
theorem examine_settles (holds : t.Holds s) (i : Nat) :
    t.examine.Returns i s fun outcome s' => outcome.1 = none → t.IsSettled s s' := by
  rw [examine_eq]
  split
  · rw [Literal.negateAll?_of_le fun l member =>
      holds.fact_inRange (mem_trueMembers.mp (List.mem_of_mem_take member)).1]
    exact ⟨_, s, rfl, nofun⟩
  · rename_i notMore
    split
    · rename_i less
      exact .done fun _ => ⟨Nat.le_of_lt less, .inl ⟨rfl, less⟩⟩
    · refine Turn.Returns.mono (falsify_settles holds i _ fun l member => List.mem_of_mem_filter member)
        fun outcome s' ends none' => ⟨Nat.not_lt.mp notMore, .inr fun l member other => ?_⟩
      exact ends.2.2 none' l (List.mem_filter.mpr ⟨member, decide_eq_true other⟩)

section Informed

variable (informed : Constraint.Informed root heard t s)

include informed

/-- A turn ends. Where it found no conflict, and all values of the members were heard of, nothing more
follows. -/
theorem turn_settles {turn : AtMost → Turn (Option Clause × AtMost)}
    {call : Nat → List Literal → Option Clause → Call} (kind : TurnKind turn call) (i : Nat) :
    (turn t).Returns i s fun outcome s' =>
      (∀ a ∈ root.atoms, (s.value a).isSome → ∃ l ∈ heard.entries, l.atom = a) → outcome.1 = none →
        t.IsSettled s s' := by
  have examined := examine_settles (holds_of_informed informed) i
  cases kind with
  | solve => exact Turn.Returns.mono examined fun _ _ settled _ => settled
  | propagate =>
    change Turn.Returns (if t.satisfiedAtBase then _ else _) i s _
    split
    · rename_i satisfied
      obtain ⟨few, rest⟩ := isExhausted_of_satisfied informed satisfied
      refine .done fun complete _ => ⟨few, rest.imp (fun less => ⟨rfl, less⟩) fun valued l member other => ?_⟩
      exact valueOf_eq_false_of_not_true informed complete member (valued l member) other
    · exact Turn.Returns.mono examined fun _ _ settled _ => settled

omit informed in
/-- On atoms where nothing more follows, the members that are true are the ones the log shows. -/
theorem IsSettled.mem_trueMembers_iff (informed : Constraint.Informed root heard t s)
    (complete : ∀ a ∈ root.atoms, (s.value a).isSome → ∃ l ∈ heard.entries, l.atom = a)
    (settled : t.IsSettled s s') (coherent : s'.Coherent) (longer : s.trail.literals <+: s'.trail.literals) :
    l ∈ t.trueMembers t.log.entries ↔ l ∈ t.members ∧ s'.valueOf l = some true := by
  constructor
  · intro member
    obtain ⟨fact, inside⟩ := mem_trueMembers.mp member
    exact ⟨inside, coherent.valueOf_of_mem (longer.subset ((holds_of_informed informed).onTrail l fact))⟩
  · rintro ⟨inside, isTrue⟩
    by_contra other
    have isFalse : s'.valueOf l = some false := by
      rcases settled.2 with ⟨rfl, _⟩ | others
      · exact valueOf_eq_false_of_not_true informed complete inside (by rw [isTrue]; rfl) other
      · exact others l inside other
    rw [isFalse] at isTrue
    cases isTrue

/-- What a turn makes true, and its conflicts, are what the bound entails. -/
theorem turn_entails {turn : AtMost → Turn (Option Clause × AtMost)}
    {call : Nat → List Literal → Option Clause → Call} (kind : TurnKind turn call) {i : Nat}
    {outcome : Option Clause × AtMost} (ran : (turn t).run i s = .ok (outcome, s')) :
    (∀ clause, outcome.1 = some clause →
      (∀ l ∈ clause, s'.valueOf l = some false) ∧ ∀ v, root.Models v → Clause.Holds v clause) ∧
    s'.Coherent ∧ ∃ valued, s'.trail.literals = s.trail.literals ++ valued ∧
      ∀ l ∈ valued, ∀ v, root.Models v → (∀ fact ∈ t.log.entries, fact.Holds v) → l.Holds v := by
  have holds := holds_of_informed informed
  have falsified : ∀ clause, outcome.1 = some clause → ∀ l ∈ clause, s'.valueOf l = some false := by
    have examined := examine_yields holds.coherent holds.onTrail (i := i)
    cases kind with
    | solve => exact examined outcome s' ran
    | propagate =>
      change (if t.satisfiedAtBase then _ else _ : Turn _).run i s = _ at ran
      split at ran
      · cases ran
        rintro _ ⟨⟩
      · exact examined outcome s' ran
  obtain ⟨valid, chain⟩ :=
    (LawfulConstraint.turns informed.isBuilt informed.recalls informed.facts kind).run ran
  obtain ⟨coherent, valued, longer, asked⟩ := holds.coherent.concludes chain
  refine ⟨fun clause given => ⟨falsified clause given, valid clause given⟩, coherent, valued, longer, ?_⟩
  intro l member v models agrees
  obtain ⟨_, _, justified⟩ := asked l member
  have distinct := (informed.facts.sublist (sublist_of_informed informed)).nodup
  rw [← entries_of_informed informed] at justified
  exact justified.holds informed.isBuilt distinct models agrees

end Informed

/-! ### Exactness -/

/-- How a turn of a theory that knows some facts goes from atoms to others: a conflict is false, and it and
what the turn makes true hold wherever so many members are true as may be, and the latter where the facts
do. -/
structure DrawsSoundly (members : List Literal) (bound : Nat) (facts : List Literal) (s : Atoms)
    (conflict : Option Clause) (after : Atoms) : Prop where
  falsified : ∀ clause, conflict = some clause → ∀ l ∈ clause, after.valueOf l = some false
  entailed : ∀ clause, conflict = some clause →
    ∀ v, countTrue members (Literal.Holds v) ≤ bound → Clause.Holds v clause
  follows : ∃ valued, after.trail.literals = s.trail.literals ++ valued ∧
    ∀ l ∈ valued, ∀ v, countTrue members (Literal.Holds v) ≤ bound →
      (∀ fact ∈ facts, fact.Holds v) → l.Holds v

/-- No more members are true than may be, and if as many are, all others are false. -/
def KeepsBound (members : List Literal) (bound : Nat) (s : Atoms) : Prop :=
  countTrue members (fun l => s.valueOf l = some true) ≤ bound ∧
    (countTrue members (fun l => s.valueOf l = some true) = bound →
      ∀ l ∈ members, s.valueOf l ≠ some true → s.valueOf l = some false)

/-- A turn of the theory on known members is exact. -/
theorem turn_exact {members : List Literal} {bound : Nat}
    (informed : Constraint.Informed (ofMembers members bound) heard t s)
    {turn : AtMost → Turn (Option Clause × AtMost)} {call : Nat → List Literal → Option Clause → Call}
    (kind : TurnKind turn call) (i : Nat) :
    (turn t).Returns i s fun outcome s' => DrawsSoundly members bound t.log.entries s outcome.1 s' ∧
      ((∀ l ∈ members, (s.value l.atom).isSome → ∃ fact ∈ heard.entries, fact.atom = l.atom) →
        outcome.1 = none → KeepsBound members bound s') := by
  have recalls : Recalls _ _ t := informed.recalls
  have mem_members : ∀ {l}, l ∈ t.members ↔ l ∈ members := by
    intro l
    rw [recalls.members, ofMembers, Clause.mem_addAllNew]
    simp
  obtain ⟨outcome, s', ran, settles⟩ := turn_settles informed kind i
  obtain ⟨conflicts, coherent, valued, longer, follows⟩ := turn_entails informed kind ran
  refine ⟨outcome, s', ran, ⟨fun clause given => (conflicts clause given).1, fun clause given v few => ?_,
    valued, longer, fun l member v few => ?_⟩, fun complete none' => ?_⟩
  · exact (conflicts clause given).2 v (models_ofMembers.mpr few)
  · exact follows l member v (models_ofMembers.mpr few)
  · have heardOf : ∀ a ∈ (ofMembers members bound).atoms, (s.value a).isSome →
        ∃ fact ∈ heard.entries, fact.atom = a := by
      refine List.forall_mem_map.mpr fun l member => complete l ?_
      rwa [← mem_members, recalls.members]
    have settled := settles heardOf none'
    have isTrue := fun l => settled.mem_trueMembers_iff (l := l) informed heardOf coherent
      (longer ▸ List.prefix_append _ _)
    have counted : countTrue members (fun l => s'.valueOf l = some true) =
        (t.trueMembers t.log.entries).length := by
      refine countTrue_eq_length ?_ fun l => by rw [isTrue, mem_members]
      exact (informed.facts.sublist (sublist_of_informed informed)).nodup.filter _
    have sameBound : t.bound = bound := recalls.bound
    rw [KeepsBound, counted, ← sameBound]
    refine ⟨settled.1, fun full l member other => ?_⟩
    rcases settled.2 with ⟨_, less⟩ | others
    · omega
    · exact others l (mem_members.mpr member) fun inside => other ((isTrue l).mp inside).2

end AtMost

section Family

variable {τ : Type} [Theory τ] {settings : Settings} {events : List (Event (τ ⊕ AtMost))}
  {s : Session (τ ⊕ AtMost)} {e : Event (τ ⊕ AtMost)} {members : List Literal} {bound i : Nat}

/-- Wherever a run comes through, a theory of at most so many true literals that observes their atoms draws
exactly what the bound entails: its turn ends, with a conflict that is false and entailed by the bound, and
having made true only what the bound and the facts of its log entail. If it ends without a conflict and the
whole trail was handed over, no more members are true than may be, and if as many are, all others are
false. -/
theorem PublicRun.counts_exactly (run : PublicRun settings events s) (member : e ∈ events)
    (given : e.command = .addTheory (.inr (.ofMembers members bound))) (registered : e.result = .ok (.theory i))
    (proper : ∀ l ∈ members, l.atom ≠ topAtom) {c : Context (τ ⊕ AtMost)} (reached : Moves .any s.context c)
    {m : Member (τ ⊕ AtMost)} (found : c.theories.members[i]? = some m)
    (observed : ∀ l ∈ members, m.observes l.atom)
    {turn : τ ⊕ AtMost → Turn (Option Clause × (τ ⊕ AtMost))}
    {call : Nat → List Literal → Option Clause → Call} (kind : TurnKind turn call) :
    ∃ t t' conflict after calls, m.theory = .inr t ∧
      Procedure.memberTurn i turn call c.atoms m =
        .ok ((conflict, after), { m with theory := .inr t' }, calls) ∧
      AtMost.DrawsSoundly members bound t.log.entries c.atoms conflict after ∧
      (conflict = none → m.head = c.atoms.trail.length → AtMost.KeepsBound members bound after) := by
  let _ : Constraint τ := Constraint.unspoken τ
  have : LawfulConstraint τ := .unspoken
  have h : c.Coherent := Moves.coherent reached run.coherent.1
  have told : c.Told := Moves.told reached run.coherent.1 run.told
  obtain ⟨_, stems⟩ := run.stems_of_registers member given registered
  obtain ⟨m', stems, _⟩ := Moves.stems reached stems
  obtain rfl : m = m' := Option.some.inj (found.symm.trans stems.1)
  have isBuilt : (AtMost.ofMembers members bound).IsBuilt := ⟨members, bound, rfl, proper⟩
  have built : Constraint.BuiltBelow c.atoms.count (.inr (.ofMembers members bound) : τ ⊕ AtMost) := by
    refine ⟨isBuilt, List.forall_mem_map.mpr fun l inside => ?_⟩
    rw [AtMost.ofMembers, Clause.mem_addAllNew] at inside
    have watched := observed l (inside.resolve_left List.not_mem_nil)
    exact told.known m (List.mem_of_getElem? found) l.atom (of_decide_eq_true watched)
  have recalls := stems.recalls isBuilt
  obtain ⟨t, isTheory⟩ : ∃ t, m.theory = .inr t := by
    rcases same : m.theory with t | t
    · rw [same] at recalls
      exact recalls.elim
    · exact ⟨t, rfl⟩
  have informed := told.informed h built stems (.inl rfl)
  rw [isTheory] at informed
  -- The theory puts nothing off, so a flush leaves it as it is.
  have flushed : (if m.capabilities.deferredEnqueue then Theory.flush c.atoms m.theory else m.theory) =
      .inr t := by
    rw [isTheory]
    exact ite_self _
  obtain ⟨turn', kind, same⟩ := Theory.Embedding.inr.turn kind
  obtain ⟨⟨conflict, t'⟩, after, ran, sound, keeps⟩ := AtMost.turn_exact informed.inr kind i
  have taken : ∃ calls, Procedure.memberTurn i turn call c.atoms m =
      .ok ((conflict, after), { m with theory := .inr t' }, calls) := by
    unfold Procedure.memberTurn
    simp only [flushed, same, Turn.run_andThen, ran]
    exact ⟨_, rfl⟩
  obtain ⟨calls, taken⟩ := taken
  refine ⟨t, t', conflict, after, calls, isTheory, taken, sound, fun none' whole => keeps ?_ none'⟩
  intro l inside
  exact told.complete_of_head h found whole (List.forall_mem_map.mpr observed)
    (List.forall_mem_map.mpr proper) l.atom (List.mem_map_of_mem inside)

end Family

/-- Of an atom, given twice, and both literals of another at most two may be true. With both atoms true a turn
draws nothing more, as the opposite of the second is false already. -/
theorem counts_complementary_members :
    ∃ (events : List (Event (RuleTable ⊕ AtMost))) (s : Session (RuleTable ⊕ AtMost)),
      PublicRun {} events s ∧ events.map (·.command) = [.freshLiterals 2, .addTheory (.inl {}),
        .addTheory (.inr (.ofMembers [⟨1⟩, ⟨1⟩, ⟨2⟩, ⟨-2⟩] 2)), .observe 1 1, .observe 1 2, .decideLiteral ⟨1⟩,
        .decideLiteral ⟨2⟩, .propagate] ∧
      ∃ m t after outcome, s.context.theories.members[1]? = some m ∧ m.theory = .inr t ∧
        Procedure.memberTurn 1 Theory.propagate .propagate s.context.atoms m = .ok ((none, after), outcome) ∧
        AtMost.DrawsSoundly [⟨1⟩, ⟨1⟩, ⟨2⟩, ⟨-2⟩] 2 t.log.entries s.context.atoms none after ∧
        AtMost.KeepsBound [⟨1⟩, ⟨1⟩, ⟨2⟩, ⟨-2⟩] 2 after := by
  obtain ⟨events, s, run, commands, checked⟩ := PublicRun.of_run_any (σ := RuleTable ⊕ AtMost) {}
    [.freshLiterals 2, .addTheory (.inl {}), .addTheory (.inr (.ofMembers [⟨1⟩, ⟨1⟩, ⟨2⟩, ⟨-2⟩] 2)), .observe 1 1,
      .observe 1 2, .decideLiteral ⟨1⟩, .decideLiteral ⟨2⟩, .propagate] (by simp [Command.IsPublic])
    (fun results s => decide (results = [.ok (.literals [⟨1⟩, ⟨2⟩]), .ok (.theory 0), .ok (.theory 1), .ok .done,
        .ok .done, .ok .done, .ok .done, .ok .fixpoint]) &&
      s.context.theories.members[1]?.any fun m => m.observes 1 && m.observes 2 &&
        decide (m.head = s.context.atoms.trail.length) &&
        (Procedure.memberTurn 1 Theory.propagate .propagate s.context.atoms m).toOption.any
          fun ((conflict, _), _) => decide (conflict = none))
    (by decide +kernel)
  simp only [Bool.and_eq_true, decide_eq_true_eq, Option.any_eq_true] at checked
  obtain ⟨answered, m, found, ⟨⟨first, second⟩, whole⟩, ⟨⟨_, _⟩, _⟩, ended, silent⟩ := checked
  obtain ⟨e, member, given, registered⟩ : ∃ e ∈ events,
      e.command = .addTheory (.inr (.ofMembers [⟨1⟩, ⟨1⟩, ⟨2⟩, ⟨-2⟩] 2)) ∧ e.result = .ok (.theory 1) :=
    Event.exists_of_mem_zip commands answered (by simp)
  have observed : ∀ l ∈ ([⟨1⟩, ⟨1⟩, ⟨2⟩, ⟨-2⟩] : List Literal), m.observes l.atom := by
    simp only [List.forall_mem_cons]
    exact ⟨first, first, second, second, List.forall_mem_nil _⟩
  obtain ⟨t, t', conflict, after, calls, isTheory, taken, sound, keeps⟩ :=
    run.counts_exactly member given registered (by decide) .refl found observed .propagate
  obtain rfl : conflict = none := by
    rw [taken] at ended
    cases ended
    exact silent
  exact ⟨events, s, run, commands, m, t, after, _, found, isTheory, taken, sound, keeps rfl whole⟩

end SatModulo
