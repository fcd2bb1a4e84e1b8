import SatModulo.Proofs.Backing
import SatModulo.Proofs.Explanations
import SatModulo.Proofs.Failures
import SatModulo.Proofs.Timeline
import SatModulo.Theories.RuleTable

/-!
# Reasons that are given later

A theory is asked for the reason of a literal only when the reason is needed, and all that was kept is the
number of facts that it had when it gave the literal. For as long as the literal stands these are the first
facts that it recalls: what it had heard by the level of the literal is taken back only with the literal
(`Context.Warrants`). So whenever it is asked, the answer is the same reason, from the same facts.
-/
namespace SatModulo

open Constraint

variable {σ : Type}

/-! ### What moves leave of the trail -/

section Trail

variable [Theory σ] {c c' : Context σ} {taking : Intake σ} {l : Literal}

/-- The trails before and after a move begin in the same way, up to all literals that are on both. -/
theorem Move.exists_common (move : Move taking c c') (h : c.Coherent) :
    ∃ common, common <+: c.atoms.trail.literals ∧ common <+: c'.atoms.trail.literals ∧
      ∀ l ∈ c.atoms.trail.literals, l ∈ c'.atoms.trail.literals → l ∈ common := by
  have longer : c.atoms.trail.literals <+: c'.atoms.trail.literals →
      ∃ common, common <+: c.atoms.trail.literals ∧ common <+: c'.atoms.trail.literals ∧
        ∀ l ∈ c.atoms.trail.literals, l ∈ c'.atoms.trail.literals → l ∈ common :=
    fun longer => ⟨_, List.prefix_refl _, longer, fun _ before _ => before⟩
  have made {s s' : Atoms} {k : Literal} {reason : Reason} (made : s.assign k reason = .ok (.unset, s')) :
      s.trail.literals <+: s'.trail.literals := by
    rw [Atoms.literals_assign made]
    exact List.prefix_append _ _
  have shorter (level : Nat) : (c.atoms.forgetAbove level).2.trail.literals <+: c.atoms.trail.literals := by
    rw [Atoms.trail_forgetAbove]
    exact Trail.literals_cutTo_isPrefix _ _
  cases move with
  | draw move => exact longer (Draws.frame (.single move)).1
  | jump move =>
    cases move with
    | retreat level low retracted theories undecided taken =>
      exact ⟨_, shorter level, List.prefix_refl _, fun _ _ after => after⟩
    | learn key k lower level clauses retracted theories atoms distinct falsified current low below tight
        entailed stored undecided taken asserted =>
      refine ⟨_, shorter level, made asserted, fun l before after => ?_⟩
      -- The literal that is learnt was false, so it is not one that was kept.
      rw [Atoms.literals_assign asserted, List.mem_append, List.mem_singleton] at after
      refine after.resolve_right ?_
      rintro rfl
      have isFalse := falsified l (.head _)
      rw [Context.valueOf, h.supports.atoms.valueOf_of_mem before] at isFalse
      cases isFalse
  | decide allowed move =>
    cases move with
    | decide l proposer theories atoms delivered opened decided =>
      exact longer (c.atoms.trail.literals_openLevel ▸ made decided)
  | build move =>
    cases move with
    | fresh previous a atoms success => exact longer ((Atoms.fresh_eq_ok success).2.2.1 ▸ List.prefix_refl _)
    | giveUnit clause key clauses l atoms given base distinct known stored state forced =>
      exact longer (made forced)
    | _ => exact longer (List.prefix_refl _)
  | settle => exact longer (List.prefix_refl _)
  | configure => exact longer (List.prefix_refl _)

/-- What was made true at a turn was so before, or was asked for, after the facts of the trail. -/
theorem Atoms.assignment_of_concludes {s s' : Atoms} {i : Nat} {asks : Literal → Marker → Prop}
    (chain : Relation.ReflTransGen (Atoms.Concludes i asks) s s') {facts : List Literal}
    (onTrail : ∀ fact ∈ facts, fact ∈ s.trail.literals) {level : Nat} {reason : Reason}
    (assigned : s'.assignment l.atom = some ⟨l.polarity, level, some reason⟩) :
    s.assignment l.atom = some ⟨l.polarity, level, some reason⟩ ∨
      ∃ marker, reason = .theory i marker ∧ asks l marker ∧ level = s.level ∧ s'.ComesAfter facts l := by
  suffices held : s'.level = s.level ∧ s.trail.literals <+: s'.trail.literals ∧
      ∀ l level reason, s'.assignment l.atom = some ⟨l.polarity, level, some reason⟩ →
        s.assignment l.atom = some ⟨l.polarity, level, some reason⟩ ∨
          ∃ marker, reason = .theory i marker ∧ asks l marker ∧ level = s.level ∧ s'.ComesAfter facts l from
    held.2.2 l level reason assigned
  clear assigned
  induction chain with
  | refl => exact ⟨rfl, List.prefix_refl _, fun _ _ _ => .inl⟩
  | @tail mid last _ step ih =>
    obtain ⟨same, longer, before⟩ := ih
    obtain ⟨k, marker, asked, made⟩ := step
    have longer' : mid.trail.literals <+: last.trail.literals := by
      rw [literals_assign made]
      exact List.prefix_append _ _
    refine ⟨(level_assign made).trans same, longer.trans longer', fun l level reason assigned => ?_⟩
    obtain ⟨_, _, _, _, assignment⟩ := assign_eq_unset made
    rw [assignment] at assigned
    split at assigned
    · rename_i sameAtom
      simp only [Option.some.injEq, Assignment.mk.injEq] at assigned
      obtain ⟨polarity, rfl, rfl⟩ := assigned
      obtain rfl := Literal.eq_of_atom_of_polarity sameAtom polarity.symm
      exact .inr ⟨marker, rfl, asked, same,
        .of_assign made fun fact given => longer.subset (onTrail fact given)⟩
    · refine (before l level reason assigned).imp_right ?_
      rintro ⟨marker, rfl, asked, atLevel, after⟩
      exact ⟨marker, rfl, asked, atLevel, after.mono longer'⟩

/-- A value that an atom got for the reason of a theory it had before a move, or the theory had its turn. -/
theorem Move.assignment_of_theory (move : Move taking c c') (h : c.Coherent) {level i : Nat} {marker : Marker}
    (assigned : c'.atoms.assignment l.atom = some ⟨l.polarity, level, some (.theory i marker)⟩) :
    c.atoms.assignment l.atom = some ⟨l.polarity, level, some (.theory i marker)⟩ ∨
      ∃ (m : Member σ) (flushed : σ) (turn : σ → Turn (Option Clause × σ))
        (call : Nat → List Literal → Option Clause → Call) (outcome : Option Clause × σ), TurnKind turn call ∧
        c.theories.members[i]? = some m ∧ (flushed = m.theory ∨ flushed = Theory.flush c.atoms m.theory) ∧
        (turn flushed).run i c.atoms = .ok (outcome, c'.atoms) := by
  -- Only turns give the reason of a theory.
  have made {s s' : Atoms} {k : Literal} {reason : Reason} (made : s.assign k reason = .ok (.unset, s'))
      (other : ∀ i marker, reason ≠ .theory i marker)
      (assigned : s'.assignment l.atom = some ⟨l.polarity, level, some (.theory i marker)⟩) :
      s.assignment l.atom = some ⟨l.polarity, level, some (.theory i marker)⟩ := by
    rw [(Atoms.assign_eq_unset made).2.2.2.2] at assigned
    split at assigned
    · simp only [Option.some.injEq, Assignment.mk.injEq] at assigned
      exact absurd assigned.2.2 (other i marker)
    · exact assigned
  have returned {low : Nat}
      (assigned : (c.atoms.forgetAbove low).2.assignment l.atom =
        some ⟨l.polarity, level, some (.theory i marker)⟩) :
      c.atoms.assignment l.atom = some ⟨l.polarity, level, some (.theory i marker)⟩ := by
    rw [h.supports.atoms.assignment_forgetAbove, Option.filter_eq_some_iff] at assigned
    exact assigned.1
  cases move with
  | draw move =>
    cases move with
    | units atoms step =>
      cases step with
      | force _ key clause k found forces forced => exact .inl (made forced nofun assigned)
      | pass k next seen => exact .inl assigned
    | turn j turn call kind conflict atoms theories taken =>
      obtain ⟨m, m', own, found, took, rfl⟩ := Registry.changeAt_eq_ok taken
      obtain ⟨flushed, origin, ran, -⟩ := Member.memberTurn_eq_ok took
      have chain := ((Turn.allows_any _).run ran).2
      refine (Atoms.assignment_of_concludes chain (List.forall_mem_nil _) assigned).imp_right ?_
      rintro ⟨_, same, _⟩
      cases same
      exact ⟨m, flushed, turn, call, _, kind, found, origin, ran⟩
    | _ => exact .inl assigned
  | jump move =>
    cases move with
    | retreat => exact .inl (returned assigned)
    | learn key k lower level clauses retracted theories atoms distinct falsified current low below tight
        entailed stored undecided taken asserted => exact .inl (returned (made asserted nofun assigned))
  | decide allowed move =>
    cases move with
    | decide k proposer theories atoms delivered opened decided =>
      have before : c.atoms.openLevel.assignment l.atom = _ := made decided nofun assigned
      exact .inl before
  | build move =>
    cases move with
    | fresh previous a atoms success =>
      exact .inl (by rwa [(Atoms.fresh_eq_ok success).2.2.2] at assigned)
    | giveUnit clause key clauses k atoms given base distinct known stored state forced =>
      exact .inl (made forced nofun assigned)
    | _ => exact .inl assigned
  | settle => exact .inl assigned
  | configure => exact .inl assigned

end Trail

/-! ### What theories warrant -/

section Warrants

variable [Constraint σ]

/-- A theory warrants a literal that it made true: it could justify it by the facts up to the marker, of
which it had heard by the level of the literal, and which come before it on the trail. -/
structure Registry.Warrants (r : Registry σ) (s : Atoms) (i : Nat) (root : σ) (l : Literal) (level : Nat)
    (marker : Marker) : Prop where
  inside : marker ≤ ((recalled root (r.heard i)).cutTo level).entries.length
  justified : Justifies root ((recalled root (r.heard i)).entries.take marker) l
  after : s.ComesAfter ((recalled root (r.heard i)).entries.take marker) l

variable [Theory σ]

/-- A member stems from a theory, which warrants all that it made true. -/
structure Context.Warranted (i : Nat) (root : σ) (c : Context σ) : Prop where
  stems : ∃ m, c.theories.Stems i root m
  warrants : ∀ l level marker,
    c.atoms.assignment l.atom = some ⟨l.polarity, level, some (.theory i marker)⟩ →
      c.theories.Warrants c.atoms i root l level marker

variable {c c' : Context σ} {taking : Intake σ} {i : Nat} {root : σ} {l : Literal} {level : Nat}
  {marker : Marker}

omit [Theory σ] in
/-- What was heard by the level of a literal warrants it for as long as it is kept. -/
theorem Registry.Warrants.mono {r r' : Registry σ} {s : Atoms} (warrants : r.Warrants s i root l level marker)
    (kept : (r.heard i).KeepsTo level (r'.heard i)) : r'.Warrants s i root l level marker := by
  have keeps := kept.filter (Constraint.keeps root)
  have same : (recalled root (r'.heard i)).entries.take marker =
      (recalled root (r.heard i)).entries.take marker :=
    keeps.take_eq warrants.inside
  exact ⟨Nat.le_trans warrants.inside (List.IsPrefix.length_le keeps), same ▸ warrants.justified,
    same ▸ warrants.after⟩

variable [LawfulConstraint σ]

/-- A theory warrants what it makes true at its turn. -/
theorem Context.warrants_of_turn (isBuilt : IsBuilt root) (h : c.Coherent) (told : c.Told) {m : Member σ}
    (stems : c.theories.Stems i root m) {flushed : σ}
    (origin : flushed = m.theory ∨ flushed = Theory.flush c.atoms m.theory)
    {turn : σ → Turn (Option Clause × σ)} {call : Nat → List Literal → Option Clause → Call}
    (kind : TurnKind turn call) {outcome : Option Clause × σ} {s' : Atoms}
    (ran : (turn flushed).run i c.atoms = .ok (outcome, s'))
    (assigned : s'.assignment l.atom = some ⟨l.polarity, level, some (.theory i marker)⟩) :
    c.atoms.assignment l.atom = some ⟨l.polarity, level, some (.theory i marker)⟩ ∨
      c.theories.Warrants s' i root l level marker := by
  have delivered := told.delivered i m stems.1
  have recalls := stems.recalls_flushed isBuilt origin
  have allowed := LawfulConstraint.turns isBuilt recalls (delivered.areFacts h.supports.atoms) kind
  have onTrail : ∀ fact ∈ (recalled root (c.theories.heard i)).entries, fact ∈ c.atoms.trail.literals := by
    intro fact given
    rw [recalled, LevelStack.entries_filter] at given
    exact delivered.subset (List.mem_of_mem_filter given)
  refine (Atoms.assignment_of_concludes (allowed.run ran).2 onTrail assigned).imp_right ?_
  rintro ⟨_, same, ⟨exactly, justified⟩, rfl, after⟩
  cases same
  -- All that was heard by the current level is all that was heard.
  have whole : (recalled root (c.theories.heard i)).level = c.atoms.level := by
    rw [recalled, LevelStack.level_filter, delivered.heardLevel]
    rfl
  have all : (recalled root (c.theories.heard i)).entries.take marker =
      (recalled root (c.theories.heard i)).entries := by
    rw [exactly, List.take_length]
  refine ⟨?_, by rwa [all], by rwa [all]⟩
  rw [LevelStack.cutTo_of_le _ _ (Nat.le_of_eq whole), exactly]

/-- Every move keeps that a theory warrants what it made true. -/
theorem Move.warranted (move : Move taking c c') (isBuilt : IsBuilt root) (h : c.Coherent) (told : c.Told)
    (warranted : c.Warranted i root) : c'.Warranted i root := by
  obtain ⟨m, stems⟩ := warranted.stems
  have h' := (move.coherent h).supports.atoms
  refine ⟨(move.stems stems).imp fun _ held => held.1, fun l level marker assigned => ?_⟩
  have low := h'.levelOf_le_level (Atoms.levelOf_eq_some.mpr ⟨_, assigned, rfl⟩)
  suffices c.theories.Warrants c'.atoms i root l level marker from this.mono (move.keepsTo told i low)
  have stood (assigned' : c.atoms.assignment l.atom = some ⟨l.polarity, level, some (.theory i marker)⟩) :
      c.theories.Warrants c'.atoms i root l level marker := by
    obtain ⟨inside, justified, after⟩ := warranted.warrants l level marker assigned'
    obtain ⟨common, here, there, both⟩ := move.exists_common h
    refine ⟨inside, justified, after.of_common h.supports.atoms.nodup here there (both l ?_ ?_)⟩
    · exact h.supports.atoms.mem_literals_iff.mpr ⟨_, _, assigned'⟩
    · exact h'.mem_literals_iff.mpr ⟨_, _, assigned⟩
  rcases move.assignment_of_theory h assigned with
    before | ⟨n, flushed, turn, call, outcome, kind, found, origin, ran⟩
  · exact stood before
  · obtain rfl : m = n := Option.some.inj (stems.1.symm.trans found)
    exact (Context.warrants_of_turn isBuilt h told stems origin kind ran assigned).elim stood id

theorem Context.Step.warranted (step : Context.Step taking c c') (isBuilt : IsBuilt root) (h : c.Coherent)
    (told : c.Told) (warranted : c.Warranted i root) : c'.Warranted i root := by
  rcases step with move | refuted
  · exact move.warranted isBuilt h told warranted
  · obtain ⟨atoms, theories⟩ := refuted.frame
    exact ⟨theories ▸ warranted.stems, atoms ▸ theories ▸ warranted.warrants⟩

/-! ### Reasons from moment to moment -/

/-- A theory gives a clause as the reason for a literal of the trail. It contains the literal, and otherwise
only literals that are false, and were so before. -/
structure Context.GivesReason (c : Context σ) (i : Nat) (l : Literal) (marker : Marker) (clause : Clause) :
    Prop
    where
  given : ∃ m t', c.theories.members[i]? = some m ∧ Theory.buildReason l marker m.theory = .ok (clause, t')
  member : l ∈ clause
  others : ∃ earlier, earlier ++ [l] <+: c.atoms.trail.literals ∧
    ∀ k ∈ clause, k ≠ l → k.negate ∈ earlier ∧ c.valueOf k = some false

variable {kind : σ → Prop}

/-- A literal that is on the trail at two moments in turn is so for the same reason, and what the theory had
heard of by the level of the literal it has heard of first. -/
theorem Context.Passes.stands (passes : c.Passes kind c') (isBuilt : IsBuilt root) (h : c.Coherent)
    (told : c.Told) (warranted : c.Warranted i root)
    (assigned : c.atoms.assignment l.atom = some ⟨l.polarity, level, some (.theory i marker)⟩)
    (after : l ∈ c'.atoms.trail.literals) : c'.Coherent ∧ c'.Told ∧ c'.Warranted i root ∧
      c'.atoms.assignment l.atom = some ⟨l.polarity, level, some (.theory i marker)⟩ ∧
      (c.theories.heard i).KeepsTo level (c'.theories.heard i) := by
  have low {c : Context σ} (h : c.Coherent)
      (assigned : c.atoms.assignment l.atom = some ⟨l.polarity, level, some (.theory i marker)⟩) :
      level ≤ c.level := h.supports.atoms.levelOf_le_level (Atoms.levelOf_eq_some.mpr ⟨_, assigned, rfl⟩)
  have before := h.supports.atoms.mem_literals_iff.mpr ⟨_, _, assigned⟩
  have same : c'.atoms.assignment l.atom = some ⟨l.polarity, level, some (.theory i marker)⟩ := by
    rcases passes.atoms with longer | falls
    · exact longer.assignment _ _ assigned
    · rw [falls.assignment_eq h.supports.atoms before after, assigned]
  have h' := (passes.keeps (fun _ => True) h told trivial fun _ _ _ => id).1
  -- No step in between goes below the level of the literal.
  obtain ⟨_, told', warranted', kept⟩ := (passes.above level (low h assigned) (low h' same)).keeps
    (fun mid => mid.Warranted i root ∧ (c.theories.heard i).KeepsTo level (mid.theories.heard i)) h told
    ⟨warranted, .refl _ _⟩ fun step high h told kept => by
      refine ⟨step.warranted isBuilt h told kept.1, kept.2.trans ?_⟩
      rcases step with move | refuted
      · exact move.keepsTo told i high
      · rw [refuted.frame.2]
        exact .refl _ _
  exact ⟨h', told', warranted', same, kept⟩

variable [Accountable σ]

omit [Theory σ] [LawfulConstraint σ] [Accountable σ] in
/-- What a theory recalls are facts. -/
theorem Context.Told.areFacts (told : c.Told) (h : c.Coherent) (root : σ) {m : Member σ}
    (found : c.theories.members[i]? = some m) (marker : Marker) :
    AreFacts ((recalled root (c.theories.heard i)).entries.take marker) := by
  refine ((told.delivered i m found).areFacts h.supports.atoms).sublist ?_
  rw [recalled, LevelStack.entries_filter]
  exact (List.take_sublist _ _).trans List.filter_sublist

/-- Where a theory warrants a literal, there is a reason that follows from the theory alone, and which the theory
gives wherever it still warrants the literal by what it had heard of. -/
theorem Context.Warranted.exists_reason (warranted : c.Warranted i root) (isBuilt : IsBuilt root)
    (h : c.Coherent) (told : c.Told)
    (assigned : c.atoms.assignment l.atom = some ⟨l.polarity, level, some (.theory i marker)⟩) :
    ∃ clause, (∀ v, Models v root → clause.Holds v) ∧ ∀ c' : Context σ, c'.Coherent → c'.Told →
      c'.Warranted i root →
      c'.atoms.assignment l.atom = some ⟨l.polarity, level, some (.theory i marker)⟩ →
      (c.theories.heard i).KeepsTo level (c'.theories.heard i) → c'.GivesReason i l marker clause := by
  obtain ⟨inside, justified, _⟩ := warranted.warrants l level marker assigned
  obtain ⟨m, stems⟩ := warranted.stems
  have areFacts := told.areFacts h root stems.1 marker
  obtain ⟨clause, isReason, given⟩ := Accountable.reasons isBuilt areFacts justified
  refine ⟨clause, isReason.holds, fun c' h' told' warranted' assigned' kept => ?_⟩
  have same : (recalled root (c'.theories.heard i)).entries.take marker =
      (recalled root (c.theories.heard i)).entries.take marker :=
    (kept.filter (Constraint.keeps root)).take_eq inside
  obtain ⟨m', stems'⟩ := warranted'.stems
  obtain ⟨t', answered⟩ := given (stems'.recalls isBuilt) same
  have after := (warranted'.warrants l level marker assigned').after
  rw [same] at after
  obtain ⟨earlier, order, _, opposites⟩ := after.explains isReason.member isReason.others
  refine ⟨⟨m', t', stems'.1, answered⟩, isReason.member, earlier, order, fun k inClause other => ?_⟩
  have proper : k.atom ≠ topAtom := by
    rw [← Literal.atom_negate]
    exact areFacts.proper _ (isReason.others k inClause other)
  have before := (opposites k inClause other).resolve_right proper
  refine ⟨before, (h'.supports.atoms.valueOf_eq_false proper).mpr ?_⟩
  exact order.subset (List.mem_append_left _ before)

/-- From where a theory warrants a literal on, it gives one reason at all moments for as long as the literal
is on the trail, and the reason follows from the theory alone. -/
theorem Context.Passes.givesReason_of_isChain {rest : List (Context σ)}
    (chain : (c :: rest).IsChain (Context.Passes kind)) (isBuilt : IsBuilt root) (h : c.Coherent)
    (told : c.Told) (warranted : c.Warranted i root)
    (assigned : c.atoms.assignment l.atom = some ⟨l.polarity, level, some (.theory i marker)⟩)
    (stays : ∀ mid ∈ rest, l ∈ mid.atoms.trail.literals) :
    ∃ clause, (∀ v, Models v root → clause.Holds v) ∧ ∀ mid ∈ c :: rest, mid.GivesReason i l marker clause := by
  obtain ⟨clause, holds, gives⟩ := warranted.exists_reason isBuilt h told assigned
  refine ⟨clause, holds, List.forall_mem_cons.mpr ⟨gives c h told warranted assigned (.refl _ _), ?_⟩⟩
  have staying : (c :: rest).IsChain fun c c' => c.Passes kind c' ∧ l ∈ c'.atoms.trail.literals :=
    chain.imp_of_mem_tail_imp fun mid next _ later passes => ⟨passes, stays next later⟩
  suffices ∀ mid ∈ rest, mid.Coherent ∧ mid.Told ∧ mid.Warranted i root ∧
      mid.atoms.assignment l.atom = some ⟨l.polarity, level, some (.theory i marker)⟩ ∧
      (c.theories.heard i).KeepsTo level (mid.theories.heard i) from fun mid member => by
    obtain ⟨h', told', warranted', same, kept⟩ := this mid member
    exact gives mid h' told' warranted' same kept
  refine staying.cons_induction _ _ ?_ ⟨h, told, warranted, assigned, .refl _ _⟩
  rintro mid next ⟨passes, onTrail⟩ ⟨h, told, warranted, assigned, kept⟩
  obtain ⟨h', told', warranted', same, kept'⟩ := passes.stands isBuilt h told warranted assigned onTrail
  exact ⟨h', told', warranted', same, kept.trans kept'⟩

end Warrants

/-! ### Where theories come in -/

section Attribution

variable [Theory σ] {c c' : Context σ} {taking : Intake σ}

/-- What was made true for the reason of a theory, a registered one made true. -/
def Context.Attributed (c : Context σ) : Prop := ∀ (l : Literal) level i marker,
  c.atoms.assignment l.atom = some ⟨l.polarity, level, some (.theory i marker)⟩ →
    i < c.theories.members.length

theorem Move.length_members_le (move : Move taking c c') :
    c.theories.members.length ≤ c'.theories.members.length := by
  rcases move.called_or_registered with changes | ⟨theory, outcome, registered, _⟩
  · exact Nat.le_of_eq changes.length.symm
  · rcases Registry.register_eq registered with ⟨_, _, _, same, _⟩ | ⟨_, _, same⟩
    · rw [same]
    · rw [same, List.length_append]
      exact Nat.le_add_right _ _

theorem Context.Step.attributed (step : Context.Step taking c c') (h : c.Coherent)
    (attributed : c.Attributed) :
    c'.Attributed := by
  rcases step with move | refuted
  · intro l level i marker assigned
    refine Nat.lt_of_lt_of_le ?_ move.length_members_le
    rcases move.assignment_of_theory h assigned with before | ⟨m, _, _, _, _, _, found, _⟩
    · exact attributed l level i marker before
    · exact (List.getElem?_eq_some_iff.mp found).1
  · obtain ⟨atoms, theories⟩ := refuted.frame
    rw [Context.Attributed, atoms, theories]
    exact attributed

omit [Theory σ] in
theorem Context.Attributed.initial (settings : Settings) :
    (Context.ofSettings settings : Context σ).Attributed := by
  intro l level i marker assigned
  have coherent := (Context.Coherent.initial settings : (Context.ofSettings settings : Context σ).Coherent)
  have member := coherent.supports.atoms.mem_literals_iff.mpr ⟨level, _, assigned⟩
  cases member

end Attribution

/-! ### Runs -/

section Runs

variable [Theory σ] {c : Context σ}

/-- What the steps between moments keep is so at all of them from the first on. -/
theorem Context.Passes.keeps_of_isChain {kind : σ → Prop} {rest : List (Context σ)}
    (chain : (c :: rest).IsChain (Context.Passes kind)) (keeps : Context σ → Prop) (h : c.Coherent)
    (told : c.Told) (kept : keeps c)
    (step : ∀ {c c' : Context σ}, Context.Step (.ofKind kind) c c' → c.Coherent → c.Told → keeps c →
      keeps c') :
    ∀ mid ∈ c :: rest, mid.Coherent ∧ mid.Told ∧ keeps mid :=
  chain.induction _ _ (fun _ _ passes ⟨h, told, kept⟩ => passes.keeps keeps h told kept step)
    fun _ => ⟨h, told, kept⟩

namespace PublicRun

variable {settings : Settings} {events : List (Event σ)} {e : Event σ} {s : Session σ}

/-- At all moments of a run, what was made true for the reason of a theory, a registered one made true. -/
theorem attributed_moments (run : PublicRun settings events s) :
    ∀ mid ∈ moments settings events, mid.Coherent ∧ mid.Told ∧ mid.Attributed :=
  Context.Passes.keeps_of_isChain (run.isChain_moments fun _ _ _ _ => trivial).1 Context.Attributed
    (.initial settings) (.initial settings) (.initial settings) fun {_ _} step h _ => step.attributed h

/-- What was made true at a moment of a run for the reason of a theory, that theory was registered by its
end. -/
theorem lt_length_of_moment (run : PublicRun settings events s) {c : Context σ}
    (moment : c ∈ moments settings events) {l : Literal} {level i : Nat} {marker : Marker}
    (assigned : c.atoms.assignment l.atom = some ⟨l.polarity, level, some (.theory i marker)⟩) :
    i < s.context.theories.members.length := by
  obtain ⟨h, told, attributed⟩ := run.attributed_moments c moment
  obtain ⟨chain, last⟩ : (moments settings events).IsChain (Context.Passes fun _ => True) ∧ _ :=
    run.isChain_moments fun _ _ _ _ => trivial
  obtain ⟨before, after, split⟩ := List.append_of_mem moment
  rw [split, List.getLast?_append_of_ne_nil _ (List.cons_ne_nil c after)] at last
  rw [split] at chain
  refine (Context.Passes.keeps_of_isChain (List.isChain_append.mp chain).2.1
    (fun mid => i < mid.theories.members.length) h told (attributed l level i marker assigned) ?_ _
    (List.mem_of_getLast? last)).2.2
  rintro c c' (move | refuted) _ _ inside
  · exact Nat.lt_of_lt_of_le inside move.length_members_le
  · rwa [refuted.frame.2]

variable [Constraint σ] [LawfulConstraint σ]

/-- At all moments of a run a theory warrants what it made true, once it is registered. -/
theorem warranted_moments (run : PublicRun settings events s) (member : e ∈ events) {root : σ} {i : Nat}
    (given : e.command = .addTheory root) (registered : e.result = .ok (.theory i)) (isBuilt : IsBuilt root)
    {c : Context σ} (moment : c ∈ moments settings events) {l : Literal} {level : Nat} {marker : Marker}
    (assigned : c.atoms.assignment l.atom = some ⟨l.polarity, level, some (.theory i marker)⟩) :
    c.Warranted i root := by
  obtain ⟨earlier, later, rfl⟩ := List.append_of_mem member
  have plain : e.moments = [e.after.context] := Event.moments_of_ne (by rw [given]; nofun)
  have split : moments settings (earlier ++ e :: later) =
      moments settings earlier ++ e.after.context :: later.flatMap Event.moments := by
    rw [moments_append, List.flatMap_cons, plain, List.singleton_append]
  have chain : (moments settings _).IsChain (Context.Passes fun _ => True) :=
    (run.isChain_moments fun _ _ _ _ => trivial).1
  rw [split] at chain moment
  have upTo := run.through
  obtain ⟨before, _, _⟩ := upTo.of_concat
  have last : e ∈ earlier ++ [e] := List.mem_append_right _ (.head _)
  obtain ⟨theories, registry, after⟩ := upTo.after_of_registers last given registered
  have isNew : i = e.before.context.theories.members.length := by
    rcases Registry.register_eq registry with ⟨_, _, failed, _⟩ | ⟨same, _⟩
    · cases failed
    · exact Except.ok.inj same
  have isNone {mid : Context σ} (old : mid ∈ moments settings earlier) {l : Literal} {level : Nat}
      {marker : Marker} :
      mid.atoms.assignment l.atom ≠ some ⟨l.polarity, level, some (.theory i marker)⟩ := fun assigned =>
    absurd (before.lt_length_of_moment old assigned) (Nat.not_lt.mpr (Nat.le_of_eq isNew.symm))
  rcases List.mem_append.mp moment with old | new
  · exact absurd assigned (isNone old)
  · have fresh : e.after.context.Warranted i root := by
      refine ⟨upTo.stems_of_registers last given registered, fun l level marker assigned => ?_⟩
      rw [after] at assigned
      have lastMoment := (before.isChain_moments fun _ _ _ _ => trivial).2
      exact absurd assigned (isNone (List.mem_of_getLast? lastMoment))
    refine (Context.Passes.keeps_of_isChain (List.isChain_append.mp chain).2.1 (Context.Warranted i root)
      upTo.coherent.1 upTo.told fresh ?_ c new).2.2
    exact fun {_ _} step h told => step.warranted isBuilt h told

end PublicRun

end Runs

end SatModulo
