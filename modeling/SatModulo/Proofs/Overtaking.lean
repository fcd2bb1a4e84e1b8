import SatModulo.Proofs.Noting
import SatModulo.Proofs.SelfChecks

/-!
# Decisions that are overtaken

A reachability that is asked for a proposal forgets its last one. So it misses a decision on its proposal when it
is asked again, and the next decision made, before it has heard of the first (`Context.Overtaken`). A search asks
only where every theory has been told of the trail, so there it misses nothing (`Procedure.solve_inStep`). Along a
run it notes every decision that was not overtaken, in their order (`PublicRun.mirrors_decisions`).
-/
namespace SatModulo

/-! ### Proposals -/

theorem Atoms.Coherent.isOpen_positive {s : Atoms} (h : s.Coherent) {a : Atom} (known : a < s.count)
    (unset : s.value a = none) : (Literal.positive a).atom = a ∧ s.isOpen (.positive a) = true := by
  have inRange : a ≤ maxAtom := Nat.lt_succ_iff.mp (Nat.lt_of_lt_of_le known h.room)
  have onAtom : (Literal.positive a).atom = a := by
    rw [Literal.positive_of_le inRange, Literal.atom_on]
  have proper : a ≠ topAtom := by
    rintro rfl
    rw [Atoms.value, h.top] at unset
    cases unset
  refine ⟨onAtom, ?_⟩
  simp [Atoms.isOpen, onAtom, proper, known, unset]

namespace Reachability

variable {s : Atoms} {t u : Reachability}

theorem of_propose {a : Atom} (proposed : t.propose s = some a) :
    (∃ e ∈ t.graph.edges, e.atom = a) ∧ s.value a = none := by
  unfold propose at proposed
  dsimp only at proposed
  split at proposed
  · obtain ⟨path, found, chosen⟩ := Option.bind_eq_some_iff.mp proposed
    obtain ⟨e, onPath, same⟩ := List.mem_map.mp (List.mem_of_find?_eq_some chosen)
    have unset := List.find?_some chosen
    exact ⟨⟨e, Graph.mem_edges_of_shortestPath found e onPath, same⟩, Option.isNone_iff_eq_none.mp unset⟩
  · cases proposed

/-- A proposal takes the place of the last one in the ledger, and is on an edge without a value. -/
theorem ledger_decide {proposal : Option Proposal} (answered : Theory.decide s t = (proposal, u)) :
    match proposal with
    | none => u = t
    | some p => u.ledger = { t.ledger with proposal := some (p.literal, s.level) } ∧ u.graph = t.graph ∧
      ∃ e ∈ t.graph.edges, p.literal = .positive e.atom ∧ s.value e.atom = none := by
  change t.proposal? s = (proposal, u) at answered
  unfold proposal? at answered
  split at answered
  · cases answered
    rfl
  · rename_i a proposed
    obtain ⟨⟨e, edge, rfl⟩, unset⟩ := of_propose proposed
    cases answered
    exact ⟨rfl, rfl, e, edge, rfl, unset⟩

end Reachability

/-! ### Preparations -/

section Preparations

variable {σ : Type} {c mid c' : Context σ} {i : Nat} {d : DecisionRecord}

/-- The trail and the decisions are the same, and so is what theories are to be told. -/
structure Context.AwaitsAs (c c' : Context σ) : Prop where
  atoms : c'.atoms = c.atoms
  decisions : c'.theories.decisions = c.theories.decisions
  pending : ∀ (i : Nat) (m' : Member σ), c'.theories.members[i]? = some m' →
    ∃ m : Member σ, c.theories.members[i]? = some m ∧ ∀ literals, m'.pending literals = m.pending literals

theorem Context.AwaitsAs.refl (c : Context σ) : c.AwaitsAs c :=
  ⟨rfl, rfl, fun _ m found => ⟨m, found, fun _ => rfl⟩⟩

theorem Context.AwaitsAs.trans (first : c.AwaitsAs mid) (second : mid.AwaitsAs c') : c.AwaitsAs c' where
  atoms := second.atoms.trans first.atoms
  decisions := second.decisions.trans first.decisions
  pending i m' found' := by
    obtain ⟨n, between, same⟩ := second.pending i m' found'
    obtain ⟨m, found, same'⟩ := first.pending i n between
    exact ⟨m, found, fun literals => (same literals).trans (same' literals)⟩

theorem Context.AwaitsAs.of_silent [Theory σ] (atoms : c'.atoms = c.atoms)
    (decisions : c'.theories.decisions = c.theories.decisions)
    (silent : Registry.Changes Member.Silent c.theories c'.theories) : c.AwaitsAs c' where
  atoms := atoms
  decisions := decisions
  pending i m' found' := by
    obtain ⟨m, own, found, _, effect⟩ := silent.of_getElem? found'
    refine ⟨m, found, fun literals => ?_⟩
    rw [effect.kept]
    rfl

/-- To ask a theory for a proposal disturbs nothing else. -/
theorem Context.AwaitsAs.asked [Theory σ] {m : Member σ} (found : c.theories.members[i]? = some m)
    {proposal : Option Proposal} {theory : σ} (answered : Theory.decide c.atoms m.theory = (proposal, theory)) :
    c.AwaitsAs (c.withCall i { m with theory } (.decide proposal)) := by
  have silent : Member.Silent i m { m with theory } [.decide proposal] :=
    ⟨.single (.decide m.theory theory c.atoms proposal answered), rfl, by simp [Call.IsSilent, Call.hear]⟩
  exact .of_silent rfl rfl (Registry.changes_set found silent Member.Silent.none)

/-- What is overtaken after preparations was so before them. -/
theorem Context.Overtaken.of_awaitsAs (overtaken : mid.Overtaken c' i d) (same : c.AwaitsAs mid) :
    c.Overtaken c' i d := by
  obtain ⟨standing, ⟨m', found', unheard⟩, d', own, next⟩ := overtaken
  obtain ⟨m, found, pending⟩ := same.pending i m' found'
  rw [Registry.recordsOf, same.decisions] at standing
  rw [pending, same.atoms] at unheard
  rw [same.decisions] at next
  exact ⟨standing, ⟨m, found, unheard⟩, d', own, next⟩

/-- What every theory was told is not overtaken. -/
theorem Context.AllDelivered.not_overtaken (all : c.AllDelivered) : ¬c.Overtaken c' i d := by
  rintro ⟨_, ⟨m, found, unheard⟩, _⟩
  have behind := (List.mem_filter.mp unheard).1
  rw [all m (List.mem_of_getElem? found)] at behind
  simp [Trail.length] at behind

end Preparations

/-! ### Asking -/

section Deciding

variable {τ : Type} [Theory τ] {c mid c' : Context (τ ⊕ Reachability)} {i : Nat} {lost : DecisionRecord → Prop}

/-- A reachability that is in step stays so when another theory is asked, or when it has no proposal. A proposal
of its own can be decided. -/
theorem Context.InStep.asked (h : c.InStep Sum.inr i lost) {j : Nat} {m : Member (τ ⊕ Reachability)}
    (found : c.theories.members[j]? = some m) {proposal : Option Proposal} {theory : τ ⊕ Reachability}
    (answered : Theory.decide c.atoms m.theory = (proposal, theory)) :
    ((j = i → proposal = none) → (c.withCall j { m with theory } (.decide proposal)).InStep Sum.inr i lost) ∧
      ∀ p, j = i → proposal = some p → c.atoms.isOpen p.literal = true ∧
        (c.withCall j { m with theory } (.decide proposal)).Proposed Sum.inr i lost p.literal := by
  have draw : Draw c (c.withCall j { m with theory } (.decide proposal)) :=
    .ask c j m found (.decide proposal) trivial theory (.decide _ _ c.atoms _ answered)
  have recorded : (c.withCall j { m with theory } (.decide proposal)).Recorded :=
    ⟨h.recorded.descending, h.recorded.standing⟩
  have coherent := draw.coherent h.coherent
  have told := draw.told h.coherent h.told
  obtain ⟨n, t, foundN, isReach, inStep⟩ := h.member
  have still : ∀ theory, Member.InStep { n with theory } t c.atoms (c.theories.recordsOf i) lost := fun theory =>
    inStep.grow rfl rfl rfl rfl (Nat.le_refl _) rfl (List.prefix_refl _)
  by_cases own : j = i
  · subst own
    obtain rfl : n = m := Option.some.inj (foundN.symm.trans found)
    have here : (c.theories.members.set j { n with theory })[j]? = some { n with theory } :=
      List.getElem?_set_self (List.getElem?_eq_some_iff.mp found).1
    rw [isReach, Theory.Embedding.inr.decide] at answered
    rcases asked : Theory.decide c.atoms t with ⟨own, u⟩
    rw [asked] at answered
    cases answered
    have spec := Reachability.ledger_decide asked
    refine ⟨fun vain => ?_, fun p _ proposed => ?_⟩
    · cases vain rfl
      obtain rfl : u = t := spec
      exact ⟨coherent, told, recorded, _, u, here, rfl, still _⟩
    · cases proposed
      obtain ⟨ledger, graph, e, edge, literal, unset⟩ := spec
      obtain ⟨onAtom, isOpen⟩ := h.coherent.supports.atoms.isOpen_positive (inStep.known e edge) unset
      rw [← literal] at onAtom isOpen
      refine ⟨isOpen, coherent, told, recorded, _, t, u, here, rfl, ?_, graph, ⟨e, edge, onAtom.symm⟩, still _⟩
      rw [ledger, inStep.level]
  · refine ⟨fun _ => ⟨coherent, told, recorded, n, t, ?_, isReach, inStep⟩, fun _ same => absurd same own⟩
    exact (List.getElem?_set_ne own).trans foundN

/-- What comes of asking theories for a proposal. -/
structure Context.Consults (c : Context (τ ⊕ Reachability)) (i : Nat) (lost : DecisionRecord → Prop)
    (outcome : Option (Nat × Proposal)) (after : Context (τ ⊕ Reachability)) : Prop where
  same : c.AwaitsAs after
  isOpen : ∀ j p, outcome = some (j, p) → c.atoms.isOpen p.literal = true
  proposed : ∀ p, outcome = some (i, p) → after.Proposed Sum.inr i lost p.literal
  inStep : (∀ p, outcome ≠ some (i, p)) → after.InStep Sum.inr i lost

omit [Theory τ] in
theorem Context.Consults.of_awaitsAs {outcome : Option (Nat × Proposal)} (asked : mid.Consults i lost outcome c')
    (same : c.AwaitsAs mid) : c.Consults i lost outcome c' where
  same := same.trans asked.same
  isOpen j p found := same.atoms ▸ asked.isOpen j p found
  proposed := asked.proposed
  inStep := asked.inStep

namespace Procedure

theorem askForProposal_consults (h : c.InStep Sum.inr i lost) (indices : List Nat) :
    (askForProposal indices : Procedure (τ ⊕ Reachability) _).Ensures c fun result after =>
      ∃ outcome, result = .ok outcome ∧ c.Consults i lost outcome after := by
  induction indices generalizing c with
  | nil => exact .pure ⟨none, rfl, .refl c, nofun, nofun, fun _ => h⟩
  | cons j rest ih =>
    refine .get_bind ?_
    dsimp only
    split
    · exact .fault
    · split
      · refine .ofFaulty_bind fun (proposal, theories) asked => .modify_bind ?_
        cases proposal with
        | none =>
          obtain ⟨_, rfl⟩ := Registry.changeAt_eq_none asked
          exact ih h
        | some proposal =>
          obtain ⟨m, m', own, found, answered, rfl⟩ := Registry.changeAt_eq_ok asked
          cases answered
          obtain ⟨inStep, proposed⟩ := h.asked found rfl
          have same := Context.AwaitsAs.asked found rfl
          have next := fun vain => (ih (inStep vain)).mono
            (q := fun result after => ∃ outcome, result = .ok outcome ∧ c.Consults i lost outcome after)
            fun result after ⟨outcome, answered, asked⟩ => ⟨outcome, answered, asked.of_awaitsAs same⟩
          split
          · rename_i p isProposal
            split
            · rename_i isOpen
              refine .pure ⟨some (j, p), rfl, same, ?_, ?_, ?_⟩
              · rintro _ _ ⟨⟩
                exact isOpen
              · rintro _ ⟨⟩
                exact (proposed p rfl isProposal).2
              · intro other
                exact inStep fun own => absurd rfl (own ▸ other p)
            · rename_i isClosed
              exact next fun own => absurd (proposed p own isProposal).1 isClosed
          · rename_i none'
            exact next fun _ => none'
      · exact ih h

end Procedure

/-! ### Decisions -/

/-- As long as no theory is asked for a proposal, a reachability stays in step. -/
theorem Context.InStep.course {taking : Intake (τ ⊕ Reachability)}
    (course : @Course _ (Theory.mute inferInstance) taking c c') (undecided : ∀ mid, ¬taking.decides mid)
    (h : c.InStep Sum.inr i lost) : c'.InStep Sum.inr i lost :=
  @Course.inStep _ (Theory.mute inferInstance) _ _ _ _ _ _ course Theory.keepsLedgers_mute undecided h

theorem Context.InStep.draws (draws : @Draws _ (Theory.mute inferInstance) c c')
    (h : c.InStep Sum.inr i lost) : c'.InStep Sum.inr i lost :=
  @Moves.inStep _ (Theory.mute inferInstance) _ _ _ _ _ {} (@Draws.moves _ (Theory.mute inferInstance) _ _ _ draws)
    Theory.keepsLedgers_mute (fun _ => id) h

namespace Procedure

theorem preprocess_inStep (h : c.InStep Sum.inr i lost) :
    (preprocess : Procedure (τ ⊕ Reachability) Unit).Ensures c fun result after =>
      result = .ok () ∧ c.AwaitsAs after ∧ after.InStep Sum.inr i lost := by
  refine .get_bind (.ofFaulty_bind fun theories prepared => .modify ⟨rfl, ?_, ?_⟩)
  · obtain ⟨quiet, _, decisions⟩ := Registry.changes_preprocess prepared
    exact .of_silent rfl decisions (quiet.mono fun _ _ _ _ => Member.Quiet.toSilent)
  · exact h.draws (.single (@Draw.preprocess _ (Theory.mute inferInstance) c theories prepared))

/-- A decision that is not on a proposal of its own loses none. -/
theorem applyDecision_inStep {l : Literal} (known : l.atom < c.atoms.count) (unset : c.atoms.value l.atom = none)
    (proposer : Option (Nat × Option Marker)) (other : ∀ reason, proposer ≠ some (i, reason))
    (h : c.InStep Sum.inr i lost) :
    (applyDecision l proposer : Procedure (τ ⊕ Reachability) Unit).Ensures c fun result after =>
      result = .ok () ∧ after.InStep Sum.inr i lost := by
  have decides := @applyDecision_decided _ (Theory.mute inferInstance) c l known unset proposer
  rw [applyDecision_mute] at decides
  refine decides.mono ?_
  rintro result after ⟨rfl, decided⟩
  exact ⟨rfl, @Decided.inStep _ (Theory.mute inferInstance) _ _ _ _ _ _ _ decided Theory.keepsLedgers_mute other h⟩

/-- A decision on a proposal of its own loses what it overtakes at most. -/
theorem applyDecision_inStep_of_proposed {l : Literal} (known : l.atom < c.atoms.count)
    (unset : c.atoms.value l.atom = none) (reason : Option Marker) (h : c.Proposed Sum.inr i lost l) :
    (applyDecision l (some (i, reason)) : Procedure (τ ⊕ Reachability) Unit).Ensures c fun result after =>
      result = .ok () ∧ after.InStep Sum.inr i fun d => lost d ∨ c.Overtaken after i d := by
  have decides := @applyDecision_decided _ (Theory.mute inferInstance) c l known unset (some (i, reason))
  rw [applyDecision_mute] at decides
  refine decides.mono ?_
  rintro result after ⟨rfl, decided⟩
  exact ⟨rfl, @Decided.inStep_of_proposed _ (Theory.mute inferInstance) _ _ _ _ _ _ _ decided
    Theory.keepsLedgers_mute h⟩

theorem decideLiteral_inStep (h : c.InStep Sum.inr i lost) (l : Literal) :
    (decideLiteral l : Procedure (τ ⊕ Reachability) Unit).Ensures c fun _ after =>
      after.InStep Sum.inr i lost := by
  refine .get_bind ?_
  dsimp only
  split
  · exact .throw_bind h
  · rename_i proper
    split
    · exact .throw_bind h
    · rename_i unset
      refine .bind (preprocess_inStep h) (fun _ _ held => held.2.2) ?_
      rintro ⟨⟩ prepared ⟨_, same, inStep⟩
      refine (applyDecision_inStep ?_ ?_ none nofun inStep).mono fun _ _ held => held.2
      · rw [same.atoms]
        exact Nat.not_le.mp fun beyond => proper (.inr beyond)
      · rw [same.atoms]
        simpa using unset

def acceptProposal (j : Nat) (p : Proposal) : Procedure (τ ⊕ Reachability) Decision := do
  count fun n => { n with theoryDecisions := n.theoryDecisions + 1 }
  applyDecision p.literal (some (j, p.reason))
  return .decided p.literal

def decideUnvalued : Procedure (τ ⊕ Reachability) Decision := do
  match ← atomWithoutValue with
  | none => return .exhausted
  | some a =>
    let l ← ofFaulty (Literal.ofAtom a (← valueToDecide a))
    applyDecision l none
    return .decided l

/-- Deciding on a proposal leaves the theory in step, but for the decision that this one may overtake. -/
theorem acceptProposal_inStep {j : Nat} {p : Proposal} (consults : c.Consults i lost (some (j, p)) mid) :
    (acceptProposal j p).Ensures mid fun _ after => after.InStep Sum.inr i fun d => lost d ∨ c.Overtaken after i d := by
  obtain ⟨known, unset⟩ := Atoms.isOpen_eq_true (consults.isOpen j p rfl)
  rw [← consults.same.atoms] at known unset
  let counted : Context (τ ⊕ Reachability) :=
    { mid with counters.theoryDecisions := mid.counters.theoryDecisions + 1 }
  refine .modify_bind ?_
  by_cases own : j = i
  · subst own
    have proposed : counted.Proposed Sum.inr j lost p.literal := (consults.proposed p rfl).count _
    have same : c.AwaitsAs counted := ⟨consults.same.atoms, consults.same.decisions, consults.same.pending⟩
    refine .bind (applyDecision_inStep_of_proposed (c := counted) known unset p.reason proposed) ?_ ?_
    · exact fun _ _ failed => by cases failed.1
    · rintro _ after ⟨_, inStep⟩
      exact .pure (inStep.mono fun d => Or.imp_right fun overtaken => overtaken.of_awaitsAs same)
  · have inStep : counted.InStep Sum.inr i lost :=
      (consults.inStep fun q other => own (by cases other; rfl)).aside mid.settings mid.phase counted.counters
    refine .bind (applyDecision_inStep (c := counted) known unset (some (j, p.reason)) ?_ inStep) ?_ ?_
    · rintro reason ⟨⟩
      exact own rfl
    · exact fun _ _ failed => by cases failed.1
    · exact fun _ after held => .pure (held.2.mono fun _ => .inl)

theorem decideUnvalued_inStep (h : c.InStep Sum.inr i lost) :
    decideUnvalued.Ensures c fun _ after => after.InStep Sum.inr i lost := by
  refine .bind (atomWithoutValue_leads (@Draw.adjust _ (Theory.mute inferInstance))) ?_ ?_
  · exact fun _ _ failed => h.draws failed.1
  · rintro outcome drawn ⟨draws, ⟨sameAtoms, _⟩, chosen⟩
    have inStep := h.draws draws
    split
    · exact .pure inStep
    · rename_i a
      obtain ⟨known, unset⟩ := Atoms.mem_unvalued.mp chosen
      refine .bind (valueToDecide_leads (@Draw.adjust _ (Theory.mute inferInstance)) a) ?_ ?_
      · exact fun _ _ failed => inStep.draws failed.1
      · rintro value valued ⟨draws, sameValued, _⟩
        rw [← sameAtoms, ← sameValued] at known unset
        refine .ofFaulty_bind fun l isLiteral => ?_
        have inRange : a ≤ maxAtom :=
          Nat.lt_succ_iff.mp (Nat.lt_of_lt_of_le known (inStep.draws draws).coherent.supports.atoms.room)
        have onAtom : l.atom = a := by
          rw [Literal.ofAtom_eq_ok inRange isLiteral, Literal.atom_on]
        subst onAtom
        refine .bind (applyDecision_inStep known unset none nofun (inStep.draws draws)) ?_ ?_
        · exact fun _ _ failed => by cases failed.1
        · exact fun _ after held => .pure held.2

/-- A decision loses what it overtakes at most. -/
theorem makeDecision_inStep (h : c.InStep Sum.inr i lost) :
    (makeDecision : Procedure (τ ⊕ Reachability) Decision).Ensures c fun _ after =>
      after.InStep Sum.inr i fun d => lost d ∨ c.Overtaken after i d := by
  refine .bind (preprocess_inStep h) (fun _ _ held => held.2.2.mono fun _ => .inl) ?_
  rintro ⟨⟩ prepared ⟨_, same, inStep⟩
  refine .get_bind (.bind (askForProposal_consults inStep _) (fun _ _ ⟨_, no, _⟩ => by cases no) ?_)
  rintro outcome mid ⟨_, given, consults⟩
  cases given
  split
  · exact acceptProposal_inStep (consults.of_awaitsAs same)
  · exact (decideUnvalued_inStep (consults.inStep nofun)).mono fun _ _ inStep => inStep.mono fun _ => .inl

/-! ### The search -/

/-- Recovery takes decisions back from records and ledgers, and makes none. -/
theorem recoverFrom_inStep (h : c.InStep Sum.inr i lost) {conflict : Conflict}
    (conflicting : c.Conflicting conflict) :
    (iterate.recoverFrom conflict : Procedure (τ ⊕ Reachability) (Option Report)).Ensures c fun _ after =>
      after.InStep Sum.inr i lost := by
  have recovers := @recover_course _ (Theory.mute inferInstance) c h.coherent conflict conflicting
  rw [recover_mute] at recovers
  refine .bind recovers ?_ ?_
  · exact fun _ _ failed => h.course (.inl failed.1) fun _ => id
  · rintro recovery after recovered
    cases recovery with
    | unsatisfiable => exact .pure (h.course (.inr recovered) fun _ => id)
    | asserted key l level =>
      have moves := @Asserts.moves _ (Theory.mute inferInstance) _ _ _ _ recovered
      exact .pure (h.course (.inl moves) fun _ => id)

/-- A search decides where every theory has been told of the trail, so it overtakes no decision. -/
theorem iterate_inStep (h : c.InStep Sum.inr i lost) :
    (iterate : Procedure (τ ⊕ Reachability) (Option Report)).Ensures c fun _ after =>
      after.InStep Sum.inr i lost := by
  have counted := h.aside c.settings c.phase { c.counters with iterations := c.counters.iterations + 1 }
  have leads := @propagate_leads _ (Theory.mute inferInstance) _ counted.coherent
  rw [propagate_mute] at leads
  refine .modify_bind (.get_bind ?_)
  split
  · exact .pure counted
  refine .bind leads (fun _ _ failed => counted.draws failed.1) ?_
  rintro outcome propagated ⟨draws, found⟩
  have inStep := counted.draws draws
  split
  · exact recoverFrom_inStep inStep found
  · refine .get_bind (.ofFaulty_bind fun (isNew, theories) cleared => .modify_bind ?_)
    have draw := @Draw.clearSatisfied _ (Theory.mute inferInstance) propagated isNew theories cleared
    have told : Context.AllDelivered { propagated with theories } :=
      @Draw.allDelivered _ (Theory.mute inferInstance) _ _ draw rfl found.2.1
    have decides := (makeDecision_inStep (inStep.draws (.single draw))).mono
      (q := fun _ after => after.InStep Sum.inr i lost) fun _ after inStep =>
        inStep.mono fun d => Or.rec id fun overtaken => absurd overtaken told.not_overtaken
    refine .bind decides (fun _ _ failed => failed) ?_
    rintro decision decided inStep
    split
    · exact .pure inStep
    · have leads := @finalCheck_leads _ (Theory.mute inferInstance) _ inStep.coherent
      rw [finalCheck_mute] at leads
      refine .bind leads (fun _ _ failed => inStep.draws failed.1) ?_
      rintro checked after ⟨draws, held⟩
      replace inStep := inStep.draws draws
      split
      · exact .modify_bind (.pure (inStep.aside after.settings .satisfiable after.counters))
      · exact .pure inStep
      · exact recoverFrom_inStep inStep held

theorem iterateWithin_inStep (h : c.InStep Sum.inr i lost) (fuel : Nat) :
    (iterateWithin fuel : Procedure (τ ⊕ Reachability) Report).Ensures c fun _ after =>
      after.InStep Sum.inr i lost := by
  induction fuel generalizing c with
  | zero => exact .pure h
  | succ fuel ih =>
    refine .bind (iterate_inStep h) (fun _ _ failed => failed) fun outcome after inStep => ?_
    split
    · exact .pure inStep
    · exact ih inStep

theorem solve_inStep (h : c.InStep Sum.inr i lost) :
    (solve : Procedure (τ ⊕ Reachability) Report).Ensures c fun _ after => after.InStep Sum.inr i lost := by
  refine .get_bind ?_
  split
  · exact .pure h
  · refine .bind (preprocess_inStep h) (fun _ _ failed => failed.2.2) ?_
    rintro ⟨⟩ prepared ⟨_, _, inStep⟩
    exact .modify_bind (.get_bind (iterateWithin_inStep
      (inStep.aside prepared.settings .solving prepared.counters) _))

end Procedure

/-- A command keeps a reachability in step, but for what a decision overtakes. -/
theorem Command.inStep (h : c.InStep Sum.inr i lost) (command : Command (τ ⊕ Reachability)) {told : Bool}
    (allowed : command.IsPublic told) (kept : Option Conflict)
    (recovers : command = .recover → ∀ conflict, kept = some conflict → c.Conflicting conflict) :
    (command.procedure kept).Ensures c fun _ after =>
      after.InStep Sum.inr i fun d => lost d ∨ command = .makeDecision ∧ c.Overtaken after i d := by
  by_cases chosen : command = .makeDecision
  · subst chosen
    refine ensures_answer ((Procedure.makeDecision_inStep h).mono fun _ after inStep => ?_)
    exact inStep.mono fun d => Or.imp_right fun overtaken => ⟨rfl, overtaken⟩
  by_cases stepwise : command = .solve
  · subst stepwise
    exact ensures_answer ((Procedure.solve_inStep h).mono fun _ after inStep => inStep.mono fun _ => .inl)
  by_cases decides : ∃ l, command = .decideLiteral l
  · obtain ⟨l, rfl⟩ := decides
    exact ensures_answer ((Procedure.decideLiteral_inStep h l).mono fun _ after inStep =>
      inStep.mono fun _ => .inl)
  -- Any other command is made of moves that decide nothing, and asks for no proposal.
  have course := @Command.course _ (Theory.mute inferInstance) c h.coherent command told allowed kept recovers
  rw [procedure_mute _ kept chosen stepwise] at course
  refine course.mono fun result after ran => ?_
  have own := @Ran.course _ (Theory.mute inferInstance) _ _ _ _ ran
  refine (h.course own fun mid decided => ?_).mono fun _ => .inl
  cases command with
  | makeDecision => exact chosen rfl
  | solve => exact stepwise rfl
  | decideLiteral l => exact decides ⟨l, rfl⟩
  | _ => exact decided

end Deciding

/-! ### Runs -/

/-- A decision on a proposal of a theory is overtaken at an event. -/
def Event.Overtakes {σ : Type} (e : Event σ) (i : Nat) (d : DecisionRecord) : Prop :=
  e.command = .makeDecision ∧ e.before.context.Overtaken e.after.context i d

namespace PublicRun

variable {τ : Type} [Theory τ] {settings : Settings} {events : List (Event (τ ⊕ Reachability))}
  {s : Session (τ ⊕ Reachability)} {e : Event (τ ⊕ Reachability)} {root : Reachability} {i : Nat}

/-- A reachability is in step when it is registered: at the base level no decision stands. -/
theorem inStep_of_registers (run : PublicRun settings (events ++ [e]) s) (given : e.command = .addTheory (.inr root))
    (registered : e.result = .ok (.theory i)) (made : root.IsMade)
    (known : ∀ a ∈ root.atoms, a < e.before.context.atoms.count) (lost : DecisionRecord → Prop) :
    s.context.InStep Sum.inr i lost := by
  obtain ⟨theories, accepted, after⟩ := run.after_of_registers (List.mem_append_right _ (.head _)) given registered
  rw [run.of_concat.2.2] at after
  obtain ⟨m, found, isReach, fresh⟩ : ∃ m, s.context.theories.members[i]? = some m ∧
      m.theory = .inr (Theory.setIndex i root) ∧ m.level = 0 := by
    rw [after]
    rcases Registry.register_eq accepted with ⟨_, _, no, _⟩ | ⟨same, _, rfl⟩
    · cases no
    · cases same
      exact ⟨_, List.getElem?_concat_length, rfl, rfl⟩
  have base : s.context.level = 0 := (run.told.delivered i m found).level.symm.trans fresh
  have none' : s.context.theories.decisions = [] := List.eq_nil_iff_forall_not_mem.mpr fun d standing => by
    obtain ⟨positive, low, _⟩ := run.exchanges.1.standing d standing
    omega
  have ledger : (Theory.setIndex i root : Reachability).ledger = ⟨[], none, 0⟩ := by
    obtain ⟨nodes, source, target, reach, listing, edges, rfl⟩ := made
    rw [Reachability.foldl_addEdge]
    rfl
  refine ⟨run.coherent.1, run.told, ⟨none' ▸ .nil, ?_⟩, m, Theory.setIndex i root, found, isReach, ?_, ?_, ?_, ?_⟩
  · rw [none']
    exact List.forall_mem_nil _
  · rw [ledger]
    exact base.symm
  · intro e edge
    have count : s.context.atoms.count = _ := congrArg (·.atoms.count) after
    rw [count]
    exact known _ (.tail _ (List.mem_map_of_mem edge))
  · rw [Registry.recordsOf, none']
    exact List.forall_mem_nil _
  · rw [Registry.recordsOf, none', ledger]
    exact .of_nil rfl rfl

/-- A reachability stays in step along a run, but for the decisions that are overtaken. -/
theorem inStep (run : PublicRun settings events s) (member : e ∈ events) (given : e.command = .addTheory (.inr root))
    (registered : e.result = .ok (.theory i)) (made : root.IsMade)
    (known : ∀ a ∈ root.atoms, a < e.before.context.atoms.count) :
    s.context.InStep Sum.inr i fun d => ∃ o ∈ events, o.Overtakes i d := by
  obtain ⟨earlier, later, rfl⟩ := List.append_of_mem member
  clear member
  induction later using List.reverseRecOn generalizing s with
  | nil => exact run.inStep_of_registers given registered made known _
  | append_singleton later last ih =>
    rw [← List.cons_append, ← List.append_assoc] at run ⊢
    obtain ⟨before, _, rfl⟩ := run.of_concat
    have kept := run.ensured fun _ allowed recovers =>
      Command.inStep (ih before) last.command allowed last.before.kept recovers
    refine kept.mono fun d lost => ?_
    rcases lost with ⟨o, old, overtakes⟩ | now
    · exact ⟨o, List.mem_append_left _ old, overtakes⟩
    · exact ⟨last, List.mem_append_right _ (.head _), now⟩

/-- The graph of a reachability stays as it was registered. -/
theorem graph_eq (run : PublicRun settings events s) (member : e ∈ events) (given : e.command = .addTheory (.inr root))
    (registered : e.result = .ok (.theory i)) {m : Member (τ ⊕ Reachability)} {t : Reachability}
    (found : s.context.theories.members[i]? = some m) (isReach : m.theory = .inr t) : t.graph = root.graph := by
  obtain ⟨n, stems⟩ := run.stems_of_registers member given registered
  obtain rfl : n = m := Option.some.inj (stems.1.symm.trans found)
  obtain ⟨_, refused, own, account, _, trace⟩ := stems
  rw [isReach] at trace
  obtain ⟨_, same, trace⟩ := Theory.Embedding.inr.trace trace
  cases same
  have start : Constraint.Recalls root root.log.view root := ⟨rfl, rfl, rfl, rfl, rfl⟩
  exact (trace.recalls start).graph

/-- A reachability that observes its atoms notes the decisions on its proposals in their order, where every theory
has been told of the trail. It has missed those only that were overtaken, so if none was they are the same. -/
theorem mirrors_decisions (run : PublicRun settings events s) (member : e ∈ events)
    (given : e.command = .addTheory (.inr root)) (registered : e.result = .ok (.theory i)) (made : root.IsMade)
    (known : ∀ a ∈ root.atoms, a < e.before.context.atoms.count ∧ ∃ o ∈ events, o.Observes i a)
    (delivered : s.context.AllDelivered) :
    ∃ m t, s.context.theories.members[i]? = some m ∧ m.theory = .inr t ∧
      t.decisions.Sublist ((s.context.theories.recordsOf i).map (·.literal)).reverse ∧
      (∀ d ∈ s.context.theories.recordsOf i, d.literal ∈ t.decisions ∨ ∃ o ∈ events, o.Overtakes i d) ∧
      ((∀ d ∈ s.context.theories.recordsOf i, ∀ o ∈ events, ¬o.Overtakes i d) →
        t.decisions = ((s.context.theories.recordsOf i).map (·.literal)).reverse) := by
  have h := run.inStep member given registered made fun a inRoot => (known a inRoot).1
  obtain ⟨m, t, found, isReach, inStep⟩ := h.member
  have observes := run.observes_all found fun a inRoot => (known a inRoot).2
  have graph := run.graph_eq member given registered found isReach
  have told : m.pending s.context.atoms.trail.literals = [] := by
    rw [Member.pending, delivered m (List.mem_of_getElem? found), Trail.length, List.drop_length, List.filter_nil]
  have mirrors := inStep.mirrors
  rw [told] at mirrors
  have observed : ∀ d ∈ s.context.theories.recordsOf i, m.observes d.literal.atom := by
    intro d standing
    obtain ⟨e, edge, same⟩ := inStep.about d standing
    exact same ▸ observes e.atom (.tail _ (List.mem_map_of_mem (graph ▸ edge)))
  refine ⟨m, t, found, isReach, List.sublist_reverse_iff.mpr mirrors.noted, fun d standing => ?_, fun none' => ?_⟩
  · exact (mirrors.noted_or_lost standing (observed d standing)).imp_left List.mem_reverse.mp
  · have kept : ∀ d ∈ s.context.theories.recordsOf i, ¬∃ o ∈ events, o.Overtakes i d := by
      rintro d standing ⟨o, event, overtakes⟩
      exact none' d standing o event overtakes
    have noted := mirrors.noted_eq (h.recorded.nodup i) observed kept
    rw [← noted, Reachability.ledger, List.reverse_reverse]

/-- Two decisions are made on proposals before the trail is handed over. The theory notes the second one only: the
first was overtaken. -/
theorem overtakes_first_edge :
    ∃ (events : List (Event (AtMost ⊕ Reachability))) (s : Session (AtMost ⊕ Reachability)),
      PublicRun {} events s ∧ events.map (·.command) = [.freshLiterals 3, .addClause [⟨1⟩],
        .addTheory (.inr (Reachability.addEdge (Reachability.addEdge (.ofNodes 3 0 2 1) ⟨0, 1, 2⟩) ⟨1, 2, 3⟩)),
        .observe 0 1, .observe 0 2, .observe 0 3, .propagate, .makeDecision, .makeDecision, .propagate] ∧
      (∃ m t, s.context.theories.members[0]? = some m ∧ m.theory = .inr t ∧ t.decisions = [⟨3⟩]) ∧
      s.context.theories.recordsOf 0 = [⟨2, 0, ⟨3⟩, some 1⟩, ⟨1, 0, ⟨2⟩, some 1⟩] ∧
      ∃ o ∈ events, o.Overtakes 0 ⟨1, 0, ⟨2⟩, some 1⟩ := by
  obtain ⟨_, s, ran, checked⟩ := Session.of_run_any (σ := AtMost ⊕ Reachability) (.ofSettings {})
    [.freshLiterals 3, .addClause [⟨1⟩]]
    (fun (results, s) => decide (results = [.ok (.literals [⟨1⟩, ⟨2⟩, ⟨3⟩]), .ok (.clause (.added (.given 0)))]) &&
      decide (s.context.atoms.count = 4) &&
      (s.run [.addTheory (.inr (Reachability.addEdge (Reachability.addEdge (.ofNodes 3 0 2 1) ⟨0, 1, 2⟩) ⟨1, 2, 3⟩)),
        .observe 0 1, .observe 0 2, .observe 0 3, .propagate, .makeDecision, .makeDecision,
        .propagate]).toOption.any fun (results, s) =>
          decide (results = [.ok (.theory 0), .ok .done, .ok .done, .ok .done, .ok .fixpoint,
            .ok (.decision (.decided ⟨2⟩)), .ok (.decision (.decided ⟨3⟩)), .ok .fixpoint]) &&
          decide (s.context.theories.recordsOf 0 = [⟨2, 0, ⟨3⟩, some 1⟩, ⟨1, 0, ⟨2⟩, some 1⟩]) &&
          (s.context.theories.members.all fun m => decide (m.head = s.context.atoms.trail.length)) &&
          s.context.theories.members[0]?.any fun m => m.theory.getRight?.any fun t => decide (t.decisions = [⟨3⟩]))
    (by decide +kernel)
  simp only [Bool.and_eq_true, decide_eq_true_eq] at checked
  obtain ⟨⟨rfl, count⟩, more⟩ := checked
  obtain ⟨_, s, ranMore, checked⟩ := Session.of_run_any _ _ _ more
  simp only [Bool.and_eq_true, decide_eq_true_eq, List.all_eq_true, Option.any_eq_true] at checked
  obtain ⟨⟨⟨rfl, records⟩, delivered⟩, n, foundN, u, isRight, noted⟩ := checked
  obtain ⟨first, run, firstCommands, firstResults⟩ := PublicRun.of_run (by simp [Command.IsPublic]) ran
  obtain ⟨later, whole, laterCommands, laterResults⟩ := run.extend (by simp [Command.IsPublic]) ranMore
  obtain ⟨e, late, given, registered⟩ := Event.exists_of_mem_zip laterCommands laterResults (.head _)
  have commands := congrArg₂ (· ++ ·) firstCommands laterCommands
  have results := congrArg₂ (· ++ ·) firstResults laterResults
  rw [← List.map_append] at commands results
  have observes {a : Atom} (member : _) : ∃ o ∈ first ++ later, o.Observes 0 a :=
    Event.exists_of_mem_zip commands results member
  have room := (run.count_le whole).1 e late
  rw [count] at room
  have known : ∀ a ∈ [1, 2, 3], a < e.before.context.atoms.count ∧ ∃ o ∈ first ++ later, o.Observes 0 a := by
    simp only [List.forall_mem_cons, List.not_mem_nil, false_implies, implies_true, and_true]
    exact ⟨⟨by omega, observes (by simp)⟩, ⟨by omega, observes (by simp)⟩, by omega, observes (by simp)⟩
  obtain ⟨m, t, found, isReach, _, missed, _⟩ := whole.mirrors_decisions (List.mem_append_right _ late) given
    registered ⟨3, 0, 2, 1, .latestFirst, [⟨0, 1, 2⟩, ⟨1, 2, 3⟩], rfl⟩ known delivered
  obtain rfl : n = m := Option.some.inj (foundN.symm.trans found)
  rw [isReach] at isRight
  cases isRight
  refine ⟨first ++ later, s, whole, commands, ⟨n, u, found, isReach, noted⟩, records, ?_⟩
  refine (missed ⟨1, 0, ⟨2⟩, some 1⟩ ?_).resolve_left ?_
  · simp [records]
  · simp [noted]

end PublicRun

end SatModulo
