import SatModulo.Proofs.Ledgers
import SatModulo.Proofs.Restoration

/-!
# What theories note of their decisions

The core records at once which decisions it makes on proposals, and a reachability notes them as it hears of
the trail. The two are in step (`Context.InStep`) as long as nothing is lost: every move keeps this, as long as
theories are not asked for proposals (`Move.inStep`). So does a decision that is not on a proposal of the theory
(`Decided.inStep`). One that is on its proposal loses at most those that it overtakes
(`Decided.inStep_of_proposed`).
-/
namespace SatModulo

variable {σ : Type}

/-! ### Records -/

def Registry.recordsOf (r : Registry σ) (i : Nat) : List DecisionRecord :=
  r.decisions.filter fun d => d.theory = i

/-- The decisions that stand on proposals are of levels above the base, the latest of the highest, and so are
their literals. -/
structure Context.Recorded (c : Context σ) : Prop where
  descending : c.theories.decisions.Pairwise fun later earlier => earlier.level < later.level
  standing : ∀ d ∈ c.theories.decisions, 0 < d.level ∧ c.atoms.levelOf d.literal.atom = some d.level

theorem Atoms.Extends.levelOf_eq {s s' : Atoms} (ext : s.Extends s') {a : Atom} {level : Nat}
    (known : s.levelOf a = some level) : s'.levelOf a = some level := by
  obtain ⟨given, assigned, same⟩ := levelOf_eq_some.mp known
  exact levelOf_eq_some.mpr ⟨given, ext.assignment a given assigned, same⟩

namespace Context.Recorded

variable {c c' : Context σ}

theorem of_extends (recorded : c.Recorded) (ext : c.atoms.Extends c'.atoms)
    (decisions : c'.theories.decisions = c.theories.decisions) : c'.Recorded where
  descending := decisions ▸ recorded.descending
  standing d member := by
    rw [decisions] at member
    obtain ⟨positive, level⟩ := recorded.standing d member
    exact ⟨positive, ext.levelOf_eq level⟩

/-- The decisions that are left after a return are of levels that are. -/
theorem forgetAbove (recorded : c.Recorded) (h : c.atoms.Coherent) {target : Nat}
    (atoms : c'.atoms = (c.atoms.forgetAbove target).2)
    (decisions : c'.theories.decisions = c.theories.decisions.filter fun d => d.level ≤ target) :
    c'.Recorded where
  descending := by
    rw [decisions]
    exact recorded.descending.filter _
  standing d member := by
    rw [decisions, List.mem_filter, decide_eq_true_eq] at member
    obtain ⟨positive, level⟩ := recorded.standing d member.1
    refine ⟨positive, ?_⟩
    rw [atoms, Atoms.levelOf, ClauseStore.Supports.assignment_of_low h level member.2]
    exact level

theorem level_le (recorded : c.Recorded) (h : c.atoms.Coherent) {d : DecisionRecord}
    (member : d ∈ c.theories.decisions) : d.level ≤ c.level :=
  h.levelOf_le_level (recorded.standing d member).2

theorem eq_nil (recorded : c.Recorded) (h : c.atoms.Coherent) (base : c.level = 0) :
    c.theories.decisions = [] := by
  refine List.eq_nil_iff_forall_not_mem.mpr fun d member => ?_
  have positive := (recorded.standing d member).1
  have low := recorded.level_le h member
  omega

/-- No literal was decided twice. -/
theorem nodup (recorded : c.Recorded) (i : Nat) : ((c.theories.recordsOf i).map (·.literal)).Nodup := by
  rw [List.Nodup, List.pairwise_map]
  refine (recorded.descending.filter _).imp_of_mem fun {later earlier} isLater isEarlier lower same => ?_
  have level := (recorded.standing later (List.mem_filter.mp isLater).1).2
  rw [same, (recorded.standing earlier (List.mem_filter.mp isEarlier).1).2, Option.some.injEq] at level
  omega

end Context.Recorded

/-- The decisions that are taken back of a theory. -/
theorem callsOf_undone (records : List DecisionRecord) (i : Nat) :
    Registry.callsOf i (DecisionRecord.undone records) =
      (records.filter fun d => d.theory = i).map fun d => .undecide d.literal := by
  induction records with
  | nil => rfl
  | cons d rest ih =>
    rw [DecisionRecord.undone, List.map_cons, ← DecisionRecord.undone, ← List.singleton_append,
      Registry.callsOf_append, ih]
    by_cases own : d.theory = i
    · simp [Registry.callsOf, own]
    · simp [Registry.callsOf, own]

/-! ### Members -/

theorem Member.exists_pending_append (m : Member σ) {literals literals' : List Literal}
    (longer : literals <+: literals') : ∃ more, m.pending literals' = m.pending literals ++ more := by
  obtain ⟨rest, rfl⟩ := longer
  unfold pending
  rw [List.drop_append, List.filter_append]
  exact ⟨_, rfl⟩

/-- A reachability that a member is mirrors, in its ledger, the records of its decisions; all but those that are
lost. Its edges have atoms that are known, and its decisions are on them. -/
structure Member.InStep (m : Member σ) (t : Reachability) (s : Atoms) (records : List DecisionRecord)
    (lost : DecisionRecord → Prop) : Prop where
  level : t.ledger.level = s.level
  known : ∀ e ∈ t.graph.edges, e.atom < s.count
  about : ∀ d ∈ records, ∃ e ∈ t.graph.edges, e.atom = d.literal.atom
  mirrors : t.ledger.Mirrors records m.observes (m.pending s.trail.literals) lost

/-- The trail grows, and the theory hears nothing that it enters. -/
theorem Member.InStep.grow {m m' : Member σ} {t t' : Reachability} {s s' : Atoms}
    {records : List DecisionRecord} {lost : DecisionRecord → Prop} (h : m.InStep t s records lost)
    (ledger : t'.ledger = t.ledger) (graph : t'.graph = t.graph) (observed : m'.observed = m.observed)
    (head : m'.head = m.head) (count : s.count ≤ s'.count) (level : s'.level = s.level)
    (longer : s.trail.literals <+: s'.trail.literals) : m'.InStep t' s' records lost where
  level := by rw [ledger, h.level, level]
  known e member := by
    rw [graph] at member
    exact Nat.lt_of_lt_of_le (h.known e member) count
  about d member := by
    rw [graph]
    exact h.about d member
  mirrors := by
    have observes : m'.observes = m.observes := by
      funext a
      rw [observes, observed, Member.observes]
    have pending : m'.pending s'.trail.literals = m.pending s'.trail.literals := by
      rw [Member.pending, head, observes, Member.pending]
    obtain ⟨more, longer⟩ := m.exists_pending_append longer
    rw [ledger, observes, pending, longer]
    exact h.mirrors.append more

/-- The theory of an index is a reachability that is in step with what the core records. -/
structure Context.InStep (c : Context σ) (f : Reachability → σ) (i : Nat) (lost : DecisionRecord → Prop) :
    Prop where
  coherent : c.Coherent
  told : c.Told
  recorded : c.Recorded
  member : ∃ m t, c.theories.members[i]? = some m ∧ m.theory = f t ∧
    m.InStep t c.atoms (c.theories.recordsOf i) lost

theorem Context.InStep.mono {c : Context σ} {f : Reachability → σ} {i : Nat} {lost lost' : DecisionRecord → Prop}
    (h : c.InStep f i lost) (weaker : ∀ d, lost d → lost' d) : c.InStep f i lost' := by
  obtain ⟨m, t, found, isReach, inStep⟩ := h.member
  exact ⟨h.coherent, h.told, h.recorded, m, t, found, isReach, inStep.level, inStep.known, inStep.about,
    inStep.mirrors.mono weaker⟩

/-- Settings, counts and what the context is at do not matter. -/
theorem Context.InStep.aside {c : Context σ} {f : Reachability → σ} {i : Nat} {lost : DecisionRecord → Prop}
    (h : c.InStep f i lost) (settings : Settings) (phase : Phase) (counters : Counters) :
    Context.InStep { c with settings, phase, counters } f i lost :=
  ⟨⟨h.coherent.supports, h.coherent.standings⟩, ⟨h.told.delivered, h.told.unused, h.told.known⟩,
    ⟨h.recorded.descending, h.recorded.standing⟩, h.member⟩

/-! ### Moves -/

/-- At what consequences are drawn by, but for what is told of the trail, nothing is entered in a ledger. -/
theorem Context.Calls.hear_eq {c : Context σ} {m : Member σ} {call : Call} (calls : c.Calls m call)
    (silent : call.IsSilent) (g : Ledger) : g.hear call = g := by
  cases calls with
  | enqueue l => exact absurd silent (Call.not_isSilent_enqueue l)
  | turn _ isTurn => cases call <;> first | exact isTurn.elim | rfl
  | question _ isQuestion => cases call <;> first | exact isQuestion.elim | rfl
  | _ => rfl

theorem Ledger.foldl_hear_eq_self {g : Ledger} {calls : List Call} (each : ∀ call ∈ calls, g.hear call = g) :
    calls.foldl hear g = g := by
  induction calls with
  | nil => rfl
  | cons call rest ih =>
    obtain ⟨first, others⟩ := List.forall_mem_cons.mp each
    rw [List.foldl_cons, first, ih others]

variable [Theory σ] {f : Reachability → σ} {c c' : Context σ} {i : Nat} {lost : DecisionRecord → Prop}

theorem Draw.inStep (draw : Draw c c') (keeps : Theory.KeepsLedgers f) (h : c.InStep f i lost) :
    c'.InStep f i lost := by
  obtain ⟨m, t, found, isReach, inStep⟩ := h.member
  have ext := Atoms.Extends.growsAll draw.grows
  obtain ⟨longer, level, _⟩ := ClauseStore.growsAll_frame draw.grows
  refine ⟨draw.coherent h.coherent, draw.told h.coherent h.told, h.recorded.of_extends ext draw.decisions_eq, ?_⟩
  rw [Registry.recordsOf, draw.decisions_eq, ← Registry.recordsOf]
  rcases draw.silent_or_caught with silent | ⟨same, caught⟩
  · obtain ⟨m', own, found', _, silent, calls⟩ := (silent.both draw.calls).member i m found
    have trace := silent.trace
    rw [isReach] at trace
    obtain ⟨t', isReach', ledger, graph⟩ := keeps.trace trace
    rw [Ledger.foldl_hear_eq_self fun call member =>
      (calls call member).hear_eq (silent.silent call member) t.ledger] at ledger
    refine ⟨m', t', found', isReach', inStep.grow ledger graph ?_ ?_ ext.count level longer⟩
    · rw [silent.kept]
    · rw [silent.kept]
  · obtain ⟨m', own, found', _, caught⟩ := caught.member i m found
    have trace := caught.trace
    rw [isReach, caught.own] at trace
    obtain ⟨t', isReach', ledger, graph⟩ := keeps.trace trace
    rw [Ledger.foldl_hear_enqueue] at ledger
    refine ⟨m', t', found', isReach', ?_, ?_, ?_, ?_⟩
    · rw [ledger, Ledger.level_foldl_settle, same]
      exact inStep.level
    · rw [graph, same]
      exact inStep.known
    · rw [graph]
      exact inStep.about
    · rw [ledger, caught.kept]
      refine inStep.mirrors.tell (fun l pending => ?_) (fun d member => ?_) _ _
      · exact (List.mem_filter.mp pending).2
      · rw [inStep.level]
        exact h.recorded.level_le h.coherent.supports.atoms (List.mem_filter.mp member).1

/-- A jump is a return, after which one literal at most is made true. -/
theorem Jump.exists_retreat (jump : Jump c c') : ∃ target retracted, target < c.level ∧
    c.theories.retractAbove target = .ok retracted ∧
    retracted.backtrack target (c.atoms.forgetAbove target).2.trail = .ok c'.theories ∧
    (c.atoms.forgetAbove target).2.Extends c'.atoms ∧ c'.level = (c.atoms.forgetAbove target).2.level := by
  cases jump with
  | retreat target low retracted theories undecided taken =>
    exact ⟨target, retracted, low, undecided, taken, .refl _, rfl⟩
  | learn key l lower target clauses retracted theories atoms distinct falsified current low below tight
      entailed stored undecided taken made =>
    exact ⟨target, retracted, low, undecided, taken, .assign made, Atoms.level_assign made⟩

/-- The decisions that are taken back are taken from records and ledgers alike. -/
theorem Jump.inStep (jump : Jump c c') (keeps : Theory.KeepsLedgers f) (h : c.InStep f i lost) :
    c'.InStep f i lost := by
  obtain ⟨m, t, found, isReach, inStep⟩ := h.member
  obtain ⟨target, retracted, low, undecided, taken, ext, level⟩ := jump.exists_retreat
  have high : ∀ n ∈ c.theories.members, target < n.level := by
    intro n member
    obtain ⟨j, foundN⟩ := List.mem_iff_getElem?.mp member
    rw [(h.told.delivered j n foundN).level]
    exact low
  obtain ⟨lowered, decisions⟩ := Registry.changes_lowered undecided taken h.recorded.descending high
  have returned := (Registry.changes_retreat undecided taken).1
  obtain ⟨m', own, found', _, lowered, returned⟩ := (lowered.both returned).member i m found
  have records : c'.theories.recordsOf i = (c.theories.recordsOf i).filter fun d => d.level ≤ target := by
    rw [Registry.recordsOf, decisions, List.filter_comm, Registry.recordsOf]
  have level' : c'.level = target := by
    rw [level, Atoms.level, Atoms.trail_forgetAbove, Trail.level_cutTo]
    exact Nat.min_eq_left (Nat.le_of_lt low)
  have trace := lowered.trace
  rw [isReach, lowered.own, callsOf_undone, List.filter_comm, ← Registry.recordsOf] at trace
  obtain ⟨t', isReach', ledger, graph⟩ := keeps.trace trace
  have below : target < t.ledger.level := inStep.level ▸ low
  rw [Ledger.foldl_hear_lowered, Nat.min_eq_left (Nat.le_of_lt below)] at ledger
  have count := Move.count_le (.jump jump : Move {} c c')
  have apart := h.recorded.nodup i
  have later := h.recorded.descending.filter fun d => d.theory = i
  refine ⟨jump.coherent h.coherent, jump.told h.coherent h.told, ?_, m', t', found', isReach', ?_, ?_, ?_, ?_⟩
  · let back : Context σ := { c with atoms := (c.atoms.forgetAbove target).2, theories := c'.theories }
    have recorded : back.Recorded := h.recorded.forgetAbove h.coherent.supports.atoms rfl decisions
    exact recorded.of_extends ext rfl
  · rw [ledger]
    exact level'.symm
  · rw [graph]
    intro e member
    exact Nat.lt_of_lt_of_le (inStep.known e member) count
  · rw [graph, records]
    exact fun d member => inStep.about d (List.mem_filter.mp member).1
  · have observes : m'.observes = m.observes := by
      funext a
      rw [returned.kept, Member.observes, Member.observes]
    rw [ledger, records, observes]
    exact inStep.mirrors.retreat later apart below _

theorem Build.inStep {taking : Intake σ} (build : Build taking c c') (keeps : Theory.KeepsLedgers f)
    (h : c.InStep f i lost) : c'.InStep f i lost := by
  have coherent := build.coherent h.coherent
  have told := build.told h.coherent h.told
  obtain ⟨m, t, found, isReach, inStep⟩ := h.member
  cases build with
  | fresh previous a atoms success =>
    obtain ⟨_, counted, trail, _⟩ := Atoms.fresh_eq_ok success
    refine ⟨coherent, told, h.recorded.of_extends (.fresh success) rfl, m, t, found, isReach, ?_⟩
    refine inStep.grow rfl rfl rfl rfl (Atoms.Extends.fresh success).count (congrArg Trail.level trail) ?_
    rw [trail]
  | give => exact ⟨coherent, told, h.recorded.of_extends (.refl _) rfl, m, t, found, isReach, inStep⟩
  | giveUnit clause key clauses l atoms given base distinct known stored state made =>
    refine ⟨coherent, told, h.recorded.of_extends (.assign made) rfl, m, t, found, isReach, ?_⟩
    refine inStep.grow rfl rfl rfl rfl (Atoms.Extends.assign made).count (Atoms.level_assign made) ?_
    rw [Atoms.literals_assign made]
    exact List.prefix_append _ _
  | register theory outcome theories given base registered =>
    have same : theories.decisions = c.theories.decisions ∧ theories.members[i]? = some m := by
      rcases Registry.register_eq registered with ⟨_, _, _, rfl, _⟩ | ⟨_, _, rfl⟩
      · exact ⟨rfl, found⟩
      · refine ⟨rfl, ?_⟩
        rw [List.getElem?_append_left (List.getElem?_eq_some_iff.mp found).1]
        exact found
    refine ⟨coherent, told, h.recorded.of_extends (.refl _) same.1, m, t, same.2, isReach, ?_⟩
    rw [Registry.recordsOf, same.1]
    exact inStep
  | observe j a base known n foundN new theory own inside late told' =>
    have recorded : Context.Recorded { c with theories := { c.theories with
        members := c.theories.members.set j { n with theory, observed := insertAtom a n.observed }
        calls := c.theories.calls ++ (own.map Call.enqueue).map (j, ·) } } :=
      ⟨h.recorded.descending, h.recorded.standing⟩
    by_cases same : j = i
    · -- At the base level nothing is noted, and nothing is proposed.
      subst same
      obtain rfl : n = m := Option.some.inj (foundN.symm.trans found)
      have none' : c.theories.recordsOf j = [] := by
        rw [Registry.recordsOf, h.recorded.eq_nil h.coherent.supports.atoms base, List.filter_nil]
      have trace : Theory.Trace j (f t) (own.map .enqueue) theory := isReach ▸ .enqueueAll told'
      obtain ⟨t', isReach', ledger, graph⟩ := keeps.trace trace
      obtain ⟨settled, mirrors⟩ := (none' ▸ inStep.mirrors).tell_nil own _ _
      rw [Ledger.foldl_hear_enqueue, settled] at ledger
      refine ⟨coherent, told, recorded, _, t', List.getElem?_set_self (List.getElem?_eq_some_iff.mp found).1,
        isReach', ?_, ?_, ?_, ?_⟩
      · exact ledger ▸ inStep.level
      · exact graph ▸ inStep.known
      · exact graph ▸ inStep.about
      · change t'.ledger.Mirrors (c.theories.recordsOf j) _ _ _
        rw [none', ledger]
        exact mirrors
    · exact ⟨coherent, told, recorded, m, t, (List.getElem?_set_ne same).trans found, isReach, inStep⟩

/-- Every move but a decision keeps a reachability in step. -/
theorem Move.inStep {taking : Intake σ} (move : Move taking c c') (keeps : Theory.KeepsLedgers f)
    (undecided : ¬taking.decides c) (h : c.InStep f i lost) : c'.InStep f i lost := by
  cases move with
  | draw move => exact move.inStep keeps h
  | jump move => exact move.inStep keeps h
  | decide allowed => exact absurd allowed undecided
  | build move => exact move.inStep keeps h
  | settle phase before after => exact h.aside c.settings phase c.counters
  | configure settings given => exact h.aside settings c.phase c.counters

theorem Moves.inStep {taking : Intake σ} (moves : Moves taking c c') (keeps : Theory.KeepsLedgers f)
    (undecided : ∀ mid, ¬taking.decides mid) (h : c.InStep f i lost) : c'.InStep f i lost := by
  induction moves with
  | refl => exact h
  | tail _ move ih => exact move.inStep keeps (undecided _) ih

omit [Theory σ] in
theorem Refute.inStep {taking : Intake σ} (refuted : Refute taking c c') (h : c.InStep f i lost) :
    c'.InStep f i lost := by
  obtain ⟨atoms, theories⟩ := refuted.frame
  refine ⟨refuted.coherent h.coherent, refuted.told h.told, h.recorded.of_extends ?_ ?_, ?_⟩
  · rw [atoms]
    exact .refl _
  · rw [theories]
  · rw [atoms, theories]
    exact h.member

theorem Course.inStep {taking : Intake σ} (course : Course taking c c') (keeps : Theory.KeepsLedgers f)
    (undecided : ∀ mid, ¬taking.decides mid) (h : c.InStep f i lost) : c'.InStep f i lost := by
  rcases course with moves | ⟨mid, moves, refuted⟩
  · exact moves.inStep keeps undecided h
  · exact refuted.inStep (Moves.inStep moves keeps undecided h)

/-! ### Decisions -/

/-- A reachability has proposed a literal on one of its edges, and was in step before. -/
structure Context.Proposed (c : Context σ) (f : Reachability → σ) (i : Nat) (lost : DecisionRecord → Prop)
    (l : Literal) : Prop where
  coherent : c.Coherent
  told : c.Told
  recorded : c.Recorded
  member : ∃ m t u, c.theories.members[i]? = some m ∧ m.theory = f u ∧
    u.ledger = { t.ledger with proposal := some (l, t.ledger.level) } ∧ u.graph = t.graph ∧
    (∃ e ∈ t.graph.edges, e.atom = l.atom) ∧ m.InStep t c.atoms (c.theories.recordsOf i) lost

omit [Theory σ] in
/-- Counts do not matter. -/
theorem Context.Proposed.count {l : Literal} (h : c.Proposed f i lost l) (counters : Counters) :
    Context.Proposed { c with counters } f i lost l :=
  ⟨⟨h.coherent.supports, h.coherent.standings⟩, ⟨h.told.delivered, h.told.unused, h.told.known⟩,
    ⟨h.recorded.descending, h.recorded.standing⟩, h.member⟩

/-- A decision that was made on a proposal of a theory is overtaken: before the theory has heard of it, the
decision that is made next is on a proposal of that theory, too. -/
structure Context.Overtaken (c c' : Context σ) (i : Nat) (d : DecisionRecord) : Prop where
  standing : d ∈ c.theories.recordsOf i
  unheard : ∃ m, c.theories.members[i]? = some m ∧ d.literal ∈ m.pending c.atoms.trail.literals
  next : ∃ d', d'.theory = i ∧ c'.theories.decisions = d' :: c.theories.decisions

namespace Procedure.Decided

variable {l : Literal} {proposer : Option (Nat × Option Marker)}

/-- A decision is the first literal of a level of its own. -/
theorem frame (decided : Decided l proposer c c') : c'.level = c.level + 1 ∧
    c'.atoms.trail.literals = c.atoms.trail.literals ++ [l] ∧ c.atoms.Extends c'.atoms ∧
    c'.atoms.levelOf l.atom = some (c.level + 1) ∧
    c'.theories.decisions = match proposer with
      | none => c.theories.decisions
      | some (theory, reason) => ⟨c.level + 1, theory, l, reason⟩ :: c.theories.decisions := by
  obtain ⟨told, opened, atoms, delivered, raised, made, rfl⟩ := decided
  have level : c.atoms.openLevel.level = c.level + 1 := LevelStack.level_openLevel _
  have ext : c.atoms.Extends c.atoms.openLevel := .of_cells rfl
  obtain ⟨_, _, _, _, assigned⟩ := Atoms.assign_eq_unset made
  refine ⟨(Atoms.level_assign made).trans level, ?_, ext.trans (.assign made), ?_, ?_⟩
  · rw [Atoms.literals_assign made]
    exact congrArg (· ++ [l]) c.atoms.trail.literals_openLevel
  · have own := assigned l.atom
    rw [if_pos rfl, level] at own
    exact Atoms.levelOf_eq_some.mpr ⟨_, own, rfl⟩
  · rw [← (Registry.changes_deliverAll delivered).2.2, ← (Registry.changes_openLevel raised).2.2, ← level]
    cases proposer <;> rfl

/-- At a decision a reachability hears of the trail, and then that a level is opened. -/
theorem ledger (decided : Decided l proposer c c') (keeps : Theory.KeepsLedgers f) {m : Member σ}
    {t : Reachability} (found : c.theories.members[i]? = some m) (isReach : m.theory = f t) :
    ∃ m' t', c'.theories.members[i]? = some m' ∧ m'.theory = f t' ∧ t'.graph = t.graph ∧
      t'.ledger = { (m.pending c.atoms.trail.literals).foldl Ledger.settle t.ledger with
        level := t.ledger.level + 1 } ∧
      m'.observes = m.observes ∧ m'.pending c'.atoms.trail.literals = [l].filter fun l => m.observes l.atom := by
  have literals := decided.frame.2.1
  obtain ⟨told, opened, atoms, delivered, raised, made, rfl⟩ := decided
  obtain ⟨n, own, foundN, _, caught⟩ := (Registry.changes_deliverAll delivered).1.member i m found
  obtain ⟨m', own', found', _, lifted⟩ := (Registry.changes_openLevel raised).1.member i n foundN
  have trace := caught.trace.append lifted.trace
  rw [isReach, caught.own, lifted.own] at trace
  obtain ⟨t', isReach', ledger, graph⟩ := keeps.trace trace
  rw [List.foldl_append, Ledger.foldl_hear_enqueue] at ledger
  have observes : m'.observes = m.observes := by
    funext a
    rw [lifted.kept, caught.kept, Member.observes, Member.observes]
  refine ⟨m', t', ?_, isReach', graph, ?_, observes, ?_⟩
  · cases proposer <;> exact found'
  · rw [ledger, ← Ledger.level_foldl_settle (m.pending c.atoms.trail.literals)]
    rfl
  · rw [literals, Member.pending, observes, lifted.kept, caught.kept]
    exact congrArg _ List.drop_left

theorem recorded (decided : Decided l proposer c c') (h : c.Coherent) (recorded : c.Recorded) : c'.Recorded := by
  obtain ⟨_, _, ext, ofLevel, decisions⟩ := decided.frame
  cases proposer with
  | none => exact recorded.of_extends ext decisions
  | some proposer =>
    constructor
    · rw [decisions]
      refine List.pairwise_cons.mpr ⟨fun d member => ?_, recorded.descending⟩
      exact Nat.lt_succ_of_le (recorded.level_le h.supports.atoms member)
    · rw [decisions]
      refine List.forall_mem_cons.mpr ⟨⟨Nat.succ_pos _, ofLevel⟩, fun d member => ?_⟩
      obtain ⟨positive, level⟩ := recorded.standing d member
      exact ⟨positive, ext.levelOf_eq level⟩

theorem coherent (decided : Decided l proposer c c') (h : c.Coherent) : c'.Coherent :=
  Moves.coherent decided.decides.1.moves h

theorem told (decided : Decided l proposer c c') (h : c.Coherent) (told : c.Told) : c'.Told :=
  Moves.told decided.decides.1.moves h told

/-- A decision that is not on its proposal keeps a reachability in step. -/
theorem inStep (decided : Decided l proposer c c') (keeps : Theory.KeepsLedgers f)
    (other : ∀ reason, proposer ≠ some (i, reason)) (h : c.InStep f i lost) : c'.InStep f i lost := by
  obtain ⟨m, t, found, isReach, inStep⟩ := h.member
  obtain ⟨level, _, ext, _, decisions⟩ := decided.frame
  obtain ⟨m', t', found', isReach', graph, ledger, observes, _⟩ := decided.ledger keeps found isReach
  have records : c'.theories.recordsOf i = c.theories.recordsOf i := by
    rw [Registry.recordsOf, decisions, Registry.recordsOf]
    rcases proposer with _ | ⟨j, reason⟩
    · rfl
    · refine List.filter_cons_of_neg fun same => other reason ?_
      rw [← of_decide_eq_true same]
  refine ⟨decided.coherent h.coherent, decided.told h.coherent h.told, decided.recorded h.coherent h.recorded, m',
    t', found', isReach', ?_, ?_, ?_, ?_⟩
  · rw [ledger, inStep.level]
    exact level.symm
  · rw [graph]
    exact fun e member => Nat.lt_of_lt_of_le (inStep.known e member) ext.count
  · rw [graph, records]
    exact inStep.about
  · rw [ledger, records, observes]
    refine inStep.mirrors.tell (fun l pending => (List.mem_filter.mp pending).2) (fun d member => ?_) _ _
    rw [inStep.level]
    exact h.recorded.level_le h.coherent.supports.atoms (List.mem_filter.mp member).1

/-- A decision on its proposal keeps a reachability in step, but for what it overtakes. -/
theorem inStep_of_proposed {reason : Option Marker} (decided : Decided l (some (i, reason)) c c')
    (keeps : Theory.KeepsLedgers f) (h : c.Proposed f i lost l) :
    c'.InStep f i fun d => lost d ∨ c.Overtaken c' i d := by
  obtain ⟨m, t, u, found, isReach, proposed, same, about, inStep⟩ := h.member
  obtain ⟨level, _, ext, _, decisions⟩ := decided.frame
  obtain ⟨m', t', found', isReach', graph, ledger, observes, pending⟩ := decided.ledger keeps found isReach
  -- The proposal is of the level at which the theory hears of the trail, so that settles nothing.
  have early : ∀ p at', u.ledger.proposal = some (p, at') → u.ledger.level ≤ at' := by simp [proposed]
  rw [Ledger.foldl_settle_eq_self early, proposed] at ledger
  replace ledger : t'.ledger = ⟨t.ledger.noted, some (l, t.ledger.level), t.ledger.level + 1⟩ := ledger
  have records : c'.theories.recordsOf i = ⟨c.level + 1, i, l, reason⟩ :: c.theories.recordsOf i := by
    rw [Registry.recordsOf, decisions, Registry.recordsOf]
    exact List.filter_cons_of_pos (decide_eq_true rfl)
  rw [same] at graph
  refine ⟨decided.coherent h.coherent, decided.told h.coherent h.told, decided.recorded h.coherent h.recorded, m',
    t', found', isReach', ?_, ?_, ?_, ?_⟩
  · rw [ledger]
    exact (congrArg (· + 1) inStep.level).trans level.symm
  · rw [graph]
    exact fun e member => Nat.lt_of_lt_of_le (inStep.known e member) ext.count
  · rw [graph, records]
    exact List.forall_mem_cons.mpr ⟨about, inStep.about⟩
  · let d : DecisionRecord := ⟨c.level + 1, i, l, reason⟩
    have made : d.level = t.ledger.level + 1 := congrArg (· + 1) inStep.level.symm
    have first : m.observes l.atom → ([l].filter fun l => m.observes l.atom).head? = some l := fun observed => by
      simp [observed]
    rw [ledger, records, observes, pending]
    refine (inStep.mirrors.accept made first).mono ?_
    rintro e (isLost | ⟨standing, unheard⟩)
    · exact .inl isLost
    · exact .inr ⟨standing, ⟨m, found, unheard⟩, d, rfl, decisions⟩

end Procedure.Decided

end SatModulo
