import SatModulo.Proofs.Connectivity
import SatModulo.Proofs.Reliability
import SatModulo.Proofs.UnitPropagation

/-!
# Reachability, without failure

The theory of reachability is reliable. Its atoms have literals, so the clauses of paths and cuts can be
built, and with its atom known a consequence is never refused. When it draws nothing, nothing follows from
the facts, or what follows occurs in no clause.
-/
namespace SatModulo

namespace Reachability

variable {root t t' : Reachability} {heard : LevelStack Literal} {facts : List Literal} {s : Atoms}
  {l : Literal} {clause : Clause}

theorem IsBuilt.failed (h : root.IsBuilt) : root.failed = false := by
  obtain ⟨nodes, source, target, reach, listing, edges, rfl, _⟩ := h
  rw [foldl_addEdge]
  rfl

/-- The clause of a path of edges that facts make true can be built. -/
theorem pathClause_eq (h : root.IsBuilt) (inRange : root.reach ≤ maxAtom) (areFacts : AreFacts facts)
    {path : List Edge} (found : root.truePath facts = some path) :
    root.pathClause path = .ok (root.pathReason path) := by
  unfold pathClause
  rw [Except.mapM_of_ok fun e member => Literal.ofAtom_of_le
    (areFacts.on_mem (factValue_of_truePath h found e member)).2.2 false, Literal.positive_of_le inRange]
  rfl

/-- The clause of a cut of edges that facts make false can be built. -/
theorem cutClause_eq (h : root.IsBuilt) (inRange : root.reach ≤ maxAtom) (areFacts : AreFacts facts) :
    root.cutClause facts = .ok (root.cutReason facts) := by
  have crossing : (root.crossing facts).map (fun e => Literal.positive e.atom) =
      (root.crossing facts).map fun e => .on e.atom true :=
    List.map_congr_left fun e crosses => Literal.positive_of_le
      (areFacts.on_mem (factValue_of_crossing h crosses)).2.2
  unfold cutClause
  rw [Literal.ofAtom_of_le inRange, cutReason, ← crossing]
  rfl

theorem failed_settleProposal (t : Reachability) (l : Literal) : (t.settleProposal l).failed = t.failed := by
  unfold settleProposal
  split
  · rfl
  · split
    · split <;> rfl
    · rfl

theorem failed_proposal? (t : Reachability) (s : Atoms) : (t.proposal? s).2.failed = t.failed := by
  unfold proposal?
  split <;> rfl

/-- A path of true edges is one of edges that are not false. -/
theorem truePath_eq_none (h : root.IsBuilt) (none : root.possiblePath facts = none) :
    root.truePath facts = .none := by
  refine (Graph.shortestPath_eq_none_iff h.wellFormed h.inside).mpr fun connects => ?_
  refine (Graph.shortestPath_eq_none_iff h.wellFormed h.inside).mp none (connects.mono fun e _ isTrue => ?_)
  rw [beq_iff_eq.mp isTrue]
  rfl

/-- What follows from facts is nothing, or a clause by which they force a literal that they do not have. -/
theorem consequence_cases (h : root.IsBuilt) (inRange : root.reach ≤ maxAtom) (areFacts : AreFacts facts) :
    root.consequence facts = .ok none ∨ ∃ l clause, root.consequence facts = .ok (some clause) ∧
      root.Forces facts l clause ∧ factValue facts root.reach ≠ some l.polarity := by
  have proper : root.reach ≠ topAtom := h.proper _ (.head _)
  unfold consequence
  dsimp only
  split
  · rename_i path found
    rw [pathClause_eq h inRange areFacts found]
    split
    · exact .inl rfl
    · rename_i other
      exact .inr ⟨_, _, rfl, .path found, by rwa [Literal.polarity_on proper]⟩
  · split
    · exact .inl rfl
    · rename_i none
      rw [cutClause_eq h inRange areFacts]
      split
      · exact .inl rfl
      · rename_i other
        exact .inr ⟨_, _, rfl, .cut none, by rwa [Literal.polarity_on proper]⟩

/-- Where the facts give the atom the other value, they falsify the literal that they force. -/
theorem Forces.negate_mem (forces : root.Forces facts l clause) (areFacts : AreFacts facts) {value : Bool}
    (other : factValue facts root.reach ≠ some l.polarity) (known : factValue facts root.reach = some value) :
    l.negate ∈ facts := by
  obtain ⟨fact, proper, _⟩ := areFacts.on_mem known
  have opposite : l.negate = .on root.reach value := by
    have properL : l.atom ≠ topAtom := forces.atom_eq ▸ proper
    refine Literal.eq_of_atom_of_polarity ?_ ?_
    · rw [Literal.atom_negate, forces.atom_eq, Literal.atom_on]
    · rw [Literal.polarity_negate properL, Literal.polarity_on proper]
      rw [known] at other
      cases value <;> cases polarity : l.polarity <;> simp_all
  rwa [opposite]

/-- The reason for a literal that facts force is the clause by which they do. -/
theorem reason_of_forces (h : root.IsBuilt) (inRange : root.reach ≤ maxAtom) (recalls : Recalls root heard t)
    {marker : Marker} (areFacts : AreFacts (heard.entries.take marker))
    (forces : root.Forces (heard.entries.take marker) l clause) : t.reason l marker = .ok clause := by
  have proper : root.reach ≠ topAtom := h.proper _ (.head _)
  simp only [reason, LevelLog.firstEntries, recalls.entries, truePath, pathClause, cutClause,
    recalls.graph, recalls.source, recalls.target, recalls.reach]
  cases forces with
  | @path path found =>
    have built := pathClause_eq h inRange areFacts found
    simp only [truePath, pathClause] at found built
    rw [if_pos (Literal.polarity_on proper true), found]
    exact built
  | cut none =>
    rw [if_neg (by rw [Literal.polarity_on proper]; exact Bool.false_ne_true)]
    exact cutClause_eq h inRange areFacts

/-! ### Turns -/

/-- A conflict that is found in a look at facts of the trail is false, whatever is known of the atoms. -/
theorem examine_yields (h : root.IsBuilt) (inRange : root.reach ≤ maxAtom) (recalls : Recalls root heard t)
    (areFacts : AreFacts heard.entries) (coherent : s.Coherent)
    (onTrail : ∀ l ∈ heard.entries, l ∈ s.trail.literals) {skip : Bool} {i : Nat} :
    (t.examine skip).Yields i s fun outcome s' =>
      ∀ clause, outcome.1 = some clause → ∀ l ∈ clause, s'.valueOf l = some false := by
  have falsified : ∀ m, m.negate ∈ heard.entries → s.valueOf m = some false := by
    intro m opposite
    have value := coherent.valueOf_negate (onTrail _ opposite)
    rwa [Literal.negate_negate] at value
  unfold examine
  dsimp only
  rw [recalls.consequence, recalls.entries]
  rcases consequence_cases h inRange areFacts with nothing | follows
  · rw [nothing]
    exact .done nofun
  · obtain ⟨l, clause, drawn, forces, other⟩ := follows
    obtain ⟨rest, rfl⟩ := forces.exists_cons
    have conflict : s.valueOf l = some false → ∀ m ∈ l :: rest, s.valueOf m = some false := by
      intro isFalse m member
      by_cases same : m = l
      · rwa [same]
      · exact falsified m (forces.falsified h areFacts m member same)
    rw [drawn]
    change Turn.Yields (if _ then _ else _) i s _
    split
    · -- The facts have the other value for the atom, so the clause of what follows is a false one.
      rename_i valued
      refine .done ?_
      rintro _ ⟨⟩
      rw [recalls.reach] at valued
      obtain ⟨value, known⟩ := Option.isSome_iff_exists.mp valued
      exact conflict (falsified l (forces.negate_mem areFacts other known))
    · split
      · exact .done nofun
      · refine .assign (fun _ _ => .done nofun) (.done nofun) (fun isFalse => .done ?_) fun _ => .done nofun
        -- False on the trail, though the theory was not told so yet.
        rintro _ ⟨⟩
        exact conflict isFalse

/-- How a look at facts ends. Where it found no conflict and made no literal true, nothing follows from the
facts, or what does occurs in no clause or is true. -/
structure Examined (root t : Reachability) (facts : List Literal) (s : Atoms)
    (outcome : Option Clause × Reachability) (s' : Atoms) : Prop where
  state : outcome.2 = { t with counters := outcome.2.counters }
  quiet : outcome.1 = none → s' = s → root.consequence facts = .ok none ∨
    ∃ l clause, root.Forces facts l clause ∧ factValue facts root.reach = none ∧
      (t.mayOccur l = false ∨ s.valueOf l = some true)

/-- Nothing is left to be drawn from facts: nothing follows from them, or what does has no value by them and
occurs in no clause. -/
def NothingLeft (root t : Reachability) (facts : List Literal) : Prop :=
  root.consequence facts = .ok none ∨
    ∃ l clause, root.Forces facts l clause ∧ factValue facts root.reach = none ∧ t.mayOccur l = false

section Informed

variable (informed : Constraint.Informed root heard t s)

include informed

/-- A look at the facts does not fail, whatever the graph. -/
theorem examine_returns (skip : Bool) (i : Nat) :
    (t.examine skip).Returns i s (Examined root t heard.entries s) := by
  unfold examine
  dsimp only
  rw [informed.recalls.consequence, informed.recalls.entries]
  rcases consequence_cases informed.isBuilt.1 informed.isBuilt.2 informed.facts with nothing | follows
  · rw [nothing]
    exact .done ⟨rfl, fun _ _ => .inl nothing⟩
  · obtain ⟨l, clause, drawn, forces, other⟩ := follows
    obtain ⟨rest, rfl⟩ := forces.exists_cons
    rw [drawn]
    change Turn.Returns (if _ then _ else _) i s _
    split
    · exact .done ⟨rfl, nofun⟩
    · rename_i unknown
      rw [informed.recalls.reach] at unknown
      replace unknown := Option.not_isSome_iff_eq_none.mp unknown
      split
      · rename_i skipped
        rw [Bool.and_eq_true, Bool.not_eq_true'] at skipped
        exact .done ⟨rfl, fun _ _ => .inr ⟨l, _, forces, unknown, .inl skipped.2⟩⟩
      · refine Turn.Returns.assign ?_ ?_ ?_ fun _ => .done ⟨rfl, nofun⟩
        · rw [forces.atom_eq]
          exact informed.known _ (.head _)
        · intro s' made
          refine .done ⟨rfl, ?_⟩
          -- Something was made true, so the trail is not as it was.
          rintro _ rfl
          have longer := Atoms.length_assign made
          omega
        · intro isTrue
          exact .done ⟨rfl, fun _ _ => .inr ⟨l, _, forces, unknown, .inr isTrue⟩⟩

/-- What a check of the theory comes to. -/
theorem isPropagated_eq (sound : t.failed = false) : t.isPropagated s =
    match root.truePath heard.entries, factValue heard.entries root.reach with
    | some _, some value => .ok value
    | some _, none => .ok (!t.mayOccur (.on root.reach true))
    | none, value =>
      if (root.possiblePath heard.entries).isSome then .ok true
      else
        match value with
        | some value => .ok (!value)
        | none => .ok (!t.mayOccur (.on root.reach false)) := by
  have inRange : root.reach ≤ maxAtom := informed.inRange _ (.head _)
  have holds : t.log.entries.all (fun l => s.valueOf l == some true) = true := by
    rw [informed.recalls.entries]
    exact List.all_eq_true.mpr fun l fact =>
      beq_iff_eq.mpr (informed.coherent.valueOf_of_mem (informed.onTrail l fact))
  have paths : t.truePath = root.truePath ∧ t.possiblePath = root.possiblePath := by
    constructor <;> funext facts <;>
      simp only [truePath, possiblePath, informed.recalls.graph, informed.recalls.source,
        informed.recalls.target]
  unfold isPropagated
  dsimp only
  rw [holds, sound, if_neg (by decide), informed.recalls.entries, paths.1, paths.2,
    informed.recalls.reach, Literal.positive_of_le inRange, Literal.ofAtom_of_le inRange]
  rfl

/-- The check agrees exactly where nothing is left to be drawn. -/
theorem isPropagated_iff (sound : t.failed = false) :
    t.isPropagated s = .ok true ↔ root.NothingLeft t heard.entries := by
  rw [isPropagated_eq informed sound]
  constructor
  · intro agrees
    rcases consequence_cases informed.isBuilt.1 informed.isBuilt.2 informed.facts with nothing | follows
    · exact .inl nothing
    · obtain ⟨l, clause, _, forces, other⟩ := follows
      have proper : root.reach ≠ topAtom := informed.isBuilt.1.proper _ (.head _)
      refine .inr ⟨l, clause, forces, ?_⟩
      -- A value that the facts give would be that of the literal, as the check agrees.
      cases forces with
      | path found =>
        rw [Literal.polarity_on proper] at other
        cases value : factValue heard.entries root.reach <;> simp_all
      | cut none =>
        rw [Literal.polarity_on proper] at other
        rw [truePath_eq_none informed.isBuilt.1 none, none] at agrees
        cases value : factValue heard.entries root.reach <;> simp_all
  · rintro (nothing | ⟨l, clause, forces, unknown, absent⟩)
    · unfold consequence at nothing
      dsimp only at nothing
      split at nothing
      · rename_i path found
        split at nothing
        · rename_i reached
          rw [found, reached]
        · obtain ⟨_, _, same⟩ := Except.map_eq_ok nothing
          cases same
      · rename_i absent
        rw [absent]
        split at nothing
        · rename_i path found
          rw [found]
          rfl
        · rename_i none
          split at nothing
          · rename_i unreached
            rw [none, unreached]
            rfl
          · obtain ⟨_, _, same⟩ := Except.map_eq_ok nothing
            cases same
    · rw [unknown]
      cases forces with
      | path found => rw [found]; simp [absent]
      | cut none => rw [truePath_eq_none informed.isBuilt.1 none, none]; simp [absent]

/-- A look at the facts that draws nothing leaves nothing to be drawn, where all values were heard of: what
follows then is in no clause, as it has no value. -/
theorem nothingLeft_of_examine
    (complete : ∀ a ∈ root.atoms, (s.value a).isSome → ∃ l ∈ heard.entries, l.atom = a) {i : Nat}
    (ran : (t.examine true).run i s = .ok ((none, t'), s)) :
    root.NothingLeft t heard.entries ∧ t' = { t with counters := t'.counters } := by
  obtain ⟨outcome, s', ran', ends⟩ := examine_returns informed true i
  rw [ran] at ran'
  cases ran'
  refine ⟨(ends.quiet rfl rfl).imp_right ?_, ends.state⟩
  rintro ⟨l, clause, forces, unknown, absent | isTrue⟩
  · exact ⟨l, clause, forces, unknown, absent⟩
  · have valued : (s.value root.reach).isSome = true := by
      rw [← forces.atom_eq, Literal.valueOn_eq_true.mp isTrue]
      rfl
    rw [← Option.not_isSome_iff_eq_none] at unknown
    exact absurd (isSome_factValue (complete _ (.head _) valued)) unknown

/-- What a look at the facts leaves, with nothing drawn, the check agrees to, where all values were heard of. -/
theorem isPropagated_of_examine (sound : t.failed = false)
    (complete : ∀ a ∈ root.atoms, (s.value a).isSome → ∃ l ∈ heard.entries, l.atom = a) {i : Nat}
    (ran : (t.examine true).run i s = .ok ((none, t'), s)) : t'.isPropagated s = .ok true := by
  obtain ⟨nothing, state⟩ := nothingLeft_of_examine informed complete ran
  rw [state]
  exact (isPropagated_iff informed sound).mpr nothing

/-- A look at the facts ends, and with a conflict only if that is false. -/
theorem examine_reliable (sound : t.failed = false) (skip : Bool) (i : Nat) :
    (t.examine skip).Returns i s fun outcome s' => outcome.2.failed = false ∧
      ∀ clause, outcome.1 = some clause → ∀ l ∈ clause, s'.valueOf l = some false :=
  Turn.Returns.mono ((examine_returns informed skip i).both
    (examine_yields informed.isBuilt.1 informed.isBuilt.2 informed.recalls informed.facts
      informed.coherent informed.onTrail)) fun _ _ ends => ⟨by rw [ends.1.state]; exact sound, ends.2⟩

/-- A literal that facts forced has a reason, of facts from among these. -/
theorem exists_reason {marker : Marker}
    (forced : ∃ clause, root.Forces (heard.entries.take marker) l clause) :
    ∃ clause t', Theory.buildReason l marker t = .ok (clause, t') ∧ l ∈ clause ∧
      ∀ m ∈ clause, m ≠ l → m.negate ∈ heard.entries.take marker := by
  have isBuilt : root.IsBuilt := informed.isBuilt.1
  have areFacts := informed.facts.sublist (List.take_sublist marker heard.entries)
  obtain ⟨clause, forces⟩ := forced
  have reason := reason_of_forces isBuilt informed.isBuilt.2 informed.recalls areFacts forces
  obtain ⟨rest, rfl⟩ := forces.exists_cons
  refine ⟨l :: rest, _, by simp only [Theory.buildReason, reason]; rfl, .head _, ?_⟩
  exact forces.falsified isBuilt areFacts

theorem exists_check (sound : t.failed = false) : ∃ answer, t.isPropagated s = .ok answer := by
  rw [isPropagated_eq informed sound]
  split
  · exact ⟨_, rfl⟩
  · exact ⟨_, rfl⟩
  · split
    · exact ⟨_, rfl⟩
    · split <;> exact ⟨_, rfl⟩

end Informed

/-- A theory is unable to do what it meant to only at its turn. -/
theorem failed_of_answers {i : Nat} {call : Call} (sound : t.failed = false)
    (answered : Theory.Answers i t call t') (noTurn : ¬call.IsTurn) : t'.failed = false := by
  cases answered with
  | enqueue _ l told =>
    cases told
    exact (t.failed_settleProposal l).trans sound
  | clearSatisfied _ cleared =>
    cases cleared
    exact sound
  | propagate => exact absurd trivial noTurn
  | solve => exact absurd trivial noTurn
  | decide _ s proposal answered =>
    rw [show t' = (t.proposal? s).2 from (congrArg Prod.snd answered).symm]
    exact (t.failed_proposal? s).trans sound
  | buildReason _ l marker reason answered =>
    obtain ⟨_, _, same⟩ := Except.bind_eq_ok answered
    cases same
    exact sound
  | _ => exact sound

/-- A valuation is a solution in the eyes of the theory exactly if it satisfies it: the atom is true just
where a path of true edges connects. -/
theorem isSolved_iff_models (h : root.IsBuilt) (recalls : Recalls root heard t) {v : Atom → Bool}
    (values : ∀ a ∈ root.atoms, s.value a = some (v a)) : t.isSolved s = true ↔ root.Models v := by
  have each : ∀ e ∈ root.graph.edges, (s.value e.atom == some true) = v e.atom := by
    intro e edge
    rw [values _ (.tail _ (List.mem_map_of_mem edge))]
    cases v e.atom <;> rfl
  have connects : root.graph.Connects (fun a => s.value a == some true) root.source root.target ↔
      root.graph.Connects v root.source root.target :=
    ⟨fun path => path.mono fun e edge on => (each e edge).symm.trans on,
      fun path => path.mono fun e edge on => (each e edge).trans on⟩
  have reached : root.target ∈ root.graph.reachable (fun a => s.value a == some true) root.source ↔
      root.graph.Connects (fun a => s.value a == some true) root.source root.target :=
    Graph.mem_reachable_iff h.wellFormed h.inside
  rw [isSolved, recalls.graph, recalls.source, recalls.target, recalls.reach, values _ (.head _),
    beq_iff_eq, Option.some_inj, Bool.eq_iff_iff, List.contains_iff_mem, reached, connects]
  exact Iff.rfl

/-- No more is asked of a search for solutions than whether a path connects: any other test that tells has the same
answer. -/
theorem isSolved_eq_of_test (h : root.IsBuilt) (recalls : Recalls root heard t) {test : (Atom → Bool) → Bool}
    (tells : ∀ enabled, test enabled = true ↔ t.graph.Connects enabled t.source t.target) :
    t.isSolved s = (s.value t.reach == some (test fun a => s.value a == some true)) := by
  have wellFormed : t.graph.WellFormed := recalls.graph ▸ h.wellFormed
  have inside : t.source < t.graph.nodes := by
    rw [recalls.graph, recalls.source]
    exact h.inside
  have same : (t.graph.reachable (fun a => s.value a == some true) t.source).contains t.target =
      test fun a => s.value a == some true := by
    rw [Bool.eq_iff_iff, List.contains_iff_mem, Graph.mem_reachable_iff wellFormed inside, tells]
  exact congrArg (s.value t.reach == some ·) same

end Reachability

instance : Reliable Reachability where
  Sound t := t.failed = false
  built := by
    rintro root ⟨isBuilt, _⟩
    exact Reachability.IsBuilt.failed isBuilt
  answers sound answered noTurn := Reachability.failed_of_answers sound answered noTurn
  enqueues _ _ _ := ⟨_, rfl⟩
  clears _ := ⟨_, rfl⟩
  hints _ := ⟨_, rfl⟩
  turns informed sound _ _ kind i := by
    cases kind with
    | propagate => exact Reachability.examine_reliable informed sound true i
    | solve => exact Reachability.examine_reliable informed sound false i
  reasons {root _ _ _} informed _ _ justified := by
    rw [root.recalled_entries] at justified ⊢
    exact Reachability.exists_reason informed justified
  checks informed sound := Reachability.exists_check informed sound
  propagated informed sound complete _ ran :=
    Reachability.isPropagated_of_examine informed sound complete ran
  solved isBuilt recalls _ _ values models :=
    (Reachability.isSolved_iff_models isBuilt.1 recalls values).mpr models

end SatModulo
