import SatModulo.Proofs.Constraints
import SatModulo.Proofs.Paths
import SatModulo.Theories.Reachability

/-!
# Reachability as a constraint

The theory of reachability is lawful. The clause of a path holds as a path of true edges makes the atom
true, and the clause of a cut as every path to the target crosses the border of what may be reached.
When the atom and all edges have values and nothing follows from them, the atom says whether there is a
path.
-/
namespace SatModulo

theorem Literal.holds_on {v : Atom → Bool} {a : Atom} (proper : a ≠ topAtom) (value : Bool) :
    (on a value).Holds v ↔ v a = value := by
  rw [Holds, atom_on, polarity_on proper]

theorem Clause.exists_addAllNew_eq (c : Clause) (literals : List Literal) :
    ∃ more, c.addAllNew literals = c ++ more := by
  unfold addAllNew
  induction literals generalizing c with
  | nil => exact ⟨[], (List.append_nil c).symm⟩
  | cons l rest ih =>
    obtain ⟨more, same⟩ := ih (c.addNew l)
    rw [List.foldl_cons, same, addNew]
    split
    · exact ⟨more, rfl⟩
    · exact ⟨l :: more, List.append_assoc c [l] more⟩

section Facts

variable {facts : List Literal} {a : Atom} {value : Bool} {v : Atom → Bool}

theorem exists_of_factValue (known : factValue facts a = some value) :
    ∃ l ∈ facts, l.atom = a ∧ l.polarity = value := by
  obtain ⟨l, found, polarity⟩ := Option.map_eq_some_iff.mp known
  exact ⟨l, List.mem_reverse.mp (List.mem_of_find?_eq_some found), by simpa using List.find?_some found,
    polarity⟩

theorem isSome_factValue (given : ∃ l ∈ facts, l.atom = a) : (factValue facts a).isSome = true := by
  obtain ⟨l, fact, same⟩ := given
  rw [factValue, Option.isSome_map, List.find?_isSome]
  exact ⟨l, List.mem_reverse.mpr fact, by simpa using same⟩

/-- Where facts are true of a valuation, they give an atom its value. -/
theorem factValue_of_holds (holds : ∀ l ∈ facts, l.Holds v) (given : ∃ l ∈ facts, l.atom = a) :
    factValue facts a = some (v a) := by
  obtain ⟨value, known⟩ := Option.isSome_iff_exists.mp (isSome_factValue given)
  obtain ⟨l, fact, rfl, rfl⟩ := exists_of_factValue known
  rw [known, holds l fact]

/-- What facts say of an atom is one of them, and the atom has literals. -/
theorem AreFacts.on_mem (areFacts : AreFacts facts) (known : factValue facts a = some value) :
    Literal.on a value ∈ facts ∧ a ≠ topAtom ∧ a ≤ maxAtom := by
  obtain ⟨l, fact, rfl, rfl⟩ := exists_of_factValue known
  have proper := areFacts.proper l fact
  refine ⟨?_, proper, areFacts.inRange l fact⟩
  rwa [← Literal.eq_of_atom_of_polarity (Literal.atom_on _ _).symm (Literal.polarity_on proper _).symm]

end Facts

namespace Reachability

/-- A theory as it was built, of atoms other than the one that is always true. -/
def IsBuilt (t : Reachability) : Prop :=
  ∃ nodes source target reach listing edges,
    t = List.foldl addEdge (ofNodes nodes source target reach listing) edges ∧
    ∀ a ∈ t.atoms, a ≠ topAtom

/-- Only the graph changes when edges are added. -/
theorem foldl_addEdge (edges : List Edge) (t : Reachability) :
    edges.foldl addEdge t = { t with graph := edges.foldl Graph.addEdge t.graph } := by
  induction edges generalizing t with
  | nil => rfl
  | cons e rest ih => exact ih (t.addEdge e)

/-- The atom is true exactly when the true edges connect the source to the target. -/
def Models (v : Atom → Bool) (t : Reachability) : Prop :=
  v t.reach = true ↔ t.graph.Connects v t.source t.target

variable {root t t' : Reachability} {v : Atom → Bool} {facts : List Literal} {l : Literal}

namespace IsBuilt

theorem proper (h : root.IsBuilt) : ∀ a ∈ root.atoms, a ≠ topAtom := by
  obtain ⟨_, _, _, _, _, _, _, proper⟩ := h
  exact proper

private theorem wellFormed_addEdges {t : Reachability} (edges : List Edge)
    (wellFormed : t.graph.WellFormed) (inside : t.source < t.graph.nodes) (empty : t.log = {}) :
    (edges.foldl addEdge t).graph.WellFormed ∧
      (edges.foldl addEdge t).source < (edges.foldl addEdge t).graph.nodes ∧
      (edges.foldl addEdge t).log = {} := by
  induction edges generalizing t with
  | nil => exact ⟨wellFormed, inside, empty⟩
  | cons e rest ih =>
    refine ih (fun other member => ?_) (Nat.lt_of_lt_of_le inside (Nat.le_max_left _ _)) empty
    simp only [addEdge, Graph.addEdge, List.mem_append, List.mem_singleton] at member ⊢
    rcases member with old | rfl
    · have bounds := wellFormed other old
      omega
    · omega

theorem built (h : root.IsBuilt) :
    root.graph.WellFormed ∧ root.source < root.graph.nodes ∧ root.log = {} := by
  obtain ⟨nodes, source, target, reach, listing, edges, rfl, _⟩ := h
  refine wellFormed_addEdges edges nofun ?_ rfl
  simp only [ofNodes]
  omega

theorem wellFormed (h : root.IsBuilt) : root.graph.WellFormed := h.built.1

theorem inside (h : root.IsBuilt) : root.source < root.graph.nodes := h.built.2.1

end IsBuilt

/-! ### Reasons -/

/-- The edges that lead out of what may be reached. -/
def crossing (t : Reachability) (facts : List Literal) : List Edge :=
  let near := t.graph.reachable (fun a => factValue facts a != some false) t.source
  t.graph.edges.filter fun e => near.contains e.source && !near.contains e.target

/-- The clause of a path, where its atoms have literals. -/
def pathReason (t : Reachability) (path : List Edge) : Clause :=
  Clause.addAllNew [.on t.reach true] (path.map fun e => .on e.atom false)

/-- The clause of a cut, where its atoms have literals. -/
def cutReason (t : Reachability) (facts : List Literal) : Clause :=
  Clause.addAllNew [.on t.reach false] ((t.crossing facts).map fun e => .on e.atom true)

/-- The facts force a literal on the atom of reachability, by a clause. -/
inductive Forces (t : Reachability) (facts : List Literal) : Literal → Clause → Prop
  | path {path : List Edge} (found : t.truePath facts = some path) :
    Forces t facts (.on t.reach true) (t.pathReason path)
  | cut (none : t.possiblePath facts = none) : Forces t facts (.on t.reach false) (t.cutReason facts)

theorem factValue_of_truePath (h : root.IsBuilt) {path : List Edge}
    (found : root.truePath facts = some path) : ∀ e ∈ path, factValue facts e.atom = some true := by
  intro e member
  have walk := Graph.isWalk_of_shortestPath h.wellFormed h.inside found
  exact beq_iff_eq.mp (walk.forall_enabled e member)

theorem mem_crossing (h : root.IsBuilt) {e : Edge} :
    e ∈ root.crossing facts ↔ e ∈ root.graph.edges ∧
      root.graph.Connects (fun a => factValue facts a != some false) root.source e.source ∧
      ¬root.graph.Connects (fun a => factValue facts a != some false) root.source e.target := by
  rw [crossing, List.mem_filter, Bool.and_eq_true, Bool.not_eq_true', ← Bool.not_eq_true,
    List.contains_iff_mem, List.contains_iff_mem, Graph.mem_reachable_iff h.wellFormed h.inside,
    Graph.mem_reachable_iff h.wellFormed h.inside]

/-- An edge that leads out of what may be reached is false. -/
theorem factValue_of_crossing (h : root.IsBuilt) {e : Edge} (member : e ∈ root.crossing facts) :
    factValue facts e.atom = some false := by
  obtain ⟨edge, near, far⟩ := (mem_crossing h).mp member
  by_contra notFalse
  exact far (.tail near ⟨e, edge, bne_iff_ne.mpr notFalse, rfl, rfl⟩)

namespace Forces

variable {clause : Clause}

theorem atom_eq (forces : root.Forces facts l clause) : l.atom = root.reach := by
  cases forces <;> exact Literal.atom_on _ _

theorem exists_cons (forces : root.Forces facts l clause) : ∃ rest, clause = l :: rest := by
  cases forces <;> exact Clause.exists_addAllNew_eq _ _

/-- All other literals of the clause are false. -/
theorem falsified (h : root.IsBuilt) (areFacts : AreFacts facts)
    (forces : root.Forces facts l clause) : ∀ m ∈ clause, m ≠ l → m.negate ∈ facts := by
  intro m member other
  cases forces with
  | path found =>
    rw [pathReason, Clause.mem_addAllNew, List.mem_singleton, List.mem_map] at member
    obtain ⟨e, inPath, rfl⟩ := member.resolve_left other
    have fact := (areFacts.on_mem (factValue_of_truePath h found e inPath)).1
    simpa [Literal.on, Literal.negate] using fact
  | cut none =>
    rw [cutReason, Clause.mem_addAllNew, List.mem_singleton, List.mem_map] at member
    obtain ⟨e, crosses, rfl⟩ := member.resolve_left other
    have fact := (areFacts.on_mem (factValue_of_crossing h crosses)).1
    simpa [Literal.on, Literal.negate] using fact

/-- A clause by which facts force a literal holds wherever the atom says whether there is a path. -/
theorem holds (h : root.IsBuilt) (areFacts : AreFacts facts)
    (forces : root.Forces facts l clause) (models : root.Models v) : clause.Holds v := by
  have proper : root.reach ≠ topAtom := h.proper _ (.head _)
  cases forces with
  | @path path found =>
    by_cases isTrue : ∀ e ∈ path, v e.atom = true
    · have walk := Graph.isWalk_of_shortestPath h.wellFormed h.inside found
      refine ⟨.on root.reach true, Clause.mem_addAllNew.mpr (.inl (.head _)), ?_⟩
      exact (Literal.holds_on proper _).mpr (models.mpr (walk.connects_of isTrue))
    · push Not at isTrue
      obtain ⟨e, inPath, isFalse⟩ := isTrue
      have known := areFacts.on_mem (factValue_of_truePath h found e inPath)
      refine ⟨.on e.atom false, Clause.mem_addAllNew.mpr (.inr (List.mem_map_of_mem inPath)), ?_⟩
      exact (Literal.holds_on known.2.1 _).mpr (Bool.not_eq_true _ ▸ isFalse)
  | cut none =>
    by_cases reached : v root.reach = true
    · have apart := (Graph.shortestPath_eq_none_iff h.wellFormed h.inside).mp none
      obtain ⟨e, edge, isTrue, near, far⟩ := (models.mp reached).exists_crossing
        (root.graph.Connects (fun a => factValue facts a != some false) root.source) .refl apart
      have crosses := (mem_crossing h).mpr ⟨edge, near, far⟩
      refine ⟨.on e.atom true, Clause.mem_addAllNew.mpr (.inr (List.mem_map_of_mem crosses)), ?_⟩
      exact (Literal.holds_on (h.proper _ (.tail _ (List.mem_map_of_mem edge))) _).mpr isTrue
    · refine ⟨.on root.reach false, Clause.mem_addAllNew.mpr (.inl (.head _)), ?_⟩
      exact (Literal.holds_on proper _).mpr (Bool.not_eq_true _ ▸ reached)

end Forces

variable {clause : Clause}

/-- Atoms in range have literals, so the clause of a path can be written. -/
theorem pathClause_eq_ok (inRange : root.reach ≤ maxAtom) {path : List Edge}
    (edges : ∀ e ∈ path, e.atom ≤ maxAtom) (success : root.pathClause path = .ok clause) :
    clause = root.pathReason path := by
  obtain ⟨missing, negated, same⟩ := Except.bind_eq_ok success
  cases same
  have each : missing = path.map fun e => Literal.on e.atom false := by
    have pairs := Except.mapM_eq_ok negated
    clear negated success
    induction pairs with
    | nil => rfl
    | cons first _ ih =>
      rw [List.forall_mem_cons] at edges
      rw [List.map_cons, ← Literal.ofAtom_eq_ok edges.1 first, ← ih edges.2]
  rw [each, Literal.positive_of_le inRange, pathReason]

theorem cutClause_eq_ok (h : root.IsBuilt) (inRange : root.reach ≤ maxAtom) (areFacts : AreFacts facts)
    (success : root.cutClause facts = .ok clause) : clause = root.cutReason facts := by
  obtain ⟨unreached, negated, same⟩ := Except.bind_eq_ok success
  cases same
  rw [Literal.ofAtom_eq_ok inRange negated, cutReason]
  refine congrArg _ (List.map_congr_left fun e crosses => Literal.positive_of_le ?_)
  exact (areFacts.on_mem (factValue_of_crossing h crosses)).2.2

/-- A clause that is drawn from facts forces a literal. -/
theorem consequence_eq_ok (h : root.IsBuilt) (inRange : root.reach ≤ maxAtom)
    (areFacts : AreFacts facts) (success : root.consequence facts = .ok (some clause)) :
    ∃ l, root.Forces facts l clause := by
  unfold consequence at success
  dsimp only at success
  split at success
  · rename_i path found
    split at success
    · cases success
    · obtain ⟨built, drawn, same⟩ := Except.map_eq_ok success
      cases same
      rw [pathClause_eq_ok inRange (fun e member => ?_) drawn]
      · exact ⟨_, .path found⟩
      exact (areFacts.on_mem (factValue_of_truePath h found e member)).2.2
  · split at success
    · cases success
    · rename_i none
      split at success
      · cases success
      · obtain ⟨built, drawn, same⟩ := Except.map_eq_ok success
        cases same
        rw [cutClause_eq_ok h inRange areFacts drawn]
        exact ⟨_, .cut none⟩

/-! ### States -/

/-- A state of the theory: the graph is the same, and what it recalls is in its log. -/
structure Recalls (root : Reachability) (recalled : LevelStack Literal) (t : Reachability) : Prop where
  graph : t.graph = root.graph
  source : t.source = root.source
  target : t.target = root.target
  reach : t.reach = root.reach
  log : t.log.view = recalled

/-- A state but for what is counted and noted. -/
def SameState (t t' : Reachability) : Prop :=
  t' = { t with
    occurs := t'.occurs
    decisions := t'.decisions
    proposal := t'.proposal
    counters := t'.counters
    failed := t'.failed
    index := t'.index }

variable {recalled : LevelStack Literal}

theorem Recalls.same (recalls : Recalls root recalled t) (same : SameState t t') :
    Recalls root recalled t' := by
  rw [same]
  exact ⟨recalls.graph, recalls.source, recalls.target, recalls.reach, recalls.log⟩

theorem sameState_settleProposal (t : Reachability) (l : Literal) : SameState t (t.settleProposal l) := by
  unfold settleProposal
  split
  · exact rfl
  · split
    · split <;> exact rfl
    · exact rfl

theorem sameState_proposal? (t : Reachability) (s : Atoms) : SameState t (t.proposal? s).2 := by
  unfold proposal?
  split <;> exact rfl

theorem Recalls.entries (recalls : Recalls root recalled t) : t.log.entries = recalled.entries := by
  rw [LevelLog.entries, recalls.log]

theorem Recalls.consequence (recalls : Recalls root recalled t) :
    t.consequence facts = root.consequence facts := by
  simp only [Reachability.consequence, truePath, possiblePath, pathClause, cutClause, recalls.graph,
    recalls.source, recalls.target, recalls.reach]

/-- The reason for a literal that facts force is a clause by which they do. -/
theorem Recalls.reason_eq_ok (h : root.IsBuilt) (inRange : root.reach ≤ maxAtom)
    (recalls : Recalls root recalled t) {marker : Marker}
    (areFacts : AreFacts (recalled.entries.take marker)) (success : t.reason l marker = .ok clause)
    (forced : ∃ clause, root.Forces (recalled.entries.take marker) l clause) :
    root.Forces (recalled.entries.take marker) l clause := by
  have proper : root.reach ≠ topAtom := h.proper _ (.head _)
  obtain ⟨other, forces⟩ := forced
  simp only [reason, LevelLog.firstEntries, recalls.entries, truePath, pathClause, cutClause, recalls.graph,
    recalls.source, recalls.target, recalls.reach] at success
  cases forces with
  | @path path found =>
    rw [if_pos (Literal.polarity_on proper true)] at success
    simp only [truePath] at found
    rw [found] at success
    refine pathClause_eq_ok inRange (fun e member => ?_) success ▸ .path found
    exact (areFacts.on_mem (factValue_of_truePath h found e member)).2.2
  | cut none =>
    rw [if_neg (by rw [Literal.polarity_on proper]; exact Bool.false_ne_true)] at success
    exact cutClause_eq_ok h inRange areFacts success ▸ .cut none

section Turns

variable {asks : Literal → Marker → Prop} (valid : Clause → Prop)

/-- A look at the facts makes at most one literal true, the first of the clause that follows from them. -/
theorem allows_examine {skip : Bool}
    (asked : ∀ l rest, t.consequence t.log.entries = .ok (some (l :: rest)) → asks l t.log.length)
    (holds : ∀ clause, t.consequence t.log.entries = .ok (some clause) → valid clause) :
    (t.examine skip).Allows asks fun outcome =>
      (∀ clause, outcome.1 = some clause → valid clause) ∧ SameState t outcome.2 := by
  unfold examine
  refine (Turn.allows_ofExcept _).andThen fun drawn success => ?_
  split
  · exact ⟨nofun, rfl⟩
  · exact trivial
  · rename_i l rest
    have given : ∀ clause, some (l :: rest) = some clause → valid clause := by
      rintro clause ⟨⟩
      exact holds _ success
    split
    · exact ⟨given, rfl⟩
    · split
      · exact ⟨nofun, rfl⟩
      · refine ⟨asked l rest success, fun status => ?_⟩
        cases status with
        | error e => exact ⟨nofun, rfl⟩
        | ok status =>
          cases status with
          | unset => exact ⟨nofun, rfl⟩
          | same => exact ⟨nofun, rfl⟩
          | different => exact ⟨given, rfl⟩

theorem sameState_of_run {skip : Bool} {i : Nat} {s s' : Atoms} {conflict : Option Clause}
    (ran : (t.examine skip).run i s = .ok ((conflict, t'), s')) : SameState t t' := by
  have allowed : (t.examine skip).Allows (fun _ _ => True) fun outcome =>
      (∀ clause, outcome.1 = some clause → True) ∧ SameState t outcome.2 :=
    allows_examine (fun _ => True) (fun _ _ _ => trivial) fun _ _ => trivial
  exact (allowed.run ran).1.2

/-- At its turn the theory only counts, and notes that its atom is unknown. -/
theorem examine_kept {skip : Bool} {i : Nat} {s s' : Atoms} {conflict : Option Clause}
    (ran : (t.examine skip).run i s = .ok ((conflict, t'), s')) :
    t' = { t with counters := t'.counters, failed := t'.failed } := by
  have allowed : (t.examine skip).Allows (fun _ _ => True) fun outcome =>
      outcome.2 = { t with counters := outcome.2.counters, failed := outcome.2.failed } := by
    unfold examine
    refine (Turn.allows_ofExcept _).andThen fun drawn _ => ?_
    split
    · exact rfl
    · exact trivial
    · split
      · exact rfl
      · split
        · exact rfl
        · refine ⟨trivial, fun status => ?_⟩
          rcases status with e | status
          · exact rfl
          · cases status <;> exact rfl
  exact (allowed.run ran).1

/-- Where the atom has a value, what follows from the facts is a conflict. -/
theorem consequence_of_silent {skip : Bool} {i : Nat} {s s' : Atoms}
    (ran : (t.examine skip).run i s = .ok ((none, t'), s'))
    (valued : (factValue t.log.entries t.reach).isSome = true) {rest : Clause} :
    t.consequence t.log.entries ≠ .ok (some (l :: rest)) := by
  intro drawn
  have conflict : (t.examine skip).Allows (fun _ _ => True) fun outcome => outcome.1 ≠ none := by
    unfold examine
    dsimp only
    rw [drawn]
    change Turn.Allows _ _ (if _ then _ else _)
    rw [if_pos valued]
    exact nofun
  exact (conflict.run ran).1 rfl

end Turns

/-- Where facts that hold give the atom and all edges their values and nothing follows from them, the
atom says whether there is a path. -/
theorem models_of_no_consequence (h : root.IsBuilt) (holds : ∀ l ∈ facts, l.Holds v)
    (complete : ∀ a ∈ root.atoms, ∃ l ∈ facts, l.atom = a)
    (nothing : root.consequence facts = .ok none) : root.Models v := by
  have reachValue : factValue facts root.reach = some (v root.reach) :=
    factValue_of_holds holds (complete _ (.head _))
  have edgeValue : ∀ e ∈ root.graph.edges, factValue facts e.atom = some (v e.atom) := fun e edge =>
    factValue_of_holds holds (complete _ (.tail _ (List.mem_map_of_mem edge)))
  have isTrue : ∀ e ∈ root.graph.edges, (factValue facts e.atom == some true) = v e.atom := by
    intro e edge
    rw [edgeValue e edge]
    cases v e.atom <;> rfl
  have notFalse : ∀ e ∈ root.graph.edges, (factValue facts e.atom != some false) = v e.atom := by
    intro e edge
    rw [edgeValue e edge]
    cases v e.atom <;> rfl
  unfold consequence at nothing
  dsimp only at nothing
  rw [reachValue] at nothing
  split at nothing
  · rename_i path found
    have connects : root.graph.Connects v root.source root.target :=
      (Graph.isWalk_of_shortestPath h.wellFormed h.inside found).connects.mono
        fun e edge on => (isTrue e edge).symm.trans on
    split at nothing
    · rename_i reached
      exact iff_of_true (Option.some.inj reached) connects
    · obtain ⟨_, _, same⟩ := Except.map_eq_ok nothing
      cases same
  · rename_i absent
    have apart : ¬root.graph.Connects v root.source root.target := fun connects =>
      (Graph.shortestPath_eq_none_iff h.wellFormed h.inside).mp absent
        (connects.mono fun e edge on => (isTrue e edge).trans on)
    split at nothing
    · rename_i path found
      refine absurd ?_ apart
      exact (Graph.isWalk_of_shortestPath h.wellFormed h.inside found).connects.mono
        fun e edge on => (notFalse e edge).symm.trans on
    · split at nothing
      · rename_i unreached
        exact iff_of_false (fun reached => by rw [reached] at unreached; cases unreached) apart
      · obtain ⟨_, _, same⟩ := Except.map_eq_ok nothing
        cases same

theorem exists_consequence_of_run {skip : Bool} {i : Nat} {s s' : Atoms}
    {ended : Option Clause × Reachability} (ran : (t.examine skip).run i s = .ok (ended, s')) :
    ∃ drawn, t.consequence t.log.entries = .ok drawn := by
  cases outcome : t.consequence t.log.entries with
  | ok result => exact ⟨result, rfl⟩
  | error cause =>
    unfold examine at ran
    dsimp only at ran
    rw [outcome] at ran
    cases ran

/-! ### What is recalled and said -/

variable {heard : LevelStack Literal}

theorem Models.agree {w : Atom → Bool} (same : ∀ a ∈ root.atoms, v a = w a) (models : root.Models v) :
    root.Models w := by
  have each : ∀ e ∈ root.graph.edges, v e.atom = w e.atom := fun e edge =>
    same _ (.tail _ (List.mem_map_of_mem edge))
  change w root.reach = true ↔ root.graph.Connects w root.source root.target
  rw [← same _ (.head _)]
  refine models.trans ⟨fun connects => ?_, fun connects => ?_⟩
  · exact connects.mono fun e edge on => each e edge ▸ on
  · exact connects.mono fun e edge on => (each e edge).trans on

/-- Called in any way, a theory recalls what it has heard with the call. -/
theorem Recalls.answers {i : Nat} {call : Call} (recalls : Recalls root heard t)
    (answered : Theory.Answers i t call t') : Recalls root (call.hear heard) t' := by
  cases answered with
  | setIndex j => exact recalls.same rfl
  | noteOccurs l occurs => exact recalls.same rfl
  | openLevel =>
    exact ⟨recalls.graph, recalls.source, recalls.target, recalls.reach,
      congrArg LevelStack.openLevel recalls.log⟩
  | backtrack level =>
    refine ⟨recalls.graph, recalls.source, recalls.target, recalls.reach, ?_⟩
    rw [Call.hear, ← recalls.log]
    exact LevelLog.view_backtrack _ _
  | enqueue _ l told =>
    cases told
    have settled := recalls.same (t.sameState_settleProposal l)
    exact ⟨settled.graph, settled.source, settled.target, settled.reach, congrArg (·.push l) settled.log⟩
  | clearSatisfied _ cleared =>
    cases cleared
    exact recalls
  | undecide l => exact recalls.same rfl
  | propagate _ s s' conflict ran => exact recalls.same (sameState_of_run ran)
  | solve _ s s' conflict ran => exact recalls.same (sameState_of_run ran)
  | decide _ s proposal answered =>
    have same := t.sameState_proposal? s
    rw [show t.proposal? s = (proposal, t') from answered] at same
    exact recalls.same same
  | buildReason _ l marker reason answered =>
    obtain ⟨clause, _, same⟩ := Except.bind_eq_ok answered
    cases same
    exact recalls.same rfl
  | _ => exact recalls

/-- A clause drawn from what a theory recalls forces its first literal. -/
theorem Recalls.forces (h : root.IsBuilt) (inRange : root.reach ≤ maxAtom) (recalls : Recalls root recalled t)
    (areFacts : AreFacts recalled.entries) (drawn : t.consequence t.log.entries = .ok (some clause)) :
    ∃ first rest, clause = first :: rest ∧ root.Forces recalled.entries first clause := by
  rw [recalls.consequence, recalls.entries] at drawn
  obtain ⟨first, forces⟩ := consequence_eq_ok h inRange areFacts drawn
  obtain ⟨rest, same⟩ := forces.exists_cons
  exact ⟨first, rest, same, forces⟩

/-- At its turn a theory makes true only what the facts force, and a conflict that it finds holds. -/
theorem Recalls.turns (h : root.IsBuilt) (inRange : root.reach ≤ maxAtom) (recalls : Recalls root recalled t)
    (areFacts : AreFacts recalled.entries) {turn : Reachability → Turn (Option Clause × Reachability)}
    {call : Nat → List Literal → Option Clause → Call} (kind : TurnKind turn call) :
    (turn t).Allows
      (fun l marker => marker = recalled.entries.length ∧ ∃ clause, root.Forces recalled.entries l clause)
      fun outcome => ∀ clause, outcome.1 = some clause → ∀ v, root.Models v → Clause.Holds v clause := by
  have examined : ∀ skip, (t.examine skip).Allows
      (fun l marker => marker = recalled.entries.length ∧ ∃ clause, root.Forces recalled.entries l clause)
      fun outcome => ∀ clause, outcome.1 = some clause → ∀ v, root.Models v → Clause.Holds v clause := by
    intro skip
    refine Turn.Allows.mono (allows_examine
      (fun clause => ∀ v, root.Models v → Clause.Holds v clause) ?_ ?_) fun outcome ends => ends.1
    · intro l rest drawn
      obtain ⟨_, _, same, forces⟩ := recalls.forces h inRange areFacts drawn
      cases same
      exact ⟨by rw [LevelLog.length, recalls.entries], _, forces⟩
    · intro clause drawn v models
      obtain ⟨_, _, _, forces⟩ := recalls.forces h inRange areFacts drawn
      exact forces.holds h areFacts models
  cases kind with
  | propagate => exact examined true
  | solve => exact examined false

/-- What a theory gives as a reason for what the facts forced holds. -/
theorem Recalls.reasons (h : root.IsBuilt) (inRange : root.reach ≤ maxAtom) (recalls : Recalls root recalled t)
    (areFacts : AreFacts recalled.entries) {marker : Marker}
    (answered : Theory.buildReason l marker t = .ok (clause, t'))
    (forced : ∃ clause, root.Forces (recalled.entries.take marker) l clause) (models : root.Models v) :
    clause.Holds v := by
  have earlier : AreFacts (recalled.entries.take marker) := areFacts.sublist (List.take_sublist _ _)
  obtain ⟨_, built, same⟩ := Except.bind_eq_ok answered
  cases same
  exact (recalls.reason_eq_ok h inRange earlier built forced).holds h earlier models

/-- Where a theory that has heard of all its atoms finds no conflict, it is satisfied. -/
theorem Recalls.models_of_silent (h : root.IsBuilt) (inRange : root.reach ≤ maxAtom)
    (recalls : Recalls root recalled t) (areFacts : AreFacts recalled.entries)
    (complete : ∀ a ∈ root.atoms, ∃ l ∈ recalled.entries, l.atom = a)
    (holds : ∀ l ∈ recalled.entries, l.Holds v) {skip : Bool} {i : Nat} {s s' : Atoms}
    (ran : (t.examine skip).run i s = .ok ((none, t'), s')) : root.Models v := by
  obtain ⟨drawn, success⟩ := exists_consequence_of_run ran
  cases drawn with
  | none =>
    rw [recalls.consequence, recalls.entries] at success
    exact models_of_no_consequence h holds complete success
  | some clause =>
    obtain ⟨first, rest, rfl, _⟩ := recalls.forces h inRange areFacts success
    refine absurd success (consequence_of_silent ran ?_)
    rw [recalls.entries, recalls.reach]
    exact isSome_factValue (complete _ (.head _))

end Reachability

instance : Constraint Reachability where
  IsBuilt t := t.IsBuilt ∧ t.reach ≤ maxAtom
  atoms := Reachability.atoms
  Models := Reachability.Models
  keeps _ _ := true
  Recalls := Reachability.Recalls
  Justifies root facts l := ∃ clause, root.Forces facts l clause

theorem Reachability.recalled_entries (root : Reachability) (heard : LevelStack Literal) :
    (Constraint.recalled root heard).entries = heard.entries := by
  rw [Constraint.recalled, LevelStack.entries_filter]
  exact List.filter_true _

instance : LawfulConstraint Reachability where
  proper isBuilt := isBuilt.1.proper
  agree same models := Reachability.Models.agree same models
  built isBuilt := ⟨rfl, rfl, rfl, rfl, congrArg LevelLog.view isBuilt.1.built.2.2⟩
  answers recalls answered := Reachability.Recalls.answers recalls answered
  turns {root _ _} isBuilt recalls facts _ _ kind := by
    rw [root.recalled_entries]
    exact Reachability.Recalls.turns isBuilt.1 isBuilt.2 recalls facts kind
  reasons {root _ _ _} isBuilt recalls facts l marker _ answered justified _ models := by
    change ∃ clause, root.Forces _ l clause at justified
    rw [root.recalled_entries] at justified
    exact Reachability.Recalls.reasons isBuilt.1 isBuilt.2 recalls facts answered justified models
  explained isBuilt _ areFacts _ justified := by
    obtain ⟨clause, forces⟩ := justified
    obtain ⟨rest, same⟩ := forces.exists_cons
    exact ⟨clause, fun v models => forces.holds isBuilt.1 areFacts models, same ▸ .head _,
      forces.falsified isBuilt.1 areFacts⟩
  settled isBuilt recalls facts complete _ _ agrees _ holds := by
    rcases agrees with hint | ⟨t', ran⟩
    · cases hint
    · exact Reachability.Recalls.models_of_silent isBuilt.1 isBuilt.2 recalls facts complete holds ran

end SatModulo
