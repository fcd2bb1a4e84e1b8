import SatModulo.Proofs.Backing
import SatModulo.Proofs.BreadthFirst
import SatModulo.Proofs.Cardinality
import SatModulo.Proofs.LazyLogs
import SatModulo.Proofs.Progress
import SatModulo.Proofs.TotalOrder
import SatModulo.Proofs.Vectors

/-!
# Nothing is read outside of a vector

Along a run the atoms are kept in vectors by operations none of which is a fault (`PublicRun.written`), and the log
of a theory comes about from an empty one in that way (`Theory.Trace.logged`). As there are fewer levels than atoms,
levels and positions in logs keep to the numbers that there is room for (`Context.Opened.level_lt`). Searches in the
graphs of theories look up nodes and edges of these graphs only. So in no context that a run comes through, before a
search, in it or after it, is a vector read or written outside (`Context.InRange`).
-/
namespace SatModulo

section Atoms

open AtomVectors

variable {σ : Type} {s s' : Atoms}

theorem Turn.writes {α : Type} {i : Nat} {turn : Turn α} {a : α} (ran : turn.run i s = .ok (a, s')) :
    Relation.ReflTransGen Writes (ofAtoms s) (ofAtoms s') := by
  induction turn generalizing s with
  | done result =>
    cases ran
    exact .refl
  | fault cause => cases ran
  | look resume ih => exact ih s ran
  | assign l marker resume ih =>
    unfold Turn.run at ran
    split at ran
    · rename_i status mid made
      exact .head (.of_assign made) (ih _ ran)
    · exact ih _ ran

theorem ClauseStore.Propagates.writes {store : ClauseStore} (step : store.Propagates s s') :
    Writes (ofAtoms s) (ofAtoms s') := by
  cases step with
  | force _ key clause l found forces made => exact .of_assign made
  | pass l next seen => exact .advance (ofAtoms s)

variable [Theory σ] {taking : Intake σ} {c c' : Context σ}

theorem Draw.writes (draw : Draw c c') : Relation.ReflTransGen Writes (ofAtoms c.atoms) (ofAtoms c'.atoms) := by
  cases draw with
  | units atoms step => exact .single step.writes
  | turn i turn call kind conflict atoms theories taken =>
    obtain ⟨m, m', own, _, taken, _⟩ := Registry.changeAt_eq_ok taken
    obtain ⟨flushed, _, ran, _⟩ := Member.memberTurn_eq_ok taken
    exact Turn.writes ran
  | _ => exact .refl

/-- What a move does to the atoms is done to their vectors by operations that end. -/
theorem Move.writes (move : Move taking c c') : Relation.ReflTransGen Writes (ofAtoms c.atoms) (ofAtoms c'.atoms) := by
  cases move with
  | draw move => exact move.writes
  | jump move =>
    cases move with
    | retreat level low retracted theories undecided taken => exact .single (.of_forgetAbove c.atoms level)
    | learn key l lower level clauses retracted theories atoms distinct falsified current low below tight entailed
        stored undecided taken made =>
      exact .head (.of_forgetAbove c.atoms level) (.single (.of_assign made))
  | decide allowed move =>
    cases move with
    | decide l proposer theories atoms delivered opened made =>
      exact .head (.of_openLevel c.atoms) (.single (.of_assign made))
  | build move =>
    cases move with
    | fresh previous a atoms success => exact .single (.of_fresh success)
    | giveUnit clause key clauses l atoms given base distinct known stored state made =>
      exact .single (.of_assign made)
    | _ => exact .refl
  | settle phase before after => exact .refl
  | configure settings given => exact .refl

theorem PublicRun.written {settings : Settings} {events : List (Event σ)} {s : Session σ}
    (run : PublicRun settings events s) : Relation.ReflTransGen Writes .initial (ofAtoms s.context.atoms) := by
  let keeps (c : Context σ) : Prop := Relation.ReflTransGen Writes .initial (ofAtoms c.atoms)
  have initial : keeps (.ofSettings settings) := .refl
  refine run.invariant initial (fun move _ written => .trans written move.writes) fun refuted written => ?_
  unfold keeps
  rwa [refuted.frame.1]

theorem Moves.writes (moves : Moves taking c c') :
    Relation.ReflTransGen Writes (ofAtoms c.atoms) (ofAtoms c'.atoms) := by
  induction moves with
  | refl => exact .refl
  | tail _ move ih => exact ih.trans move.writes

end Atoms

/-! ### Levels -/

section Levels

variable {σ : Type} {c : Context σ}

/-- A level is a number of 32 bits: each level above the base has a literal of its own. -/
theorem Context.Opened.level_lt (opened : c.Opened) (h : c.Coherent) : c.level < UInt32.size := by
  have levels := (opened.atoms.counts_bounded h.supports.atoms).1
  rw [LevelStack.counts, List.length_map, LevelStack.length_levels] at levels
  have room : c.atoms.count ≤ maxAtom + 1 := h.supports.atoms.room
  have fits : maxAtom + 1 < UInt32.size := by decide
  exact Nat.lt_trans (Nat.lt_of_lt_of_le (Nat.lt_of_succ_le levels) room) fits

end Levels

/-! ### Logs -/

/-- A log that operations have made of an empty one. Kept by position, no operation was outside and no question
is; its level and its positions are numbers of 32 bits. -/
structure LevelLog.InRange (log : LevelLog Literal) : Prop where
  kept : ∃ operations, PositionLog.run operations = some (.ofLevels log)
  reads : (PositionLog.ofLevels log).Reads log
  level_lt : log.level < UInt32.size
  length_lt : log.length < UInt32.size

section Logs

variable {i : Nat}

theorem AtMost.SameState.log_eq {t t' : AtMost} (same : t.SameState t') : t'.log = t.log := by
  rw [same]

theorem Reachability.SameState.log_eq {t t' : Reachability} (same : t.SameState t') : t'.log = t.log := by
  rw [same]

/-- A call does one operation to the log, or none. -/
theorem AtMost.log_answers {t t' : AtMost} {call : Call} (answered : Theory.Answers i t call t') :
    ∃ operations, t'.log = List.foldl LevelLog.apply t.log operations := by
  have none {t' : AtMost} (same : t'.log = t.log) :
      ∃ operations, t'.log = List.foldl LevelLog.apply t.log operations := ⟨[], same⟩
  cases answered with
  | openLevel => exact ⟨[.openLevel], rfl⟩
  | backtrack level => exact ⟨[.defer level], rfl⟩
  | enqueue _ l told =>
    simp only [Theory.enqueue] at told
    split at told
    · cases told
      exact ⟨[.record l], rfl⟩
    · obtain ⟨_, _, told⟩ := Except.bind_eq_ok told
      split at told <;> cases told
      · exact ⟨[.record l], rfl⟩
      · exact none rfl
  | clearSatisfied _ cleared =>
    simp only [Theory.clearSatisfied] at cleared
    split at cleared
    · obtain ⟨_, _, cleared⟩ := Except.bind_eq_ok cleared
      split at cleared <;> cases cleared <;> exact none rfl
    · cases cleared
      exact none rfl
  | propagate _ s s' conflict ran =>
    exact none ((AtMost.allows_turn .propagate).run ran).1.2.log_eq
  | solve _ s s' conflict ran => exact none ((AtMost.allows_turn .solve).run ran).1.2.log_eq
  | decide _ s proposal answered =>
    cases answered
    exact none rfl
  | buildReason _ l marker reason answered =>
    obtain ⟨_, _, same⟩ := Except.bind_eq_ok answered
    cases same
    exact none rfl
  | _ => exact none rfl

theorem Reachability.log_answers {t t' : Reachability} {call : Call} (answered : Theory.Answers i t call t') :
    ∃ operations, t'.log = List.foldl LevelLog.apply t.log operations := by
  have none {t' : Reachability} (same : t'.log = t.log) :
      ∃ operations, t'.log = List.foldl LevelLog.apply t.log operations := ⟨[], same⟩
  cases answered with
  | openLevel => exact ⟨[.openLevel], rfl⟩
  | backtrack level => exact ⟨[.backtrack level], rfl⟩
  | enqueue _ l told =>
    cases told
    exact ⟨[.record l], congrArg (·.record l) (t.sameState_settleProposal l).log_eq⟩
  | clearSatisfied _ cleared =>
    cases cleared
    exact none rfl
  | propagate _ s s' conflict ran => exact none (Reachability.sameState_of_run ran).log_eq
  | solve _ s s' conflict ran => exact none (Reachability.sameState_of_run ran).log_eq
  | decide _ s proposal answered =>
    have same := t.sameState_proposal? s
    rw [show t.proposal? s = (proposal, t') from answered] at same
    exact none same.log_eq
  | buildReason _ l marker reason answered =>
    obtain ⟨_, _, same⟩ := Except.bind_eq_ok answered
    cases same
    exact none rfl
  | _ => exact none rfl

/-- Where calls do operations to the log of a theory, any number of calls does. -/
theorem Theory.Trace.log_eq {σ : Type} [Theory σ] {log : σ → LevelLog Literal}
    (answers : ∀ {t t' : σ} {call : Call}, Answers i t call t' →
      ∃ operations, log t' = List.foldl LevelLog.apply (log t) operations)
    {t t' : σ} {calls : List Call} (trace : Trace i t calls t') :
    ∃ operations, log t' = List.foldl LevelLog.apply (log t) operations := by
  induction trace with
  | nil => exact ⟨[], rfl⟩
  | cons answered _ ih =>
    obtain ⟨first, called⟩ := answers answered
    obtain ⟨others, same⟩ := ih
    exact ⟨first ++ others, by rw [List.foldl_append, ← called, same]⟩

theorem LevelLog.inRange_of_run {log : LevelLog Literal} (made : ∃ operations, log = LevelLog.run operations)
    (level_lt : log.level < UInt32.size) (length_lt : log.length < UInt32.size) : log.InRange := by
  obtain ⟨operations, rfl⟩ := made
  exact ⟨⟨operations, PositionLog.run_eq operations⟩, PositionLog.reads (LevelLog.run_lowersOnly operations),
    level_lt, length_lt⟩

end Logs

/-! ### Theories -/

/-- The searches for paths and for what may be reached look up nodes and edges of the graph only, whatever the
values of atoms and the order in which the edges of a node are tried. -/
structure Reachability.InRange (t : Reachability) : Prop where
  source_lt : t.source < t.graph.nodes
  edges : t.graph.WellFormed
  finds : ∀ out, t.graph.Lists out → ∀ status approximation, ∃ answer, t.Finds out status approximation answer ∧
    ∀ path, answer = some path → ∀ e ∈ path, e ∈ t.graph.edges
  marks : ∀ out, t.graph.Lists out → ∀ status, ∃ marked, t.Marks out status marked

theorem Reachability.inRange {t : Reachability} (wellFormed : t.graph.WellFormed)
    (inside : t.source < t.graph.nodes) : t.InRange where
  source_lt := inside
  edges := wellFormed
  finds out lists status approximation := by
    obtain ⟨answer, finds, _, walks⟩ := exists_finds wellFormed inside lists status approximation
    exact ⟨answer, finds, fun path found => (walks path found).1.mem_edges⟩
  marks out lists status := by
    obtain ⟨marked, marks, _⟩ := exists_marks wellFormed inside lists status
    exact ⟨marked, marks⟩

/-! ### Contexts -/

section Contexts

open Constraint

variable {c : Context (AtMost ⊕ Reachability)}

/-- Nothing is read or written outside of a vector: not of atoms, not of occurrences of literals, not of standings,
of theories and what is kept of them, nor in theories of logs and of what searches note of nodes. Levels are numbers
of 32 bits. -/
structure Context.InRange (c : Context (AtMost ⊕ Reachability)) : Prop where
  written : Relation.ReflTransGen AtomVectors.Writes .initial (.ofAtoms c.atoms)
  performs : (AtomVectors.ofAtoms c.atoms).Performs c.atoms
  stores : ∀ clause learnt, c.clauses.putAt clause learnt = .ok (c.clauses.put clause learnt)
  order : c.theories.schedule.orderAt = .ok c.theories.schedule.order
  bump : ∀ [Conventions] (i : Nat), c.theories.schedule.bumpAt i = .ok (c.theories.schedule.bump i)
  /-- The theories in the order of their turns are registered. -/
  members : ∀ i ∈ c.theories.schedule.order, ∃ m, c.theories.members[i]? = some m ∧
    (TheoryVectors.ofRegistry c.theories).memberAt i = .ok (some m)
  level_lt : c.level < UInt32.size
  atMost : ∀ m ∈ c.theories.members, ∀ t, m.theory = .inl t → t.log.InRange
  reachability : ∀ m ∈ c.theories.members, ∀ t, m.theory = .inr t → t.log.InRange ∧ t.InRange

theorem Registry.Stems.log_eq_inl {r : Registry (AtMost ⊕ Reachability)} {i : Nat} {root : AtMost}
    {m : Member (AtMost ⊕ Reachability)} (stems : r.Stems i (.inl root) m) (isBuilt : IsBuilt root) :
    ∃ t, m.theory = .inl t ∧ ∃ operations, t.log = LevelLog.run operations := by
  obtain ⟨_, _, _, _, _, trace⟩ := stems
  obtain ⟨t, isTheory, own⟩ := Theory.Embedding.inl.trace trace
  obtain ⟨_, _, rfl, _⟩ := isBuilt
  exact ⟨t, isTheory, own.log_eq AtMost.log_answers⟩

theorem Registry.Stems.log_eq_inr {r : Registry (AtMost ⊕ Reachability)} {i : Nat} {root : Reachability}
    {m : Member (AtMost ⊕ Reachability)} (stems : r.Stems i (.inr root) m) (isBuilt : IsBuilt root) :
    ∃ t, m.theory = .inr t ∧ ∃ operations, t.log = LevelLog.run operations := by
  obtain ⟨_, _, _, _, _, trace⟩ := stems
  obtain ⟨t, isTheory, own⟩ := Theory.Embedding.inr.trace trace
  obtain ⟨operations, same⟩ := own.log_eq Reachability.log_answers
  rw [isBuilt.1.built.2.2] at same
  exact ⟨t, isTheory, operations, same⟩

/-- A log of what was heard has no more levels and entries than the trail. -/
theorem Context.Told.log_lt (told : c.Told) (h : c.Coherent) (opened : c.Opened) {i : Nat}
    {m : Member (AtMost ⊕ Reachability)} (found : c.theories.members[i]? = some m) {log : LevelLog Literal}
    (level : log.level = (c.theories.heard i).level) (entries : log.entries.Sublist (c.theories.heard i).entries) :
    log.level < UInt32.size ∧ log.length < UInt32.size := by
  have delivered := told.delivered i m found
  constructor
  · rw [level, delivered.heardLevel]
    exact opened.level_lt h
  · have heard : (c.theories.heard i).entries.length ≤ c.atoms.trail.length :=
      (List.subperm_of_subset delivered.distinct fun _ => delivered.subset).length_le
    calc log.length
      _ ≤ (c.theories.heard i).entries.length := entries.length_le
      _ ≤ c.atoms.trail.length := heard
      _ < c.atoms.count := h.supports.atoms.length_lt
      _ ≤ maxAtom + 1 := h.supports.atoms.room
      _ < UInt32.size := by decide

/-- Where theories stem from bounds and reachability, nothing is read or written outside of a vector. -/
theorem Context.Told.inRange (told : c.Told) (h : c.Coherent) (opened : c.Opened) (watched : c.Watched IsBuilt)
    (written : Relation.ReflTransGen AtomVectors.Writes .initial (.ofAtoms c.atoms)) : c.InRange where
  written := written
  performs := AtomVectors.performs c.atoms
  stores := c.clauses.putAt_eq
  order := c.theories.schedule.orderAt_eq
  bump := c.theories.schedule.bumpAt_eq
  members i inOrder := by
    have inside : i < c.theories.members.length := h.standings ▸ Schedule.mem_order.mp inOrder
    have found := List.getElem?_eq_getElem inside
    exact ⟨_, found, found ▸ TheoryVectors.memberAt_ofRegistry c.theories i⟩
  level_lt := opened.level_lt h
  atMost m member t isTheory := by
    obtain ⟨i, found⟩ := List.mem_iff_getElem?.mp member
    obtain ⟨root, isBuilt, stems, _⟩ := watched i m found
    have recalls := stems.recalls isBuilt
    cases root with
    | inl root =>
      obtain ⟨u, same, made⟩ := stems.log_eq_inl isBuilt
      cases isTheory.symm.trans same
      rw [isTheory] at recalls
      replace recalls : AtMost.Recalls root ((c.theories.heard i).filter root.keeps) t := recalls
      have level : t.log.level = (c.theories.heard i).level := by
        rw [LevelLog.level, recalls.log, LevelStack.level_filter]
      have entries : t.log.entries.Sublist (c.theories.heard i).entries := by
        rw [LevelLog.entries, recalls.log, LevelStack.entries_filter]
        exact List.filter_sublist
      have bounds := told.log_lt h opened found level entries
      exact LevelLog.inRange_of_run made bounds.1 bounds.2
    | inr root =>
      rw [isTheory] at recalls
      exact recalls.elim
  reachability m member t isTheory := by
    obtain ⟨i, found⟩ := List.mem_iff_getElem?.mp member
    obtain ⟨root, isBuilt, stems, _⟩ := watched i m found
    have recalls := stems.recalls isBuilt
    cases root with
    | inl root =>
      rw [isTheory] at recalls
      exact recalls.elim
    | inr root =>
      obtain ⟨u, same, made⟩ := stems.log_eq_inr isBuilt
      cases isTheory.symm.trans same
      rw [isTheory] at recalls
      replace recalls : Reachability.Recalls root (c.theories.heard i) t := recalls
      have level : t.log.level = (c.theories.heard i).level := congrArg LevelStack.level recalls.log
      have entries : t.log.entries = (c.theories.heard i).entries := congrArg LevelStack.entries recalls.log
      have bounds := told.log_lt h opened found level (entries ▸ .refl _)
      refine ⟨LevelLog.inRange_of_run made bounds.1 bounds.2, Reachability.inRange ?_ ?_⟩
      · rw [recalls.graph]
        exact isBuilt.1.wellFormed
      · rw [recalls.graph, recalls.source]
        exact isBuilt.1.inside

end Contexts

end SatModulo
