import SatModulo.Proofs.LazyReasons

/-!
# Accusations

An error accuses a theory if it says that a conflict which the theory gave is not false, or that a reason is
none. Only operations that give theories a turn, or ask for reasons, can end so; all others spare theories
(`Procedure.Spares`). Where every theory can account for what it does (`Context.Accounted`), what a search
could hold against one does not come about, so no command of a run accuses a theory.
-/
namespace SatModulo

open Constraint

variable {σ α β ε : Type}

/-- An error accuses a theory of a conflict that is not false, or of a reason that explains nothing. -/
def Error.Accuses : Error → Prop
  | .theory (.unfalsifiedConflict _) | .theory (.malformedReason _) => True
  | _ => False

/-- Whatever a procedure comes to on a context, it accuses no theory. -/
def Procedure.Spares (p : Procedure σ α) (c : Context σ) : Prop :=
  p.Ensures c fun result _ => ∀ e, result = .error e → ¬e.Accuses

/-! ### Operations that ask for nothing -/

namespace Procedure

namespace Spares

variable {c : Context σ} {p : Procedure σ α} {next : α → Procedure σ β}

theorem bind (first : p.Spares c) (rest : ∀ a after, (next a).Spares after) : (p >>= next).Spares c :=
  Ensures.bind first (fun e _ spared => fun _ same => by cases same; exact spared e rfl)
    fun a after _ => rest a after

theorem pure {a : α} : (Pure.pure a : Procedure σ α).Spares c := Ensures.pure nofun

theorem throw {e : Error} (innocent : ¬e.Accuses) : (MonadExcept.throw e : Procedure σ α).Spares c :=
  Ensures.throw fun _ same => by cases same; exact innocent

theorem throw_bind {e : Error} (innocent : ¬e.Accuses) :
    ((MonadExcept.throw e : Procedure σ α) >>= next).Spares c :=
  Ensures.throw_bind fun _ same => by cases same; exact innocent

theorem get_bind {next : Context σ → Procedure σ β} (rest : (next c).Spares c) :
    ((get : Procedure σ (Context σ)) >>= next).Spares c :=
  rest

theorem modify {f : Context σ → Context σ} : (modify f : Procedure σ Unit).Spares c := Ensures.modify nofun

theorem ofFaulty {x : Except Fault α} : (Procedure.ofFaulty x : Procedure σ α).Spares c :=
  Ensures.ofFaulty fun _ _ => nofun

theorem ofExcept {wrap : ε → Error} {x : Except ε α} (innocent : ∀ e, x = .error e → ¬(wrap e).Accuses) :
    (Procedure.ofExcept wrap x : Procedure σ α).Spares c :=
  Ensures.ofExcept (fun e failed _ same => by cases same; exact innocent e failed) fun _ _ => nofun

end Spares

variable {c : Context σ}

theorem chance_spares (p : Float) : (chance p : Procedure σ Bool).Spares c :=
  .get_bind (.bind .ofFaulty fun _ _ => .bind .modify fun _ _ => .pure)

theorem freshAtom_spares : (freshAtom : Procedure σ Atom).Spares c := by
  refine .get_bind (.bind (chance_spares _) fun previous _ => .get_bind ?_)
  exact .bind (.ofExcept fun _ _ => id) fun _ _ => .bind .modify fun _ _ => .bind .modify fun _ _ => .pure

theorem freshLiterals_spares (n : Nat) : (freshLiterals n : Procedure σ (List Literal)).Spares c := by
  induction n generalizing c with
  | zero => exact .pure
  | succ n ih =>
    refine .bind ?_ fun a after => .bind ih fun _ _ => .pure
    exact Ensures.tryCatch freshAtom_spares (fun _ _ _ => nofun) fun _ _ _ => .pure nofun

theorem freshAtoms_spares (n : Nat) : (freshAtoms n : Procedure σ Unit).Spares c := by
  induction n generalizing c with
  | zero => exact .pure
  | succ n ih => exact .bind freshAtom_spares fun _ _ => ih

theorem ensureAtom_spares (a : Atom) : (ensureAtom a : Procedure σ Unit).Spares c :=
  .get_bind (freshAtoms_spares _)

theorem ensureAtoms_spares (clause : Clause) : (ensureAtoms clause : Procedure σ Unit).Spares c := by
  induction clause generalizing c with
  | nil => exact .pure
  | cons l rest ih => exact .bind (ensureAtom_spares l.atom) fun _ _ => ih

theorem assign_spares (l : Literal) (reason : Reason) : (assign l reason : Procedure σ Status).Spares c :=
  .get_bind (.bind (.ofExcept fun _ _ => id) fun _ _ => .bind .modify fun _ _ => .pure)

/-- No theory is called while a clause is added, so none is accused. -/
theorem addClause_spares (clause : Clause) : (addClause clause : Procedure σ ClauseOutcome).Spares c := by
  unfold addClause
  refine .get_bind ?_
  dsimp only
  split
  · exact .throw_bind id
  · refine .bind (ensureAtoms_spares clause) fun _ _ => .bind .ofFaulty fun normal _ => ?_
    split
    · exact .pure
    · exact .bind .modify fun _ _ => .pure
    · refine .get_bind (.get_bind (.bind (.ofExcept fun _ _ => id) fun _ _ => .bind .modify fun _ _ =>
        .bind .modify fun _ _ => ?_))
      split
      · exact .bind (assign_spares _ _) fun _ _ => .pure
      · exact .bind .modify fun _ _ => .pure
      · exact .pure

variable [Theory σ]

theorem addTheory_spares (theory : σ) : (addTheory theory).Spares c := by
  unfold addTheory
  refine .get_bind ?_
  dsimp only
  split
  · exact .throw_bind id
  · rcases registered : c.theories.register theory with ⟨outcome, theories⟩
    refine .bind .modify fun _ _ => .bind (.ofExcept ?_) fun _ _ => .bind .modify fun _ _ => .pure
    rintro e rfl
    unfold Registry.register at registered
    dsimp only at registered
    split at registered
    · cases registered
      exact id
    · split at registered <;> cases registered
      exact id

theorem observe_spares (i : Nat) (a : Atom) : (observe i a : Procedure σ Unit).Spares c := by
  unfold observe
  refine .get_bind ?_
  dsimp only
  split
  · exact .throw_bind id
  · split
    · exact .throw_bind id
    · refine .bind (.ofExcept fun e failed => ?_) fun (isNew, _) _ => .bind .modify fun _ _ => ?_
      · unfold Registry.observe at failed
        split at failed
        · cases failed
          exact id
        · split at failed <;> cases failed
      · dsimp only
        split
        · exact .bind .ofFaulty fun _ _ => .modify
        · exact .pure

omit [Theory σ] in
/-- Standings are changed of known theories only. -/
theorem modifySchedule_spares (i : Nat) (f : Standing Activity → Standing Activity) :
    (do
      let schedule ← ofExcept .theory (c.theories.schedule.modify i f)
      setTheories { c.theories with schedule } : Procedure σ Unit).Spares c := by
  refine .bind (.ofExcept fun e failed => ?_) fun _ _ => .modify
  unfold Schedule.modify at failed
  split at failed <;> cases failed
  exact id

theorem applyDecision_spares (l : Literal) (proposer : Option (Nat × Option Marker)) :
    (applyDecision l proposer : Procedure σ Unit).Spares c := by
  refine .bind (.get_bind (.bind .ofFaulty fun _ _ => .modify)) fun _ _ => .get_bind ?_
  exact .bind .ofFaulty fun _ _ => .bind .modify fun _ _ => .bind .modify fun _ _ =>
    .bind (assign_spares l .decision) fun _ _ => .bind .modify fun _ _ => .modify

theorem preprocess_spares : (preprocess : Procedure σ Unit).Spares c :=
  .get_bind (.bind .ofFaulty fun _ _ => .modify)

theorem backjump_spares (level : Nat) : (backjump level : Procedure σ Unit).Spares c := by
  refine .get_bind ?_
  dsimp only
  split
  · exact .bind .ofFaulty fun _ _ => .bind .ofFaulty fun _ _ => .bind .modify fun _ _ => .modify
  · exact .pure

omit [Theory σ] in
theorem checkEach_spares {check : Atoms → σ → Except Fault Bool} {call : Bool → Call}
    {error : Nat → TheoryError}
    (innocent : ∀ i, ¬(Error.theory (error i)).Accuses) (indices : List Nat) :
    (checkEach check call error indices : Procedure σ Unit).Spares c := by
  induction indices generalizing c with
  | nil => exact .pure
  | cons i rest ih =>
    refine .get_bind (.bind .ofFaulty fun _ _ => .bind .modify fun _ _ => ?_)
    split
    · exact .throw (innocent i)
    · exact ih

theorem decideLiteral_spares (l : Literal) : (decideLiteral l : Procedure σ Unit).Spares c := by
  unfold decideLiteral
  refine .get_bind ?_
  dsimp only
  split
  · exact .throw_bind id
  · split
    · exact .throw_bind id
    · exact .bind preprocess_spares fun _ _ => applyDecision_spares l none

omit [Theory σ] in
theorem propagateUnits_spares : (propagateUnits : Procedure σ Unit).Spares c :=
  .get_bind (.bind .modify fun _ _ => .ofExcept fun _ _ => id)

end Procedure

/-! ### Theories that can account for what they do -/

section Accounting

variable [Theory σ] [Constraint σ] {c c' : Context σ} {taking : Intake σ}

/-- Every member stems from a theory that was built, which warrants all that it made true. -/
structure Context.Accounted (c : Context σ) : Prop where
  coherent : c.Coherent
  told : c.Told
  attributed : c.Attributed
  warranted : ∀ i m, c.theories.members[i]? = some m → ∃ root, IsBuilt root ∧ c.Warranted i root

theorem Context.Accounted.initial (settings : Settings) :
    (Context.ofSettings settings : Context σ).Accounted where
  coherent := .initial settings
  told := .initial settings
  attributed := .initial settings
  warranted i m found := by simp [Context.ofSettings, Registry.ofSettings] at found

variable [LawfulConstraint σ]

/-- What a theory makes true in a move it does at its turn, and so it warrants it. -/
theorem Move.accounted (move : Move taking c c') (kinds : ∀ theory, taking.theory theory → IsBuilt theory)
    (accounted : c.Accounted) : c'.Accounted where
  coherent := move.coherent accounted.coherent
  told := Moves.told (.single move) accounted.coherent accounted.told
  attributed := Context.Step.attributed (.inl move) accounted.coherent accounted.attributed
  warranted i m' found' := by
    rcases Nat.lt_or_ge i c.theories.members.length with inside | beyond
    · obtain ⟨root, isBuilt, warranted⟩ := accounted.warranted i _ (List.getElem?_eq_getElem inside)
      exact ⟨root, isBuilt, move.warranted isBuilt accounted.coherent accounted.told warranted⟩
    · -- The member is new, so nothing was made true for its reason.
      have rooted : c.Rooted IsBuilt := fun i m found => by
        obtain ⟨root, isBuilt, ⟨n, stems⟩, _⟩ := accounted.warranted i m found
        obtain rfl : n = m := Option.some.inj (stems.1.symm.trans found)
        exact ⟨root, isBuilt, stems⟩
      obtain ⟨root, isBuilt, stems⟩ := move.rooted accounted.told kinds rooted i m' found'
      refine ⟨root, isBuilt, ⟨m', stems⟩, fun l level marker assigned => ?_⟩
      rcases move.assignment_of_theory accounted.coherent assigned with before | ⟨m, _, _, _, _, _, found, _⟩
      · exact absurd (accounted.attributed l level i marker before) (Nat.not_lt.mpr beyond)
      · exact absurd (List.getElem?_eq_some_iff.mp found).1 (Nat.not_lt.mpr beyond)

theorem Moves.accounted (moves : Moves taking c c') (kinds : ∀ theory, taking.theory theory → IsBuilt theory)
    (accounted : c.Accounted) : c'.Accounted := by
  induction moves with
  | refl => exact accounted
  | tail _ move ih => exact move.accounted kinds ih

theorem Course.accounted (course : Course taking c c')
    (kinds : ∀ theory, taking.theory theory → IsBuilt theory) (accounted : c.Accounted) : c'.Accounted := by
  rcases course with moves | ⟨mid, moves, refuted⟩
  · exact Moves.accounted moves kinds accounted
  · have before := Moves.accounted moves kinds accounted
    obtain ⟨atoms, theories⟩ := refuted.frame
    refine ⟨refuted.coherent before.coherent, refuted.told before.told, ?_, fun i m found => ?_⟩
    · rw [Context.Attributed, atoms, theories]
      exact before.attributed
    · rw [theories] at found
      obtain ⟨root, isBuilt, warranted⟩ := before.warranted i m found
      exact ⟨root, isBuilt, theories ▸ warranted.stems, atoms ▸ theories ▸ warranted.warrants⟩

variable [Accountable σ]

namespace Context.Accounted

variable {start : Context σ}

/-- A search holds nothing against theories that can account for what they do. -/
theorem not_accuses (accounted : start.Accounted) {e : Error} (blames : start.Blames e) : ¬e.Accuses := by
  cases blames with
  | unfalsified c reached i m found turn call kind flushed theory origin clause atoms ran unfalsified =>
    have later := Moves.accounted reached (fun _ => False.elim) accounted
    obtain ⟨root, isBuilt, ⟨m', stems⟩, _⟩ := later.warranted i m found
    obtain rfl : m' = m := Option.some.inj (stems.1.symm.trans found)
    have delivered := later.told.delivered i m' found
    have falsified := Accountable.conflicts isBuilt (stems.recalls_flushed isBuilt origin)
      (delivered.areFacts later.coherent.supports.atoms) later.coherent.supports.atoms
      (fun l fact => delivered.subset fact) kind i _ _ ran clause rfl
    have isFalse : clause.falsifiedOn atoms.value = true := List.all_eq_true.mpr fun l member =>
      beq_iff_eq.mpr (Literal.statusOn_eq_different.mpr (falsified l member))
    rw [isFalse] at unfalsified
    cases unfalsified
  | malformed c reached l onTrail i marker reasoned m found reason theory answered unexplained =>
    have later := Moves.accounted reached (fun _ => False.elim) accounted
    obtain ⟨root, isBuilt, warranted⟩ := later.warranted i m found
    obtain ⟨level, given, assigned⟩ := later.coherent.supports.atoms.mem_literals_iff.mp onTrail
    rw [Atoms.reasonOf, assigned] at reasoned
    cases reasoned
    obtain ⟨clause, _, gives⟩ := warranted.exists_reason isBuilt later.coherent later.told assigned
    obtain ⟨⟨n, t', found', answered'⟩, member, earlier, order, others⟩ :=
      gives c later.coherent later.told warranted assigned (.refl _ _)
    obtain rfl : n = m := Option.some.inj (found'.symm.trans found)
    rw [answered] at answered'
    cases answered'
    exact absurd ⟨earlier, order, member, fun k inside other => .inl (others k inside other).1⟩ unexplained
  | unpropagated => exact id
  | unsolved => exact id
  | full => exact id

/-- What a part of a search fails for is no accusation. -/
theorem spares {α : Type} {p : Procedure σ α} (accounted : c.Accounted) (excused : p.Excused c c) :
    p.Spares c := by
  intro result after ran e failed
  unfold Procedure.Excused Procedure.Ends at excused
  rw [ran] at excused
  exact accounted.not_accuses (excused e failed)

end Context.Accounted

/-! ### Commands -/

namespace Procedure

/-- A theory that is asked for consequences, or that there is no theory to ask. -/
theorem propagateTheory_spares (accounted : c.Accounted) (i : Nat) :
    (propagateTheory i : Procedure σ (Option Conflict)).Spares c := by
  by_cases known : i < c.theories.members.length
  · exact accounted.spares (takeTurn_excused .refl .propagate known)
  · refine Ensures.get_bind (.ofFaulty_bind fun (outcome, theories) taken => ?_)
    rw [Registry.changeAt, List.getElem?_eq_none (Nat.not_lt.mp known)] at taken
    cases taken
    exact Spares.throw id

/-- A conflict of a final turn is false, so none is held against its theory. -/
theorem finalCheck_spares (accounted : c.Accounted) : (finalCheck : Procedure σ FinalCheck).Spares c := by
  have delivers : (deliverAll : Procedure σ Unit).Spares c := .get_bind (.bind .ofFaulty fun _ _ => .modify)
  refine Ensures.bind (delivers.both deliverAll_leads) (fun e _ spared => fun _ same => ?_) ?_
  · cases same
    exact spared.1 e rfl
  · rintro _ mid ⟨_, draws, _⟩
    replace accounted : mid.Accounted := Moves.accounted (Draws.moves draws : Moves {} c mid) nofun accounted
    refine Spares.get_bind (.bind (accounted.spares (solveEach_excused .refl _ fun i =>
      accounted.coherent.mem_order.mp)) fun outcome solved => ?_)
    split
    · split
      · exact .bind (.get_bind (checkEach_spares (fun _ => id) _)) fun _ _ => .pure
      · exact .pure
    · exact .pure

end Procedure

/-- No command accuses a theory where all can account for what they do. -/
theorem Command.spares (accounted : c.Accounted) (opened : c.Opened) (command : Command σ) {told : Bool}
    (allowed : command.IsPublic told) (kept : Option Conflict)
    (recovers : command = .recover → ∀ conflict, kept = some conflict → c.Conflicting conflict) :
    (command.procedure kept).Spares c := by
  have answers {α : Type} {p : Procedure σ α} {f : α → Answer} (spared : p.Spares c) :
      (p >>= fun a => pure (f a)).Spares c := .bind spared fun _ _ => .pure
  have h := accounted.coherent
  cases command with
  | freshAtom => exact answers Procedure.freshAtom_spares
  | freshLiterals count => exact answers (Procedure.freshLiterals_spares count)
  | ensureAtom a => exact answers (Procedure.ensureAtom_spares a)
  | addClause clause => exact answers (Procedure.addClause_spares clause)
  | addTheory theory => exact answers (Procedure.addTheory_spares theory)
  | observe i a => exact answers (Procedure.observe_spares i a)
  | setPriority i priority => exact answers (.get_bind (Procedure.modifySchedule_spares i _))
  | setActivity i activity => exact answers (.get_bind (Procedure.modifySchedule_spares i _))
  | changeSetting change =>
    exact .get_bind (.bind (.ofExcept fun _ _ => id) fun _ _ => .bind .modify fun _ _ => .pure)
  | preprocess => exact answers Procedure.preprocess_spares
  | decideLiteral l => exact answers (Procedure.decideLiteral_spares l)
  | makeDecision => exact answers (accounted.spares (Procedure.makeDecision_excused h accounted.told .refl))
  | propagateUnits => exact answers Procedure.propagateUnits_spares
  | propagate => exact answers (accounted.spares (Procedure.propagate_excused h .refl))
  | propagateTheory i => exact answers (Procedure.propagateTheory_spares accounted i)
  | finalCheck => exact answers (Procedure.finalCheck_spares accounted)
  | recover =>
    cases kept with
    | none => exact .pure
    | some conflict =>
      exact answers (accounted.spares (Procedure.recover_excused h opened .refl (recovers rfl conflict rfl)))
  | recoverFrom conflict => exact allowed.elim
  | analyse clause => exact allowed.elim
  | backjump level => exact answers (Procedure.backjump_spares level)
  | clearDecisions =>
    refine answers (.bind (Procedure.backjump_spares 0) fun _ _ => .get_bind ?_)
    split
    · exact .modify
    · exact .pure
  | checkPropagated => exact answers (.get_bind (Procedure.checkEach_spares (fun _ => id) _))
  | checkSolved => exact answers (.get_bind (Procedure.checkEach_spares (fun _ => id) _))
  | solve => exact answers (accounted.spares (Procedure.solve_excused h opened accounted.told))

namespace PublicRun

variable {settings : Settings} {events : List (Event σ)} {s : Session σ}

omit [Accountable σ] in
/-- Along a run of theories that were built, all of them can account for what they did. -/
theorem accounted (run : PublicRun settings events s)
    (built : ∀ e ∈ events, ∀ theory, e.Registers theory → IsBuilt theory) : s.context.Accounted := by
  induction run with
  | start => exact .initial settings
  | @step events s earlier command allowed result s' taken ih =>
    refine (earlier.ran_step allowed taken).course.accounted ?_ (ih fun e member => built e ?_)
    · rintro theory ⟨i, given, answered⟩
      exact built _ (List.mem_append_right _ (.head _)) theory ⟨given, i, answered⟩
    · exact List.mem_append_left _ member

/-- No command of a run of theories that were built accuses one of them. -/
theorem not_accuses (run : PublicRun settings events s)
    (built : ∀ e ∈ events, ∀ theory, e.Registers theory → IsBuilt theory) {e : Event σ} (member : e ∈ events)
    {cause : Error} (failed : e.result = .error cause) : ¬cause.Accuses := by
  obtain ⟨earlier, later, rfl⟩ := List.append_of_mem member
  have upTo := run.through
  obtain ⟨before, _, _⟩ := upTo.of_concat
  have accounted := before.accounted fun e member => built e (List.mem_append_left _ member)
  exact upTo.ensured (fun _ allowed => e.command.spares accounted before.opened allowed e.before.kept)
    cause failed

end PublicRun

end Accounting

/-! ### Bounds and reachability -/

namespace PublicRun

section Reference

variable {τ : Type} [Theory τ] {settings : Settings} {events : List (Event (τ ⊕ (AtMost ⊕ Reachability)))}
  {s : Session (τ ⊕ (AtMost ⊕ Reachability))}

/-- The reason that a bound or a reachability gives for a literal, among theories of whatever type, stays the
same for as long as the literal is on the trail. It follows from the theory alone, and contains the literal and
otherwise only literals that were false before. Where there are no other theories, none is ever accused. -/
theorem lazy_reasons_stand (run : PublicRun settings events s) :
    (∀ e ∈ events, ∀ (root : AtMost ⊕ Reachability) (i : Nat), e.command = .addTheory (.inr root) →
      e.result = .ok (.theory i) → IsBuilt root →
      ∀ (before during after : List (Context (τ ⊕ (AtMost ⊕ Reachability)))) c (l : Literal) (marker : Marker),
        moments settings events = before ++ c :: during ++ after →
        c.atoms.reasonOf l.atom = some (.theory i marker) →
        (∀ mid ∈ c :: during, l ∈ mid.atoms.trail.literals) →
        ∃ clause : Clause, (∀ v, Models v root → clause.Holds v) ∧
          ∀ mid ∈ c :: during, mid.GivesReason i l marker clause) ∧
    ((∀ e ∈ events, ∀ theory, e.Registers theory → ∃ root, theory = .inr root ∧ IsBuilt root) →
      ∀ e ∈ events, ∀ i, e.result ≠ .error (.theory (.malformedReason i)) ∧
        e.result ≠ .error (.theory (.unfalsifiedConflict i))) := by
  let _ : Constraint τ := Constraint.unspoken τ
  have : LawfulConstraint τ := .unspoken
  have : Accountable τ := .unspoken
  constructor
  · intro e member root i given registered isBuilt before during after c l marker split reasoned stays
    have inFamily : IsBuilt (.inr root : τ ⊕ (AtMost ⊕ Reachability)) := isBuilt
    have moment : c ∈ moments settings events := by
      rw [split]
      exact List.mem_append_left _ (List.mem_append_right _ (.head _))
    obtain ⟨h, told, _⟩ := run.attributed_moments c moment
    obtain ⟨level, given', assigned⟩ := h.supports.atoms.mem_literals_iff.mp (stays c (.head _))
    rw [Atoms.reasonOf, assigned] at reasoned
    cases reasoned
    have warranted := run.warranted_moments member given registered inFamily moment assigned
    have chain := (run.isChain_moments fun _ _ _ _ => trivial).1
    rw [split, List.isChain_append, List.isChain_append] at chain
    exact Context.Passes.givesReason_of_isChain chain.1.2.1 inFamily h told warranted assigned fun mid later =>
      stays mid (.tail _ later)
  · intro only e member i
    have built : ∀ e ∈ events, ∀ theory, e.Registers theory → IsBuilt theory := by
      intro e member theory registers
      obtain ⟨root, rfl, isBuilt⟩ := only e member theory registers
      exact isBuilt
    have spared {cause : Error} (accuses : cause.Accuses) : e.result ≠ .error cause := fun failed =>
      run.not_accuses built member failed accuses
    exact ⟨spared trivial, spared trivial⟩

end Reference

/-- A reachability that an edge forces stays so while another edge is decided both ways. -/
theorem lazy_reasons_stand_beside_bound :
    ∃ (earlier later : List (Event (RuleTable ⊕ (AtMost ⊕ Reachability))))
      (e : Event (RuleTable ⊕ (AtMost ⊕ Reachability))) (s : Session (RuleTable ⊕ (AtMost ⊕ Reachability)))
      (clause : Clause),
      PublicRun {} (earlier ++ e :: later) s ∧
      (earlier ++ e :: later).map (·.command) = [.freshLiterals 5, .addClause [⟨5⟩, ⟨1⟩],
        .addTheory (.inr (.inl (.ofMembers [⟨1⟩, ⟨2⟩] 1))),
        .addTheory (.inr (.inr (((Reachability.ofNodes 3 0 1 5).addEdge ⟨0, 1, 3⟩).addEdge ⟨0, 2, 4⟩))),
        .observe 0 1, .observe 0 2, .observe 1 3, .observe 1 4, .observe 1 5, .decideLiteral ⟨3⟩, .propagate,
        .decideLiteral ⟨4⟩, .propagate, .backjump 1, .decideLiteral ⟨-4⟩, .propagate, .solve] ∧
      (∀ v, Models v (((Reachability.ofNodes 3 0 1 5).addEdge ⟨0, 1, 3⟩).addEdge ⟨0, 2, 4⟩) → clause.Holds v) ∧
      (∀ mid ∈ e.after.context :: later.flatMap Event.moments, mid.GivesReason 1 ⟨5⟩ 1 clause) ∧
      ∀ f ∈ earlier ++ e :: later, ∀ i, f.result ≠ .error (.theory (.malformedReason i)) ∧
        f.result ≠ .error (.theory (.unfalsifiedConflict i)) := by
  obtain ⟨earlier, e, later, s, run, first, propagates, others, checked⟩ :=
    of_events_any (σ := RuleTable ⊕ (AtMost ⊕ Reachability)) {} [.freshLiterals 5, .addClause [⟨5⟩, ⟨1⟩],
      .addTheory (.inr (.inl (.ofMembers [⟨1⟩, ⟨2⟩] 1))),
      .addTheory (.inr (.inr (((Reachability.ofNodes 3 0 1 5).addEdge ⟨0, 1, 3⟩).addEdge ⟨0, 2, 4⟩))),
      .observe 0 1, .observe 0 2, .observe 1 3, .observe 1 4, .observe 1 5, .decideLiteral ⟨3⟩]
    .propagate [.decideLiteral ⟨4⟩, .propagate, .backjump 1, .decideLiteral ⟨-4⟩, .propagate, .solve]
    (by simp [Command.IsPublic])
    (fun earlier e later _ => decide (earlier.map (·.result) = [.ok (.literals [⟨1⟩, ⟨2⟩, ⟨3⟩, ⟨4⟩, ⟨5⟩]),
        .ok (.clause (.added (.given 0))), .ok (.theory 0), .ok (.theory 1), .ok .done, .ok .done, .ok .done,
        .ok .done, .ok .done, .ok .done]) &&
      decide (e.after.context.atoms.reasonOf 5 = some (.theory 1 1)) &&
      (e.after.context :: later.flatMap Event.moments).all fun mid => decide (⟨5⟩ ∈ mid.atoms.trail.literals))
    (by decide +kernel)
  simp only [Bool.and_eq_true, decide_eq_true_eq, List.all_eq_true] at checked
  obtain ⟨⟨answered, reasoned⟩, stays⟩ := checked
  have commands := congrArg₂ (· ++ ·) first (congrArg₂ List.cons propagates others)
  rw [← List.map_cons, ← List.map_append] at commands
  obtain ⟨reach, member, given, registered⟩ : ∃ f ∈ earlier,
      f.command =
        .addTheory (.inr (.inr (((Reachability.ofNodes 3 0 1 5).addEdge ⟨0, 1, 3⟩).addEdge ⟨0, 2, 4⟩))) ∧
        f.result = .ok (.theory 1) :=
    Event.exists_of_mem_zip first answered (by simp)
  have isReach : IsBuilt (((Reachability.ofNodes 3 0 1 5).addEdge ⟨0, 1, 3⟩).addEdge ⟨0, 2, 4⟩) :=
    ⟨⟨3, 0, 1, 5, .latestFirst, [⟨0, 1, 3⟩, ⟨0, 2, 4⟩], rfl, by decide⟩, by decide⟩
  have isBound : IsBuilt (AtMost.ofMembers [⟨1⟩, ⟨2⟩] 1) := ⟨[⟨1⟩, ⟨2⟩], 1, rfl, by decide⟩
  have whole : moments {} (earlier ++ e :: later) =
      moments {} earlier ++ e.after.context :: later.flatMap Event.moments ++ [] := by
    have plain : e.moments = [e.after.context] := Event.moments_of_ne (by simp [propagates])
    rw [moments_append, List.flatMap_cons, plain, List.append_nil]
    rfl
  obtain ⟨reasons, spared⟩ := run.lazy_reasons_stand
  obtain ⟨clause, holds, gives⟩ := reasons reach (List.mem_append_left _ member) _ 1 given registered
    isReach _ _ _ _ ⟨5⟩ 1 whole reasoned stays
  refine ⟨earlier, later, e, s, clause, run, commands, holds, gives, spared fun f among theory registers => ?_⟩
  have given := registers.mem among commands
  simp only [List.mem_cons, List.cons_append, List.nil_append, reduceCtorEq, Command.addTheory.injEq,
    List.not_mem_nil, false_or, or_false] at given
  rcases given with rfl | rfl
  · exact ⟨_, rfl, isBound⟩
  · exact ⟨_, rfl, isReach⟩

/-- The positive literal of an atom beyond the range is read as a negative one of another, for which the
theory has no reason. -/
theorem malformedReason_beyond_range :
    ¬∀ (settings : Settings) (events : List (Event (AtMost ⊕ Reachability)))
      (s : Session (AtMost ⊕ Reachability)), PublicRun settings events s →
      (∀ e ∈ events, ∀ theory, e.Registers theory → Sum.elim AtMost.IsBuilt Reachability.IsBuilt theory) →
      ∀ e ∈ events, ∀ i, e.result ≠ .error (.theory (.malformedReason i)) ∧
        e.result ≠ .error (.theory (.unfalsifiedConflict i)) := by
  intro claimed
  obtain ⟨events, s, run, commands, checked⟩ := of_run_any (σ := AtMost ⊕ Reachability) {}
    [.freshLiterals 3, .addTheory (.inr (.ofNodes 1 0 0 4294967295)), .addClause [⟨1⟩, ⟨2⟩, ⟨-3⟩],
      .addClause [⟨1⟩, ⟨-2⟩, ⟨-3⟩], .decideLiteral ⟨3⟩, .propagate]
    (by simp [Command.IsPublic])
    (fun results s => decide (results = [.ok (.literals [⟨1⟩, ⟨2⟩, ⟨3⟩]), .ok (.theory 0),
        .ok (.clause (.added (.given 0))), .ok (.clause (.added (.given 1))), .ok .done,
        .ok (.conflict (.clause (.given 1)))]) &&
      (s.step .recover).toOption.any fun outcome : Except Error Answer × Session (AtMost ⊕ Reachability) =>
        decide (outcome.1 = .error (.theory (.malformedReason 0))))
    (by decide +kernel)
  rw [Bool.and_eq_true, decide_eq_true_eq] at checked
  obtain ⟨answered, recovers⟩ := checked
  cases taken : s.step .recover with
  | error cause =>
    rw [taken] at recovers
    cases recovers
  | ok outcome =>
    rw [taken] at recovers
    obtain ⟨result, s'⟩ := outcome
    have failed : result = .error (.theory (.malformedReason 0)) := of_decide_eq_true recovers
    have told : lastTold events = true := by
      rw [lastTold_eq answered]
      rfl
    have whole := run.step .recover told result s' taken
    refine (claimed {} _ s' whole ?_ _ (List.mem_append_right _ (.head _)) 0).1 failed
    intro e member theory registers
    rcases List.mem_append.mp member with early | last
    · have given := registers.mem early commands
      simp only [List.mem_cons, reduceCtorEq, Command.addTheory.injEq, List.not_mem_nil, false_or, or_false]
        at given
      subst given
      exact ⟨1, 0, 0, 4294967295, .latestFirst, [], rfl, by decide⟩
    · rw [List.mem_singleton] at last
      exact absurd registers.1 (by simp [last])

end PublicRun

end SatModulo
