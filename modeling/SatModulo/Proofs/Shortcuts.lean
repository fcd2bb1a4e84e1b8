import SatModulo.Proofs.Consulting
import SatModulo.Proofs.Families
import SatModulo.Proofs.Matching
import SatModulo.Proofs.ReliableCardinality
import SatModulo.Theories.RuleTable

/-!
# Shortcuts of at-most theories

A theory of at most so many true literals remembers at the base level that its bound cannot be exceeded, and has
nothing to draw from then on; and it hints that it is satisfied, so that it needs no turn in the final check. A
theory that looks at its facts at every turn takes neither shortcut (`AtMost.thorough`). When a theory hints that
it is satisfied, no extension of the trail exceeds its bound, and a look at its facts ends without a conflict and
changes nothing (`AtMost.IsAssured`); what it remembers it remembers for good (`Context.Remembers`). So propagation
does the same without the shortcuts, and the final check the same but for the account of calls
(`PublicRun.shortcuts_change_nothing`).
-/
namespace SatModulo

namespace AtMost

variable {root t t' : AtMost} {recalled heard : LevelStack Literal} {s : Atoms} {i : Nat}

/-- The theory, when it looks at its facts at every turn. -/
@[reducible]
def thorough : Theory AtMost :=
  { (inferInstance : Theory AtMost) with
    propagate := examine
    isSatisfied := fun _ => .ok false }

/-- So many members are false that a theory cannot be broken any more: whatever extends the trail satisfies it,
and a look at the facts finds nothing to say. -/
structure IsAssured (root t : AtMost) (i : Nat) (s : Atoms) : Prop where
  models : ∀ v, (∀ l ∈ s.trail.literals, l.Holds v) → root.Models v
  silent : t.examine.run i s = .ok ((none, t), s)

/-- Where false members leave room for no more than the bound, a look at the facts changes nothing. -/
theorem examine_of_falseMembers (proper : ∀ l ∈ t.members, l.atom ≠ topAtom) (facts : AreFacts t.log.entries)
    (coherent : s.Coherent) (onTrail : ∀ l ∈ t.log.entries, l ∈ s.trail.literals)
    (enough : t.members.length - t.bound ≤ (t.falseMembers t.log.entries).length) :
    t.examine.run i s = .ok ((none, t), s) := by
  obtain ⟨notMore, valued⟩ := valued_of_falseMembers proper facts enough
  have returns : t.examine.Returns i s fun outcome s' => outcome = (none, t) ∧ s' = s := by
    rw [examine_eq, if_neg (Nat.not_lt.mpr notMore)]
    split
    · exact .done ⟨rfl, rfl⟩
    · rename_i notLess
      refine falsify_of_false coherent i _ fun l kept => ?_
      obtain ⟨member, other⟩ := List.mem_filter.mp kept
      have isValued := valued.resolve_left notLess member
      have isFalse := (List.mem_append.mp isValued).resolve_left (of_decide_eq_true other)
      exact onTrail _ (mem_falseMembers.mp isFalse).1
  obtain ⟨outcome, s', ran, rfl, rfl⟩ := returns
  exact ran

/-- A theory hints that it is satisfied only if members that are false leave room for no more than the bound. -/
theorem Recalls.enough_of_hint (recalls : Recalls root recalled t) (hint : Theory.isSatisfied t = .ok true) :
    root.members.length - root.bound ≤ (root.falseMembers recalled.entries).length := by
  simp only [Theory.isSatisfied] at hint
  split at hint
  · rename_i known
    exact Nat.le_trans (recalls.satisfied known)
      (length_falseMembers_le (LevelStack.entriesAt_sublist recalled 0))
  · exact recalls.cannotExceed_eq_ok hint

/-- Facts of the trail that a theory recalls have negations, so its hint is no fault. -/
theorem exists_hint (facts : AreFacts t.log.entries) : ∃ answer, Theory.isSatisfied t = .ok answer := by
  simp only [Theory.isSatisfied]
  split
  · exact ⟨_, rfl⟩
  · unfold cannotExceed falseCount
    rw [Literal.negateAll?_of_le facts.inRange]
    exact ⟨_, rfl⟩

section Heard

variable (h : root.IsBuilt) (recalls : Recalls root (heard.filter root.keeps) t)

include recalls in
theorem Recalls.sublist_heard : t.log.entries.Sublist heard.entries := by
  rw [LevelLog.entries, recalls.log]
  rw [LevelStack.entries_filter]
  exact List.filter_sublist

include h recalls

/-- A theory that was told of facts of the trail, and hints that it is satisfied, is assured. -/
theorem isAssured_of_hint (facts : AreFacts heard.entries) (coherent : s.Coherent)
    (onTrail : ∀ l ∈ heard.entries, l ∈ s.trail.literals) (hint : Theory.isSatisfied t = .ok true) :
    root.IsAssured t i s := by
  have enough := recalls.enough_of_hint hint
  have sub := recalls.sublist_heard
  have entries : t.log.entries = (heard.filter root.keeps).entries := congrArg LevelStack.entries recalls.log
  refine ⟨fun v holds => ?_, ?_⟩
  · rw [← entries] at enough
    exact models_of_falseMembers h (facts.sublist sub).nodup (fun l fact => holds l (onTrail l (sub.subset fact)))
      enough
  · refine examine_of_falseMembers (fun l member => h.proper (recalls.members ▸ member)) (facts.sublist sub)
      coherent (fun l fact => onTrail l (sub.subset fact)) ?_
    rw [recalls.members, recalls.bound, falseMembers, recalls.trueMembers, entries]
    exact enough

end Heard

/-- Whatever a theory is called for, what it remembers stays so. -/
theorem satisfiedAtBase_of_answers {call : Call} (answered : Theory.Answers i t call t')
    (remembered : t.satisfiedAtBase = true) : t'.satisfiedAtBase = true := by
  have kept (same : t.SameState t') : t'.satisfiedAtBase = true := by
    rw [same]
    exact remembered
  cases answered with
  | enqueue _ l told =>
    simp only [Theory.enqueue] at told
    split at told
    · cases told
      exact remembered
    · obtain ⟨_, _, told⟩ := Except.bind_eq_ok told
      split at told <;> cases told <;> exact remembered
  | clearSatisfied _ cleared =>
    simp only [Theory.clearSatisfied] at cleared
    split at cleared
    · obtain ⟨_, _, cleared⟩ := Except.bind_eq_ok cleared
      split at cleared
      · cases cleared
        rfl
      · cases cleared
        exact remembered
    · cases cleared
      exact remembered
  | propagate _ s s' conflict ran => exact kept ((allows_turn .propagate).run ran).1.2
  | solve _ s s' conflict ran => exact kept ((allows_turn .solve).run ran).1.2
  | decide _ s proposal answered =>
    cases answered
    exact remembered
  | buildReason _ l marker reason answered =>
    obtain ⟨_, _, same⟩ := Except.bind_eq_ok answered
    cases same
    exact remembered
  | _ => exact remembered

theorem satisfiedAtBase_of_trace {calls : List Call} (trace : Theory.Trace i t calls t')
    (remembered : t.satisfiedAtBase = true) : t'.satisfiedAtBase = true := by
  induction trace with
  | nil => exact remembered
  | cons answered _ ih => exact ih (satisfiedAtBase_of_answers answered remembered)

end AtMost

section Family

variable {τ : Type} [Theory τ] {taking : Intake (τ ⊕ AtMost)} {c c' : Context (τ ⊕ AtMost)} {i : Nat}

/-- A theory of at most so many true literals remembers that its bound cannot be exceeded. -/
def Context.Remembers (c : Context (τ ⊕ AtMost)) (i : Nat) : Prop :=
  ∃ m t, c.theories.members[i]? = some m ∧ m.theory = .inr t ∧ t.satisfiedAtBase = true

/-- What is counted at the base level stays, as the base level is never taken back. -/
theorem Move.remembers (move : Move taking c c') (remembers : c.Remembers i) : c'.Remembers i := by
  obtain ⟨m, t, found, isTheory, remembered⟩ := remembers
  rcases move.called_or_registered with changes | ⟨theory, outcome, registered, _⟩
  · obtain ⟨m', own, found', _, called⟩ := changes.member i m found
    have trace := called.trace
    rw [isTheory] at trace
    obtain ⟨t', isTheory', traced⟩ := Theory.Embedding.inr.trace trace
    exact ⟨m', t', found', isTheory', AtMost.satisfiedAtBase_of_trace traced remembered⟩
  · refine ⟨m, t, ?_, isTheory, remembered⟩
    rcases Registry.register_eq registered with ⟨_, _, _, same, _⟩ | ⟨_, _, same⟩
    · rw [same]
      exact found
    · rw [same]
      exact (List.getElem?_append_left (List.getElem?_eq_some_iff.mp found).1).trans found

theorem Moves.remembers (moves : Moves taking c c') (remembers : c.Remembers i) : c'.Remembers i := by
  induction moves with
  | refl => exact remembers
  | tail _ move ih => exact move.remembers ih

theorem Course.remembers (course : Course taking c c') (remembers : c.Remembers i) : c'.Remembers i := by
  rcases course with moves | ⟨mid, moves, refuted⟩
  · exact Moves.remembers moves remembers
  · unfold Context.Remembers
    rw [refuted.frame.2]
    exact Moves.remembers moves remembers

/-- Hints are given, and where one is that a theory is satisfied, a look at the facts changes nothing. -/
def Context.HintsHold (c : Context (τ ⊕ AtMost)) : Prop :=
  ∀ (i : Nat) (m : Member (τ ⊕ AtMost)) (t : AtMost),
    c.theories.members[i]? = some m → m.theory = .inr t →
    (∃ answer, Theory.isSatisfied t = .ok answer) ∧
      (Theory.isSatisfied t = .ok true → t.examine.run i c.atoms = .ok ((none, t), c.atoms))

/-- Hints hold where the theories were told of the trail, and those of at most so many true literals stem from
ones that were built. -/
theorem Context.hintsHold (h : c.Coherent) (told : c.Told)
    (rooted : c.Rooted (Sum.elim (fun _ => True) AtMost.IsBuilt)) : c.HintsHold := by
  intro i m t found isTheory
  obtain ⟨theory, isKind, stems⟩ := rooted i m found
  have delivered := told.delivered i m found
  have facts := delivered.areFacts h.supports.atoms
  cases theory with
  | inl other =>
    obtain ⟨_, _, _, _, _, trace⟩ := stems
    obtain ⟨other', isOther, _⟩ := Theory.Embedding.inl.trace trace
    rw [isTheory] at isOther
    cases isOther
  | inr root =>
    obtain ⟨t', isTheory', recalls⟩ := stems.recalls_inr isKind
    rw [isTheory] at isTheory'
    cases isTheory'
    refine ⟨AtMost.exists_hint (facts.sublist (AtMost.Recalls.sublist_heard recalls)), fun hint => ?_⟩
    exact (AtMost.isAssured_of_hint isKind recalls facts h.supports.atoms (fun l fact => delivered.subset fact)
      hint).silent

/-! ### Without the shortcuts -/

/-- The theories of a family, when those of at most so many true literals look at their facts at every turn. -/
@[reducible]
def Theory.thorough (τ : Type) [Theory τ] : Theory (τ ⊕ AtMost) :=
  letI := AtMost.thorough
  inferInstance

namespace Procedure

/-- What a theory draws it draws without what it remembers, if that holds. -/
theorem run_propagate_thorough {u : τ ⊕ AtMost} {s : Atoms}
    (idle : ∀ t, u = .inr t → t.satisfiedAtBase = true → t.examine.run i s = .ok ((none, t), s)) :
    ((Theory.thorough τ).propagate u).run i s = (Theory.propagate u).run i s := by
  cases u with
  | inl other => rfl
  | inr t =>
    change (t.examine.inr).run i s = ((if t.satisfiedAtBase then pure (none, t) else t.examine).inr).run i s
    split
    · rename_i remembered
      unfold Turn.inr
      rw [Turn.run_andThen, Turn.run_andThen, idle t rfl remembered]
      rfl
    · rfl

/-- A turn that is cut short would have found nothing anyway. -/
theorem memberTurn_thorough {m : Member (τ ⊕ AtMost)} {s : Atoms}
    (idle : ∀ t, m.theory = .inr t → t.satisfiedAtBase = true → t.examine.run i s = .ok ((none, t), s)) :
    @memberTurn _ (Theory.thorough τ) i (Theory.thorough τ).propagate .propagate s m =
      memberTurn i Theory.propagate .propagate s m := by
  have flushed : ∀ t, (if m.capabilities.deferredEnqueue then Theory.flush s m.theory else m.theory) = .inr t →
      m.theory = .inr t := by
    intro t same
    rcases isTheory : m.theory with other | t'
    · rw [isTheory] at same
      split at same <;> cases same
    · rw [isTheory] at same
      split at same <;> exact same
  have same := run_propagate_thorough fun t isFlushed => idle t (flushed t isFlushed)
  unfold memberTurn
  dsimp only
  rw [← same]
  rfl

/-- Wherever hints hold, a turn of propagation is the same without the shortcuts. -/
theorem propagateTheory_thorough (hold : c.HintsHold) :
    c.run (@propagateTheory _ (Theory.thorough τ) i) = c.run (propagateTheory i) := by
  have same : c.theories.changeAt i
      (@memberTurn _ (Theory.thorough τ) i (Theory.thorough τ).propagate .propagate c.atoms) =
        c.theories.changeAt i (memberTurn i Theory.propagate .propagate c.atoms) := by
    unfold Registry.changeAt
    cases found : c.theories.members[i]? with
    | none => rfl
    | some m =>
      dsimp only
      rw [memberTurn_thorough fun t isTheory remembered =>
        (hold i m t found isTheory).2 (if_pos remembered)]
  unfold propagateTheory takeTurn
  change c.run (ofFaulty _ >>= _) = c.run (ofFaulty _ >>= _)
  rw [same]

theorem takeTurns_thorough (hold : ∀ c', Draws c c' → c'.HintsHold) (h : c.Coherent) (indices : List Nat)
    (assigned : Bool) :
    c.run (@takeTurns _ (Theory.thorough τ) indices assigned) = c.run (takeTurns indices assigned) := by
  induction indices generalizing c assigned with
  | nil => rfl
  | cons i rest ih =>
    refine run_get_bind_congr ?_
    refine run_bind_congr (propagateTheory_thorough (hold c .refl)) fun outcome turned ran => ?_
    have reached := (takeTurn_leads .propagate i _ _ ran).1
    have later {after : Context (τ ⊕ AtMost)} (draws : Draws turned after) (assigned : Bool) :
        after.run (@takeTurns _ (Theory.thorough τ) rest assigned) = after.run (takeTurns rest assigned) :=
      ih (fun c' further => hold c' (reached.trans (draws.trans further)))
        (Draws.coherent (reached.trans draws) h) assigned
    cases outcome with
    | some conflict => rfl
    | none =>
      refine run_get_bind_congr ?_
      split
      · refine run_bind_congr rfl fun found propagated ran => ?_
        have first := (propagateClauses_leads (Draws.coherent reached h) _ _ ran).1
        cases found with
        | some key => rfl
        | none =>
          refine run_bind_congr rfl fun _ told ran => ?_
          exact later (first.trans (deliverAll_leads _ _ ran).1) true
      · exact later .refl assigned

theorem roundsWithin_thorough (hold : ∀ c', Draws c c' → c'.HintsHold) (h : c.Coherent) (fuel : Nat) :
    c.run (@roundsWithin _ (Theory.thorough τ) fuel) = c.run (roundsWithin fuel) := by
  induction fuel generalizing c with
  | zero => rfl
  | succ fuel ih =>
    refine run_bind_congr rfl fun found propagated ran => ?_
    have first := (propagateClauses_leads h _ _ ran).1
    cases found with
    | some key => rfl
    | none =>
      refine run_bind_congr rfl fun _ told ran => ?_
      obtain ⟨second, _, delivered⟩ := deliverAll_leads _ _ ran
      replace second := first.trans second
      have coherent := Draws.coherent second h
      refine run_get_bind_congr (run_bind_congr ?_ fun outcome after ran => ?_)
      · exact takeTurns_thorough (fun c' draws => hold c' (second.trans draws)) coherent _ false
      · have third := (takeTurns_leads coherent delivered (Schedule.nodup_order _) false _ _ ran).1
        have reached := second.trans third
        cases outcome with
        | error conflict => rfl
        | ok grown =>
          cases grown with
          | false => rfl
          | true => exact ih (fun c' draws => hold c' (reached.trans draws)) (Draws.coherent reached h)

/-- Wherever hints hold, propagation does the same without the shortcuts. -/
theorem propagate_thorough (hold : ∀ c', Draws c c' → c'.HintsHold) (h : c.Coherent) :
    c.run (@propagate _ (Theory.thorough τ)) = c.run propagate :=
  run_get_bind_congr (run_bind_congr (roundsWithin_thorough hold h _) fun _ _ _ => rfl)

/-! ### The final check -/

/-- Without the shortcuts, a theory that would hint that it is satisfied has a turn at which nothing happens. -/
theorem run_solveEach_thorough {m : Member (τ ⊕ AtMost)} {t : AtMost} (found : c.theories.members[i]? = some m)
    (isTheory : m.theory = .inr t) (gives : m.capabilities.satisfactionHint = true)
    (idle : t.examine.run i c.atoms = .ok ((none, t), c.atoms)) {start : Nat}
    (notLonger : c.atoms.trail.length ≤ start) (rest : List Nat) :
    ∃ after : Context (τ ⊕ AtMost), after.unaccounted = c.unaccounted ∧
      c.run (@solveEach _ (Theory.thorough τ) start (i :: rest)) =
        after.run (@solveEach _ (Theory.thorough τ) start rest) := by
  have silent : ∃ calls, memberTurn i Theory.solve .solve c.atoms m = .ok ((none, c.atoms), m, calls) := by
    have same : { m with theory := .inr t } = m := by rw [← isTheory]
    rw [← same]
    exact memberTurn_of_own Theory.Embedding.inr.solve rfl rfl idle
  have refused : (Theory.thorough τ).isSatisfied m.theory = .ok false := by
    rw [isTheory]
    rfl
  obtain ⟨_, silent⟩ := silent
  obtain ⟨asked, ran, sameAsked⟩ := run_hintsSatisfied found gives refused
  obtain ⟨calls, rfl⟩ := Context.exists_calls sameAsked
  obtain ⟨turned, ran', sameTurned⟩ := run_takeTurn_of_silent
    (c := { c with theories := { c.theories with calls } }) found silent
  obtain ⟨calls', rfl⟩ := Context.exists_calls (c := c) sameTurned
  refine ⟨_, sameTurned, (run_bind_of_ran ran).trans ((run_bind_of_ran ran').trans ?_)⟩
  change Context.run _ (if _ then _ else _) = _
  rw [if_neg (Nat.not_lt.mpr notLonger)]

/-- Theories solve to the same end without the shortcuts: a theory that hints that it is satisfied has a turn for
nothing instead. -/
theorem solveEach_thorough (hold : ∀ c', Draws c c' → c'.HintsHold) (same : c'.unaccounted = c.unaccounted)
    {start : Nat} (notLonger : c.atoms.trail.length ≤ start) (indices : List Nat) :
    Matches (solveEach start indices) (@solveEach _ (Theory.thorough τ) start indices) c c' := by
  induction indices generalizing c c' with
  | nil => exact .pure same
  | cons i rest ih =>
    by_cases hinted : ∃ m t, c.theories.members[i]? = some m ∧ m.theory = .inr t ∧
        m.capabilities.satisfactionHint = true ∧ Theory.isSatisfied t = .ok true
    · obtain ⟨m, t, found, isTheory, gives, hint⟩ := hinted
      obtain ⟨calls, rfl⟩ := Context.exists_calls same
      have answered : Theory.isSatisfied m.theory = .ok true := by
        rw [isTheory]
        exact hint
      -- One context goes on after the hint, the other one after the turn.
      obtain ⟨asked, ran, sameAsked⟩ := run_hintsSatisfied found gives answered
      obtain ⟨turned, sameTurned, ran'⟩ := run_solveEach_thorough
        (c := { c with theories := { c.theories with calls } }) found isTheory gives
        ((hold c .refl i m t found isTheory).2 hint) notLonger rest
      obtain ⟨reached, atoms, _⟩ := hintsSatisfied_leads i _ _ ran
      refine .left_bind ran (.of_run ran' ?_)
      exact ih (fun c' draws => hold c' (reached.trans draws)) (sameTurned.trans sameAsked.symm) (by rwa [atoms])
    · refine .bind (hintsSatisfied_matches same fun m found gives => ?_) fun hint asked asked' ran same => ?_
      · rcases isTheory : m.theory with other | t
        · rfl
        · obtain ⟨answer, answered⟩ := (hold c .refl i m t found isTheory).1
          cases answer with
          | false => exact answered
          | true => exact absurd ⟨m, t, found, isTheory, gives, answered⟩ hinted
      · obtain ⟨reached, atoms, _⟩ := hintsSatisfied_leads i _ _ ran
        split
        · exact ih (fun c' draws => hold c' (reached.trans draws)) same (by rwa [atoms])
        · refine .bind (takeTurn_matches same _ _) fun outcome turned turned' ran same => ?_
          replace reached := reached.trans (takeTurn_leads .solve i _ _ ran).1
          cases outcome with
          | some conflict => exact .pure same
          | none =>
            obtain ⟨calls, rfl⟩ := Context.exists_calls same
            refine .get_bind ?_
            dsimp only
            split
            · exact .pure same
            · rename_i notLonger
              exact ih (fun c' draws => hold c' (reached.trans draws)) same (Nat.not_lt.mp notLonger)

/-- Wherever hints hold, the final check does the same without the shortcuts, but for the account. -/
theorem finalCheck_thorough (hold : ∀ c', Draws c c' → c'.HintsHold) :
    Matches finalCheck (@finalCheck _ (Theory.thorough τ)) c c := by
  refine .bind (q := @deliverAll _ (Theory.thorough τ)) rfl fun _ told told' ran same => ?_
  have reached := (deliverAll_leads _ _ ran).1
  obtain ⟨calls, rfl⟩ := Context.exists_calls same
  refine .get_bind (.bind ?_ fun outcome solved solved' ran same => ?_)
  · exact solveEach_thorough (fun c' draws => hold c' (reached.trans draws)) same (Nat.le_refl _) _
  · cases outcome with
    | satisfied =>
      dsimp only
      split
      · obtain ⟨calls, rfl⟩ := Context.exists_calls same
        refine .bind (.get_bind (checkEach_matches same _ _ _ _)) fun _ _ _ _ same => .pure same
      · exact .pure same
    | assigned => exact .pure same
    | conflict conflict => exact .pure same

end Procedure

/-- Wherever a run comes through, the shortcuts of a theory of at most so many true literals change nothing. If the
theory hints that it is satisfied, it is assured; what it remembered at any time before it still remembers, and
it will remember at any time after; and if all theories of its type are of literals that can be true or false,
propagation and the final check come to the same as when they take no shortcuts. -/
theorem PublicRun.shortcuts_change_nothing {settings : Settings} {events : List (Event (τ ⊕ AtMost))}
    {s : Session (τ ⊕ AtMost)} {e : Event (τ ⊕ AtMost)} {root : AtMost} {i : Nat}
    (run : PublicRun settings events s) (member : e ∈ events) (given : e.command = .addTheory (.inr root))
    (registered : e.result = .ok (.theory i)) (isBuilt : root.IsBuilt) {taking : Intake (τ ⊕ AtMost)}
    (reached : Moves taking s.context c) :
    (∃ m t, c.theories.members[i]? = some m ∧ m.theory = .inr t ∧
      (Theory.isSatisfied t = .ok true → root.IsAssured t i c.atoms)) ∧
    (∀ e ∈ events, ∀ mid, Course .any mid e.after.context → mid.Remembers i → c.Remembers i) ∧
    (∀ c', Course .any c c' → c.Remembers i → c'.Remembers i) ∧
    ((∀ e ∈ events, ∀ t, e.Registers (.inr t) → t.IsBuilt) →
      (∀ t, taking.theory (.inr t) → t.IsBuilt) →
      c.run Procedure.propagate = c.run (@Procedure.propagate _ (Theory.thorough τ)) ∧
      Procedure.Matches Procedure.finalCheck (@Procedure.finalCheck _ (Theory.thorough τ)) c c) := by
  have h : c.Coherent := Moves.coherent reached run.coherent.1
  have told : c.Told := Moves.told reached run.coherent.1 run.told
  refine ⟨?_, fun e member mid course remembers => ?_, fun c' course => course.remembers, ?_⟩
  · obtain ⟨m, t, found, isTheory, recalls⟩ :=
      run.recalls_of_registers member given registered isBuilt reached
    have delivered := told.delivered i m found
    have coherent := h.supports.atoms
    refine ⟨m, t, found, isTheory, fun hint => ?_⟩
    exact AtMost.isAssured_of_hint isBuilt recalls (delivered.areFacts coherent) coherent
      (fun l fact => delivered.subset fact) hint
  · have after := run.kept_of_after (p := (·.Remembers i)) (fun course => course.remembers) member
      (course.remembers remembers)
    exact Moves.remembers reached after
  · intro built kinds
    have rooted : s.context.Rooted (Sum.elim (fun _ => True) AtMost.IsBuilt) := by
      refine run.rooted fun e member theory registers => ?_
      cases theory with
      | inl other => trivial
      | inr t => exact built e member t registers
    have hold : ∀ c', Draws c c' → c'.HintsHold := by
      intro c' draws
      have all : Moves taking s.context c' := reached.trans draws.moves
      refine Context.hintsHold (Draws.coherent draws h) (Moves.told (draws.moves : Moves taking c c') h told)
        (Moves.rooted all run.coherent.1 run.told (fun theory taken => ?_) rooted)
      cases theory with
      | inl other => trivial
      | inr t => exact kinds t taken
    exact ⟨(Procedure.propagate_thorough hold h).symm, Procedure.finalCheck_thorough hold⟩

end Family

/-- A theory remembers from an aborted search that its first literal is false, and takes no more turns. The facts
that it is told of after all decisions were cleared change nothing of that. -/
theorem shortcuts_after_aborted_search :
    ∃ (events : List (Event (RuleTable ⊕ AtMost))) (s : Session (RuleTable ⊕ AtMost)) (table : RuleTable)
      (root : AtMost), PublicRun {} events s ∧ root = .ofMembers [⟨1⟩, ⟨2⟩] 1 ∧
      events.map (·.command) = [.freshLiterals 3, .addTheory (.inl table), .addTheory (.inr root), .observe 0 3,
        .observe 1 1, .observe 1 2, .addClause [⟨-1⟩], .solve, .clearDecisions, .decideLiteral ⟨2⟩,
        .propagate] ∧
      s.context.atoms.trail.literals = [⟨-1⟩, ⟨2⟩] ∧
      (∃ m t, s.context.theories.members[1]? = some m ∧ m.theory = .inr t ∧ t.satisfiedAtBase = true ∧
        root.IsAssured t 1 s.context.atoms) ∧
      s.context.run Procedure.propagate = s.context.run (@Procedure.propagate _ (Theory.thorough RuleTable)) ∧
      Procedure.Matches Procedure.finalCheck (@Procedure.finalCheck _ (Theory.thorough RuleTable))
        s.context s.context := by
  let table : RuleTable :=
    { abilities := { decisions := true }
      rules := [{ premises := [⟨3⟩], conflict := some [⟨3⟩] }]
      proposals := [⟨⟨3⟩, none⟩] }
  obtain ⟨events, s, run, commands, checked⟩ := PublicRun.of_run_any (σ := RuleTable ⊕ AtMost) {}
    [.freshLiterals 3, .addTheory (.inl table), .addTheory (.inr (.ofMembers [⟨1⟩, ⟨2⟩] 1)), .observe 0 3,
      .observe 1 1, .observe 1 2, .addClause [⟨-1⟩], .solve, .clearDecisions, .decideLiteral ⟨2⟩,
      .propagate]
    (by simp [Command.IsPublic])
    (fun results s => decide (results = [.ok (.literals [⟨1⟩, ⟨2⟩, ⟨3⟩]), .ok (.theory 0),
        .ok (.theory 1), .ok .done, .ok .done, .ok .done, .ok (.clause (.added (.given 0))),
        .error (.theory (.unfalsifiedConflict 0)), .ok .done, .ok .done, .ok .fixpoint]) &&
      decide (s.context.atoms.trail.literals = [⟨-1⟩, ⟨2⟩]) &&
      s.context.theories.members[1]?.any fun m => m.theory.elim (fun _ => false) (·.satisfiedAtBase))
    (by decide +kernel)
  simp only [Bool.and_eq_true, decide_eq_true_eq, Option.any_eq_true] at checked
  obtain ⟨⟨answered, trail⟩, m, found, remembers⟩ := checked
  obtain ⟨e, member, given, registered⟩ : ∃ e ∈ events,
      e.command = .addTheory (.inr (.ofMembers [⟨1⟩, ⟨2⟩] 1)) ∧ e.result = .ok (.theory 1) :=
    Event.exists_of_mem_zip commands answered (by simp)
  have isBuilt : (AtMost.ofMembers [⟨1⟩, ⟨2⟩] 1).IsBuilt := ⟨_, _, rfl, by decide⟩
  obtain ⟨⟨m', t, found', isTheory, assured⟩, _, _, same⟩ := run.shortcuts_change_nothing
    member given registered isBuilt (.refl : Moves {} s.context s.context)
  obtain rfl : m' = m := Option.some.inj (found'.symm.trans found)
  rw [isTheory] at remembers
  have built : ∀ e ∈ events, ∀ t, e.Registers (.inr t) → t.IsBuilt := by
    intro e member t registers
    have given := registers.mem member commands
    simp only [List.mem_cons, reduceCtorEq, Command.addTheory.injEq, Sum.inr.injEq, List.not_mem_nil, or_false,
      false_or] at given
    exact given ▸ isBuilt
  exact ⟨events, s, table, _, run, rfl, commands, trail,
    ⟨m', t, found, isTheory, remembers, assured (if_pos remembers)⟩, same built nofun⟩

end SatModulo
