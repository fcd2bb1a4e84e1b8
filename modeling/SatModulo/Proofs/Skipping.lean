import SatModulo.Proofs.Conduct
import SatModulo.Proofs.Fixpoints
import SatModulo.Proofs.SelfChecks
import SatModulo.Proofs.Solutions

/-!
# What is lost by a skipped consequence

A theory is told once, when it is prepared, which literals occur in clauses (`Moves.reported`), and a
reachability leaves out a consequence of which it was told that it occurs in none
(`Reachability.mayOccur_of_skipped`). But what follows from a literal follows by the clauses in which its
opposite occurs. So whether anything is lost does not hang on the report: nothing follows from the literal
exactly if, once it is true, no clause is due in which the opposite of it, or of what was still to be
propagated, occurs (`PublicRun.follows_from_skipped_iff`).
-/
namespace SatModulo

variable {σ : Type}

/-! ### Clauses that lead to nothing -/

namespace ClauseStore

variable {store : ClauseStore} {s s' : Atoms}

/-- Clauses that are not due are passed over. -/
theorem visit_unforced {keys : List ClauseKey} (unforced : ∀ key ∈ keys, ∃ clause,
    store.get? key = some clause ∧ clause.stateOn s.value = .unforced) :
    store.visit keys s = (.ok (), s) := by
  induction keys with
  | nil => rfl
  | cons key rest ih =>
    obtain ⟨⟨clause, found, state⟩, others⟩ := List.forall_mem_cons.mp unforced
    unfold visit
    rw [found]
    dsimp only
    rw [state]
    exact ih others

/-- No clause is due in which the opposite of a literal past the head occurs. -/
def Idle (store : ClauseStore) (s : Atoms) : Prop :=
  ∀ l ∈ s.trail.literals.drop s.trail.head, ∀ key clause, store.get? key = some clause →
    l.negate ∈ clause → ¬clause.IsDue s.value

/-- Where no clause is due, propagation only moves the head. -/
theorem propagateWithin_of_idle (h : store.Supports s) (idle : store.Idle s) (fuel : Nat) :
    ∃ after, store.propagateWithin fuel s = (.ok (), after) ∧
      after.trail.literals = s.trail.literals := by
  induction fuel generalizing s with
  | zero => exact ⟨s, rfl, rfl⟩
  | succ fuel ih =>
    unfold propagateWithin
    split
    · exact ⟨s, rfl, rfl⟩
    · rename_i l next
      obtain ⟨inside, found⟩ := List.getElem?_eq_some_iff.mp next
      have pending : s.trail.literals.drop s.trail.head =
          l :: s.trail.literals.drop (s.trail.head + 1) := by
        rw [List.drop_eq_getElem_cons inside, found]
      have passed : store.visit (store.occurrences l.negate) s = (.ok (), s) := by
        refine visit_unforced fun key member => ?_
        obtain ⟨clause, stored, occurs⟩ := (h.indexed _ key).mp member
        refine ⟨clause, stored, ?_⟩
        by_contra decided
        exact idle l (pending ▸ .head _) key clause stored occurs
          ((Clause.isDue_iff (h.nodup stored)).mpr decided)
      rw [passed]
      have supports : store.Supports { s with trail := { s.trail with head := s.trail.head + 1 } } :=
        ⟨h.atoms.setHead inside, h.indexed, h.distinct, h.known, h.because⟩
      exact ih supports fun m late => idle m (pending ▸ .tail _ late)

theorem Propagates.value_eq (step : store.Propagates s s')
    (same : s'.trail.literals = s.trail.literals) : s'.value = s.value := by
  cases step with
  | force _ key clause l found forces made =>
    rw [Atoms.literals_assign made] at same
    simp at same
  | pass l next seen => rfl

/-- Propagation of clauses finds no conflict and makes nothing true exactly if no clause is due that it would
look at. -/
theorem propagate_unchanged_iff (h : store.Supports s) :
    (∃ after, store.propagate s = (.ok (), after) ∧ after.trail.literals = s.trail.literals) ↔
      store.Idle s := by
  constructor
  · rintro ⟨after, propagated, same⟩ l pending key clause stored occurs due
    obtain ⟨steps, ended⟩ := propagate_spec h propagated
    have grows : Relation.ReflTransGen store.Grows s after := steps.lift id fun _ _ => .units
    have value : after.value = s.value := by
      clear ended propagated due
      induction steps with
      | refl => rfl
      | @tail mid _ steps step ih =>
        have early := (growsAll_frame (steps.lift id fun _ _ => Grows.units)).1
        have late := (growsAll_frame (.single (Grows.units step))).1
        have between : mid.trail.literals = s.trail.literals :=
          (early.eq_of_length_le (same ▸ late.length_le)).symm
        exact (step.value_eq (same.trans between.symm)).trans
          (ih between (steps.lift id fun _ _ => .units))
    -- A clause that is still due at the end was missed at the start, but a literal to come leads to it.
    have decided : clause.stateOn after.value ≠ .unforced := by
      rw [value]
      exact (Clause.isDue_iff (h.nodup stored)).mp due
    have missed : after.Missed after.trail.head clause := by
      refine ⟨decided, fun m _ waiting => ?_⟩
      rw [show after.trail.head = after.trail.literals.length from ended, List.drop_length] at waiting
      cases waiting
    refine (h.missed_of_growsAll grows stored missed).2 _ occurs ?_
    rwa [Literal.negate_negate]
  · exact fun idle => propagateWithin_of_idle h idle _

end ClauseStore

/-- Nothing follows from a literal: it can be made true, and then propagation of clauses finds no conflict
and makes nothing else true. -/
def Context.NothingFollows (c : Context σ) (l : Literal) (reason : Reason) : Prop :=
  ∃ atoms after, c.atoms.assign l reason = .ok (.unset, atoms) ∧
    c.clauses.propagate atoms = (.ok (), after) ∧
    after.trail.literals = c.atoms.trail.literals ++ [l]

/-- Nothing follows from a literal exactly if no clause with the opposite of it, or of a literal past the head, is due
with it. -/
theorem Context.Coherent.nothingFollows_iff {c : Context σ} (h : c.Coherent) {l : Literal}
    (known : l.atom < c.atoms.count) (unset : c.valueOf l = none) {reason : Reason}
    (unbacked : ∀ key, reason ≠ .clause key) :
    c.NothingFollows l reason ↔
      ∀ m ∈ c.atoms.trail.literals.drop c.atoms.trail.head ++ [l], ∀ key clause,
        c.clauses.get? key = some clause → m.negate ∈ clause →
        ¬clause.IsDue (Function.update c.atoms.value l.atom (some l.polarity)) := by
  obtain ⟨atoms, made⟩ := Atoms.assign_of_unvalued reason known
    (Atoms.value_eq_none.mp (Literal.valueOn_eq_none.mp unset))
  have supports : c.clauses.Supports atoms := h.supports.assign made fun key same =>
    absurd same (unbacked key)
  have value : atoms.value = Function.update c.atoms.value l.atom (some l.polarity) := by
    funext a
    rw [Atoms.value_assign made, Function.update_apply]
  have pending : atoms.trail.literals.drop atoms.trail.head =
      c.atoms.trail.literals.drop c.atoms.trail.head ++ [l] := by
    rw [Atoms.literals_assign made, Atoms.head_assign made,
      List.drop_append_of_le_length h.supports.atoms.head_le]
  rw [← value, ← pending]
  refine Iff.trans ⟨?_, ?_⟩ (ClauseStore.propagate_unchanged_iff supports)
  · rintro ⟨atoms', after, made', propagated, same⟩
    obtain rfl : atoms' = atoms := by
      rw [made] at made'
      cases made'
      rfl
    exact ⟨after, propagated, same.trans (Atoms.literals_assign made).symm⟩
  · rintro ⟨after, propagated, same⟩
    exact ⟨atoms, after, made, propagated, same.trans (Atoms.literals_assign made)⟩

/-! ### Reports -/

theorem ClauseStore.Indexed.not_mem_of_occurs {store : ClauseStore} (h : store.Indexed) {l : Literal}
    (absent : store.occurs l = false) {key : ClauseKey} {clause : Clause}
    (found : store.get? key = some clause) : l ∉ clause := by
  intro member
  have named := (h l key).mpr ⟨clause, found, member⟩
  have none' : store.occurrences l = [] := by simpa [occurs] using absent
  rw [none'] at named
  cases named

variable [Theory σ]

namespace Member

variable {m m' : Member σ} {own : List Call}

omit [Theory σ] in
theorem observedLiterals_of_le (inRange : ∀ a ∈ m.observed, a ≤ maxAtom) :
    m.observedLiterals = .ok (m.observed.map fun a => [.on a true, .on a false]).flatten := by
  unfold observedLiterals
  rw [Except.mapM_of_ok (g := fun a => [Literal.on a true, .on a false]) fun a observed => by
    rw [Literal.ofAtom_of_le (inRange a observed), Literal.ofAtom_of_le (inRange a observed)]
    rfl]
  rfl

omit [Theory σ] in
theorem mem_observed_of_literals (inRange : ∀ a ∈ m.observed, a ≤ maxAtom) {literals : List Literal}
    (observed : m.observedLiterals = .ok literals) {l : Literal} (member : l ∈ literals) :
    l.atom ∈ m.observed := by
  rw [observedLiterals_of_le inRange] at observed
  cases observed
  simp only [List.mem_flatten, List.mem_map] at member
  obtain ⟨_, ⟨a, inside, rfl⟩, isLiteral⟩ := member
  simp only [List.mem_cons, List.not_mem_nil, or_false] at isLiteral
  rcases isLiteral with rfl | rfl <;> rwa [Literal.atom_on]

end Member

variable {c c' : Context σ} {taking : Intake σ} {i : Nat} {l : Literal} {occurring : Bool}

omit [Theory σ] in
/-- A report is new only if it is among the calls of a member. -/
theorem Registry.Changes.reported {effect : Nat → Member σ → Member σ → List Call → Prop}
    {r r' : Registry σ} (changes : Registry.Changes effect r r')
    (reported : .noteOccurs l occurring ∈ r'.account i) :
    .noteOccurs l occurring ∈ r.account i ∨
      ∃ m m' own, r.members[i]? = some m ∧ effect i m m' own ∧ .noteOccurs l occurring ∈ own := by
  rcases Nat.lt_or_ge i r.members.length with inside | beyond
  · obtain ⟨m', own, _, account, effected⟩ := changes.member i _ (List.getElem?_eq_getElem inside)
    rw [account] at reported
    exact (List.mem_append.mp reported).imp_right fun new =>
      ⟨_, m', own, List.getElem?_eq_getElem inside, effected, new⟩
  · rw [changes.absent i beyond] at reported
    exact .inl reported

/-- Going back to a level, theories are told of no occurrences. -/
theorem Registry.reported_retreat {r retracted r' : Registry σ} {level : Nat} {t : Trail}
    (undecided : r.retractAbove level = .ok retracted) (taken : retracted.backtrack level t = .ok r')
    (reported : .noteOccurs l occurring ∈ r'.account i) : .noteOccurs l occurring ∈ r.account i := by
  rcases (Registry.changeAll_eq_ok taken).1.reported reported with old | ⟨m, m', own, _, changed, new⟩
  · rcases (Registry.undecideAll_eq_ok undecided).1.reported old with older | ⟨m, m', own, _, told, new⟩
    · exact older
    · rw [told.own] at new
      simp [DecisionRecord.undone, Registry.callsOf] at new
  · simp only [Member.backtrack] at changed
    split at changed <;> cases changed <;> simp at new

/-- A theory is told of an occurrence only by what clauses there are, of an atom that is known. -/
theorem Draw.reported (draw : Draw c c') (h : c.Coherent) (told : c.Told)
    (reported : .noteOccurs l occurring ∈ c'.theories.account i) :
    .noteOccurs l occurring ∈ c.theories.account i ∨
      c.clauses.occurs l = occurring ∧ l.atom < c.atoms.count := by
  rcases draw.calls.reported reported with old | ⟨m, m', own, found, calls, new⟩
  · exact .inl old
  · cases calls _ new with
    | turn _ isTurn => exact isTurn.elim
    | question _ isQuestion => exact isQuestion.elim
    | noteOccurs _ literals observed member =>
      have known := told.known m (List.mem_of_getElem? found)
      have inRange : ∀ a ∈ m.observed, a ≤ maxAtom := fun a inside =>
        Nat.lt_succ_iff.mp (Nat.lt_of_lt_of_le (known a inside) h.supports.atoms.room)
      exact .inr ⟨rfl, known _ (Member.mem_observed_of_literals inRange observed member)⟩

/-- What is reported of the occurrences of a literal is so at the time of the report. -/
theorem Move.reported (move : Move taking c c') (h : c.Coherent) (told : c.Told)
    (reported : .noteOccurs l occurring ∈ c'.theories.account i) :
    .noteOccurs l occurring ∈ c.theories.account i ∨
      c.clauses.occurs l = occurring ∧ l.atom < c.atoms.count := by
  cases move with
  | draw move => exact move.reported h told reported
  | jump move =>
    cases move with
    | retreat level low retracted theories undecided taken =>
      exact .inl (Registry.reported_retreat undecided taken reported)
    | learn key k lower level clauses retracted theories atoms distinct falsified current low below tight
        entailed stored undecided taken made =>
      exact .inl (Registry.reported_retreat undecided taken reported)
  | decide allowed move =>
    cases move with
    | decide k proposer theories atoms delivered opened made =>
      refine .inl ?_
      have raised : .noteOccurs l occurring ∈ theories.account i := by
        cases proposer <;> exact reported
      rcases (Registry.changes_openLevel opened).1.reported raised with old | ⟨m, m', own, _, raised, new⟩
      · exact old
      · rw [raised.own] at new
        simp at new
  | build move =>
    cases move with
    | register theory outcome theories given base registered =>
      rcases Registry.account_register registered i with same | ⟨_, same⟩
      · exact .inl (same ▸ reported)
      · rw [same] at reported
        exact .inl (by simpa using reported)
    | observe j a base known m found new theory own inside late told =>
      refine .inl ?_
      rw [Registry.account_append_own, List.mem_append] at reported
      refine reported.resolve_right fun new => ?_
      split at new <;> simp at new
    | _ => exact .inl reported
  | settle phase before after => exact .inl reported
  | configure settings given => exact .inl reported

/-- What moves report of an atom that is known: a literal that is reported not to occur was in no clause that
was stored before them. -/
theorem Moves.reported (moves : Moves taking c c') (h : c.Coherent) (told : c.Told)
    (reported : .noteOccurs l false ∈ c'.theories.account i) :
    .noteOccurs l false ∈ c.theories.account i ∨
      l.atom < c'.atoms.count ∧ ∀ key clause, c.clauses.get? key = some clause → l ∉ clause := by
  induction moves with
  | refl => exact .inl reported
  | @tail mid _ moves move ih =>
    have h' := Moves.coherent moves h
    rcases move.reported h' (Moves.told moves h told) reported with old | ⟨absent, known⟩
    · exact (ih old).imp_right fun ⟨known, none'⟩ => ⟨Nat.lt_of_lt_of_le known move.count_le, none'⟩
    · refine .inr ⟨Nat.lt_of_lt_of_le known move.count_le, fun key clause found => ?_⟩
      exact h'.supports.indexed.not_mem_of_occurs absent (Moves.get?_clauses moves found)

namespace PublicRun

variable {settings : Settings} {events : List (Event σ)} {s : Session σ}

/-- What was reported to occur in no clause was in none when the report began. -/
theorem exists_report (run : PublicRun settings events s)
    (reported : .noteOccurs l false ∈ s.context.theories.account i) :
    l.atom < s.context.atoms.count ∧ ∃ e ∈ events,
      .noteOccurs l false ∉ e.before.context.theories.account i ∧
      .noteOccurs l false ∈ e.after.context.theories.account i ∧
      ∀ key clause, e.before.context.clauses.get? key = some clause → l ∉ clause := by
  induction run with
  | start => simp [Session.ofSettings, Context.ofSettings, Registry.ofSettings, Registry.account,
      Registry.callsOf] at reported
  | @step events s earlier command allowed result s' taken ih =>
    have ran := earlier.ran_step allowed taken
    by_cases old : .noteOccurs l false ∈ s.context.theories.account i
    · obtain ⟨known, e, member, report⟩ := ih old
      exact ⟨Nat.lt_of_lt_of_le known ran.course.count_le, e, List.mem_append_left _ member, report⟩
    · have new : l.atom < s'.context.atoms.count ∧
          ∀ key clause, s.context.clauses.get? key = some clause → l ∉ clause := by
        have moved := fun {mid} (moves : Moves (command.taking s.context result) s.context mid) found =>
          (Moves.reported moves earlier.coherent.1 earlier.told found).resolve_left old
        rcases ran.moves with moves | ⟨_, mid, moves, refuted⟩
        · exact moved moves reported
        · obtain ⟨atoms, theories⟩ := refuted.frame
          rw [atoms]
          exact moved moves (theories ▸ reported)
      exact ⟨new.1, _, List.mem_append_right _ (.head _), old, reported, new.2⟩

end PublicRun

/-! ### Skipped consequences -/

namespace Reachability

variable {t t' root : Reachability} {rest : Clause}

/-- A consequence counts as skipped only if the theory knows that it occurs in no clause. -/
theorem mayOccur_of_skipped {s s' : Atoms} {conflict : Option Clause}
    (drawn : t.consequence t.log.entries = .ok (some (l :: rest)))
    (ran : (t.examine true).run i s = .ok ((conflict, t'), s'))
    (skipped : t.counters.skipped < t'.counters.skipped) : t.mayOccur l = false := by
  by_contra occurs
  rw [Bool.not_eq_false] at occurs
  have allowed : (t.examine true).Allows (fun _ _ => True) fun outcome =>
      outcome.2.counters.skipped = t.counters.skipped := by
    unfold examine
    dsimp only
    rw [drawn]
    change Turn.Allows _ _ (if _ then _ else _)
    split
    · exact rfl
    · rw [if_neg (by simp [occurs])]
      refine ⟨trivial, fun status => ?_⟩
      rcases status with e | status
      · exact rfl
      · cases status <;> exact rfl
  exact absurd skipped (Nat.not_lt.mpr (Nat.le_of_eq (allowed.run ran).1))

theorem mem_occurs_of_mayOccur (absent : t.mayOccur l = false) : (l, false) ∈ t.occurs := by
  unfold mayOccur at absent
  cases found : t.occurs.find? (·.1 == l) with
  | none => simp [found] at absent
  | some entry =>
    obtain ⟨k, occurs⟩ := entry
    obtain rfl : k = l := by simpa using List.find?_some found
    obtain rfl : occurs = false := by simpa [found] using absent
    exact List.mem_of_find?_eq_some found

/-- What the theory knows of occurrences changes only by reports. -/
theorem mem_occurs_of_answers {call : Call} (answered : Theory.Answers i t call t')
    (known : (l, occurring) ∈ t'.occurs) : (l, occurring) ∈ t.occurs ∨ call = .noteOccurs l occurring := by
  cases answered with
  | noteOccurs k occurs =>
    rcases List.mem_cons.mp known with same | old
    · cases same
      exact .inr rfl
    · exact .inl old
  | enqueue _ k told =>
    cases told
    refine .inl ?_
    unfold settleProposal at known
    split at known
    · exact known
    · split at known
      · split at known <;> exact known
      · exact known
  | clearSatisfied _ cleared =>
    cases cleared
    exact .inl known
  | propagate _ s s' conflict ran =>
    rw [examine_kept ran] at known
    exact .inl known
  | solve _ s s' conflict ran =>
    rw [examine_kept ran] at known
    exact .inl known
  | decide _ s proposal answered =>
    rw [show t' = (t.proposal? s).2 from (congrArg Prod.snd answered).symm] at known
    unfold proposal? at known
    split at known <;> exact .inl known
  | buildReason _ k marker reason answered =>
    obtain ⟨clause, _, same⟩ := Except.bind_eq_ok answered
    cases same
    exact .inl known
  | _ => exact .inl known

theorem mem_occurs_of_trace {calls : List Call} (trace : Theory.Trace i t calls t')
    (known : (l, occurring) ∈ t'.occurs) : (l, occurring) ∈ t.occurs ∨ .noteOccurs l occurring ∈ calls := by
  induction trace with
  | nil => exact .inl known
  | cons answered _ ih =>
    rcases ih known with earlier | later
    · refine (mem_occurs_of_answers answered earlier).imp_right ?_
      rintro rfl
      exact .head _
    · exact .inr (.tail _ later)

theorem IsMade.occurs_eq_nil (made : root.IsMade) : root.occurs = [] := by
  obtain ⟨nodes, source, target, reach, listing, edges, rfl⟩ := made
  rw [foldl_addEdge]
  rfl

end Reachability

section Reference

variable {τ : Type} [Theory τ]

/-- At a turn of the theory of an index a literal without a value follows, and is left out: nothing is made
true, no conflict is found, and the theory counts one more consequence that it skipped. -/
def Context.Skips (c : Context (τ ⊕ Reachability)) (i : Nat) (l : Literal) : Prop :=
  ∃ m t t' rest, c.theories.members[i]? = some m ∧ m.theory = .inr t ∧
    t.consequence t.log.entries = .ok (some (l :: rest)) ∧
    (Theory.propagate t).run i c.atoms = .ok ((none, t'), c.atoms) ∧
    t.counters.skipped < t'.counters.skipped ∧ c.valueOf l = none

namespace PublicRun

variable {settings : Settings} {events : List (Event (τ ⊕ Reachability))} {s : Session (τ ⊕ Reachability)}

/-- A literal that a reachability skips was reported to occur in no clause, and was in none when the report
began. Whether something follows from it hangs on its opposite instead: nothing does exactly if, with the
literal true, no clause is due in which the opposite of it occurs, or of what was still to be propagated. -/
theorem follows_from_skipped_iff (run : PublicRun settings events s)
    (made : ∀ e ∈ events, ∀ t, e.Registers (.inr t) → t.IsMade) (skips : s.context.Skips i l)
    (reason : Reason) (unbacked : ∀ key, reason ≠ .clause key) :
    (∃ e ∈ events, .noteOccurs l false ∉ e.before.context.theories.account i ∧
      .noteOccurs l false ∈ e.after.context.theories.account i ∧
      ∀ key clause, e.before.context.clauses.get? key = some clause → l ∉ clause) ∧
    (s.context.NothingFollows l reason ↔
      ∀ m ∈ s.context.atoms.trail.literals.drop s.context.atoms.trail.head ++ [l], ∀ key clause,
        s.context.clauses.get? key = some clause → m.negate ∈ clause →
        ¬clause.IsDue (Function.update s.context.atoms.value l.atom (some l.polarity))) := by
  obtain ⟨m, t, t', rest, found, isReach, drawn, ran, skipped, unset⟩ := skips
  have known := Reachability.mem_occurs_of_mayOccur (Reachability.mayOccur_of_skipped drawn ran skipped)
  obtain ⟨e, member, theory, given, registered⟩ :=
    run.registered_of_lt (List.getElem?_eq_some_iff.mp found).1
  obtain ⟨n, stems⟩ := run.stems_of_registers member given registered
  obtain rfl : n = m := Option.some.inj (stems.1.symm.trans found)
  obtain ⟨_, refused, own, account, _, trace⟩ := stems
  rw [isReach] at trace
  have reported : .noteOccurs l false ∈ s.context.theories.account i := by
    rcases theory with root | root
    · obtain ⟨_, other, _⟩ := Theory.Embedding.inl.trace trace
      cases other
    · obtain ⟨_, same, trace⟩ := Theory.Embedding.inr.trace trace
      cases same
      have told := (Reachability.mem_occurs_of_trace trace known).resolve_left fun early => by
        rw [(made e member root ⟨given, i, registered⟩).occurs_eq_nil] at early
        cases early
      exact account ▸ List.mem_append_right _ told
  obtain ⟨inside, report⟩ := run.exists_report reported
  exact ⟨report, run.coherent.1.nothingFollows_iff inside unset unbacked⟩

/-- The opposite of a skipped literal forces another. -/
theorem follows_from_skipped_edge :
    ∃ (events : List (Event (AtMost ⊕ Reachability))) (s : Session (AtMost ⊕ Reachability)),
      PublicRun {} events s ∧ events.map (·.command) = [.freshLiterals 3, .addClause [⟨-1⟩, ⟨3⟩],
        .addTheory (.inr (Reachability.addEdge (.ofNodes 2 0 1 1) ⟨0, 1, 2⟩)), .observe 0 1, .observe 0 2,
        .decideLiteral ⟨2⟩, .propagate] ∧
      (∀ e ∈ events, ∀ t, e.Registers (.inr t) → t.IsMade) ∧ s.context.Skips 0 ⟨1⟩ ∧
      s.context.clauses.get? (.given 0) = some [⟨-1⟩, ⟨3⟩] ∧
      ¬s.context.NothingFollows ⟨1⟩ (.theory 0 1) := by
  obtain ⟨events, s, run, commands, checked⟩ := of_run_any (σ := AtMost ⊕ Reachability) {}
    [.freshLiterals 3, .addClause [⟨-1⟩, ⟨3⟩],
      .addTheory (.inr (Reachability.addEdge (.ofNodes 2 0 1 1) ⟨0, 1, 2⟩)), .observe 0 1, .observe 0 2,
      .decideLiteral ⟨2⟩, .propagate]
    (by simp [Command.IsPublic])
    (fun _ s => decide (s.context.clauses.get? (.given 0) = some [⟨-1⟩, ⟨3⟩]) &&
      decide (s.context.valueOf ⟨1⟩ = none) && decide (s.context.atoms.value 3 = none) &&
      s.context.theories.members[0]?.any fun m => m.theory.getRight?.any fun t =>
        decide (t.consequence t.log.entries = .ok (some [⟨1⟩, ⟨-2⟩])) &&
          ((Theory.propagate t).run 0 s.context.atoms).toOption.any fun outcome =>
            outcome.1.1.isNone && decide (t.counters.skipped < outcome.1.2.counters.skipped) &&
              decide (outcome.2 = s.context.atoms))
    (by decide +kernel)
  simp only [Bool.and_eq_true, decide_eq_true_eq, Option.any_eq_true, Option.isNone_iff_eq_none] at checked
  obtain ⟨⟨⟨stored, unset⟩, free⟩, m, found, t, isReach, drawn, ⟨⟨conflict, t'⟩, after⟩, ran, ⟨silent, skipped⟩,
    same⟩ := checked
  replace isReach : m.theory = .inr t := by
    rcases theory : m.theory with root | root
    · rw [theory] at isReach
      cases isReach
    · rw [theory] at isReach
      cases isReach
      rfl
  replace ran : (Theory.propagate t).run 0 s.context.atoms = .ok ((conflict, t'), after) := by
    rcases outcome : (Theory.propagate t).run 0 s.context.atoms with cause | result
    · rw [outcome] at ran
      cases ran
    · rw [outcome] at ran
      cases ran
      rfl
  dsimp only at silent skipped same
  subst silent same
  have skips : s.context.Skips 0 ⟨1⟩ :=
    ⟨m, t, t', [⟨-2⟩], found, isReach, drawn, ran, skipped, unset⟩
  have made : ∀ e ∈ events, ∀ t, e.Registers (.inr t) → t.IsMade := by
    intro e member t registers
    have given := registers.mem member commands
    simp only [List.mem_cons, reduceCtorEq, Command.addTheory.injEq, Sum.inr.injEq, List.not_mem_nil, or_false,
      false_or] at given
    exact ⟨2, 0, 1, 1, .latestFirst, [⟨0, 1, 2⟩], given⟩
  refine ⟨events, s, run, commands, made, skips, stored, fun nothing => ?_⟩
  have quiet := (run.follows_from_skipped_iff made skips (.theory 0 1) fun _ no => by cases no).2.mp nothing
  refine quiet ⟨1⟩ (by simp) (.given 0) _ stored (.head _) (.inr ⟨⟨3⟩, by simp, ?_, ?_⟩)
  · rw [Literal.valueOn_eq_none, Function.update_of_ne (by decide)]
    exact free
  · intro k member other
    obtain rfl : k = ⟨-1⟩ := by simpa [other] using member
    rw [Literal.valueOn_eq_false]
    exact Function.update_self ..

end PublicRun

end Reference

end SatModulo
