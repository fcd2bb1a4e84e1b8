import SatModulo.Proofs.Delivery
import SatModulo.Proofs.FirstUip

/-!
# What a search can fail for

A search ends in a fault only if a theory that is called does, or a draw with a likelihood that is none
(`Context.Crashes`), and with an error only if a theory broke its part of the agreement or the store of
learnt clauses is full (`Context.Blames`). Each cause names a context that the search came through and
what was asked there, so a failure can be ruled out where theories keep their part in all such contexts.
Every part of a search is shown to fail for no other cause (`Procedure.Excused`).
-/
namespace SatModulo

variable {σ α β ε : Type} [Theory σ]

namespace Context

/-- A call that a search can make ends in a fault: one of a theory, or a draw. -/
inductive Crashes (start : Context σ) (cause : Fault) : Prop
  /-- A theory is told of the trail. -/
  | tell (c : Context σ) (reached : Moves decidesAtEnd start c) (m : Member σ)
    (member : m ∈ c.theories.members) (failed : m.deliver c.atoms.trail.literals = .error cause)
  /-- A theory hears of new facts at the base level. -/
  | clear (c : Context σ) (reached : Moves decidesAtEnd start c) (m : Member σ)
    (member : m ∈ c.theories.members) (failed : Theory.clearSatisfied m.theory = .error cause)
  | turn (c : Context σ) (reached : Moves decidesAtEnd start c) (i : Nat) (m : Member σ)
    (found : c.theories.members[i]? = some m) (turn : σ → Turn (Option Clause × σ))
    (call : Nat → List Literal → Option Clause → Call) (kind : TurnKind turn call) (flushed : σ)
    (origin : flushed = m.theory ∨ flushed = Theory.flush c.atoms m.theory)
    (failed : (turn flushed).run i c.atoms = .error cause)
  | hint (c : Context σ) (reached : Moves decidesAtEnd start c) (m : Member σ)
    (member : m ∈ c.theories.members) (failed : Theory.isSatisfied m.theory = .error cause)
  /-- A theory is asked why it made a literal true. -/
  | explain (c : Context σ) (reached : Moves decidesAtEnd start c) (l : Literal)
    (onTrail : l ∈ c.atoms.trail.literals) (failed : c.Faults l cause)
  | check (c : Context σ) (reached : Moves decidesAtEnd start c) (m : Member σ)
    (member : m ∈ c.theories.members)
    (failed : Theory.checkPropagated c.atoms m.theory = .error cause)
  | draw (c : Context σ) (reached : Moves decidesAtEnd start c) (p : Float)
    (likelihood : p = c.settings.polarityBias.value ∨ p = c.settings.randomDecisionBias.value)
    (failed : c.settings.host.sampler.chance p c.random = .error cause)

/-- What a search that ends with an error holds against a theory, or that its store is full. -/
inductive Blames (start : Context σ) : Error → Prop
  /-- A theory gives a conflict that is not false. -/
  | unfalsified (c : Context σ) (reached : Moves decidesAtEnd start c) (i : Nat) (m : Member σ)
    (found : c.theories.members[i]? = some m) (turn : σ → Turn (Option Clause × σ))
    (call : Nat → List Literal → Option Clause → Call) (kind : TurnKind turn call) (flushed theory : σ)
    (origin : flushed = m.theory ∨ flushed = Theory.flush c.atoms m.theory) (clause : Clause)
    (atoms : Atoms) (ran : (turn flushed).run i c.atoms = .ok ((some clause, theory), atoms))
    (unfalsified : clause.falsifiedOn atoms.value = false) :
    Blames start (.theory (.unfalsifiedConflict i))
  /-- A theory gives as the reason for a literal what does not explain it. -/
  | malformed (c : Context σ) (reached : Moves decidesAtEnd start c) (l : Literal)
    (onTrail : l ∈ c.atoms.trail.literals) (i : Nat) (marker : Marker)
    (reasoned : c.atoms.reasonOf l.atom = some (.theory i marker)) (m : Member σ)
    (found : c.theories.members[i]? = some m) (reason : Clause) (theory : σ)
    (answered : Theory.buildReason l marker m.theory = .ok (reason, theory))
    (unexplained : ¬c.atoms.Explains reason l) : Blames start (.theory (.malformedReason i))
  /-- A theory denies that nothing is left to be drawn directly after a turn at which it drew nothing. -/
  | unpropagated (c : Context σ) (reached : Moves decidesAtEnd start c) (told : c.AllDelivered) (i : Nat)
    (m : Member σ) (found : c.theories.members[i]? = some m) (flushed theory : σ)
    (origin : flushed = m.theory ∨ flushed = Theory.flush c.atoms m.theory)
    (ran : (Theory.propagate flushed).run i c.atoms = .ok ((none, theory), c.atoms))
    (denied : Theory.checkPropagated c.atoms theory = .ok false) :
    Blames start (.theory (.checkPropagated i))
  /-- A theory denies that a full valuation is a solution, although it agreed to it. -/
  | unsolved (c : Context σ) (reached : Moves decidesAtEnd start c) (full : c.atoms.unvalued = [])
    (i : Nat) (mid : Context σ) (draws : Draws c mid) (same : mid.atoms = c.atoms)
    (told : mid.AllDelivered) (settles : mid.Settles i) (after : Context σ) (further : Draws c after)
    (same' : after.atoms = c.atoms) (m : Member σ) (found : after.theories.members[i]? = some m)
    (denied : Theory.checkSolved c.atoms m.theory = false) : Blames start (.theory (.checkSolved i))
  | full (c : Context σ) (reached : Moves decidesAtEnd start c)
    (full : UInt32.size ≤ c.clauses.learnt.size) : Blames start (.clause .storageExhausted)

end Context

/-- A procedure of a search from the start fails for no other cause. -/
def Procedure.Excused (start : Context σ) (p : Procedure σ α) (c : Context σ) : Prop :=
  p.Ends c start.Crashes fun result _ => ∀ e, result = .error e → start.Blames e

namespace Procedure.Excused

variable {start c : Context σ} {p : Procedure σ α} {next : α → Procedure σ β}

theorem bind {m : Except Error α → Context σ → Prop} (first : p.Excused start c)
    (ensured : p.Ensures c m) (rest : ∀ a after, m (.ok a) after → (next a).Excused start after) :
    (p >>= next).Excused start c := by
  refine Ends.bind (first.ensuring ensured) ?_ fun a after held => rest a after held.2
  rintro e after ⟨blamed, _⟩ e' ⟨⟩
  exact blamed e rfl

/-- What leads somewhere goes on from there. -/
theorem call {m : α → Context σ → Prop} (first : p.Excused start c)
    (reached : Moves decidesAtEnd start c) (leads : p.Leads Draw c c m)
    (rest : ∀ a after, Moves decidesAtEnd start after → Draws c after → m a after →
      (next a).Excused start after) : (p >>= next).Excused start c :=
  bind first leads fun a after ⟨draws, held⟩ =>
    rest a after (reached.trans (Draws.moves draws)) draws held

theorem pure {a : α} : (Pure.pure a : Procedure σ α).Excused start c := Ends.pure nofun

theorem throw {e : Error} (blamed : start.Blames e) :
    (MonadExcept.throw e : Procedure σ α).Excused start c :=
  Ends.throw fun _ same => by cases same; exact blamed

theorem throw_bind {e : Error} (blamed : start.Blames e) :
    ((MonadExcept.throw e : Procedure σ α) >>= next).Excused start c :=
  Ends.throw_bind fun _ same => by cases same; exact blamed

theorem get_bind {next : Context σ → Procedure σ β} (rest : (next c).Excused start c) :
    ((get : Procedure σ (Context σ)) >>= next).Excused start c :=
  rest

theorem modify {f : Context σ → Context σ} : (modify f : Procedure σ Unit).Excused start c :=
  Ends.modify nofun

theorem modify_bind {f : Context σ → Context σ} {next : Unit → Procedure σ β}
    (rest : (next ()).Excused start (f c)) :
    ((MonadState.modifyGet fun s => ((), f s) : Procedure σ Unit) >>= next).Excused start c :=
  rest

theorem ofFaulty_bind {x : Except Fault α} (crashed : ∀ cause, x = .error cause → start.Crashes cause)
    (rest : ∀ a, x = .ok a → (next a).Excused start c) :
    (Procedure.ofFaulty x >>= next).Excused start c :=
  Ends.ofFaulty_bind crashed rest

theorem ofExcept_bind {wrap : ε → Error} {x : Except ε α}
    (blamed : ∀ e, x = .error e → start.Blames (wrap e))
    (rest : ∀ a, x = .ok a → (next a).Excused start c) :
    (Procedure.ofExcept wrap x >>= next).Excused start c :=
  Ends.ofExcept_bind (fun e failed _ same => by cases same; exact blamed e failed) rest

end Procedure.Excused

namespace Procedure

variable {start c : Context σ}

/-! ### Propagation -/

theorem deliverAll_excused (reached : Moves decidesAtEnd start c) :
    (deliverAll : Procedure σ Unit).Excused start c := by
  refine .get_bind (.ofFaulty_bind (fun cause failed => ?_) fun theories _ => .modify)
  obtain ⟨m, member, failed⟩ := Registry.changeAll_eq_error failed
  rcases Except.bind_eq_error failed with failed | ⟨_, _, done⟩
  · exact .tell c reached m member failed
  · cases done

theorem propagateClauses_excused (h : c.Coherent) :
    (propagateClauses : Procedure σ (Option ClauseKey)).Excused start c := by
  refine .get_bind ?_
  rcases propagated : c.clauses.propagate c.atoms with ⟨outcome, atoms⟩
  obtain ⟨_, ended⟩ := ClauseStore.propagate_spec h.supports propagated
  refine .modify_bind ?_
  rcases outcome with (key | key) | ⟨⟩
  · exact .pure
  · exact ended.elim
  · exact .pure

/-- A theory of a known index takes a turn. -/
theorem takeTurn_excused (reached : Moves decidesAtEnd start c)
    {turn : σ → Turn (Option Clause × σ)} {call : Nat → List Literal → Option Clause → Call}
    (kind : TurnKind turn call) {i : Nat} (known : i < c.theories.members.length) :
    (takeTurn i turn call).Excused start c := by
  refine .get_bind (.ofFaulty_bind (fun cause failed => ?_) fun (outcome, theories) taken => ?_)
  · obtain ⟨m, found, failed⟩ := Registry.changeAt_eq_error failed
    rcases Except.bind_eq_error failed with failed | ⟨_, _, done⟩
    · refine .turn c reached i m found turn call kind _ ?_ failed
      split
      · exact .inr rfl
      · exact .inl rfl
    · cases done
  · dsimp only
    split
    · have absent := List.getElem?_eq_none_iff.mp (Registry.changeAt_eq_none taken).1
      exact absurd known (Nat.not_lt.mpr absent)
    · rename_i conflict atoms
      obtain ⟨m, m', own, found, took, rfl⟩ := Registry.changeAt_eq_ok taken
      obtain ⟨flushed, origin, ran, -⟩ := Member.memberTurn_eq_ok took
      refine .modify_bind (.modify_bind ?_)
      split
      · exact .pure
      · rename_i clause
        refine .bind (m := fun _ _ => True) ?_ (fun _ _ _ => trivial) fun _ _ _ => .pure
        refine .get_bind ?_
        dsimp only
        split
        · exact .modify_bind (.modify_bind .pure)
        · rename_i unfalsified
          exact .throw (.unfalsified c reached i m found turn call kind flushed m'.theory origin clause atoms
            ran (Bool.eq_false_iff.mpr unfalsified))

/-- A round of turns fails only by the fault of a theory or for a conflict that the theory should not have given. -/
theorem takeTurns_excused (h : c.Coherent) (reached : Moves decidesAtEnd start c) {indices : List Nat}
    (known : ∀ i ∈ indices, i < c.theories.members.length) (assigned : Bool) :
    (takeTurns indices assigned : Procedure σ (Except Conflict Bool)).Excused start c := by
  induction indices generalizing c assigned with
  | nil => exact .pure
  | cons i rest ih =>
    rw [List.forall_mem_cons] at known
    -- The theories stay the same while consequences are drawn.
    have others : ∀ {after : Context σ}, Draws c after → ∀ j ∈ rest, j < after.theories.members.length := by
      intro after draws j member
      rw [(Draws.frame draws).2.2.2.2.2]
      exact known.2 j member
    refine .get_bind (.call (takeTurn_excused reached .propagate known.1) reached
      (takeTurn_leads .propagate i) fun outcome turned reached' draws _ => ?_)
    split
    · exact .pure
    · refine .get_bind ?_
      split
      · have coherent := Draws.coherent draws h
        refine .call (propagateClauses_excused coherent) reached' (propagateClauses_leads coherent) ?_
        intro found propagated reached'' draws' _
        split
        · exact .pure
        · refine .call (deliverAll_excused reached'') reached'' deliverAll_leads ?_
          intro _ told last draws'' _
          have all := (draws.trans draws').trans draws''
          exact ih (Draws.coherent all h) last (others all) true
      · exact ih (Draws.coherent draws h) reached' (others draws) assigned

theorem roundsWithin_excused (h : c.Coherent) (reached : Moves decidesAtEnd start c) (fuel : Nat) :
    (roundsWithin fuel : Procedure σ (Option Conflict)).Excused start c := by
  induction fuel generalizing c with
  | zero => exact .pure
  | succ fuel ih =>
    refine .call (propagateClauses_excused h) reached (propagateClauses_leads h) ?_
    intro found propagated reached' draws _
    split
    · exact .pure
    · refine .call (deliverAll_excused reached') reached' deliverAll_leads ?_
      rintro _ told reached'' draws' ⟨_, delivered⟩
      have coherent := Draws.coherent (draws.trans draws') h
      refine .get_bind (.call (takeTurns_excused coherent reached'' (fun i => coherent.mem_order.mp) false)
        reached'' (takeTurns_leads coherent delivered (Schedule.nodup_order _) false) ?_)
      intro outcome turned last draws'' _
      split
      · exact .pure
      · exact ih (Draws.coherent draws'' coherent) last
      · exact .pure

/-- Theories are asked one by one; the asking changes none of them. -/
theorem checkEach_excused {check : Atoms → σ → Except Fault Bool} {call : Bool → Call}
    {error : Nat → TheoryError} {indices : List Nat}
    (crashed : ∀ m ∈ c.theories.members, ∀ cause, check c.atoms m.theory = .error cause →
      start.Crashes cause)
    (denied : ∀ i ∈ indices, ∀ m, c.theories.members[i]? = some m →
      check c.atoms m.theory = .ok false → start.Blames (.theory (error i))) :
    (checkEach check call error indices).Excused start c := by
  induction indices generalizing c with
  | nil => exact .pure
  | cons i rest ih =>
    rw [List.forall_mem_cons] at denied
    refine .get_bind (.ofFaulty_bind (fun cause failed => ?_) fun (answer, theories) asked => .modify_bind ?_)
    · obtain ⟨m, found, failed⟩ := Registry.changeAt_eq_error failed
      rcases Except.bind_eq_error failed with failed | ⟨_, _, done⟩
      · exact crashed m (List.mem_of_getElem? found) cause failed
      · cases done
    · cases answer with
      | none =>
        obtain ⟨_, rfl⟩ := Registry.changeAt_eq_none asked
        exact ih crashed denied.2
      | some answer =>
        obtain ⟨m, m', own, found, answered, rfl⟩ := Registry.changeAt_eq_ok asked
        obtain ⟨given, checked, same⟩ := Except.bind_eq_ok answered
        cases same
        have members : c.theories.members.set i m = c.theories.members := by
          obtain ⟨inside, rfl⟩ := List.getElem?_eq_some_iff.mp found
          exact List.set_getElem_self inside
        split
        · rename_i no
          cases no
          exact .throw (denied.1 m found checked)
        · refine ih ?_ ?_
          · rw [members]
            exact crashed
          · rw [members]
            exact denied.2

theorem propagate_excused (h : c.Coherent) (reached : Moves decidesAtEnd start c) :
    (propagate : Procedure σ (Option Conflict)).Excused start c := by
  refine .get_bind (.call (roundsWithin_excused h reached _) reached
    (roundsWithin_leads h (Nat.lt_succ_self _)) fun outcome after reached' draws ended => ?_)
  split
  · exact .pure
  · refine .get_bind ?_
    split
    · refine .bind (m := fun _ _ => True) (.get_bind (checkEach_excused ?_ ?_)) (fun _ _ _ => trivial)
        fun _ _ _ => .pure
      · exact fun m member cause failed => .check after reached' m member failed
      · intro i member m found denied
        have inside : i < c.theories.members.length := by
          rw [← (Draws.frame draws).2.2.2.2.2]
          exact List.mem_range.mp member
        obtain ⟨mid, n, flushed, theory, m', further, same, told, foundN, origin, ran, found', rfl⟩ :=
          ended.2.2 i inside
        cases found.symm.trans found'
        exact .unpropagated mid (reached.trans (Draws.moves further)) told i n foundN flushed m.theory origin
          ran (same ▸ denied)
    · exact .pure

/-! ### Solutions -/

/-- A theory of a known index is asked for a hint. -/
theorem hintsSatisfied_excused (reached : Moves decidesAtEnd start c) {i : Nat}
    (known : i < c.theories.members.length) : (hintsSatisfied i : Procedure σ Bool).Excused start c := by
  refine .get_bind (.ofFaulty_bind (fun cause failed => ?_) fun (answer, theories) asked => ?_)
  · obtain ⟨m, found, failed⟩ := Registry.changeAt_eq_error failed
    split at failed
    · rcases Except.bind_eq_error failed with failed | ⟨_, _, done⟩
      · exact .hint c reached m (List.mem_of_getElem? found) failed
      · cases done
    · cases failed
  · cases answer with
    | none =>
      have absent := List.getElem?_eq_none_iff.mp (Registry.changeAt_eq_none asked).1
      exact absurd known (Nat.not_lt.mpr absent)
    | some answer => exact .modify_bind .pure

theorem solveEach_excused (reached : Moves decidesAtEnd start c) (length : Nat) {indices : List Nat}
    (known : ∀ i ∈ indices, i < c.theories.members.length) :
    (solveEach length indices : Procedure σ FinalCheck).Excused start c := by
  induction indices generalizing c with
  | nil => exact .pure
  | cons i rest ih =>
    rw [List.forall_mem_cons] at known
    have others : ∀ {after : Context σ}, Draws c after → ∀ j ∈ rest, j < after.theories.members.length := by
      intro after draws j member
      rw [(Draws.frame draws).2.2.2.2.2]
      exact known.2 j member
    refine .call (hintsSatisfied_excused reached known.1) reached (hintsSatisfied_leads i) ?_
    intro hint asked reached' draws _
    split
    · exact ih reached' (others draws)
    · have inside : i < asked.theories.members.length := by
        rw [(Draws.frame draws).2.2.2.2.2]
        exact known.1
      refine .call (takeTurn_excused reached' .solve inside) reached' (takeTurn_leads .solve i) ?_
      intro outcome turned last draws' _
      split
      · exact .pure
      · refine .get_bind ?_
        split
        · exact .pure
        · exact ih last (others (draws.trans draws'))

/-- The final check fails only where a theory does, or denies that the valuation is a solution. -/
theorem finalCheck_excused (h : c.Coherent) (reached : Moves decidesAtEnd start c)
    (full : c.atoms.unvalued = []) : (finalCheck : Procedure σ FinalCheck).Excused start c := by
  refine .call (deliverAll_excused reached) reached deliverAll_leads ?_
  rintro _ told reached' draws ⟨same, delivered⟩
  have coherent := Draws.coherent draws h
  refine .get_bind (.call (solveEach_excused reached' _ fun i => coherent.mem_order.mp) reached'
    (solveEach_leads _ _) fun outcome solved _ further checked => ?_)
  split
  · obtain ⟨sameSolved, settled⟩ := checked rfl
    split
    · refine .bind (m := fun _ _ => True) (.get_bind (checkEach_excused ?_ ?_)) (fun _ _ _ => trivial)
        fun _ _ _ => .pure
      · exact fun _ _ _ => nofun
      · intro i member m found denied
        have inside : i < told.theories.members.length := by
          rw [← (Draws.frame further).2.2.2.2.2]
          exact List.mem_range.mp member
        obtain ⟨mid, draws', sameMid, settles⟩ := settled i (coherent.mem_order.mpr inside)
        refine .unsolved told reached' (by rw [same, full]) i mid draws' sameMid ?_ settles solved further
          sameSolved m found (sameSolved ▸ Except.ok.inj denied)
        exact Draws.allDelivered draws' (by rw [sameMid]) delivered
    · exact .pure
  · exact .pure

/-! ### Decisions -/

/-- Theories can always be prepared: the atoms that they observe have literals. -/
theorem preprocess_ne_error (h : c.Coherent) (told : c.Told) (cause : Fault) :
    c.theories.preprocess c.clauses.occurs ≠ .error cause := by
  intro failed
  obtain ⟨m, member, failed⟩ := Registry.changeAll_eq_error failed
  unfold Member.preprocess at failed
  split at failed
  · cases failed
  · rcases Except.bind_eq_error failed with failed | ⟨_, _, done⟩
    · rcases Except.bind_eq_error failed with failed | ⟨_, _, done⟩
      · obtain ⟨a, observed, failed⟩ := Except.mapM_eq_error failed
        have room := h.supports.atoms.room
        have inRange : a ≤ maxAtom :=
          Nat.lt_succ_iff.mp (Nat.lt_of_lt_of_le (told.known m member a observed) room)
        rw [Literal.ofAtom_of_le inRange, Literal.ofAtom_of_le inRange] at failed
        cases failed
      · cases done
    · cases done

theorem preprocess_excused (h : c.Coherent) (told : c.Told) :
    (preprocess : Procedure σ Unit).Excused start c :=
  .get_bind (.ofFaulty_bind (fun cause failed => absurd failed (preprocess_ne_error h told cause))
    fun _ _ => .modify)

/-- Theories of known indices are asked for proposals. -/
theorem askForProposal_excused {indices : List Nat} (known : ∀ i ∈ indices, i < c.theories.members.length) :
    (askForProposal indices : Procedure σ (Option (Nat × Proposal))).Excused start c := by
  induction indices generalizing c with
  | nil => exact .pure
  | cons i rest ih =>
    rw [List.forall_mem_cons] at known
    refine .get_bind ?_
    dsimp only
    split
    · rename_i unknown
      rw [Registry.capabilities, List.getElem?_eq_getElem known.1] at unknown
      cases unknown
    · split
      · refine .ofFaulty_bind (fun cause failed => ?_) fun (proposal, theories) asked => .modify_bind ?_
        · obtain ⟨_, _, failed⟩ := Registry.changeAt_eq_error failed
          cases failed
        · have others : ∀ j ∈ rest, j < theories.members.length := by
            rw [Registry.length_changeAt asked]
            exact known.2
          split
          · split
            · exact .pure
            · exact ih others
          · exact ih others
      · exact ih known.2

theorem chance_excused (reached : Moves decidesAtEnd start c) {p : Float}
    (likelihood : p = c.settings.polarityBias.value ∨ p = c.settings.randomDecisionBias.value) :
    (chance p : Procedure σ Bool).Excused start c := by
  unfold chance
  refine .get_bind (.ofFaulty_bind (fun cause failed => ?_) fun _ _ => .modify_bind .pure)
  exact .draw c reached p likelihood failed

theorem atomWithoutValue_excused (reached : Moves decidesAtEnd start c) :
    (atomWithoutValue : Procedure σ (Option Atom)).Excused start c := by
  refine .get_bind (.call (chance_excused reached (.inr rfl)) reached (chance_leads Draw.adjust _) ?_)
  intro atRandom after _ _ _
  refine .get_bind ?_
  dsimp only
  split
  · exact .modify_bind .pure
  · exact .pure

theorem valueToDecide_excused (reached : Moves decidesAtEnd start c) (a : Atom) :
    (valueToDecide a : Procedure σ Bool).Excused start c := by
  refine .get_bind ?_
  split
  · exact .pure
  · exact chance_excused reached (.inl rfl)

omit [Theory σ] in
/-- Making a literal true that has no value never fails. -/
theorem assign_ends {l : Literal} {reason : Reason} (known : l.atom < c.atoms.count)
    (unset : c.valueOf l = none) :
    (assign l reason : Procedure σ Status).Ends c (fun _ => False) fun result after =>
      ∃ atoms, c.atoms.assign l reason = .ok (.unset, atoms) ∧ result = .ok .unset ∧
        after = { c with atoms } := by
  obtain ⟨atoms, made⟩ :=
    Atoms.assign_of_unvalued reason known (Atoms.value_eq_none.mp (Literal.valueOn_eq_none.mp unset))
  refine .get_bind (.ofExcept_bind (fun e failed => ?_) fun (status, atoms') success => ?_)
  · rw [made] at failed
    cases failed
  · rw [made] at success
    cases success
    exact .modify_bind (.pure ⟨atoms, made, rfl, rfl⟩)

theorem assign_excused {l : Literal} {reason : Reason} (known : l.atom < c.atoms.count)
    (unset : c.valueOf l = none) : (assign l reason : Procedure σ Status).Excused start c := by
  refine ((assign_ends known unset).imp_broken fun _ => False.elim).mono ?_
  rintro _ _ ⟨_, _, rfl, _⟩ e ⟨⟩

theorem applyDecision_excused (reached : Moves decidesAtEnd start c) {l : Literal}
    (known : l.atom < c.atoms.count) (unset : c.atoms.value l.atom = none)
    (proposer : Option (Nat × Option Marker)) : (applyDecision l proposer).Excused start c := by
  refine .call (deliverAll_excused reached) reached deliverAll_leads ?_
  rintro _ mid _ _ ⟨same, _⟩
  refine .get_bind (.ofFaulty_bind (fun cause failed => ?_) fun theories _ => .modify_bind (.modify_bind ?_))
  · obtain ⟨_, _, failed⟩ := Registry.changeAll_eq_error failed
    cases failed
  · refine .bind (m := fun _ _ => True) (assign_excused ?_ ?_) (fun _ _ _ => trivial)
      fun _ _ _ => .modify_bind .modify
    · change l.atom < mid.atoms.count
      rw [same]
      exact known
    · change l.valueOn mid.atoms.value = none
      rw [same]
      exact Literal.valueOn_eq_none.mpr unset

/-- A decision fails only if a theory does, or if there is no likelihood to draw against. -/
theorem makeDecision_excused (h : c.Coherent) (told : c.Told) (reached : Moves decidesAtEnd start c) :
    (makeDecision : Procedure σ Decision).Excused start c := by
  refine .call (preprocess_excused h told) reached preprocess_leads fun _ prepared reached' draws same => ?_
  have coherent : prepared.Coherent := Moves.coherent (Draws.moves draws : Moves {} c prepared) h
  refine .get_bind (.call (askForProposal_excused fun i => coherent.mem_order.mp) reached'
    (askForProposal_leads _) ?_)
  rintro proposal asked reached'' _ ⟨same', taken⟩
  split
  · rename_i i proposal
    obtain ⟨known, unset⟩ := Atoms.isOpen_eq_true (taken i proposal rfl)
    rw [← same'] at known unset
    have counted := reached''.tail (.draw (.adjust asked asked.random
      { asked.counters with theoryDecisions := asked.counters.theoryDecisions + 1 } _ rfl))
    exact .modify_bind (.bind (m := fun _ _ => True) (applyDecision_excused counted known unset _)
      (fun _ _ _ => trivial) fun _ _ _ => .pure)
  · refine .call (atomWithoutValue_excused reached'') reached'' (atomWithoutValue_leads Draw.adjust) ?_
    rintro outcome drawn last _ ⟨⟨sameDrawn, _⟩, chosen⟩
    split
    · exact .pure
    · rename_i a
      obtain ⟨known, unset⟩ := Atoms.mem_unvalued.mp chosen
      refine .call (valueToDecide_excused last a) last (valueToDecide_leads Draw.adjust a) ?_
      intro value valued last' _ ⟨sameValued, _⟩
      have room := h.supports.atoms.room
      rw [← same, ← same'] at room
      have inRange : a ≤ maxAtom := Nat.lt_succ_iff.mp (Nat.lt_of_lt_of_le known room)
      rw [Literal.ofAtom_of_le inRange]
      refine .ofFaulty_bind (fun cause failed => by cases failed) fun l isLiteral => ?_
      cases isLiteral
      rw [← sameDrawn, ← sameValued] at known unset
      refine .bind (m := fun _ _ => True) (applyDecision_excused last' ?_ ?_ none)
        (fun _ _ _ => trivial) fun _ _ _ => .pure
      · rwa [Literal.atom_on]
      · rwa [Literal.atom_on]

/-! ### Recovery -/

/-- Theories take word of decisions that are taken back. -/
private theorem undecideAll_ne_error (records : List DecisionRecord) (r : Registry σ)
    (cause : Fault) : Registry.undecideAll records r ≠ .error cause := by
  induction records generalizing r with
  | nil => nofun
  | cons d rest ih =>
    intro failed
    rcases Except.bind_eq_error failed with failed | ⟨_, _, failed⟩
    · obtain ⟨_, _, failed⟩ := Registry.changeAt_eq_error failed
      cases failed
    · exact ih _ failed

/-- A return to a lower level never fails. -/
theorem backjump_ends (level : Nat) :
    (backjump level : Procedure σ Unit).Ends c (fun _ => False) fun result after =>
      result = .ok () ∧ Retreated level c after := by
  have finishes : (backjump level : Procedure σ Unit).Ends c (fun _ => False) fun _ _ => True := by
    refine .get_bind ?_
    dsimp only
    split
    · refine .ofFaulty_bind (fun cause failed => ?_) fun retracted _ =>
        .ofFaulty_bind (fun cause failed => ?_) fun _ _ => .modify_bind (.modify trivial)
      · exact absurd failed (undecideAll_ne_error _ _ cause)
      · obtain ⟨_, _, failed⟩ := Registry.changeAll_eq_error failed
        cases failed
    · exact .pure trivial
  exact (finishes.ensuring (backjump_course level)).mono fun _ _ => And.right

theorem backjump_excused (level : Nat) : (backjump level : Procedure σ Unit).Excused start c := by
  refine ((backjump_ends level).imp_broken fun _ => False.elim).mono ?_
  rintro _ _ ⟨rfl, _⟩ e ⟨⟩

/-- The literals of a false clause have levels, the highest of which is found. -/
theorem conflictLevel_ends {clause : Clause} (falsified : ∀ l ∈ clause, c.valueOf l = some false) :
    (conflictLevel clause : Procedure σ Nat).Ends c (fun _ => False) fun result after => after = c ∧
      ∃ level, result = .ok level ∧
        (∀ l ∈ clause, ∃ i, c.atoms.levelOf l.atom = some i ∧ i ≤ level) ∧
        (level = 0 ∨ ∃ l ∈ clause, c.atoms.levelOf l.atom = some level) := by
  have finds : (conflictLevel clause : Procedure σ Nat).Ends c (fun _ => False) fun result _ =>
      ∃ level, result = .ok level := by
    refine .get_bind (.ofExcept_bind (fun e failed => ?_) fun _ _ => .pure ⟨_, rfl⟩)
    obtain ⟨l, member, failed⟩ := Except.mapM_eq_error failed
    obtain ⟨level, given⟩ := Atoms.levelOf_isSome_of_false (falsified l member)
    rw [given] at failed
    cases failed
  refine (finds.ensuring conflictLevel_leads).mono ?_
  rintro _ after ⟨⟨level, rfl⟩, _, rfl, levels⟩
  exact ⟨rfl, level, rfl, levels⟩

theorem conflictLevel_excused {clause : Clause} (falsified : ∀ l ∈ clause, c.valueOf l = some false) :
    (conflictLevel clause : Procedure σ Nat).Excused start c := by
  refine ((conflictLevel_ends falsified).imp_broken fun _ => False.elim).mono ?_
  rintro _ _ ⟨_, _, rfl, _⟩ e ⟨⟩

/-- Analysis fails only for a reason of a theory that explains nothing, or if the store is full. -/
theorem analyse_excused (h : c.Coherent) (opened : c.Opened) (reached : Moves decidesAtEnd start c)
    (above : 0 < c.level) {conflict : Clause} (falsified : ∀ l ∈ conflict, c.valueOf l = some false)
    (current : ∃ l ∈ conflict, c.atoms.levelOf l.atom = some c.level) :
    (analyse conflict).Excused start c := by
  have more : ∀ {mid : Context σ}, Draws c mid → Moves decidesAtEnd start mid := fun draws =>
    reached.trans (Draws.moves draws)
  refine ((analyse_ends h opened above falsified current).imp_broken ?_).mono ?_
  · rintro cause ⟨mid, set, l, resolves, pivot, faults⟩
    exact .explain mid (more resolves.frame.2.2) l pivot.onTrail faults
  · rintro _ after ⟨_, outcome⟩ e rfl
    obtain ⟨_, ⟨i, rfl, misled⟩ | ⟨rfl, full, _⟩⟩ := outcome
    · obtain ⟨mid, set, l, reason, marker, resolves, pivot, reasoned, asked, unexplained⟩ := misled
      cases asked with
      | stored key _ reasoned' => cases reasoned.symm.trans reasoned'
      | built j marker' m _ theory reasoned' found answered =>
        cases reasoned.symm.trans reasoned'
        exact .malformed mid (more resolves.frame.2.2) l pivot.onTrail i marker reasoned m found reason theory
          answered unexplained
    · exact .full c reached full

/-- What was learnt can be asserted, as its first literal loses its value on the way back. -/
theorem learn_excused (h : c.Coherent) {key : ClauseKey} {l : Literal} {lower : List Literal} {level : Nat}
    {clauses : ClauseStore} (learns : c.Learns key l lower level clauses) :
    (do
      backjump level
      match ← assign l (.clause key) with
      | .unset => return .asserted key l level
      | _ => throw .valuationConflict : Procedure σ Recovery).Excused start { c with clauses } := by
  refine .bind (backjump_excused level) (backjump_course level) ?_
  rintro ⟨⟩ after ⟨_, retreated⟩
  obtain ⟨retracted, theories, _, _, rfl⟩ := retreated.of_lt learns.low
  obtain ⟨known, unset⟩ := learns.unset h
  refine .bind (m := fun result _ => result = .ok .unset) (assign_excused known unset)
    (assign_unset known unset fun _ _ => rfl) ?_
  rintro status after ⟨⟩
  exact .pure

theorem recoverClause_excused (h : c.Coherent) (opened : c.Opened) (reached : Moves decidesAtEnd start c)
    {clause : Clause} (known : c.Known clause) (falsified : ∀ l ∈ clause, c.valueOf l = some false) :
    (recoverClause clause).Excused start c := by
  refine .call (conflictLevel_excused falsified) reached conflictLevel_leads ?_
  rintro level after _ _ ⟨rfl, levels, top⟩
  dsimp only
  split
  · exact .modify_bind .pure
  · rename_i positive
    have low : level ≤ after.level := by
      rcases top with zero | ⟨l, _, given⟩
      · exact absurd zero positive
      · exact h.supports.atoms.levelOf_le_level given
    refine .bind (backjump_excused level) (backjump_course level) ?_
    rintro ⟨⟩ back ⟨_, retreated⟩
    obtain ⟨known', falsified'⟩ := retreated.conflict h known falsified levels
    have moved : Moves {} after back := retreated.moves
    have above : 0 < back.level := by
      rw [retreated.level_eq low]
      exact Nat.pos_of_ne_zero positive
    have reached' := reached.trans ((Intake.empty_le _).moves moved)
    have coherent := Moves.coherent moved h
    have current : ∃ l ∈ clause, back.atoms.levelOf l.atom = some back.level := by
      obtain ⟨l, member, given⟩ := top.resolve_left positive
      refine ⟨l, member, ?_⟩
      rw [retreated.level_eq low, Atoms.levelOf, retreated.assignment h given (Nat.le_refl _)]
      exact given
    refine .bind (analyse_excused coherent (Moves.opened moved h opened) reached' above falsified' current)
      (analyse_course coherent above known' falsified') ?_
    rintro learnt final ⟨mid, key, l, lower, level', clauses, draws, _, learns, rfl, reports⟩
    have learnt' : Procedure.Excused start _ _ := learn_excused (Draws.coherent draws coherent) learns
    rcases reports with ⟨rfl, rfl⟩ | rfl
    · exact learnt'
    · exact learnt'

theorem recover_excused (h : c.Coherent) (opened : c.Opened) (reached : Moves decidesAtEnd start c)
    {conflict : Conflict} (conflicting : c.Conflicting conflict) :
    (recover conflict).Excused start c := by
  obtain ⟨clause, falsified, given⟩ := conflicting
  have counted : Draw c { c with counters.conflicts := c.counters.conflicts + 1 } :=
    .adjust c c.random _ c.theories.schedule rfl
  have one : Draws c _ := .single counted
  have known : c.Known clause := by
    cases conflict with
    | clause key => exact .inl ⟨key, given⟩
    | theory i d => exact .inr ⟨i, given.2⟩
  have rest := recoverClause_excused (counted.coherent h) (Draws.opened one h opened)
    (reached.trans (Draws.moves one)) (Draws.known one known) falsified
  refine .modify_bind ?_
  cases conflict with
  | clause key =>
    refine .get_bind (.ofExcept_bind (fun e failed => ?_) fun d found => ?_)
    · rw [ClauseStore.get, given] at failed
      cases failed
    · rw [ClauseStore.get, given] at found
      cases found
      exact rest
  | theory i d =>
    obtain ⟨rfl, _⟩ := given
    exact rest

/-! ### The search -/

/-- An iteration of the search fails for no cause that does not lie with a theory, a likelihood or a full store. -/
theorem iterate_excused (h : c.Coherent) (opened : c.Opened) (told : c.Told)
    (reached : Moves decidesAtEnd start c) :
    (iterate : Procedure σ (Option Report)).Excused start c := by
  have recovers : ∀ {mid : Context σ} {conflict : Conflict}, Draws c mid → mid.Conflicting conflict →
      (iterate.recoverFrom conflict : Procedure σ (Option Report)).Excused start mid := by
    intro mid conflict draws conflicting
    refine .bind (m := fun _ _ => True) (recover_excused (Draws.coherent draws h)
      (Draws.opened draws h opened) (reached.trans (Draws.moves draws)) conflicting) (fun _ _ _ => trivial) ?_
    rintro recovery _ _
    cases recovery <;> exact .pure
  have counted : Draw c { c with counters.iterations := c.counters.iterations + 1 } :=
    .adjust c c.random _ c.theories.schedule rfl
  have first : Draws c _ := .single counted
  have reached' := reached.trans (Draws.moves first)
  refine .modify_bind (.get_bind ?_)
  split
  · exact .pure
  refine .call (propagate_excused (counted.coherent h) reached') reached' (propagate_leads (counted.coherent h))
    fun outcome propagated further draws found => ?_
  replace draws := first.trans draws
  split
  · exact recovers draws found
  · refine .get_bind (.ofFaulty_bind (fun cause failed => ?_) fun (isNew, theories) cleared => .modify_bind ?_)
    · unfold Registry.clearSatisfied at failed
      split at failed
      · cases failed
      · rcases Except.bind_eq_error failed with failed | ⟨_, _, done⟩
        · obtain ⟨m, member, failed⟩ := Registry.changeAll_eq_error failed
          unfold Member.clearSatisfied at failed
          split at failed
          · rcases Except.bind_eq_error failed with failed | ⟨_, _, done⟩
            · exact .clear propagated further m member failed
            · cases done
          · cases failed
        · cases done
    · have draws' := draws.tail (.clearSatisfied propagated isNew theories cleared)
      have coherent := Draws.coherent draws' h
      have told' := Moves.told (Draws.moves draws' : Moves {} _ _) h told
      refine .bind (makeDecision_excused coherent told' (reached.trans (Draws.moves draws')))
        (makeDecision_course coherent) fun decision decided made => ?_
      cases decision with
      | decided l => exact .pure
      | exhausted =>
        obtain ⟨last, same, none'⟩ := made
        have toFull := draws'.trans last
        have coherent' := Draws.coherent toFull h
        refine .call (finalCheck_excused coherent' (reached.trans (Draws.moves toFull)) ?_)
          (reached.trans (Draws.moves toFull)) (finalCheck_leads coherent') ?_
        · rw [same]
          exact none'
        · intro checked after _ final held
          cases checked with
          | satisfied => exact .modify_bind .pure
          | assigned => exact .pure
          | conflict conflict => exact recovers (toFull.trans final) held

/-- A search fails for no cause that an iteration does not fail for. -/
theorem iterateWithin_excused (h : c.Coherent) (opened : c.Opened) (told : c.Told)
    (open' : c.phase ≠ .unsatisfiable) (reached : Moves decidesAtEnd start c) (fuel : Nat) :
    (iterateWithin fuel : Procedure σ Report).Excused start c := by
  induction fuel generalizing c with
  | zero => exact .pure
  | succ fuel ih =>
    refine .bind (iterate_excused h opened told reached) (iterate_course h open') ?_
    rintro outcome after searched
    cases outcome with
    | some report => exact .pure
    | none =>
      have moves : Moves decidesAtEnd c after := searched
      exact ih (moves.coherent h) (moves.opened h opened) (moves.told h told) (moves.phase_ne open')
        (reached.trans moves)

/-- A search fails for no other cause than a theory that is called, a draw with a likelihood that is none,
or a store of learnt clauses that is full. -/
theorem solve_excused (h : c.Coherent) (opened : c.Opened) (told : c.Told) :
    (solve : Procedure σ Report).Excused c c := by
  refine .get_bind ?_
  split
  · exact .pure
  · rename_i open'
    refine .call (preprocess_excused h told) .refl preprocess_leads fun _ prepared reached draws _ => ?_
    have started := reached.tail (.settle prepared .solving (Moves.phase_ne reached open') (by decide))
    exact .modify_bind (.get_bind (iterateWithin_excused (Moves.coherent started h)
      (Moves.opened started h opened) (Moves.told started h told) Phase.noConfusion started _))

end Procedure

end SatModulo
