import SatModulo.Proofs.Likeness
import SatModulo.Proofs.Recovery

/-!
# Searches with renumbered theories

A search comes to the same where theories have other indices: it gives theories their turns by priority, and
what is done to all of them in the order of indices is done to each for itself. Every part of it follows itself,
up to the indices that conflicts, reasons and decisions name.
-/
namespace SatModulo

variable {σ : Type} {π : Equiv.Perm Nat} {spared : TheoryError → Prop}

/-- A theory denied that it is at a fixpoint, or that it is solved. -/
def TheoryError.IsDenial : TheoryError → Prop
  | .checkPropagated _ | .checkSolved _ => True
  | _ => False

def Conflict.renumber (π : Equiv.Perm Nat) : Conflict → Conflict
  | .theory i falsified => .theory (π i) falsified
  | .clause key => .clause key

def FinalCheck.renumber (π : Equiv.Perm Nat) : FinalCheck → FinalCheck
  | .conflict c => .conflict (c.renumber π)
  | .satisfied => .satisfied
  | .assigned => .assigned

variable [Theory σ]

namespace Likeness

/-- Contexts whose theories have other indices. -/
def renumbering (π : Equiv.Perm Nat) (spared : TheoryError → Prop) : Likeness σ where
  π
  theories := Registry.Renumbered π
  phases := (· = ·)
  begun := congrArg Phase.begun
  found _ _ := rfl
  spared

theorem alike_renumbering {c c' : Context σ} : (renumbering π spared).Alike c c' ↔
    ∃ theories, c.theories.Renumbered π theories ∧ c' = { c with atoms := c.atoms.renumber π, theories } := by
  refine ⟨fun alike => ?_, ?_⟩
  · cases alike with
    | mk theories phase held same =>
      cases same
      exact ⟨theories, held, rfl⟩
  · rintro ⟨theories, renumbered, rfl⟩
    exact .mk theories c.phase renumbered rfl

theorem Alike.of_renumbered {c : Context σ} {theories : Registry σ}
    (renumbered : c.theories.Renumbered π theories) :
    (renumbering π spared).Alike c { c with atoms := c.atoms.renumber π, theories } :=
  alike_renumbering.mpr ⟨theories, renumbered, rfl⟩

end Likeness

namespace Procedure

open Likeness

variable {c c' : Context σ}

/-! ### What calls no theory -/

theorem count_follows (alike : (renumbering π spared).Alike c c') (f : Counters → Counters) :
    (renumbering π spared).Follows id (count f : Procedure σ Unit) (count f) c c' := by
  obtain ⟨theories, renumbered, rfl⟩ := alike_renumbering.mp alike
  exact .modify (.of_renumbered renumbered)

theorem atomWithoutValue_follows (alike : (renumbering π spared).Alike c c') :
    (renumbering π spared).Follows id (atomWithoutValue : Procedure σ (Option Atom)) atomWithoutValue c c' := by
  have settings : c'.settings = c.settings := by
    obtain ⟨theories, renumbered, rfl⟩ := alike_renumbering.mp alike
    rfl
  refine .get_bind ?_
  rw [settings]
  refine .bind (chance_follows alike _) fun atRandom mid mid' alike => ?_
  obtain ⟨theories, renumbered, rfl⟩ := alike_renumbering.mp alike
  refine .get_bind ?_
  dsimp only [id]
  rw [Atoms.unvalued_renumber]
  split
  · exact .modify_bind (.pure (.of_renumbered renumbered))
  · exact .pure (.of_renumbered renumbered)

theorem valueToDecide_follows (alike : (renumbering π spared).Alike c c') (a : Atom) :
    (renumbering π spared).Follows id (valueToDecide a : Procedure σ Bool) (valueToDecide a) c c' := by
  obtain ⟨theories, renumbered, rfl⟩ := alike_renumbering.mp alike
  refine .get_bind ?_
  dsimp only
  rw [Atoms.previousValue_renumber]
  split
  · exact .pure (.of_renumbered renumbered)
  · exact chance_follows (.of_renumbered renumbered) _

theorem propagateUnits_follows (alike : (renumbering π spared).Alike c c') :
    (renumbering π spared).Follows id (propagateUnits : Procedure σ Unit) propagateUnits c c' := by
  obtain ⟨theories, renumbered, rfl⟩ := alike_renumbering.mp alike
  refine .get_bind ?_
  dsimp only
  rw [ClauseStore.propagate_renumber]
  obtain ⟨outcome, atoms⟩ := c.clauses.propagate c.atoms
  refine .modify_bind ?_
  cases outcome with
  | error e => exact .throw (.of_renumbered renumbered)
  | ok _ => exact .pure (.of_renumbered renumbered)

theorem propagateClauses_follows (alike : (renumbering π spared).Alike c c') :
    (renumbering π spared).Follows id (propagateClauses : Procedure σ (Option ClauseKey)) propagateClauses c c' := by
  obtain ⟨theories, renumbered, rfl⟩ := alike_renumbering.mp alike
  refine .get_bind ?_
  dsimp only
  rw [ClauseStore.propagate_renumber]
  obtain ⟨outcome, atoms⟩ := c.clauses.propagate c.atoms
  refine .modify_bind ?_
  rcases outcome with (key | key) | _
  · exact .pure (.of_renumbered renumbered)
  · exact .throw (.of_renumbered renumbered)
  · exact .pure (.of_renumbered renumbered)

theorem acceptConflict_follows (alike : (renumbering π spared).Alike c c') (i : Nat) (clause : Clause) :
    (renumbering π spared).Follows (Conflict.renumber π) (acceptConflict i clause : Procedure σ Conflict)
      (acceptConflict (π i) clause) c c' := by
  obtain ⟨theories, renumbered, rfl⟩ := alike_renumbering.mp alike
  refine .get_bind ?_
  dsimp only
  rw [Atoms.value_renumber]
  split
  · refine .modify_bind (.modify_bind (.pure ?_))
    exact .of_renumbered (renumbered.withSchedule (renumbered.schedule.bumpBy _ i))
  · exact .throw (.of_renumbered renumbered)

/-! ### Checks -/

omit [Theory σ] in
/-- Theories that are asked for their agreement stay as they are, and if there is no denial, all agree. -/
theorem checkEach_ensures (check : Atoms → σ → Except Fault Bool) (call : Bool → Call) (error : Nat → TheoryError)
    (indices : List Nat) : (checkEach check call error indices).Ensures c fun result after =>
      (∃ calls, after = { c with theories := { c.theories with calls } }) ∧
        ((∃ i, result = .error (.theory (error i))) ∨ result = .ok () ∧
          ∀ i ∈ indices, ∀ m, c.theories.members[i]? = some m → check c.atoms m.theory = .ok true) := by
  induction indices generalizing c with
  | nil => exact .pure ⟨⟨_, rfl⟩, .inr ⟨rfl, List.forall_mem_nil _⟩⟩
  | cons i rest ih =>
    refine .get_bind (.ofFaulty_bind fun (answer, asked) called => .modify_bind ?_)
    have own : (∃ calls, asked = { c.theories with calls }) ∧
        (answer ≠ some false → ∀ m, c.theories.members[i]? = some m → check c.atoms m.theory = .ok true) := by
      cases answer with
      | none =>
        obtain ⟨absent, rfl⟩ := Registry.changeAt_eq_none called
        refine ⟨⟨_, rfl⟩, fun _ m found => ?_⟩
        rw [absent] at found
        cases found
      | some answer =>
        obtain ⟨m, m', own, found, done, rfl⟩ := Registry.changeAt_eq_ok called
        obtain ⟨b, answered, done⟩ := Except.bind_eq_ok done
        cases done
        refine ⟨⟨_, Registry.set_self found _⟩, fun agrees n found' => ?_⟩
        rw [← Option.some.inj (found.symm.trans found'), answered]
        cases answer with
        | false => exact absurd rfl agrees
        | true => rfl
    obtain ⟨⟨calls, rfl⟩, agrees⟩ := own
    dsimp only
    split
    · exact .throw ⟨⟨calls, rfl⟩, .inl ⟨i, rfl⟩⟩
    · rename_i undenied
      refine ih.mono fun result after ⟨⟨more, same⟩, outcome⟩ => ⟨⟨more, same⟩, outcome.imp id ?_⟩
      rintro ⟨ended, others⟩
      exact ⟨ended, List.forall_mem_cons.mpr ⟨agrees undenied, others⟩⟩

omit [Theory σ] in
/-- Where all theories agree there is no denial. -/
theorem run_checkEach (check : Atoms → σ → Except Fault Bool) (call : Bool → Call) (error : Nat → TheoryError)
    (indices : List Nat)
    (agree : ∀ (i : Nat) (m : Member σ), c.theories.members[i]? = some m → check c.atoms m.theory = .ok true) :
    ∃ calls, c.run (checkEach check call error indices) =
      .ok (.ok (), { c with theories := { c.theories with calls } }) := by
  induction indices generalizing c with
  | nil => exact ⟨c.theories.calls, rfl⟩
  | cons i rest ih =>
    have asked : ∃ answer calls, answer ≠ some false ∧ (c.theories.changeAt i fun m : Member σ => do
        let answer ← check c.atoms m.theory
        return (answer, m, [call answer])) = .ok (answer, { c.theories with calls }) := by
      unfold Registry.changeAt
      cases found : c.theories.members[i]? with
      | none => exact ⟨none, _, nofun, rfl⟩
      | some m =>
        dsimp only
        rw [agree i m found]
        exact ⟨some true, _, nofun, congrArg (fun r => Except.ok (some true, r)) (Registry.set_self found _)⟩
    obtain ⟨answer, calls, undenied, called⟩ := asked
    obtain ⟨more, others⟩ := ih (c := { c with theories := { c.theories with calls } }) agree
    refine ⟨more, ?_⟩
    rw [← others]
    change c.run (ofFaulty (c.theories.changeAt i _) >>= _) = _
    rw [called]
    change Context.run _ (if answer = some false then _ else _) = _
    rw [if_neg undenied]

/-- The first theory that denies may be another one under other indices, so its denial is left out of the comparison.
-/
theorem checkEach_follows (alike : (renumbering π spared).Alike c c') {check : Atoms → σ → Except Fault Bool}
    {call : Bool → Call} {error : Nat → TheoryError} (denials : ∀ i, spared (error i))
    (named : ∀ s j t, check (s.renumber π) (Theory.setIndex j t) = check s t) :
    (renumbering π spared).Follows id
      (do checkEach check call error (List.range (← get).theories.count) : Procedure σ Unit)
      (do checkEach check call error (List.range (← get).theories.count)) c c' := by
  obtain ⟨theories, renumbered, rfl⟩ := alike_renumbering.mp alike
  refine .get_bind ?_
  intro result after ran unspared
  obtain ⟨⟨calls, rfl⟩, outcome⟩ := checkEach_ensures check call error _ _ _ ran
  rcases outcome with ⟨i, rfl⟩ | ⟨rfl, agree⟩
  · exact absurd (denials i) (unspared _ rfl)
  · obtain ⟨calls', passed⟩ := run_checkEach (c := { c with atoms := c.atoms.renumber π, theories }) check call
      error (List.range theories.count) fun k m' found => by
        obtain ⟨i, m, rfl, inside, rfl⟩ := renumbered.exists_counterpart found
        exact (named _ _ _).trans
          (agree i (List.mem_range.mpr (List.getElem?_eq_some_iff.mp inside).1) m inside)
    refine ⟨_, passed, .of_renumbered ?_⟩
    exact ⟨renumbered.member, renumbered.schedule, renumbered.decisions, renumbered.baseFacts⟩

/-- A theory that is asked answers under another index what it answers under its own. -/
theorem changeAt_bind {α β γ : Type} {r r' : Registry σ} (renumbered : r.Renumbered π r') {i : Nat}
    {f h : Member σ → Except Fault (α × Member σ × List Call)} {g : β → γ}
    {next : Option α × Registry σ → Procedure σ β} {next' : Option α × Registry σ → Procedure σ γ}
    (commutes : ∀ m, h (m.reindex (π i)) = (f m).map (Prod.map id (Prod.map (Member.reindex (π i)) id)))
    (rest : ∀ answer after after', after.Renumbered π after' →
      (renumbering π spared).Follows g (next (answer, after)) (next' (answer, after')) c c') :
    (renumbering π spared).Follows g (ofFaulty (r.changeAt i f) >>= next)
      (ofFaulty (r'.changeAt (π i) h) >>= next') c c' := by
  refine .ofFaulty_bind ?_
  rintro ⟨answer, after⟩ called
  obtain ⟨after', called', held⟩ := renumbered.changeAt_same commutes called
  exact ⟨(answer, after'), called', rest answer after after' held⟩

variable [Theory.Nameless σ]

/-! ### Decisions -/

theorem deliverAll_follows (alike : (renumbering π spared).Alike c c') :
    (renumbering π spared).Follows id (deliverAll : Procedure σ Unit) deliverAll c c' := by
  obtain ⟨theories, renumbered, rfl⟩ := alike_renumbering.mp alike
  refine .get_bind (.ofFaulty_bind fun told delivered => ?_)
  obtain ⟨told', delivered', after⟩ := renumbered.deliverAll delivered
  exact ⟨told', delivered', .modify (.of_renumbered after)⟩

theorem preprocess_follows (alike : (renumbering π spared).Alike c c') :
    (renumbering π spared).Follows id (preprocess : Procedure σ Unit) preprocess c c' := by
  obtain ⟨theories, renumbered, rfl⟩ := alike_renumbering.mp alike
  refine .get_bind (.ofFaulty_bind fun prepared preprocessed => ?_)
  obtain ⟨prepared', preprocessed', after⟩ := renumbered.preprocess preprocessed
  exact ⟨prepared', preprocessed', .modify (.of_renumbered after)⟩

theorem applyDecision_follows (alike : (renumbering π spared).Alike c c') (l : Literal)
    (proposer : Option (Nat × Option Marker)) :
    (renumbering π spared).Follows id (applyDecision l proposer : Procedure σ Unit)
      (applyDecision l (proposer.map (Prod.map π id))) c c' := by
  refine .bind (deliverAll_follows alike) fun _ mid mid' alike => ?_
  obtain ⟨theories, renumbered, rfl⟩ := alike_renumbering.mp alike
  refine .get_bind (.ofFaulty_bind fun deeper opened => ?_)
  obtain ⟨deeper', opened', after⟩ := renumbered.openLevel opened
  refine ⟨deeper', opened', .modify_bind (.modify_bind ?_)⟩
  refine .bind (assign_follows ?_ l .decision) fun _ _ _ alike =>
    .bind (count_follows alike _) fun _ _ _ alike => .modify (alike.setPhase _ (by decide))
  rcases proposer with _ | ⟨i, marker⟩
  · exact .of_renumbered after
  · exact .of_renumbered (after.recordDecision _)

theorem decideLiteral_follows (alike : (renumbering π spared).Alike c c') (l : Literal) :
    (renumbering π spared).Follows id (decideLiteral l : Procedure σ Unit) (decideLiteral l) c c' := by
  unfold decideLiteral
  refine .get_bind ?_
  have same : c'.atoms = c.atoms.renumber π := by
    obtain ⟨theories, renumbered, rfl⟩ := alike_renumbering.mp alike
    rfl
  dsimp only
  rw [same, Atoms.count_renumber, Atoms.value_renumber]
  split
  · exact .throw_bind alike
  · split
    · exact .throw_bind alike
    · exact .bind (preprocess_follows alike) fun _ _ _ alike => applyDecision_follows alike l none

/-- Theories are asked alike where they come in corresponding orders. -/
theorem askForProposal_follows (alike : (renumbering π spared).Alike c c') (indices : List Nat) :
    (renumbering π spared).Follows (Option.map (Prod.map π id)) (askForProposal indices : Procedure σ _)
      (askForProposal (indices.map π)) c c' := by
  induction indices generalizing c c' with
  | nil => exact .pure alike
  | cons i rest ih =>
    obtain ⟨theories, renumbered, rfl⟩ := alike_renumbering.mp alike
    rw [List.map_cons]
    unfold askForProposal
    refine .get_bind ?_
    dsimp only
    rw [renumbered.capabilities_eq]
    split
    · exact .fault
    · split
      · refine changeAt_bind renumbered (fun m => ?_) fun proposal asked asked' after => .modify_bind ?_
        · dsimp only [Member.reindex]
          rw [(Theory.Nameless.isNameless m.theory).decide]
          rfl
        dsimp only
        cases proposal.join with
        | none => exact ih (.of_renumbered after)
        | some proposal =>
          dsimp only
          rw [Atoms.isOpen_renumber]
          split
          · exact .pure (.of_renumbered after)
          · exact ih (.of_renumbered after)
      · exact ih (.of_renumbered renumbered)

theorem makeDecision_follows (alike : (renumbering π spared).Alike c c') :
    (renumbering π spared).Follows id (makeDecision : Procedure σ Decision) makeDecision c c' := by
  refine .bind (preprocess_follows alike) fun _ mid mid' alike => ?_
  have order : mid'.theories.schedule.order = mid.theories.schedule.order.map π := by
    obtain ⟨theories, renumbered, rfl⟩ := alike_renumbering.mp alike
    exact renumbered.schedule.order_eq
  refine .get_bind ?_
  rw [order]
  refine .bind (askForProposal_follows alike _) fun proposal _ _ alike => ?_
  rcases proposal with _ | ⟨i, proposal⟩
  · refine .bind (atomWithoutValue_follows alike) fun atom _ _ alike => ?_
    cases atom with
    | none => exact .pure alike
    | some a =>
      refine .bind (valueToDecide_follows alike a) fun value _ _ alike => ?_
      refine .ofFaulty_bind fun l found => ⟨l, found, ?_⟩
      exact .bind (applyDecision_follows alike l none) fun _ _ _ alike => .pure alike
  · refine .bind (count_follows alike _) fun _ _ _ alike => ?_
    exact .bind (applyDecision_follows alike _ (some (i, proposal.reason))) fun _ _ _ alike => .pure alike

/-! ### Turns of theories -/

theorem memberTurn_reindex {turn : σ → Turn (Option Clause × σ)} {call : Nat → List Literal → Option Clause → Call}
    (kind : TurnKind turn call) (i : Nat) (s : Atoms) (m : Member σ) :
    memberTurn (π i) turn call (s.renumber π) (m.reindex (π i)) =
      (memberTurn i turn call s m).map
        (Prod.map (Prod.map id (Atoms.renumber π)) (Prod.map (Member.reindex (π i)) id)) := by
  have named : ∀ j t, turn (Theory.setIndex j t) =
      (turn t).andThen fun outcome => .done (outcome.1, Theory.setIndex j outcome.2) := by
    cases kind with
    | propagate => exact fun j t => (Theory.Nameless.isNameless t).propagate j
    | solve => exact fun j t => (Theory.Nameless.isNameless t).solve j
  have blind : ∀ t, (turn t).Blind := by
    cases kind with
    | propagate => exact fun t => (Theory.Nameless.isNameless t).blind_propagate
    | solve => exact fun t => (Theory.Nameless.isNameless t).blind_solve
  have flushed : (if m.capabilities.deferredEnqueue = true then
        Theory.flush (s.renumber π) (Theory.setIndex (π i) m.theory) else Theory.setIndex (π i) m.theory) =
      Theory.setIndex (π i) (if m.capabilities.deferredEnqueue = true then Theory.flush s m.theory else m.theory) := by
    rw [(Theory.Nameless.isNameless m.theory).flush]
    split <;> rfl
  unfold memberTurn
  dsimp only [Member.reindex]
  rw [flushed, named, Turn.run_andThen, (blind _).run_renumber]
  cases (turn (if m.capabilities.deferredEnqueue = true then Theory.flush s m.theory else m.theory)).run i s <;> rfl

theorem takeTurn_follows (alike : (renumbering π spared).Alike c c') {turn : σ → Turn (Option Clause × σ)}
    {call : Nat → List Literal → Option Clause → Call} (kind : TurnKind turn call) (i : Nat) :
    (renumbering π spared).Follows (Option.map (Conflict.renumber π)) (takeTurn i turn call : Procedure σ _)
      (takeTurn (π i) turn call) c c' := by
  obtain ⟨theories, renumbered, rfl⟩ := alike_renumbering.mp alike
  refine .get_bind (.ofFaulty_bind fun (outcome, taken) took => ?_)
  obtain ⟨taken', took', after⟩ := renumbered.changeAt (fun m => memberTurn_reindex kind i c.atoms m) took
  refine ⟨_, took', ?_⟩
  rcases outcome with _ | ⟨conflict, atoms⟩
  · exact .throw (.of_renumbered renumbered)
  · refine .modify_bind (.modify_bind ?_)
    cases conflict with
    | none => exact .pure (.of_renumbered after)
    | some clause =>
      exact .bind (acceptConflict_follows (.of_renumbered after) i clause) fun _ _ _ alike => .pure alike

/-- Turns come to the same where theories come in corresponding orders. -/
theorem takeTurns_follows (alike : (renumbering π spared).Alike c c') (indices : List Nat) (assigned : Bool) :
    (renumbering π spared).Follows (Except.mapError (Conflict.renumber π))
      (takeTurns indices assigned : Procedure σ (Except Conflict Bool)) (takeTurns (indices.map π) assigned) c c' := by
  induction indices generalizing c c' assigned with
  | nil => exact .pure alike
  | cons i rest ih =>
    have trail : ∀ {c c' : Context σ}, (renumbering π spared).Alike c c' → c'.atoms.trail = c.atoms.trail := by
      intro c c' alike
      obtain ⟨theories, renumbered, rfl⟩ := alike_renumbering.mp alike
      rfl
    rw [List.map_cons]
    unfold takeTurns
    refine .get_bind ?_
    rw [trail alike]
    refine .bind (takeTurn_follows alike .propagate i) fun conflict _ _ alike => ?_
    cases conflict with
    | some conflict => exact .pure alike
    | none =>
      refine .get_bind ?_
      rw [trail alike]
      split
      · refine .bind (propagateClauses_follows alike) fun key _ _ alike => ?_
        cases key with
        | some key => exact .pure alike
        | none => exact .bind (deliverAll_follows alike) fun _ _ _ alike => ih alike true
      · exact ih alike assigned

theorem roundsWithin_follows (alike : (renumbering π spared).Alike c c') (fuel : Nat) :
    (renumbering π spared).Follows (Option.map (Conflict.renumber π))
      (roundsWithin fuel : Procedure σ (Option Conflict)) (roundsWithin fuel) c c' := by
  induction fuel generalizing c c' with
  | zero => exact .pure alike
  | succ fuel ih =>
    refine .bind (propagateClauses_follows alike) fun key _ _ alike => ?_
    cases key with
    | some key => exact .pure alike
    | none =>
      refine .bind (deliverAll_follows alike) fun _ mid mid' alike => ?_
      have order : mid'.theories.schedule.order = mid.theories.schedule.order.map π := by
        obtain ⟨theories, renumbered, rfl⟩ := alike_renumbering.mp alike
        exact renumbered.schedule.order_eq
      refine .get_bind ?_
      rw [order]
      refine .bind (takeTurns_follows alike _ false) fun outcome _ _ alike => ?_
      rcases outcome with conflict | (_ | _)
      · exact .pure alike
      · exact .pure alike
      · exact ih alike

/-! ### Rounds and the final check -/

theorem checkPropagated_follows (alike : (renumbering π TheoryError.IsDenial).Alike c c') :
    (renumbering π TheoryError.IsDenial).Follows id (checkPropagated : Procedure σ Unit) checkPropagated c c' :=
  checkEach_follows alike (fun _ => trivial) fun s j t => (Theory.Nameless.isNameless t).checkPropagated π s j

theorem checkSolved_follows (alike : (renumbering π TheoryError.IsDenial).Alike c c') :
    (renumbering π TheoryError.IsDenial).Follows id (checkSolved : Procedure σ Unit) checkSolved c c' :=
  checkEach_follows alike (fun _ => trivial) fun s j t =>
    congrArg Except.ok ((Theory.Nameless.isNameless t).checkSolved π s j)

theorem propagate_follows (alike : (renumbering π TheoryError.IsDenial).Alike c c') :
    (renumbering π TheoryError.IsDenial).Follows (Option.map (Conflict.renumber π))
      (propagate : Procedure σ (Option Conflict)) propagate c c' := by
  have same : ∀ {c c' : Context σ}, (renumbering π TheoryError.IsDenial).Alike c c' →
      c'.atoms.unvalued = c.atoms.unvalued ∧ c'.settings = c.settings := by
    intro c c' alike
    obtain ⟨theories, renumbered, rfl⟩ := alike_renumbering.mp alike
    exact ⟨Atoms.unvalued_renumber, rfl⟩
  unfold propagate
  refine .get_bind ?_
  rw [(same alike).1]
  refine .bind (roundsWithin_follows alike _) fun conflict mid mid' alike => ?_
  cases conflict with
  | some conflict => exact .pure alike
  | none =>
    refine .get_bind ?_
    dsimp only
    rw [(same alike).2]
    split
    · exact .bind (checkPropagated_follows alike) fun _ _ _ alike => .pure alike
    · exact .pure alike

theorem hintsSatisfied_follows (alike : (renumbering π spared).Alike c c') (i : Nat) :
    (renumbering π spared).Follows id (hintsSatisfied i : Procedure σ Bool) (hintsSatisfied (π i)) c c' := by
  obtain ⟨theories, renumbered, rfl⟩ := alike_renumbering.mp alike
  refine .get_bind (changeAt_bind renumbered (fun m => ?_) fun answer asked asked' after => ?_)
  · change (if m.capabilities.satisfactionHint = true then
      (Theory.isSatisfied (Theory.setIndex (π i) m.theory)).bind _ else _) = _
    rw [(Theory.Nameless.isNameless m.theory).isSatisfied]
    split
    · cases Theory.isSatisfied m.theory <;> rfl
    · rfl
  · cases answer with
    | none => exact .fault
    | some answer => exact .modify_bind (.pure (.of_renumbered after))

theorem solveEach_follows (alike : (renumbering π spared).Alike c c') (start : Nat) (indices : List Nat) :
    (renumbering π spared).Follows (FinalCheck.renumber π) (solveEach start indices : Procedure σ FinalCheck)
      (solveEach start (indices.map π)) c c' := by
  induction indices generalizing c c' with
  | nil => exact .pure alike
  | cons i rest ih =>
    rw [List.map_cons]
    unfold solveEach
    refine .bind (hintsSatisfied_follows alike i) fun satisfied _ _ alike => ?_
    dsimp only [id]
    split
    · exact ih alike
    · refine .bind (takeTurn_follows alike .solve i) fun conflict mid mid' alike => ?_
      cases conflict with
      | some conflict => exact .pure alike
      | none =>
        refine .get_bind ?_
        obtain ⟨theories, renumbered, rfl⟩ := alike_renumbering.mp alike
        dsimp only [Option.map_none]
        rw [Atoms.trail_renumber]
        split
        · exact .pure alike
        · exact ih alike

theorem finalCheck_follows (alike : (renumbering π TheoryError.IsDenial).Alike c c') :
    (renumbering π TheoryError.IsDenial).Follows (FinalCheck.renumber π) (finalCheck : Procedure σ FinalCheck)
      finalCheck c c' := by
  refine .bind (deliverAll_follows alike) fun _ mid mid' alike => ?_
  have same : mid'.atoms.trail = mid.atoms.trail ∧
      mid'.theories.schedule.order = mid.theories.schedule.order.map π := by
    obtain ⟨theories, renumbered, rfl⟩ := alike_renumbering.mp alike
    exact ⟨rfl, renumbered.schedule.order_eq⟩
  have settings : mid'.settings = mid.settings := by
    obtain ⟨theories, renumbered, rfl⟩ := alike_renumbering.mp alike
    rfl
  refine .get_bind ?_
  rw [same.1, same.2, settings]
  refine .bind (solveEach_follows alike _ _) fun outcome _ _ alike => ?_
  cases outcome with
  | satisfied =>
    dsimp only [FinalCheck.renumber]
    split
    · exact .bind (checkSolved_follows alike) fun _ _ _ alike => .pure alike
    · exact .pure alike
  | assigned => exact .pure alike
  | conflict conflict => exact .pure alike

/-! ### Conflicts -/

theorem backjump_follows (alike : (renumbering π spared).Alike c c') (level : Nat) :
    (renumbering π spared).Follows id (backjump level : Procedure σ Unit) (backjump level) c c' := by
  have same : c'.level = c.level := by
    obtain ⟨theories, renumbered, rfl⟩ := alike_renumbering.mp alike
    rfl
  unfold backjump
  refine .get_bind ?_
  dsimp only
  rw [same]
  split
  · obtain ⟨theories, renumbered, rfl⟩ := alike_renumbering.mp alike
    refine .ofFaulty_bind fun retracted undecided => ?_
    obtain ⟨retracted', undecided', between⟩ := renumbered.retractAbove undecided
    refine ⟨retracted', undecided', .ofFaulty_bind fun taken back => ?_⟩
    obtain ⟨taken', back', after⟩ := between.backtrack back
    rw [Atoms.forgetAbove_renumber]
    exact ⟨taken', back', .modify_bind (.modify (.of_renumbered after))⟩
  · exact .pure alike

theorem clearDecisions_follows (alike : (renumbering π spared).Alike c c') :
    (renumbering π spared).Follows id (clearDecisions : Procedure σ Unit) clearDecisions c c' := by
  refine .bind (backjump_follows alike 0) fun _ mid mid' alike => .get_bind ?_
  have phase : mid'.phase = mid.phase := by
    obtain ⟨theories, renumbered, rfl⟩ := alike_renumbering.mp alike
    rfl
  rw [phase]
  split
  · exact .modify (alike.setPhase _ (by decide))
  · exact .pure alike

theorem reasonFor_follows (alike : (renumbering π spared).Alike c c') (l : Literal) :
    (renumbering π spared).Follows id (reasonFor l : Procedure σ Clause) (reasonFor l) c c' := by
  obtain ⟨theories, renumbered, rfl⟩ := alike_renumbering.mp alike
  unfold reasonFor
  refine .get_bind ?_
  dsimp only
  rw [Atoms.reasonOf_renumber]
  rcases c.atoms.reasonOf l.atom with _ | (_ | key | ⟨i, marker⟩)
  · exact .throw alike
  · exact .throw alike
  · exact .ofExcept_same alike fun _ => rfl
  · refine changeAt_bind renumbered (fun m => ?_) fun reason asked asked' after => ?_
    · dsimp only [Member.reindex]
      rw [(Theory.Nameless.isNameless m.theory).buildReason]
      cases Theory.buildReason l marker m.theory <;> rfl
    cases reason with
    | none => exact .throw alike
    | some reason =>
      refine .modify_bind (.bind (count_follows ?_ _) fun _ _ _ alike => ?_)
      · exact .of_renumbered (after.withSchedule (after.schedule.bumpBy _ i))
      · rw [Atoms.isReason_renumber]
        split
        · exact .pure alike
        · exact .throw alike

omit [Theory σ] [Theory.Nameless σ] in
/-- What is missing for a resolution is no theory. -/
theorem addAll_plain {s : Atoms} {r : Resolvent} {clause : Clause} {e : Error}
    (failed : r.addAll s clause = .error e) : e.renumber π = e := by
  induction clause generalizing r with
  | nil => cases failed
  | cons l rest ih =>
    rw [Resolvent.addAll, List.foldlM_cons] at failed
    rcases Except.bind_eq_error failed with here | ⟨r', _, later⟩
    · unfold Resolvent.add at here
      repeat' split at here
      all_goals cases here <;> rfl
    · exact ih later

theorem resolve_follows (alike : (renumbering π spared).Alike c c') (trail : List Literal) (position : Nat)
    (r : Resolvent) :
    (renumbering π spared).Follows id (resolve trail position r : Procedure σ _) (resolve trail position r)
      c c' := by
  induction position generalizing c c' r with
  | zero => exact .throw alike
  | succ position ih =>
    have same : c'.atoms = c.atoms.renumber π := by
      obtain ⟨theories, renumbered, rfl⟩ := alike_renumbering.mp alike
      rfl
    unfold resolve
    refine .ofFaulty_bind fun l found => ⟨l, found, .get_bind (.ofFaulty_bind fun met marked => ⟨met, ?_, ?_⟩)⟩
    · rw [same, Resolvent.isMarked, Atoms.count_renumber]
      exact marked
    · split
      · split
        · exact .pure alike
        · refine .bind (reasonFor_follows alike l) fun reason mid mid' alike => .get_bind ?_
          obtain ⟨theories, renumbered, rfl⟩ := alike_renumbering.mp alike
          dsimp only [id]
          rw [Atoms.addAll_renumber]
          exact .ofExcept_same_bind alike (fun _ failed => addAll_plain failed) fun r' _ => ih alike r'
      · exact ih alike r

omit [Theory σ] [Theory.Nameless σ] in
theorem backjumpLevel_plain {s : Atoms} {clause : Clause} {e : Error} (failed : s.backjumpLevel clause = .error e) :
    e.renumber π = e := by
  rcases Except.bind_eq_error failed with failed | ⟨levels, _, done⟩
  · obtain ⟨l, _, here⟩ := Except.mapM_eq_error failed
    split at here
    · cases here
    · cases here
      rfl
  · cases done

theorem analyse_follows (alike : (renumbering π spared).Alike c c') (conflict : Clause) :
    (renumbering π spared).Follows id (analyse conflict : Procedure σ Learnt) (analyse conflict) c c' := by
  have same : c'.atoms = c.atoms.renumber π := by
    obtain ⟨theories, renumbered, rfl⟩ := alike_renumbering.mp alike
    rfl
  unfold analyse
  refine .get_bind ?_
  dsimp only
  rw [same, Atoms.addAll_renumber, Atoms.trail_renumber]
  refine .ofExcept_same_bind alike (fun _ failed => addAll_plain failed) fun r _ => ?_
  split
  · exact .throw_bind alike
  · refine .bind (resolve_follows alike _ _ r) fun (last, lower) mid mid' alike => ?_
    obtain ⟨theories, renumbered, rfl⟩ := alike_renumbering.mp alike
    refine .get_bind ?_
    dsimp only [id]
    rw [Atoms.backjumpLevel_renumber]
    refine .ofExcept_same_bind alike (fun e failed => ?_) fun level _ => ?_
    · exact backjumpLevel_plain failed
    · refine .get_bind (.ofExcept_same_bind alike (fun _ _ => rfl) fun (key, clauses) _ => .modify_bind ?_)
      dsimp only
      split
      · exact .pure (.of_renumbered renumbered)
      · exact .pure (.of_renumbered renumbered)

omit [Theory.Nameless σ] in
theorem conflictLevel_follows (alike : (renumbering π spared).Alike c c') (clause : Clause) :
    (renumbering π spared).Follows id (conflictLevel clause : Procedure σ Nat) (conflictLevel clause) c c' := by
  obtain ⟨theories, renumbered, rfl⟩ := alike_renumbering.mp alike
  refine .get_bind ?_
  dsimp only
  rw [Atoms.levelOf_renumber]
  refine .ofExcept_same_bind alike (fun e failed => ?_) fun levels _ => .pure alike
  obtain ⟨l, _, here⟩ := Except.mapM_eq_error failed
  split at here
  · cases here
  · cases here
    rfl

/-- What was learnt makes a literal true. -/
theorem learn_follows (alike : (renumbering π spared).Alike c c') (key : ClauseKey) (literal : Literal) (level : Nat) :
    (renumbering π spared).Follows id
      (do
        backjump level
        match ← assign literal (.clause key) with
        | .unset => return Recovery.asserted key literal level
        | _ => throw .valuationConflict : Procedure σ Recovery)
      (do
        backjump level
        match ← assign literal (.clause key) with
        | .unset => return Recovery.asserted key literal level
        | _ => throw .valuationConflict : Procedure σ Recovery) c c' := by
  refine .bind (backjump_follows alike level) fun _ _ _ alike => ?_
  refine .bind (assign_follows alike literal (.clause key)) fun status _ _ alike => ?_
  cases status with
  | unset => exact .pure alike
  | same => exact .throw alike
  | different => exact .throw alike

theorem recoverClause_follows (alike : (renumbering π spared).Alike c c') (clause : Clause) :
    (renumbering π spared).Follows id (recoverClause clause : Procedure σ Recovery) (recoverClause clause) c c' := by
  refine .bind (conflictLevel_follows alike clause) fun level _ _ alike => ?_
  dsimp only [id]
  split
  · exact .modify_bind (.pure (alike.setPhase _ (by decide)))
  · refine .bind (backjump_follows alike level) fun _ _ _ alike => ?_
    refine .bind (analyse_follows alike clause) fun learnt _ _ alike => ?_
    cases learnt with
    | unit key literal => exact learn_follows alike key literal 0
    | asserting key literal level => exact learn_follows alike key literal level

theorem recover_follows (alike : (renumbering π spared).Alike c c') (conflict : Conflict) :
    (renumbering π spared).Follows id (recover conflict : Procedure σ Recovery) (recover (conflict.renumber π))
      c c' := by
  refine .bind (count_follows alike _) fun _ mid mid' alike => ?_
  cases conflict with
  | theory i clause => exact recoverClause_follows alike clause
  | clause key =>
    have same : mid'.clauses = mid.clauses := by
      obtain ⟨theories, renumbered, rfl⟩ := alike_renumbering.mp alike
      rfl
    refine .get_bind ?_
    rw [same]
    exact .ofExcept_same_bind alike (fun _ _ => rfl) fun clause _ => recoverClause_follows alike clause

/-! ### The search -/

theorem recoverFrom_follows (alike : (renumbering π spared).Alike c c') (conflict : Conflict) :
    (renumbering π spared).Follows id (iterate.recoverFrom conflict : Procedure σ (Option Report))
      (iterate.recoverFrom (conflict.renumber π)) c c' := by
  refine .bind (recover_follows alike conflict) fun recovery _ _ alike => ?_
  cases recovery with
  | unsatisfiable => exact .pure alike
  | asserted key literal level => exact .pure alike

theorem iterate_follows (alike : (renumbering π TheoryError.IsDenial).Alike c c') :
    (renumbering π TheoryError.IsDenial).Follows id (iterate : Procedure σ (Option Report)) iterate c c' := by
  refine .bind (count_follows alike _) fun _ counted counted' alike => .get_bind ?_
  have same : counted'.settings = counted.settings ∧ counted'.counters = counted.counters := by
    obtain ⟨theories, renumbered, rfl⟩ := alike_renumbering.mp alike
    exact ⟨rfl, rfl⟩
  rw [same.1, same.2]
  split
  · exact .pure alike
  refine .bind (propagate_follows alike) fun conflict mid mid' alike => ?_
  cases conflict with
  | some conflict => exact recoverFrom_follows alike conflict
  | none =>
    refine .get_bind ?_
    obtain ⟨theories, renumbered, rfl⟩ := alike_renumbering.mp alike
    refine .ofFaulty_bind fun (isNew, cleared) called => ?_
    obtain ⟨cleared', called', after⟩ := renumbered.clearSatisfied called
    refine ⟨(isNew, cleared'), called', .modify_bind ?_⟩
    refine .bind (makeDecision_follows (.of_renumbered after)) fun decision _ _ alike => ?_
    cases decision with
    | decided l => exact .pure alike
    | exhausted =>
      refine .bind (finalCheck_follows alike) fun outcome _ _ alike => ?_
      cases outcome with
      | satisfied => exact .modify_bind (.pure (alike.setPhase _ (by decide)))
      | assigned => exact .pure alike
      | conflict conflict => exact recoverFrom_follows alike conflict

theorem iterateWithin_follows (alike : (renumbering π TheoryError.IsDenial).Alike c c') (fuel : Nat) :
    (renumbering π TheoryError.IsDenial).Follows id (iterateWithin fuel : Procedure σ Report) (iterateWithin fuel)
      c c' := by
  induction fuel generalizing c c' with
  | zero => exact .pure alike
  | succ fuel ih =>
    refine .bind (iterate_follows alike) fun answer _ _ alike => ?_
    cases answer with
    | some report => exact .pure alike
    | none => exact ih alike

/-- A search has the same answer where theories have other indices. -/
theorem solve_follows (alike : (renumbering π TheoryError.IsDenial).Alike c c') :
    (renumbering π TheoryError.IsDenial).Follows id (solve : Procedure σ Report) solve c c' := by
  have phase : c'.phase = c.phase := by
    obtain ⟨theories, renumbered, rfl⟩ := alike_renumbering.mp alike
    rfl
  unfold solve
  refine .get_bind ?_
  rw [phase]
  split
  · exact .pure alike
  · refine .bind (preprocess_follows alike) fun _ mid mid' alike => .modify_bind (.get_bind ?_)
    have count : mid'.atoms.count = mid.atoms.count := by
      obtain ⟨theories, renumbered, rfl⟩ := alike_renumbering.mp alike
      exact Atoms.count_renumber
    dsimp only
    rw [count]
    exact iterateWithin_follows (alike.setPhase _ (by decide)) _

end Procedure

end SatModulo
