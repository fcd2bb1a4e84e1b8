import SatModulo.Proofs.Recovery

/-!
# The course of a search

Decisions are made on atoms without a value, after every theory has been told of the trail, and none is
made only when every atom has a value (`Procedure.makeDecision_course`). A search is made of moves; it
decides only where nothing is left to be drawn from clauses, and answers that there is a solution only
where every atom has a value and every theory agrees (`Procedure.solve_course`).
-/
namespace SatModulo

theorem Atoms.isOpen_eq_true {s : Atoms} {l : Literal} (isOpen : s.isOpen l = true) :
    l.atom < s.count ∧ s.value l.atom = none := by
  simp only [Atoms.isOpen, Bool.and_eq_true, decide_eq_true_eq, Option.isNone_iff_eq_none] at isOpen
  exact ⟨isOpen.1.2, isOpen.2⟩

variable {σ : Type} [Theory σ] {c c' : Context σ}

namespace Procedure

theorem preprocess_leads :
    (preprocess : Procedure σ Unit).Leads Draw c c fun _ after => after.atoms = c.atoms :=
  .get_bind (.ofFaulty_bind fun theories prepared =>
    .modify (.single (.preprocess c theories prepared)) rfl)

/-- A proposal that is taken up can be decided. -/
theorem askForProposal_leads (indices : List Nat) :
    (askForProposal indices : Procedure σ (Option (Nat × Proposal))).Leads Draw c c
      fun outcome after => after.atoms = c.atoms ∧
        ∀ i proposal, outcome = some (i, proposal) → c.atoms.isOpen proposal.literal := by
  induction indices generalizing c with
  | nil => exact .pure .refl ⟨rfl, fun _ _ no => by cases no⟩
  | cons i rest ih =>
    refine .get_bind ?_
    dsimp only
    split
    · exact .fault
    · split
      · refine .ofFaulty_bind fun (proposal, theories) asked => ?_
        have moved : Draws c { c with theories } := by
          cases proposal with
          | none =>
            obtain ⟨_, rfl⟩ := Registry.changeAt_eq_none asked
            exact .refl
          | some proposal =>
            obtain ⟨m, m', own, found, answered, rfl⟩ := Registry.changeAt_eq_ok asked
            cases answered
            exact .single (.ask c i m found (.decide _) trivial _ (.decide _ _ c.atoms _ rfl))
        refine .modify_bind ?_
        split
        · rename_i proposal _
          split
          · rename_i isOpen
            refine .pure moved ⟨rfl, ?_⟩
            rintro j other same
            cases same
            exact isOpen
          · exact ih.from_start moved
        · exact ih.from_start moved
      · exact ih

/-- A decision: theories are told of the trail, and the literal is made true on a level of its own. -/
def Decides (c after : Context σ) : Prop :=
  ∃ mid opened, Draws c mid ∧ mid.atoms = c.atoms ∧ Decide mid opened ∧ Draw opened after

/-- The decisions of a command given to a context are made on the atoms that the context has. -/
def decidesAt (c : Context σ) : Intake σ := { decides := fun mid => mid.atoms = c.atoms }

theorem Decides.moves (decided : Decides c c') : Moves (decidesAt c) c c' := by
  obtain ⟨mid, opened, draws, same, decide, after⟩ := decided
  exact ((Draws.moves draws).tail (.decide same decide)).tail (.draw after)

/-- What a decision comes to. -/
def DecisionMade {α : Type} (c : Context σ) (result : Except Error α) (after : Context σ) : Prop :=
  match result with
  | .ok _ => Decides c after ∧ after.phase = .solving
  | .error e => Draws c after ∧ e.conflict? = none

/-- Theories have been told of the trail, and a literal is true on a level of its own, which is open on
all of them. -/
def Decided (l : Literal) (proposer : Option (Nat × Option Marker)) (c after : Context σ) : Prop :=
  ∃ told opened atoms, c.theories.deliverAll c.atoms.trail = .ok told ∧ told.openLevel = .ok opened ∧
    c.atoms.openLevel.assign l .decision = .ok (.unset, atoms) ∧
    after = { c with
      atoms
      theories := match proposer with
        | none => opened
        | some (theory, reason) => opened.recordDecision ⟨c.atoms.openLevel.level, theory, l, reason⟩
      phase := .solving
      counters.decisions := c.counters.decisions + 1 }

/-- A literal without a value can be decided. -/
theorem applyDecision_decided {l : Literal} (known : l.atom < c.atoms.count)
    (unset : c.atoms.value l.atom = none) (proposer : Option (Nat × Option Marker)) :
    (applyDecision l proposer).Ensures c fun result after =>
      result = .ok () ∧ Decided l proposer c after := by
  have assigned (told : Context σ) (onLevel : told.atoms = c.atoms.openLevel) :
      (assign l .decision).Ensures told fun result after =>
        ∃ atoms, c.atoms.openLevel.assign l .decision = .ok (.unset, atoms) ∧
          result = .ok .unset ∧ after = { told with atoms } := by
    refine assign_unset ?_ ?_ fun atoms made => ⟨atoms, onLevel ▸ made, rfl, rfl⟩
    · rw [onLevel]
      exact known
    · rw [Context.valueOf, Atoms.valueOf, onLevel]
      exact Literal.valueOn_eq_none.mpr unset
  refine .bind (m := fun result mid => result = .ok () ∧ ∃ told,
      c.theories.deliverAll c.atoms.trail = .ok told ∧ mid = { c with theories := told })
    (.get_bind (.ofFaulty_bind fun told delivered => .modify ⟨rfl, told, delivered, rfl⟩))
    (fun e after failed => by cases failed.1) ?_
  rintro ⟨⟩ _ ⟨_, told, delivered, rfl⟩
  refine .get_bind (.ofFaulty_bind fun opened raised => .modify_bind (.modify_bind ?_))
  refine .bind (assigned _ rfl) ?_ ?_
  · rintro e after ⟨_, _, failed, _⟩
    cases failed
  · rintro status _ ⟨atoms, made, _, rfl⟩
    exact .modify_bind (.modify ⟨rfl, told, opened, atoms, delivered, raised, made, rfl⟩)

theorem Decided.decides {l : Literal} {proposer : Option (Nat × Option Marker)}
    (decided : Decided l proposer c c') : Decides c c' ∧ c'.phase = .solving := by
  obtain ⟨told, opened, atoms, delivered, raised, made, rfl⟩ := decided
  let mid : Context σ := { c with theories := told }
  have all : mid.AllDelivered := .of_deliverAll delivered
  refine ⟨⟨mid, _, .single (.deliver c told delivered), rfl,
    .decide mid l proposer opened atoms all raised made, ?_⟩, rfl⟩
  exact .adjust _ c.random { c.counters with decisions := c.counters.decisions + 1 } _ rfl

theorem applyDecision_course {l : Literal} (known : l.atom < c.atoms.count)
    (unset : c.atoms.value l.atom = none) (proposer : Option (Nat × Option Marker)) :
    (applyDecision l proposer).Ensures c (DecisionMade c) := by
  refine (applyDecision_decided known unset proposer).mono ?_
  rintro result after ⟨rfl, decided⟩
  exact decided.decides

theorem DecisionMade.after_draws {α : Type} {mid after : Context σ} {result : Except Error α}
    (draws : Draws c mid) (same : mid.atoms = c.atoms) (made : DecisionMade mid result after) :
    DecisionMade c result after := by
  cases result with
  | error e => exact ⟨draws.trans made.1, made.2⟩
  | ok a =>
    obtain ⟨⟨told, opened, further, same', decide, counted⟩, phase⟩ := made
    exact ⟨⟨told, opened, draws.trans further, same'.trans same, decide, counted⟩, phase⟩

/-- Where a literal is decided, theories have been told of the trail, and the literal is on a level of its own. -/
theorem decideLiteral_course (l : Literal) :
    (decideLiteral l : Procedure σ Unit).Ensures c (DecisionMade c) := by
  refine .get_bind ?_
  dsimp only
  split
  · exact .throw_bind ⟨.refl, rfl⟩
  · rename_i proper
    split
    · exact .throw_bind ⟨.refl, rfl⟩
    · rename_i unset
      refine .bind preprocess_leads (fun e after failed => failed) ?_
      rintro ⟨⟩ mid ⟨reached, same⟩
      refine (applyDecision_course (c := mid) ?_ ?_ none).mono fun result after made =>
        made.after_draws reached same
      · rw [same]
        exact Nat.not_le.mp fun beyond => proper (.inr beyond)
      · rw [same]
        simpa using unset

omit [Theory σ] in
/-- The atom to decide has no value; if none is found, every atom has one. -/
theorem atomWithoutValue_leads {r : Context σ → Context σ → Prop} (adjust : Adjusts r) :
    (atomWithoutValue : Procedure σ (Option Atom)).Leads r c c fun outcome after =>
      (after.atoms = c.atoms ∧ after.theories = c.theories) ∧
        match outcome with
        | some a => a ∈ c.atoms.unvalued
        | none => c.atoms.unvalued = [] := by
  refine .get_bind (.call (chance_leads adjust _) .refl ?_)
  rintro atRandom after reached ⟨random, rfl⟩
  refine .get_bind ?_
  dsimp only
  split
  · refine .modify_bind (.pure (reached.tail (adjust _ _ c.counters _ rfl)) ⟨⟨rfl, rfl⟩, ?_⟩)
    cases choice : (c.settings.host.sampler.choose c.atoms.unvalued random).1 with
    | none => exact c.settings.host.sampler.nil_of_choose _ _ choice
    | some a => exact c.settings.host.sampler.mem_of_choose _ _ a choice
  · refine .pure reached ⟨⟨rfl, rfl⟩, ?_⟩
    cases first : c.atoms.unvalued with
    | nil => rfl
    | cons a rest => exact .head _

omit [Theory σ] in
theorem valueToDecide_leads {r : Context σ → Context σ → Prop} (adjust : Adjusts r) (a : Atom) :
    (valueToDecide a : Procedure σ Bool).Leads r c c fun _ after =>
      after.atoms = c.atoms ∧ after.theories = c.theories := by
  refine .get_bind ?_
  split
  · exact .pure .refl ⟨rfl, rfl⟩
  · refine (chance_leads adjust _).mono (fun _ _ => id) ?_
    rintro value after ⟨random, rfl⟩
    exact ⟨rfl, rfl⟩

/-- A decision is made unless every atom has a value. -/
theorem makeDecision_course (h : c.Coherent) :
    (makeDecision : Procedure σ Decision).Ensures c fun result after =>
      match result with
      | .ok .exhausted => Draws c after ∧ after.atoms = c.atoms ∧ c.atoms.unvalued = []
      | .ok (.decided _) => Decides c after ∧ after.phase = .solving
      | .error e => Draws c after ∧ e.conflict? = none := by
  refine .bind preprocess_leads (fun e after failed => failed) ?_
  rintro ⟨⟩ prepared ⟨reached, same⟩
  refine .get_bind (.bind (askForProposal_leads _) ?_ ?_)
  · rintro e after ⟨further, quiet⟩
    exact ⟨reached.trans further, quiet⟩
  · rintro proposal asked ⟨further, same', taken⟩
    replace same' := same'.trans same
    replace further := reached.trans further
    split
    · rename_i i proposal
      obtain ⟨known, unset⟩ := Atoms.isOpen_eq_true (taken i proposal rfl)
      rw [same] at known unset
      have counted := further.tail (.adjust asked asked.random
        { asked.counters with theoryDecisions := asked.counters.theoryDecisions + 1 } _ rfl)
      refine .modify_bind (.bind (applyDecision_course ?_ ?_ _) ?_ ?_)
      · change proposal.literal.atom < asked.atoms.count
        rw [same']
        exact known
      · change asked.atoms.value proposal.literal.atom = none
        rw [same']
        exact unset
      · intro e after made
        exact made.after_draws counted same'
      · intro _ after made
        exact .pure (made.after_draws counted same')
    · refine .bind (atomWithoutValue_leads Draw.adjust) ?_ ?_
      · rintro e after ⟨later, quiet⟩
        exact ⟨further.trans later, quiet⟩
      · rintro outcome drawn ⟨later, ⟨sameDrawn, _⟩, chosen⟩
        replace sameDrawn := sameDrawn.trans same'
        rw [same'] at chosen
        replace later := further.trans later
        split
        · exact .pure ⟨later, sameDrawn, chosen⟩
        · rename_i a
          obtain ⟨known, unset⟩ := Atoms.mem_unvalued.mp chosen
          refine .bind (valueToDecide_leads Draw.adjust a) ?_ ?_
          · rintro e after ⟨last, quiet⟩
            exact ⟨later.trans last, quiet⟩
          · rintro value valued ⟨last, sameValued, _⟩
            replace sameValued := sameValued.trans sameDrawn
            refine .ofFaulty_bind fun l isLiteral => ?_
            have room := h.supports.atoms.room
            have onAtom : l.atom = a := by
              rw [Literal.ofAtom_eq_ok (by lia) isLiteral, Literal.atom_on]
            refine .bind (applyDecision_course ?_ ?_ none) ?_ ?_
            · rw [sameValued, onAtom]
              exact known
            · rw [sameValued, onAtom]
              exact unset
            · intro e after made
              exact made.after_draws (later.trans last) sameValued
            · intro _ after made
              exact .pure (made.after_draws (later.trans last) sameValued)

end Procedure

theorem Move.phase_ne {taking : Intake σ} (move : Move taking c c')
    (before : c.phase ≠ .unsatisfiable) : c'.phase ≠ .unsatisfiable := by
  cases move with
  | draw move => rwa [move.frame.2.1]
  | jump move => cases move <;> exact before
  | decide allowed move =>
    cases move
    exact Phase.noConfusion
  | build move => cases move <;> exact before
  | settle phase _ after => exact after
  | configure settings given => exact before

theorem Moves.phase_ne {taking : Intake σ} (moves : Moves taking c c')
    (before : c.phase ≠ .unsatisfiable) : c'.phase ≠ .unsatisfiable := by
  induction moves with
  | refl => exact before
  | tail _ move ih => exact move.phase_ne ih

/-- A search decides only where nothing is left to be drawn from clauses. -/
def decidesAtEnd : Intake σ := { decides := fun c => c.atoms.trail.head = c.atoms.trail.length }

/-- A solution was found on the way: every atom has a value, nothing is left to be drawn from clauses,
and every theory agreed at a moment when it had been told of the whole trail. -/
def Context.SolvedFrom (c after : Context σ) : Prop :=
  ∃ full, Moves decidesAtEnd c full ∧ full.atoms.trail.head = full.atoms.trail.length ∧
    full.atoms.unvalued = [] ∧ after.atoms = full.atoms ∧ after.clauses = full.clauses ∧
    ∀ i < full.theories.members.length, ∃ mid,
      Draws full mid ∧ mid.atoms = full.atoms ∧ mid.AllDelivered ∧ mid.Settles i

namespace Procedure

/-- What a search, or an iteration of it, comes to. -/
def Searched (c : Context σ) (result : Except Error (Option Report)) (after : Context σ) : Prop :=
  match result with
  | .ok (some .unsatisfiable) => ∃ mid, Moves decidesAtEnd c mid ∧ Refute {} mid after
  | .ok (some .satisfiable) => Moves decidesAtEnd c after ∧ after.phase = .satisfiable ∧
    c.SolvedFrom after
  | .ok _ => Moves decidesAtEnd c after
  | .error e => Moves decidesAtEnd c after ∧ e.conflict? = none

theorem Searched.after_moves {mid after : Context σ} {result : Except Error (Option Report)}
    (moves : Moves decidesAtEnd c mid) (searched : Searched mid result after) :
    Searched c result after := by
  cases result with
  | error e => exact ⟨moves.trans searched.1, searched.2⟩
  | ok outcome =>
    cases outcome with
    | none => exact moves.trans searched
    | some report =>
      cases report with
      | satisfiable =>
        obtain ⟨further, phase, full, toFull, rest⟩ := searched
        exact ⟨moves.trans further, phase, full, moves.trans toFull, rest⟩
      | unsatisfiable =>
        obtain ⟨last, further, refuted⟩ := searched
        exact ⟨last, moves.trans further, refuted⟩
      | unknown => exact moves.trans searched

theorem Searched.course {after : Context σ} {result : Except Error Report}
    (searched : Searched c (result.map some) after) : Course decidesAtEnd c after := by
  cases result with
  | error e => exact .inl searched.1
  | ok report =>
    cases report with
    | satisfiable => exact .inl searched.1
    | unknown => exact .inl searched
    | unsatisfiable =>
      obtain ⟨mid, moves, refuted⟩ := searched
      exact .inr ⟨mid, moves, (Intake.empty_le _).refute refuted⟩

/-- After a conflict the search goes on if something was learnt, and ends otherwise. -/
theorem recoverFrom_course (h : c.Coherent) {conflict : Conflict}
    (conflicting : c.Conflicting conflict) :
    (iterate.recoverFrom conflict : Procedure σ (Option Report)).Ensures c (Searched c) := by
  have more : ∀ {a b : Context σ}, Moves {} a b → Moves decidesAtEnd a b := fun moves =>
    (Intake.empty_le _).moves moves
  refine .bind (recover_course h conflicting) ?_ ?_
  · rintro e after ⟨moves, quiet⟩
    exact ⟨more moves, quiet⟩
  · rintro recovery after recovered
    cases recovery with
    | unsatisfiable =>
      obtain ⟨mid, moves, refuted⟩ := recovered
      exact .pure ⟨mid, more moves, refuted⟩
    | asserted key literal level => exact .pure (more recovered.moves)

/-- An iteration draws consequences and then recovers from a conflict, decides, or answers. -/
theorem iterate_course (h : c.Coherent) (open' : c.phase ≠ .unsatisfiable) :
    (iterate : Procedure σ (Option Report)).Ensures c (Searched c) := by
  have counted : Draw c { c with counters.iterations := c.counters.iterations + 1 } :=
    .adjust c c.random _ c.theories.schedule rfl
  have first : Draws c _ := .single counted
  refine .modify_bind (.get_bind ?_)
  split
  · exact .pure (Draws.moves first)
  refine .bind (propagate_leads (counted.coherent h)) ?_ ?_
  · rintro e after ⟨further, quiet⟩
    exact ⟨Draws.moves (first.trans further), quiet⟩
  · rintro outcome propagated ⟨further, found⟩
    replace further := first.trans further
    have coherent := Draws.coherent further h
    split
    · exact (recoverFrom_course coherent found).mono fun result after searched =>
        searched.after_moves (Draws.moves further)
    · refine .get_bind (.ofFaulty_bind fun (isNew, theories) cleared => .modify_bind ?_)
      have further' := further.tail (.clearSatisfied propagated isNew theories cleared)
      refine .bind (makeDecision_course (Draws.coherent further' h)) ?_ ?_
      · rintro e after ⟨last, quiet⟩
        exact ⟨Draws.moves (further'.trans last), quiet⟩
      · rintro decision decided made
        cases decision with
        | decided l =>
          have moves := Decides.moves made.1
          have atEnd : Intake.Le (decidesAt { propagated with theories }) decidesAtEnd := by
            refine ⟨fun _ => id, fun _ => id, fun mid same => ?_, fun _ => id⟩
            change mid.atoms.trail.head = mid.atoms.trail.length
            rw [show mid.atoms = propagated.atoms from same]
            exact found.1
          exact .pure ((Draws.moves further').trans (atEnd.moves moves))
        | exhausted =>
          obtain ⟨last, same, none'⟩ := made
          have toFull := further'.trans last
          have coherent' := Draws.coherent toFull h
          refine .bind (finalCheck_leads coherent') ?_ ?_
          · rintro e after ⟨final, quiet⟩
            exact ⟨Draws.moves (toFull.trans final), quiet⟩
          · rintro checked after ⟨final, held⟩
            have moves : Moves decidesAtEnd c after := Draws.moves (toFull.trans final)
            cases checked with
            | assigned => exact .pure moves
            | conflict conflict =>
              exact (recoverFrom_course (Draws.coherent (toFull.trans final) h) held).mono
                fun result final searched => searched.after_moves moves
            | satisfied =>
              obtain ⟨sameAfter, agreed⟩ := held
              have settled := moves.tail (.settle after .satisfiable (moves.phase_ne open') (by decide))
              refine .modify_bind (.pure ⟨settled, rfl, decided, Draws.moves toFull, ?_, ?_, ?_, ?_, agreed⟩)
              · rw [same]
                exact found.1
              · rw [same]
                exact none'
              · exact sameAfter
              · exact (Draws.frame final).2.2.2.1

/-- A search is as far as its iterations have come. -/
theorem iterateWithin_course (h : c.Coherent) (open' : c.phase ≠ .unsatisfiable) (fuel : Nat) :
    (iterateWithin fuel : Procedure σ Report).Ensures c fun result after =>
      Searched c (result.map some) after := by
  induction fuel generalizing c with
  | zero => exact .pure .refl
  | succ fuel ih =>
    refine .bind (iterate_course h open') (fun e after failed => failed) ?_
    rintro outcome after searched
    cases outcome with
    | some report => exact .pure searched
    | none =>
      have moves : Moves decidesAtEnd c after := searched
      exact (ih (moves.coherent h) (moves.phase_ne open')).mono fun result final more =>
        more.after_moves moves

/-- A search goes on from iteration to iteration, unless there is known to be no solution. -/
theorem solve_course (h : c.Coherent) :
    (solve : Procedure σ Report).Ensures c fun result after =>
      if c.phase = .unsatisfiable then result = .ok .unsatisfiable ∧ after = c
      else Searched c (result.map some) after := by
  refine .get_bind ?_
  split
  · exact .pure ⟨rfl, rfl⟩
  · rename_i open'
    refine .bind preprocess_leads ?_ ?_
    · rintro e after ⟨reached, quiet⟩
      exact ⟨Draws.moves reached, quiet⟩
    · rintro ⟨⟩ prepared ⟨reached, _⟩
      have moves : Moves decidesAtEnd c prepared := Draws.moves reached
      have started := moves.tail (.settle prepared .solving (moves.phase_ne open') (by decide))
      refine .modify_bind (.get_bind ?_)
      exact (iterateWithin_course (Moves.coherent started h) Phase.noConfusion _).mono fun result final more =>
        more.after_moves started

end Procedure

end SatModulo
