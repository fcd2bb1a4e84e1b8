import SatModulo.Proofs.Building
import SatModulo.Proofs.UnitPropagation

/-!
# Theories are consulted

Theories are told of the trail, take their turns and are asked whether they agree. Propagation in rounds
ends with a conflict that is false, or at the end of the trail with every clause looked at
(`Procedure.propagate_leads`): a round is repeated only after the trail has grown, so the bound on the
rounds is never reached. When the final check is satisfied, every theory was asked at a moment when it
had been told of the whole trail (`Procedure.finalCheck_leads`).
-/
namespace SatModulo

variable {σ : Type}

namespace ClauseStore.Grows

variable {store : ClauseStore} {s s' : Atoms}

/-- The trail is extended, or nothing but the head changes; the level stays, and a literal that is added
is taken from the atoms without a value. -/
theorem frame (step : store.Grows s s') :
    s.trail.literals <+: s'.trail.literals ∧ s'.level = s.level ∧
      s'.unvalued.length + s'.trail.length = s.unvalued.length + s.trail.length := by
  have made : ∀ l reason, s.assign l reason = .ok (.unset, s') →
      s.trail.literals <+: s'.trail.literals ∧ s'.level = s.level ∧
        s'.unvalued.length + s'.trail.length = s.unvalued.length + s.trail.length := by
    intro l reason made
    have fewer := Atoms.length_unvalued_assign made
    have longer := Atoms.length_assign made
    refine ⟨by rw [Atoms.literals_assign made]; exact List.prefix_append _ _, ?_, by omega⟩
    obtain ⟨_, _, _, trail, _⟩ := Atoms.assign_eq_unset made
    rw [Atoms.level, trail, Trail.level_store]
    rfl
  cases step with
  | units step =>
    cases step with
    | force _ key clause l found forces assigned => exact made l _ assigned
    | pass l next seen => exact ⟨List.prefix_refl _, rfl, rfl⟩
  | conclude i step =>
    obtain ⟨l, marker, _, assigned⟩ := step
    exact made l _ assigned

end ClauseStore.Grows

theorem ClauseStore.growsAll_frame {store : ClauseStore} {s s' : Atoms}
    (steps : Relation.ReflTransGen store.Grows s s') :
    s.trail.literals <+: s'.trail.literals ∧ s'.level = s.level ∧
      s'.unvalued.length + s'.trail.length = s.unvalued.length + s.trail.length := by
  induction steps with
  | refl => exact ⟨List.prefix_refl _, rfl, rfl⟩
  | tail _ step ih =>
    obtain ⟨longer, level, balance⟩ := step.frame
    exact ⟨ih.1.trans longer, level.trans ih.2.1, balance.trans ih.2.2⟩

/-- A turn that made no literal true left the atoms as they were. -/
theorem Atoms.eq_of_concludes {i : Nat} {asks : Literal → Marker → Prop} {s s' : Atoms}
    (steps : Relation.ReflTransGen (Atoms.Concludes i asks) s s') :
    s' = s ∨ s.trail.length < s'.trail.length := by
  induction steps with
  | refl => exact .inl rfl
  | tail _ step ih =>
    obtain ⟨l, marker, _, made⟩ := step
    have longer := Atoms.length_assign made
    rcases ih with rfl | further
    · exact .inr (by omega)
    · exact .inr (by omega)

namespace Context

/-- Every theory has been handed the whole trail. -/
def AllDelivered (c : Context σ) : Prop := ∀ m ∈ c.theories.members, m.head = c.atoms.trail.length

variable [Theory σ]

theorem AllDelivered.of_deliverAll {c : Context σ} {theories : Registry σ}
    (told : c.theories.deliverAll c.atoms.trail = .ok theories) :
    ({ c with theories } : Context σ).AllDelivered := by
  intro m' member
  obtain ⟨i, m, own, _, effect⟩ := (Registry.changes_deliverAll told).1.of_mem member
  rw [effect.kept]
  rfl

/-- A theory agrees with the atoms as they are: it hints that it is satisfied, or its final turn finds no
conflict and makes no literal true. -/
def Settles (c : Context σ) (i : Nat) : Prop :=
  ∃ m, c.theories.members[i]? = some m ∧
    (Theory.isSatisfied m.theory = .ok true ∨
      ∃ flushed theory, (flushed = m.theory ∨ flushed = Theory.flush c.atoms m.theory) ∧
        (Theory.solve flushed).run i c.atoms = .ok ((none, theory), c.atoms))

/-- A theory rests in a later context: it is what a turn made of it at which it had been told of the whole
trail and drew nothing, on the atoms as they are. -/
def Rests (c after : Context σ) (i : Nat) : Prop :=
  ∃ mid m flushed theory m', Draws c mid ∧ mid.atoms = after.atoms ∧ mid.AllDelivered ∧
    mid.theories.members[i]? = some m ∧
    (flushed = m.theory ∨ flushed = Theory.flush mid.atoms m.theory) ∧
    (Theory.propagate flushed).run i mid.atoms = .ok ((none, theory), mid.atoms) ∧
    after.theories.members[i]? = some m' ∧ m'.theory = theory

theorem Rests.from_draws {c mid after : Context σ} {i : Nat} (rests : mid.Rests after i)
    (draws : Draws c mid) : c.Rests after i := by
  obtain ⟨between, m, flushed, theory, m', further, rest⟩ := rests
  exact ⟨between, m, flushed, theory, m', draws.trans further, rest⟩

end Context

section Draws

variable [Theory σ] {c c' : Context σ}

theorem Draw.length_members (draw : Draw c c') :
    c'.theories.members.length = c.theories.members.length := by
  rcases draw.silent_or_caught with silent | ⟨_, caught⟩
  · exact silent.length
  · exact caught.length

/-- Drawing consequences extends the trail on its level, and takes what it makes true from the atoms
without a value. -/
theorem Draws.frame (draws : Draws c c') :
    c.atoms.trail.literals <+: c'.atoms.trail.literals ∧ c'.level = c.level ∧
      c'.atoms.unvalued.length + c'.atoms.trail.length =
        c.atoms.unvalued.length + c.atoms.trail.length ∧
      c'.clauses = c.clauses ∧ c'.phase = c.phase ∧
      c'.theories.members.length = c.theories.members.length := by
  induction draws with
  | refl => exact ⟨List.prefix_refl _, rfl, rfl, rfl, rfl, rfl⟩
  | tail _ draw ih =>
    obtain ⟨longer, level, balance, clauses, phase, length⟩ := ih
    obtain ⟨longer', level', balance'⟩ := ClauseStore.growsAll_frame draw.grows
    obtain ⟨clauses', phase', _⟩ := draw.frame
    exact ⟨longer.trans longer', level'.trans level, balance'.trans balance, clauses'.trans clauses,
      phase'.trans phase, draw.length_members.trans length⟩

theorem Draws.length_le (draws : Draws c c') : c.atoms.trail.length ≤ c'.atoms.trail.length :=
  draws.frame.1.length_le

/-- What has been handed over stays so as long as the trail does not grow. -/
theorem Draw.allDelivered (draw : Draw c c') (same : c'.atoms.trail.length = c.atoms.trail.length)
    (all : c.AllDelivered) : c'.AllDelivered := by
  intro m' member
  rw [same]
  rcases draw.silent_or_caught with silent | ⟨_, caught⟩
  · obtain ⟨i, m, own, found, effect⟩ := silent.of_mem member
    rw [effect.kept]
    exact all m (List.mem_of_getElem? found)
  · obtain ⟨i, m, own, found, effect⟩ := caught.of_mem member
    rw [effect.kept]
    rfl

theorem Draws.allDelivered (draws : Draws c c')
    (same : c'.atoms.trail.length = c.atoms.trail.length) (all : c.AllDelivered) :
    c'.AllDelivered := by
  induction draws with
  | refl => exact all
  | tail draws draw ih =>
    have first := Draws.length_le draws
    have second := Draws.length_le (.single draw)
    exact draw.allDelivered (by omega) (ih (by omega))

end Draws

/-- The schedule gives every theory its turn. -/
theorem Context.Coherent.mem_order {c : Context σ} (h : c.Coherent) {i : Nat} :
    i ∈ c.theories.schedule.order ↔ i < c.theories.members.length := by
  rw [(Schedule.order_perm _).mem_iff, List.mem_range, h.standings]

namespace Procedure

variable [Theory σ] {c : Context σ}

theorem deliverAll_leads : (deliverAll : Procedure σ Unit).Leads Draw c c fun _ after =>
    after.atoms = c.atoms ∧ after.AllDelivered :=
  .get_bind (.ofFaulty_bind fun theories told =>
    .modify (.single (.deliver c theories told)) ⟨rfl, .of_deliverAll told⟩)

/-- A conflict that is accepted is one that the theory gave, with every literal false. -/
theorem acceptConflict_leads (i : Nat) (clause : Clause)
    (given : ∃ call ∈ c.theories.account i, call.clause? = some clause) :
    (acceptConflict i clause : Procedure σ Conflict).Leads Draw c c fun conflict after =>
      after.Conflicting conflict := by
  refine .get_bind ?_
  dsimp only
  split
  · rename_i falsified
    refine .modify_bind (.modify_bind (.pure (.single ?_) ⟨clause, fun l member => ?_, rfl, given⟩))
    · exact .adjust c c.random _ _ (Schedule.length_bumpBy _ _ i)
    · have different := List.all_eq_true.mp falsified l member
      exact Literal.statusOn_eq_different.mp (beq_iff_eq.mp different)
  · exact .throw .refl rfl

/-- A turn draws consequences and finds no conflict, or one that is false. Without a conflict and without
a new literal the atoms are as they were. -/
theorem takeTurn_leads {turn : σ → Turn (Option Clause × σ)}
    {call : Nat → List Literal → Option Clause → Call} (kind : TurnKind turn call) (i : Nat) :
    (takeTurn i turn call).Leads Draw c c fun outcome after =>
      match outcome with
      | some conflict => after.Conflicting conflict
      | none => (after.atoms = c.atoms ∨ c.atoms.trail.length < after.atoms.trail.length) ∧
        ∃ m flushed theory, c.theories.members[i]? = some m ∧
          (flushed = m.theory ∨ flushed = Theory.flush c.atoms m.theory) ∧
          (turn flushed).run i c.atoms = .ok ((none, theory), after.atoms) ∧
          after.theories.members = c.theories.members.set i { m with theory } := by
  refine .get_bind (.ofFaulty_bind fun (outcome, theories) taken => ?_)
  dsimp only
  split
  · exact .throw .refl rfl
  · rename_i conflict atoms
    have moved : Draws c { c with atoms, theories } :=
      .single (.turn c i turn call kind conflict atoms theories taken)
    obtain ⟨m, m', own, found, took, rfl⟩ := Registry.changeAt_eq_ok taken
    obtain ⟨flushed, origin, ran, kept, calls, _⟩ := Member.memberTurn_eq_ok took
    refine .modify_bind (.modify_bind ?_)
    split
    · refine .pure moved ⟨?_, m, flushed, m'.theory, found, origin, ran, congrArg _ kept⟩
      exact Atoms.eq_of_concludes ((turn flushed).allows_any.run ran).2
    · rename_i clause
      refine .call (acceptConflict_leads i clause ?_) moved fun conflict after reached held =>
        .pure reached held
      refine ⟨_, ?_, show (call c.atoms.level (atoms.trail.literals.drop c.atoms.trail.length)
        (some clause)).clause? = some clause by cases kind <;> rfl⟩
      simp only
      rw [Registry.account_append_own, if_pos rfl, calls]
      simp

/-- Theories are asked one by one; the asking changes neither them nor the atoms. -/
theorem checkEach_leads {check : Atoms → σ → Except Fault Bool} (call : Bool → Call)
    {error : Nat → TheoryError} (question : ∀ answer, (call answer).IsQuestion)
    (answers : ∀ i s t answer, check s t = .ok answer → Theory.Answers i t (call answer) t)
    (indices : List Nat) :
    (checkEach check call error indices).Leads Draw c c fun _ after =>
      after.atoms = c.atoms ∧ after.theories.members = c.theories.members := by
  induction indices generalizing c with
  | nil => exact .pure .refl ⟨rfl, rfl⟩
  | cons i rest ih =>
    refine .get_bind (.ofFaulty_bind fun (answer, theories) asked => ?_)
    have moved : Draws c { c with theories } ∧ theories.members = c.theories.members := by
      cases answer with
      | none =>
        obtain ⟨_, rfl⟩ := Registry.changeAt_eq_none asked
        exact ⟨.refl, rfl⟩
      | some answer =>
        obtain ⟨m, m', own, found, answered, rfl⟩ := Registry.changeAt_eq_ok asked
        obtain ⟨given, checked, same⟩ := Except.bind_eq_ok answered
        cases same
        refine ⟨.single (.ask c i m found (call answer) (question answer) m.theory
          (answers i _ _ _ checked)), ?_⟩
        obtain ⟨inside, rfl⟩ := List.getElem?_eq_some_iff.mp found
        exact List.set_getElem_self inside
    refine .modify_bind ?_
    split
    · exact .throw moved.1 rfl
    · refine (ih.from_start moved.1).mono (fun _ _ => id) fun _ after ⟨atoms, members⟩ => ?_
      exact ⟨atoms, members.trans moved.2⟩

theorem checkPropagated_leads :
    (checkPropagated : Procedure σ Unit).Leads Draw c c fun _ after =>
      after.atoms = c.atoms ∧ after.theories.members = c.theories.members :=
  .get_bind (checkEach_leads .checkPropagated (fun _ => trivial)
    (fun _ s t answer => .checkPropagated t s answer) _)

theorem checkSolved_leads :
    (checkSolved : Procedure σ Unit).Leads Draw c c fun _ after =>
      after.atoms = c.atoms ∧ after.theories.members = c.theories.members := by
  refine .get_bind (checkEach_leads .checkSolved (fun _ => trivial)
    (fun i s t answer checked => ?_) _)
  cases checked
  exact .checkSolved t s

/-- A hint that a theory is satisfied is one that it gives itself, on atoms that stay as they are. -/
theorem hintsSatisfied_leads (i : Nat) :
    (hintsSatisfied i : Procedure σ Bool).Leads Draw c c fun answer after =>
      after.atoms = c.atoms ∧
        (answer = true → ∃ m, c.theories.members[i]? = some m ∧
          Theory.isSatisfied m.theory = .ok true) := by
  refine .get_bind (.ofFaulty_bind fun (answer, theories) asked => ?_)
  cases answer with
  | none => exact .fault
  | some answer =>
    obtain ⟨m, m', own, found, answered, rfl⟩ := Registry.changeAt_eq_ok asked
    split at answered
    · obtain ⟨given, hinted, same⟩ := Except.bind_eq_ok answered
      cases same
      refine .modify_bind (.pure ?_ ⟨rfl, fun yes => ⟨m, found, ?_⟩⟩)
      · exact .single (.ask c i m found (.isSatisfied answer) trivial m.theory
          (.isSatisfied _ _ hinted))
      · obtain rfl : answer = true := yes
        exact hinted
    · cases answered
      refine .modify_bind (.pure ?_ ⟨rfl, fun no => by cases no⟩)
      have same : c.theories.members.set i m = c.theories.members := by
        rw [List.getElem?_eq_some_iff] at found
        obtain ⟨inside, rfl⟩ := found
        exact List.set_getElem_self inside
      rw [same, List.map_nil, Array.appendList_nil]

/-- What the final check has found out from the context `c` on, when it is at `after`. -/
def FinalChecked (start : Nat) (indices : List Nat) (c : Context σ) (outcome : FinalCheck)
    (after : Context σ) : Prop :=
  match outcome with
  | .satisfied => c.atoms.trail.length = start → after.atoms = c.atoms ∧
    ∀ i ∈ indices, ∃ mid, Draws c mid ∧ mid.atoms = c.atoms ∧ mid.Settles i
  | .assigned => start < after.atoms.trail.length
  | .conflict conflict => after.Conflicting conflict

/-- The final turns go on while nothing is made true and no conflict is found. -/
theorem solveEach_leads (start : Nat) (indices : List Nat) :
    (solveEach start indices : Procedure σ FinalCheck).Leads Draw c c
      (FinalChecked start indices c) := by
  induction indices generalizing c with
  | nil => exact .pure .refl fun _ => ⟨rfl, by simp⟩
  | cons i rest ih =>
    refine .call (hintsSatisfied_leads i) .refl ?_
    rintro hint asked reached ⟨sameAsked, hinted⟩
    -- The theories to come are asked in contexts that are reached from here.
    have later : ∀ {mid : Context σ}, Draws c mid → mid.atoms = c.atoms → (c.Settles i ∨ asked.Settles i) →
        ∀ outcome after, FinalChecked start rest mid outcome after →
          FinalChecked start (i :: rest) c outcome after := by
      intro mid draws same settled outcome after checked
      cases outcome with
      | assigned => exact checked
      | conflict conflict => exact checked
      | satisfied =>
        intro length
        obtain ⟨sameAfter, others⟩ := checked (by rw [same]; exact length)
        refine ⟨sameAfter.trans same, List.forall_mem_cons.mpr ⟨?_, fun j member => ?_⟩⟩
        · rcases settled with now | then'
          · exact ⟨c, .refl, rfl, now⟩
          · exact ⟨asked, reached, sameAsked, then'⟩
        · obtain ⟨between, further, same', settles⟩ := others j member
          exact ⟨between, draws.trans further, same'.trans same, settles⟩
    split
    · rename_i yes
      obtain ⟨m, found, satisfied⟩ := hinted yes
      refine (ih.from_start reached).mono (fun _ _ => id) fun outcome after checked => ?_
      exact later reached sameAsked (.inl ⟨m, found, .inl satisfied⟩) outcome after checked
    · refine .call (takeTurn_leads .solve i) reached fun outcome turned reached' answered => ?_
      split
      · exact .pure reached' answered
      · obtain ⟨unchanged, m, flushed, theory, found, origin, ran, _⟩ := answered
        refine .get_bind ?_
        split
        · rename_i longer
          exact .pure reached' longer
        · rename_i notLonger
          refine (ih.from_start reached').mono (fun _ _ => id) fun outcome after checked => ?_
          by_cases length : c.atoms.trail.length = start
          · have same : turned.atoms = asked.atoms := by
              rcases unchanged with same | longer
              · exact same
              · rw [sameAsked, length] at longer
                exact absurd longer notLonger
            refine later reached' (same.trans sameAsked) (.inr ⟨m, found, .inr ?_⟩) outcome after checked
            rw [same] at ran
            exact ⟨flushed, theory, origin, ran⟩
          · cases outcome with
            | satisfied => exact fun equal => absurd equal length
            | assigned => exact checked
            | conflict conflict => exact checked

/-- When the final check is satisfied, the atoms are as they were, and every theory agreed at a moment
when it had been told of the whole trail. When it assigned, the trail is longer. -/
theorem finalCheck_leads (h : c.Coherent) :
    (finalCheck : Procedure σ FinalCheck).Leads Draw c c fun outcome after =>
      match outcome with
      | .satisfied => after.atoms = c.atoms ∧ ∀ i < c.theories.members.length, ∃ mid,
        Draws c mid ∧ mid.atoms = c.atoms ∧ mid.AllDelivered ∧ mid.Settles i
      | .assigned => c.atoms.trail.length < after.atoms.trail.length
      | .conflict conflict => after.Conflicting conflict := by
  refine .call deliverAll_leads .refl ?_
  rintro ⟨⟩ told reached ⟨sameTold, delivered⟩
  refine .get_bind (.call (solveEach_leads _ _) reached ?_)
  intro outcome solved reached' checked
  have satisfied : outcome = .satisfied → solved.atoms = c.atoms ∧
      ∀ i < c.theories.members.length, ∃ mid, Draws c mid ∧ mid.atoms = c.atoms ∧ mid.AllDelivered ∧
        mid.Settles i := by
    rintro rfl
    obtain ⟨same, each⟩ := checked rfl
    refine ⟨same.trans sameTold, fun i inside => ?_⟩
    have turn : i ∈ told.theories.schedule.order := by
      rwa [(Draws.coherent reached h).mem_order, (Draws.frame reached).2.2.2.2.2]
    obtain ⟨mid, draws, same', settles⟩ := each i turn
    exact ⟨mid, reached.trans draws, same'.trans sameTold,
      Draws.allDelivered draws (by rw [same']) delivered, settles⟩
  split
  · obtain ⟨same, each⟩ := satisfied rfl
    split
    · refine .call checkSolved_leads reached' fun _ after reached'' ⟨same', _⟩ => ?_
      exact .pure reached'' ⟨same'.trans same, each⟩
    · exact .pure reached' ⟨same, each⟩
  · rename_i other
    refine .pure reached' ?_
    cases outcome with
    | satisfied => exact absurd rfl other
    | assigned =>
      rw [← sameTold]
      exact checked
    | conflict conflict => exact checked

/-- What the turns of a round come to: a conflict, or word of whether the trail has grown. If it has not,
the theories that had their turns rest, and the others are as they were. -/
def TurnsTaken (c : Context σ) (indices : List Nat) (assigned : Bool) (outcome : Except Conflict Bool)
    (after : Context σ) : Prop :=
  match outcome with
  | .error conflict => after.Conflicting conflict
  | .ok grown => (assigned = true → grown = true) ∧
    (grown = true → assigned = true ∨ c.atoms.trail.length < after.atoms.trail.length) ∧
    (grown = false → after.atoms = c.atoms ∧ (∀ i ∈ indices, c.Rests after i) ∧
      ∀ j, j ∉ indices → after.theories.members[j]? = c.theories.members[j]?)

/-- A round in which nothing is made true leaves every theory that had its turn at rest. -/
theorem takeTurns_leads (h : c.Coherent) (delivered : c.AllDelivered) {indices : List Nat}
    (distinct : indices.Nodup) (assigned : Bool) :
    (takeTurns indices assigned : Procedure σ (Except Conflict Bool)).Leads Draw c c
      (TurnsTaken c indices assigned) := by
  induction indices generalizing c assigned with
  | nil => exact .pure .refl ⟨id, .inl, fun _ => ⟨rfl, nofun, fun _ _ => rfl⟩⟩
  | cons i rest ih =>
    rw [List.nodup_cons] at distinct
    refine .get_bind (.call (takeTurn_leads .propagate i) .refl ?_)
    intro outcome turned reached answered
    split
    · exact .pure reached answered
    · obtain ⟨unchanged, m, flushed, theory, found, origin, ran, members⟩ := answered
      refine .get_bind ?_
      split
      · rename_i longer
        have coherent := Draws.coherent reached h
        refine .from_start ?_ reached
        refine .call (propagateClauses_leads coherent) .refl fun outcome propagated reached' found => ?_
        split
        · exact .pure reached' found
        · refine .call deliverAll_leads reached' ?_
          rintro ⟨⟩ told reached'' ⟨_, delivered'⟩
          have others := ih (Draws.coherent reached'' coherent) delivered' distinct.2 true
          refine (others.from_start reached'').imp fun outcome after final held => ?_
          cases outcome with
          | error conflict => exact held
          | ok grown =>
            have yes : grown = true := held.1 rfl
            refine ⟨fun _ => yes, fun _ => .inr ?_, fun no => ?_⟩
            · exact Nat.lt_of_lt_of_le longer (Draws.length_le final)
            · rw [yes] at no
              cases no
      · rename_i notLonger
        have same := unchanged.resolve_right notLonger
        have others := ih (Draws.coherent reached h)
          (Draws.allDelivered reached (congrArg _ (congrArg _ same)) delivered) distinct.2 assigned
        refine (others.from_start reached).imp fun outcome after _ held => ?_
        cases outcome with
        | error conflict => exact held
        | ok grown =>
          obtain ⟨keeps, grew, quiet⟩ := held
          rw [same] at grew
          refine ⟨keeps, grew, fun no => ?_⟩
          obtain ⟨sameAfter, rest', outside⟩ := quiet no
          have inside := (List.getElem?_eq_some_iff.mp found).1
          refine ⟨sameAfter.trans same, List.forall_mem_cons.mpr ⟨?_, fun j member => ?_⟩, ?_⟩
          · rw [same] at ran
            refine ⟨c, m, flushed, theory, { m with theory }, .refl, (sameAfter.trans same).symm, delivered,
              found, origin, ran, ?_, rfl⟩
            rw [outside i distinct.1, members, List.getElem?_set_self inside]
          · exact (rest' j member).from_draws reached
          · intro j other
            rw [List.mem_cons, not_or] at other
            rw [outside j other.2, members, List.getElem?_set_ne (Ne.symm other.1)]

/-- Rounds end with a conflict, or where nothing is left to be drawn from clauses, the trail is handed over and
every theory rests. -/
theorem roundsWithin_leads (h : c.Coherent) {fuel : Nat} (enough : c.atoms.unvalued.length < fuel) :
    (roundsWithin fuel : Procedure σ (Option Conflict)).Leads Draw c c fun outcome after =>
      match outcome with
      | some conflict => after.Conflicting conflict
      | none => after.atoms.trail.head = after.atoms.trail.length ∧ after.AllDelivered ∧
        ∀ i < c.theories.members.length, c.Rests after i := by
  induction fuel generalizing c with
  | zero => omega
  | succ fuel ih =>
    refine .call (propagateClauses_leads h) .refl fun outcome propagated reached found => ?_
    split
    · exact .pure reached found
    · refine .call deliverAll_leads reached ?_
      rintro ⟨⟩ told reached' ⟨sameTold, delivered⟩
      have atEnd : told.atoms.trail.head = told.atoms.trail.length := by
        rw [sameTold]
        exact found
      refine .get_bind (.from_start ?_ reached')
      have coherent := Draws.coherent reached' h
      refine .call (takeTurns_leads coherent delivered (Schedule.nodup_order _) false) .refl
        fun outcome turned reached'' held => ?_
      split
      · exact .pure reached'' held
      · have longer := (held.2.1 rfl).resolve_left Bool.false_ne_true
        have before := (Draws.frame reached').2.2.1
        have after := (Draws.frame reached'').2.2.1
        have further := Draws.length_le reached'
        refine ((ih (Draws.coherent reached'' coherent) (by omega)).from_start reached'').imp ?_
        intro outcome after _ held'
        cases outcome with
        | some conflict => exact held'
        | none =>
          refine ⟨held'.1, held'.2.1, fun i inside => (held'.2.2 i ?_).from_draws (reached'.trans reached'')⟩
          rwa [(Draws.frame (reached'.trans reached'')).2.2.2.2.2]
      · obtain ⟨same, rest, _⟩ := held.2.2 rfl
        refine .pure reached'' ⟨by rw [same]; exact atEnd, Draws.allDelivered reached'' (by rw [same]) delivered,
          fun i inside => (rest i ?_).from_draws reached'⟩
        rwa [coherent.mem_order, (Draws.frame reached').2.2.2.2.2]

/-- A propagation ends with a conflict, or where rounds end without one. -/
theorem propagate_leads (h : c.Coherent) :
    (propagate : Procedure σ (Option Conflict)).Leads Draw c c fun outcome after =>
      match outcome with
      | some conflict => after.Conflicting conflict
      | none => after.atoms.trail.head = after.atoms.trail.length ∧ after.AllDelivered ∧
        ∀ i < c.theories.members.length, c.Rests after i := by
  refine .get_bind (.call (roundsWithin_leads h (Nat.lt_succ_self _)) .refl ?_)
  intro outcome propagated reached held
  split
  · exact .pure reached held
  · refine .get_bind ?_
    split
    · refine .call checkPropagated_leads reached fun _ checked reached' ⟨atoms, members⟩ => .pure reached' ?_
      obtain ⟨atEnd, delivered, rest⟩ := held
      refine ⟨by rw [atoms]; exact atEnd, by rw [Context.AllDelivered, atoms, members]; exact delivered, ?_⟩
      intro i inside
      rw [Context.Rests, atoms, members]
      exact rest i inside
    · exact .pure reached held

end Procedure

end SatModulo
