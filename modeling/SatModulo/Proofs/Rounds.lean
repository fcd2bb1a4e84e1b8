import SatModulo.Proofs.Solutions
import SatModulo.Proofs.TotalOrder
import SatModulo.Theories.RuleTable

/-!
# Rounds

The turns at propagation that an account tells of (`turnsFrom`), and what they were taken on: a theory has been
told of everything on the trail that it observes whenever it has its turn (`Context.TakesTurn`). Propagation gives
the theories their turns in rounds (`Context.Rounds`). Every round is in the order of the schedule, which a
conflict changes only after the last turn, and only a conflict or an error ends a round before its end.
-/
namespace SatModulo

variable {σ : Type}

/-! ### Accounts of turns -/

namespace Call

theorem mem_hear {heard : LevelStack Literal} {call : Call} {l : Literal}
    (member : l ∈ (call.hear heard).entries) : l ∈ heard.entries ∨ call = .enqueue l := by
  cases call with
  | openLevel => exact .inl (LevelStack.entries_openLevel heard ▸ member)
  | backtrack level => exact .inl ((heard.entries_cutTo_isPrefix level).subset member)
  | enqueue k =>
    rw [hear, LevelStack.entries_push, List.mem_append, List.mem_singleton] at member
    exact member.imp_right fun same => by rw [same]
  | _ => exact .inl member

/-- What a theory has heard of, it was told of. -/
theorem enqueue_mem_of_heard {calls : List Call} {l : Literal} (member : l ∈ (hearAll {} calls).entries) :
    .enqueue l ∈ calls := by
  induction calls using List.reverseRecOn with
  | nil => cases member
  | append_singleton calls call ih =>
    rw [hearAll_append] at member
    rcases mem_hear member with before | rfl
    · exact List.mem_append_left _ (ih before)
    · exact List.mem_append_right _ (.head _)

end Call

/-- A turn at propagation as it is accounted for, with all the calls of theories before it. -/
structure AccountedTurn where
  told : List (Nat × Call)
  index : Nat
  level : Nat
  valued : List Literal
  conflict : Option Clause

def AccountedTurn.of? (told : List (Nat × Call)) : Nat × Call → Option AccountedTurn
  | (index, .propagate level valued conflict) => some { told, index, level, valued, conflict }
  | _ => none

/-- The turns at propagation in an account that goes on from the calls before it. -/
def turnsFrom (told : List (Nat × Call)) : List (Nat × Call) → List AccountedTurn
  | [] => []
  | call :: rest => (AccountedTurn.of? told call).toList ++ turnsFrom (told ++ [call]) rest

theorem turnsFrom_append (told first second : List (Nat × Call)) :
    turnsFrom told (first ++ second) = turnsFrom told first ++ turnsFrom (told ++ first) second := by
  induction first generalizing told with
  | nil => simp [turnsFrom]
  | cons call rest ih => simp [turnsFrom, ih]

theorem turnsFrom_eq_nil {told calls : List (Nat × Call)}
    (others : ∀ call ∈ calls, ∀ told, AccountedTurn.of? told call = none) : turnsFrom told calls = [] := by
  induction calls generalizing told with
  | nil => rfl
  | cons call rest ih =>
    rw [List.forall_mem_cons] at others
    rw [turnsFrom, others.1, ih others.2]
    rfl

/-! ### Turns of contexts -/

variable [Theory σ] {c mid after : Context σ} {turns turns' : List AccountedTurn}

namespace Context

/-- A turn as it is accounted for was taken on a context. Only a flush comes between, and the theory has been
told of everything on the trail that it observes. -/
structure TakesTurn (c : Context σ) (t : AccountedTurn) : Prop where
  told : t.told = c.theories.calls.toList ∨
    t.told = c.theories.calls.toList ++ [(t.index, .flush c.level c.atoms.trail.length)]
  level : t.level = c.level
  ran : ∃ m flushed theory atoms, c.theories.members[t.index]? = some m ∧
    (flushed = m.theory ∨ flushed = Theory.flush c.atoms m.theory) ∧
    (Theory.propagate flushed).run t.index c.atoms = .ok ((t.conflict, theory), atoms) ∧
    atoms.trail.literals = c.atoms.trail.literals ++ t.valued
  heard : ∀ m, c.theories.members[t.index]? = some m → ∀ l ∈ c.atoms.trail.literals, m.observes l.atom →
    .enqueue l ∈ Registry.callsOf t.index t.told ∧
      l ∈ (Call.hearAll {} (Registry.callsOf t.index t.told)).entries

/-- Consequences are drawn by these turns at propagation, and otherwise without any. -/
structure Turns (c after : Context σ) (turns : List AccountedTurn) : Prop where
  draws : Draws c after
  account : ∃ calls, after.theories.calls.toList = c.theories.calls.toList ++ calls ∧
    turnsFrom c.theories.calls.toList calls = turns
  taken : ∀ t ∈ turns, ∃ mid, Draws c mid ∧ mid.TakesTurn t

namespace Turns

theorem of_calls {calls : List (Nat × Call)} (draws : Draws c after)
    (added : after.theories.calls = c.theories.calls ++ calls)
    (others : ∀ call ∈ calls, ∀ told, AccountedTurn.of? told call = none) : c.Turns after [] where
  draws := draws
  account := ⟨calls, by rw [added, Array.toList_appendList], turnsFrom_eq_nil others⟩
  taken := nofun

theorem of_theories (draws : Draws c after) (same : after.theories.calls = c.theories.calls) :
    c.Turns after [] := by
  have added : after.theories.calls = c.theories.calls ++ ([] : List (Nat × Call)) := by
    rw [same, Array.appendList_nil]
  exact of_calls draws added nofun

theorem refl (c : Context σ) : c.Turns c [] := of_theories .refl rfl

theorem trans (first : c.Turns mid turns) (second : mid.Turns after turns') : c.Turns after (turns ++ turns') where
  draws := first.draws.trans second.draws
  account := by
    obtain ⟨calls, added, same⟩ := first.account
    obtain ⟨calls', added', same'⟩ := second.account
    refine ⟨calls ++ calls', by rw [added', added, List.append_assoc], ?_⟩
    rw [turnsFrom_append, same, ← added, same']
  taken := by
    refine List.forall_mem_append.mpr ⟨first.taken, fun t member => ?_⟩
    obtain ⟨between, draws, takes⟩ := second.taken t member
    exact ⟨between, first.draws.trans draws, takes⟩

end Turns

/-- Rounds of turns by which a propagation came to a result. Rounds are in the order of the schedule. The last
turns are a round that was not gone through, and are none when no conflict was found; then no literal got a value
in the last round. -/
structure Rounds (c : Context σ) (result : Except Error (Option Conflict)) (after : Context σ)
    (rounds : List (List AccountedTurn)) (last : List AccountedTurn) : Prop extends
    c.Turns after (rounds.flatten ++ last) where
  complete : ∀ round ∈ rounds, round.map (·.index) = c.theories.schedule.order
  incomplete : last.map (·.index) <+: c.theories.schedule.order
  fixpoint : result = .ok none → last = [] ∧ ∃ final, rounds.getLast? = some final ∧ ∀ t ∈ final, t.valued = []

namespace Rounds

variable {result result' : Except Error (Option Conflict)} {rounds : List (List AccountedTurn)}
  {round last : List AccountedTurn}

/-- A round that is not gone through. -/
theorem stopped (turned : c.Turns after last) (begun : last.map (·.index) <+: c.theories.schedule.order)
    (stops : result ≠ .ok none) : c.Rounds result after [] last where
  toTurns := turned
  complete := nofun
  incomplete := begun
  fixpoint same := absurd same stops

/-- A round that no literal gets a value in. -/
theorem final (turned : c.Turns after round) (complete : round.map (·.index) = c.theories.schedule.order)
    (quiet : ∀ t ∈ round, t.valued = []) : c.Rounds result after [round] [] where
  toTurns := by simpa using turned
  complete := List.forall_mem_singleton.mpr complete
  incomplete := List.nil_prefix
  fixpoint _ := ⟨rfl, round, rfl, quiet⟩

/-- A round before others. -/
theorem cons (others : mid.Rounds result after rounds last) (turned : c.Turns mid round)
    (complete : round.map (·.index) = c.theories.schedule.order)
    (same : mid.theories.schedule = c.theories.schedule) : c.Rounds result after (round :: rounds) last where
  toTurns := by
    rw [List.flatten_cons, List.append_assoc]
    exact turned.trans others.toTurns
  complete := List.forall_mem_cons.mpr ⟨complete, same ▸ others.complete⟩
  incomplete := same ▸ others.incomplete
  fixpoint fixed := by
    obtain ⟨none', final, found, quiet⟩ := others.fixpoint fixed
    exact ⟨none', final, by simp [List.getLast?_cons, found], quiet⟩

/-- What comes after rounds and has no turns of its own. -/
theorem later (held : c.Rounds result mid rounds last) (quiet : mid.Turns after [])
    (only : result' = .ok none → result = .ok none) : c.Rounds result' after rounds last where
  toTurns := by simpa using held.toTurns.trans quiet
  complete := held.complete
  incomplete := held.incomplete
  fixpoint fixed := held.fixpoint (only fixed)

end Rounds

end Context

/-- The account of the turn of a theory that has been told of the whole trail. -/
theorem Context.Told.takesTurn_of_memberTurn (told : c.Told) (delivered : c.AllDelivered) {i : Nat}
    {m m' : Member σ} (found : c.theories.members[i]? = some m) {atoms : Atoms} {conflict : Option Clause}
    {own : List Call}
    (took : Procedure.memberTurn i Theory.propagate .propagate c.atoms m = .ok ((conflict, atoms), m', own))
    (longer : c.atoms.trail.literals <+: atoms.trail.literals) :
    ∃ t, turnsFrom c.theories.calls.toList (own.map (i, ·)) = [t] ∧ t.index = i ∧
      t.valued = atoms.trail.literals.drop c.atoms.trail.length ∧ c.TakesTurn t := by
  obtain ⟨flushed, origin, ran, kept, calls, _⟩ := Member.memberTurn_eq_ok took
  generalize flushes : (if m.capabilities.deferredEnqueue = true then
    [Call.flush c.atoms.level c.atoms.trail.length] else []) = first at calls
  have either : first = [] ∨ first = [.flush c.level c.atoms.trail.length] := by
    rw [← flushes]
    split
    · exact .inr rfl
    · exact .inl rfl
  have silent : ∀ call ∈ first, call.IsSilent ∧ ∀ told, AccountedTurn.of? told (i, call) = none := by
    rcases either with rfl | rfl
    · nofun
    · exact List.forall_mem_singleton.mpr ⟨fun _ => rfl, fun _ => rfl⟩
  refine ⟨⟨c.theories.calls.toList ++ first.map (i, ·), i, c.level,
    atoms.trail.literals.drop c.atoms.trail.length, conflict⟩, ?_, rfl, rfl, ?_⟩
  · have quiet : turnsFrom c.theories.calls.toList (first.map (i, ·)) = [] :=
      turnsFrom_eq_nil (List.forall_mem_map.mpr fun call member => (silent call member).2)
    rw [calls, List.map_append, turnsFrom_append, quiet]
    rfl
  · refine ⟨?_, rfl, ⟨m, flushed, m'.theory, atoms, found, origin, ran, ?_⟩, ?_⟩
    · rcases either with rfl | rfl
      · exact .inl (List.append_nil _)
      · exact .inr rfl
    · exact (List.prefix_iff_eq_append.mp longer).symm
    · intro n found' l onTrail observed
      obtain rfl : m = n := Option.some.inj (found.symm.trans found')
      have heard : l ∈ (Call.hearAll {} (Registry.callsOf i
          (c.theories.calls.toList ++ first.map (i, ·)))).entries := by
        rw [Registry.callsOf_append, Registry.callsOf_own, Call.hearAll_append,
          Call.hearAll_silent fun call member => (silent call member).1]
        exact (told.mem_heard delivered found).mpr ⟨onTrail, observed⟩
      exact ⟨Call.enqueue_mem_of_heard heard, heard⟩

namespace Procedure

theorem deliverAll_turns : (deliverAll : Procedure σ Unit).Ensures c fun _ after =>
    c.Turns after [] ∧ after.theories.schedule = c.theories.schedule := by
  refine .get_bind (.ofFaulty_bind fun theories told => .modify ?_)
  obtain ⟨calls, added, enqueues⟩ := Registry.deliverAll_calls told
  refine ⟨.of_calls (.single (.deliver c theories told)) added fun call member _ => ?_,
    (Registry.changes_deliverAll told).2.1⟩
  obtain ⟨i, call⟩ := call
  obtain ⟨l, rfl⟩ := enqueues _ member
  rfl

/-- No theory has a turn while clauses are propagated. -/
theorem propagateClauses_turns (h : c.Coherent) :
    (propagateClauses : Procedure σ (Option ClauseKey)).Ensures c fun _ after =>
      c.Turns after [] ∧ after.theories.schedule = c.theories.schedule := by
  have same : (propagateClauses : Procedure σ (Option ClauseKey)).Ensures c fun _ after =>
      after.theories = c.theories := by
    refine .get_bind (.modify_bind ?_)
    split
    · exact .pure rfl
    · exact .pure rfl
    · exact .throw rfl
  refine (same.both (propagateClauses_leads h)).mono fun result after ⟨same, draws, _⟩ => ?_
  exact ⟨.of_theories draws (congrArg _ same), congrArg _ same⟩

theorem acceptConflict_turns (i : Nat) (clause : Clause) :
    (acceptConflict i clause : Procedure σ Conflict).Ensures c fun _ after => c.Turns after [] := by
  refine .get_bind ?_
  dsimp only
  split
  · refine .modify_bind (.modify_bind (.pure (.of_theories (.single ?_) rfl)))
    exact .adjust c c.random _ _ (Schedule.length_bumpBy _ _ i)
  · exact .throw (.refl c)

theorem checkPropagated_turns :
    (checkPropagated : Procedure σ Unit).Ensures c fun _ after => c.Turns after [] := by
  refine .get_bind ?_
  generalize List.range c.theories.count = indices
  induction indices generalizing c with
  | nil => exact .pure (.refl c)
  | cons i rest ih =>
    refine .get_bind (.ofFaulty_bind fun (answer, theories) asked => .modify_bind ?_)
    have turned : c.Turns { c with theories } [] := by
      cases answer with
      | none =>
        obtain ⟨_, rfl⟩ := Registry.changeAt_eq_none asked
        exact .refl c
      | some answer =>
        obtain ⟨m, m', own, found, answered, rfl⟩ := Registry.changeAt_eq_ok asked
        obtain ⟨given, checked, same⟩ := Except.bind_eq_ok answered
        cases same
        refine .of_calls (.single ?_) rfl ?_
        · exact .ask c i m found (.checkPropagated answer) trivial m.theory (.checkPropagated _ _ _ checked)
        · exact List.forall_mem_singleton.mpr fun _ => rfl
    split
    · exact .throw turned
    · exact ih.mono fun _ after others => turned.trans others

/-- A theory has its turn, if there is one of the index. -/
theorem propagateTheory_turns (told : c.Told) (delivered : c.AllDelivered) (i : Nat) :
    (propagateTheory i : Procedure σ (Option Conflict)).Ensures c fun result after =>
      ∃ turns, c.Turns after turns ∧ turns.map (·.index) <+: [i] ∧
        (result = .ok none → ∃ t, turns = [t] ∧ t.index = i ∧
          (c.atoms.trail.length < after.atoms.trail.length ∨ t.valued = []) ∧
          after.theories.schedule = c.theories.schedule) := by
  refine .get_bind (.ofFaulty_bind fun (outcome, theories) taken => ?_)
  dsimp only
  split
  · exact .throw ⟨[], .refl c, List.nil_prefix, nofun⟩
  · rename_i conflict atoms
    have drawn : Draws c { c with atoms, theories } :=
      .single (.turn c i Theory.propagate .propagate .propagate conflict atoms theories taken)
    have longer := (Draws.frame drawn).1
    obtain ⟨m, m', own, found, took, rfl⟩ := Registry.changeAt_eq_ok taken
    obtain ⟨t, single, rfl, valued, takes⟩ := told.takesTurn_of_memberTurn delivered found took longer
    have turned : c.Turns { c with
        atoms
        theories := { c.theories with
          members := c.theories.members.set t.index m'
          calls := c.theories.calls ++ own.map (t.index, ·) } } [t] :=
      ⟨drawn, ⟨_, Array.toList_appendList .., single⟩, List.forall_mem_singleton.mpr ⟨c, .refl, takes⟩⟩
    refine .modify_bind (.modify_bind ?_)
    split
    · refine .pure ⟨[t], turned, List.prefix_refl _, fun _ => ⟨t, rfl, rfl, ?_, rfl⟩⟩
      rw [valued, List.drop_eq_nil_iff]
      exact Nat.lt_or_ge _ _
    · refine .bind (acceptConflict_turns t.index _) ?_ ?_
      · intro e after others
        exact ⟨[t], turned.trans others, List.prefix_refl _, nofun⟩
      · intro conflict after others
        exact .pure ⟨[t], turned.trans others, List.prefix_refl _, nofun⟩

/-- Turns are taken in the order that is given. -/
theorem takeTurns_turns (h : c.Coherent) (told : c.Told) (delivered : c.AllDelivered) (indices : List Nat)
    (assigned : Bool) :
    (takeTurns indices assigned : Procedure σ (Except Conflict Bool)).Ensures c fun result after =>
      ∃ turns, c.Turns after turns ∧ turns.map (·.index) <+: indices ∧
        ∀ grown, result = .ok (.ok grown) → turns.map (·.index) = indices ∧
          (grown = false → assigned = false ∧ ∀ t ∈ turns, t.valued = []) ∧
          after.theories.schedule = c.theories.schedule := by
  induction indices generalizing c assigned with
  | nil =>
    refine .pure ⟨[], .refl c, List.nil_prefix, fun grown same => ?_⟩
    cases same
    exact ⟨rfl, fun no => ⟨no, nofun⟩, rfl⟩
  | cons i rest ih =>
    have only : [i] <+: i :: rest := List.cons_prefix_cons.mpr ⟨rfl, List.nil_prefix⟩
    refine .get_bind (.bind (propagateTheory_turns told delivered i) ?_ ?_)
    · rintro e after ⟨turns, turned, indices, _⟩
      exact ⟨turns, turned, indices.trans only, nofun⟩
    · rintro outcome turned ⟨turns, first, indices, quiet⟩
      split
      · exact .pure ⟨turns, first, indices.trans only, nofun⟩
      · obtain ⟨t, rfl, rfl, drew, schedule⟩ := quiet rfl
        have coherent := Draws.coherent first.draws h
        refine .get_bind ?_
        split
        · refine .bind (propagateClauses_turns coherent) ?_ ?_
          · rintro e after ⟨second, _⟩
            exact ⟨[t], first.trans second, only, nofun⟩
          · rintro key propagated ⟨second, schedule'⟩
            split
            · exact .pure ⟨[t], first.trans second, only, nofun⟩
            · refine .bind (deliverAll_turns.both deliverAll_leads) ?_ ?_
              · rintro e after ⟨⟨third, _⟩, _⟩
                exact ⟨[t], (first.trans second).trans third, only, nofun⟩
              · rintro ⟨⟩ handed ⟨⟨third, schedule''⟩, _, _, delivered'⟩
                have passed := (first.trans second).trans third
                have told' := Moves.told (passed.draws.moves : Moves {} c handed) h told
                refine (ih (Draws.coherent passed.draws h) told' delivered' true).mono ?_
                rintro result after ⟨turns, others, indices', outcome⟩
                refine ⟨t :: turns, passed.trans others, List.cons_prefix_cons.mpr ⟨rfl, indices'⟩, ?_⟩
                intro grown same
                obtain ⟨whole, still, kept⟩ := outcome grown same
                refine ⟨congrArg _ whole, fun no => ?_, ?_⟩
                · cases (still no).1
                · rw [kept, schedule'', schedule', schedule]
        · rename_i notLonger
          have length := Nat.le_antisymm (Nat.not_lt.mp notLonger) (Draws.length_le first.draws)
          have told' := Moves.told (first.draws.moves : Moves {} c turned) h told
          refine (ih coherent told' (Draws.allDelivered first.draws length delivered) assigned).mono ?_
          rintro result after ⟨turns, others, indices', outcome⟩
          refine ⟨t :: turns, first.trans others, List.cons_prefix_cons.mpr ⟨rfl, indices'⟩, ?_⟩
          intro grown same
          obtain ⟨whole, still, kept⟩ := outcome grown same
          refine ⟨congrArg _ whole, fun no => ⟨(still no).1, ?_⟩, kept.trans schedule⟩
          exact List.forall_mem_cons.mpr ⟨drew.resolve_left notLonger, (still no).2⟩

/-- Rounds end before the fuel does, as each that is followed by another gave a value to an atom. -/
theorem roundsWithin_rounds (h : c.Coherent) (told : c.Told) {fuel : Nat}
    (enough : c.atoms.unvalued.length < fuel) :
    (roundsWithin fuel : Procedure σ (Option Conflict)).Ensures c fun result after =>
      ∃ rounds last, c.Rounds result after rounds last := by
  induction fuel generalizing c with
  | zero => omega
  | succ fuel ih =>
    refine .bind (propagateClauses_turns h) ?_ ?_
    · rintro e after ⟨first, _⟩
      exact ⟨[], [], .stopped first List.nil_prefix nofun⟩
    · rintro key propagated ⟨first, schedule⟩
      split
      · exact .pure ⟨[], [], .stopped first List.nil_prefix nofun⟩
      · refine .bind (deliverAll_turns.both deliverAll_leads) ?_ ?_
        · rintro e after ⟨⟨second, _⟩, _⟩
          exact ⟨[], [], .stopped (first.trans second) List.nil_prefix nofun⟩
        · rintro ⟨⟩ handed ⟨⟨second, schedule'⟩, _, _, delivered⟩
          have passed := first.trans second
          have coherent := Draws.coherent passed.draws h
          have told' := Moves.told (passed.draws.moves : Moves {} c handed) h told
          have order : handed.theories.schedule = c.theories.schedule := schedule'.trans schedule
          refine .get_bind (.bind ((takeTurns_turns coherent told' delivered _ false).both
            (takeTurns_leads coherent delivered (Schedule.nodup_order _) false)) ?_ ?_)
          · rintro e after ⟨⟨turns, third, indices, _⟩, _⟩
            exact ⟨[], turns, .stopped (passed.trans third) (order ▸ indices) nofun⟩
          · rintro outcome turned ⟨⟨turns, third, indices, went⟩, draws, held⟩
            have whole : c.Turns turned turns := passed.trans third
            split
            · exact .pure ⟨[], turns, .stopped whole (order ▸ indices) nofun⟩
            · obtain ⟨complete, _, kept⟩ := went true rfl
              have longer := (held.2.1 rfl).resolve_left Bool.false_ne_true
              have before := (Draws.frame passed.draws).2.2.1
              have after := (Draws.frame draws).2.2.1
              have further := Draws.length_le passed.draws
              have toldTurned := Moves.told (whole.draws.moves : Moves {} c turned) h told
              refine (ih (Draws.coherent whole.draws h) toldTurned (by omega)).mono ?_
              rintro result after ⟨rounds, last, others⟩
              exact ⟨turns :: rounds, last, others.cons whole (order ▸ complete) (kept.trans order)⟩
            · obtain ⟨complete, still, _⟩ := went false rfl
              exact .pure ⟨[turns], [], .final whole (order ▸ complete) (still rfl).2⟩

theorem propagate_rounds (h : c.Coherent) (told : c.Told) :
    (propagate : Procedure σ (Option Conflict)).Ensures c fun result after =>
      ∃ rounds last, c.Rounds result after rounds last := by
  refine .get_bind (.bind (roundsWithin_rounds h told (Nat.lt_succ_self _)) ?_ ?_)
  · exact fun _ _ held => held
  · rintro outcome propagated ⟨rounds, last, held⟩
    split
    · exact .pure ⟨rounds, last, held⟩
    · refine .get_bind ?_
      split
      · refine .bind checkPropagated_turns ?_ ?_
        · intro e after quiet
          exact ⟨rounds, last, held.later quiet nofun⟩
        · intro _ after quiet
          exact .pure ⟨rounds, last, held.later quiet id⟩
      · exact .pure ⟨rounds, last, held⟩

end Procedure

/-- The schedule has all theories in the order of their turns, also where numbers are any that are ranked by the
total order of some bits. Wherever a run comes through, propagation gives the theories their turns in rounds of
that order. -/
theorem PublicRun.rounds_follow_schedule {settings : Settings} {events : List (Event σ)} {s : Session σ}
    (run : PublicRun settings events s) {taking : Intake σ} (reached : Moves taking s.context c) :
    (∀ (α : Type) [Measure α] (bits : α → BitVec 64), Measure.RanksBits bits → ∀ schedule : Schedule α,
      schedule.order.Perm (List.range schedule.standings.length) ∧
        schedule.order.Pairwise (schedule.Before bits)) ∧
    c.theories.schedule.order.Perm (List.range c.theories.members.length) ∧
    c.theories.schedule.order.Pairwise (c.theories.schedule.Before Activity.bits) ∧
    ∀ result after, c.run Procedure.propagate = .ok (result, after) →
      ∃ rounds last, c.Rounds result after rounds last := by
  have h : c.Coherent := Moves.coherent reached run.coherent.1
  refine ⟨fun α _ bits ranks schedule => ?_, ?_, ?_, ?_⟩
  · exact ⟨schedule.order_perm, Schedule.pairwise_before_order ranks schedule⟩
  · rw [← h.standings]
    exact Schedule.order_perm _
  · exact Schedule.pairwise_before_order Activity.ranksBits _
  · exact Procedure.propagate_rounds h (Moves.told reached run.coherent.1 run.told)

/-- Of three theories the second is active below all numbers and the third above all, and the first comes last by
its priority. Both of the literals that get values do so in the middle of a first round, and a second follows. -/
theorem rounds_follow_activities :
    ∃ (events : List (Event RuleTable)) (s : Session RuleTable) (after : Context RuleTable)
      (rounds : List (List AccountedTurn)), PublicRun {} events s ∧
      events.map (·.command) = [.freshLiterals 3,
        .addTheory { rules := [{ premises := [⟨2⟩], conclusion := some ⟨3⟩ }] },
        .addTheory { rules := [{ premises := [⟨1⟩], conclusion := some ⟨2⟩ }] }, .addTheory {}, .observe 0 2,
        .observe 1 1, .setPriority 0 1, .setActivity 1 ⟨Float.ofBits 0x7ff8000000000000, true⟩,
        .setActivity 2 ⟨Float.ofBits 0x7ff8000000000000, false⟩, .addClause [⟨1⟩]] ∧
      s.context.theories.schedule.order = [2, 1, 0] ∧
      s.context.run Procedure.propagate = .ok (.ok none, after) ∧
      s.context.Rounds (.ok none) after rounds [] ∧
      rounds.flatten.map (fun t => (t.index, t.valued)) =
        [(2, []), (1, [⟨2⟩]), (0, [⟨3⟩]), (2, []), (1, []), (0, [])] := by
  let added : List (Nat × Call) := [(1, .enqueue ⟨1⟩), (2, .propagate 0 [] none), (1, .propagate 0 [⟨2⟩] none),
    (0, .enqueue ⟨2⟩), (0, .propagate 0 [⟨3⟩] none), (2, .propagate 0 [] none), (1, .propagate 0 [] none),
    (0, .propagate 0 [] none), (0, .checkPropagated true), (1, .checkPropagated true), (2, .checkPropagated true)]
  obtain ⟨events, s, run, commands, checked⟩ := PublicRun.of_run_any (σ := RuleTable) {}
    [.freshLiterals 3, .addTheory { rules := [{ premises := [⟨2⟩], conclusion := some ⟨3⟩ }] },
      .addTheory { rules := [{ premises := [⟨1⟩], conclusion := some ⟨2⟩ }] }, .addTheory {}, .observe 0 2,
      .observe 1 1, .setPriority 0 1, .setActivity 1 ⟨Float.ofBits 0x7ff8000000000000, true⟩,
      .setActivity 2 ⟨Float.ofBits 0x7ff8000000000000, false⟩, .addClause [⟨1⟩]]
    (by simp [Command.IsPublic])
    (fun _ s => decide (s.context.theories.schedule.order = [2, 1, 0]) &&
      (s.context.run Procedure.propagate).toOption.any fun (result, after) => decide (result = .ok none) &&
        decide (after.theories.calls.toList = s.context.theories.calls.toList ++ added))
    (by decide +kernel)
  rw [Bool.and_eq_true, decide_eq_true_eq] at checked
  obtain ⟨order, propagated⟩ := checked
  cases ran : s.context.run Procedure.propagate with
  | error cause =>
    rw [ran] at propagated
    cases propagated
  | ok outcome =>
    obtain ⟨result, after⟩ := outcome
    rw [ran] at propagated
    simp only [Except.toOption, Option.any_some, Bool.and_eq_true, decide_eq_true_eq] at propagated
    obtain ⟨rfl, account⟩ := propagated
    obtain ⟨rounds, last, held⟩ :=
      (run.rounds_follow_schedule (.refl : Moves {} s.context s.context)).2.2.2 _ _ ran
    obtain rfl := (held.fixpoint rfl).1
    obtain ⟨calls, longer, turns⟩ := held.account
    obtain rfl : added = calls := List.append_cancel_left (account.symm.trans longer)
    rw [List.append_nil] at turns
    refine ⟨events, s, after, rounds, run, commands, order, ran, held, ?_⟩
    rw [← turns]
    rfl

end SatModulo
