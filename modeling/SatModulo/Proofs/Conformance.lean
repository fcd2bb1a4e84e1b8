import SatModulo.Proofs.Conduct
import SatModulo.Proofs.Registration
import SatModulo.Theories.RuleTable

/-!
# Theories see the protocol

Along every run of the public interface every registered theory sees the protocol
(`PublicRun.keeps_protocol`): commands are made of exchanges, and exchanges keep to it.
-/
namespace SatModulo

variable {σ : Type} [Theory σ] {c c' : Context σ}

/-- A member hears of its decisions, and is taken back from a level above. -/
theorem Member.Undecided.lowered {records : List DecisionRecord} {target length i : Nat}
    {m m₁ m' : Member σ} {first second : List Call} (undecided : Undecided records i m m₁ first)
    (taken : m₁.backtrack target length = (m', second)) (low : target < m.level) :
    Lowered records target i m m' (first ++ second) := by
  have same : m₁.level = m.level := by rw [undecided.kept]
  unfold backtrack at taken
  simp only [same, if_pos low] at taken
  cases taken
  refine ⟨undecided.trace.append (.single (.backtrack _ _)), ?_, rfl, ?_, by rw [undecided.own]⟩
  · rw [undecided.kept]
  · rw [undecided.kept]

/-- Word of new facts at the base level is a consultation of the theories that can make use of it. -/
theorem Exchange.of_clearSatisfied {t : Trail} {isNew : Bool} {theories : Registry σ}
    (cleared : c.theories.clearSatisfied t = .ok (isNew, theories)) :
    Exchange c { c with theories } := by
  unfold Registry.clearSatisfied at cleared
  split at cleared
  · cases cleared
    exact .aside rfl rfl
  · obtain ⟨between, changed, same⟩ := Except.bind_eq_ok cleared
    cases same
    obtain ⟨changes, _, decisions, _⟩ := Registry.changeAll_eq_ok changed
    have consulted := changes.mono fun i _ _ _ =>
      Member.consulted_clearSatisfied (s := c.atoms) (i := i)
    exact .consult ⟨consulted.length, consulted.member, consulted.absent⟩ decisions rfl

/-- A return to a lower level tells every member which of its decisions are taken back, and takes it back
itself. -/
theorem Registry.changes_lowered {r retracted r' : Registry σ} {target : Nat} {t : Trail}
    (undecided : r.retractAbove target = .ok retracted) (taken : retracted.backtrack target t = .ok r')
    (descending : r.decisions.Pairwise fun later earlier => earlier.level < later.level)
    (high : ∀ m ∈ r.members, target < m.level) :
    Changes (Member.Lowered (r.decisions.filter fun d => target < d.level) target) r r' ∧
      r'.decisions = r.decisions.filter fun d => d.level ≤ target := by
  obtain ⟨first, decisions⟩ := undecideAll_eq_ok undecided
  obtain ⟨second, _, decisions', _⟩ := changeAll_eq_ok taken
  obtain ⟨above, kept⟩ := List.takeWhile_eq_filter (p := fun d => decide (target < d.level))
    (descending.imp fun lower => by
      simp only [decide_eq_true_eq]
      omega)
  rw [above] at first
  replace first : Changes (Member.Undecided (r.decisions.filter fun d => target < d.level)) r retracted :=
    ⟨first.length, first.member, first.absent⟩
  refine ⟨(first.trans second).mono_mem fun i m m' own found effected => ?_, ?_⟩
  · obtain ⟨_, _, _, rfl, told, back⟩ := effected
    exact told.lowered (Except.ok.inj back) (high m (List.mem_of_getElem? found))
  · rw [decisions', decisions]
    simp only [kept]
    refine List.filter_congr fun d _ => ?_
    rw [← decide_not]
    exact decide_eq_decide.mpr Nat.not_lt

namespace Procedure

/-! ### Conflicts -/

/-- A return to a lower level is one exchange. -/
theorem Retreated.exchange {target : Nat} (retreated : Retreated target c c') (h : c.Orderly)
    (low : target < c.level) : Exchange c c' := by
  obtain ⟨retracted, theories, undecided, taken, rfl⟩ := retreated.of_lt low
  obtain ⟨changes, decisions⟩ := Registry.changes_lowered undecided taken h.descending fun m member => by
    rwa [h.levels m member]
  exact .retreat target low changes decisions rfl

theorem backjump_exchanges (h : c.Orderly) (target : Nat) :
    (backjump target : Procedure σ Unit).Leads Exchange c c fun _ _ => True := by
  refine (backjump_course target).mono ?_
  rintro result after ⟨rfl, retreated⟩
  by_cases low : target < c.level
  · exact ⟨.single (retreated.exchange h low), trivial⟩
  · rw [Retreated, if_neg low] at retreated
    exact ⟨retreated ▸ .refl, trivial⟩

theorem clearDecisions_exchanges (h : c.Orderly) :
    (clearDecisions : Procedure σ Unit).Leads Exchange c c fun _ _ => True := by
  refine .call (backjump_exchanges h 0) .refl fun _ _ reached _ => .get_bind ?_
  split
  · exact .modify (reached.tail (.aside rfl rfl)) trivial
  · exact .pure reached trivial

/-- A theory is asked for the reason of a literal of the trail only if it gave the reason. -/
theorem reasonFor_exchanges {l : Literal} (onTrail : l ∈ c.atoms.trail.literals) :
    (reasonFor l : Procedure σ Clause).Leads Exchange c c fun _ after => after.atoms = c.atoms := by
  refine .get_bind ?_
  dsimp only
  split
  · exact .ofExcept .refl (fun _ _ => rfl) fun _ _ => rfl
  · rename_i i marker reasoned
    refine .ofFaulty_bind fun (reason, theories) asked => ?_
    have moved : Exchange c { c with theories } := by
      refine .of_changeAt asked fun m a m' own answered => ?_
      obtain ⟨⟨reason', theory⟩, built, same⟩ := Except.bind_eq_ok answered
      cases same
      exact .single (.buildReason _ _ _ _ _ built) nofun (.buildReason l marker onTrail reasoned reason')
    dsimp only
    split
    · exact .throw .refl rfl
    · refine .modify_bind (.modify_bind ?_)
      have bumped : Exchange { c with theories } { c with
          theories := { theories with schedule := theories.schedule.bumpBy c.settings.host.conventions i }
          counters.reasons := c.counters.reasons + 1 } := .apart rfl rfl rfl (.inl rfl)
      have reached := (Relation.ReflTransGen.single moved).tail bumped
      split
      · exact .pure reached rfl
      · exact .throw reached rfl
  · exact .throw .refl rfl
  · exact .throw .refl rfl

theorem descend_exchanges {rest : List Literal} (r : Resolvent)
    (onTrail : ∀ l ∈ rest, l ∈ c.atoms.trail.literals) :
    (descend rest r : Procedure σ (Literal × List Literal)).Leads Exchange c c fun _ _ => True := by
  induction rest generalizing c r with
  | nil => exact .throw .refl rfl
  | cons l earlier ih =>
    obtain ⟨first, others⟩ := List.forall_mem_cons.mp onTrail
    unfold descend
    refine .get_bind (.ofFaulty_bind fun met _ => ?_)
    split
    · split
      · exact .pure .refl trivial
      · refine .call (reasonFor_exchanges first) .refl fun reason asked reached same => ?_
        refine .get_bind (.ofExcept_bind reached (fun _ failed => Resolvent.addAll_quiet failed) ?_)
        intro r' _
        exact (ih r' (by rw [same]; exact others)).from_start reached
    · exact ih r others

/-- Analysis asks theories for reasons, and for nothing else. -/
theorem analyse_exchanges (clause : Clause) :
    (analyse clause : Procedure σ Learnt).Leads Exchange c c fun _ _ => True := by
  refine .get_bind (.ofExcept_bind .refl (fun _ failed => Resolvent.addAll_quiet failed) fun r _ => ?_)
  dsimp only
  split
  · exact .throw_bind .refl rfl
  · have onTrail : ∀ l ∈ c.atoms.trail.literals.reverse, l ∈ c.atoms.trail.literals := fun l =>
      List.mem_reverse.mp
    rw [resolve_trail]
    refine .call (descend_exchanges r onTrail) .refl fun (last, lower) mid reached _ => ?_
    refine .get_bind (.ofExcept_bind reached (fun _ failed => Atoms.backjumpLevel_quiet failed) ?_)
    intro level _
    refine .get_bind (.ofExcept_bind reached (fun _ _ => rfl) fun (key, clauses) _ => ?_)
    have stored : Exchange mid { mid with clauses } := .aside rfl rfl
    refine .modify_bind ?_
    split
    · exact .pure (reached.tail stored) trivial
    · exact .pure (reached.tail stored) trivial

theorem conflictLevel_exchanges (clause : Clause) :
    (conflictLevel clause : Procedure σ Nat).Leads Exchange c c fun _ after => after = c :=
  .get_bind (.ofExcept_bind .refl (fun _ failed => Atoms.levels_quiet rfl failed) fun _ _ =>
    .pure .refl rfl)

/-- A clause that was learnt makes its literal true after the return. -/
theorem learn_exchanges (h : c.Orderly) (key : ClauseKey) (l : Literal) (level : Nat) :
    (do
      backjump level
      match ← assign l (.clause key) with
      | .unset => return .asserted key l level
      | _ => throw .valuationConflict : Procedure σ Recovery).Leads Exchange c c fun _ _ => True := by
  refine .call (backjump_exchanges h level) .refl fun _ _ reached _ => ?_
  refine .call (assign_exchanges l nofun) reached fun status _ reached' _ => ?_
  split
  · exact .pure reached' trivial
  · exact .throw reached' rfl

theorem recoverClause_exchanges (h : c.Orderly) (clause : Clause) :
    (recoverClause clause : Procedure σ Recovery).Leads Exchange c c fun _ _ => True := by
  refine .call (conflictLevel_exchanges clause) .refl fun level _ _ same => ?_
  subst same
  dsimp only
  split
  · exact .modify_bind (.pure (.single (.aside rfl rfl)) trivial)
  · refine .call (backjump_exchanges h level) .refl fun _ _ reached _ => ?_
    refine .call (analyse_exchanges clause) reached fun learnt _ reached' _ => ?_
    have orderly := h.exchanges reached'
    cases learnt with
    | unit key l => exact (learn_exchanges orderly key l 0).from_start reached'
    | asserting key l level => exact (learn_exchanges orderly key l level).from_start reached'

theorem recover_exchanges (h : c.Orderly) (conflict : Conflict) :
    (recover conflict : Procedure σ Recovery).Leads Exchange c c fun _ _ => True := by
  have counted : Exchange c { c with counters.conflicts := c.counters.conflicts + 1 } :=
    .aside rfl rfl
  have rest (clause : Clause) := (recoverClause_exchanges (counted.orderly h) clause).from_start
    (.single counted)
  refine .modify_bind ?_
  cases conflict with
  | clause key => exact .get_bind (.ofExcept_bind (.single counted) (fun _ _ => rfl) fun d _ => rest d)
  | theory i d => exact rest d

/-! ### The search -/

theorem recoverFrom_exchanges (h : c.Orderly) (conflict : Conflict) :
    (iterate.recoverFrom conflict : Procedure σ (Option Report)).Leads Exchange c c fun _ _ => True := by
  refine .call (recover_exchanges h conflict) .refl fun recovery _ reached _ => ?_
  split <;> exact .pure reached trivial

/-- An iteration of the search is a sequence of exchanges with theories. -/
theorem iterate_exchanges (h : c.Orderly) :
    (iterate : Procedure σ (Option Report)).Leads Exchange c c fun _ _ => True := by
  have counted : Exchange c { c with counters.iterations := c.counters.iterations + 1 } :=
    .aside rfl rfl
  refine .modify_bind (.get_bind ?_)
  split
  · exact .pure (.single counted) trivial
  refine .call propagate_exchanges (.single counted) fun outcome propagated reached _ => ?_
  split
  · exact (recoverFrom_exchanges (h.exchanges reached) _).from_start reached
  · refine .get_bind (.ofFaulty_bind fun (isNew, theories) cleared => .modify_bind ?_)
    have told : Relation.ReflTransGen Exchange c { propagated with theories } :=
      reached.tail (.of_clearSatisfied cleared)
    refine .call (makeDecision_exchanges (h.exchanges told)) told fun decision _ decided _ => ?_
    split
    · exact .pure decided trivial
    · refine .call finalCheck_exchanges decided fun checked _ final _ => ?_
      split
      · exact .modify_bind (.pure (final.tail (.aside rfl rfl)) trivial)
      · exact .pure final trivial
      · exact (recoverFrom_exchanges (h.exchanges final) _).from_start final

theorem iterateWithin_exchanges (h : c.Orderly) (fuel : Nat) :
    (iterateWithin fuel : Procedure σ Report).Leads Exchange c c fun _ _ => True := by
  induction fuel generalizing c with
  | zero => exact .pure .refl trivial
  | succ fuel ih =>
    refine .call (iterate_exchanges h) .refl fun outcome _ reached _ => ?_
    split
    · exact .pure reached trivial
    · exact (ih (h.exchanges reached)).from_start reached

theorem solve_exchanges (h : c.Orderly) :
    (solve : Procedure σ Report).Leads Exchange c c fun _ _ => True := by
  refine .get_bind ?_
  split
  · exact .pure .refl trivial
  · refine .call preprocess_exchanges .refl fun _ prepared reached _ => ?_
    have set : Exchange prepared { prepared with phase := .solving } := .aside rfl rfl
    have started := reached.tail set
    exact .modify_bind (.get_bind ((iterateWithin_exchanges (h.exchanges started) _).from_start started))

end Procedure

/-! ### Runs -/

/-- A command is made of exchanges. -/
theorem Command.exchanges (h : c.Orderly) (command : Command σ) (kept : Option Conflict) :
    (command.procedure kept).Ensures c fun _ after => Relation.ReflTransGen Exchange c after := by
  have answered : ∀ {α : Type} {p : Procedure σ α} {f : α → Answer} {mid : α → Context σ → Prop},
      p.Leads Exchange c c mid → (p >>= fun a => pure (f a)).Ensures c
        fun _ after => Relation.ReflTransGen Exchange c after := fun leads =>
    ensures_answer (Procedure.Ensures.mono leads fun _ _ => And.left)
  cases command with
  | freshAtom => exact answered (Procedure.freshAtom_leads .exchange)
  | freshLiterals count => exact answered (Procedure.freshLiterals_leads .exchange count)
  | ensureAtom a => exact answered (Procedure.ensureAtom_leads .exchange a)
  | addClause clause => exact answered (Procedure.addClause_exchanges clause)
  | addTheory theory => exact answered (Procedure.addTheory_exchanges theory)
  | observe i a => exact answered (Procedure.observe_leads .exchange i a)
  | setPriority i priority =>
    exact answered (Procedure.setPriority_leads Builds.exchange.adjust i priority)
  | setActivity i activity =>
    exact answered (Procedure.setActivity_leads Builds.exchange.adjust i activity)
  | changeSetting change =>
    refine .get_bind (.ofExcept_bind (fun _ _ => .refl) fun settings _ => ?_)
    rintro result after ⟨⟩
    exact .single (.aside rfl rfl)
  | preprocess => exact answered Procedure.preprocess_exchanges
  | decideLiteral l => exact answered (Procedure.decideLiteral_exchanges l)
  | makeDecision => exact answered (Procedure.makeDecision_exchanges h)
  | propagateUnits => exact ensures_answer Procedure.propagateUnits_exchanges
  | propagate => exact answered Procedure.propagate_exchanges
  | propagateTheory i => exact answered (Procedure.takeTurn_exchanges .propagate i)
  | finalCheck => exact answered Procedure.finalCheck_exchanges
  | recover =>
    cases kept with
    | none => exact .pure .refl
    | some conflict => exact answered (Procedure.recover_exchanges h conflict)
  | recoverFrom conflict => exact answered (Procedure.recover_exchanges h conflict)
  | analyse clause => exact answered (Procedure.analyse_exchanges clause)
  | backjump level => exact answered (Procedure.backjump_exchanges h level)
  | clearDecisions => exact answered (Procedure.clearDecisions_exchanges h)
  | checkPropagated => exact answered Procedure.checkPropagated_exchanges
  | checkSolved => exact answered Procedure.checkSolved_exchanges
  | solve => exact answered (Procedure.solve_exchanges h)

omit [Theory σ] in
theorem Context.Orderly.initial (settings : Settings) :
    (Context.ofSettings settings : Context σ).Orderly where
  room := by
    change 1 ≤ maxAtom + 1
    decide
  levels := nofun
  descending := .nil
  standing := nofun

theorem Context.Follows.exchanges {i : Nat} {start : List Call} {capabilities : Capabilities}
    (follows : c.Follows i start capabilities) (h : c.Orderly)
    (exchanges : Relation.ReflTransGen Exchange c c') : c'.Follows i start capabilities := by
  induction exchanges with
  | refl => exact follows
  | tail before exchange ih => exact exchange.follows (h.exchanges before) ih

/-- A theory that is registered has heard its index, which is its position. -/
theorem Context.Follows.registered {theory : σ} {i : Nat}
    (registered : c.theories.register theory = (.ok i, c'.theories)) :
    i = c.theories.count ∧ c'.Follows i (c.theories.account i)
      (Theory.capabilities (Theory.setIndex i theory)) := by
  rcases Registry.register_eq registered with ⟨_, _, no, _⟩ | ⟨ok, _, same⟩
  · cases no
  · cases ok
    have found : c'.theories.members[c.theories.count]? = some
        { theory := Theory.setIndex c.theories.count theory
          capabilities := Theory.capabilities (Theory.setIndex c.theories.count theory) } := by
      rw [same]
      exact List.getElem?_concat_length
    refine ⟨rfl, _, [.setIndex c.theories.count], found, rfl, ?_, .initial _ _, rfl, by simp⟩
    rw [same]
    simp [Registry.account, Registry.callsOf]

namespace PublicRun

variable {settings : Settings} {events : List (Event σ)} {s : Session σ} {e : Event σ}

/-- The commands of a run are made of exchanges, from one orderly context to the next. -/
theorem exchanges (run : PublicRun settings events s) : s.context.Orderly ∧
    ∀ e ∈ events, e.before.context.Orderly ∧
      Relation.ReflTransGen Exchange e.before.context e.after.context := by
  induction run with
  | start => exact ⟨.initial settings, by simp⟩
  | @step events s earlier command allowed result s' taken ih =>
    obtain ⟨h, others⟩ := ih
    have last := Command.exchanges h command s.kept _ _ (Session.step_eq_ok taken).1
    exact ⟨h.exchanges last, List.forall_mem_append.mpr ⟨others, by simp [h, last]⟩⟩

/-- What keeps to the protocol after a command still does at the end of the run. -/
theorem follows_of_after (run : PublicRun settings events s) (member : e ∈ events) {i : Nat}
    {start : List Call} {capabilities : Capabilities}
    (follows : e.after.context.Follows i start capabilities) :
    s.context.Follows i start capabilities := by
  induction run with
  | start => cases member
  | @step events s earlier command allowed result s' taken ih =>
    rcases List.mem_append.mp member with old | new
    · have h := earlier.exchanges.1
      exact (ih old).exchanges h (Command.exchanges h command s.kept _ _ (Session.step_eq_ok taken).1)
    · rwa [List.mem_singleton.mp new] at follows

/-- Theories see the protocol along every run, whatever they do. Every command is made of exchanges: a
theory is asked for a reason only for a literal of the trail that it gave that reason for, and a
decision on its proposal is taken back, by one word and before the level is closed, exactly when its
level is removed. The calls that a registered theory receives from its registration on keep to the
protocol under its position and with the capabilities that it stated then. -/
theorem keeps_protocol (run : PublicRun settings events s) :
    (∀ e ∈ events, e.before.context.Orderly ∧
      Relation.ReflTransGen Exchange e.before.context e.after.context) ∧
    ∀ e ∈ events, ∀ theory i, e.command = .addTheory theory → e.result = .ok (.theory i) →
      i = e.before.context.theories.count ∧
        ∃ own, s.context.theories.account i = e.before.context.theories.account i ++ own ∧
          Protocol (Theory.capabilities (Theory.setIndex i theory)) i own := by
  refine ⟨run.exchanges.2, fun e member theory i given registered => ?_⟩
  obtain ⟨position, follows⟩ :=
    Context.Follows.registered (run.register_of_registers member given registered)
  obtain ⟨m, own, _, capabilities, account, conforms⟩ := run.follows_of_after member follows
  exact ⟨position, own, account, capabilities ▸ conforms.protocol⟩

/-- A theory is registered, makes two proposals with a turn between them, and hears that both are taken
back, the second one first. -/
theorem keeps_protocol_for_proposer :
    ∃ (events : List (Event RuleTable)) (s : Session RuleTable) (table : RuleTable) (own : List Call),
      PublicRun {} events s ∧
      events.map (·.command) = [.freshLiterals 3, .addTheory table, .observe 0 1, .makeDecision,
        .propagate, .makeDecision, .backjump 0] ∧
      table.abilities = { decisions := true, deferredEnqueue := true } ∧
      s.context.theories.account 0 = own ∧
      own = [.setIndex 0, .preprocess, .noteOccurs ⟨1⟩ false, .noteOccurs ⟨-1⟩ false,
        .decide (some ⟨⟨1⟩, none⟩), .openLevel, .enqueue ⟨1⟩, .flush 1 1, .propagate 1 [⟨3⟩] none,
        .flush 1 2, .propagate 1 [] none, .checkPropagated true, .decide (some ⟨⟨2⟩, none⟩), .openLevel,
        .undecide ⟨2⟩, .undecide ⟨1⟩, .backtrack 0] ∧
      Protocol table.abilities 0 own := by
  let table : RuleTable :=
    { abilities := { decisions := true, deferredEnqueue := true }
      rules := [{ onSolve := false, premises := [⟨1⟩], conclusion := some ⟨3⟩ }]
      proposals := [⟨⟨1⟩, none⟩, ⟨⟨2⟩, none⟩] }
  let heard : List Call := [.preprocess, .noteOccurs ⟨1⟩ false, .noteOccurs ⟨-1⟩ false,
    .decide (some ⟨⟨1⟩, none⟩), .openLevel, .enqueue ⟨1⟩, .flush 1 1, .propagate 1 [⟨3⟩] none,
    .flush 1 2, .propagate 1 [] none, .checkPropagated true, .decide (some ⟨⟨2⟩, none⟩), .openLevel,
    .undecide ⟨2⟩, .undecide ⟨1⟩, .backtrack 0]
  obtain ⟨_, s, ran, checked⟩ := Session.of_run_any (Session.ofSettings {} : Session RuleTable)
    [.freshLiterals 3, .addTheory table, .observe 0 1, .makeDecision, .propagate, .makeDecision,
      .backjump 0]
    (fun (results, s) => decide (results[1]? = some (.ok (.theory 0)) ∧
      s.context.theories.account 0 = .setIndex 0 :: heard)) (by decide +kernel)
  obtain ⟨answer, account⟩ := of_decide_eq_true checked
  obtain ⟨events, run, commands, results⟩ := PublicRun.of_run (by simp [Command.IsPublic]) ran
  obtain ⟨e, found, answered⟩ : ∃ e, events[1]? = some e ∧ e.result = .ok (.theory 0) := by
    rwa [← results, List.getElem?_map, Option.map_eq_some_iff] at answer
  have given : e.command = .addTheory table := by
    have second := congrArg (·[1]?) commands
    simpa [found] using second
  obtain ⟨_, own, split, keeps⟩ :=
    run.keeps_protocol.2 e (List.mem_of_getElem? found) table 0 given answered
  refine ⟨events, s, table, _, run, commands, rfl, account, rfl, ?_⟩
  -- Nothing was heard before the index, since the index is set once.
  obtain ⟨rest, introduced, _⟩ := keeps.introduced
  cases before : e.before.context.theories.account 0 with
  | nil => rwa [account.symm.trans split, before]
  | cons call earlier =>
    rw [account, before, introduced] at split
    have again : .setIndex 0 ∈ heard := by simp [(List.cons.inj split).2]
    exact absurd again (by decide)

end PublicRun

end SatModulo
