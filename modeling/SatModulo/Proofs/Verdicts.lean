import SatModulo.Proofs.Ranges
import SatModulo.Proofs.ReliableCardinality
import SatModulo.Proofs.ReliableConnectivity
import SatModulo.Proofs.Solutions
import SatModulo.Proofs.Termination

/-!
# A search comes to a verdict

Where theories are reliable and observe all of their atoms, and the settings are likelihoods without a time limit,
nothing that a search can fail for comes about but a full store of learnt clauses
(`Context.Dependable.not_crashes`, `Context.Dependable.blames`). So a search that is begun anywhere along a run
answers that there is a solution, or that there is none, and in no context that it comes through is a vector read
or written outside (`PublicRun.solve_decides`).
-/
namespace SatModulo

open Constraint

/-! ### Draws -/

structure Settings.AreLikelihoods (s : Settings) : Prop where
  polarityBias : Generator.IsLikelihood s.polarityBias.value
  randomDecisionBias : Generator.IsLikelihood s.randomDecisionBias.value

instance (s : Settings) : Decidable s.AreLikelihoods :=
  decidable_of_iff (Generator.IsLikelihood s.polarityBias.value ∧
    Generator.IsLikelihood s.randomDecisionBias.value) ⟨fun h => ⟨h.1, h.2⟩, fun h => ⟨h.1, h.2⟩⟩

theorem Except.ne_error {ε α : Type} {x : Except ε α} (success : ∃ a, x = .ok a) (e : ε) : x ≠ .error e := by
  obtain ⟨a, rfl⟩ := success
  rintro ⟨⟩

variable {σ : Type} [Theory σ]

/-! ### Answers -/

namespace Procedure

variable {c : Context σ}

/-- Without a time limit an iteration does not answer that it does not know. -/
theorem iterate_ne_unknown (endless : c.settings.timeLimit.value = 0) :
    (iterate : Procedure σ (Option Report)).Ensures c fun result _ => result ≠ .ok (some .unknown) := by
  have recovers : ∀ (conflict : Conflict) (c : Context σ), (iterate.recoverFrom conflict).Ensures c
      fun result _ => result ≠ .ok (some .unknown) := by
    intro conflict c
    refine .bind_any (fun _ _ => nofun) fun outcome _ => ?_
    split <;> exact .pure nofun
  refine .modify_bind (.get_bind ?_)
  rw [Settings.expires, endless]
  refine .bind_any (fun _ _ => nofun) fun outcome _ => ?_
  split
  · exact recovers _ _
  · refine .get_bind (.ofFaulty_bind fun _ _ => .modify_bind (.bind_any (fun _ _ => nofun) fun decision _ => ?_))
    split
    · exact .pure nofun
    · refine .bind_any (fun _ _ => nofun) fun checked _ => ?_
      split
      · exact .modify_bind (.pure nofun)
      · exact .pure nofun
      · exact recovers _ _

omit [Theory σ] in
/-- A loop answers nothing that its body does not. -/
theorem Loops.answer_ne {α : Type} {body : Procedure σ (Option α)} {a : α} (keeps : Context σ → Prop)
    (goesOn : ∀ c after, keeps c → c.run body = .ok (.ok none, after) → keeps after)
    (never : ∀ c, keeps c → body.Ensures c fun result _ => result ≠ .ok (some a)) {count : Nat}
    {outcome : Except Fault (Except Error α × Context σ)} (loops : Loops body count c outcome) (holds : keeps c) :
    ∀ after, outcome ≠ .ok (.ok a, after) := by
  induction loops with
  | fault c cause ran => exact fun _ => nofun
  | error c after e ran => exact fun _ => nofun
  | answer c after b ran =>
    rintro _ ⟨⟩
    exact never c holds _ _ ran rfl
  | again ran rest ih => exact ih (goesOn _ _ holds ran)

/-- Without a time limit a search goes on until it has an answer. -/
theorem solve_ne_unknown (h : c.Coherent) (opened : c.Opened) (told : c.Told)
    (endless : c.settings.timeLimit.value = 0) :
    (solve : Procedure σ Report).Ensures c fun result _ => result ≠ .ok .unknown := by
  rintro result after ran rfl
  by_cases closed : c.phase = .unsatisfiable
  · rw [(h.searchEnds opened told).refuted closed] at ran
    cases ran
  · obtain ⟨prepared, _, started, _, _, loops⟩ := solve_loop h opened told closed
    let keeps : Context σ → Prop := fun mid =>
      mid.Coherent ∧ mid.phase ≠ .unsatisfiable ∧ mid.settings.timeLimit.value = 0
    have holds : keeps { prepared with phase := .solving } :=
      ⟨Moves.coherent started h, Phase.noConfusion, by rw [Moves.settings_eq started fun _ => id]; exact endless⟩
    refine loops.answer_ne keeps ?_ (fun _ held => iterate_ne_unknown held.2.2) holds after ran
    rintro mid after ⟨h, open', endless⟩ ran
    have moves : Moves decidesAtEnd mid after := iterate_course h open' _ _ ran
    exact ⟨Moves.coherent moves h, moves.phase_ne open', by rwa [Moves.settings_eq moves fun _ => id]⟩

end Procedure

theorem Session.step_of_ends {s s' : Session σ} {command : Command σ} {broken : Fault → Prop}
    {post : Except Error Answer → Context σ → Prop}
    (ends : (command.procedure s.kept).Ends s.context broken post) {result : Except Error Answer}
    (taken : s.step command = .ok (result, s')) : post result s'.context := by
  unfold Procedure.Ends at ends
  rwa [(Session.step_eq_ok taken).1] at ends

/-! ### What does not come about -/

variable [Constraint σ] [LawfulConstraint σ] [Reliable σ]

/-- Theories do their part and observe all of their atoms. -/
structure Context.Attended (c : Context σ) : Prop where
  coherent : c.Coherent
  told : c.Told
  served : c.Served
  watched : c.Watched IsBuilt

namespace Context.Attended

variable {start c : Context σ} {i : Nat} {m : Member σ}

theorem moves (attended : start.Attended) (reached : Moves decidesAtEnd start c) : c.Attended where
  coherent := Moves.coherent reached attended.coherent
  told := Moves.told reached attended.coherent attended.told
  served := Moves.served reached attended.coherent attended.told (fun _ => False.elim) attended.served
  watched := Moves.watched reached (fun _ => id) attended.watched

/-- What a member has become of is a theory whose atoms it observes, and informed. -/
theorem informed (attended : c.Attended) (found : c.theories.members[i]? = some m) {flushed : σ}
    (origin : flushed = m.theory ∨ flushed = Theory.flush c.atoms m.theory) :
    ∃ root, (∀ a ∈ Constraint.atoms root, m.observes a) ∧
      Informed root (c.theories.heard i) flushed c.atoms ∧ Reliable.Sound flushed := by
  obtain ⟨root, isBuilt, stems, observes⟩ := attended.watched i m found
  have member := List.mem_of_getElem? found
  have known : ∀ a ∈ Constraint.atoms root, a < c.atoms.count := fun a inRoot =>
    attended.told.known m member a (of_decide_eq_true (observes a inRoot))
  exact ⟨root, observes, attended.told.informed attended.coherent ⟨isBuilt, known⟩ stems origin,
    attended.served.sound_flushed member origin⟩

/-- A theory that was told of the whole trail and drew nothing agrees that nothing is left to be drawn. -/
theorem propagated (attended : c.Attended) (delivered : c.AllDelivered)
    (found : c.theories.members[i]? = some m) {flushed theory : σ}
    (origin : flushed = m.theory ∨ flushed = Theory.flush c.atoms m.theory)
    (ran : (Theory.propagate flushed).run i c.atoms = .ok ((none, theory), c.atoms)) :
    Theory.checkPropagated c.atoms theory = .ok true := by
  obtain ⟨root, observes, informed, sound⟩ := attended.informed found origin
  exact Reliable.propagated informed sound (attended.told.complete attended.coherent delivered found observes
    (LawfulConstraint.proper informed.isBuilt)) ran

/-- A theory that agreed to a full valuation agrees that it is a solution. -/
theorem solved (attended : c.Attended) (full : c.atoms.unvalued = []) {mid after : Context σ}
    (draws : Draws c mid) (same : mid.atoms = c.atoms) (delivered : mid.AllDelivered)
    (settles : mid.Settles i) (further : Draws c after) (found : after.theories.members[i]? = some m) :
    Theory.checkSolved c.atoms m.theory = true := by
  have valued : ∀ a < c.atoms.count, c.atoms.value a = some ((c.atoms.value a).getD false) := by
    intro a known
    cases given : c.atoms.value a with
    | some value => rfl
    | none =>
      have unvalued := Atoms.mem_unvalued.mpr ⟨known, given⟩
      rw [full] at unvalued
      cases unvalued
  have inside := (List.getElem?_eq_some_iff.mp found).1
  -- Draws register nothing, so the member is what one of the context has become.
  rw [Moves.length_members (Draws.moves further : Moves {} c after) fun _ => id] at inside
  obtain ⟨root, isBuilt, stems, observes⟩ := attended.watched i _ (List.getElem?_eq_getElem inside)
  have moves : Moves decidesAtEnd c mid := Draws.moves draws
  obtain ⟨m₁, stems₁, more₁⟩ := Moves.stems moves stems
  have models : Models (fun a => (c.atoms.value a).getD false) root := by
    have later := attended.moves moves
    refine settles.models later.coherent later.told delivered ?_ isBuilt stems₁ fun a inRoot =>
      more₁ a (observes a inRoot)
    rwa [same]
  obtain ⟨m₂, stems₂, _⟩ := Moves.stems (Draws.moves further : Moves {} c after) stems
  obtain rfl : m₂ = m := Option.some.inj (stems₂.1.symm.trans found)
  refine Reliable.solved isBuilt (stems₂.recalls isBuilt) (fun a inRoot => valued a ?_) models
  exact attended.told.known _ (List.getElem_mem inside) a (of_decide_eq_true (observes a inRoot))

/-- No theory that is attended denies that it is at a fixpoint, or that it is solved. -/
theorem not_denies (attended : start.Attended) (i : Nat) :
    ¬start.Blames (.theory (.checkPropagated i)) ∧ ¬start.Blames (.theory (.checkSolved i)) := by
  constructor
  · intro blames
    cases blames with
    | unpropagated c reached told _ m found flushed theory origin ran denied =>
      rw [(attended.moves reached).propagated told found origin ran] at denied
      cases denied
  · intro blames
    cases blames with
    | unsolved c reached full _ mid draws same told settles after further same' m found denied =>
      rw [(attended.moves reached).solved full draws same told settles further found] at denied
      cases denied

end Context.Attended

/-- Theories do their part and observe all of their atoms, and the settings are likelihoods without a time limit. -/
structure Context.Dependable (c : Context σ) : Prop where
  coherent : c.Coherent
  told : c.Told
  served : c.Served
  watched : c.Watched IsBuilt
  likelihoods : c.settings.AreLikelihoods
  endless : c.settings.timeLimit.value = 0

namespace Context.Dependable

variable {start c : Context σ} {i : Nat} {m : Member σ}

omit [LawfulConstraint σ] in
theorem attended (dependable : c.Dependable) : c.Attended :=
  ⟨dependable.coherent, dependable.told, dependable.served, dependable.watched⟩

theorem moves (dependable : start.Dependable) (reached : Moves decidesAtEnd start c) : c.Dependable :=
  have later := dependable.attended.moves reached
  have settings : c.settings = start.settings := Moves.settings_eq reached fun _ => id
  ⟨later.coherent, later.told, later.served, later.watched, settings ▸ dependable.likelihoods,
    settings ▸ dependable.endless⟩

theorem informed_of_mem (dependable : c.Dependable) (member : m ∈ c.theories.members) :
    ∃ i root, Informed root (c.theories.heard i) m.theory c.atoms ∧ Reliable.Sound m.theory := by
  obtain ⟨i, found⟩ := List.mem_iff_getElem?.mp member
  obtain ⟨root, _, informed, sound⟩ := dependable.attended.informed found (.inl rfl)
  exact ⟨i, root, informed, sound⟩

omit [LawfulConstraint σ] in
/-- A theory can be told of literals whose atoms have both. -/
theorem exists_enqueueAll {literals : List Literal} (inRange : ∀ l ∈ literals, l.atom ≤ maxAtom) (t : σ) :
    ∃ t', literals.foldlM (fun s l => Theory.enqueue l s) t = .ok t' := by
  induction literals generalizing t with
  | nil => exact ⟨t, rfl⟩
  | cons l rest ih =>
    rw [List.forall_mem_cons] at inRange
    obtain ⟨told, first⟩ := Reliable.enqueues t inRange.1
    obtain ⟨t', others⟩ := ih inRange.2 told
    exact ⟨t', by rw [List.foldlM_cons, first]; exact others⟩

omit [LawfulConstraint σ] in
theorem deliver (dependable : c.Dependable) (m : Member σ) :
    ∃ outcome, m.deliver c.atoms.trail.literals = .ok outcome := by
  have inRange : ∀ l ∈ m.pending c.atoms.trail.literals, l.atom ≤ maxAtom := by
    intro l pending
    have onTrail := List.mem_of_mem_drop (List.mem_of_mem_filter pending)
    have h := dependable.coherent.supports.atoms
    exact Nat.lt_succ_iff.mp (Nat.lt_of_lt_of_le (h.lt_count_of_mem onTrail) h.room)
  obtain ⟨t', told⟩ := exists_enqueueAll inRange m.theory
  unfold Member.deliver
  dsimp only
  rw [told]
  exact ⟨_, rfl⟩

/-- A theory gives a reason that explains what it made true. -/
theorem reason (dependable : c.Dependable) {l : Literal} (onTrail : l ∈ c.atoms.trail.literals)
    {marker : Marker} (reasoned : c.atoms.reasonOf l.atom = some (.theory i marker))
    (found : c.theories.members[i]? = some m) :
    ∃ clause t', Theory.buildReason l marker m.theory = .ok (clause, t') ∧ c.atoms.Explains clause l := by
  obtain ⟨level, given, assigned⟩ := dependable.coherent.supports.atoms.mem_literals_iff.mp onTrail
  rw [Atoms.reasonOf, assigned] at reasoned
  cases reasoned
  obtain ⟨root, n, stems, _, built, justified, after⟩ := dependable.served.vouches l level _ assigned
  obtain rfl : n = m := Option.some.inj (stems.1.symm.trans found)
  have informed := dependable.told.informed dependable.coherent built stems (.inl rfl)
  obtain ⟨clause, t', answered, inside, others⟩ := Reliable.reasons informed justified
  exact ⟨clause, t', answered, after.explains inside others⟩

/-- In no context that a search comes through does a call end in a fault. -/
theorem not_crashes (dependable : start.Dependable) (cause : Fault) : ¬start.Crashes cause := by
  intro crashes
  cases crashes with
  | tell c reached m member failed =>
    exact Except.ne_error ((dependable.moves reached).deliver m) cause failed
  | clear c reached m member failed =>
    obtain ⟨_, _, informed, _⟩ := (dependable.moves reached).informed_of_mem member
    exact Except.ne_error (Reliable.clears informed) cause failed
  | turn c reached i m found turn call kind flushed origin failed =>
    obtain ⟨_, _, informed, sound⟩ := (dependable.moves reached).attended.informed found origin
    obtain ⟨_, _, ran, _⟩ := Reliable.turns informed sound kind i
    exact Except.ne_error ⟨_, ran⟩ cause failed
  | hint c reached m member failed =>
    obtain ⟨_, _, informed, _⟩ := (dependable.moves reached).informed_of_mem member
    exact Except.ne_error (Reliable.hints informed) cause failed
  | explain c reached l onTrail failed =>
    obtain ⟨i, marker, m, reasoned, found, failed⟩ := failed
    obtain ⟨_, _, answered, _⟩ := (dependable.moves reached).reason onTrail reasoned found
    exact Except.ne_error ⟨_, answered⟩ cause failed
  | check c reached m member failed =>
    obtain ⟨_, _, informed, sound⟩ := (dependable.moves reached).informed_of_mem member
    exact Except.ne_error (Reliable.checks informed sound) cause failed
  | draw c reached p likelihood failed =>
    have valid := (dependable.moves reached).likelihoods
    refine Except.ne_error ?_ cause failed
    rcases likelihood with rfl | rfl
    · exact c.settings.host.sampler.exists_chance _ _ valid.polarityBias
    · exact c.settings.host.sampler.exists_chance _ _ valid.randomDecisionBias

/-- A search that fails has filled the store of learnt clauses. -/
theorem blames (dependable : start.Dependable) {e : Error} (blames : start.Blames e) :
    e = .clause .storageExhausted ∧
      ∃ c, Moves decidesAtEnd start c ∧ UInt32.size ≤ c.clauses.learnt.size := by
  cases blames with
  | unfalsified c reached i m found turn call kind flushed theory origin clause atoms ran unfalsified =>
    obtain ⟨_, _, informed, sound⟩ := (dependable.moves reached).attended.informed found origin
    obtain ⟨_, _, ran', _, falsified⟩ := Reliable.turns informed sound kind i
    rw [ran] at ran'
    cases ran'
    have isFalse : clause.falsifiedOn atoms.value = true := List.all_eq_true.mpr fun l member =>
      beq_iff_eq.mpr (Literal.statusOn_eq_different.mpr (falsified _ rfl l member))
    rw [isFalse] at unfalsified
    cases unfalsified
  | malformed c reached l onTrail i marker reasoned m found reason theory answered unexplained =>
    obtain ⟨_, _, answered', explains⟩ := (dependable.moves reached).reason onTrail reasoned found
    rw [answered] at answered'
    cases answered'
    exact absurd explains unexplained
  | unpropagated c reached told i m found flushed theory origin ran denied =>
    exact absurd (.unpropagated c reached told i m found flushed theory origin ran denied)
      (dependable.attended.not_denies i).1
  | unsolved c reached full i mid draws same told settles after further same' m found denied =>
    exact absurd (.unsolved c reached full i mid draws same told settles after further same' m found denied)
      (dependable.attended.not_denies i).2
  | full c reached full => exact ⟨rfl, c, reached, full⟩

end Context.Dependable

/-- A search in a context that can be depended on answers that there is a solution, or that there is none,
unless it fills the store of learnt clauses. -/
theorem Context.Dependable.exists_answer {c : Context σ} (dependable : c.Dependable) (opened : c.Opened) :
    ∃ result after, c.run Procedure.solve = .ok (result, after) ∧ Course decidesAtEnd c after ∧
      (result = .ok .satisfiable ∨ result = .ok .unsatisfiable ∨
        result = .error (.clause .storageExhausted) ∧
          ∃ full, Moves decidesAtEnd c full ∧ UInt32.size ≤ full.clauses.learnt.size) := by
  have excused := Procedure.solve_excused dependable.coherent opened dependable.told
  unfold Procedure.Excused Procedure.Ends at excused
  split at excused
  · rename_i result after ran
    have course : Course decidesAtEnd c after := by
      have searched := Procedure.solve_course dependable.coherent _ _ ran
      split at searched
      · rw [searched.2]
        exact .inl .refl
      · exact searched.course
    refine ⟨result, after, ran, course, ?_⟩
    rcases result with e | report
    · obtain ⟨rfl, full⟩ := dependable.blames (excused e rfl)
      exact .inr (.inr ⟨rfl, full⟩)
    · have known :=
        Procedure.solve_ne_unknown dependable.coherent opened dependable.told dependable.endless _ _ ran
      cases report with
      | satisfiable => exact .inl rfl
      | unsatisfiable => exact .inr (.inl rfl)
      | unknown => exact absurd rfl known
  · exact absurd excused (dependable.not_crashes _)

/-- A search that is begun returns, as no fault is left. Its course is one of moves, and it answers, or fails as it has
filled the store of learnt clauses, which has room for `UInt32.size` of them: no other failure is left either. -/
def Session.Decides (s : Session σ) : Prop :=
  ∃ result s', s.step .solve = .ok (result, s') ∧ Course decidesAtEnd s.context s'.context ∧
    (result = .ok (.report .satisfiable) ∨ result = .ok (.report .unsatisfiable) ∨
      result = .error (.clause .storageExhausted) ∧
        ∃ c, Moves decidesAtEnd s.context c ∧ UInt32.size ≤ c.clauses.learnt.size)

/-- A search among dependable theories ends with an answer, or with a full store. -/
theorem Context.Dependable.decides {s : Session σ} (dependable : s.context.Dependable)
    (opened : s.context.Opened) : s.Decides := by
  obtain ⟨result, after, ran, course, ends⟩ := dependable.exists_answer opened
  have whole : s.context.run ((Command.solve : Command σ).procedure s.kept) =
      .ok (result.map .report, after) := by
    rw [Command.procedure, Procedure.Ensures.run_bind, ran]
    cases result <;> rfl
  refine ⟨result.map .report, _, by rw [Session.step, whole]; rfl, course, ?_⟩
  rcases ends with rfl | rfl | ⟨rfl, full⟩
  · exact .inl rfl
  · exact .inr (.inl rfl)
  · exact .inr (.inr ⟨rfl, full⟩)

/-- Along a run, from registrations of theories about known atoms on, theories do their part where they
observe all of their atoms. -/
theorem PublicRun.attended {settings : Settings} {events : List (Event σ)} {s : Session σ}
    (run : PublicRun settings events s)
    (built : ∀ e ∈ events, ∀ theory, e.Registers theory → BuiltBelow e.before.context.atoms.count theory)
    (observed : AllObserved events) : s.context.Attended where
  coherent := run.coherent.1
  told := run.told
  served := run.served built
  watched := run.watched (fun e member theory registers => (built e member theory registers).1) observed

/-- Where the settings are likelihoods without a time limit besides, theories can be depended on. -/
theorem PublicRun.dependable {settings : Settings} {events : List (Event σ)} {s : Session σ}
    (run : PublicRun settings events s)
    (built : ∀ e ∈ events, ∀ theory, e.Registers theory → BuiltBelow e.before.context.atoms.count theory)
    (observed : AllObserved events) (likelihoods : s.context.settings.AreLikelihoods)
    (endless : s.context.settings.timeLimit.value = 0) : s.context.Dependable :=
  have attended := run.attended built observed
  ⟨attended.coherent, attended.told, attended.served, attended.watched, likelihoods, endless⟩

section Reference

variable {settings : Settings} {events : List (Event (AtMost ⊕ Reachability))}
  {s : Session (AtMost ⊕ Reachability)}

theorem PublicRun.inRange (run : PublicRun settings events s)
    (built : ∀ e ∈ events, ∀ theory, e.Registers theory → BuiltBelow e.before.context.atoms.count theory)
    (observed : AllObserved events) {c : Context (AtMost ⊕ Reachability)}
    (reached : Moves decidesAtEnd s.context c) : c.InRange :=
  have later := (run.attended built observed).moves reached
  have opened := Moves.opened reached run.coherent.1 run.opened
  later.told.inRange later.coherent opened later.watched (run.written.trans (Moves.writes reached))

/-- With bounds and reachability about atoms that are known where they are registered, all of them observed, and
without a time limit, a search that is begun anywhere along a run answers that there is a solution or that there is
none, whatever is checked of theories, and in no context that it comes through is a vector read or written outside.
It gives up only where it has learnt `UInt32.size` clauses, so that no key is left for another. What is counted has
no bound here. -/
theorem PublicRun.solve_decides (run : PublicRun settings events s)
    (built : ∀ e ∈ events, ∀ theory, e.Registers theory → BuiltBelow e.before.context.atoms.count theory)
    (observed : AllObserved events) (likelihoods : s.context.settings.AreLikelihoods)
    (endless : s.context.settings.timeLimit.value = 0) :
    s.Decides ∧ ∀ c, Moves decidesAtEnd s.context c → c.InRange :=
  ⟨(run.dependable built observed likelihoods endless).decides run.opened, fun _ => run.inRange built observed⟩

/-- A search that is begun after a decision against the only edge. -/
theorem solve_decides_after_decision :
    ∃ (events : List (Event (AtMost ⊕ Reachability))) (s : Session (AtMost ⊕ Reachability)),
      PublicRun {} events s ∧ events.map (·.command) = [.freshLiterals 3, .addClause [⟨1⟩],
        .addTheory (.inl (.ofMembers [⟨1⟩, ⟨2⟩] 1)),
        .addTheory (.inr (Reachability.addEdge (.ofNodes 2 0 1 1) ⟨0, 1, 3⟩)), .observe 0 1, .observe 0 2,
        .observe 1 1, .observe 1 3, .decideLiteral ⟨-3⟩] ∧
      (s.Decides ∧ ∀ c, Moves decidesAtEnd s.context c → c.InRange) ∧
      (s.step .solve).toOption.map Prod.fst = some (.ok (.report .satisfiable)) := by
  obtain ⟨_, s₁, ran, checked⟩ := Session.of_run_any
    (Session.ofSettings {} : Session (AtMost ⊕ Reachability)) [.freshLiterals 3]
    (fun (results, s) => decide (results = [.ok (.literals [⟨1⟩, ⟨2⟩, ⟨3⟩])]) &&
      decide (s.context.atoms.count = 4) &&
      (s.run [.addClause [⟨1⟩], .addTheory (.inl (.ofMembers [⟨1⟩, ⟨2⟩] 1)),
        .addTheory (.inr (Reachability.addEdge (.ofNodes 2 0 1 1) ⟨0, 1, 3⟩)), .observe 0 1, .observe 0 2,
        .observe 1 1, .observe 1 3, .decideLiteral ⟨-3⟩]).toOption.any fun (results, s) =>
          decide (results = [.ok (.clause (.added (.given 0))), .ok (.theory 0), .ok (.theory 1), .ok .done,
            .ok .done, .ok .done, .ok .done, .ok .done]) &&
          decide s.context.settings.AreLikelihoods && decide (s.context.settings.timeLimit.value = 0) &&
          decide ((s.step .solve).toOption.map Prod.fst = some (.ok (.report .satisfiable))))
    (by decide +kernel)
  rw [Bool.and_eq_true, Bool.and_eq_true, decide_eq_true_eq, decide_eq_true_eq] at checked
  obtain ⟨⟨rfl, count⟩, more⟩ := checked
  obtain ⟨_, s, ranMore, checked⟩ := Session.of_run_any _ _ _ more
  simp only [Bool.and_eq_true, decide_eq_true_eq] at checked
  obtain ⟨⟨⟨rfl, likelihoods⟩, endless⟩, answer⟩ := checked
  obtain ⟨first, run, firstCommands, firstResults⟩ := PublicRun.of_run (by simp [Command.IsPublic]) ran
  obtain ⟨later, whole, laterCommands, laterResults⟩ := run.extend (by simp [Command.IsPublic]) ranMore
  have commands := congrArg₂ (· ++ ·) firstCommands laterCommands
  have results := congrArg₂ (· ++ ·) firstResults laterResults
  rw [← List.map_append] at commands results
  have built : ∀ e ∈ first ++ later, ∀ theory, e.Registers theory →
      BuiltBelow e.before.context.atoms.count theory := by
    intro e member theory registers
    rcases List.mem_append.mp member with early | late
    · have given := registers.mem early firstCommands
      simp at given
    · refine Constraint.BuiltBelow.mono ?_ (count ▸ (run.count_le whole).1 e late)
      have given := registers.mem late laterCommands
      simp only [List.mem_cons, reduceCtorEq, Command.addTheory.injEq, List.not_mem_nil, false_or, or_false]
        at given
      rcases given with rfl | rfl
      · exact ⟨⟨[⟨1⟩, ⟨2⟩], 1, rfl, by decide⟩, by decide⟩
      · exact ⟨⟨⟨2, 0, 1, 1, .latestFirst, [⟨0, 1, 3⟩], rfl, by decide⟩, by decide⟩, by decide⟩
  have observed : AllObserved (first ++ later) := by
    refine allObserved_of_pairs (Event.pairs_eq_zip commands results) fun theory i added a inTheory => ?_
    simp only [List.cons_append, List.nil_append, List.zip_cons_cons, List.zip_nil_right, List.mem_cons,
      Prod.mk.injEq, reduceCtorEq, Command.addTheory.injEq, Except.ok.injEq, Answer.theory.injEq,
      List.not_mem_nil, false_and, false_or, or_false] at added
    rcases added with ⟨rfl, rfl⟩ | ⟨rfl, rfl⟩
    · have either : a = 1 ∨ a = 2 := List.mem_pair.mp inTheory
      rcases either with rfl | rfl <;> simp
    · have either : a = 1 ∨ a = 3 := List.mem_pair.mp inTheory
      rcases either with rfl | rfl <;> simp
  exact ⟨first ++ later, s, whole, commands, whole.solve_decides built observed likelihoods endless, answer⟩

end Reference

end SatModulo
