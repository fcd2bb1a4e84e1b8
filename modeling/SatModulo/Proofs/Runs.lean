import SatModulo.Proofs.Delivery
import SatModulo.Proofs.Searching

/-!
# Runs of the public interface

A run takes commands in turn from a context without atoms, clauses and theories, and recovers from a
conflict only directly after the command that told of it (`PublicRun`). Every command is made of moves
that take in what the command was given (`Command.course`), and what a command tells of as a conflict is
one. So whatever moves keep holds along every run.
-/
namespace SatModulo

variable {σ : Type}

def conflictOf : Except Error Answer → Option Conflict
  | .ok answer => answer.conflict?
  | .error e => e.conflict?

/-- A command that was taken: the session before it, what it came to, and the session after. -/
structure Event (σ : Type) where
  before : Session σ
  command : Command σ
  result : Except Error Answer
  after : Session σ

namespace Command

/-- The public interface. Recovery is only from a conflict that the last command told of; conflicts of
one's own making are not recovered from, and none is analysed without recovery. -/
def IsPublic (told : Bool) : Command σ → Prop
  | .recover => told = true
  | .recoverFrom _ | .analyse _ => False
  | _ => True

theorem isPublic_of_untold {command : Command σ} (allowed : command.IsPublic false) (told : Bool) :
    command.IsPublic told := by
  cases command <;> first | exact trivial | exact Bool.noConfusion allowed | exact allowed

def Decided (command : Command σ) (result : Except Error Answer) : Prop :=
  ((∃ l, command = .decideLiteral l) ∧ result = .ok .done) ∨
    (command = .makeDecision ∧ ∃ l, result = .ok (.decision (.decided l)))

/-- The result of a command says that there is no solution. -/
def Refuting (result : Except Error Answer) : Prop :=
  result = .ok (.clause .unsatisfiable) ∨ result = .ok (.recovery .unsatisfiable) ∨
    result = .ok (.report .unsatisfiable)

instance (result : Except Error Answer) : Decidable (Refuting result) :=
  inferInstanceAs (Decidable (_ ∨ _))

/-- What a command takes in: a clause that it was answered for, a theory that was registered, where it
decides, and settings that it changed. -/
def taking (command : Command σ) (c : Context σ) (result : Except Error Answer) : Intake σ where
  clause d := ∃ clause outcome, command = .addClause clause ∧ result = .ok (.clause outcome) ∧
    ∀ l, l ∈ d ↔ l ∈ clause
  theory t := ∃ i, command = .addTheory t ∧ result = .ok (.theory i)
  decides mid :=
    match command with
    | .decideLiteral _ | .makeDecision => mid.atoms = c.atoms ∧ command.Decided result
    | .solve => mid.atoms.trail.head = mid.atoms.trail.length
    | _ => False
  settings s := ∃ change, command = .changeSetting change ∧ c.settings.change c.phase change = .ok s

variable [Theory σ] {c : Context σ}

/-- The course of a command, and the conflict that it tells of. That there is no solution is found only
by a command that says so. -/
structure Ran (command : Command σ) (c : Context σ) (result : Except Error Answer) (after : Context σ) :
    Prop where
  moves : Moves (command.taking c result) c after ∨
    Refuting result ∧ ∃ mid, Moves (command.taking c result) c mid ∧
      Refute (command.taking c result) mid after
  told : ∀ conflict, conflictOf result = some conflict → after.Conflicting conflict

theorem Ran.moves_of_ne {command : Command σ} {result : Except Error Answer} {after : Context σ}
    (ran : command.Ran c result after) (never : after.phase ≠ .unsatisfiable) :
    Moves (command.taking c result) c after :=
  ran.moves.elim id fun ⟨_, _, _, refuted⟩ => absurd refuted.phase_eq never

theorem Ran.course {command : Command σ} {result : Except Error Answer} {after : Context σ}
    (ran : command.Ran c result after) : Course (command.taking c result) c after :=
  ran.moves.imp id And.right

omit [Theory σ] in
/-- An operation that is answered for by its value. -/
theorem ensures_answer {α : Type} {p : Procedure σ α} {f : α → Answer}
    {q : Except Error Answer → Context σ → Prop}
    (holds : p.Ensures c fun result after => q (result.map f) after) :
    (p >>= fun a => pure (f a)).Ensures c q :=
  .bind holds (fun _ _ held => held) fun _ _ held => .pure held

theorem ran_of_quiet {command : Command σ} {result : Except Error Answer} {after : Context σ}
    (moves : Moves (command.taking c result) c after) (quiet : conflictOf result = none) :
    command.Ran c result after := by
  refine ⟨.inl moves, fun conflict told => ?_⟩
  rw [quiet] at told
  cases told

/-- An operation that ends with the answer that there is no solution. -/
theorem ran_of_refuted {taking : Intake σ} {command : Command σ} {answer : Answer} {after mid : Context σ}
    (le : taking.Le (command.taking c (.ok answer))) (moves : Moves taking c mid)
    (refuted : Refute taking mid after) (refuting : Refuting (.ok answer)) :
    command.Ran c (.ok answer) after := by
  refine ⟨.inr ⟨refuting, mid, le.moves moves, le.refute refuted⟩, fun conflict told => ?_⟩
  rcases refuting with same | same | same <;> cases same <;> cases told

/-- An operation that takes in nothing, and tells of a conflict only if there is one. -/
theorem ran_of_leads {α : Type} {command : Command σ} {p : Procedure σ α} {f : α → Answer}
    {mid : α → Context σ → Prop} (leads : p.Leads (Move {}) c c mid)
    (told : ∀ a after, mid a after → ∀ conflict, (f a).conflict? = some conflict →
      after.Conflicting conflict) :
    (p >>= fun a => pure (f a)).Ensures c (command.Ran c) := by
  refine ensures_answer (Procedure.Ensures.mono leads fun result after ⟨moves, outcome⟩ => ?_)
  have course := (Intake.empty_le (command.taking c (result.map f))).moves moves
  cases result with
  | error e => exact ran_of_quiet course outcome
  | ok a => exact ⟨.inl course, told a after outcome⟩

omit [Theory σ] in
private theorem quiet {α : Type} {f : α → Answer} {mid : α → Context σ → Prop}
    (none' : ∀ a, (f a).conflict? = none) : ∀ a after, mid a after → ∀ conflict,
      (f a).conflict? = some conflict → after.Conflicting conflict := by
  intro a after _ conflict found
  rw [none' a] at found
  cases found

/-- An operation that only draws consequences, and tells of a conflict only if there is one. -/
theorem ran_of_draws {α : Type} {command : Command σ} {p : Procedure σ α} {f : α → Answer}
    {mid : α → Context σ → Prop} (leads : p.Leads Draw c c mid)
    (told : ∀ a after, mid a after → ∀ conflict, (f a).conflict? = some conflict →
      after.Conflicting conflict) :
    (p >>= fun a => pure (f a)).Ensures c (command.Ran c) :=
  ran_of_leads (leads.mono (fun _ _ => .draw) fun _ _ => id) told

section Courses

variable (kept : Option Conflict)

theorem changeSetting_ran (change : SettingChange) :
    ((changeSetting change : Command σ).procedure kept).Ensures c ((changeSetting change).Ran c) := by
  refine .get_bind (.ofExcept_bind ?_ fun settings changed => ?_)
  · exact fun e _ => ran_of_quiet .refl rfl
  · rintro result after ⟨⟩
    exact ran_of_quiet (.single (.configure c settings ⟨change, rfl, changed⟩)) rfl

/-- A clause that is added is taken in, and where it is false at the base level there is no solution. -/
theorem addClause_ran (clause : Clause) :
    ((addClause clause : Command σ).procedure kept).Ensures c ((addClause clause).Ran c) := by
  refine ensures_answer ((Procedure.addClause_course clause).mono fun result after answered => ?_)
  have le : ∀ outcome, Intake.Le (Procedure.givenOnly clause)
      ((addClause clause : Command σ).taking c (.ok (.clause outcome))) := fun outcome =>
    ⟨fun d same => ⟨clause, outcome, rfl, rfl, same⟩, fun _ => False.elim, fun _ => False.elim,
      fun _ => False.elim⟩
  cases result with
  | error e => exact ran_of_quiet ((Intake.empty_le _).moves answered.1) answered.2
  | ok outcome =>
    cases outcome with
    | added key => exact ran_of_quiet ((le _).moves answered.1) rfl
    | tautology => exact ran_of_quiet ((Intake.empty_le _).moves answered.1) rfl
    | unsatisfiable =>
      obtain ⟨mid, moves, refuted⟩ := answered
      exact ran_of_refuted (le _) moves refuted (.inl rfl)

theorem addTheory_ran (theory : σ) :
    ((addTheory theory).procedure kept).Ensures c ((addTheory theory).Ran c) := by
  refine ensures_answer ((Procedure.addTheory_course theory).mono fun result after answered => ?_)
  cases result with
  | error e => exact ran_of_quiet ((Intake.empty_le _).moves answered.1) answered.2
  | ok i =>
    refine ran_of_quiet (Intake.Le.moves ?_ answered.1) rfl
    refine ⟨fun _ => False.elim, ?_, fun _ => False.elim, fun _ => False.elim⟩
    rintro t rfl
    exact ⟨i, rfl, rfl⟩

theorem decideLiteral_ran (l : Literal) :
    ((decideLiteral l : Command σ).procedure kept).Ensures c ((decideLiteral l).Ran c) := by
  refine ensures_answer ((Procedure.decideLiteral_course l).mono fun result after made => ?_)
  cases result with
  | error e => exact ran_of_quiet (Draws.moves made.1) made.2
  | ok _ =>
    refine ran_of_quiet (Intake.Le.moves ?_ (Procedure.Decides.moves made.1)) rfl
    exact ⟨fun _ => False.elim, fun _ => False.elim, fun _ same => ⟨same, .inl ⟨⟨l, rfl⟩, rfl⟩⟩,
      fun _ => False.elim⟩

theorem makeDecision_ran (h : c.Coherent) :
    ((makeDecision : Command σ).procedure kept).Ensures c (makeDecision.Ran c) := by
  refine ensures_answer ((Procedure.makeDecision_course h).mono fun result after made => ?_)
  cases result with
  | error e => exact ran_of_quiet (Draws.moves made.1) made.2
  | ok decision =>
    refine ran_of_quiet ?_ rfl
    cases decision with
    | exhausted => exact Draws.moves made.1
    | decided l =>
      refine Intake.Le.moves ?_ (Procedure.Decides.moves made.1)
      exact ⟨fun _ => False.elim, fun _ => False.elim, fun _ same => ⟨same, .inr ⟨rfl, l, rfl⟩⟩,
        fun _ => False.elim⟩

theorem recover_ran (h : c.Coherent)
    (conflicting : ∀ conflict, kept = some conflict → c.Conflicting conflict) :
    ((recover : Command σ).procedure kept).Ensures c (recover.Ran c) := by
  cases kept with
  | none => exact .pure (ran_of_quiet .refl rfl)
  | some conflict =>
    refine ensures_answer ((Procedure.recover_course h (conflicting conflict rfl)).mono ?_)
    intro result after recovered
    cases result with
    | error e => exact ran_of_quiet ((Intake.empty_le _).moves recovered.1) recovered.2
    | ok recovery =>
      cases recovery with
      | asserted key literal level =>
        exact ran_of_quiet ((Intake.empty_le _).moves recovered.moves) rfl
      | unsatisfiable =>
        obtain ⟨mid, moves, refuted⟩ := recovered
        exact ran_of_refuted (Intake.empty_le _) moves refuted (.inr (.inl rfl))

/-- A search takes nothing in, and finds that there is no solution only if it says so. -/
theorem solve_ran (h : c.Coherent) :
    ((solve : Command σ).procedure kept).Ensures c (solve.Ran c) := by
  refine ensures_answer ((Procedure.solve_course h).mono fun result after searched => ?_)
  have le : ∀ result, Intake.Le decidesAtEnd ((solve : Command σ).taking c result) :=
    fun _ => ⟨fun _ => False.elim, fun _ => False.elim, fun _ => id, fun _ => False.elim⟩
  split at searched
  · obtain ⟨rfl, rfl⟩ := searched
    exact ran_of_quiet .refl rfl
  · cases result with
    | error e => exact ran_of_quiet ((le _).moves searched.1) searched.2
    | ok report =>
      cases report with
      | satisfiable => exact ran_of_quiet ((le _).moves searched.1) rfl
      | unknown => exact ran_of_quiet ((le _).moves searched) rfl
      | unsatisfiable =>
        obtain ⟨mid, moves, refuted⟩ := searched
        exact ran_of_refuted (le _) moves ((Intake.empty_le _).refute refuted) (.inr (.inr rfl))

theorem propagate_ran (h : c.Coherent) :
    ((propagate : Command σ).procedure kept).Ensures c (propagate.Ran c) := by
  refine ran_of_draws (Procedure.propagate_leads h) fun outcome after held conflict same => ?_
  cases outcome with
  | none => cases same
  | some found =>
    cases same
    exact held

theorem propagateTheory_ran (i : Nat) :
    ((propagateTheory i : Command σ).procedure kept).Ensures c ((propagateTheory i).Ran c) := by
  refine ran_of_draws (Procedure.takeTurn_leads .propagate i) fun outcome after held conflict same => ?_
  cases outcome with
  | none => cases same
  | some found =>
    cases same
    exact held

theorem finalCheck_ran (h : c.Coherent) :
    ((finalCheck : Command σ).procedure kept).Ensures c (finalCheck.Ran c) := by
  refine ran_of_draws (Procedure.finalCheck_leads h) fun outcome after held conflict same => ?_
  cases outcome with
  | satisfied => cases same
  | assigned => cases same
  | conflict found =>
    cases same
    exact held

theorem propagateUnits_ran (h : c.Coherent) :
    ((propagateUnits : Command σ).procedure kept).Ensures c (propagateUnits.Ran c) := by
  refine ensures_answer ((Procedure.propagateUnits_course h).mono ?_)
  rintro result after ⟨draws, outcome⟩
  refine ⟨.inl (Draws.moves draws), fun conflict same => ?_⟩
  cases result with
  | ok _ => cases same
  | error e => exact outcome conflict same

end Courses

/-- The course of every command of the public interface, where the conflict to recover from is one. -/
theorem course (h : c.Coherent) (command : Command σ) {told : Bool} (allowed : command.IsPublic told)
    (kept : Option Conflict)
    (recovers : command = .recover → ∀ conflict, kept = some conflict → c.Conflicting conflict) :
    (command.procedure kept).Ensures c (command.Ran c) := by
  cases command with
  | freshAtom => exact ran_of_leads (Procedure.freshAtom_leads .move) (quiet fun _ => rfl)
  | freshLiterals count =>
    exact ran_of_leads (Procedure.freshLiterals_leads .move count) (quiet fun _ => rfl)
  | ensureAtom a => exact ran_of_leads (Procedure.ensureAtom_leads .move a) (quiet fun _ => rfl)
  | observe i a => exact ran_of_leads (Procedure.observe_leads .move i a) (quiet fun _ => rfl)
  | setPriority i priority =>
    exact ran_of_leads (Procedure.setPriority_leads Builds.move.adjust i priority) (quiet fun _ => rfl)
  | setActivity i activity =>
    exact ran_of_leads (Procedure.setActivity_leads Builds.move.adjust i activity) (quiet fun _ => rfl)
  | preprocess => exact ran_of_draws Procedure.preprocess_leads (quiet fun _ => rfl)
  | checkPropagated => exact ran_of_draws Procedure.checkPropagated_leads (quiet fun _ => rfl)
  | checkSolved => exact ran_of_draws Procedure.checkSolved_leads (quiet fun _ => rfl)
  | backjump level => exact ran_of_leads (Procedure.backjump_leads level) (quiet fun _ => rfl)
  | clearDecisions => exact ran_of_leads Procedure.clearDecisions_leads (quiet fun _ => rfl)
  | changeSetting change => exact changeSetting_ran kept change
  | propagate => exact propagate_ran kept h
  | propagateTheory i => exact propagateTheory_ran kept i
  | finalCheck => exact finalCheck_ran kept h
  | propagateUnits => exact propagateUnits_ran kept h
  | addClause clause => exact addClause_ran kept clause
  | addTheory theory => exact addTheory_ran kept theory
  | decideLiteral l => exact decideLiteral_ran kept l
  | makeDecision => exact makeDecision_ran kept h
  | recover => exact recover_ran kept h (recovers rfl)
  | solve => exact solve_ran kept h
  | recoverFrom conflict => exact allowed.elim
  | analyse clause => exact allowed.elim

end Command

def Event.Accepts (e : Event σ) (clause : Clause) : Prop :=
  e.command = .addClause clause ∧ ∃ outcome, e.result = .ok (.clause outcome)

def Event.Registers (e : Event σ) (theory : σ) : Prop :=
  e.command = .addTheory theory ∧ ∃ i, e.result = .ok (.theory i)

section Commands

variable {e : Event σ} {events : List (Event σ)} {commands : List (Command σ)}

theorem Event.Accepts.mem {clause : Clause} (accepts : e.Accepts clause) (member : e ∈ events)
    (given : events.map (·.command) = commands) : .addClause clause ∈ commands := by
  rw [← given, ← accepts.1]
  exact List.mem_map_of_mem member

theorem Event.pairs_eq_zip {results : List (Except Error Answer)}
    (given : events.map (·.command) = commands) (answered : events.map (·.result) = results) :
    events.map (fun e => (e.command, e.result)) = commands.zip results := by
  rw [← given, ← answered, List.zip_map']

/-- What was answered to each command of a list shows in the events. -/
theorem Event.exists_of_mem_zip {results : List (Except Error Answer)}
    (given : events.map (·.command) = commands) (answered : events.map (·.result) = results)
    {command : Command σ} {result : Except Error Answer} (member : (command, result) ∈ commands.zip results) :
    ∃ e ∈ events, e.command = command ∧ e.result = result := by
  rw [← Event.pairs_eq_zip given answered] at member
  obtain ⟨e, inside, same⟩ := List.mem_map.mp member
  exact ⟨e, inside, congrArg Prod.fst same, congrArg Prod.snd same⟩

theorem Event.Registers.mem {theory : σ} (registers : e.Registers theory) (member : e ∈ events)
    (given : events.map (·.command) = commands) : .addTheory theory ∈ commands := by
  rw [← given, ← registers.1]
  exact List.mem_map_of_mem member

end Commands

/-- Whether the last command of a run told of a conflict. -/
def lastTold (events : List (Event σ)) : Bool :=
  events.getLast?.any fun e => (conflictOf e.result).isSome

theorem lastTold_eq {events : List (Event σ)} {results : List (Except Error Answer)}
    (answered : events.map (·.result) = results) :
    lastTold events = results.getLast?.any fun result => (conflictOf result).isSome := by
  rw [← answered, List.getLast?_map, Option.any_map]
  rfl

variable [Theory σ]

/-- A run of the public interface, from a context without atoms, clauses and theories. -/
inductive PublicRun (settings : Settings) : List (Event σ) → Session σ → Prop
  | start : PublicRun settings [] (.ofSettings settings)
  | step {events : List (Event σ)} {s : Session σ} (earlier : PublicRun settings events s)
    (command : Command σ) (allowed : command.IsPublic (lastTold events))
    (result : Except Error Answer) (s' : Session σ)
    (taken : s.step command = .ok (result, s')) :
    PublicRun settings (events ++ [⟨s, command, result, s'⟩]) s'

theorem Session.step_eq_ok {s s' : Session σ} {command : Command σ} {result : Except Error Answer}
    (taken : s.step command = .ok (result, s')) :
    s.context.run (command.procedure s.kept) = .ok (result, s'.context) ∧
      s'.kept = command.keptAfter s.kept result := by
  obtain ⟨⟨outcome, context⟩, ran, same⟩ := Except.bind_eq_ok taken
  cases same
  exact ⟨ran, rfl⟩

/-- What is checked by taking commands holds of a session that they lead to. -/
theorem Session.of_run_any (s : Session σ) (commands : List (Command σ))
    (check : List (Except Error Answer) × Session σ → Bool)
    (checked : (s.run commands).toOption.any check = true) :
    ∃ results s', s.run commands = .ok (results, s') ∧ check (results, s') = true := by
  cases ran : s.run commands with
  | error cause =>
    rw [ran] at checked
    cases checked
  | ok outcome =>
    rw [ran] at checked
    exact ⟨outcome.1, outcome.2, rfl, checked⟩

namespace PublicRun

variable {settings : Settings} {events : List (Event σ)} {s : Session σ}

/-- Along a run the context is coherent, and a conflict that the last command told of is one. -/
theorem coherent (run : PublicRun settings events s) :
    s.context.Coherent ∧
      (lastTold events → ∀ conflict, s.kept = some conflict → s.context.Conflicting conflict) := by
  induction run with
  | start => exact ⟨.initial settings, fun told => by cases told⟩
  | @step events s earlier command allowed result s' taken ih =>
    obtain ⟨h, conflicting⟩ := ih
    obtain ⟨ran, kept⟩ := Session.step_eq_ok taken
    have recovers : command = .recover → ∀ conflict, s.kept = some conflict →
        s.context.Conflicting conflict := by
      rintro rfl
      exact conflicting allowed
    have took := Command.course h command allowed s.kept recovers _ _ ran
    refine ⟨took.course.coherent h, fun isTold conflict keeps => took.told conflict ?_⟩
    simp only [lastTold, List.getLast?_concat, Option.any_some] at isTold
    obtain ⟨found, same⟩ := Option.isSome_iff_exists.mp isTold
    have others : command.keptAfter s.kept result = none ∨
        command.keptAfter s.kept result = some found := by
      cases command <;> first
        | exact .inl rfl
        | (right; simp only [Command.keptAfter]; cases result <;> exact congrArg (·.or s.kept) same)
    rw [kept] at keeps
    rw [same]
    rcases others with none' | some'
    · rw [none'] at keeps
      cases keeps
    · rw [← some', keeps]

/-- The command that a run goes on with is made of moves. -/
theorem ran_step (run : PublicRun settings events s) {command : Command σ}
    (allowed : command.IsPublic (lastTold events)) {result : Except Error Answer} {s' : Session σ}
    (taken : s.step command = .ok (result, s')) : command.Ran s.context result s'.context := by
  obtain ⟨h, conflicting⟩ := run.coherent
  refine Command.course h command allowed s.kept ?_ _ _ (Session.step_eq_ok taken).1
  rintro rfl
  exact conflicting allowed

/-- Every command of a run is made of moves. -/
theorem ran (run : PublicRun settings events s) : ∀ e ∈ events,
    e.before.context.Coherent ∧ e.before.step e.command = .ok (e.result, e.after) ∧
      e.command.Ran e.before.context e.result e.after.context := by
  induction run with
  | start => simp
  | @step events s earlier command allowed result s' taken ih =>
    intro e member
    rcases List.mem_append.mp member with old | new
    · exact ih e old
    · rw [List.mem_singleton] at new
      subst new
      exact ⟨earlier.coherent.1, taken, earlier.ran_step allowed taken⟩

/-- What every move keeps, and the finding that there is no solution, holds along a run. -/
theorem invariant {keeps : Context σ → Prop} (run : PublicRun settings events s)
    (initial : keeps (.ofSettings settings))
    (moved : ∀ {c c' : Context σ}, Move .any c c' → c.Coherent → keeps c → keeps c')
    (refuted : ∀ {c c' : Context σ}, Refute .any c c' → keeps c → keeps c') : keeps s.context := by
  induction run with
  | start => exact initial
  | @step events s earlier command allowed result s' taken ih =>
    have h := earlier.coherent.1
    have ran := earlier.ran_step allowed taken
    have along : ∀ {mid}, Moves (command.taking s.context result) s.context mid → keeps mid := by
      intro mid moves
      induction moves with
      | refl => exact ih
      | tail moves move kept =>
        exact moved ((Intake.le_any _).move move) (Moves.coherent moves h) kept
    rcases ran.moves with moves | ⟨_, mid, moves, turned⟩
    · exact along moves
    · exact refuted ((Intake.le_any _).refute turned) (along moves)

theorem told (run : PublicRun settings events s) : s.context.Told :=
  run.invariant (.initial settings) (fun move h told => Moves.told (.single move) h told)
    fun refuted => refuted.told

/-- It does not turn out that there is no solution unless a command says so. -/
theorem phase_ne (run : PublicRun settings events s)
    (quiet : ∀ e ∈ events, ¬Command.Refuting e.result) :
    ∀ e ∈ events, e.after.context.phase ≠ .unsatisfiable := by
  suffices both : s.context.phase ≠ .unsatisfiable ∧ ∀ e ∈ events, e.after.context.phase ≠ .unsatisfiable from
    both.2
  induction run with
  | start => exact ⟨Phase.noConfusion, by simp⟩
  | @step events s earlier command allowed result s' taken ih =>
    have last : ⟨s, command, result, s'⟩ ∈ events ++ [(⟨s, command, result, s'⟩ : Event σ)] :=
      List.mem_append_right _ (.head _)
    obtain ⟨before, others⟩ := ih fun e member => quiet e (List.mem_append_left _ member)
    have ran := earlier.ran_step allowed taken
    have after : s'.context.phase ≠ .unsatisfiable :=
      ran.moves.elim (fun moves => moves.phase_ne before) fun refuted => absurd refuted.1 (quiet _ last)
    refine ⟨after, fun e member => ?_⟩
    rcases List.mem_append.mp member with old | new
    · exact others e old
    · rwa [List.mem_singleton.mp new]

/-- The last command of a run was taken after the run of the others. -/
theorem of_concat {e : Event σ} (run : PublicRun settings (events ++ [e]) s) :
    PublicRun settings events e.before ∧ e.command.IsPublic (lastTold events) ∧ e.after = s := by
  generalize whole : events ++ [e] = all at run
  cases run with
  | start => simp at whole
  | step earlier command allowed result s' taken =>
    obtain ⟨rfl, last⟩ := List.append_inj' whole rfl
    obtain rfl := List.singleton_inj.mp last
    exact ⟨earlier, allowed, rfl⟩

/-- The first commands of a run make a run. -/
theorem of_append {later : List (Event σ)} (run : PublicRun settings (events ++ later) s) :
    ∃ s', PublicRun settings events s' := by
  induction later using List.reverseRecOn generalizing s with
  | nil => exact ⟨s, by rwa [List.append_nil] at run⟩
  | append_singleton later e ih =>
    rw [← List.append_assoc] at run
    exact ih run.of_concat.1

/-- The commands of a run up to one of them make a run. -/
theorem through {later : List (Event σ)} {e : Event σ} (run : PublicRun settings (events ++ e :: later) s) :
    PublicRun settings (events ++ [e]) e.after := by
  rw [← List.singleton_append, ← List.append_assoc] at run
  obtain ⟨_, first⟩ := run.of_append
  exact first.of_concat.2.2 ▸ first

/-- A command of a run is the last one of a run. -/
theorem upTo {e : Event σ} (run : PublicRun settings events s) (member : e ∈ events) :
    ∃ earlier, PublicRun settings (earlier ++ [e]) e.after := by
  obtain ⟨earlier, later, rfl⟩ := List.append_of_mem member
  exact ⟨earlier, run.through⟩

/-- What is shown of a public command, if it recovers only from a conflict, is so of the last one of a run. -/
theorem ensured {e : Event σ} {q : Except Error Answer → Context σ → Prop}
    (run : PublicRun settings (events ++ [e]) s)
    (ensures : ∀ told, e.command.IsPublic told →
      (e.command = .recover → ∀ conflict, e.before.kept = some conflict →
        e.before.context.Conflicting conflict) →
      (e.command.procedure e.before.kept).Ensures e.before.context q) : q e.result s.context := by
  obtain ⟨before, allowed, rfl⟩ := run.of_concat
  obtain ⟨_, taken, _⟩ := run.ran e (List.mem_append_right _ (.head _))
  refine ensures _ allowed (fun given => ?_) _ _ (Session.step_eq_ok taken).1
  rw [given] at allowed
  exact before.coherent.2 allowed

/-- The commands of a run determine the session that they lead to. -/
theorem session_eq {s' : Session σ} (run : PublicRun settings events s)
    (run' : PublicRun settings events s') : s = s' := by
  cases run with
  | start =>
    generalize none' : ([] : List (Event σ)) = all at run'
    cases run' with
    | start => rfl
    | step => simp at none'
  | step earlier command allowed result s taken => exact run'.of_concat.2.2

/-- A run goes on with commands that are public without regard to conflicts. -/
theorem extend (run : PublicRun settings events s) {commands : List (Command σ)}
    (allowed : ∀ command ∈ commands, command.IsPublic false) {results : List (Except Error Answer)}
    {s' : Session σ} (ran : s.run commands = .ok (results, s')) :
    ∃ more, PublicRun settings (events ++ more) s' ∧ more.map (·.command) = commands ∧
      more.map (·.result) = results := by
  induction commands generalizing events s results with
  | nil =>
    cases ran
    exact ⟨[], by rwa [List.append_nil], rfl, rfl⟩
  | cons command rest ih =>
    obtain ⟨⟨result, between⟩, taken, ran⟩ := Except.bind_eq_ok ran
    obtain ⟨⟨others, last⟩, ran, same⟩ := Except.bind_eq_ok ran
    cases same
    have public' := Command.isPublic_of_untold (allowed command (.head _)) (lastTold events)
    have longer := run.step command public' result between taken
    obtain ⟨more, whole, commands, results⟩ :=
      ih longer (fun other member => allowed other (.tail _ member)) ran
    refine ⟨⟨s, command, result, between⟩ :: more, ?_, ?_, ?_⟩
    · rwa [List.append_assoc] at whole
    · rw [List.map_cons, commands]
    · rw [List.map_cons, results]

/-- Commands that are public without regard to conflicts make a run when they are taken in turn. -/
theorem of_run {commands : List (Command σ)} {results : List (Except Error Answer)}
    (allowed : ∀ command ∈ commands, command.IsPublic false)
    (ran : (Session.ofSettings settings).run commands = .ok (results, s)) :
    ∃ events, PublicRun settings events s ∧ events.map (·.command) = commands ∧
      events.map (·.result) = results :=
  start.extend allowed ran

variable (settings) in
/-- What is checked of the results of commands, and of the session that they lead to, holds of a run. -/
theorem of_run_any (commands : List (Command σ)) (allowed : ∀ command ∈ commands, command.IsPublic false)
    (check : List (Except Error Answer) → Session σ → Bool)
    (checked : ((Session.ofSettings settings).run commands).toOption.any
      (fun outcome => check outcome.1 outcome.2) = true) :
    ∃ events s, PublicRun settings events s ∧ events.map (·.command) = commands ∧
      check (events.map (·.result)) s = true := by
  obtain ⟨results, s, ran, checked⟩ := Session.of_run_any _ commands _ checked
  obtain ⟨events, run, given, rfl⟩ := of_run allowed ran
  exact ⟨events, s, run, given, checked⟩

end PublicRun

end SatModulo
