import SatModulo.Proofs.Enrolment
import SatModulo.Proofs.Verdicts

/-!
# The order of registration is irrelevant

Theories that have distinct priorities get their turns in the order of priorities, whatever their indices are.
Two runs that set up the same context, but register theories in different orders, come to the same in all that
follows, up to the indices of theories (`PublicRun.ignores_registration_order`).
-/
namespace SatModulo

open Constraint

variable {σ : Type}

/-! ### What is not about theories -/

/-- The commands that name no theory, each with its result. -/
def commonOf (events : List (Event σ)) : List (Command σ × Except Error Answer) :=
  (events.map fun e => (e.command, e.result)).filter (·.1.isCommon)

theorem commonOf_concat (events : List (Event σ)) (e : Event σ) :
    commonOf (events ++ [e]) = commonOf events ++ if e.command.isCommon then [(e.command, e.result)] else [] := by
  rw [commonOf, List.map_append, List.filter_append, List.map_singleton, List.filter_singleton]
  cases e.command.isCommon <;> rfl

theorem Command.IsEnrolling.not_common {command : Command σ} (enrolling : command.IsEnrolling) :
    command.isCommon = false := by
  cases command <;> first | rfl | exact enrolling.elim

theorem Setting.value_eq_of_set {α : Type} [LT α] [DecidableLT α] {s s' : Setting α} {value : α} {phase : Phase}
    (set : s.set value phase = .ok s') : s' = { s with value } := by
  unfold Setting.set at set
  split at set
  · cases set
  · split at set
    · cases set
    · cases set
      rfl

/-- To what a setting is changed does not depend on the phase, only whether it is. -/
theorem Settings.change_unique {s t t' : Settings} {phase phase' : Phase} {change : SettingChange}
    (changed : s.change phase change = .ok t) (changed' : s.change phase' change = .ok t') : t' = t := by
  cases change <;>
  · obtain ⟨_, set, same⟩ := Except.bind_eq_ok changed
    obtain ⟨_, set', same'⟩ := Except.bind_eq_ok changed'
    cases same
    cases same'
    rw [Setting.value_eq_of_set set, Setting.value_eq_of_set set']

theorem Phase.begun_eq_self {phase : Phase} (left : phase ≠ .configuration) : phase.begun = phase := by
  cases phase with
  | configuration => exact absurd rfl left
  | _ => rfl

theorem Atoms.renumber_initial (π : Equiv.Perm Nat) : Atoms.renumber π {} = {} := by
  simp [Atoms.renumber, Assignment.renumber]

namespace Likeness

/-- Contexts that are the same but for their theories; where something was added to one of them, it may have come
to other phases. -/
def core (π : Equiv.Perm Nat) (samePhase : Prop) : Likeness σ where
  π
  theories _ _ := True
  phases phase phase' := phase'.begun = phase.begun ∧ (samePhase → phase' = phase)
  begun held := ⟨congrArg Phase.begun held.1, fun _ => held.1⟩
  found _ _ := ⟨rfl, fun _ => rfl⟩
  spared _ := False

variable {π : Equiv.Perm Nat} {samePhase : Prop} {c c' after after' : Context σ}

theorem Alike.initial (settings : Settings) :
    (core π samePhase).Alike (.ofSettings settings : Context σ) (.ofSettings settings) := by
  have alike : (core π samePhase).Alike (Context.ofSettings settings : Context σ)
      { Context.ofSettings settings with atoms := Atoms.renumber π {} } := .mk _ _ trivial ⟨rfl, fun _ => rfl⟩
  rwa [Atoms.renumber_initial] at alike

/-- If they are at the same phase, or past their configuration, nothing else is different. -/
theorem Alike.eq_of_phases (alike : (core π samePhase).Alike c c')
    (phases : samePhase ∨ c.phase ≠ .configuration ∧ c'.phase ≠ .configuration) :
    c' = { c with atoms := c.atoms.renumber π, theories := c'.theories } := by
  cases alike with
  | mk theories phase held begun =>
    have same : phase = c.phase := by
      rcases phases with same | ⟨left, left'⟩
      · exact begun.2 same
      · exact (Phase.begun_eq_self left').symm.trans (begun.1.trans (Phase.begun_eq_self left))
    cases same
    rfl

/-- A command that names no theory comes to what it comes to in a context with other theories, if it has the same
result. -/
theorem Alike.common [Theory σ] (alike : (core π samePhase).Alike c c') {command : Command σ}
    (common : command.isCommon = true) {kept kept' : Option Conflict} {result : Except Error Answer}
    (ran : c.run (command.procedure kept) = .ok (result, after))
    (ran' : c'.run (command.procedure kept') = .ok (result, after')) : (core π samePhase).Alike after after' := by
  by_cases building : command.IsBuilding
  · obtain ⟨_, followed, later⟩ := Command.building_follows alike building kept kept' result after ran fun _ _ => id
    obtain rfl := (Prod.mk.inj (Except.ok.inj (ran'.symm.trans followed))).2
    exact later
  · cases command with
    | changeSetting change =>
      have same : c'.settings = c.settings := by
        cases alike
        rfl
      rcases Command.changeSetting_effect change kept result after ran with ⟨settings, rfl, changed, rfl⟩ |
        ⟨e, rfl, _, rfl⟩ <;>
      rcases Command.changeSetting_effect change kept' _ after' ran' with ⟨settings', ok, changed', rfl⟩ |
        ⟨e', no, _, rfl⟩
      · rw [same] at changed'
        rw [Settings.change_unique changed changed']
        cases alike with
        | mk theories phase held phases => exact .mk theories phase held phases
      · cases no
      · cases ok
      · exact alike
    | freshAtom | freshLiterals | ensureAtom | addClause => exact absurd trivial building
    | _ => cases common

/-- The theories of the first context, and its phase with them, may become others. -/
theorem Alike.enrol_left (alike : (core π samePhase).Alike c c') {theories : Registry σ} {phase : Phase}
    (begun : phase.begun = c.phase.begun) (same : samePhase → phase = c.phase) :
    (core π samePhase).Alike { c with theories, phase } c' := by
  cases alike with
  | mk theories' phase' held phases =>
  exact .mk theories' phase' trivial ⟨phases.1.trans begun.symm, fun h => (phases.2 h).trans (same h).symm⟩

/-- So may those of the second. -/
theorem Alike.enrol_right (alike : (core π samePhase).Alike c c') {theories : Registry σ} {phase : Phase}
    (begun : phase.begun = c'.phase.begun) (same : samePhase → phase = c'.phase) :
    (core π samePhase).Alike c { c' with theories, phase } := by
  cases alike with
  | mk theories' phase' held phases =>
  exact .mk theories phase trivial ⟨begun.trans phases.1, fun h => (same h).trans (phases.2 h)⟩

end Likeness

section Runs

variable [Theory σ] {π : Equiv.Perm Nat} {settings : Settings} {events events' : List (Event σ)} {s s' : Session σ}

/-- Of the rest of a context, a command that registers or tells of a theory changes at most the phase, and if it
registers none, nothing. -/
theorem PublicRun.enrolling_frame {e : Event σ} (run : PublicRun settings (events ++ [e]) s)
    (sets : ∀ o ∈ events ++ [e], o.command.SetsUp) (enrolling : e.command.IsEnrolling) :
    ∃ theories phase, s.context = { e.before.context with theories, phase } ∧
      phase.begun = e.before.context.phase.begun ∧
      ((∀ theory i, ¬e.RegistersAs theory i) → phase = e.before.context.phase) := by
  obtain ⟨before, _, rfl⟩ := run.of_concat
  obtain ⟨_, taken, _⟩ := run.ran e (List.mem_append_right _ (.head _))
  have setUp := before.isSetUp fun o member => sets o (List.mem_append_left _ member)
  obtain ⟨_, theories, phase, after, begun, left⟩ :=
    Command.enrolling_frame enrolling setUp.enrols.untold _ _ _ (Session.step_eq_ok taken).1
  refine ⟨theories, phase, after, begun, fun none' => ?_⟩
  rcases left with ⟨same, _⟩ | ⟨_, theory, i, given, registered⟩
  · exact same
  · exact absurd ⟨given, registered⟩ (none' theory i)

/-- Contexts that are set up by the same commands, other than those that name theories, with the same results are
the same but for their theories. -/
theorem PublicRun.core_alike {samePhase : Prop} (run : PublicRun settings events s)
    (run' : PublicRun settings events' s') (sets : ∀ e ∈ events, e.command.SetsUp)
    (sets' : ∀ e ∈ events', e.command.SetsUp) (common : commonOf events' = commonOf events)
    (none' : samePhase → ∀ e ∈ events, ∀ theory i, ¬e.RegistersAs theory i)
    (none'' : samePhase → ∀ e ∈ events', ∀ theory i, ¬e.RegistersAs theory i) :
    (Likeness.core π samePhase).Alike s.context s'.context := by
  -- What names theories is taken from the end of either run, until both end with the same command.
  induction size : events.length + events'.length using Nat.strong_induction_on generalizing events events' s s' with
  | _ n ih =>
  have left : ∀ init e, events = init ++ [e] → e.command.IsEnrolling →
      (Likeness.core π samePhase).Alike s.context s'.context := by
    rintro init e rfl enrolling
    obtain ⟨theories, phase, same, begun, unregistered⟩ := run.enrolling_frame sets enrolling
    rw [commonOf_concat, enrolling.not_common, if_neg Bool.false_ne_true, List.append_nil] at common
    rw [List.forall_mem_append] at sets
    have before := ih _ (by simp [← size]) run.of_concat.1 run' sets.1 sets' common
      (fun h => (List.forall_mem_append.mp (none' h)).1) none'' rfl
    rw [same]
    exact before.enrol_left begun fun h => unregistered (none' h e (List.mem_append_right _ (.head _)))
  have right : ∀ init e, events' = init ++ [e] → e.command.IsEnrolling →
      (Likeness.core π samePhase).Alike s.context s'.context := by
    rintro init e rfl enrolling
    obtain ⟨theories, phase, same, begun, unregistered⟩ := run'.enrolling_frame sets' enrolling
    rw [commonOf_concat, enrolling.not_common, if_neg Bool.false_ne_true, List.append_nil] at common
    rw [List.forall_mem_append] at sets'
    have before := ih _ (by simp [← size]) run run'.of_concat.1 sets sets'.1 common none'
      (fun h => (List.forall_mem_append.mp (none'' h)).1) rfl
    rw [same]
    exact before.enrol_right begun fun h => unregistered (none'' h e (List.mem_append_right _ (.head _)))
  rcases events.eq_nil_or_concat' with rfl | ⟨init, e, rfl⟩ <;>
    rcases events'.eq_nil_or_concat' with rfl | ⟨init', e', rfl⟩
  · rw [run.session_eq .start, run'.session_eq .start]
    exact .initial settings
  · rcases sets' e' (List.mem_append_right _ (.head _)) with isCommon | enrolling
    · rw [commonOf_concat, isCommon] at common
      exact absurd common (List.append_ne_nil_of_right_ne_nil _ (List.cons_ne_nil _ _))
    · exact right init' e' rfl enrolling
  · rcases sets e (List.mem_append_right _ (.head _)) with isCommon | enrolling
    · rw [commonOf_concat, isCommon] at common
      exact absurd common.symm (List.append_ne_nil_of_right_ne_nil _ (List.cons_ne_nil _ _))
    · exact left init e rfl enrolling
  · rcases sets e (List.mem_append_right _ (.head _)) with isCommon | enrolling
    · rcases sets' e' (List.mem_append_right _ (.head _)) with isCommon' | enrolling'
      · rw [commonOf_concat, commonOf_concat, isCommon, isCommon', if_pos rfl, if_pos rfl] at common
        obtain ⟨before, last⟩ := List.append_inj' common rfl
        obtain ⟨sameCommand, sameResult⟩ := Prod.mk.inj (List.singleton_inj.mp last)
        rw [List.forall_mem_append] at sets sets'
        have alike := ih _ (by simp [← size]; omega) run.of_concat.1 run'.of_concat.1 sets.1 sets'.1 before
          (fun h => (List.forall_mem_append.mp (none' h)).1) (fun h => (List.forall_mem_append.mp (none'' h)).1) rfl
        obtain ⟨_, taken, _⟩ := run.ran e (List.mem_append_right _ (.head _))
        obtain ⟨_, taken', _⟩ := run'.ran e' (List.mem_append_right _ (.head _))
        rw [sameCommand, sameResult] at taken'
        rw [← run.of_concat.2.2, ← run'.of_concat.2.2]
        exact alike.common isCommon (Session.step_eq_ok taken).1 (Session.step_eq_ok taken').1
      · exact right init' e' rfl enrolling'
    · exact left init e rfl enrolling

end Runs

/-! ### Two orders -/

/-- Two ways to set up a context. The same atoms and clauses are added, and settings are changed, in the same order
with the same results; the same theories are registered, each with the same observed atoms and the same priority,
in any order and at any time. The index of a theory in the second way is that of the first, permuted. -/
structure SetUpAlike [Theory σ] (π : Equiv.Perm Nat) (setup setup' : List (Event σ)) (c c' : Context σ) : Prop
    extends Rearranges π setup setup' where
  sets : ∀ e ∈ setup, e.command.SetsUp
  sets' : ∀ e ∈ setup', e.command.SetsUp
  common : commonOf setup' = commonOf setup
  priorities : ∀ i p, c'.priority (π i) = .ok p ↔ c.priority i = .ok p

def Context.HasDistinctPriorities (c : Context σ) : Prop :=
  ∀ i j p, c.priority i = .ok p → c.priority j = .ok p → i = j

theorem Context.priority_eq_ok {c : Context σ} {i : Nat} {p : Int} :
    c.priority i = .ok p ↔ (c.theories.schedule.standings.map (·.priority))[i]? = some p := by
  rw [List.getElem?_map]
  unfold Context.priority Schedule.priority
  cases c.theories.schedule.standings[i]? <;> simp

theorem Context.hasDistinctPriorities_iff {c : Context σ} :
    c.HasDistinctPriorities ↔ c.theories.schedule.Ranked := by
  constructor
  · refine fun distinct => List.nodup_iff_injective_get.mpr fun i j same => Fin.ext ?_
    have given : ∀ k : Fin (c.theories.schedule.standings.map (·.priority)).length,
        c.priority k = .ok ((c.theories.schedule.standings.map (·.priority)).get k) := fun k =>
      Context.priority_eq_ok.mpr (List.getElem?_eq_getElem k.2)
    exact distinct i j _ (given i) (same ▸ given j)
  · intro ranked i j p given given'
    rw [Context.priority_eq_ok] at given given'
    exact (List.getElem?_inj (List.getElem?_eq_some_iff.mp given).1 ranked).mp (given.trans given'.symm)

/-! Which of the two ways is the first does not matter. -/

theorem Rearranges.symm {π : Equiv.Perm Nat} {events events' : List (Event σ)}
    (rearranges : Rearranges π events events') : Rearranges π.symm events' events where
  registers theory i := by
    have same := rearranges.registers theory (π.symm i)
    rw [π.apply_symm_apply] at same
    exact same.symm
  observes i a := by
    have same := rearranges.observes (π.symm i) a
    rw [π.apply_symm_apply] at same
    exact same.symm

theorem Rearranges.allObserved [Constraint σ] {π : Equiv.Perm Nat} {events events' : List (Event σ)}
    (rearranges : Rearranges π events events') (observed : AllObserved events) : AllObserved events' := by
  intro e member theory i given registered a inTheory
  obtain ⟨o, before, given, registered⟩ := (rearranges.symm.registers theory i).mp ⟨e, member, given, registered⟩
  have observer := (rearranges.observes _ a).mp (observed o before theory _ given registered a inTheory)
  rwa [π.apply_symm_apply] at observer

section Runs

variable [Theory σ] {π : Equiv.Perm Nat} {settings : Settings} {setup setup' : List (Event σ)} {s s' : Session σ}

theorem SetUpAlike.symm {c c' : Context σ} (alike : SetUpAlike π setup setup' c c') :
    SetUpAlike π.symm setup' setup c' c where
  toRearranges := alike.toRearranges.symm
  sets := alike.sets'
  sets' := alike.sets
  common := alike.common.symm
  priorities i p := by
    have same := alike.priorities (π.symm i) p
    rw [π.apply_symm_apply] at same
    exact same.symm

theorem SetUpAlike.distinct {c c' : Context σ} (alike : SetUpAlike π setup setup' c c')
    (distinct : c.HasDistinctPriorities) : c'.HasDistinctPriorities := by
  intro i j p given given'
  rw [← alike.symm.priorities] at given given'
  exact π.symm.injective (distinct _ _ p given given')

variable [Theory.Nameless σ]

/-- Sessions that are set up alike are the same up to the indices of theories. -/
theorem SetUpAlike.renumbered (alike : SetUpAlike π setup setup' s.context s'.context)
    (run : PublicRun settings setup s) (run' : PublicRun settings setup' s')
    (distinct : s.context.HasDistinctPriorities) (bounded : ¬settings.schedule.maximum.value < 0.0) :
    s.Renumbered π s' := by
  have setUp := run.isSetUp alike.sets
  have setUp' := run'.isSetUp alike.sets'
  have held : s.context.theories.Renumbered π s'.context.theories := by
    refine setUp.idle.renumbered setUp'.idle setUp.enrols setUp'.enrols alike.toRearranges (fun i => ?_)
      (Context.hasDistinctPriorities_iff.mp distinct) bounded
    refine Option.ext fun p => ?_
    rw [Schedule.priority, Schedule.priority, ← List.getElem?_map, ← List.getElem?_map,
      ← Context.priority_eq_ok, ← Context.priority_eq_ok]
    exact alike.priorities i p
  have core : (Likeness.core π (s.context.theories.members = [])).Alike s.context s'.context := by
    refine run.core_alike run' alike.sets alike.sets' alike.common ?_ ?_
    · intro none' e member theory i registers
      obtain ⟨_, found⟩ := setUp.enrols.registered e member theory i registers
      rw [none'] at found
      cases found
    · intro none' e member theory i registers
      rw [← π.apply_symm_apply i] at registers
      obtain ⟨e, member, registers⟩ := (alike.registers theory (π.symm i)).mpr ⟨e, member, registers⟩
      obtain ⟨_, found⟩ := setUp.enrols.registered e member theory _ registers
      rw [none'] at found
      cases found
  have same := core.eq_of_phases <| by
    by_cases none' : s.context.theories.members = []
    · exact .inl none'
    · refine .inr ⟨setUp.left none', setUp'.left fun none'' => ?_⟩
      have inside := (held.lt_length_iff 0).mpr (List.length_pos_iff.mpr none')
      rw [none''] at inside
      exact Nat.not_lt_zero _ inside
  refine ⟨s'.context.theories, held, ?_⟩
  obtain ⟨c', kept⟩ := s'
  rw [setUp.unkept, show kept = none from setUp'.unkept]
  exact congrArg (Session.mk · none) same

end Runs

/-- What commands are shows in the events. -/
theorem Command.forall_of_commands {events : List (Event σ)} {commands : List (Command σ)} {p : Command σ → Prop}
    (given : events.map (·.command) = commands) (all : ∀ command ∈ commands, p command) :
    ∀ e ∈ events, p e.command :=
  fun _ member => all _ (given ▸ List.mem_map_of_mem member)

/-- What was registered and observed shows in the commands and their results. -/
theorem Rearranges.of_pairs {π : Equiv.Perm Nat} {events events' : List (Event σ)}
    {pairs pairs' : List (Command σ × Except Error Answer)}
    (same : events.map (fun e => (e.command, e.result)) = pairs)
    (same' : events'.map (fun e => (e.command, e.result)) = pairs')
    (registers : ∀ theory i, (.addTheory theory, .ok (.theory i)) ∈ pairs ↔
      (.addTheory theory, .ok (.theory (π i))) ∈ pairs')
    (observes : ∀ i a, (.observe i a, .ok .done) ∈ pairs ↔ (.observe (π i) a, .ok .done) ∈ pairs') :
    Rearranges π events events' := by
  have shows : ∀ (events : List (Event σ)) command result,
      (command, result) ∈ events.map (fun e => (e.command, e.result)) ↔
        ∃ e ∈ events, e.command = command ∧ e.result = result := by
    intro events command result
    simp only [List.mem_map, Prod.mk.injEq]
  subst same same'
  simp only [shows] at registers observes
  exact ⟨registers, observes⟩

/-! ### What follows -/

section Later

variable [Theory σ]

/-- Propagation and searches fail for nothing that could not be held against a theory. -/
theorem Command.excused {c : Context σ} (h : c.Coherent) (opened : c.Opened) (told : c.Told) {command : Command σ}
    (checks : command = .propagate ∨ command = .solve) (kept : Option Conflict) :
    (command.procedure kept).Excused c c := by
  rcases checks with rfl | rfl
  · exact .bind (m := fun _ _ => True) (Procedure.propagate_excused h .refl) (fun _ _ _ => trivial)
      fun _ _ _ => .pure
  · exact .bind (m := fun _ _ => True) (Procedure.solve_excused h opened told) (fun _ _ _ => trivial)
      fun _ _ _ => .pure

omit [Theory σ] in
theorem lastTold_concat (events : List (Event σ)) (e : Event σ) :
    lastTold (events ++ [e]) = (conflictOf e.result).isSome := by
  rw [lastTold, List.getLast?_concat, Option.any_some]

theorem Session.IsSetUp.untold {settings : Settings} {events : List (Event σ)} {s : Session σ}
    (setUp : s.IsSetUp settings events) : lastTold events = false := by
  rcases events.eq_nil_or_concat' with rfl | ⟨init, e, rfl⟩
  · rfl
  · rw [lastTold_concat, setUp.quiet e (List.mem_append_right _ (.head _))]
    rfl

omit [Theory σ] in
theorem Command.IsImpartial.not_registers {e : Event σ} (impartial : e.command.IsImpartial) (theory : σ) :
    ¬e.Registers theory := by
  rintro ⟨given, _⟩
  rw [given] at impartial
  exact impartial

variable [Theory.Nameless σ] [Constraint σ] [LawfulConstraint σ] [Reliable σ] {π : Equiv.Perm Nat}
  {settings : Settings} {setup setup' later : List (Event σ)} {s s' t : Session σ}

omit [Theory.Nameless σ] in
/-- Where theories do their part, none denies that it is at a fixpoint or solved. -/
theorem Context.Attended.undenied {command : Command σ} (attended : s.context.Attended) (opened : s.context.Opened)
    (checks : command = .propagate ∨ command = .solve) {cause : TheoryError}
    (taken : s.step command = .ok (.error (.theory cause), s')) : ¬cause.IsDenial := by
  intro denial
  have excused := Command.excused attended.coherent opened attended.told checks s.kept
  have blamed : s.context.Blames (.theory cause) := Session.step_of_ends (s := s) excused taken _ rfl
  cases cause with
  | checkPropagated i => exact (attended.not_denies i).1 blamed
  | checkSolved i => exact (attended.not_denies i).2 blamed
  | _ => exact denial

/-- From sessions that are the same up to the indices of theories, impartial commands come to the same up to them. -/
theorem PublicRun.follows_renumbered (base : PublicRun settings setup s) (base' : PublicRun settings setup' s')
    (renumbered : s.Renumbered π s') (told : lastTold setup' = lastTold setup)
    (run : PublicRun settings (setup ++ later) t) (impartial : ∀ e ∈ later, e.command.IsImpartial)
    (built : ∀ e ∈ setup, ∀ theory, e.Registers theory → BuiltBelow e.before.context.atoms.count theory)
    (observed : AllObserved setup) :
    ∃ later' t', PublicRun settings (setup' ++ later') t' ∧ List.Forall₂ (Event.Renumbered π) later later' ∧
      t.Renumbered π t' ∧ lastTold (setup' ++ later') = lastTold (setup ++ later) := by
  induction later using List.reverseRecOn generalizing t with
  | nil =>
    rw [List.append_nil] at run
    obtain rfl := run.session_eq base
    exact ⟨[], s', by rwa [List.append_nil], .nil, renumbered, by rwa [List.append_nil, List.append_nil]⟩
  | append_singleton later e ih =>
    rw [← List.append_assoc] at run
    obtain ⟨before, allowed, rfl⟩ := run.of_concat
    rw [List.forall_mem_append, List.forall_mem_singleton] at impartial
    obtain ⟨later', between, run', alike, sofar, told⟩ := ih before impartial.1
    obtain ⟨_, taken, _⟩ := run.ran e (List.mem_append_right _ (.head _))
    have attended : e.before.context.Attended := by
      refine before.attended ?_ ?_
      · intro o member theory registers
        rcases List.mem_append.mp member with early | late
        · exact built o early theory registers
        · exact absurd registers ((impartial.1 o late).not_registers theory)
      · intro o member theory i given registered
        rcases List.mem_append.mp member with early | late
        · intro a inTheory
          obtain ⟨w, watches, observes⟩ := observed o early theory i given registered a inTheory
          exact ⟨w, List.mem_append_left _ watches, observes⟩
        · exact absurd ⟨given, i, registered⟩ ((impartial.1 o late).not_registers theory)
    obtain ⟨after', taken', last⟩ := sofar.step impartial.2 taken fun cause failed checks =>
      attended.undenied before.opened checks (failed ▸ taken)
    refine ⟨later' ++ [⟨between, e.command, renumberResult π (Answer.renumber π) e.result, after'⟩], after', ?_, ?_,
      last, ?_⟩
    · rw [← List.append_assoc]
      exact run'.step e.command (told ▸ allowed) _ _ taken'
    · exact List.rel_append alike (.cons ⟨sofar, rfl, rfl, last⟩ .nil)
    · rw [← List.append_assoc, ← List.append_assoc, lastTold_concat, lastTold_concat, conflictOf_renumber,
        Option.isSome_map]

/-- Every run that goes on with impartial commands after one way to set up goes on after the other: the same commands
have the same results and lead to the same sessions, up to the indices of theories. -/
def CarriesOver (settings : Settings) (π : Equiv.Perm Nat) (setup setup' : List (Event σ)) : Prop :=
  ∀ later t, PublicRun settings (setup ++ later) t → (∀ e ∈ later, e.command.IsImpartial) →
    ∃ later' t', PublicRun settings (setup' ++ later') t' ∧ List.Forall₂ (Event.Renumbered π) later later' ∧
      t.Renumbered π t'

/-- One direction of the comparison; the other is the same with the set-ups exchanged. -/
theorem SetUpAlike.carriesOver (alike : SetUpAlike π setup setup' s.context s'.context)
    (run : PublicRun settings setup s) (run' : PublicRun settings setup' s')
    (built : ∀ e ∈ setup, ∀ theory, e.Registers theory → BuiltBelow e.before.context.atoms.count theory)
    (observed : AllObserved setup) (distinct : s.context.HasDistinctPriorities)
    (bounded : ¬settings.schedule.maximum.value < 0.0) : CarriesOver settings π setup setup' := by
  intro later t whole impartial
  have renumbered := alike.renumbered run run' distinct bounded
  have told : lastTold setup' = lastTold setup :=
    (run'.isSetUp alike.sets').untold.trans (run.isSetUp alike.sets).untold.symm
  obtain ⟨later', t', goesOn, same, last, _⟩ :=
    run.follows_renumbered run' renumbered told whole impartial built observed
  exact ⟨later', t', goesOn, same, last⟩

end Later

/-! ### Bounds and reachability -/

section Reference

variable {π : Equiv.Perm Nat} {settings : Settings} {setup setup' : List (Event (AtMost ⊕ Reachability))}
  {s s' : Session (AtMost ⊕ Reachability)}

/-- The order in which bounds and reachability are registered does not matter. Where they are about known atoms, all
of them observed, and have distinct priorities, every run that goes on after one order goes on after any other, and
the other way round. So what is a fault after one order is a fault after the other too. Nothing is said
of theories with atoms that are added only after they are registered. The maximum of activities must not be below
zero; the least that can be set is one. -/
theorem PublicRun.ignores_registration_order (run : PublicRun settings setup s)
    (run' : PublicRun settings setup' s') (alike : SetUpAlike π setup setup' s.context s'.context)
    (built : ∀ e ∈ setup, ∀ theory, e.Registers theory → BuiltBelow e.before.context.atoms.count theory)
    (built' : ∀ e ∈ setup', ∀ theory, e.Registers theory → BuiltBelow e.before.context.atoms.count theory)
    (observed : AllObserved setup) (distinct : s.context.HasDistinctPriorities)
    (bounded : ¬settings.schedule.maximum.value < 0.0) :
    CarriesOver settings π setup setup' ∧ CarriesOver settings π.symm setup' setup :=
  ⟨alike.carriesOver run run' built observed distinct bounded,
    alike.symm.carriesOver run' run built' (alike.allObserved observed) (alike.distinct distinct) bounded⟩

/-- A bound and a reachability that are registered in either order; the bound, which comes first by its priority,
finds a conflict after a decision. -/
theorem ignores_order_of_bound_and_reachability :
    ∃ (setup setup' later : List (Event (AtMost ⊕ Reachability))) (s s' t : Session (AtMost ⊕ Reachability)),
      PublicRun {} setup s ∧ setup.map (·.command) = [.freshLiterals 3,
        .addTheory (.inl (.ofMembers [⟨1⟩, ⟨2⟩] 1)),
        .addTheory (.inr (Reachability.addEdge (.ofNodes 2 0 1 1) ⟨0, 1, 3⟩)), .observe 0 1, .observe 0 2,
        .observe 1 1, .observe 1 3, .setPriority 0 (-1)] ∧
      PublicRun {} setup' s' ∧ setup'.map (·.command) = [.freshLiterals 3,
        .addTheory (.inr (Reachability.addEdge (.ofNodes 2 0 1 1) ⟨0, 1, 3⟩)), .observe 0 3, .observe 0 1,
        .addTheory (.inl (.ofMembers [⟨1⟩, ⟨2⟩] 1)), .setPriority 1 (-1), .observe 1 1, .observe 1 2] ∧
      PublicRun {} (setup ++ later) t ∧ later.map (·.command) = [.addClause [⟨3⟩, ⟨1⟩], .addClause [⟨3⟩, ⟨2⟩],
        .decideLiteral ⟨-3⟩, .propagate, .solve] ∧
      later.map (·.result) = [.ok (.clause (.added (.given 0))), .ok (.clause (.added (.given 1))), .ok .done,
        .ok (.conflict (.theory 0 [⟨-1⟩, ⟨-2⟩])), .ok (.report .satisfiable)] ∧
      ∃ later' t', PublicRun {} (setup' ++ later') t' ∧
        List.Forall₂ (Event.Renumbered (Equiv.swap 0 1)) later later' ∧ t.Renumbered (Equiv.swap 0 1) t' := by
  obtain ⟨first, s₁, run₁, commands₁, checked⟩ := PublicRun.of_run_any (σ := AtMost ⊕ Reachability) {}
    [.freshLiterals 3] (by simp [Command.IsPublic])
    (fun results s => decide (results = [.ok (.literals [⟨1⟩, ⟨2⟩, ⟨3⟩])]) &&
      decide (s.context.atoms.count = 4) &&
      ((s.run [.addTheory (.inl (.ofMembers [⟨1⟩, ⟨2⟩] 1)),
        .addTheory (.inr (Reachability.addEdge (.ofNodes 2 0 1 1) ⟨0, 1, 3⟩)), .observe 0 1, .observe 0 2,
        .observe 1 1, .observe 1 3, .setPriority 0 (-1)]).toOption.any fun (results, s) =>
          decide (results = [.ok (.theory 0), .ok (.theory 1), .ok .done, .ok .done, .ok .done, .ok .done,
            .ok .done]) &&
          decide (s.context.theories.schedule.standings.map (·.priority) = [-1, 0]) &&
          (s.run [.addClause [⟨3⟩, ⟨1⟩], .addClause [⟨3⟩, ⟨2⟩], .decideLiteral ⟨-3⟩, .propagate,
            .solve]).toOption.any fun (results, _) =>
              decide (results = [.ok (.clause (.added (.given 0))), .ok (.clause (.added (.given 1))), .ok .done,
                .ok (.conflict (.theory 0 [⟨-1⟩, ⟨-2⟩])), .ok (.report .satisfiable)])) &&
      (s.run [.addTheory (.inr (Reachability.addEdge (.ofNodes 2 0 1 1) ⟨0, 1, 3⟩)), .observe 0 3, .observe 0 1,
        .addTheory (.inl (.ofMembers [⟨1⟩, ⟨2⟩] 1)), .setPriority 1 (-1), .observe 1 1,
        .observe 1 2]).toOption.any fun (results, s) =>
          decide (results = [.ok (.theory 0), .ok .done, .ok .done, .ok (.theory 1), .ok .done, .ok .done,
            .ok .done]) &&
          decide (s.context.theories.schedule.standings.map (·.priority) = [0, -1]))
    (by decide +kernel)
  simp only [Bool.and_eq_true, decide_eq_true_eq] at checked
  obtain ⟨⟨⟨results₁, count⟩, checked⟩, checked'⟩ := checked
  obtain ⟨_, s, ran, checked⟩ := Session.of_run_any _ _ _ checked
  simp only [Bool.and_eq_true, decide_eq_true_eq] at checked
  obtain ⟨⟨rfl, priorities⟩, checked⟩ := checked
  obtain ⟨_, t, searched, checked⟩ := Session.of_run_any _ _ _ checked
  obtain rfl := of_decide_eq_true checked
  obtain ⟨_, s', ran', checked'⟩ := Session.of_run_any _ _ _ checked'
  simp only [Bool.and_eq_true, decide_eq_true_eq] at checked'
  obtain ⟨rfl, priorities'⟩ := checked'
  obtain ⟨second, run, commands₂, results₂⟩ := run₁.extend (by simp [Command.IsPublic]) ran
  obtain ⟨later, whole, commandsLater, resultsLater⟩ := run.extend (by simp [Command.IsPublic]) searched
  obtain ⟨second', run', commands₂', results₂'⟩ := run₁.extend (by simp [Command.IsPublic]) ran'
  have commands := congrArg₂ (· ++ ·) commands₁ commands₂
  have results := congrArg₂ (· ++ ·) results₁ results₂
  have commands' := congrArg₂ (· ++ ·) commands₁ commands₂'
  have results' := congrArg₂ (· ++ ·) results₁ results₂'
  rw [← List.map_append] at commands results commands' results'
  have pairs := Event.pairs_eq_zip commands results
  have pairs' := Event.pairs_eq_zip commands' results'
  -- Both theories are about atoms that there are from the first command on.
  have known : ∀ theory : AtMost ⊕ Reachability, theory = .inl (.ofMembers [⟨1⟩, ⟨2⟩] 1) ∨
      theory = .inr (Reachability.addEdge (.ofNodes 2 0 1 1) ⟨0, 1, 3⟩) → BuiltBelow 4 theory := by
    rintro _ (rfl | rfl)
    · exact ⟨⟨[⟨1⟩, ⟨2⟩], 1, rfl, by decide⟩, by decide⟩
    · exact ⟨⟨⟨2, 0, 1, 1, .latestFirst, [⟨0, 1, 3⟩], rfl, by decide⟩, by decide⟩, by decide⟩
  have built : ∀ e ∈ first ++ second, ∀ theory, e.Registers theory →
      BuiltBelow e.before.context.atoms.count theory := by
    intro e member theory registers
    rcases List.mem_append.mp member with early | late
    · have given := registers.mem early commands₁
      simp at given
    · refine (known theory ?_).mono (count ▸ (run₁.count_le run).1 e late)
      simpa using registers.mem late commands₂
  have built' : ∀ e ∈ first ++ second', ∀ theory, e.Registers theory →
      BuiltBelow e.before.context.atoms.count theory := by
    intro e member theory registers
    rcases List.mem_append.mp member with early | late
    · have given := registers.mem early commands₁
      simp at given
    · refine (known theory ?_).mono (count ▸ (run₁.count_le run').1 e late)
      simpa [or_comm] using registers.mem late commands₂'
  have observed : AllObserved (first ++ second) := by
    refine allObserved_of_pairs pairs fun theory i added a inTheory => ?_
    simp only [List.cons_append, List.nil_append, List.zip_cons_cons, List.zip_nil_right, List.mem_cons,
      Prod.mk.injEq, reduceCtorEq, Command.addTheory.injEq, Except.ok.injEq, Answer.theory.injEq,
      List.not_mem_nil, false_and, false_or, or_false] at added
    rcases added with ⟨rfl, rfl⟩ | ⟨rfl, rfl⟩
    · have either : a = 1 ∨ a = 2 := List.mem_pair.mp inTheory
      rcases either with rfl | rfl <;> simp
    · have either : a = 1 ∨ a = 3 := List.mem_pair.mp inTheory
      rcases either with rfl | rfl <;> simp
  have alike : SetUpAlike (Equiv.swap 0 1) (first ++ second) (first ++ second') s.context s'.context := by
    refine ⟨.of_pairs pairs pairs' (fun theory i => ?_) (fun i a => ?_), ?_, ?_, ?_, fun i p => ?_⟩
    · simp [Equiv.swap_apply_eq_iff, or_comm]
    · simp only [List.cons_append, List.nil_append, List.zip_cons_cons, List.zip_nil_right, List.mem_cons,
        Prod.mk.injEq, reduceCtorEq, Command.observe.injEq, List.not_mem_nil, false_and, and_true, false_or, or_false,
        Equiv.swap_apply_eq_iff, Equiv.swap_apply_left, Equiv.swap_apply_right]
      tauto
    · exact Command.forall_of_commands commands (by simp [Command.SetsUp, Command.isCommon, Command.IsEnrolling])
    · exact Command.forall_of_commands commands' (by simp [Command.SetsUp, Command.isCommon, Command.IsEnrolling])
    · rw [commonOf, commonOf, pairs, pairs']
      rfl
    · rw [Context.priority_eq_ok, Context.priority_eq_ok, priorities, priorities']
      rcases i with _ | _ | i
      · rw [Equiv.swap_apply_left]
        rfl
      · rw [Equiv.swap_apply_right]
        rfl
      · rw [Equiv.swap_apply_of_ne_of_ne (by omega) (by omega)]
        rfl
  have distinct : s.context.HasDistinctPriorities := by
    rw [Context.hasDistinctPriorities_iff, Schedule.Ranked, priorities]
    decide
  have impartial : ∀ e ∈ later, e.command.IsImpartial :=
    Command.forall_of_commands commandsLater (by simp [Command.IsImpartial])
  have carries := run.ignores_registration_order run' alike built built' observed distinct (by decide +kernel)
  exact ⟨first ++ second, first ++ second', later, s, s', t, run, commands, run', commands', whole, commandsLater,
    resultsLater, carries.1 later t whole impartial⟩

end Reference

end SatModulo
