import SatModulo.Proofs.Constraints
import SatModulo.Proofs.Runs

/-!
# The theories of a run

A theory that a command registered stays a member, and what it observes it goes on observing. Every member
was registered by a command. So where every theory of a run observes all of its atoms, so does every member
(`PublicRun.watched`), and stays to do so while no other theory is registered (`Moves.watched`).
-/
namespace SatModulo

open Constraint

variable {σ : Type}

/-- A theory came to observe an atom, or did already. -/
def Event.Observes (e : Event σ) (i : Nat) (a : Atom) : Prop :=
  e.command = .observe i a ∧ e.result = .ok .done

/-- Every atom of a registered theory is observed by it. -/
def AllObserved [Constraint σ] (events : List (Event σ)) : Prop :=
  ∀ e ∈ events, ∀ theory i, e.command = .addTheory theory → e.result = .ok (.theory i) →
    ∀ a ∈ atoms theory, ∃ o ∈ events, o.Observes i a

/-- Whether all atoms are observed shows in the commands and their results. -/
theorem allObserved_of_pairs [Constraint σ] {events : List (Event σ)}
    {pairs : List (Command σ × Except Error Answer)}
    (same : events.map (fun e => (e.command, e.result)) = pairs)
    (observed : ∀ theory i, (.addTheory theory, .ok (.theory i)) ∈ pairs → ∀ a ∈ atoms theory,
      (.observe i a, .ok .done) ∈ pairs) : AllObserved events := by
  subst same
  intro e member theory i given registered a inTheory
  have added : (.addTheory theory, .ok (.theory i)) ∈ events.map fun e => (e.command, e.result) :=
    List.mem_map.mpr ⟨e, member, by rw [given, registered]⟩
  obtain ⟨o, observer, pair⟩ := List.mem_map.mp (observed theory i added a inTheory)
  exact ⟨o, observer, congrArg Prod.fst pair, congrArg Prod.snd pair⟩

variable [Theory σ] {c c' : Context σ} {taking : Intake σ}

theorem Course.stems (course : Course taking c c') {i : Nat} {theory : σ} {m : Member σ}
    (stems : c.theories.Stems i theory m) :
    ∃ m', c'.theories.Stems i theory m' ∧ ∀ a, m.observes a → m'.observes a := by
  rcases course with moves | ⟨mid, moves, refuted⟩
  · exact moves.stems stems
  · rw [refuted.frame.2]
    exact Moves.stems moves stems

/-! ### Atoms -/

theorem Move.count_le (move : Move taking c c') : c.atoms.count ≤ c'.atoms.count := by
  cases move with
  | draw move => exact Nat.le_of_eq (ClauseStore.growsAll_count move.grows).symm
  | jump move =>
    cases move with
    | retreat => exact Nat.le_of_eq (Atoms.count_forgetAbove _ _).symm
    | learn key l lower level clauses retracted theories atoms distinct falsified current low below tight
        entailed stored undecided taken made =>
      exact Nat.le_of_eq ((Atoms.count_assign made).trans (Atoms.count_forgetAbove _ _)).symm
  | decide allowed move =>
    cases move with
    | decide l proposer theories atoms delivered opened made => exact Nat.le_of_eq (Atoms.count_assign made).symm
  | build move =>
    cases move with
    | fresh previous a atoms success =>
      rw [(Atoms.fresh_eq_ok success).2.1]
      exact Nat.le_succ _
    | giveUnit clause key clauses l atoms given base distinct known stored state made =>
      exact Nat.le_of_eq (Atoms.count_assign made).symm
    | _ => exact Nat.le_refl _
  | settle phase before after => exact Nat.le_refl _
  | configure settings given => exact Nat.le_refl _

theorem Moves.count_le (moves : Moves taking c c') : c.atoms.count ≤ c'.atoms.count := by
  induction moves with
  | refl => exact Nat.le_refl _
  | tail _ move ih => exact Nat.le_trans ih move.count_le

theorem Course.count_le (course : Course taking c c') : c.atoms.count ≤ c'.atoms.count := by
  rcases course with moves | ⟨mid, moves, refuted⟩
  · exact Moves.count_le moves
  · rw [refuted.frame.1]
    exact Moves.count_le moves

/-! ### Members -/

/-- Members are only added by registration. -/
theorem Move.length_members (move : Move taking c c') (none : ∀ theory, ¬taking.theory theory) :
    c'.theories.members.length = c.theories.members.length := by
  rcases move.called_or_registered with changes | ⟨theory, outcome, registered, given⟩
  · exact changes.length
  · rcases Registry.register_eq registered with ⟨_, _, _, same, _⟩ | ⟨ok, _⟩
    · rw [same]
    · exact absurd (given _ ok) (none theory)

theorem Moves.length_members (moves : Moves taking c c') (none : ∀ theory, ¬taking.theory theory) :
    c'.theories.members.length = c.theories.members.length := by
  induction moves with
  | refl => rfl
  | tail _ move ih => rw [move.length_members none, ih]

theorem Course.length_members (course : Course taking c c') (none : ∀ theory, ¬taking.theory theory) :
    c'.theories.members.length = c.theories.members.length := by
  rcases course with moves | ⟨mid, moves, refuted⟩
  · exact Moves.length_members moves none
  · rw [refuted.frame.2]
    exact Moves.length_members moves none

/-- Every member stems from a theory of a kind, and observes all of its atoms. -/
def Context.Watched [Constraint σ] (kind : σ → Prop) (c : Context σ) : Prop :=
  ∀ i m, c.theories.members[i]? = some m →
    ∃ root, kind root ∧ c.theories.Stems i root m ∧ ∀ a ∈ Constraint.atoms root, m.observes a

theorem Moves.watched [Constraint σ] {kind : σ → Prop} (moves : Moves taking c c')
    (none : ∀ theory, ¬taking.theory theory) (watched : c.Watched kind) : c'.Watched kind := by
  intro i m' found'
  have inside := (List.getElem?_eq_some_iff.mp found').1
  rw [Moves.length_members moves none] at inside
  obtain ⟨root, isKind, stems, observes⟩ := watched i _ (List.getElem?_eq_getElem inside)
  obtain ⟨n, stems', more⟩ := Moves.stems moves stems
  obtain rfl : n = m' := Option.some.inj (stems'.1.symm.trans found')
  exact ⟨root, isKind, stems', fun a member => more a (observes a member)⟩

/-! ### Runs -/

namespace PublicRun

variable {settings : Settings} {events : List (Event σ)} {e : Event σ} {s : Session σ}

/-- No atom is lost along a run. -/
theorem count_le {more : List (Event σ)} {s' : Session σ} (run : PublicRun settings events s)
    (whole : PublicRun settings (events ++ more) s') :
    (∀ e ∈ more, s.context.atoms.count ≤ e.before.context.atoms.count) ∧
      s.context.atoms.count ≤ s'.context.atoms.count := by
  induction more using List.reverseRecOn generalizing s' with
  | nil =>
    rw [List.append_nil] at whole
    exact ⟨List.forall_mem_nil _, Nat.le_of_eq (by rw [run.session_eq whole])⟩
  | append_singleton more e ih =>
    rw [← List.append_assoc] at whole
    obtain ⟨earlier, _, rfl⟩ := whole.of_concat
    obtain ⟨older, before⟩ := ih earlier
    obtain ⟨_, _, ran⟩ := whole.ran e (List.mem_append_right _ (.head _))
    refine ⟨List.forall_mem_append.mpr ⟨older, List.forall_mem_singleton.mpr before⟩, ?_⟩
    exact Nat.le_trans before ran.course.count_le

/-- What every course of an operation keeps is kept from a command to the end of the run. -/
theorem kept_of_after {p : Context σ → Prop}
    (keeps : ∀ {taking : Intake σ} {c c' : Context σ}, Course taking c c' → p c → p c')
    (run : PublicRun settings events s) (member : e ∈ events) (held : p e.after.context) : p s.context := by
  induction run with
  | start => cases member
  | @step events s earlier command allowed result s' taken ih =>
    rcases List.mem_append.mp member with old | new
    · exact keeps (earlier.ran_step allowed taken).course (ih old)
    · obtain rfl := List.mem_singleton.mp new
      exact held

/-- What stems from a theory after a command still does at the end of the run. -/
theorem stems_of_after (run : PublicRun settings events s) (member : e ∈ events) {i : Nat} {theory : σ}
    {m : Member σ} (stems : e.after.context.theories.Stems i theory m) :
    ∃ m', s.context.theories.Stems i theory m' ∧ ∀ a, m.observes a → m'.observes a := by
  refine kept_of_after (p := fun c => ∃ m', c.theories.Stems i theory m' ∧ ∀ a, m.observes a → m'.observes a)
    ?_ run member ⟨m, stems, fun _ => id⟩
  rintro taking c c' course ⟨n, between, first⟩
  obtain ⟨m', stems, second⟩ := course.stems between
  exact ⟨m', stems, fun a observed => second a (first a observed)⟩

/-- The context after a theory was registered. -/
theorem after_of_registers (run : PublicRun settings events s) (member : e ∈ events) {theory : σ}
    {i : Nat} (given : e.command = .addTheory theory) (registered : e.result = .ok (.theory i)) :
    ∃ theories, e.before.context.theories.register theory = (.ok i, theories) ∧
      e.after.context = { e.before.context with theories, phase := e.before.context.phase.begun } := by
  obtain ⟨_, taken, _⟩ := run.ran e member
  have executed := (Session.step_eq_ok taken).1
  rw [given, registered] at executed
  refine Command.ensures_answer (f := .theory)
    (q := fun result after => ∀ i, result = .ok (.theory i) →
      ∃ theories, e.before.context.theories.register theory = (.ok i, theories) ∧
        after = { e.before.context with theories, phase := e.before.context.phase.begun })
    ((Procedure.addTheory_course theory).mono fun result after answered i same => ?_) _ _ executed i rfl
  cases result with
  | error cause => cases same
  | ok found =>
    cases same
    exact answered.2

/-- The registry after a theory was registered. -/
theorem register_of_registers (run : PublicRun settings events s) (member : e ∈ events) {theory : σ}
    {i : Nat} (given : e.command = .addTheory theory) (registered : e.result = .ok (.theory i)) :
    e.before.context.theories.register theory = (.ok i, e.after.context.theories) := by
  obtain ⟨theories, registered, after⟩ := run.after_of_registers member given registered
  rw [registered, after]

/-- A registered theory stays a member. -/
theorem stems_of_registers (run : PublicRun settings events s) (member : e ∈ events) {theory : σ}
    {i : Nat} (given : e.command = .addTheory theory) (registered : e.result = .ok (.theory i)) :
    ∃ m, s.context.theories.Stems i theory m := by
  obtain ⟨earlier, before⟩ := run.upTo member
  obtain ⟨n, stems⟩ := Registry.stems_register (before.of_concat.1.told.unused _ (Nat.le_refl _))
    (run.register_of_registers member given registered)
  obtain ⟨m, stems', _⟩ := run.stems_of_after member stems
  exact ⟨m, stems'⟩

/-- Every member was registered by a command of the run. -/
theorem registered_of_lt (run : PublicRun settings events s) {i : Nat}
    (inside : i < s.context.theories.members.length) :
    ∃ e ∈ events, ∃ theory, e.command = .addTheory theory ∧ e.result = .ok (.theory i) := by
  induction run with
  | start => exact absurd inside (Nat.not_lt_zero i)
  | @step events s earlier command allowed result s' taken ih =>
    have last : ⟨s, command, result, s'⟩ ∈ events ++ [(⟨s, command, result, s'⟩ : Event σ)] :=
      List.mem_append_right _ (.head _)
    have before : i < s.context.theories.members.length →
        ∃ e ∈ events ++ [(⟨s, command, result, s'⟩ : Event σ)], ∃ theory, e.command = .addTheory theory ∧
          e.result = .ok (.theory i) := by
      intro inside
      obtain ⟨e, member, registers⟩ := ih inside
      exact ⟨e, List.mem_append_left _ member, registers⟩
    have whole := earlier.step command allowed result s' taken
    by_cases registers : ∃ theory j, command = .addTheory theory ∧ result = .ok (.theory j)
    · obtain ⟨theory, j, rfl, rfl⟩ := registers
      have registered := whole.register_of_registers last rfl rfl
      rcases Registry.register_eq registered with ⟨_, _, no, _⟩ | ⟨ok, _, same⟩
      · cases no
      · obtain rfl : j = s.context.theories.count := Except.ok.inj ok
        change s'.context.theories = _ at same
        rw [same, List.length_append, List.length_singleton] at inside
        rcases Nat.lt_or_eq_of_le (Nat.lt_succ_iff.mp inside) with old | rfl
        · exact before old
        · exact ⟨_, last, theory, rfl, rfl⟩
    · have none : ∀ theory, ¬(command.taking s.context result).theory theory := by
        rintro theory ⟨j, given, answered⟩
        exact registers ⟨theory, j, given, answered⟩
      rw [(earlier.ran_step allowed taken).course.length_members none] at inside
      exact before inside

/-- What a theory came to observe it goes on observing. -/
theorem observes_of_observes (run : PublicRun settings events s) (member : e ∈ events) {i : Nat}
    {a : Atom} (observes : e.Observes i a) :
    ∃ m, s.context.theories.members[i]? = some m ∧ m.observes a := by
  obtain ⟨_, taken, _⟩ := run.ran e member
  have executed := (Session.step_eq_ok taken).1
  rw [observes.1, observes.2] at executed
  have isMember := Command.ensures_answer (f := fun _ => .done)
    (q := fun result after => result = .ok .done →
      ∃ m, after.theories.members[i]? = some m ∧ m.observes a)
    (Procedure.Ensures.mono (Procedure.observe_leads (.move : Builds (Move .any)) i a)
      fun result after led same => by
        cases result with
        | error cause => cases same
        | ok found => exact led.2) _ _ executed rfl
  obtain ⟨m, found, observing⟩ := isMember
  obtain ⟨earlier, upTo⟩ := run.upTo member
  obtain ⟨_, member', theory, given, registered⟩ :=
    upTo.registered_of_lt (List.getElem?_eq_some_iff.mp found).1
  obtain ⟨n, stems⟩ := upTo.stems_of_registers member' given registered
  obtain rfl : n = m := Option.some.inj (stems.1.symm.trans found)
  obtain ⟨m', stems', more⟩ := run.stems_of_after member stems
  exact ⟨m', stems'.1, more a observing⟩

theorem observes_all (run : PublicRun settings events s) {i : Nat} {m : Member σ}
    (found : s.context.theories.members[i]? = some m) {observed : List Atom}
    (each : ∀ a ∈ observed, ∃ o ∈ events, o.Observes i a) : ∀ a ∈ observed, m.observes a := by
  intro a member
  obtain ⟨o, observer, observes⟩ := each a member
  obtain ⟨m', found', observing⟩ := run.observes_of_observes observer observes
  rwa [Option.some.inj (found.symm.trans found')]

/-- Where the theories of a run are of a kind, members stem from such theories. -/
theorem rooted {kind : σ → Prop} (run : PublicRun settings events s)
    (kinds : ∀ e ∈ events, ∀ theory, e.Registers theory → kind theory) : s.context.Rooted kind := by
  intro i m found
  obtain ⟨e, member, theory, given, registered⟩ :=
    run.registered_of_lt (List.getElem?_eq_some_iff.mp found).1
  obtain ⟨n, stems⟩ := run.stems_of_registers member given registered
  obtain rfl : n = m := Option.some.inj (stems.1.symm.trans found)
  exact ⟨theory, kinds e member theory ⟨given, i, registered⟩, stems⟩

/-- Where the theories of a run are of a kind and observe all of their atoms, so do the members. -/
theorem watched [Constraint σ] {kind : σ → Prop} (run : PublicRun settings events s)
    (kinds : ∀ e ∈ events, ∀ theory, e.Registers theory → kind theory) (observed : AllObserved events) :
    s.context.Watched kind := by
  intro i m found
  obtain ⟨e, member, theory, given, registered⟩ :=
    run.registered_of_lt (List.getElem?_eq_some_iff.mp found).1
  obtain ⟨n, stems⟩ := run.stems_of_registers member given registered
  obtain rfl : n = m := Option.some.inj (stems.1.symm.trans found)
  exact ⟨theory, kinds e member theory ⟨given, i, registered⟩, stems,
    run.observes_all found (observed e member theory i given registered)⟩

end PublicRun

end SatModulo
