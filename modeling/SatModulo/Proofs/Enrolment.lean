import Mathlib.Data.List.Sort
import SatModulo.Proofs.CommandLikeness
import SatModulo.Proofs.Registration

/-!
# What setting up makes of a registry

As long as commands only add to a context, no theory is told anything: it stands in the registry as it was
registered, with the atoms that it came to observe and the priority that it was given (`Registry.Enrols`).
So the registry depends on what was registered and observed, and not on when, up to the indices that theories
got (`Registry.Enrols.renumbered`).
-/
namespace SatModulo

variable {σ : Type}

/-- A theory was registered under an index. -/
def Event.RegistersAs (e : Event σ) (theory : σ) (i : Nat) : Prop :=
  e.command = .addTheory theory ∧ e.result = .ok (.theory i)

theorem getElem?_concat {α : Type} {xs : List α} {x y : α} {i : Nat} (found : (xs ++ [x])[i]? = some y) :
    xs[i]? = some y ∨ i = xs.length ∧ y = x := by
  rcases Nat.lt_or_ge i xs.length with inside | outside
  · rw [List.getElem?_append_left inside] at found
    exact .inl found
  · rw [List.getElem?_append_right outside, List.getElem?_singleton] at found
    split at found
    · exact .inr ⟨by omega, (Option.some.inj found).symm⟩
    · cases found

/-! ### Observed atoms -/

namespace Member

/-- The observed atoms together with another one. -/
def observedWith (a : Atom) (m : Member σ) : List Atom :=
  if m.observes a then m.observed else insertAtom a m.observed

theorem mem_observedWith {a b : Atom} {m : Member σ} : b ∈ m.observedWith a ↔ b = a ∨ b ∈ m.observed := by
  unfold observedWith
  split
  · rename_i old
    exact ⟨.inr, fun either => either.elim (fun same => same ▸ of_decide_eq_true old) id⟩
  · exact mem_insertAtom

theorem pairwise_insertAtom {a : Atom} {atoms : List Atom} (ascending : atoms.Pairwise (· < ·)) (new : a ∉ atoms) :
    (insertAtom a atoms).Pairwise (· < ·) := by
  induction atoms with
  | nil => exact List.pairwise_singleton ..
  | cons b rest ih =>
    rw [List.pairwise_cons] at ascending
    unfold insertAtom
    split
    · rename_i first
      refine List.pairwise_cons.mpr ⟨List.forall_mem_cons.mpr ⟨first, fun c later => ?_⟩,
        List.pairwise_cons.mpr ascending⟩
      exact Nat.lt_trans first (ascending.1 c later)
    · rename_i later
      refine List.pairwise_cons.mpr ⟨fun c member => ?_, ih ascending.2 fun again => new (.tail _ again)⟩
      rcases mem_insertAtom.mp member with rfl | member
      · exact Nat.lt_of_le_of_ne (Nat.not_lt.mp later) fun same => new (same ▸ .head _)
      · exact ascending.1 c member

theorem pairwise_observedWith {a : Atom} {m : Member σ} (ascending : m.observed.Pairwise (· < ·)) :
    (m.observedWith a).Pairwise (· < ·) := by
  unfold observedWith
  split
  · exact ascending
  · rename_i new
    exact pairwise_insertAtom ascending fun old => new (decide_eq_true old)

end Member

/-! ### Commands that set up -/

theorem Phase.begun_ne (phase : Phase) : phase.begun ≠ .configuration := by
  cases phase <;> decide

namespace Command

/-- Commands that register theories, or tell of one what it observes and how it is ranked. -/
def IsEnrolling : Command σ → Prop
  | .addTheory _ | .observe _ _ | .setPriority _ _ => True
  | _ => False

/-- Commands that name no theory, and add atoms and clauses or change settings. -/
def isCommon : Command σ → Bool
  | .freshAtom | .freshLiterals _ | .ensureAtom _ | .addClause _ | .changeSetting _ => true
  | _ => false

/-- Commands by which a context is set up before it is searched. -/
def SetsUp (command : Command σ) : Prop := command.isCommon = true ∨ command.IsEnrolling

variable [Theory σ] {c : Context σ}

/-- A theory is registered under the next index, or nothing is changed. -/
theorem addTheory_effect (theory : σ) (kept : Option Conflict) :
    ((addTheory theory : Command σ).procedure kept).Ensures c fun result after =>
      (∃ i theories, result = .ok (.theory i) ∧ c.theories.register theory = (.ok i, theories) ∧
        after = { c with theories, phase := c.phase.begun }) ∨
      ∃ e calls, result = .error e ∧ e.conflict? = none ∧
        after = { c with theories := { c.theories with calls } } := by
  refine ensures_answer (.get_bind ?_)
  dsimp only
  split
  · exact .throw_bind (.inr ⟨_, c.theories.calls, rfl, rfl, rfl⟩)
  · rcases registered : c.theories.register theory with ⟨outcome, theories⟩
    refine .modify_bind (.ofExcept_bind ?_ ?_)
    · rintro e rfl
      rcases Registry.register_eq registered with ⟨_, _, _, rfl, _⟩ | ⟨no, _⟩
      · exact .inr ⟨_, _, rfl, rfl, rfl⟩
      · cases no
    · rintro i rfl
      exact .modify_bind (.pure (.inl ⟨i, theories, rfl, rfl, rfl⟩))

/-- A theory that was told nothing of the trail is told nothing when it comes to observe an atom. -/
theorem observe_effect (untold : ∀ m ∈ c.theories.members, m.head = 0) (i : Nat) (a : Atom)
    (kept : Option Conflict) :
    ((observe i a : Command σ).procedure kept).Ensures c fun result after =>
      (∃ m calls, result = .ok .done ∧ c.theories.members[i]? = some m ∧ after = { c with
        theories := { c.theories with
          members := c.theories.members.set i { m with observed := m.observedWith a }, calls } }) ∨
      ∃ e, result = .error e ∧ e.conflict? = none ∧ after = c := by
  refine ensures_answer (f := fun _ => .done) (.get_bind ?_)
  dsimp only
  split
  · exact .throw_bind (.inr ⟨_, rfl, rfl, rfl⟩)
  split
  · exact .throw_bind (.inr ⟨_, rfl, rfl, rfl⟩)
  refine .ofExcept_bind (fun e _ => .inr ⟨_, rfl, rfl, rfl⟩) fun (isNew, theories) success => ?_
  unfold Registry.observe at success
  split at success
  · cases success
  · rename_i m found
    split at success <;> rename_i old <;> cases success <;> refine .modify_bind ?_
    · have same : { m with observed := m.observedWith a } = m := by
        rw [Member.observedWith, if_pos old]
      refine .pure (.inl ⟨m, c.theories.calls, rfl, found, ?_⟩)
      rw [same, Registry.set_self found]
    · have new : m.observedWith a = insertAtom a m.observed := if_neg old
      rw [if_pos rfl]
      refine .ofFaulty_bind fun (answer, theories) changed => ?_
      have inside := (List.getElem?_eq_some_iff.mp found).1
      obtain ⟨theory, capabilities, level, head, preprocessed, observed⟩ := m
      obtain rfl : head = 0 := untold _ (List.mem_of_getElem? found)
      unfold Registry.changeAt at changed
      simp only [List.getElem?_set_self inside, Nat.not_lt_zero, if_false, List.take_zero, List.find?_nil]
        at changed
      cases changed
      refine .modify (.inl ⟨_, c.theories.calls ++ ([] : List Call).map (i, ·), rfl, found, ?_⟩)
      rw [new, List.set_set]

theorem setPriority_effect (i : Nat) (priority : Int) (kept : Option Conflict) :
    ((setPriority i priority : Command σ).procedure kept).Ensures c fun result after =>
      (∃ schedule, result = .ok .done ∧ c.theories.schedule.setPriority i priority = .ok schedule ∧
        after = { c with theories := { c.theories with schedule } }) ∨
      ∃ e, result = .error e ∧ e.conflict? = none ∧ after = c := by
  refine ensures_answer (f := fun _ => .done) (.get_bind (.ofExcept_bind ?_ fun schedule changed => ?_))
  · exact fun e _ => .inr ⟨_, rfl, rfl, rfl⟩
  · exact .modify (.inl ⟨schedule, rfl, changed, rfl⟩)

/-- Of the rest of a context, only a registration changes something: it ends the time for settings. -/
theorem enrolling_frame {command : Command σ} (enrolling : command.IsEnrolling)
    (untold : ∀ m ∈ c.theories.members, m.head = 0) (kept : Option Conflict) :
    (command.procedure kept).Ensures c fun result after => conflictOf result = none ∧
      ∃ theories phase, after = { c with theories, phase } ∧ phase.begun = c.phase.begun ∧
        (phase = c.phase ∧ theories.members.length = c.theories.members.length ∨
          phase ≠ .configuration ∧ ∃ theory i, command = .addTheory theory ∧ result = .ok (.theory i)) := by
  have begun : c.phase.begun.begun = c.phase.begun := by cases c.phase <;> rfl
  cases command with
  | addTheory theory =>
    refine (addTheory_effect theory kept).mono fun result after effect => ?_
    rcases effect with ⟨i, theories, rfl, _, rfl⟩ | ⟨e, calls, rfl, quiet, rfl⟩
    · exact ⟨rfl, theories, _, rfl, begun, .inr ⟨c.phase.begun_ne, theory, i, rfl, rfl⟩⟩
    · exact ⟨quiet, _, c.phase, rfl, rfl, .inl ⟨rfl, rfl⟩⟩
  | observe i a =>
    refine (observe_effect untold i a kept).mono fun result after effect => ?_
    rcases effect with ⟨m, calls, rfl, _, rfl⟩ | ⟨e, rfl, quiet, rfl⟩
    · exact ⟨rfl, _, c.phase, rfl, rfl, .inl ⟨rfl, List.length_set ..⟩⟩
    · exact ⟨quiet, after.theories, after.phase, rfl, rfl, .inl ⟨rfl, rfl⟩⟩
  | setPriority i priority =>
    refine (setPriority_effect i priority kept).mono fun result after effect => ?_
    rcases effect with ⟨schedule, rfl, _, rfl⟩ | ⟨e, rfl, quiet, rfl⟩
    · exact ⟨rfl, _, c.phase, rfl, rfl, .inl ⟨rfl, rfl⟩⟩
    · exact ⟨quiet, after.theories, after.phase, rfl, rfl, .inl ⟨rfl, rfl⟩⟩
  | _ => exact enrolling.elim

theorem changeSetting_effect (change : SettingChange) (kept : Option Conflict) :
    ((changeSetting change : Command σ).procedure kept).Ensures c fun result after =>
      (∃ settings, result = .ok .done ∧ c.settings.change c.phase change = .ok settings ∧
        after = { c with settings }) ∨
      ∃ e, result = .error e ∧ e.conflict? = none ∧ after = c := by
  refine .get_bind (.ofExcept_bind (fun e _ => .inr ⟨_, rfl, rfl, rfl⟩) fun settings changed => ?_)
  rintro result after ⟨⟩
  exact .inl ⟨settings, rfl, changed, rfl⟩

/-- A comparison of a context with itself, in which its theories stay, and its configuration is over for good. -/
def keeping (c : Context σ) : Likeness σ where
  π := 1
  theories r _ := r = c.theories
  phases phase _ := c.phase ≠ .configuration → phase ≠ .configuration
  begun _ _ := Phase.begun_ne _
  found _ left _ := left
  spared _ := False

/-- What adds atoms and clauses, or changes settings, leaves the theories as they are. -/
theorem common_frame {command : Command σ} (common : command.isCommon = true) (kept : Option Conflict) :
    (command.procedure kept).Ensures c fun _ after => after.theories = c.theories ∧
      (c.phase ≠ .configuration → after.phase ≠ .configuration) := by
  intro result after ran
  by_cases building : command.IsBuilding
  · have alike : (keeping c).Alike c { c with atoms := c.atoms.renumber 1 } := .mk c.theories c.phase rfl id
    obtain ⟨_, _, ⟨_, _, same, left⟩⟩ := building_follows alike building kept kept result after ran fun _ _ => id
    exact ⟨same, left⟩
  · cases command with
    | changeSetting change =>
      rcases changeSetting_effect change kept result after ran with ⟨_, _, _, rfl⟩ | ⟨_, _, _, rfl⟩ <;>
        exact ⟨rfl, id⟩
    | freshAtom | freshLiterals | ensureAtom | addClause => exact absurd trivial building
    | _ => cases common

/-- What adds atoms and clauses, or changes settings, tells of no conflict. -/
theorem conflictOf_of_common {command : Command σ} (common : command.isCommon = true) (kept : Option Conflict) :
    (command.procedure kept).Ensures c fun result _ => conflictOf result = none := by
  have quiet : ∀ {α : Type} {p : Procedure σ α} {mid : α → Context σ → Prop} {f : α → Answer},
      p.Leads (Move {}) c c mid → (∀ a, (f a).conflict? = none) →
        (p >>= fun a => pure (f a)).Ensures c fun result _ => conflictOf result = none := by
    intro α p mid f leads plain
    refine ensures_answer (Procedure.Ensures.mono leads fun result _ outcome => ?_)
    cases result with
    | ok a => exact plain a
    | error e => exact outcome.2
  cases command with
  | freshAtom => exact quiet (Procedure.freshAtom_leads .move) fun _ => rfl
  | freshLiterals n => exact quiet (Procedure.freshLiterals_leads .move n) fun _ => rfl
  | ensureAtom a => exact quiet (Procedure.ensureAtom_leads .move a) fun _ => rfl
  | addClause clause =>
    refine ensures_answer ((Procedure.addClause_course clause).mono fun result after answered => ?_)
    cases result with
    | ok outcome => rfl
    | error e => exact answered.2
  | changeSetting change =>
    refine (changeSetting_effect change kept).mono fun result after effect => ?_
    rcases effect with ⟨_, rfl, _, _⟩ | ⟨_, rfl, quiet, _⟩
    · rfl
    · exact quiet
  | _ => cases common

end Command

/-! ### The theories that were registered -/

/-- A theory as it is registered under an index, with the atoms that it observes. -/
def Member.enrolled [Theory σ] (i : Nat) (theory : σ) (observed : List Atom) : Member σ where
  theory := Theory.setIndex i theory
  capabilities := Theory.capabilities (Theory.setIndex i theory)
  observed

/-- The members are the theories that were registered, under the index that each was given, with the atoms that
each came to observe. -/
structure Enrols [Theory σ] (events : List (Event σ)) (members : List (Member σ)) : Prop where
  registered : ∀ e ∈ events, ∀ theory i, e.RegistersAs theory i →
    ∃ observed, members[i]? = some (.enrolled i theory observed)
  member : ∀ i m, members[i]? = some m →
    ∃ theory, (∃ e ∈ events, e.RegistersAs theory i) ∧ m = .enrolled i theory m.observed
  ascending : ∀ m ∈ members, m.observed.Pairwise (· < ·)
  observed : ∀ i m, members[i]? = some m → ∀ a, a ∈ m.observed ↔ ∃ o ∈ events, o.Observes i a
  known : ∀ o ∈ events, ∀ i a, o.Observes i a → i < members.length

theorem Event.RegistersAs.not_observes {e : Event σ} {theory : σ} {i j : Nat} {a : Atom}
    (registers : e.RegistersAs theory i) : ¬e.Observes j a := by
  intro observes
  cases registers.1.symm.trans observes.1

namespace Enrols

variable {events : List (Event σ)} {members : List (Member σ)} {e : Event σ} {i : Nat}

/-- What was registered and observed before a command stays. -/
theorem exists_append {p : Event σ → Prop} (before : ∃ o ∈ events, p o) : ∃ o ∈ events ++ [e], p o := by
  obtain ⟨o, member, held⟩ := before
  exact ⟨o, List.mem_append_left _ member, held⟩

theorem exists_append_iff {p : Event σ → Prop} (never : ¬p e) :
    (∃ o ∈ events ++ [e], p o) ↔ ∃ o ∈ events, p o := by
  simp only [List.mem_append, List.mem_singleton, or_and_right, exists_or, exists_eq_left, never, or_false]

variable [Theory σ]

theorem initial : Enrols ([] : List (Event σ)) [] := by
  constructor <;> simp

/-- A command that neither registers nor observes leaves the members as they are. -/
theorem other (enrols : Enrols events members) (registers : ∀ theory i, ¬e.RegistersAs theory i)
    (observes : ∀ i a, ¬e.Observes i a) : Enrols (events ++ [e]) members where
  registered o member theory i registered := by
    obtain ⟨o, old, registered⟩ :=
      (exists_append_iff (p := (·.RegistersAs theory i)) (registers theory i)).mp ⟨o, member, registered⟩
    exact enrols.registered o old theory i registered
  member i m found := by
    obtain ⟨theory, registered, same⟩ := enrols.member i m found
    exact ⟨theory, exists_append registered, same⟩
  ascending := enrols.ascending
  observed i m found a := (enrols.observed i m found a).trans (exists_append_iff (observes i a)).symm
  known o member i a observed := by
    obtain ⟨o, old, observed⟩ :=
      (exists_append_iff (p := (·.Observes i a)) (observes i a)).mp ⟨o, member, observed⟩
    exact enrols.known o old i a observed

/-- A theory that is registered becomes the last member. -/
theorem register (enrols : Enrols events members) {theory : σ} (registers : e.RegistersAs theory members.length) :
    Enrols (events ++ [e]) (members ++ [.enrolled members.length theory []]) where
  registered o member theory' i registered := by
    rcases List.mem_append.mp member with old | new
    · obtain ⟨observed, found⟩ := enrols.registered o old theory' i registered
      exact ⟨observed, by rw [List.getElem?_append_left (List.getElem?_eq_some_iff.mp found).1, found]⟩
    · obtain rfl := List.mem_singleton.mp new
      cases registers.1.symm.trans registered.1
      cases registers.2.symm.trans registered.2
      exact ⟨[], List.getElem?_concat_length⟩
  member i m found := by
    rcases getElem?_concat found with old | ⟨rfl, rfl⟩
    · obtain ⟨theory, registered, same⟩ := enrols.member i m old
      exact ⟨theory, exists_append registered, same⟩
    · exact ⟨theory, ⟨e, List.mem_append_right _ (.head _), registers⟩, rfl⟩
  ascending := List.forall_mem_append.mpr ⟨enrols.ascending, List.forall_mem_singleton.mpr .nil⟩
  observed i m found a := by
    rw [exists_append_iff registers.not_observes]
    rcases getElem?_concat found with old | ⟨rfl, rfl⟩
    · exact enrols.observed i m old a
    · refine iff_of_false List.not_mem_nil ?_
      rintro ⟨o, member, observes⟩
      exact Nat.lt_irrefl _ (enrols.known o member _ a observes)
  known o member i a observes := by
    obtain ⟨o, old, observes⟩ :=
      (exists_append_iff (p := (·.Observes i a)) registers.not_observes).mp ⟨o, member, observes⟩
    rw [List.length_append]
    exact Nat.lt_add_right _ (enrols.known o old i a observes)

/-- A member that comes to observe an atom. -/
theorem observe (enrols : Enrols events members) {m : Member σ} {a : Atom} (found : members[i]? = some m)
    (observes : e.Observes i a) :
    Enrols (events ++ [e]) (members.set i { m with observed := m.observedWith a }) := by
  have inside := (List.getElem?_eq_some_iff.mp found).1
  have each : ∀ j n, (members.set i { m with observed := m.observedWith a })[j]? = some n →
      i = j ∧ n = { m with observed := m.observedWith a } ∨ i ≠ j ∧ members[j]? = some n := by
    intro j n found'
    by_cases same : i = j
    · subst same
      rw [List.getElem?_set_self inside] at found'
      exact .inl ⟨rfl, (Option.some.inj found').symm⟩
    · exact .inr ⟨same, by rwa [List.getElem?_set_ne same] at found'⟩
  have others : ∀ {j b}, i ≠ j → ¬e.Observes j b := fun different observes' => by
    cases observes.1.symm.trans observes'.1
    exact different rfl
  have registers : ∀ {theory j}, ¬e.RegistersAs theory j := fun registers => registers.not_observes observes
  constructor
  · intro o member theory j registered
    obtain ⟨o, old, registered⟩ :=
      (exists_append_iff (p := (·.RegistersAs theory j)) registers).mp ⟨o, member, registered⟩
    obtain ⟨observed, before⟩ := enrols.registered o old theory j registered
    by_cases same : i = j
    · subst same
      rw [found] at before
      rw [List.getElem?_set_self inside, Option.some.inj before]
      exact ⟨_, rfl⟩
    · exact ⟨observed, by rwa [List.getElem?_set_ne same]⟩
  · intro j n found'
    rcases each j n found' with ⟨rfl, rfl⟩ | ⟨_, old⟩
    · obtain ⟨theory, registered, same⟩ := enrols.member i m found
      refine ⟨theory, exists_append registered, ?_⟩
      rw [same]
      rfl
    · obtain ⟨theory, registered, same⟩ := enrols.member j n old
      exact ⟨theory, exists_append registered, same⟩
  · intro n member
    obtain ⟨j, found'⟩ := List.mem_iff_getElem?.mp member
    rcases each j n found' with ⟨rfl, rfl⟩ | ⟨_, old⟩
    · exact Member.pairwise_observedWith (enrols.ascending m (List.mem_of_getElem? found))
    · exact enrols.ascending n (List.mem_of_getElem? old)
  · intro j n found' b
    rcases each j n found' with ⟨rfl, rfl⟩ | ⟨different, old⟩
    · refine Member.mem_observedWith.trans ?_
      rw [enrols.observed i m found b]
      constructor
      · rintro (rfl | before)
        · exact ⟨e, List.mem_append_right _ (.head _), observes⟩
        · exact exists_append before
      · rintro ⟨o, member, observes'⟩
        rcases List.mem_append.mp member with old | new
        · exact .inr ⟨o, old, observes'⟩
        · rw [List.mem_singleton.mp new] at observes'
          cases observes.1.symm.trans observes'.1
          exact .inl rfl
    · rw [exists_append_iff (others different)]
      exact enrols.observed j n old b
  · intro o member j b observes'
    rw [List.length_set]
    rcases List.mem_append.mp member with old | new
    · exact enrols.known o old j b observes'
    · rw [List.mem_singleton.mp new] at observes'
      cases observes.1.symm.trans observes'.1
      exact inside

end Enrols

/-! ### Registries of which no theory was told anything -/

/-- Nothing was decided on proposals, and activities are as they were at first. -/
structure Registry.IsIdle (settings : ScheduleSettings) (r : Registry σ) : Prop where
  activity : ∀ standing ∈ r.schedule.standings, standing.activity = Measure.zero
  schedule : { r.schedule with standings := [] } = Schedule.ofSettings settings
  decisions : r.decisions = []
  baseFacts : r.baseFacts = 0

namespace Registry.IsIdle

variable {settings : ScheduleSettings} {r : Registry σ}

theorem register (idle : r.IsIdle settings) (members : List (Member σ)) (calls : Array (Nat × Call)) :
    IsIdle settings { r with members, calls, schedule := r.schedule.register.2 } where
  activity := List.forall_mem_append.mpr ⟨idle.activity, List.forall_mem_singleton.mpr rfl⟩
  schedule := idle.schedule
  decisions := idle.decisions
  baseFacts := idle.baseFacts

theorem setPriority (idle : r.IsIdle settings) {i : Nat} {priority : Int} {schedule : Schedule Activity}
    (changed : r.schedule.setPriority i priority = .ok schedule) : IsIdle settings { r with schedule } := by
  unfold Schedule.setPriority Schedule.modify at changed
  split at changed
  · cases changed
    refine ⟨fun standing member => ?_, idle.schedule, idle.decisions, idle.baseFacts⟩
    obtain ⟨j, found⟩ := List.mem_iff_getElem?.mp member
    rw [List.getElem?_modify] at found
    obtain ⟨before, inside, same⟩ := Option.map_eq_some_iff.mp found
    have activity := idle.activity before (List.mem_of_getElem? inside)
    split at same <;> cases same <;> exact activity
  · cases changed

end Registry.IsIdle

section Runs

variable [Theory σ] {settings : Settings} {events : List (Event σ)} {s : Session σ}

theorem Enrols.untold {members : List (Member σ)} (enrols : Enrols events members) :
    ∀ m ∈ members, m.head = 0 := by
  intro m member
  obtain ⟨i, found⟩ := List.mem_iff_getElem?.mp member
  obtain ⟨_, _, same⟩ := enrols.member i m found
  rw [same]
  rfl

/-- What a session is like after commands that set up: no theory was told anything, there is no conflict, and if
there are theories, the time for configuration is over. -/
structure Session.IsSetUp (settings : Settings) (events : List (Event σ)) (s : Session σ) : Prop where
  enrols : Enrols events s.context.theories.members
  idle : s.context.theories.IsIdle settings.schedule
  left : s.context.theories.members ≠ [] → s.context.phase ≠ .configuration
  quiet : ∀ e ∈ events, conflictOf e.result = none
  unkept : s.kept = none

/-- Where a command was answered with an error, no theory was registered and none came to observe an atom. -/
theorem Enrols.failed {members : List (Member σ)} {e : Event σ} {cause : Error} (enrols : Enrols events members)
    (failed : e.result = .error cause) : Enrols (events ++ [e]) members := by
  refine enrols.other ?_ ?_
  · rintro theory i ⟨_, done⟩
    cases failed.symm.trans done
  · rintro i a ⟨_, done⟩
    cases failed.symm.trans done

/-- What a command that registers, or tells of a theory, does to the registry. -/
theorem Session.IsSetUp.enrol (setUp : s.IsSetUp settings events) {command : Command σ}
    (enrolling : command.IsEnrolling) {result : Except Error Answer} {s' : Session σ}
    (taken : s.step command = .ok (result, s')) :
    Enrols (events ++ [⟨s, command, result, s'⟩]) s'.context.theories.members ∧
      s'.context.theories.IsIdle settings.schedule := by
  have ran := (Session.step_eq_ok taken).1
  obtain ⟨enrols, idle, _⟩ := setUp
  cases command with
  | addTheory theory =>
    rcases Command.addTheory_effect theory _ _ _ ran with ⟨i, theories, rfl, registered, after⟩ |
      ⟨e, calls, rfl, _, after⟩ <;> rw [after]
    · rcases Registry.register_eq registered with ⟨_, _, no, _⟩ | ⟨ok, _, rfl⟩
      · cases no
      · cases ok
        exact ⟨enrols.register ⟨rfl, rfl⟩, idle.register _ _⟩
    · exact ⟨enrols.failed rfl, idle.activity, idle.schedule, idle.decisions, idle.baseFacts⟩
  | observe i a =>
    rcases Command.observe_effect enrols.untold i a _ _ _ ran with ⟨m, calls, rfl, found, after⟩ |
      ⟨e, rfl, _, after⟩ <;> rw [after]
    · exact ⟨enrols.observe found ⟨rfl, rfl⟩, idle.activity, idle.schedule, idle.decisions, idle.baseFacts⟩
    · exact ⟨enrols.failed rfl, idle⟩
  | setPriority i priority =>
    have other : Enrols (events ++ [⟨s, .setPriority i priority, result, s'⟩]) s.context.theories.members :=
      enrols.other (by rintro _ _ ⟨no, _⟩; cases no) (by rintro _ _ ⟨no, _⟩; cases no)
    rcases Command.setPriority_effect i priority _ _ _ ran with ⟨schedule, rfl, changed, after⟩ |
      ⟨e, rfl, _, after⟩ <;> rw [after]
    · exact ⟨other, idle.setPriority changed⟩
    · exact ⟨other, idle⟩
  | _ => exact enrolling.elim

/-- Along a run that sets up, the registry holds what was registered and observed, and no more. -/
theorem PublicRun.isSetUp (run : PublicRun settings events s) (sets : ∀ e ∈ events, e.command.SetsUp) :
    s.IsSetUp settings events := by
  induction run with
  | start =>
    exact ⟨.initial, ⟨List.forall_mem_nil _, rfl, rfl, rfl⟩, absurd rfl, List.forall_mem_nil _, rfl⟩
  | @step events s earlier command allowed result s' taken ih =>
    have setUp := ih fun e member => sets e (List.mem_append_left _ member)
    obtain ⟨ran, kept⟩ := Session.step_eq_ok taken
    have unkept : conflictOf result = none → s'.kept = none := by
      intro quiet
      have found : (conflictOf result).or s.kept = none := by rw [quiet, setUp.unkept]; rfl
      rw [kept]
      cases command <;> first | exact found | rfl
    have all : conflictOf result = none → ∀ e ∈ events ++ [⟨s, command, result, s'⟩], conflictOf e.result = none :=
      fun quiet => List.forall_mem_append.mpr ⟨setUp.quiet, List.forall_mem_singleton.mpr quiet⟩
    rcases sets _ (List.mem_append_right _ (.head _)) with common | enrolling
    · have quiet := Command.conflictOf_of_common common _ _ _ ran
      obtain ⟨same, left⟩ := Command.common_frame common _ _ _ ran
      refine ⟨?_, same ▸ setUp.idle, fun some' => left (setUp.left (same ▸ some')), all quiet, unkept quiet⟩
      rw [same]
      refine setUp.enrols.other ?_ ?_
      · rintro theory i ⟨rfl, _⟩
        cases common
      · rintro i a ⟨rfl, _⟩
        cases common
    · obtain ⟨enrols, idle⟩ := setUp.enrol enrolling taken
      obtain ⟨quiet, theories, phase, after, _, left⟩ :=
        Command.enrolling_frame enrolling setUp.enrols.untold _ _ _ ran
      refine ⟨enrols, idle, fun some' => ?_, all quiet, unkept quiet⟩
      rw [after] at some' ⊢
      rcases left with ⟨same, length⟩ | ⟨left, _⟩
      · rw [same]
        exact setUp.left fun none' => some' (List.length_eq_zero_iff.mp (length.trans (none' ▸ rfl)))
      · exact left

end Runs

/-! ### The same theories under other indices -/

/-- What was registered and observed is the same up to the indices that theories got. -/
structure Rearranges (π : Equiv.Perm Nat) (events events' : List (Event σ)) : Prop where
  registers : ∀ theory i, (∃ e ∈ events, e.RegistersAs theory i) ↔ ∃ e ∈ events', e.RegistersAs theory (π i)
  observes : ∀ i a, (∃ o ∈ events, o.Observes i a) ↔ ∃ o ∈ events', o.Observes (π i) a

namespace Enrols

variable [Theory σ] [Theory.Nameless σ] {π : Equiv.Perm Nat} {events events' : List (Event σ)}
  {members members' : List (Member σ)}

theorem reindex_enrolled (i j : Nat) (theory : σ) (observed : List Atom) :
    (Member.enrolled i theory observed).reindex j = .enrolled j theory observed := by
  have nameless := Theory.Nameless.isNameless theory
  simp only [Member.reindex, Member.enrolled, nameless.setIndex, nameless.capabilities]

/-- Members depend on what was registered and observed only. -/
theorem getElem?_eq (enrols : Enrols events members) (enrols' : Enrols events' members')
    (rearranges : Rearranges π events events') (i : Nat) :
    members'[π i]? = members[i]?.map (Member.reindex (π i)) := by
  cases found : members[i]? with
  | none =>
    rw [Option.map_none]
    cases found' : members'[π i]? with
    | none => rfl
    | some m' =>
      obtain ⟨theory, registered, _⟩ := enrols'.member _ m' found'
      obtain ⟨e, member, registered⟩ := (rearranges.registers theory i).mpr registered
      obtain ⟨_, inside⟩ := enrols.registered e member theory i registered
      rw [found] at inside
      cases inside
  | some m =>
    obtain ⟨theory, registered, same⟩ := enrols.member i m found
    obtain ⟨e, member, registered⟩ := (rearranges.registers theory i).mp registered
    obtain ⟨observed, found'⟩ := enrols'.registered e member theory (π i) registered
    have sameObserved : observed = m.observed := by
      refine List.Pairwise.eq_of_mem_iff (enrols'.ascending _ (List.mem_of_getElem? found'))
        (enrols.ascending m (List.mem_of_getElem? found)) fun a => ?_
      rw [enrols.observed i m found a, rearranges.observes i a]
      exact enrols'.observed (π i) _ found' a
    rw [found', Option.map_some, same, reindex_enrolled, sameObserved]

end Enrols

/-- Registries of which no theory was told anything are the same up to indices where the same theories were
registered, with the same observed atoms and the same priorities. -/
theorem Registry.IsIdle.renumbered [Theory σ] [Theory.Nameless σ] {π : Equiv.Perm Nat}
    {events events' : List (Event σ)} {settings : ScheduleSettings} {r r' : Registry σ}
    (idle : r.IsIdle settings) (idle' : r'.IsIdle settings) (enrols : Enrols events r.members)
    (enrols' : Enrols events' r'.members) (rearranges : Rearranges π events events')
    (priorities : ∀ i, r'.schedule.priority (π i) = r.schedule.priority i) (ranked : r.schedule.Ranked)
    (bounded : ¬settings.maximum.value < 0.0) : r.Renumbered π r' where
  member := enrols.getElem?_eq enrols' rearranges
  schedule := by
    have settled := idle.schedule.trans idle'.schedule.symm
    refine ⟨fun i => ?_, ?_, ?_, ?_, ?_, ranked⟩
    · have same := priorities i
      unfold Schedule.priority at same
      cases found : r.schedule.standings[i]? with
      | none =>
        rw [found] at same
        exact Option.map_eq_none_iff.mp same
      | some standing =>
        rw [found] at same
        obtain ⟨standing', found', same⟩ := Option.map_eq_some_iff.mp same
        have activity := idle.activity standing (List.mem_of_getElem? found)
        have activity' := idle'.activity standing' (List.mem_of_getElem? found')
        obtain ⟨_, _⟩ := standing
        obtain ⟨_, _⟩ := standing'
        cases same
        cases activity
        cases activity'
        exact found'
    · exact (congrArg Schedule.weight settled).symm
    · exact (congrArg Schedule.decay settled).symm
    · exact (congrArg Schedule.maximum settled).symm
    · have maximum := congrArg Schedule.maximum idle.schedule
      dsimp only at maximum
      rw [maximum]
      exact bounded
  decisions := by
    rw [idle.decisions, idle'.decisions]
    rfl
  baseFacts := idle'.baseFacts.trans idle.baseFacts.symm

end SatModulo
