import SatModulo.Proofs.Doubles
import SatModulo.Proofs.GivenClauses
import SatModulo.Proofs.Likelihoods
import SatModulo.Proofs.RegistrationOrder

/-!
# Revised settings

A value is refused for a setting if it is less than the least or greater than the greatest one. So an accepted value
lies between them, but for a double that is not a number: that one compares with neither bound. Nothing else leads
out of the bounds, and draws against a likelihood fail for nothing else (`Session.inBounds_iff_lastGiven`).
-/
namespace SatModulo

def Setting.InBounds {α : Type} [LE α] (s : Setting α) : Prop := s.least ≤ s.value ∧ s.value ≤ s.greatest

namespace Setting

section Set

variable {α : Type} [LT α] [DecidableLT α] {s s' : Setting α} {value : α} {phase : Phase}

theorem not_outside_of_set (set : s.set value phase = .ok s') : ¬value < s.least ∧ ¬s.greatest < value := by
  unfold Setting.set at set
  split at set
  · cases set
  · split at set
    · cases set
    · rename_i inside
      exact not_or.mp inside

/-- Of a type that is linearly ordered only values between the bounds are accepted. -/
theorem inBounds_of_set [LE α] (total : ∀ a b : α, ¬a < b → b ≤ a) (set : s.set value phase = .ok s') :
    s'.InBounds := by
  obtain ⟨notLess, notMore⟩ := not_outside_of_set set
  rw [value_eq_of_set set]
  exact ⟨total _ _ notLess, total _ _ notMore⟩

end Set

/-- How a setting of doubles stands once it may have been given one: the bounds are the same, and the value is the
given one, which is not outside of them, or else the value from before. -/
structure Follows (given : Option Float) (s s' : Setting Float) : Prop where
  same : s' = { s with value := given.getD s.value }
  accepted : ∀ value, given = some value → ¬value < s.least ∧ ¬s.greatest < value

namespace Follows

variable {given given' : Option Float} {s s' s'' : Setting Float}

theorem refl : Follows none s s := ⟨rfl, nofun⟩

theorem of_set {value : Float} {phase : Phase} (set : s.set value phase = .ok s') : Follows (some value) s s' where
  same := value_eq_of_set set
  accepted := by
    rintro _ ⟨⟩
    exact not_outside_of_set set

theorem trans (first : Follows given s s') (later : Follows given' s' s'') : Follows (given'.or given) s s'' := by
  obtain ⟨rfl, inside⟩ := first
  obtain ⟨rfl, inside'⟩ := later
  cases given' with
  | none => exact ⟨rfl, inside⟩
  | some value => exact ⟨rfl, inside'⟩

/-- A double that was given is between the bounds if it is a number. -/
theorem inBounds_iff (follows : Follows given s s') (before : s.InBounds) :
    s'.InBounds ↔ ∀ value, given = some value → value.isNaN = false := by
  obtain ⟨rfl, inside⟩ := follows
  refine ⟨?_, fun numbers => ?_⟩
  · rintro ⟨low, _⟩ value rfl
    exact (isNaN_of_le low).2
  · cases given with
    | none => exact before
    | some value =>
      have isNumber := numbers value rfl
      obtain ⟨notLess, notMore⟩ := inside value rfl
      exact ⟨(le_iff_not_lt (isNaN_of_le before.1).1 isNumber).mpr notLess,
        (le_iff_not_lt isNumber (isNaN_of_le before.2).2).mpr notMore⟩

end Follows

end Setting

inductive DoubleSetting where
  | polarityBias
  | randomDecisionBias
  | activityBump
  | activityDecay
  | activityMaximum
  deriving DecidableEq, Repr

def DoubleSetting.of (s : Settings) : DoubleSetting → Setting Float
  | .polarityBias => s.polarityBias
  | .randomDecisionBias => s.randomDecisionBias
  | .activityBump => s.schedule.bump
  | .activityDecay => s.schedule.decay
  | .activityMaximum => s.schedule.maximum

/-- The double that a change is to give to a setting. -/
def SettingChange.givenTo : SettingChange → DoubleSetting → Option Float
  | .polarityBias value, .polarityBias => some value
  | .randomDecisionBias value, .randomDecisionBias => some value
  | .activityBump value, .activityBump => some value
  | .activityDecay value, .activityDecay => some value
  | .activityMaximum value, .activityMaximum => some value
  | _, _ => none

namespace Settings

/-- The settings that a context starts with; whether theories are checked depends on how it was built. -/
def usual (verify : Bool) : Settings := { checkTheories := ⟨"check_theories", false, true, .input, verify⟩ }

/-- All values but doubles lie between their bounds. -/
structure OthersInBounds (s : Settings) : Prop where
  checkTheories : s.checkTheories.InBounds
  phaseSaving : s.phaseSaving.InBounds
  seed : s.seed.InBounds
  timeLimit : s.timeLimit.InBounds

theorem usual_inBounds (verify : Bool) :
    (usual verify).OthersInBounds ∧ ∀ o : DoubleSetting, (o.of (usual verify)).InBounds := by
  constructor
  · refine ⟨?_, ?_, ⟨Nat.le_refl 0, Nat.zero_le _⟩, ⟨Nat.le_refl 0, Nat.zero_le _⟩⟩ <;> cases verify <;>
      exact ⟨by decide, by decide⟩
  · intro o
    cases verify <;> cases o <;> constructor <;> decide +kernel

variable {s s' : Settings} {phase : Phase} {change : SettingChange}

/-- An accepted change gives a double to one setting at most, and no other value leaves its bounds. -/
theorem changed_follows (changed : s.change phase change = .ok s') :
    (s.OthersInBounds → s'.OthersInBounds) ∧
      ∀ o : DoubleSetting, (o.of s).Follows (change.givenTo o) (o.of s') := by
  cases change <;> obtain ⟨t, set, same⟩ := Except.bind_eq_ok changed <;> cases same <;>
    refine ⟨fun others => ?_, fun o => ?_⟩
  case checkTheories.refl.refine_1 =>
    exact { others with checkTheories := Setting.inBounds_of_set (by decide) set }
  case phaseSaving.refl.refine_1 =>
    exact { others with phaseSaving := Setting.inBounds_of_set (by decide) set }
  case seed.refl.refine_1 => exact { others with seed := Setting.inBounds_of_set (fun _ _ => Nat.le_of_not_lt) set }
  case timeLimit.refl.refine_1 =>
    exact { others with timeLimit := Setting.inBounds_of_set (fun _ _ => Nat.le_of_not_lt) set }
  all_goals first
    | exact { others with }
    | cases o <;> first | exact .refl | exact .of_set set

end Settings

/-! ### Runs -/

section Runs

variable {σ : Type}

/-- The double that a command gave to a setting, if it was accepted. -/
def Command.gave (o : DoubleSetting) (command : Command σ) (result : Except Error Answer) : Option Float :=
  match command, result with
  | .changeSetting change, .ok _ => change.givenTo o
  | _, _ => none

/-- The double that a setting was given last. -/
def lastGiven (o : DoubleSetting) (taken : List (Command σ × Except Error Answer)) : Option Float :=
  taken.reverse.findSome? fun (command, result) => command.gave o result

theorem lastGiven_cons {o : DoubleSetting} {command : Command σ} {result : Except Error Answer}
    {later : List (Command σ × Except Error Answer)} :
    lastGiven o ((command, result) :: later) = (lastGiven o later).or (command.gave o result) := by
  unfold lastGiven
  rw [List.reverse_cons, List.findSome?_append, List.findSome?_singleton]

variable [Theory σ]

namespace Session

variable {s s' : Session σ} {command : Command σ} {result : Except Error Answer} {cause : Fault}

theorem step_eq_error : s.step command = .error cause ↔ s.context.run (command.procedure s.kept) = .error cause := by
  unfold step
  cases s.context.run (command.procedure s.kept) <;> simp

end Session

/-! #### Draws that fail -/

namespace Generator

variable {p : Float}

/-- What is between zero and one is a likelihood. -/
theorem isLikelihood_of_inBounds (low : 0.0 ≤ p) (high : p ≤ 1.0) : IsLikelihood p := by
  have isNumber := (isNaN_of_le low).2
  by_cases less : p < 1.0
  · exact .inl ⟨low, less⟩
  · have zero : (0.0 : Float) < 1.0 := by decide
    have notMore := (le_iff_not_lt isNumber (isNaN_of_le high).2).mp high
    obtain rfl := eq_of_not_lt (lt_of_lt_of_not_lt zero less isNumber) zero less notMore
    exact .inr (by decide)

theorem IsLikelihood.isNumber (likelihood : IsLikelihood p) : p.isNaN = false :=
  likelihood.elim (fun ⟨low, _⟩ => (isNaN_of_le low).2) isNaN_of_beq

end Generator

/-- What was given to a setting of a likelihood is one if it is a number. -/
theorem Setting.Follows.isLikelihood_iff {given : Option Float} {s s' : Setting Float} (follows : Follows given s s')
    (before : s.InBounds) (low : s.least = 0.0) (high : s.greatest = 1.0) :
    Generator.IsLikelihood s'.value ↔ ∀ value, given = some value → value.isNaN = false := by
  refine ⟨?_, fun numbers => ?_⟩
  · obtain ⟨rfl, _⟩ := follows
    rintro likelihood value rfl
    exact likelihood.isNumber
  · have inside := (follows.inBounds_iff before).mpr numbers
    obtain ⟨rfl, _⟩ := follows
    unfold InBounds at inside
    rw [low, high] at inside
    exact Generator.isLikelihood_of_inBounds inside.1 inside.2

namespace Procedure

variable {c : Context σ} {p : Float}

omit [Theory σ] in
theorem chance_fails (not : ¬Generator.IsLikelihood p) :
    (chance p : Procedure σ Bool).Ends c (· = .notAProbability) fun _ _ => False := by
  have fails := c.settings.host.sampler.chance_of_not p c.random not
  refine .get_bind (.ofFaulty_bind ?_ ?_)
  · rw [fails]
    rintro _ ⟨⟩
    rfl
  · rw [fails]
    nofun

omit [Theory σ] in
theorem Ends.bind_fails {α β : Type} {p : Procedure σ α} {next : α → Procedure σ β} {broken : Fault → Prop}
    (fails : p.Ends c broken fun _ _ => False) : (p >>= next).Ends c broken fun _ _ => False :=
  .bind fails (fun _ _ => id) fun _ _ => False.elim

omit [Theory σ] in
theorem freshAtom_fails (not : ¬Generator.IsLikelihood c.settings.polarityBias.value) :
    (freshAtom : Procedure σ Atom).Ends c (· = .notAProbability) fun _ _ => False :=
  .get_bind (chance_fails not).bind_fails

omit [Theory σ] in
theorem freshAtom_draws : (freshAtom : Procedure σ Atom).Ends c
    (fun _ => ¬Generator.IsLikelihood c.settings.polarityBias.value) fun _ _ => True :=
  .get_bind (.bind (chance_ends _) (fun _ _ _ => trivial) fun _ _ _ =>
    .get_bind (.ofExcept_bind (fun _ _ => trivial) fun _ _ => .modify_bind (.modify_bind (.pure trivial))))

variable {broken : Fault → Prop}

theorem preprocess_alone (alone : c.theories.members = []) :
    (preprocess : Procedure σ Unit).Ends c broken fun result after =>
      result = .ok () ∧ after.theories.schedule = c.theories.schedule ∧ after.settings = c.settings := by
  refine .get_bind (.ofFaulty_bind ?_ ?_) <;> rw [Registry.preprocess, Registry.changeAll, alone]
  · nofun
  · rintro theories ⟨⟩
    exact .modify ⟨rfl, rfl, rfl⟩

/-- Without theories to ask, a decision starts with a draw. -/
theorem makeDecision_fails (scheduled : c.theories.IsScheduled) (alone : c.theories.members = [])
    (not : ¬Generator.IsLikelihood c.settings.randomDecisionBias.value) :
    (makeDecision : Procedure σ Decision).Ends c (· = .notAProbability) fun _ _ => False := by
  refine .bind (preprocess_alone alone) (fun _ _ => nofun) fun _ after ⟨_, schedule, same⟩ => ?_
  have order : after.theories.schedule.order = [] := by
    rw [schedule, Schedule.order, scheduled, alone]
    rfl
  refine .get_bind ?_
  rw [order]
  rw [← same] at not
  refine .bind (m := fun result mid => result = .ok none ∧ mid = after) (.pure ⟨rfl, rfl⟩) (fun _ _ => nofun) ?_
  rintro _ _ ⟨⟨⟩, rfl⟩
  exact .bind_fails (.get_bind (chance_fails not).bind_fails)

end Procedure

variable [Theory.TakesNoChances σ]

namespace Session

variable {s s' : Session σ} {command : Command σ} {result : Except Error Answer} {cause : Fault}

/-- What a command does to the settings. -/
theorem step_follows (scheduled : s.context.theories.IsScheduled) (taken : s.step command = .ok (result, s')) :
    s'.context.theories.IsScheduled ∧
      (s.context.settings.OthersInBounds → s'.context.settings.OthersInBounds) ∧ ∀ o : DoubleSetting,
        (o.of s.context.settings).Follows (command.gave o result) (o.of s'.context.settings) := by
  by_cases other : ∀ change, command ≠ .changeSetting change
  · obtain ⟨same, scheduled'⟩ : s'.context.Keeps s.context.settings :=
      step_of_ends (command.steady s.kept other s.context ⟨rfl, scheduled⟩) taken
    have nothing (o : DoubleSetting) : command.gave o result = none := by
      cases command with
      | changeSetting change => exact absurd rfl (other change)
      | _ => rfl
    rw [same]
    refine ⟨scheduled', id, fun o => ?_⟩
    rw [nothing o]
    exact .refl
  · obtain ⟨change, changes⟩ := not_forall.mp other
    obtain rfl := not_not.mp changes
    rcases Command.changeSetting_effect change s.kept result s'.context (step_eq_ok taken).1 with
      ⟨settings, rfl, changed, after⟩ | ⟨e, rfl, _, after⟩
    · rw [after]
      exact ⟨scheduled, Settings.changed_follows changed⟩
    · rw [after]
      exact ⟨scheduled, id, fun o => .refl⟩

/-- What the commands of a run do to the settings. -/
theorem run_follows {commands : List (Command σ)} {results : List (Except Error Answer)}
    (scheduled : s.context.theories.IsScheduled) (ran : s.run commands = .ok (results, s')) :
    s'.context.theories.IsScheduled ∧
      (s.context.settings.OthersInBounds → s'.context.settings.OthersInBounds) ∧ ∀ o : DoubleSetting,
        (o.of s.context.settings).Follows (lastGiven o (commands.zip results)) (o.of s'.context.settings) := by
  induction commands generalizing s results with
  | nil =>
    cases ran
    exact ⟨scheduled, id, fun o => .refl⟩
  | cons command rest ih =>
    obtain ⟨⟨result, between⟩, taken, ran⟩ := Except.bind_eq_ok ran
    obtain ⟨⟨others, last⟩, ran, same⟩ := Except.bind_eq_ok ran
    cases same
    obtain ⟨scheduled, first, doubles⟩ := step_follows scheduled taken
    obtain ⟨scheduled, later, doubles'⟩ := ih scheduled ran
    refine ⟨scheduled, later ∘ first, fun o => ?_⟩
    rw [List.zip_cons_cons, lastGiven_cons]
    exact (doubles o).trans (doubles' o)

/-- Where the settings are likelihoods, no command fails for want of one. -/
theorem step_ne_notAProbability (scheduled : s.context.theories.IsScheduled)
    (valid : s.context.settings.AreLikelihoods) (command : Command σ) : s.step command ≠ .error .notAProbability := by
  intro failed
  have failed := step_eq_error.mp failed
  by_cases other : ∀ change, command ≠ .changeSetting change
  · have ends := command.steady s.kept other s.context ⟨rfl, scheduled⟩
    unfold Procedure.Ends at ends
    rw [failed] at ends
    exact ends rfl valid
  · obtain ⟨change, changes⟩ := not_forall.mp other
    obtain rfl := not_not.mp changes
    have ends : ((Command.changeSetting change : Command σ).procedure s.kept).Ends s.context (fun _ => False)
        fun _ _ => True :=
      .get_bind (.ofExcept_bind (fun _ _ => trivial) fun _ _ => trivial)
    unfold Procedure.Ends at ends
    rw [failed] at ends
    exact ends

section Draws

variable {α : Type} {p : Procedure σ α} {f : α → Answer} {broken : Fault → Prop}

omit [Theory.TakesNoChances σ] in
theorem broken_of_step_eq_error {post : Except Error α → Context σ → Prop} (ends : p.Ends s.context broken post)
    (same : command.procedure s.kept = p >>= fun a => pure (f a)) (failed : s.step command = .error cause) :
    broken cause := by
  have ends : (p >>= fun a => pure (f a)).Ends s.context broken fun _ _ => True :=
    .bind ends (fun _ _ _ => trivial) fun _ _ _ => .pure trivial
  rw [step_eq_error, same] at failed
  unfold Procedure.Ends at ends
  rwa [failed] at ends

omit [Theory.TakesNoChances σ] in
theorem step_eq_error_of_ends (fails : p.Ends s.context (· = cause) fun _ _ => False)
    (same : command.procedure s.kept = p >>= fun a => pure (f a)) : s.step command = .error cause := by
  have fails : (p >>= fun a => pure (f a)).Ends s.context (· = cause) fun _ _ => False := fails.bind_fails
  rw [step_eq_error, same]
  unfold Procedure.Ends at fails
  split at fails
  · exact fails.elim
  · rename_i ran
    rw [ran, fails]

end Draws

/-- Whatever commands are taken from the usual settings on, all values lie between their bounds but doubles that are
not numbers: a setting has one just if that was the last double to be accepted for it. A command fails for want of a
likelihood only if a setting of one was last given what is not a number, and then those that draw against it do. -/
theorem inBounds_iff_lastGiven {verify : Bool} {commands : List (Command σ)} {results : List (Except Error Answer)}
    (ran : (ofSettings (.usual verify)).run commands = .ok (results, s)) :
    s.context.settings.OthersInBounds ∧
      (∀ o : DoubleSetting, (o.of s.context.settings).InBounds ↔
        ∀ value, lastGiven o (commands.zip results) = some value → value.isNaN = false) ∧
      (∀ command, s.step command = .error .notAProbability →
        ∃ value, (lastGiven .polarityBias (commands.zip results) = some value ∨
          lastGiven .randomDecisionBias (commands.zip results) = some value) ∧ value.isNaN = true) ∧
      (s.step .freshAtom = .error .notAProbability ↔
        ∃ value, lastGiven .polarityBias (commands.zip results) = some value ∧ value.isNaN = true) ∧
      (s.context.theories.members = [] →
        (∃ value, lastGiven .randomDecisionBias (commands.zip results) = some value ∧ value.isNaN = true) →
        s.step .makeDecision = .error .notAProbability) := by
  have initial : (ofSettings (.usual verify) : Session σ).context.theories.IsScheduled := rfl
  obtain ⟨scheduled, others, doubles⟩ := run_follows initial ran
  obtain ⟨initial, before⟩ := Settings.usual_inBounds verify
  have polarity := (doubles .polarityBias).isLikelihood_iff (before _) rfl rfl
  have random := (doubles .randomDecisionBias).isLikelihood_iff (before _) rfl rfl
  have absent {given : Option Float} : (∀ value, given = some value → value.isNaN = false) ↔
      ¬∃ value, given = some value ∧ value.isNaN = true := by
    simp only [not_exists, not_and, Bool.not_eq_true]
  rw [absent] at polarity random
  refine ⟨others initial, fun o => (doubles o).inBounds_iff (before o), fun command failed => ?_,
    ⟨fun failed => ?_, fun given => ?_⟩, fun alone given => ?_⟩
  · by_contra numbers
    refine step_ne_notAProbability scheduled ⟨polarity.mpr fun ⟨value, given, isNaN⟩ => ?_,
      random.mpr fun ⟨value, given, isNaN⟩ => ?_⟩ command failed
    · exact numbers ⟨value, .inl given, isNaN⟩
    · exact numbers ⟨value, .inr given, isNaN⟩
  · by_contra numbers
    exact broken_of_step_eq_error Procedure.freshAtom_draws rfl failed (polarity.mpr numbers)
  · exact step_eq_error_of_ends (Procedure.freshAtom_fails fun likelihood => polarity.mp likelihood given) rfl
  · exact step_eq_error_of_ends
      (Procedure.makeDecision_fails scheduled alone fun likelihood => random.mp likelihood given) rfl

end Session

/-- What is not a number is accepted for a likelihood where a number out of bounds is not, and no atom can be added
after it. -/
theorem Session.inBounds_iff_lastGiven_of_isNaN :
    let nan : Float := .ofBits 0x7ff8000000000000
    let commands : List (Command AtMost) :=
      [.changeSetting (.polarityBias 0.5), .changeSetting (.polarityBias 1.5), .changeSetting (.polarityBias nan)]
    ∃ s, (ofSettings (.usual true)).run commands =
        .ok ([.ok .done, .error (.setting .outOfBounds), .ok .done], s) ∧ nan.isNaN = true ∧
      ¬(DoubleSetting.of s.context.settings .polarityBias).InBounds ∧
      s.step .freshAtom = .error .notAProbability := by
  intro nan commands
  obtain ⟨results, s, ran, answered⟩ := of_run_any (ofSettings (.usual true)) commands
    (fun outcome => decide (outcome.1 = [.ok .done, .error (.setting .outOfBounds), .ok .done])) (by decide)
  obtain rfl := of_decide_eq_true answered
  have isNaN : nan.isNaN = true := by decide
  obtain ⟨_, bounds, _, fails, _⟩ := inBounds_iff_lastGiven ran
  refine ⟨s, ran, isNaN, fun inside => ?_, fails.mpr ⟨nan, rfl, isNaN⟩⟩
  have isNumber := (bounds .polarityBias).mp inside nan rfl
  rw [isNaN] at isNumber
  cases isNumber

end Runs

end SatModulo
