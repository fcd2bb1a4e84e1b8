import SatModulo.Error
import SatModulo.Host
import SatModulo.Phase

/-!
# Settings

A setting is a value with bounds and with the last stage at which it may be changed. The settings of a context
are a record of such values. The settings are those of `SPEC_FULL.md`, line 136.
-/
namespace SatModulo

/-- A value that can be set within bounds until a stage is over. -/
structure Setting (α : Type) where
  name : String
  least : α
  greatest : α
  /-- The last phase, up to its stage, in which the value can be changed. -/
  openUntil : Phase
  value : α
  deriving Repr

namespace Setting

/-- Changes the value. The stage is looked at before the bounds; a value that compares with neither
bound is within them. -/
def set {α : Type} [LT α] [DecidableLT α] (s : Setting α) (value : α) (phase : Phase) :
    Except SettingError (Setting α) :=
  if s.openUntil.stage < phase.stage then .error .invalidState
  else if value < s.least ∨ s.greatest < value then .error .outOfBounds
  else .ok { s with value }

end Setting

structure ScheduleSettings where
  /-- What the first bump adds. -/
  bump : Setting Float :=
    ⟨"theory_activity_bump", Float.ofBits 0x0010000000000000, 1e100, .configuration, 1.0⟩
  /-- How much of its weight an activity loses to each later bump. -/
  decay : Setting Float := ⟨"theory_activity_decay", 0.0, 0.5, .configuration, 0.05⟩
  /-- The activity above which all activities are scaled down. -/
  maximum : Setting Float := ⟨"theory_activity_max", 1.0, 1e150, .configuration, 1e100⟩
  deriving Repr

structure Settings where
  /-- Whether theories are asked to check fixpoints and solutions. -/
  checkTheories : Setting Bool := ⟨"check_theories", false, true, .input, true⟩
  /-- Whether a decision takes the last value of its atom. -/
  phaseSaving : Setting Bool := ⟨"phase_saving", false, true, .configuration, true⟩
  /-- The likelihood of true, where a value is drawn. -/
  polarityBias : Setting Float := ⟨"polarity_lean", 0.0, 1.0, .configuration, 0.0⟩
  /-- The likelihood that a decision is on a random atom. -/
  randomDecisionBias : Setting Float := ⟨"random_decision_bias", 0.0, 1.0, .configuration, 0.0⟩
  seed : Setting Nat := ⟨"rng_seed", 0, UInt64.size - 1, .configuration, 0⟩
  schedule : ScheduleSettings := {}
  /-- The time a search may take, in nanoseconds; `0` is no limit. -/
  timeLimit : Setting Nat :=
    ⟨"time_limit", 0, (UInt64.size - 1) * 1000000000 + 999999999, .input, 0⟩
  /-- What the settings are for. It is not changed. -/
  host : Host := {}

/-- A new value for one of the settings. -/
inductive SettingChange where
  | checkTheories (value : Bool)
  | phaseSaving (value : Bool)
  | polarityBias (value : Float)
  | randomDecisionBias (value : Float)
  | seed (value : Nat)
  | activityBump (value : Float)
  | activityDecay (value : Float)
  | activityMaximum (value : Float)
  | timeLimit (value : Nat)
  deriving Repr

namespace Settings

/-- Whether a search that has taken some time is to give up. -/
def expires (s : Settings) (elapsed : Nat) : Bool :=
  s.timeLimit.value != 0 && decide (s.timeLimit.value < elapsed)

def change (s : Settings) (phase : Phase) : SettingChange → Except SettingError Settings
  | .checkTheories value => do return { s with checkTheories := ← s.checkTheories.set value phase }
  | .phaseSaving value => do return { s with phaseSaving := ← s.phaseSaving.set value phase }
  | .polarityBias value => do return { s with polarityBias := ← s.polarityBias.set value phase }
  | .randomDecisionBias value => do
    return { s with randomDecisionBias := ← s.randomDecisionBias.set value phase }
  | .seed value => do return { s with seed := ← s.seed.set value phase }
  | .activityBump value => do
    return { s with schedule.bump := ← s.schedule.bump.set value phase }
  | .activityDecay value => do
    return { s with schedule.decay := ← s.schedule.decay.set value phase }
  | .activityMaximum value => do
    return { s with schedule.maximum := ← s.schedule.maximum.set value phase }
  | .timeLimit value => do return { s with timeLimit := ← s.timeLimit.set value phase }

end Settings

end SatModulo
