import SatModulo.Clause

/-!
# Errors

The causes for which an operation is refused or given up, by the part that finds them, and the text of each. An
error leaves the state as it was when the cause was found. The causes are listed in `SPEC_FULL.md`, lines 103 to
107 and 135.
-/
namespace SatModulo

/-- Analysis of a conflict was given up. -/
inductive AnalysisError where
  /-- The trail ended before one literal of the level was left. -/
  | emptyResolution
  /-- No literal of the conflict was valued at the level it was analysed at. -/
  | noConflictAtLevel
  /-- A literal to be resolved on had no reason, or a literal no value. -/
  | missingReason
  deriving DecidableEq, Repr

/-- An atom could not be used. -/
inductive AtomError where
  | exhausted
  | unknown
  deriving DecidableEq, Repr

/-- Propagation of clauses stopped. -/
inductive PropagationError where
  /-- Every literal of the clause is false. -/
  | conflict (key : ClauseKey)
  /-- The clause is missing, or forces an unknown atom. -/
  | corruptOccurrence (key : ClauseKey)
  deriving DecidableEq, Repr

/-- A clause was not stored or not found. -/
inductive ClauseError where
  | missing
  | emptyClause
  | storageExhausted
  | decisionMade
  deriving DecidableEq, Repr

/-- A setting was not changed. -/
inductive SettingError where
  | outOfBounds
  | invalidState
  deriving DecidableEq, Repr

/-- A theory was refused, or broke its part of the agreement with the core. -/
inductive TheoryError where
  | indexAlreadySet (index : Nat)
  | indexNotKept (index : Nat)
  | unknownTheory (index : Nat)
  | registrationAfterDecision
  | unfalsifiedConflict (index : Nat)
  | malformedReason (index : Nat)
  | checkPropagated (index : Nat)
  | checkSolved (index : Nat)
  deriving DecidableEq, Repr

/-- The causes of all parts. -/
inductive Error where
  | analysis (cause : AnalysisError)
  | atom (cause : AtomError)
  | propagation (cause : PropagationError)
  | clause (cause : ClauseError)
  | setting (cause : SettingError)
  /-- An atom was to be observed above level `0`. -/
  | solveInProgress
  | theory (cause : TheoryError)
  /-- A backjump level was asked of a clause with an atom without a value. -/
  | backjump
  /-- Solutions were asked for while no solution was known. -/
  | invalidState
  /-- An atom that should have had no value had one. -/
  | valuationConflict
  /-- The reader of an output went away. -/
  | brokenPipe
  deriving DecidableEq, Repr

namespace AnalysisError

def message : AnalysisError → String
  | .emptyResolution => "EmptyResolution"
  | .noConflictAtLevel => "NoConflictAtLevel"
  | .missingReason => "MissingReason"

end AnalysisError

namespace AtomError

def message : AtomError → String
  | .exhausted => "AtomsExhausted"
  | .unknown => "UnknownAtom"

end AtomError

namespace PropagationError

def message : PropagationError → String
  | .conflict key => "Conflict(" ++ key.text ++ ")"
  | .corruptOccurrence key => "CorruptOccurrence(" ++ key.text ++ ")"

end PropagationError

namespace ClauseError

def message : ClauseError → String
  | .missing => "Missing"
  | .emptyClause => "EmptyClause"
  | .storageExhausted => "StorageExhausted"
  | .decisionMade => "DecisionMade"

end ClauseError

namespace SettingError

def message : SettingError → String
  | .outOfBounds => "OutOfBounds"
  | .invalidState => "InvalidState"

end SettingError

namespace TheoryError

def message : TheoryError → String
  | .indexAlreadySet i => "IndexAlreadySet(" ++ toString i ++ ")"
  | .indexNotKept i => "IndexNotKept(" ++ toString i ++ ")"
  | .unknownTheory i => "UnknownTheory(" ++ toString i ++ ")"
  | .registrationAfterDecision => "RegistrationAfterDecision"
  | .unfalsifiedConflict i => "UnfalsifiedConflict(" ++ toString i ++ ")"
  | .malformedReason i => "MalformedReason(" ++ toString i ++ ")"
  | .checkPropagated i => "CheckPropagated(" ++ toString i ++ ")"
  | .checkSolved i => "CheckSolved(" ++ toString i ++ ")"

end TheoryError

namespace Error

/-- The text of an error; a cause that needs no words has none. -/
def message : Error → String
  | .analysis cause => cause.message
  | .atom cause => cause.message
  | .propagation cause => cause.message
  | .clause cause => cause.message
  | .setting cause => cause.message
  | .solveInProgress => "SolveInProgress"
  | .theory cause => cause.message
  | .backjump => ""
  | .invalidState => ""
  | .valuationConflict => ""
  | .brokenPipe => "BrokenPipe"

end Error

end SatModulo
