/-!
# Phases and reports

What a context is at, the stages by which settings are closed, and what may be reported. The reports are those
of `SPEC_FULL.md`, line 138.
-/
namespace SatModulo

/-- What a context is at. -/
inductive Phase where
  /-- Nothing has been added yet. -/
  | configuration
  /-- Atoms, clauses and theories are being added. -/
  | input
  /-- Something has been decided. -/
  | solving
  /-- Every atom has a value and every theory agrees. -/
  | satisfiable
  /-- No valuation satisfies the clauses and the theories. -/
  | unsatisfiable
  deriving DecidableEq, Repr

/-- What is known of the clauses and theories of a context. -/
inductive Report where
  | satisfiable
  | unsatisfiable
  | unknown
  deriving DecidableEq, Repr

namespace Report

def text : Report → String
  | .satisfiable => "Satisfiable"
  | .unsatisfiable => "Unsatisfiable"
  | .unknown => "Unknown"

end Report

namespace Phase

/-- The order of phases that settings go by: after input all phases count alike. -/
def stage : Phase → Nat
  | .configuration => 0
  | .input => 1
  | .solving | .satisfiable | .unsatisfiable => 2

def text : Phase → String
  | .configuration => "Configuration"
  | .input => "Input"
  | .solving => "Solving"
  | .satisfiable => "Satisfiable"
  | .unsatisfiable => "Unsatisfiable"

/-- What a phase lets be reported. -/
def report : Phase → Report
  | .configuration | .input | .solving => .unknown
  | .satisfiable => .satisfiable
  | .unsatisfiable => .unsatisfiable

/-- The phase after something was added: the time for settings is over. -/
def begun : Phase → Phase
  | .configuration => .input
  | phase => phase

end Phase

end SatModulo
