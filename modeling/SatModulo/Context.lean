import SatModulo.Atoms
import SatModulo.ClauseStore
import SatModulo.Random.Draw
import SatModulo.Theory.Registry

/-!
# Contexts

A context holds atoms, clauses and theories, and searches for a valuation that satisfies them together. Its
operations are procedures: each ends with a value or with an error, changes the context in either case, and may
end the run with a fault. The parts of a context and what is counted are in `SPEC_FULL.md`, lines 19 to 29 and
137.
-/
namespace SatModulo

structure Counters where
  conflicts : Nat := 0
  theoryConflicts : Nat := 0
  decisions : Nat := 0
  theoryDecisions : Nat := 0
  iterations : Nat := 0
  reasons : Nat := 0
  deriving DecidableEq, Repr

/-- Atoms, clauses and theories with the state of the search. -/
structure Context (σ : Type) where
  settings : Settings
  atoms : Atoms := {}
  clauses : ClauseStore := {}
  theories : Registry σ
  phase : Phase := .configuration
  random : Generator
  counters : Counters := {}

/-- An operation on a context. An error keeps what was changed before it; a fault leaves nothing. -/
abbrev Procedure (σ α : Type) := ExceptT Error (StateT (Context σ) (Except Fault)) α

namespace Context

variable {σ α ε : Type}

def ofSettings (settings : Settings) : Context σ where
  settings
  theories := .ofSettings settings.schedule
  random := .ofSeed settings.seed.value.toUInt64

def run (c : Context σ) (p : Procedure σ α) : Except Fault (Except Error α × Context σ) :=
  ExceptT.run p |>.run c

def report (c : Context σ) : Report := c.phase.report

def level (c : Context σ) : Nat := c.atoms.level

def valueOf (c : Context σ) (l : Literal) : Option Bool := c.atoms.valueOf l

def priority (c : Context σ) (i : Nat) : Except Error Int :=
  match c.theories.schedule.priority i with
  | some priority => .ok priority
  | none => .error (.theory (.unknownTheory i))

def activity (c : Context σ) (i : Nat) : Except Error Activity :=
  match c.theories.schedule.activity i with
  | some activity => .ok activity
  | none => .error (.theory (.unknownTheory i))

end Context

namespace Procedure

variable {σ α ε : Type}

/-- A result of one of the parts, with its errors among those of the context. -/
def ofExcept (wrap : ε → Error) : Except ε α → Procedure σ α
  | .ok a => pure a
  | .error e => throw (wrap e)

/-- A value that may be a fault instead. -/
def ofFaulty (x : Except Fault α) : Procedure σ α := ExceptT.lift (StateT.lift x)

def setAtoms (atoms : Atoms) : Procedure σ Unit := modify fun c => { c with atoms }

def setTheories (theories : Registry σ) : Procedure σ Unit := modify fun c => { c with theories }

def setPhase (phase : Phase) : Procedure σ Unit := modify fun c => { c with phase }

/-- Notes that something was added. -/
def begin : Procedure σ Unit := modify fun c => { c with phase := c.phase.begun }

def count (f : Counters → Counters) : Procedure σ Unit :=
  modify fun c => { c with counters := f c.counters }

/-- Draws a truth value of the given likelihood. -/
def chance (p : Float) : Procedure σ Bool := do
  let c ← get
  let (answer, random) ← ofFaulty (c.settings.host.sampler.chance p c.random)
  modify fun c => { c with random }
  return answer

def assign (l : Literal) (reason : Reason) : Procedure σ Status := do
  let (status, atoms) ← ofExcept .atom ((← get).atoms.assign l reason)
  setAtoms atoms
  return status

def deliverAll [Theory σ] : Procedure σ Unit := do
  let c ← get
  setTheories (← ofFaulty (c.theories.deliverAll c.atoms.trail))

end Procedure

end SatModulo
