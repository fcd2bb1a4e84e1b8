import SatModulo.Search.Decision
import SatModulo.Search.TheoryTurn
import SatModulo.Search.UnitPropagation

/-!
# The search

Consequences are drawn from clauses and theories until there are no more, then a literal is decided; a conflict
is recovered from, until none is left and every atom has a value, or until a conflict at the base level shows
that there is no solution. The loop and its rounds are in `SPEC_FULL.md`, lines 29, 80 to 81 and 145 to 146.
-/
namespace SatModulo

namespace Procedure

variable {σ : Type} [Theory σ]

/-- Gives the theories of a round their turns. After a turn that made a literal true, clauses are
propagated and theories told. Gives the first conflict, or whether any turn made a literal true. -/
def takeTurns : List Nat → Bool → Procedure σ (Except Conflict Bool)
  | [], assigned => return .ok assigned
  | i :: rest, assigned => do
    let start := (← get).atoms.trail.length
    match ← propagateTheory i with
    | some conflict => return .error conflict
    | none =>
      if start < (← get).atoms.trail.length then
        match ← propagateClauses with
        | some key => return .error (.clause key)
        | none =>
          deliverAll
          takeTurns rest true
      else takeTurns rest assigned

/-- Goes through rounds until a round makes no literal true. -/
def roundsWithin : Nat → Procedure σ (Option Conflict)
  | 0 => return none
  | fuel + 1 => do
    match ← propagateClauses with
    | some key => return some (.clause key)
    | none =>
      deliverAll
      match ← takeTurns (← get).theories.schedule.order false with
      | .error conflict => return some conflict
      | .ok true => roundsWithin fuel
      | .ok false => return none

/-- Draws all consequences, and gives the conflict if there is one. A round that is followed by another
gave a value to an atom, so there are at most as many as atoms without a value, and one. -/
def propagate : Procedure σ (Option Conflict) := do
  match ← roundsWithin ((← get).atoms.unvalued.length + 1) with
  | some conflict => return some conflict
  | none =>
    if (← get).settings.checkTheories.value then checkPropagated
    return none

/-- What an iteration of the search comes to: an answer, or that the search goes on. Past the time limit it is not
known whether there is a solution. -/
def iterate : Procedure σ (Option Report) := do
  count fun n => { n with iterations := n.iterations + 1 }
  let c ← get
  if c.settings.expires (c.settings.host.clock c.counters.iterations) then return some .unknown
  else
    match ← propagate with
    | some conflict => recoverFrom conflict
    | none =>
      let c ← get
      let (_, theories) ← ofFaulty (c.theories.clearSatisfied c.atoms.trail)
      setTheories theories
      match ← makeDecision with
      | .decided _ => return none
      | .exhausted =>
        match ← finalCheck with
        | .satisfied =>
          setPhase .satisfiable
          return some .satisfiable
        | .assigned => return none
        | .conflict conflict => recoverFrom conflict
where
  /-- Recovers from a conflict; without recovery there is no solution. -/
  recoverFrom (conflict : Conflict) : Procedure σ (Option Report) := do
    match ← recover conflict with
    | .unsatisfiable => return some .unsatisfiable
    | .asserted _ _ _ => return none

def iterateWithin : Nat → Procedure σ Report
  | 0 => return .unknown
  | fuel + 1 => do
    match ← iterate with
    | some report => return report
    | none => iterateWithin fuel

/-- A bound on the iterations of a search on a number of atoms. Each iteration that is followed by
another raises the counts of assignments per level in the lexicographic order, and there are fewer such
lists of counts than this. -/
def iterationBound (atoms : Nat) : Nat := Nat.pow (atoms + 2) (atoms + 2)

/-- Searches for a valuation that satisfies the clauses and the theories. -/
def solve : Procedure σ Report := do
  if (← get).phase = .unsatisfiable then return .unsatisfiable
  preprocess
  setPhase .solving
  iterateWithin (iterationBound (← get).atoms.count)

end Procedure

end SatModulo
