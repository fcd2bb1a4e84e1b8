import SatModulo.Context

/-!
# Unit propagation

Draws the consequences of clauses. The literals of the trail past its head are taken one by one, and each clause
in which the negation of the literal occurs is looked at: a clause with every literal false is a conflict, and a
clause with one literal left makes that literal true. This is the first half of a round in `SPEC_FULL.md`, lines
81 and 143.
-/
namespace SatModulo

/-- How propagation of clauses ended: at a fixpoint, or with an error that names a clause. -/
abbrev Propagated := Except PropagationError Unit

namespace ClauseStore

/-- Looks at the clauses of the given keys in turn. -/
def visit (store : ClauseStore) : List ClauseKey → Atoms → Propagated × Atoms
  | [], s => (.ok (), s)
  | key :: rest, s =>
    match store.get? key with
    | none => (.error (.corruptOccurrence key), s)
    | some c =>
      match c.stateOn s.value with
      | .unforced => visit store rest s
      | .falsified => (.error (.conflict key), s)
      | .unit l =>
        match s.assign l (.clause key) with
        | .ok (_, s) => visit store rest s
        | .error _ => (.error (.corruptOccurrence key), s)

/-- Propagates up to a number of literals. The head passes a literal when all its clauses have been
looked at. -/
def propagateWithin (store : ClauseStore) : Nat → Atoms → Propagated × Atoms
  | 0, s => (.ok (), s)
  | fuel + 1, s =>
    match s.trail.next with
    | none => (.ok (), s)
    | some l =>
      match visit store (store.occurrences l.negate) s with
      | (.ok _, s) =>
        propagateWithin store fuel { s with trail := { s.trail with head := s.trail.head + 1 } }
      | stopped => stopped

/-- Propagates to a fixpoint or to a conflict. Each literal is taken once, and the trail grows only by
atoms that had no value, so the literals to come and the atoms without a value bound the steps. -/
def propagate (store : ClauseStore) (s : Atoms) : Propagated × Atoms :=
  propagateWithin store (s.unvalued.length + (s.trail.length - s.trail.head) + 1) s

end ClauseStore

namespace Procedure

variable {σ : Type}

/-- Propagates clauses to a fixpoint; a conflict is an error. -/
def propagateUnits : Procedure σ Unit := do
  let c ← get
  let (outcome, atoms) := c.clauses.propagate c.atoms
  setAtoms atoms
  ofExcept .propagation outcome

/-- Propagates clauses, and gives the clause of a conflict. -/
def propagateClauses : Procedure σ (Option ClauseKey) := do
  let c ← get
  let (outcome, atoms) := c.clauses.propagate c.atoms
  setAtoms atoms
  match outcome with
  | .ok _ => return none
  | .error (.conflict key) => return some key
  | .error (.corruptOccurrence key) => throw (.propagation (.corruptOccurrence key))

end Procedure

end SatModulo
