import SatModulo.Context

/-!
# Building a context

Adding atoms, clauses and theories, and changing the standing of theories. Clauses, theories and observed atoms
are added at the base level only. What is done with a clause is in `SPEC_FULL.md`, line 142, and with a theory
in lines 46 and 96.
-/
namespace SatModulo

inductive ClauseOutcome where
  | added (key : ClauseKey)
  /-- Every valuation satisfies the clause, so it was left out. -/
  | tautology
  /-- Every literal of the clause is false at the base level. -/
  | unsatisfiable
  deriving DecidableEq, Repr

namespace Procedure

variable {σ : Type}

/-- Adds an atom. Its first value is drawn, also if no atom can be added. -/
def freshAtom : Procedure σ Atom := do
  let previous ← chance (← get).settings.polarityBias.value
  let (atom, atoms) ← ofExcept .atom ((← get).atoms.fresh previous)
  setAtoms atoms
  begin
  return atom

/-- Adds an atom, or settles for the greatest one. -/
def freshOrMaxAtom : Procedure σ Atom :=
  tryCatch freshAtom fun _ => return maxAtom

/-- Adds a number of atoms, and gives their positive literals. -/
def freshLiterals : Nat → Procedure σ (List Literal)
  | 0 => return []
  | n + 1 => do
    let atom ← freshOrMaxAtom
    return .positive atom :: (← freshLiterals n)

def freshAtoms : Nat → Procedure σ Unit
  | 0 => return
  | n + 1 => do
    let _ ← freshAtom
    freshAtoms n

/-- Adds atoms until the given one is known. -/
def ensureAtom (a : Atom) : Procedure σ Unit := do
  freshAtoms (a + 1 - (← get).atoms.count)

/-- Adds atoms until every atom of a clause is known. -/
def ensureAtoms : Clause → Procedure σ Unit
  | [] => return
  | l :: rest => do
    ensureAtom l.atom
    ensureAtoms rest

/-- Adds a clause at the base level. A clause that forces a literal makes it true at once; a clause
whose literals are all false is kept and settles the search. -/
def addClause (clause : Clause) : Procedure σ ClauseOutcome := do
  if (← get).level ≠ 0 then throw (.clause .decisionMade)
  ensureAtoms clause
  match ← ofFaulty clause.normalise with
  | none => return .tautology
  | some [] =>
    setPhase .unsatisfiable
    return .unsatisfiable
  | some clause =>
    let state := clause.stateOn (← get).atoms.value
    let (key, clauses) ← ofExcept .clause ((← get).clauses.store clause false)
    modify fun c => { c with clauses }
    begin
    match state with
    | .unit l =>
      let _ ← assign l (.clause key)
      return .added key
    | .falsified =>
      setPhase .unsatisfiable
      return .unsatisfiable
    | .unforced => return .added key

/-- Registers a theory at the base level, and gives its index. -/
def addTheory [Theory σ] (theory : σ) : Procedure σ Nat := do
  let c ← get
  if c.level ≠ 0 then throw (.theory .registrationAfterDecision)
  let (outcome, theories) := c.theories.register theory
  setTheories theories
  let index ← ofExcept .theory outcome
  begin
  return index

/-- Lets a theory observe an atom, at the base level. If the atom got its value on a part of the trail
that was handed over already, the theory is told at once; that part must still be there. -/
def observe [Theory σ] (i : Nat) (a : Atom) : Procedure σ Unit := do
  let c ← get
  if c.level ≠ 0 then throw .solveInProgress
  if c.atoms.count ≤ a then throw (.atom .unknown)
  let (isNew, theories) ← ofExcept .theory (c.theories.observe i a)
  setTheories theories
  if isNew then
    let (_, theories) ← ofFaulty (theories.changeAt i fun m =>
      if c.atoms.trail.length < m.head then .error .trailTooShort
      else
        match (c.atoms.trail.literals.take m.head).find? fun l => l.atom == a with
        | none => .ok ((), m, [])
        | some l => do
          let theory ← Theory.enqueue l m.theory
          return ((), { m with theory }, [.enqueue l]))
    setTheories theories

def setPriority (i : Nat) (priority : Int) : Procedure σ Unit := do
  let c ← get
  let schedule ← ofExcept .theory (c.theories.schedule.setPriority i priority)
  setTheories { c.theories with schedule }

def setActivity (i : Nat) (activity : Activity) : Procedure σ Unit := do
  let c ← get
  let schedule ← ofExcept .theory (c.theories.schedule.setActivity i activity)
  setTheories { c.theories with schedule }

end Procedure

end SatModulo
