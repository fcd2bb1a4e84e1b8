import SatModulo.Search.Conflict

/-!
# Turns of theories in a search

A theory has its turn in a round of propagation and in the final check, when every atom has a value. What it
answers is checked: a conflict must be false, and theories can be asked whether they agree that a fixpoint is
one, or a solution. The turns are in `SPEC_FULL.md`, lines 61 to 63 and 81, the checks in lines 101 and 106.
-/
namespace SatModulo

inductive FinalCheck where
  /-- Every theory agrees with the valuation. -/
  | satisfied
  /-- A theory made some literal true. -/
  | assigned
  | conflict (c : Conflict)
  deriving DecidableEq, Repr

namespace Procedure

variable {σ : Type} [Theory σ]

/-- Takes note of a conflict that a theory gave. It counts as activity of the theory. -/
def acceptConflict (i : Nat) (clause : Clause) : Procedure σ Conflict := do
  let c ← get
  if clause.falsifiedOn c.atoms.value then
    count fun n => { n with theoryConflicts := n.theoryConflicts + 1 }
    setTheories { c.theories with schedule := c.theories.schedule.bumpBy c.settings.host.conventions i }
    return .theory i clause
  else throw (.theory (.unfalsifiedConflict i))

/-- Lets a member take a turn on the atoms, after a flush if it makes use of one, and gives the
conflict and the atoms as they are then. -/
def memberTurn (i : Nat) (turn : σ → Turn (Option Clause × σ))
    (call : Nat → List Literal → Option Clause → Call) (s : Atoms) (m : Member σ) :
    Except Fault ((Option Clause × Atoms) × Member σ × List Call) := do
  let deferred := m.capabilities.deferredEnqueue
  let theory := if deferred then Theory.flush s m.theory else m.theory
  let ((conflict, theory), after) ← (turn theory).run i s
  let valued := after.trail.literals.drop s.trail.length
  return ((conflict, after), { m with theory },
    (if deferred then [.flush s.level s.trail.length] else []) ++ [call s.level valued conflict])

/-- Lets a theory take a turn, and gives its conflict if it found one. -/
def takeTurn (i : Nat) (turn : σ → Turn (Option Clause × σ))
    (call : Nat → List Literal → Option Clause → Call) : Procedure σ (Option Conflict) := do
  let c ← get
  let (outcome, theories) ← ofFaulty (c.theories.changeAt i (memberTurn i turn call c.atoms))
  match outcome with
  | none => throw (.theory (.unknownTheory i))
  | some (conflict, atoms) =>
    setAtoms atoms
    setTheories theories
    match conflict with
    | none => return none
    | some clause => return some (← acceptConflict i clause)

def propagateTheory (i : Nat) : Procedure σ (Option Conflict) := takeTurn i Theory.propagate .propagate

/-- Asks the theories of the given indices in turn whether they agree, up to the first that does
not. -/
def checkEach (check : Atoms → σ → Except Fault Bool) (call : Bool → Call)
    (error : Nat → TheoryError) : List Nat → Procedure σ Unit
  | [] => return
  | i :: rest => do
    let c ← get
    let (answer, theories) ← ofFaulty (c.theories.changeAt i fun m => do
      let answer ← check c.atoms m.theory
      return (answer, m, [call answer]))
    setTheories theories
    if answer = some false then throw (.theory (error i))
    else checkEach check call error rest

def checkPropagated : Procedure σ Unit := do
  checkEach Theory.checkPropagated .checkPropagated .checkPropagated
    (List.range (← get).theories.count)

def checkSolved : Procedure σ Unit := do
  checkEach (fun s theory => .ok (Theory.checkSolved s theory)) .checkSolved .checkSolved
    (List.range (← get).theories.count)

/-- Whether a theory hints that it is satisfied. Only a theory that gives hints is asked. The index is that
of a theory. -/
def hintsSatisfied (i : Nat) : Procedure σ Bool := do
  let c ← get
  let (answer, theories) ← ofFaulty (c.theories.changeAt i fun m =>
    if m.capabilities.satisfactionHint then do
      let answer ← Theory.isSatisfied m.theory
      return (answer, m, [.isSatisfied answer])
    else .ok (false, m, []))
  match answer with
  | none => ofFaulty (.error .outOfRange)
  | some answer =>
    setTheories theories
    return answer

/-- Lets theories solve in turn, until one finds a conflict or the trail is longer than it was at the
start. -/
def solveEach (start : Nat) : List Nat → Procedure σ FinalCheck
  | [] => return .satisfied
  | i :: rest => do
    if ← hintsSatisfied i then solveEach start rest
    else
      match ← takeTurn i Theory.solve .solve with
      | some conflict => return .conflict conflict
      | none =>
        if start < (← get).atoms.trail.length then return .assigned
        else solveEach start rest

/-- Lets every theory decide on a full valuation. -/
def finalCheck : Procedure σ FinalCheck := do
  deliverAll
  let c ← get
  match ← solveEach c.atoms.trail.length c.theories.schedule.order with
  | .satisfied =>
    if c.settings.checkTheories.value then checkSolved
    return .satisfied
  | outcome => return outcome

end Procedure

end SatModulo
