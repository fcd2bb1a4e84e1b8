import SatModulo.Context

/-!
# Conflicts

A conflict is a clause with every literal false. Analysis resolves it with the reasons of literals of the
current level, latest first, until one literal of the level is left: the clause so learnt is false too, and
after a return to the highest of its other levels it makes the negation of that literal true. Reasons are asked
for as `SPEC_FULL.md` says in lines 83 to 84; analysis and the level to return to are in line 143, and the
retracting of decisions in line 76.
-/
namespace SatModulo

/-- A clause that is false: a stored one, or one that a theory gave. -/
inductive Conflict where
  | clause (key : ClauseKey)
  | theory (index : Nat) (clause : Clause)
  deriving DecidableEq, Repr

inductive Learnt where
  /-- A clause of one literal. -/
  | unit (key : ClauseKey) (literal : Literal)
  /-- A clause that makes the literal true after a return to the level. -/
  | asserting (key : ClauseKey) (literal : Literal) (level : Nat)
  deriving DecidableEq, Repr

inductive Recovery where
  | unsatisfiable
  /-- A clause was learnt and makes a literal true at a level, which is the current one now. -/
  | asserted (key : ClauseKey) (literal : Literal) (level : Nat)
  deriving DecidableEq, Repr

/-- The two largest of some numbers, where a number that occurs twice counts twice. -/
def twoLargest (levels : List Nat) : Nat × Nat :=
  levels.foldl (fun (first, second) level => (max first level, max second (min first level))) (0, 0)

namespace Atoms

/-- The level to return to so that one literal of a clause can be made true: the second largest of the
levels of its literals, or the base if there are fewer than two. -/
def backjumpLevel (s : Atoms) (clause : Clause) : Except Error Nat := do
  let levels ← clause.mapM fun l =>
    match s.levelOf l.atom with
    | some level => .ok level
    | none => .error .backjump
  return (twoLargest levels).2

/-- The position on the trail of the literal of an atom. -/
def positionOf (s : Atoms) (a : Atom) : Option Nat := s.trail.literals.findIdx? fun l => l.atom == a

/-- Whether an atom got its value before another one at the same level. -/
def assignedBefore (s : Atoms) (earlier later : Atom) : Bool :=
  match s.positionOf earlier, s.positionOf later with
  | some i, some j => i < j
  | _, _ => false

/-- Whether a literal is false, and was before another one got its value at the given level. -/
def falseBefore (s : Atoms) (l : Literal) (level : Nat) (other : Literal) : Bool :=
  other.valueOn s.value == some false &&
    match s.levelOf other.atom with
    | none => false
    | some otherLevel =>
      otherLevel < level || (otherLevel == level && s.assignedBefore other.atom l.atom)

/-- Whether a clause is a reason for a literal: it contains the literal, and every other literal was
false before the literal became true. -/
def isReason (s : Atoms) (l : Literal) (clause : Clause) : Bool :=
  match s.levelOf l.atom with
  | none => false
  | some level => clause.contains l && clause.all fun other => other == l || s.falseBefore l level other

end Atoms

/-- The state of a resolution: the atoms met so far, the literals below the current level in the order
in which they were met, and the number of literals at the level that have not been resolved on. -/
structure Resolvent where
  seen : List Atom := []
  lower : List Literal := []
  pending : Nat := 0
  deriving DecidableEq, Repr

namespace Resolvent

/-- Adds a literal, unless its atom was met before. -/
def add (s : Atoms) (r : Resolvent) (l : Literal) : Except Error Resolvent :=
  if l.atom ∈ r.seen then .ok r
  else if s.count ≤ l.atom then .error (.atom .unknown)
  else
    match s.levelOf l.atom with
    | none => .error (.analysis .missingReason)
    | some level =>
      if level = s.level then .ok { r with seen := l.atom :: r.seen, pending := r.pending + 1 }
      else .ok { r with seen := l.atom :: r.seen, lower := r.lower ++ [l] }

/-- Whether an atom was met before. There are marks for known atoms only. -/
def isMarked (s : Atoms) (r : Resolvent) (a : Atom) : Except Fault Bool :=
  if a < s.count then .ok (decide (a ∈ r.seen)) else .error .outOfRange

def addAll (s : Atoms) (r : Resolvent) (clause : Clause) : Except Error Resolvent :=
  clause.foldlM (add s) r

end Resolvent

namespace Procedure

variable {σ : Type} [Theory σ]

/-- Takes back every level above the given one: first word of decisions on proposals, then the trail,
then the theories. A level that is not below the current one changes nothing. -/
def backjump (level : Nat) : Procedure σ Unit := do
  let c ← get
  if level < c.level then
    let theories ← ofFaulty (c.theories.retractAbove level)
    let atoms := (c.atoms.forgetAbove level).2
    let theories ← ofFaulty (theories.backtrack level atoms.trail)
    setAtoms atoms
    setTheories theories

/-- Returns to the base level and to input, unless the context is known to be unsatisfiable. -/
def clearDecisions : Procedure σ Unit := do
  backjump 0
  if (← get).phase ≠ .unsatisfiable then setPhase .input

/-- The reason for a literal. A theory is asked for its reason only now; the asking counts as activity,
and the answer is checked. -/
def reasonFor (l : Literal) : Procedure σ Clause := do
  let c ← get
  match c.atoms.reasonOf l.atom with
  | some (.clause key) => ofExcept .clause (c.clauses.get key)
  | some (.theory i marker) =>
    let (reason, theories) ← ofFaulty (c.theories.changeAt i fun m => do
      let (reason, theory) ← Theory.buildReason l marker m.theory
      return (reason, { m with theory }, [.buildReason l marker reason]))
    match reason with
    | none => throw (.theory (.unknownTheory i))
    | some reason =>
      setTheories { theories with schedule := theories.schedule.bumpBy c.settings.host.conventions i }
      count fun n => { n with reasons := n.reasons + 1 }
      if c.atoms.isReason l reason then return reason
      else throw (.theory (.malformedReason i))
  | some .decision | none => throw (.analysis .missingReason)

/-- Resolves along the trail, from below a position down, until one literal of the level is left, and gives
that literal and the literals of lower levels. -/
def resolve (trail : List Literal) : Nat → Resolvent → Procedure σ (Literal × List Literal)
  | 0, _ => throw (.analysis .emptyResolution)
  | position + 1, r => do
    let l ← ofFaulty (entryAt trail position)
    if ← ofFaulty (r.isMarked (← get).atoms l.atom) then
      if r.pending ≤ 1 then return (l, r.lower)
      else
        let reason ← reasonFor l
        let r ← ofExcept id ({ r with pending := r.pending - 1 }.addAll (← get).atoms
          (reason.filter (· ≠ l)))
        resolve trail position r
    else resolve trail position r

/-- Learns a clause from a conflict at the current level. -/
def analyse (conflict : Clause) : Procedure σ Learnt := do
  let s := (← get).atoms
  let r ← ofExcept id (Resolvent.addAll s {} conflict)
  if r.pending = 0 then throw (.analysis .noConflictAtLevel)
  let (last, lower) ← resolve s.trail.literals s.trail.length r
  let clause := last.negate :: lower
  let level ← ofExcept id ((← get).atoms.backjumpLevel clause)
  let (key, clauses) ← ofExcept .clause ((← get).clauses.store clause true)
  modify fun c => { c with clauses }
  if lower.isEmpty then return .unit key last.negate
  else return .asserting key last.negate level

def conflictLevel (clause : Clause) : Procedure σ Nat := do
  let s := (← get).atoms
  let levels ← ofExcept id (clause.mapM fun l =>
    match s.levelOf l.atom with
    | some level => .ok level
    | none => .error (.analysis .noConflictAtLevel))
  return levels.foldl max 0

/-- Goes on after a conflict. At the base level nothing can be done. Otherwise the context returns to
the level of the conflict, learns a clause there, returns to the level that the clause gives, and makes
its literal true. -/
def recover (conflict : Conflict) : Procedure σ Recovery := do
  count fun n => { n with conflicts := n.conflicts + 1 }
  let clause ← match conflict with
    | .clause key => ofExcept .clause ((← get).clauses.get key)
    | .theory _ clause => pure clause
  let level ← conflictLevel clause
  if level = 0 then
    setPhase .unsatisfiable
    return .unsatisfiable
  backjump level
  let (key, literal, level) ← match ← analyse clause with
    | .unit key literal => pure (key, literal, 0)
    | .asserting key literal level => pure (key, literal, level)
  backjump level
  match ← assign literal (.clause key) with
  | .unset => return .asserted key literal level
  | _ => throw .valuationConflict

end Procedure

end SatModulo
