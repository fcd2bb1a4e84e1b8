import SatModulo.Building
import SatModulo.Search.Solve

/-!
# Sessions

A session takes commands one by one: it builds a context, searches step by step or all at once, and
keeps the last conflict that a command found until it is recovered from. A run is a list of commands;
a fault ends it.
-/
namespace SatModulo

inductive Command (σ : Type) where
  | freshAtom
  | freshLiterals (count : Nat)
  | ensureAtom (a : Atom)
  | addClause (clause : Clause)
  | addTheory (theory : σ)
  | observe (i : Nat) (a : Atom)
  | setPriority (i : Nat) (priority : Int)
  | setActivity (i : Nat) (activity : Activity)
  | changeSetting (change : SettingChange)
  | preprocess
  | decideLiteral (l : Literal)
  | makeDecision
  | propagateUnits
  | propagate
  | propagateTheory (i : Nat)
  | finalCheck
  /-- Recovers from the conflict that is kept. -/
  | recover
  | recoverFrom (conflict : Conflict)
  | analyse (clause : Clause)
  | backjump (level : Nat)
  | clearDecisions
  | checkPropagated
  | checkSolved
  | solve
  deriving Repr

inductive Answer where
  | done
  | atom (a : Atom)
  | literals (ls : List Literal)
  | clause (outcome : ClauseOutcome)
  | theory (index : Nat)
  | decision (d : Decision)
  | fixpoint
  | conflict (c : Conflict)
  | finalCheck (outcome : FinalCheck)
  | recovery (r : Recovery)
  /-- There was no conflict to recover from. -/
  | noConflict
  | learnt (l : Learnt)
  | report (r : Report)
  deriving DecidableEq, Repr

def Answer.conflict? : Answer → Option Conflict
  | .conflict c => some c
  | .finalCheck (.conflict c) => some c
  | _ => none

def Error.conflict? : Error → Option Conflict
  | .propagation (.conflict key) => some (.clause key)
  | _ => none

/-- A context and the conflict to recover from. -/
structure Session (σ : Type) where
  context : Context σ
  kept : Option Conflict := none

namespace Command

variable {σ : Type} [Theory σ]

/-- What a command does, where `kept` is the conflict to recover from. -/
def procedure (kept : Option Conflict) : Command σ → Procedure σ Answer
  | .freshAtom => return .atom (← Procedure.freshAtom)
  | .freshLiterals count => return .literals (← Procedure.freshLiterals count)
  | .ensureAtom a => do
    Procedure.ensureAtom a
    return .done
  | .addClause clause => return .clause (← Procedure.addClause clause)
  | .addTheory theory => return .theory (← Procedure.addTheory theory)
  | .observe i a => do
    Procedure.observe i a
    return .done
  | .setPriority i priority => do
    Procedure.setPriority i priority
    return .done
  | .setActivity i activity => do
    Procedure.setActivity i activity
    return .done
  | .changeSetting change => do
    let c ← get
    let settings ← Procedure.ofExcept .setting (c.settings.change c.phase change)
    set { c with settings }
    return .done
  | .preprocess => do
    Procedure.preprocess
    return .done
  | .decideLiteral l => do
    Procedure.decideLiteral l
    return .done
  | .makeDecision => return .decision (← Procedure.makeDecision)
  | .propagateUnits => do
    Procedure.propagateUnits
    return .done
  | .propagate => return ((← Procedure.propagate).map .conflict).getD .fixpoint
  | .propagateTheory i => return ((← Procedure.propagateTheory i).map .conflict).getD .done
  | .finalCheck => return .finalCheck (← Procedure.finalCheck)
  | .recover =>
    match kept with
    | none => return .noConflict
    | some conflict => return .recovery (← Procedure.recover conflict)
  | .recoverFrom conflict => return .recovery (← Procedure.recover conflict)
  | .analyse clause => return .learnt (← Procedure.analyse clause)
  | .backjump level => do
    Procedure.backjump level
    return .done
  | .clearDecisions => do
    Procedure.clearDecisions
    return .done
  | .checkPropagated => do
    Procedure.checkPropagated
    return .done
  | .checkSolved => do
    Procedure.checkSolved
    return .done
  | .solve => return .report (← Procedure.solve)

/-- The conflict that is kept after a command: the one it found, or else the one before, unless the
command recovered from it. -/
def keptAfter (kept : Option Conflict) (result : Except Error Answer) : Command σ → Option Conflict
  | .recover => none
  | _ =>
    let found := match result with
      | .ok answer => answer.conflict?
      | .error e => e.conflict?
    found.or kept

end Command

namespace Session

variable {σ : Type} [Theory σ]

def ofSettings (settings : Settings) : Session σ := { context := .ofSettings settings }

def step (s : Session σ) (command : Command σ) : Except Fault (Except Error Answer × Session σ) := do
  let (result, context) ← s.context.run (command.procedure s.kept)
  return (result, { context, kept := command.keptAfter s.kept result })

def run (s : Session σ) : List (Command σ) → Except Fault (List (Except Error Answer) × Session σ)
  | [] => .ok ([], s)
  | command :: rest => do
    let (result, s) ← s.step command
    let (results, s) ← s.run rest
    return (result :: results, s)

end Session

end SatModulo
