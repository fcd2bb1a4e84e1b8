import SatModulo.LevelLog
import SatModulo.Theories.Graph
import SatModulo.Theory.Basic

/-!
# Reachability

The theory that an atom is true exactly when the true edges of a graph contain a path from a source to a target.
A path of true edges makes the atom true, and is the reason; edges that are false and leave no path make it
false, and the false edges out of what may be reached are the reason. While the atom is true and no path is, the
theory proposes the edges of a path that is still possible. This is the theory of `SPEC_FULL.md`, line 150.
-/
namespace SatModulo

structure ReachabilityCounters where
  propagations : Nat := 0
  conflicts : Nat := 0
  reasons : Nat := 0
  /-- Proposals that were decided. -/
  decisions : Nat := 0
  /-- Consequences left out because they occur in no clause. -/
  skipped : Nat := 0
  deriving DecidableEq, Repr

/-- The graph, its two nodes and the atom, and what is known. -/
structure Reachability where
  index : Option Nat := none
  graph : Graph
  source : Nat
  target : Nat
  reach : Atom
  /-- The facts. -/
  log : LevelLog Literal := {}
  /-- Whether literals occur in clauses, latest word first. -/
  occurs : List (Literal × Bool) := []
  /-- The proposals that were decided and stand, oldest first. -/
  decisions : List Literal := []
  /-- The last proposal and the level it was made at, while it may still be decided. -/
  proposal : Option (Literal × Nat) := none
  /-- A consequence could not be drawn, as the atom is unknown. -/
  failed : Bool := false
  counters : ReachabilityCounters := {}

/-- The value that facts give an atom; the latest fact counts. -/
def factValue (facts : List Literal) (a : Atom) : Option Bool :=
  (facts.reverse.find? (·.atom == a)).map (·.polarity)

namespace Reachability

/-- Reachability in a graph without edges, on as many nodes as are given and its two nodes need. -/
def ofNodes (nodes source target : Nat) (reach : Atom) (listing : Listing := .latestFirst) : Reachability :=
  { graph := { nodes := max nodes (max (source + 1) (target + 1)), listing }, source, target, reach }

def addEdge (t : Reachability) (e : Edge) : Reachability := { t with graph := t.graph.addEdge e }

def atoms (t : Reachability) : List Atom := t.reach :: t.graph.edges.map (·.atom)

/-- Whether a literal occurs in a clause; while nothing is known it may. -/
def mayOccur (t : Reachability) (l : Literal) : Bool :=
  ((t.occurs.find? (·.1 == l)).map (·.2)).getD true

def truePath (t : Reachability) (facts : List Literal) : Option (List Edge) :=
  t.graph.shortestPath (fun a => factValue facts a == some true) t.source t.target

def possiblePath (t : Reachability) (facts : List Literal) : Option (List Edge) :=
  t.graph.shortestPath (fun a => factValue facts a != some false) t.source t.target

/-- The clause of a path: if its edges are true, the target is reached. -/
def pathClause (t : Reachability) (path : List Edge) : Except Fault Clause := do
  let missing ← path.mapM fun e => Literal.ofAtom e.atom false
  return Clause.addAllNew [.positive t.reach] missing

/-- The clause of a cut: if the target is reached, an edge out of what may be reached is true. -/
def cutClause (t : Reachability) (facts : List Literal) : Except Fault Clause := do
  let near := t.graph.reachable (fun a => factValue facts a != some false) t.source
  let crossing := t.graph.edges.filter fun e => near.contains e.source && !near.contains e.target
  let unreached ← Literal.ofAtom t.reach false
  return Clause.addAllNew [unreached] (crossing.map fun e => .positive e.atom)

/-- The reason for a literal that was made true when the log had the given length. -/
def reason (t : Reachability) (l : Literal) (length : Marker) : Except Fault Clause :=
  let facts := t.log.firstEntries length
  if l.polarity then
    match t.truePath facts with
    | some path => t.pathClause path
    | none => .ok [l]
  else t.cutClause facts

/-- What follows from the facts: a clause whose first literal is on the atom of reachability, and which
the facts make force that literal. Nothing, if the atom has the value already or can have either. -/
def consequence (t : Reachability) (facts : List Literal) : Except Fault (Option Clause) :=
  let value := factValue facts t.reach
  match t.truePath facts with
  | some path => if value = some true then .ok none else (t.pathClause path).map some
  | none =>
    match t.possiblePath facts with
    | some _ => .ok none
    | none => if value = some false then .ok none else (t.cutClause facts).map some

def countConflict (t : Reachability) : Reachability :=
  { t with counters.conflicts := t.counters.conflicts + 1 }

/-- Draws the consequence of the facts. If the atom has the other value, the clause is a conflict. -/
def examine (skipUnoccurring : Bool) (t : Reachability) : Turn (Option Clause × Reachability) := do
  let facts := t.log.entries
  match ← Turn.ofExcept (t.consequence facts) with
  | none => return (none, t)
  | some [] => .fault .outOfRange
  | some (l :: rest) =>
    if (factValue facts t.reach).isSome then return (some (l :: rest), t.countConflict)
    else if skipUnoccurring && !t.mayOccur l then
      return (none, { t with counters.skipped := t.counters.skipped + 1 })
    else
      match ← Turn.makeTrue l t.log.length with
      | .ok .unset =>
        return (none, { t with counters.propagations := t.counters.propagations + 1 })
      | .ok .same => return (none, t)
      | .ok .different => return (some (l :: rest), t.countConflict)
      | .error _ => return (none, { t with failed := true })

/-- The first edge without a value on a path that is still possible, if the target is to be reached and
is not yet. -/
def propose (s : Atoms) (t : Reachability) : Option Atom :=
  let facts := t.log.entries
  if factValue facts t.reach = some true ∧ t.truePath facts = none then
    (t.possiblePath facts).bind fun path => (path.map (·.atom)).find? fun a => (s.value a).isNone
  else none

/-- Proposes an edge to be decided, and notes the proposal. -/
def proposal? (s : Atoms) (t : Reachability) : Option Proposal × Reachability :=
  match t.propose s with
  | none => (none, t)
  | some a =>
    let l := Literal.positive a
    (some ⟨l, some t.log.length⟩, { t with proposal := some (l, s.level) })

/-- Takes note of the fate of a proposal: the first fact at a later level tells whether it was decided. -/
def settleProposal (l : Literal) (t : Reachability) : Reachability :=
  match t.proposal with
  | none => t
  | some (proposed, level) =>
    if level < t.log.level then
      if proposed = l then
        { t with
          proposal := none
          decisions := t.decisions ++ [l]
          counters.decisions := t.counters.decisions + 1 }
      else { t with proposal := none }
    else t

/-- Whether every fact is true, and nothing was left to be derived from the facts but what occurs in no
clause. -/
def isPropagated (s : Atoms) (t : Reachability) : Except Fault Bool :=
  let facts := t.log.entries
  if t.failed || !facts.all fun l => s.valueOf l == some true then .ok false
  else
    match t.truePath facts, factValue facts t.reach with
    | some _, some value => .ok value
    | some _, none => .ok (!t.mayOccur (.positive t.reach))
    | none, value =>
      if (t.possiblePath facts).isSome then .ok true
      else
        match value with
        | some value => .ok (!value)
        | none => do return !t.mayOccur (← Literal.ofAtom t.reach false)

def isSolved (s : Atoms) (t : Reachability) : Bool :=
  let near := t.graph.reachable (fun a => s.value a == some true) t.source
  s.value t.reach == some (near.contains t.target)

/-- The two nodes, as they are named in texts. -/
def ends (t : Reachability) : String :=
  "reach " ++ toString t.source ++ " -> " ++ toString t.target ++ ": "

def statisticsText (detail : Nat) (t : Reachability) : String :=
  t.ends ++ toString t.counters.propagations ++ " propagations, " ++
    toString t.counters.conflicts ++ " conflicts, " ++
    toString t.counters.reasons ++ " reasons, " ++
    toString t.counters.decisions ++ " decisions, " ++
    toString t.counters.skipped ++ " skipped\n" ++
    (if 0 < detail then
      "  " ++ toString t.graph.nodes ++ " nodes, " ++ toString t.graph.edges.length ++ " edges\n"
    else "")

/-- Whether the target is reached, and how many edges are enabled. -/
def solutionText (t : Reachability) : String :=
  let facts := t.log.entries
  let enabled := t.graph.edges.filter fun e => factValue facts e.atom == some true
  t.ends ++ toString (factValue facts t.reach == some true) ++ ", " ++ toString enabled.length ++
    " of " ++ toString t.graph.edges.length ++ " edges enabled\n"

/-- The nodes of a path of true edges, if there is one. -/
def witnessText (t : Reachability) : String :=
  match t.truePath t.log.entries with
  | some path =>
    "path " ++ " ".intercalate ((t.source :: path.map (·.target)).map toString) ++ "\n"
  | none => "no path\n"

instance : Theory Reachability where
  index? t := t.index
  setIndex i t := { t with index := some i }
  capabilities _ := { decisions := true }
  noteOccurs l occurs t := { t with occurs := (l, occurs) :: t.occurs }
  openLevel t := { t with log := t.log.openLevel }
  backtrack level t := { t with log := (t.log.backtrack level).2, proposal := none }
  enqueue l t :=
    let t := t.settleProposal l
    .ok { t with log := t.log.record l }
  propagate := examine true
  solve := examine false
  decide := proposal?
  undecide l t := { t with decisions := (t.decisions.reverse.erase l).reverse }
  buildReason l marker t := do
    let clause ← t.reason l marker
    return (clause, { t with counters.reasons := t.counters.reasons + 1 })
  statistics := statisticsText
  solution := solutionText
  witness := witnessText
  checkPropagated := isPropagated
  checkSolved := isSolved

end Reachability

end SatModulo
