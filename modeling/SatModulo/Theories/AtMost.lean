import SatModulo.LevelLog
import SatModulo.Theory.Basic

/-!
# At most so many

The theory that at most a given number of some literals are true. Once that many are true, every other one is
made false; the reason is the first true ones in the log, as it was then. The theory backtracks lazily, and
remembers when the literals that are false at the base level leave no way to exceed the bound. This is the
theory of `SPEC_FULL.md`, line 149.
-/
namespace SatModulo

structure AtMostCounters where
  propagations : Nat := 0
  conflicts : Nat := 0
  reasons : Nat := 0
  deriving DecidableEq, Repr

/-- The literals, without repetition, of which at most `bound` may be true, and what is known. -/
structure AtMost where
  index : Option Nat := none
  members : List Literal
  bound : Nat
  /-- The facts on members and on negations of members. -/
  log : LevelLog Literal := {}
  /-- The bound can never be exceeded any more. -/
  satisfiedAtBase : Bool := false
  /-- A member could not be made false, as its atom is unknown. -/
  failed : Bool := false
  counters : AtMostCounters := {}
  deriving DecidableEq, Repr

namespace AtMost

def ofMembers (members : List Literal) (bound : Nat) : AtMost :=
  { members := Clause.addAllNew [] members, bound }

def atoms (t : AtMost) : List Atom := t.members.map (·.atom)

/-- The members among some facts, in the order of the facts. -/
def trueMembers (t : AtMost) (facts : List Literal) : List Literal := facts.filter (· ∈ t.members)

/-- How many facts falsify a member. -/
def falseCount (t : AtMost) (facts : List Literal) : Except Fault Nat := do
  let opposites ← Literal.negateAll? facts
  return (t.trueMembers opposites).length

/-- Whether so many members are false that the bound cannot be exceeded. -/
def cannotExceed (t : AtMost) : Except Fault Bool := do
  let falsified ← t.falseCount t.log.entries
  return decide (t.members.length - t.bound ≤ falsified)

/-- The reason for a literal that was made true when the log had the given length: the members that
were true first then, as many as the bound allows. -/
def reason (t : AtMost) (l : Literal) (length : Marker) : Except Fault Clause := do
  let causes ← Literal.negateAll? ((t.trueMembers (t.log.firstEntries length)).take t.bound)
  return l :: causes

def falsify (t : AtMost) : List Literal → Turn (Option Clause × AtMost)
  | [] => return (none, t)
  | member :: rest => do
    let l ← Turn.ofExcept member.negate?
    match ← Turn.makeTrue l t.log.length with
    | .ok .unset =>
      falsify { t with counters.propagations := t.counters.propagations + 1 } rest
    | .ok .same => falsify t rest
    | .ok .different =>
      let clause ← Turn.ofExcept (t.reason l t.log.length)
      return (some clause, { t with counters.conflicts := t.counters.conflicts + 1 })
    | .error _ => return (none, { t with failed := true })

/-- Looks at the facts: too many true members are a conflict, and just as many as are allowed make all
others false. -/
def examine (t : AtMost) : Turn (Option Clause × AtMost) :=
  let trueMembers := t.trueMembers t.log.entries
  if t.bound < trueMembers.length then do
    let excess ← Turn.ofExcept (entriesBefore trueMembers (t.bound + 1))
    let clause ← Turn.ofExcept (Literal.negateAll? excess)
    return (some clause, { t with counters.conflicts := t.counters.conflicts + 1 })
  else if trueMembers.length < t.bound then return (none, t)
  else t.falsify (t.members.filter (· ∉ trueMembers))

/-- Whether every fact is true, and nothing was left to be derived from the facts. -/
def isPropagated (s : Atoms) (t : AtMost) : Bool :=
  let facts := t.log.entries
  let trueCount := (t.trueMembers facts).length
  !t.failed && facts.all (fun l => s.valueOf l == some true) && decide (trueCount ≤ t.bound) &&
    (decide (trueCount < t.bound) || t.members.all fun l => (s.valueOf l).isSome)

def isSolved (s : Atoms) (t : AtMost) : Bool :=
  decide ((t.members.filter fun l => s.valueOf l == some true).length ≤ t.bound)

def statisticsText (detail : Nat) (t : AtMost) : String :=
  "at most " ++ toString t.bound ++ " of " ++ toString t.members.length ++ ": " ++
    toString t.counters.propagations ++ " propagations, " ++
    toString t.counters.conflicts ++ " conflicts, " ++
    toString t.counters.reasons ++ " reasons\n" ++
    (if 0 < detail then "  members: " ++ Clause.text t.members ++ "\n" else "")

instance : Theory AtMost where
  index? t := t.index
  setIndex i t := { t with index := some i }
  capabilities _ := { lazyBacktracking := true, clearSatisfied := true, satisfactionHint := true }
  openLevel t := { t with log := t.log.openLevel }
  backtrack level t := { t with log := t.log.defer level }
  enqueue l t := do
    if l ∈ t.members then return { t with log := t.log.record l }
    else if (← l.negate?) ∈ t.members then return { t with log := t.log.record l }
    else return t
  clearSatisfied t := do
    if t.log.level = 0 then
      if ← t.cannotExceed then return { t with satisfiedAtBase := true }
      else return t
    else return t
  propagate t := if t.satisfiedAtBase then return (none, t) else t.examine
  solve t := t.examine
  isSatisfied t := if t.satisfiedAtBase then .ok true else t.cannotExceed
  buildReason l marker t := do
    let clause ← t.reason l marker
    return (clause, { t with counters.reasons := t.counters.reasons + 1 })
  statistics := statisticsText
  solution t :=
    "at most " ++ toString t.bound ++ ": " ++ Clause.text (t.trueMembers t.log.entries) ++ "\n"
  witness t := Clause.line (t.trueMembers t.log.entries) ++ "\n"
  checkPropagated s t := .ok (t.isPropagated s)
  checkSolved := isSolved

/-- Among more true members than the bound allows there are those that a conflict takes. -/
theorem examine_eq (t : AtMost) : t.examine =
    if t.bound < (t.trueMembers t.log.entries).length then do
      let clause ← Turn.ofExcept (Literal.negateAll? ((t.trueMembers t.log.entries).take (t.bound + 1)))
      return (some clause, { t with counters.conflicts := t.counters.conflicts + 1 })
    else if (t.trueMembers t.log.entries).length < t.bound then return (none, t)
    else t.falsify (t.members.filter (· ∉ t.trueMembers t.log.entries)) := by
  unfold examine
  dsimp only
  split
  · rename_i more
    rw [entriesBefore_of_le more]
    rfl
  · rfl

end AtMost

end SatModulo
