import SatModulo.LevelLog
import SatModulo.Theory.Basic

/-!
# Theories given by tables

A theory whose answers are written down: rules from facts to conflicts and consequences, reasons,
proposals, and what it says when asked to check. Nothing makes the answers right, so such theories show
what the core does with any theory.
-/
namespace SatModulo

/-- A rule with the turns it is for and the facts it needs. At its turn it gives its conflict if it
has one, and else makes its conclusion true. Read as a clause, the premises lead to the conclusion in
either case; a rule that has none is no reason for any literal. -/
structure TheoryRule where
  onPropagate : Bool := true
  onSolve : Bool := true
  premises : List Literal := []
  conflict : Option Clause := none
  conclusion : Option Literal := none
  /-- The marker of the conclusion; without one it is the number of facts. -/
  marker : Option Marker := none
  /-- The conflict to give if the conclusion is false. -/
  otherwise : Option Clause := none
  deriving DecidableEq, Repr

/-- What a rule makes true: its conclusion, or what is always false if it has none. -/
def TheoryRule.consequence (r : TheoryRule) : Literal := r.conclusion.getD .falsum

/-- A reason for a literal, under every marker or under one. -/
structure ReasonEntry where
  literal : Literal
  marker : Option Marker := none
  clause : Clause
  deriving DecidableEq, Repr

/-- A table of answers, and the facts it has been told. -/
structure RuleTable where
  index : Option Nat := none
  abilities : Capabilities := {}
  /-- Whether an index that it is given is not kept. -/
  forgetful : Bool := false
  rules : List TheoryRule := []
  reasons : List ReasonEntry := []
  proposals : List Proposal := []
  /-- Whether the first proposal is made also when its atom has a value. -/
  stubborn : Bool := false
  /-- The facts that satisfy the theory, if there is a way. -/
  satisfied : Option (List Literal) := none
  failsPropagated : Bool := false
  failsSolved : Bool := false
  log : LevelLog Literal := {}
  deriving DecidableEq, Repr

namespace RuleTable

def facts (t : RuleTable) : List Literal := t.log.entries

def applies (t : RuleTable) (r : TheoryRule) : Bool := r.premises.all t.facts.contains

/-- Follows rules in order, until one gives a conflict. -/
def follow (t : RuleTable) : List TheoryRule → Turn (Option Clause)
  | [] => return none
  | r :: rest => do
    if t.applies r then
      match r.conflict with
      | some clause => return some clause
      | none =>
        match r.otherwise, (← Turn.atoms).valueOf r.consequence with
        | some clause, some false => return some clause
        | _, _ =>
          let _ ← Turn.makeTrue r.consequence (r.marker.getD t.facts.length)
          follow t rest
    else follow t rest

def turn (chosen : TheoryRule → Bool) (t : RuleTable) : Turn (Option Clause × RuleTable) := do
  let conflict ← t.follow (t.rules.filter chosen)
  return (conflict, t)

/-- The reason for a literal: the first entry for it, or the first rule that concludes it, read as a
clause, or the literal alone. -/
def reason (t : RuleTable) (l : Literal) (marker : Marker) : Except Fault Clause :=
  match t.reasons.find? fun r => r.literal == l && r.marker.all (· == marker) with
  | some r => .ok r.clause
  | none =>
    match t.rules.find? (·.conclusion == some l) with
    | some r => do return l :: (← Literal.negateAll? r.premises)
    | none => .ok [l]

def propose (s : Atoms) (t : RuleTable) : Option Proposal :=
  if t.stubborn then t.proposals.head?
  else t.proposals.find? fun p => (s.value p.literal.atom).isNone

instance : Theory RuleTable where
  index? t := t.index
  setIndex i t := if t.forgetful then t else { t with index := some i }
  capabilities t := t.abilities
  openLevel t := { t with log := t.log.openLevel }
  backtrack level t :=
    { t with
      log := if t.abilities.lazyBacktracking then t.log.defer level else (t.log.backtrack level).2 }
  enqueue l t := .ok { t with log := t.log.record l }
  propagate := turn (·.onPropagate)
  solve := turn (·.onSolve)
  isSatisfied t := .ok (t.satisfied.any fun needed => needed.all t.facts.contains)
  decide s t := (t.propose s, t)
  buildReason l marker t := do return (← t.reason l marker, t)
  statistics detail t :=
    "scripted " ++ toString detail ++ ": " ++ toString t.facts.length ++ " facts\n"
  solution t := "scripted: " ++ Clause.text t.facts ++ "\n"
  checkPropagated s t :=
    .ok (!t.failsPropagated && t.facts.all fun l => s.valueOf l == some true)
  checkSolved _ t := !t.failsSolved

end RuleTable

/-- A theory that only remembers facts, with the answers of one that has nothing to say. -/
structure Recorder where
  index : Option Nat := none
  abilities : Capabilities := {}
  log : LevelLog Literal := {}
  deriving DecidableEq, Repr

instance : Theory Recorder where
  index? t := t.index
  setIndex i t := { t with index := some i }
  capabilities t := t.abilities
  openLevel t := { t with log := t.log.openLevel }
  backtrack level t := { t with log := (t.log.backtrack level).2 }
  enqueue l t := .ok { t with log := t.log.record l }
  propagate t := return (none, t)
  solve t := return (none, t)
  buildReason l _ t := .ok ([l], t)

end SatModulo
