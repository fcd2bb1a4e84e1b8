import SatModulo.Context

/-!
# Decisions

A decision opens a level and makes a literal true there. Theories are asked first, in the order of the schedule;
if none has a proposal of use, an atom without a value is taken, the first one or a random one. The delegation
is that of `SPEC_FULL.md`, lines 85 to 87, the choice of the core that of line 144.
-/
namespace SatModulo

inductive Decision where
  | decided (l : Literal)
  /-- Every atom has a value. -/
  | exhausted
  deriving DecidableEq, Repr

namespace Atoms

/-- Whether a literal can be decided: its atom is known, is not the true one, and has no value. -/
def isOpen (s : Atoms) (l : Literal) : Bool :=
  l.atom != topAtom && decide (l.atom < s.count) && (s.value l.atom).isNone

end Atoms

namespace Procedure

variable {σ : Type}

/-- An atom without a value: a random one if the draw says so, else the first. -/
def atomWithoutValue : Procedure σ (Option Atom) := do
  let atRandom ← chance (← get).settings.randomDecisionBias.value
  let c ← get
  if atRandom then
    let (atom, random) := c.settings.host.sampler.choose c.atoms.unvalued c.random
    modify fun c => { c with random }
    return atom
  else return c.atoms.unvalued.head?

/-- The value to decide for an atom: the one it last had, or a random one. -/
def valueToDecide (a : Atom) : Procedure σ Bool := do
  let c ← get
  if c.settings.phaseSaving.value then return c.atoms.previousValue a
  else chance c.settings.polarityBias.value

variable [Theory σ]

/-- Prepares the theories that have not been prepared, with word of what occurs in clauses. -/
def preprocess : Procedure σ Unit := do
  let c ← get
  setTheories (← ofFaulty (c.theories.preprocess c.clauses.occurs))

/-- Opens a level with a literal as its decision. Theories have then been told of all that is on the
trail before it. -/
def applyDecision (l : Literal) (proposer : Option (Nat × Option Marker)) : Procedure σ Unit := do
  deliverAll
  let c ← get
  let atoms := c.atoms.openLevel
  let theories ← ofFaulty c.theories.openLevel
  setAtoms atoms
  setTheories <| match proposer with
    | none => theories
    | some (theory, reason) => theories.recordDecision ⟨atoms.level, theory, l, reason⟩
  let _ ← assign l .decision
  count fun n => { n with decisions := n.decisions + 1 }
  setPhase .solving

def decideLiteral (l : Literal) : Procedure σ Unit := do
  let s := (← get).atoms
  if l.atom = topAtom ∨ s.count ≤ l.atom then throw (.atom .unknown)
  if (s.value l.atom).isSome then throw .valuationConflict
  preprocess
  applyDecision l none

/-- Asks theories in turn for a proposal that can be decided. What a theory proposes in vain is passed
over. The indices are those of theories. -/
def askForProposal : List Nat → Procedure σ (Option (Nat × Proposal))
  | [] => return none
  | i :: rest => do
    let c ← get
    match c.theories.capabilities i with
    | none => ofFaulty (.error .outOfRange)
    | some capabilities =>
      if capabilities.decisions then
        let (proposal, theories) ← ofFaulty (c.theories.changeAt i fun m =>
          let (proposal, theory) := Theory.decide c.atoms m.theory
          .ok (proposal, { m with theory }, [.decide proposal]))
        setTheories theories
        match proposal.join with
        | some proposal =>
          if c.atoms.isOpen proposal.literal then return some (i, proposal)
          else askForProposal rest
        | none => askForProposal rest
      else askForProposal rest

/-- Decides a literal, if there is an atom without a value. -/
def makeDecision : Procedure σ Decision := do
  preprocess
  match ← askForProposal (← get).theories.schedule.order with
  | some (i, proposal) =>
    count fun n => { n with theoryDecisions := n.theoryDecisions + 1 }
    applyDecision proposal.literal (some (i, proposal.reason))
    return .decided proposal.literal
  | none =>
    match ← atomWithoutValue with
    | none => return .exhausted
    | some a =>
      let l ← ofFaulty (Literal.ofAtom a (← valueToDecide a))
      applyDecision l none
      return .decided l

end Procedure

end SatModulo
