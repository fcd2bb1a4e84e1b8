import SatModulo.Theory.Turn

/-!
# Theories

What the core asks of a theory. A theory is told of the atoms it observes as they get values, level by level,
and is asked for consequences, conflicts, reasons and decisions. Its state is a value of a type of its own. Most
of the questions have an answer that suits a theory which has nothing to say. The questions and what each of
them asks for are in `SPEC_FULL.md`, lines 50 to 73.
-/
namespace SatModulo

/-- What a theory can do beyond the least; looked at once, when the theory is registered. -/
structure Capabilities where
  decisions : Bool := false
  lazyBacktracking : Bool := false
  deferredEnqueue : Bool := false
  clearSatisfied : Bool := false
  satisfactionHint : Bool := false
  deriving DecidableEq, Repr

/-- A literal that a theory wants to be decided. -/
structure Proposal where
  literal : Literal
  reason : Option Marker := none
  deriving DecidableEq, Repr

/-- A theory with states of type `σ`. A clause as the outcome of a turn is a conflict: every literal
of it should be false. -/
class Theory (σ : Type) where
  /-- The index under which the theory was registered. -/
  index? : σ → Option Nat
  setIndex : Nat → σ → σ
  capabilities : σ → Capabilities := fun _ => {}
  /-- Called once, before the first decision. -/
  preprocess : σ → σ := id
  /-- Tells whether a literal of an observed atom occurs in a clause. -/
  noteOccurs : Literal → Bool → σ → σ := fun _ _ s => s
  openLevel : σ → σ
  /-- Takes back all facts above a level. -/
  backtrack : Nat → σ → σ
  /-- Tells that a literal is true. -/
  enqueue : Literal → σ → Except Fault σ
  /-- A chance to take note of facts that were put off. -/
  flush : Atoms → σ → σ := fun _ s => s
  /-- There are new facts at the base level. -/
  clearSatisfied : σ → Except Fault σ := .ok
  /-- Draws consequences from the facts. -/
  propagate : σ → Turn (Option Clause × σ)
  /-- Decides whether the facts, with every atom valued, are in order. -/
  solve : σ → Turn (Option Clause × σ)
  /-- Whether nothing can go wrong any more. -/
  isSatisfied : σ → Except Fault Bool := fun _ => .ok false
  /-- A literal to be decided. -/
  decide : Atoms → σ → Option Proposal × σ := fun _ s => (none, s)
  /-- Tells that a decision on a proposal was taken back. -/
  undecide : Literal → σ → σ := fun _ s => s
  /-- The clause from which a literal followed when it was made true. -/
  buildReason : Literal → Marker → σ → Except Fault (Clause × σ)
  statistics : Nat → σ → String := fun _ _ => ""
  solution : σ → String := fun _ => ""
  witness : σ → String := fun _ => ""
  /-- Whether a fixpoint is one in the eyes of the theory. -/
  checkPropagated : Atoms → σ → Except Fault Bool := fun _ _ => .ok true
  /-- Whether the valuation is one in the eyes of the theory. -/
  checkSolved : Atoms → σ → Bool := fun _ _ => true

/-- A call of a theory by the core, with what was answered. -/
inductive Call where
  | setIndex (index : Nat)
  | preprocess
  | noteOccurs (l : Literal) (occurs : Bool)
  | openLevel
  | backtrack (level : Nat)
  | enqueue (l : Literal)
  | clearSatisfied
  | undecide (l : Literal)
  /-- The level and the number of assignments at the time. -/
  | flush (level : Nat) (assignments : Nat)
  /-- The level, the literals made true and the conflict, if there was one. -/
  | propagate (level : Nat) (valued : List Literal) (conflict : Option Clause)
  | solve (level : Nat) (valued : List Literal) (conflict : Option Clause)
  | isSatisfied (answer : Bool)
  | decide (proposal : Option Proposal)
  | buildReason (l : Literal) (marker : Marker) (reason : Clause)
  | checkPropagated (answer : Bool)
  | checkSolved (answer : Bool)
  deriving DecidableEq, Repr

end SatModulo
