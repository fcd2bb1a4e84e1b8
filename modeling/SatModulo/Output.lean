import SatModulo.Context

/-!
# Texts about theories

What the theories of a context write about themselves, in the order of their indices, and sinks that take only
so much of a text. What can be written, and when, is in `SPEC_FULL.md`, lines 98 and 99.
-/
namespace SatModulo

/-- What a sink takes of a text. A sink with a capacity takes that many characters, and more is an
error; every character of a text is a single byte. -/
def intoSink (capacity : Option Nat) (text : String) : Except Error Unit × String :=
  match capacity with
  | none => (.ok (), text)
  | some n =>
    if n < text.length then (.error .brokenPipe, String.ofList (text.toList.take n))
    else (.ok (), text)

namespace Context

variable {σ : Type} [Theory σ]

/-- The texts that the theories give, one after the other. -/
def textOf (c : Context σ) (f : σ → String) : String :=
  String.join (c.theories.members.map fun m => f m.theory)

/-- What the theories have done, in more or less detail. -/
def statistics (c : Context σ) (detail : Nat) : String := c.textOf (Theory.statistics detail)

/-- A text of a solution; there is one only while the context is known to be satisfiable. -/
def ofSolution (c : Context σ) (f : σ → String) : Except Error String :=
  if c.phase = .satisfiable then .ok (c.textOf f) else .error .invalidState

/-- The parts of the theories in the solution. -/
def solutions (c : Context σ) : Except Error String := c.ofSolution Theory.solution

/-- What shows that the theories agree with the solution. -/
def witnesses (c : Context σ) : Except Error String := c.ofSolution Theory.witness

end Context

end SatModulo
