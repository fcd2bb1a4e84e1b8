import SatModulo.Fault

/-!
# Atoms and literals

An atom is a number; atom `0` is fixed to true. A literal is a signed number in the range of 32 bits, as in
DIMACS files: its absolute value is the atom and its sign the polarity. `0` is the literal that is always false:
it is its own negation and stands on the atom that is true. See `SPEC_FULL.md`, line 32.
-/
namespace SatModulo

abbrev Atom := Nat

/-- The atom that is true in every valuation. -/
def topAtom : Atom := 0

/-- The greatest atom both of whose literals exist. -/
def maxAtom : Atom := 0x7fffffff

/-- An atom with a polarity, written as a signed number. -/
structure Literal where
  code : Int
  deriving DecidableEq, Repr

namespace Literal

def atom (l : Literal) : Atom := l.code.natAbs

def polarity (l : Literal) : Bool := decide (0 < l.code)

def negate (l : Literal) : Literal := ⟨-l.code⟩

/-- The literal that is false in every valuation. -/
def falsum : Literal := ⟨0⟩

/-- A position for each literal: the two literals of an atom are neighbours, the negative one first. -/
def index (l : Literal) : Nat := 2 * l.atom + (if l.polarity then 1 else 0)

/-- The least signed number of 32 bits. It alone has no negation in that range. -/
def least : Literal := ⟨-0x80000000⟩

/-- The negation, where there is one. -/
def negate? (l : Literal) : Except Fault Literal :=
  if l = least then .error .noNegation else .ok l.negate

def negateAll? (literals : List Literal) : Except Fault (List Literal) := literals.mapM negate?

/-- The literal that asserts an atom. The atom is read as a signed number of 32 bits, so an atom above
`maxAtom` gives a literal of another atom, or of the other polarity. -/
def positive (a : Atom) : Literal := ⟨Int.bmod a UInt32.size⟩

def ofAtom (a : Atom) (polarity : Bool) : Except Fault Literal :=
  if polarity then .ok (positive a) else (positive a).negate?

@[simp] theorem negate_negate (l : Literal) : l.negate.negate = l := by
  simp [negate]

@[simp] theorem atom_negate (l : Literal) : l.negate.atom = l.atom := by
  simp [negate, atom]

end Literal

end SatModulo
