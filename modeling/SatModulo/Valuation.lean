import SatModulo.Literal

/-!
# Valuations

A partial function from an initial segment of the atoms to truth values, listed by atom.
-/
namespace SatModulo

/-- The values of the atoms `0, 1, …`, where `none` stands for an atom without a value. -/
abbrev Valuation := List (Option Bool)

namespace Valuation

/-- The value of an atom; an atom outside the valuation has none. -/
def value (v : Valuation) (a : Atom) : Option Bool := v[a]?.join

/-- The atoms other than the first that have a value, with it, in ascending order. -/
def valued (v : Valuation) : List (Atom × Bool) :=
  (v.zipIdx.drop 1).filterMap fun (value, a) => value.map (a, ·)

/-- The atoms without a value, in ascending order. -/
def unvalued (v : Valuation) : List Atom :=
  v.zipIdx.filterMap fun (value, a) => if value.isNone then some a else none

end Valuation

inductive Status where
  | unset
  | same
  | different
  deriving DecidableEq, Repr

namespace Literal

def valueOn (value : Atom → Option Bool) (l : Literal) : Option Bool :=
  (value l.atom).map (· == l.polarity)

/-- The status of a literal under the values of the atoms. -/
def statusOn (value : Atom → Option Bool) (l : Literal) : Status :=
  match l.valueOn value with
  | none => .unset
  | some true => .same
  | some false => .different

end Literal

end SatModulo
